import Klados.Destroy

/-!
RUNNING rows. `create_run` commits a RUNNING row before it boots the VM and `destroy_instance` takes the
VM out of `LIVE` before it marks the row, so a call that fails in between leaves a RUNNING row without
a VM, as does a restart of the daemon. In every run without those failures each RUNNING row has
its VM in `LIVE` when no request is in progress (`running_live`).
-/
namespace Klados
open Effects

variable {P : Platform}

/-- The request is booting the instance behind a row, or removing it. -/
def BootStage.covers (g : BootStage) (iid : Id) : Bool :=
  g.booting.any (fun b => b.iid = iid && b.birth ≠ .made) || g.closing.any (·.iid = iid)

/-- The VM of the row is in `LIVE`, or another request than that of thread `t` is booting or removing it. -/
def ManningPool.kept (pool : ManningPool) (t : Nat) (row : InstanceRow) : Bool :=
  pool.world.1.mem.live.contains row.id ||
    (List.range pool.threads.length).any fun t' => t' ≠ t && (pool.world.2.own t').covers row.id

/-- The call raises. -/
def raises (P : Platform) (t : Nat) (op : Op) (choice : Choice) (w : World) : Bool :=
  match exec P t op choice w with
  | some (.error _,_) => true
  | _ => false

/-- No call fails while its request is booting or removing an instance whose committed row says RUNNING;
    no destroy takes out of `LIVE` what another request has put there and not yet committed; the
    daemon is restarted only while no committed row says RUNNING. -/
def spares (P : Platform) (pool : ManningPool) : Action Req Choice Move → Bool
  | .call t choice =>
    match pool.about t with
    | some op =>
      (raises P t op choice pool.world.1 → pool.world.1.db.committed.instances.all fun row =>
        row.state ≠ .RUNNING || !(pool.world.2.own t).covers row.id || pool.kept t row) &&
      (match op with
        | .mem (.livePop iid) => (List.range pool.threads.length).all fun t' =>
            t' = t || !(pool.world.2.own t').children.contains iid
        | _ => true)
    | none => true
  | .reboot => pool.world.1.db.committed.instances.all (·.state ≠ .RUNNING)
  | _ => true

section
variable {g : BootStage} {op : Op} {outcome : Except Exn op.Res} {iid : Id}

theorem covers_iff : g.covers iid ↔
    (∃ b, g.booting = some b ∧ b.iid = iid ∧ b.birth ≠ .made) ∨ ∃ c, g.closing = some c ∧ c.iid = iid := by
  simp [BootStage.covers,Option.any_eq_true]

theorem BootStage.Clear.covers (clear : g.Clear) : g.covers iid = false := by
  by_contra covered
  rcases covers_iff.mp (by simpa using covered) with ⟨b,booting,_,known⟩ | ⟨c,closing,_⟩
  · exact known (clear.booting b booting)
  · exact absurd (clear.closing.symm.trans closing) (by simp)

/-- What a request covers before a call that returns it covers after it, unless the call puts the VM
    into `LIVE`, commits the mark, or rolls the row back. -/
theorem BootStage.sees_covers (value : op.Res) (covered : g.covers iid) (may : g.may op) :
    (g.sees op (.ok value)).covers iid ∨ op = .mem (.liveSet iid) ∨
      (op = .db .commit ∧ ∃ c, g.closing = some c ∧ c.iid = iid ∧ c.marked = true) ∨
      (op = .db .rollback ∧ g.booting = some ⟨iid,.written⟩) := by
  rw [covers_iff] at covered ⊢
  unfold BootStage.sees
  split
  case h_1 =>
    have clear : BootStage.Clear _ := may
    rcases covered with ⟨b,booting,_,known⟩ | ⟨c,closing,_⟩
    · exact absurd (clear.booting b booting) known
    · exact absurd (clear.closing.symm.trans closing) (by simp)
  case h_2 =>
    obtain ⟨b',own,named,_⟩ := may
    rcases covered with ⟨b,booting,same,_⟩ | closing
    · cases own.symm.trans booting
      exact .inr (.inl (by rw [← same,← named]))
    · exact .inl (.inr closing)
  case h_3 =>
    cases (may : _ = BootStage.mk none [] none none)
    rcases covered with ⟨b,booting,_⟩ | ⟨c,closing,_⟩
    · cases booting
    · cases closing
  case h_4 =>
    refine .inl (covered.imp id ?_)
    rintro ⟨c,closing,same⟩
    refine ⟨_,Option.map_eq_some_iff.mpr ⟨c,closing,rfl⟩,?_⟩
    split <;> exact same
  case h_5 =>
    refine .inl (covered.imp ?_ id)
    rintro ⟨b,booting,same,known⟩
    refine ⟨_,Option.map_eq_some_iff.mpr ⟨b,booting,rfl⟩,?_⟩
    split
    · exact ⟨same,by simp⟩
    · exact ⟨same,known⟩
  case h_6 =>
    refine .inl (covered.imp id ?_)
    rintro ⟨c,closing,same⟩
    refine ⟨_,Option.map_eq_some_iff.mpr ⟨c,closing,rfl⟩,?_⟩
    split <;> exact same
  case h_7 =>
    rcases covered with ⟨b,booting,same,known⟩ | ⟨c,closing,same⟩
    · refine .inl (.inl ⟨_,Option.map_eq_some_iff.mpr ⟨b,booting,rfl⟩,?_⟩)
      split
      · exact ⟨same,by simp⟩
      · exact ⟨same,known⟩
    · exact .inr (.inr (.inl ⟨rfl,c,closing,same,may c closing⟩))
  case h_8 =>
    have free : BootStage.Free _ := may
    rcases covered with ⟨⟨iid',birth⟩,booting,rfl,known⟩ | ⟨c,closing,_⟩
    · have notRecorded := free.booting _ booting
      cases birth with
      | made => exact absurd rfl known
      | written => exact .inr (.inr (.inr ⟨rfl,booting⟩))
      | recorded => exact absurd rfl notRecorded
    · exact absurd (free.closing.symm.trans closing) (by simp)
  case h_9 same => cases same
  case h_10 => exact .inl covered

theorem BootStage.sees_children (member : iid ∈ (g.sees op outcome).children) :
    iid ∈ g.children ∨ op = .mem (.liveSet iid) := by
  unfold BootStage.sees at member
  split at member
  case h_2 iid' _ _ =>
    simp only at member
    split at member
    · rcases List.mem_append.mp member with old | new
      · exact .inl old
      · exact .inr (List.mem_singleton.mp new ▸ rfl)
    · exact .inl member
  case h_7 => cases member
  case h_8 => cases member
  all_goals exact .inl member

/-- A row that a request is to write is its own still, or has just been written. -/
theorem BootStage.sees_written (after : (g.sees op outcome).booting = some ⟨iid,.written⟩) :
    g.booting = some ⟨iid,.written⟩ ∨
      ∃ row, op = .db (.execute (.insertInstance row)) ∧ row.id = iid ∧ ∃ value, outcome = .ok value := by
  unfold BootStage.sees at after
  split at after
  case h_1 => cases after
  case h_2 => cases after
  case h_5 _ row value =>
    obtain ⟨b,booting,changed⟩ := Option.map_eq_some_iff.mp after
    split at changed
    · rename_i same
      cases changed
      exact .inr ⟨row,rfl,same.symm,value,rfl⟩
    · exact .inl (changed ▸ booting)
  case h_7 =>
    obtain ⟨b,booting,changed⟩ := Option.map_eq_some_iff.mp after
    split at changed
    · cases changed
    · exact .inl (changed ▸ booting)
  case h_8 => cases after
  case h_9 => exact .inl (Option.filter_eq_some_iff.mp after).1
  all_goals exact .inl after

/-- What a request has written and not committed. -/
def BootStage.Writes (g : BootStage) (iid : Id) : Prop := iid ∈ g.children ∨ g.booting = some ⟨iid,.written⟩

theorem BootStage.sees_writes (writes : g.Writes iid) (may : g.may op)
    (open_ : ∀ value, outcome = .ok value → op ≠ .db .commit ∧ op ≠ .db .rollback) : (g.sees op outcome).Writes iid := by
  unfold BootStage.sees
  split
  case h_1 =>
    have clear : BootStage.Clear _ := may
    refine writes.imp id fun booting => ?_
    cases clear.booting _ booting
  case h_2 =>
    obtain ⟨b,own,_,known⟩ := may
    rcases writes with child | booting
    · left
      simp only
      split
      · exact List.mem_append_left _ child
      · exact child
    · cases own.symm.trans booting
      exact absurd rfl known
  case h_5 =>
    refine writes.imp id fun booting => ?_
    simp [booting]
  case h_7 _ value => exact absurd rfl (open_ value rfl).1
  case h_8 _ value => exact absurd rfl (open_ value rfl).2
  case h_9 =>
    refine writes.imp id fun booting => ?_
    simp [BootStage.fail,booting]
  all_goals exact writes

theorem BootStage.sees_insert {row : InstanceRow} {value : Unit} (may : g.may (.db (.execute (.insertInstance row)))) :
    (g.sees (.db (.execute (.insertInstance row))) (.ok value)).Writes row.id := by
  obtain ⟨_,booting | ⟨_,child⟩⟩ := may
  · right
    simp [BootStage.sees,booting]
  · exact .inl child

end

/-! ## The invariant -/

/-- The invariant: every committed RUNNING row has its VM in `LIVE` or a request at work on it, and a
    transaction adds RUNNING rows of its own request only. -/
structure Manned (w : World) (own : Nat → BootStage) : Prop where
  owned : ∀ t b, (own t).booting = some b → w.owner b.iid = some t
  rows : ∀ row ∈ w.db.committed.instances, row.state = .RUNNING → row.id ∈ w.mem.live ∨ ∃ t, (own t).covers row.id
  written : ∀ t iid, (own t).booting = some ⟨iid,.written⟩ → ¬ w.db.committed.HasInstance iid
  added : ∀ t T, w.db.txn = some (t,T) → ∀ row ∈ T.instances, row.state = .RUNNING →
    (∃ old ∈ w.db.committed.instances, old.id = row.id ∧ old.state = .RUNNING) ∨ (own t).Writes row.id
  marked : ∀ t c, (own t).closing = some c → c.marked = true →
    ∃ T, w.db.txn = some (t,T) ∧ ∀ row ∈ T.instances, row.id = c.iid → row.state = .DESTROYED
  children : ∀ t, ∀ iid ∈ (own t).children, iid ∈ w.mem.live

section
variable {t : Nat} {w v : World} {op : Op} {choice : Choice} {outcome : Except Exn op.Res} {iid : Id}
  {seen : Watched BootStage Unit}

/-- RUNNING rows that a thread sees are committed, or its own. -/
theorem Manned.visible (manned : Manned w seen.own) (t : Nat) : ∀ row ∈ (w.db.visible t).instances, row.state = .RUNNING →
    (∃ old ∈ w.db.committed.instances, old.id = row.id ∧ old.state = .RUNNING) ∨ (seen.own t).Writes row.id := by
  intro row member running
  by_cases held : ∃ T, w.db.txn = some (t,T)
  · obtain ⟨T,held⟩ := held
    rw [Db.visible_own held] at member
    exact manned.added t T held row member running
  · rw [Db.visible_other fun T same => held ⟨T,same⟩] at member
    exact .inl ⟨row,member,rfl,running⟩

/-- What the condition says about a call. -/
structure Spared (t : Nat) (op : Op) (outcome : Except Exn op.Res) (w : World) (own : Nat → BootStage) : Prop where
  fails : ∀ error, outcome = .error error → ∀ row ∈ w.db.committed.instances, row.state = .RUNNING →
    (own t).covers row.id → row.id ∈ w.mem.live ∨ ∃ t', t' ≠ t ∧ (own t').covers row.id
  pops : ∀ iid, op = .mem (.livePop iid) → ∀ t', t' ≠ t → iid ∉ (own t').children

theorem Manned.call_rows (manned : Manned w seen.own) (may : (seen.own t).may op) (spared : Spared t op outcome w seen.own)
    (ran : exec P t op choice w = some (outcome,v)) : ∀ row ∈ v.db.committed.instances, row.state = .RUNNING →
      row.id ∈ v.mem.live ∨ ∃ t', (stages t op outcome w v seen t').covers row.id := by
  have live : ∀ iid, iid ∈ w.mem.live → iid ∈ v.mem.live ∨ ∃ t', (stages t op outcome w v seen t').covers iid := by
    intro iid member
    rcases exec_live_stays ran member with there | rfl
    · exact .inl there
    · obtain ⟨rfl,rfl⟩ := exec_livePop ran
      refine .inr ⟨t,?_⟩
      rw [stages_own]
      exact covers_iff.mpr (.inr ⟨_,rfl,rfl⟩)
  have others : ∀ iid, (∃ t', t' ≠ t ∧ (seen.own t').covers iid) → ∃ t', (stages t op outcome w v seen t').covers iid := by
    rintro iid ⟨t',other,covered⟩
    exact ⟨t',by rw [stages_other other]; exact covered⟩
  -- a committed row that stays RUNNING stays covered
  have stays : ∀ row ∈ w.db.committed.instances, row.state = .RUNNING →
      (∃ row' ∈ v.db.committed.instances, row'.id = row.id ∧ row'.state = .RUNNING) →
      row.id ∈ v.mem.live ∨ ∃ t', (stages t op outcome w v seen t').covers row.id := by
    intro row member running remains
    rcases manned.rows row member running with there | ⟨t',covered⟩
    · exact live row.id there
    by_cases own : t' = t
    swap
    · exact .inr (others row.id ⟨t',own,covered⟩)
    subst own
    cases outcome with
    | error error =>
      rcases spared.fails error rfl row member running covered with there | other
      · exact live row.id there
      · exact .inr (others row.id other)
    | ok value =>
      rcases BootStage.sees_covers value covered may with kept | rfl | ⟨rfl,c,closing,named,marked⟩ | ⟨rfl,booting⟩
      · exact .inr ⟨t',by rw [stages_own]; exact kept⟩
      · exact .inl (exec_liveSet ran).2
      · obtain ⟨T,held,destroyed⟩ := manned.marked t' c closing marked
        obtain ⟨db,acts,rfl⟩ := exec_dbActs ran
        obtain ⟨row',member',same,running'⟩ := remains
        cases acts with
        | committed held' =>
          cases held.symm.trans held'
          have state := destroyed row' member' (same.trans named.symm)
          exact absurd (running'.symm.trans state) (by simp)
        | unchanged idle => exact absurd held (idle T)
      · exact absurd ⟨row,member,rfl⟩ (manned.written t' row.id booting)
  intro row member running
  rcases exec_committed ran with same | ⟨rfl,⟨value,rfl⟩,held⟩
  · exact stays row (same ▸ member) running ⟨row,member,rfl,running⟩
  · rcases manned.added t _ held row member running with ⟨old,there,same,before⟩ | writes
    · rw [← same]
      exact stays old there before ⟨row,member,same.symm,running⟩
    · rcases writes with child | booting
      · exact live row.id (manned.children t row.id child)
      · refine .inr ⟨t,?_⟩
        rw [stages_own]
        refine covers_iff.mpr (.inl ⟨⟨row.id,.recorded⟩,?_,rfl,by simp⟩)
        simp [BootStage.sees,booting]

theorem Manned.call (manned : Manned w seen.own) (orderly : Orderly w) (permitted : Permitted t op w)
    (may : (seen.own t).may op) (spared : Spared t op outcome w seen.own) (ran : exec P t op choice w = some (outcome,v)) :
    Manned v (stages t op outcome w v seen) := by
  refine ⟨owned_exec manned.owned ran,manned.call_rows may spared ran,?_,?_,?_,?_⟩
  · intro t' iid booting has
    by_cases own : t' = t
    swap
    · rw [stages_other own] at booting
      rcases exec_committed ran with same | ⟨_,_,held⟩
      · exact manned.written t' iid booting (same ▸ has)
      · rcases orderly.added t _ held iid has with old | theirs
        · exact manned.written t' iid booting old
        · have mine := manned.owned t' _ booting
          exact own (Option.some.inj (mine.symm.trans theirs))
    subst own
    rw [stages_own] at booting
    rcases BootStage.sees_written booting with before | ⟨row,rfl,rfl,value,rfl⟩
    · rcases exec_committed ran with same | ⟨rfl,⟨value,rfl⟩,_⟩
      · exact manned.written t' iid before (same ▸ has)
      · simp [BootStage.sees,before] at booting
    · obtain ⟨T,applied,rfl⟩ := exec_written ran
      have there := (orderly.db.visible t').2.hasInstance has
      simp only [Stmt.apply] at applied
      split at applied
      · cases applied
      · rename_i fresh
        obtain ⟨old,member,named⟩ := there
        exact fresh (List.any_eq_true.mpr ⟨old,member,by simp [named]⟩)
  · intro t' T held row member running
    obtain ⟨committed,cases_⟩ := exec_txn_open ran held
    rw [committed]
    by_cases own : t' = t
    swap
    · rw [stages_other own]
      rcases cases_ with before | ⟨same,_⟩
      · exact manned.added t' T before row member running
      · exact absurd same own
    subst own
    rw [stages_own]
    have open_ : ∀ value, outcome = .ok value → op ≠ .db .commit ∧ op ≠ .db .rollback := by
      rintro value rfl
      exact ⟨fun ends => exec_txn_ended ran (.inl ends) T held,fun ends => exec_txn_ended ran (.inr ends) T held⟩
    have old : (∃ old ∈ w.db.committed.instances, old.id = row.id ∧ old.state = .RUNNING) ∨ (seen.own t').Writes row.id →
        (∃ old ∈ w.db.committed.instances, old.id = row.id ∧ old.state = .RUNNING) ∨
          ((seen.own t').sees op outcome).Writes row.id :=
      fun earlier => earlier.imp id fun writes => BootStage.sees_writes writes may open_
    rcases cases_ with before | ⟨_,rfl | ⟨stmt,rfl,⟨value,rfl⟩,applied⟩⟩
    · exact old (manned.added t' T before row member running)
    · exact old (manned.visible t' row member running)
    · rcases Stmt.apply_instances applied member with ⟨earlier,there,same,state⟩ | ⟨rfl,_⟩
      · rcases state with kept | marked
        · rw [← same]
          exact same ▸ old (same ▸ manned.visible t' earlier there (kept ▸ running))
        · exact absurd (running.symm.trans marked) (by simp)
      · exact .inr (BootStage.sees_insert may)
  · intro t' c closing marked
    by_cases own : t' = t
    swap
    · rw [stages_other own] at closing
      obtain ⟨T,held,destroyed⟩ := manned.marked t' c closing marked
      exact ⟨T,exec_txn_held ran own held,destroyed⟩
    subst own
    rw [stages_own] at closing
    by_cases pops : ∃ iid, op = .mem (.livePop iid)
    · obtain ⟨iid,rfl⟩ := pops
      obtain ⟨rfl,rfl⟩ := exec_livePop ran
      cases closing
      cases marked
    · obtain ⟨⟨value,rfl⟩,notCommit,notRollback,c',before,same,_,how⟩ :=
        BootStage.sees_closing (fun iid equal => pops ⟨iid,equal⟩) closing
      rcases how marked with earlier | rfl
      · obtain ⟨T,held,destroyed⟩ := manned.marked t' c' before earlier
        rw [← same]
        rcases exec_txn_own ran notCommit notRollback held with still | ⟨stmt,T',rfl,applied,written⟩
        · exact ⟨T,still,destroyed⟩
        · refine ⟨T',written,rows_destroyed_apply destroyed ?_ applied⟩
          rintro row rfl
          exact absurd (may.1.symm.trans before) (by simp)
      · obtain ⟨T,applied,rfl⟩ := exec_written ran
        exact ⟨T,rfl,rows_setDestroyed applied⟩
  · intro t' iid member
    have kept : iid ∈ w.mem.live → (∀ iid', op = .mem (.livePop iid') → iid ≠ iid') → iid ∈ v.mem.live := by
      intro there apart
      rcases exec_live_stays ran there with still | pops
      · exact still
      · exact absurd rfl (apart iid pops)
    by_cases own : t' = t
    swap
    · rw [stages_other own] at member
      refine kept (manned.children t' iid member) ?_
      rintro iid' pops rfl
      exact spared.pops iid pops t' own member
    subst own
    rw [stages_own] at member
    rcases BootStage.sees_children member with before | rfl
    · refine kept (manned.children t' iid before) ?_
      rintro iid' rfl
      have first : seen.own t' = ⟨none,[],none,none⟩ := may
      rw [first] at before
      cases before
    · exact (exec_liveSet ran).2

end

theorem spared_of_spares {pool : ManningPool} {t : Nat} {choice : Choice} {op : Op} {outcome : Except Exn op.Res} {v : World}
    (follows : Follows P manning (fun _ => BootStage.Ended) pool) (allowed : spares P pool (.call t choice))
    (about : pool.about t = some op) (ran : exec P t op choice pool.world.1 = some (outcome,v)) :
    Spared t op outcome pool.world.1 pool.world.2.own := by
  simp only [spares,about,Bool.and_eq_true,decide_eq_true_eq] at allowed
  constructor
  · rintro error rfl row member running covered
    have failed : raises P t op choice pool.world.1 = true := by simp [raises,ran]
    have row_kept := List.all_eq_true.mp (allowed.1 failed) row member
    simp only [running,ne_eq,not_true_eq_false,decide_false,covered,Bool.not_true,Bool.or_self,Bool.false_or,
      ManningPool.kept,Bool.or_eq_true,List.contains_iff_mem,List.any_eq_true,Bool.and_eq_true,decide_eq_true_eq] at row_kept
    rcases row_kept with there | ⟨t',_,other,theirs⟩
    · exact .inl there
    · exact .inr ⟨t',other,theirs⟩
  · rintro iid rfl t' other child
    rcases Nat.lt_or_ge t' pool.threads.length with born | unborn
    · have apart := List.all_eq_true.mp allowed.2 t' (List.mem_range.mpr born)
      simp [other,child] at apart
    · have first : pool.world.2.own t' = manning.first := (follows.next t' unborn).2
      rw [first] at child
      cases child

/-- In every run in which no call fails between the two halves of a boot or a removal, no destroy takes
    away the child of a fork under way, and the daemon is restarted only while no row says
    RUNNING: whenever no request is in progress, every row that says RUNNING has its VM in `LIVE`,
    and a snapshot request for it finds it there. -/
theorem running_live (P : Platform) {w : World} (fresh : w.Fresh) {pool : ManningPool}
    (reached : (manning.machine (daemon P)).Reach (fun pool action => spares P pool action) ⟨(w,manning.start ()),[]⟩ pool)
    (idle : pool.Idle) {row : InstanceRow} (listed : row ∈ pool.world.1.db.committed.instances)
    (running : row.state = .RUNNING) :
    row.id ∈ pool.world.1.mem.live ∧ ∀ t choice outcome v,
      exec P t (.mem (.liveGet row.id)) choice pool.world.1 = some (outcome,v) → outcome = .ok true := by
  have both : Follows P manning (fun _ => BootStage.Ended) pool ∧ Manned pool.world.1 pool.world.2.own := by
    refine follow (J := fun pool => Manned pool.world.1 pool.world.2.own) (fun _ req _ => req.manned) ?_ ?_ ?_ ?_
      (fresh.follows ()) ?_ reached
    · exact fun pool req _ _ manned => manned
    · intro pool t choice req op next outcome v allowed found follows _ permitted may ran manned
      have about : pool.about t = some op := by simp [Pool.about,found]
      exact manned.call follows.inv.1 permitted may (spared_of_spares follows allowed about ran) ran
    · intro pool move v _ _ moved manned
      refine ⟨?_,?_,?_,?_,?_,?_⟩
      · intro t b booting
        simpa only [World.owner,moved.used] using manned.owned t b booting
      · rw [moved.db,moved.mem]
        exact manned.rows
      · rw [moved.db]
        exact manned.written
      · rw [moved.db]
        exact manned.added
      · rw [moved.db]
        exact manned.marked
      · rw [moved.mem]
        exact manned.children
    · intro pool allowed _ manned
      refine ⟨?_,?_,?_,?_,?_,?_⟩
      · rintro t b ⟨⟩
      · intro row member running
        have stopped := List.all_eq_true.mp allowed row member
        simp [running] at stopped
      · rintro t iid ⟨⟩
      · rintro t T ⟨⟩
      · rintro t c ⟨⟩
      · rintro t iid ⟨⟩
    · refine ⟨?_,?_,?_,?_,?_,?_⟩
      · rintro t b ⟨⟩
      · simp [fresh.instances]
      · rintro t iid ⟨⟩
      · simp [fresh.idle]
      · rintro t c ⟨⟩
      · rintro t iid ⟨⟩
  obtain ⟨follows,manned⟩ := both
  have there : row.id ∈ pool.world.1.mem.live := by
    rcases manned.rows row listed running with there | ⟨t,covered⟩
    · exact there
    have clear : (pool.world.2.own t).Clear := by
      rcases Nat.lt_or_ge t pool.threads.length with born | unborn
      · obtain ⟨outcome,ended⟩ := idle pool.threads[t] (List.getElem_mem born)
        have found : pool.threads[t]? = some ⟨pool.threads[t].req,Prog.ofOutcome outcome⟩ := by
          rw [List.getElem?_eq_getElem born,← ended]
        exact (follows.ended found).clear
      · have first : pool.world.2.own t = manning.first := (follows.next t unborn).2
        exact first ▸ ⟨by rintro b ⟨⟩,rfl⟩
    exact absurd covered (by simp [clear.covers])
  refine ⟨there,?_⟩
  intro t choice outcome v ran
  obtain ⟨⟨result,mem⟩,executed,same⟩ := Option.map_eq_some_iff.mp ran
  cases same
  cases choice <;> cases executed
  simp [there]

/-- Every thread has returned or raised. -/
def ManningPool.ended (pool : ManningPool) : Bool :=
  pool.threads.all fun thread =>
    match thread.prog with
    | .ret _ | .raise _ => true
    | .call _ _ => false

theorem ManningPool.idle_of_ended {pool : ManningPool} (ended : pool.ended) : pool.Idle := by
  intro thread member
  have stops := List.all_eq_true.mp ended thread member
  split at stops
  · rename_i value same
    exact ⟨.ok value,same⟩
  · rename_i error same
    exact ⟨.error error,same⟩
  · cases stops

def createOnly : List (Action Req Choice Move) :=
  .request (.create_run "p" .null) :: calls 0 (createRun "r" "i" [7] [8])

/-- An instance is forked while it is snapshotted, and destroyed afterwards. -/
def forkDuringSnapshot : List (Action Req Choice Move) :=
  oneSnapshot ++ .request (.fork_snapshot "s" 1) :: calls 2 (forkOne "c") ++ .env (.guestMemory "i" [9] [8]) ::
    .request (.snapshot_instance "i" .null) :: calls 3 (takeSnapshot "t") ++ calls 2 (recordChild ++ [.ok]) ++
    calls 3 recordSnapshot ++ .request (.destroy_instance "i") :: calls 4 (List.replicate 4 .ok)

theorem running_live_forked : ∃ pool : ManningPool,
    (manning.machine (daemon .plain)).run (spares .plain) forkDuringSnapshot
      ⟨(World.initial defaultProject false,manning.start ()),[]⟩ = some pool ∧
      pool.world.1.db.committed.instances.map (fun row => (row.id,row.state)) = [("i",.DESTROYED),("c",.RUNNING)] ∧
      ∀ row ∈ pool.world.1.db.committed.instances, row.state = .RUNNING → row.id ∈ pool.world.1.mem.live := by
  have seen : ((manning.machine (daemon .plain)).run (spares .plain) forkDuringSnapshot
      ⟨(World.initial defaultProject false,manning.start ()),[]⟩).map (fun pool : ManningPool =>
        (pool.ended,pool.world.1.db.committed.instances.map (fun row => (row.id,row.state)))) =
      some (true,[("i",.DESTROYED),("c",.RUNNING)]) := by decide +kernel
  obtain ⟨pool,ran,same⟩ := Option.map_eq_some_iff.mp seen
  simp only [Prod.mk.injEq] at same
  obtain ⟨ended,rows⟩ := same
  have reached := Machine.reach_of_run (manning.machine (daemon .plain))
    (fun (pool : ManningPool) action (passes : spares .plain pool action) => passes) ran
  exact ⟨pool,ran,rows,fun row listed runs => (running_live .plain (World.initial_fresh defaultProject false) reached
    (ManningPool.idle_of_ended ended) listed runs).1⟩

/-- What thread `t` has raised. -/
def ManningPool.raised (pool : ManningPool) (t : Nat) : Option Exn :=
  match pool.threads[t]? with
  | some ⟨_,.raise error⟩ => some error
  | _ => none

/-- The daemon is restarted, and a snapshot is asked for. -/
def restartThenSnapshot : List (Action Req Choice Move) :=
  createOnly ++ [.reboot,.request (.snapshot_instance "i" .null),.call 0 .ok]

/-- After a restart a row says RUNNING, nothing is in `LIVE`, and a snapshot request is refused. -/
theorem running_not_live : ∃ pool : ManningPool,
    (manning.machine (daemon .plain)).Reach (fun _ _ => True) ⟨(World.initial defaultProject false,manning.start ()),[]⟩ pool ∧
      pool.Idle ∧ pool.world.1.db.committed.instances.map (fun row => (row.id,row.state)) = [("i",.RUNNING)] ∧
      pool.world.1.mem.live = [] ∧ pool.raised 0 = some (.KeyError "no live instance i") := by
  have seen : ((manning.machine (daemon .plain)).run (fun _ _ => true) restartThenSnapshot
      ⟨(World.initial defaultProject false,manning.start ()),[]⟩).map (fun pool : ManningPool =>
        (pool.ended,pool.world.1.db.committed.instances.map (fun row => (row.id,row.state)),pool.world.1.mem.live,
          pool.raised 0)) = some (true,[("i",.RUNNING)],[],some (.KeyError "no live instance i")) := by decide +kernel
  obtain ⟨pool,ran,same⟩ := Option.map_eq_some_iff.mp seen
  simp only [Prod.mk.injEq] at same
  obtain ⟨ended,rows,live,raised⟩ := same
  exact ⟨pool,Machine.reach_of_run _ (fun _ _ _ => trivial) ran,ManningPool.idle_of_ended ended,rows,live,raised⟩

end Klados
