import Klados.Timeline
import Klados.Gate
import Klados.BootStages

/-!
Destroying an instance. `destroy_instance` kills what it finds in `LIVE`; an instance whose row is
visible and whose VM is still being booted is not there yet, and comes up after its row says
DESTROYED. When every destroy finds the VM in `LIVE`, or no VM that runs or may come up, it is final
(`destroy_final`).
-/
namespace Klados
open Effects

variable {P : Platform}

/-- No guest of the instance runs, nor is one paused. -/
def World.isOff (w : World) (iid : Id) : Bool :=
  match w.hyp.vm iid with
  | some vm => vm.phase ≠ .running && vm.phase ≠ .paused
  | none => true

/-- The instance has a row, which says DESTROYED. -/
def Tables.Destroyed (T : Tables) (iid : Id) : Prop :=
  T.HasInstance iid ∧ ∀ row ∈ T.instances, row.id = iid → row.state = .DESTROYED

/-- The VM does not run, nobody finds it in `LIVE`, and the row says DESTROYED. -/
structure Finished (w : World) (iid : Id) : Prop where
  off : w.isOff iid
  live : iid ∉ w.mem.live
  row : w.db.committed.Destroyed iid

/-- No request is booting the instance. -/
def ManningPool.settled (pool : ManningPool) (iid : Id) : Bool :=
  (List.range pool.threads.length).all fun t => (pool.world.2.own t).booting.all (·.iid ≠ iid)

/-- Destroys name instances of committed rows, and find the VM in `LIVE`, or no VM that runs or is
    being booted. -/
def findsLive (pool : ManningPool) : Action Req Choice Move → Bool
  | .call t _ =>
    match pool.about t with
    | some (.mem (.livePop iid)) => pool.world.1.db.committed.instances.any (·.id = iid) &&
        (pool.world.1.mem.live.contains iid || (pool.world.1.isOff iid && pool.settled iid))
    | _ => true
  | _ => true

section
variable {t : Nat} {w v : World} {op : Op} {choice : Choice} {outcome : Except Exn op.Res} {iid : Id} {T T' : Tables}

theorem isOff_iff : w.isOff iid ↔ ∀ vm, w.hyp.vm iid = some vm → vm.phase ≠ .running ∧ vm.phase ≠ .paused := by
  unfold World.isOff
  cases there : w.hyp.vm iid <;> simp

/-- Only a start or a load makes a VM run that does not. -/
theorem off_exec (off : w.isOff iid) (notStart : op ≠ .vm (.start iid)) (notLoad : ∀ snap mem, op ≠ .vm (.load iid snap mem))
    (ran : exec P t op choice w = some (outcome,v)) : v.isOff iid := by
  by_cases vm : op.isVm
  swap
  · have same := exec_hyp (by simpa using vm) ran
    simpa only [World.isOff,same] using off
  cases op with
  | db | fs | s3 | mem | sys => cases vm
  | vm o =>
    obtain ⟨fs,hyp,acts,rfl⟩ := exec_vmActs ran
    by_cases target : iid = o.target
    swap
    · simpa only [World.isOff,VmOp.acts_other acts target] using off
    subst target
    rw [isOff_iff] at off ⊢
    cases acts with
    | fails | create | torn | killNone | receive | eof => exact off
    | start => exact absurd rfl notStart
    | load => exact absurd rfl (notLoad _ _)
    | pause there phase | resume there phase =>
      have still := off _ there
      rcases phase with running | paused
      · exact absurd running still.1
      · exact absurd paused still.2
    | spawn | kill =>
      intro vm' there
      cases (Hypervisor.set_self _ _ _).symm.trans there
      simp
    | connect here | lost here =>
      have still := off _ here
      intro vm' there
      cases (Hypervisor.set_self _ _ _).symm.trans there
      exact still

theorem off_kill {outcome : Except Exn Unit} (ran : exec P t (.vm (.kill iid)) choice w = some (outcome,v))
    (returned : outcome = .ok ()) : v.isOff iid := by
  obtain ⟨fs,hyp,acts,rfl⟩ := exec_vmActs ran
  rw [isOff_iff]
  cases acts with
  | fails => cases returned
  | killNone absent =>
    intro vm there
    exact absurd (absent.symm.trans there) (by simp)
  | kill there =>
    intro vm' there
    cases (Hypervisor.set_self _ _ _).symm.trans there
    simp

theorem off_moved {move : Move} (off : w.isOff iid) (moved : w.Moved P move v) : v.isOff iid := by
  rw [isOff_iff] at off ⊢
  intro vm there
  rcases moved.vm iid with ⟨same,_⟩ | ⟨vm₀,vm',before,after,moves⟩
  · exact off vm (same ▸ there)
  · cases after.symm.trans there
    have still := off vm₀ before
    cases moves <;> simp_all

/-- Rows that say DESTROYED go on saying so, when the statement inserts no other row of that id. -/
theorem rows_destroyed_apply {stmt : Stmt} (destroyed : ∀ row ∈ T.instances, row.id = iid → row.state = .DESTROYED)
    (notInserted : ∀ row, stmt = .insertInstance row → ¬ T.HasInstance row.id → row.id ≠ iid)
    (applied : stmt.apply T = .ok T') : ∀ row ∈ T'.instances, row.id = iid → row.state = .DESTROYED := by
  intro row member named
  rcases Stmt.apply_instances applied member with ⟨old,there,same,state⟩ | ⟨inserted,fresh⟩
  · have before := destroyed old there (same.trans named)
    rcases state with kept | marked
    · exact kept.trans before
    · exact marked
  · exact absurd named (notInserted row inserted fresh)

theorem rows_setDestroyed (applied : (Stmt.setDestroyed iid).apply T = .ok T') :
    ∀ row ∈ T'.instances, row.id = iid → row.state = .DESTROYED := by
  cases applied
  intro row member named
  obtain ⟨old,there,changed⟩ := List.mem_map.mp member
  by_cases same : old.id = iid
  · rw [if_pos same] at changed
    exact changed ▸ rfl
  · rw [if_neg same] at changed
    exact absurd (changed ▸ named) same

/-- A destroyed instance stays destroyed, whatever is written. -/
theorem Tables.Destroyed.apply {stmt : Stmt} (destroyed : T.Destroyed iid) (applied : stmt.apply T = .ok T') :
    T'.Destroyed iid := by
  refine ⟨Stmt.apply_keeps applied destroyed.1,rows_destroyed_apply destroyed.2 ?_ applied⟩
  rintro row _ fresh rfl
  exact fresh destroyed.1

end

/-- The instance has a committed row, is not in `LIVE` and nobody is booting it. -/
structure Removed (w : World) (own : Nat → BootStage) (iid : Id) : Prop where
  row : w.db.committed.HasInstance iid
  live : iid ∉ w.mem.live
  settled : ∀ t b, (own t).booting = some b → b.iid ≠ iid

/-- The invariant: new ids are their threads' own, instances in `LIVE` have come up, transactions keep
    destroyed instances destroyed, and removals have done what they say. -/
structure Settles (w : World) (own : Nat → BootStage) : Prop where
  owned : ∀ t b, (own t).booting = some b → w.owner b.iid = some t
  risen : ∀ iid ∈ w.mem.live, ∀ t b, (own t).booting = some b → b.iid ≠ iid
  kept : ∀ t T, w.db.txn = some (t,T) → ∀ iid, w.db.committed.Destroyed iid → T.Destroyed iid
  removed : ∀ t c, (own t).closing = some c → Removed w own c.iid
  halted : ∀ t c, (own t).closing = some c → c.halted = true → w.isOff c.iid
  marked : ∀ t c, (own t).closing = some c → c.marked = true → ∃ T, w.db.txn = some (t,T) ∧ T.Destroyed c.iid
  gone : ∀ t iid, (own t).gone = some iid → Removed w own iid ∧ w.isOff iid ∧ w.db.committed.Destroyed iid

section
variable {t : Nat} {w v : World} {op : Op} {choice : Choice} {outcome : Except Exn op.Res} {iid : Id}
  {seen : Watched BootStage Unit}

/-- The stages after a call of thread `t`. -/
abbrev stages (t : Nat) (op : Op) (outcome : Except Exn op.Res) (w v : World) (seen : Watched BootStage Unit) : Nat → BootStage :=
  (manning.sees t op outcome w v seen).own

theorem stages_own : stages t op outcome w v seen t = (seen.own t).sees op outcome := manning_self

theorem stages_other {t' : Nat} (other : t' ≠ t) : stages t op outcome w v seen t' = seen.own t' := Track.sees_other other

/-- A boot that is under way after a call was so before, or the id is new. -/
theorem stages_booting (ran : exec P t op choice w = some (outcome,v)) {t' : Nat} {b : Booting}
    (booting : (stages t op outcome w v seen t').booting = some b) :
    (∃ b', (seen.own t').booting = some b' ∧ b'.iid = b.iid) ∨
      (t' = t ∧ w.owner b.iid = none ∧ v.owner b.iid = some t) := by
  by_cases own : t' = t
  swap
  · rw [stages_other own] at booting
    exact .inl ⟨b,booting,rfl⟩
  subst own
  rw [stages_own] at booting
  by_cases new : op = .sys .newId
  swap
  · exact .inl (BootStage.sees_booting new booting)
  subst new
  obtain ⟨id,rfl,fresh,rfl⟩ := exec_newId ran
  cases booting
  exact .inr ⟨rfl,fresh,by simp [World.owner]⟩

theorem owned_exec (owned : ∀ t b, (seen.own t).booting = some b → w.owner b.iid = some t)
    (ran : exec P t op choice w = some (outcome,v)) :
    ∀ t' b, (stages t op outcome w v seen t').booting = some b → v.owner b.iid = some t' := by
  intro t' b booting
  rcases stages_booting ran booting with ⟨b',before,same⟩ | ⟨rfl,_,mine⟩
  · exact same ▸ exec_owner ran (owned t' b' before)
  · exact mine

/-- An instance that is gone from `LIVE` and that nobody is booting stays so. -/
theorem Removed.exec (removed : Removed w seen.own iid) (orderly : Orderly w) (permitted : Permitted t op w)
    (may : (seen.own t).may op) (ran : exec P t op choice w = some (outcome,v)) :
    Removed v (stages t op outcome w v seen) iid := by
  refine ⟨(committed_grows orderly permitted ran).hasInstance removed.row,?_,?_⟩
  · intro member
    rcases exec_live ran member with before | rfl
    · exact removed.live before
    · obtain ⟨b,booting,named,_⟩ := may
      exact removed.settled t b booting named
  · intro t' b booting
    rcases stages_booting ran booting with ⟨b',before,same⟩ | ⟨_,fresh,_⟩
    · exact same ▸ removed.settled t' b' before
    · rintro rfl
      have owned := orderly.rows _ removed.row
      simp [fresh] at owned

/-- A VM that does not run is not made to run, when nobody is booting the instance. -/
theorem Removed.off (removed : Removed w seen.own iid) (off : w.isOff iid) (may : (seen.own t).may op)
    (ran : Klados.exec P t op choice w = some (outcome,v)) : v.isOff iid := by
  refine off_exec off ?_ ?_ ran
  · rintro rfl
    obtain ⟨b,booting,named⟩ := may
    exact removed.settled t b booting named
  · rintro snap mem rfl
    obtain ⟨b,booting,named⟩ := may
    exact removed.settled t b booting named

theorem Settles.visible (settles : Settles w seen.own) (t : Nat) (destroyed : w.db.committed.Destroyed iid) :
    (w.db.visible t).Destroyed iid := by
  by_cases held : ∃ T, w.db.txn = some (t,T)
  · obtain ⟨T,held⟩ := held
    rw [Db.visible_own held]
    exact settles.kept t T held iid destroyed
  · rw [Db.visible_other fun T same => held ⟨T,same⟩]
    exact destroyed

theorem Settles.destroyed (settles : Settles w seen.own) (ran : exec P t op choice w = some (outcome,v))
    (destroyed : w.db.committed.Destroyed iid) : v.db.committed.Destroyed iid := by
  rcases exec_committed ran with same | ⟨_,_,held⟩
  · exact same ▸ destroyed
  · exact settles.kept t _ held iid destroyed

/-- What a destroy may remove. -/
def Removable (w : World) (own : Nat → BootStage) (iid : Id) : Prop :=
  w.db.committed.HasInstance iid ∧
    (iid ∈ w.mem.live ∨ (w.isOff iid ∧ ∀ t b, (own t).booting = some b → b.iid ≠ iid))

theorem exec_livePop {outcome : Except Exn Bool} (ran : exec P t (.mem (.livePop iid)) choice w = some (outcome,v)) :
    outcome = .ok (w.mem.live.contains iid) ∧ v = { w with mem := { w.mem with live := w.mem.live.filter (· ≠ iid) } } := by
  obtain ⟨⟨result,mem⟩,executed,same⟩ := Option.map_eq_some_iff.mp ran
  cases same
  cases choice <;> cases executed
  exact ⟨rfl,rfl⟩

theorem Settles.call (settles : Settles w seen.own) (orderly : Orderly w) (permitted : Permitted t op w)
    (may : (seen.own t).may op) (removable : ∀ iid, op = .mem (.livePop iid) → Removable w seen.own iid)
    (ran : exec P t op choice w = some (outcome,v)) : Settles v (stages t op outcome w v seen) := by
  have stays : ∀ {iid}, Removed w seen.own iid → Removed v (stages t op outcome w v seen) iid :=
    fun removed => removed.exec orderly permitted may ran
  refine ⟨owned_exec settles.owned ran,?_,?_,?_,?_,?_,?_⟩
  · intro iid member t' b booting named
    rcases exec_live ran member with before | rfl
    · rcases stages_booting ran booting with ⟨b',earlier,same⟩ | ⟨_,fresh,_⟩
      · exact settles.risen iid before t' b' earlier (same.trans named)
      · obtain ⟨vm,there,_⟩ := orderly.live iid before
        have owned := orderly.known iid (by simp [there])
        simp [← named,fresh] at owned
    · -- `LIVE` is filled by the thread that made the id, which is no longer booting it
      obtain ⟨b₀,own,same,_⟩ := may
      have mine := settles.owned t b₀ own
      by_cases self : t' = t
      · subst self
        rw [stages_own] at booting
        cases outcome with
        | ok value => cases booting
        | error error =>
          obtain ⟨⟨result,mem⟩,executed,equal⟩ := Option.map_eq_some_iff.mp ran
          cases choice <;> cases executed
          cases equal
      · rw [stages_other self] at booting
        have theirs := settles.owned t' b booting
        rw [named,← same,mine] at theirs
        exact self (Option.some.inj theirs).symm
  · intro t' T held iid destroyed
    obtain ⟨same,before | ⟨_,seen_ | ⟨stmt,_,_,applied⟩⟩⟩ := exec_txn_open ran held
    · exact settles.kept t' T before iid (same ▸ destroyed)
    · exact seen_ ▸ settles.visible t (same ▸ destroyed)
    · exact (settles.visible t (same ▸ destroyed)).apply applied
  · intro t' c closing
    by_cases own : t' = t
    swap
    · rw [stages_other own] at closing
      exact stays (settles.removed t' c closing)
    subst own
    rw [stages_own] at closing
    by_cases pops : ∃ iid, op = .mem (.livePop iid)
    · obtain ⟨iid,rfl⟩ := pops
      obtain ⟨row,there⟩ := removable iid rfl
      obtain ⟨rfl,rfl⟩ := exec_livePop ran
      cases closing
      refine ⟨row,by simp,?_⟩
      intro t' b booting
      rcases stages_booting ran booting with ⟨b',before,same⟩ | ⟨_,fresh,owned⟩
      · rw [← same]
        rcases there with live | ⟨_,settled⟩
        · exact settles.risen iid live t' b' before
        · exact settled t' b' before
      · exact absurd (fresh.symm.trans owned) (by simp)
    · obtain ⟨_,_,_,c',before,same,_⟩ := BootStage.sees_closing (fun iid equal => pops ⟨iid,equal⟩) closing
      exact same ▸ stays (settles.removed t' c' before)
  · intro t' c closing halted
    by_cases own : t' = t
    swap
    · rw [stages_other own] at closing
      exact (settles.removed t' c closing).off (settles.halted t' c closing halted) may ran
    subst own
    rw [stages_own] at closing
    by_cases pops : ∃ iid, op = .mem (.livePop iid)
    · obtain ⟨iid,rfl⟩ := pops
      obtain ⟨row,there⟩ := removable iid rfl
      obtain ⟨rfl,rfl⟩ := exec_livePop ran
      cases closing
      have absent : iid ∉ w.mem.live := by simpa using halted
      rcases there with live | ⟨off,_⟩
      · exact absurd live absent
      · exact off
    · obtain ⟨⟨value,rfl⟩,_,_,c',before,same,how,_⟩ := BootStage.sees_closing (fun iid equal => pops ⟨iid,equal⟩) closing
      rcases how halted with earlier | rfl
      · exact same ▸ (settles.removed t' c' before).off (settles.halted t' c' before earlier) may ran
      · exact off_kill ran rfl
  · intro t' c closing marked
    by_cases own : t' = t
    swap
    · rw [stages_other own] at closing
      obtain ⟨T,held,destroyed⟩ := settles.marked t' c closing marked
      exact ⟨T,exec_txn_held ran own held,destroyed⟩
    subst own
    rw [stages_own] at closing
    by_cases pops : ∃ iid, op = .mem (.livePop iid)
    · obtain ⟨iid,rfl⟩ := pops
      obtain ⟨rfl,rfl⟩ := exec_livePop ran
      cases closing
      cases marked
    · obtain ⟨⟨value,rfl⟩,notCommit,notRollback,c',before,same,_,how⟩ :=
        BootStage.sees_closing (fun iid equal => pops ⟨iid,equal⟩) closing
      rcases how marked with earlier | rfl
      · obtain ⟨T,held,destroyed⟩ := settles.marked t' c' before earlier
        rw [← same]
        rcases exec_txn_own ran notCommit notRollback held with still | ⟨stmt,T',_,applied,written⟩
        · exact ⟨T,still,destroyed⟩
        · exact ⟨T',written,destroyed.apply applied⟩
      · obtain ⟨T,applied,rfl⟩ := exec_written ran
        have removed := settles.removed t' c' before
        rw [same] at removed
        have there := (orderly.db.visible t').2.hasInstance removed.row
        exact ⟨T,rfl,Stmt.apply_keeps applied there,rows_setDestroyed applied⟩
  · intro t' iid gone
    have before : (seen.own t').gone = some iid → Removed v (stages t op outcome w v seen) iid ∧ v.isOff iid ∧
        v.db.committed.Destroyed iid := by
      intro earlier
      obtain ⟨removed,off,destroyed⟩ := settles.gone t' iid earlier
      exact ⟨stays removed,removed.off off may ran,settles.destroyed ran destroyed⟩
    by_cases own : t' = t
    swap
    · rw [stages_other own] at gone
      exact before gone
    subst own
    rw [stages_own] at gone
    rcases BootStage.sees_gone gone with earlier | ⟨rfl,⟨value,rfl⟩,c,closing,rfl,halted,marked⟩
    · exact before earlier
    · obtain ⟨T,held,destroyed⟩ := settles.marked t' c closing marked
      have removed := settles.removed t' c closing
      refine ⟨stays removed,removed.off (settles.halted t' c closing halted) may ran,?_⟩
      obtain ⟨db,acts,rfl⟩ := exec_dbActs ran
      cases acts with
      | committed held' =>
        cases held.symm.trans held'
        exact destroyed
      | unchanged idle => exact absurd held (idle T)

theorem Settles.moved {own : Nat → BootStage} {move : Move} (settles : Settles w own) (moved : w.Moved P move v)
    : Settles v own := by
  have removed : ∀ {iid}, Removed w own iid → Removed v own iid :=
    fun removed => ⟨moved.db ▸ removed.row,moved.mem ▸ removed.live,removed.settled⟩
  refine ⟨?_,?_,?_,?_,?_,?_,?_⟩
  · intro t b booting
    simpa only [World.owner,moved.used] using settles.owned t b booting
  · rw [moved.mem]
    exact settles.risen
  · rw [moved.db]
    exact settles.kept
  · exact fun t c closing => removed (settles.removed t c closing)
  · exact fun t c closing halted => off_moved (settles.halted t c closing halted) moved
  · rw [moved.db]
    exact settles.marked
  · intro t iid gone
    obtain ⟨still,off,destroyed⟩ := settles.gone t iid gone
    exact ⟨removed still,off_moved off moved,moved.db ▸ destroyed⟩

end

/-! ## Runs -/

/-- The invariant, and what is already final. -/
structure ManningPool.Final (ids : Id → Prop) (pool : ManningPool) : Prop where
  settles : Settles pool.world.1 pool.world.2.own
  removed : ∀ iid, ids iid → Removed pool.world.1 pool.world.2.own iid
  off : ∀ iid, ids iid → pool.world.1.isOff iid
  destroyed : ∀ iid, ids iid → pool.world.1.db.committed.Destroyed iid

theorem removable_of_findsLive {pool : ManningPool} {t : Nat} {choice : Choice} {op : Op}
    (follows : Follows P manning (fun _ => BootStage.Ended) pool) (allowed : findsLive pool (.call t choice))
    (about : pool.about t = some op) : ∀ iid, op = .mem (.livePop iid) → Removable pool.world.1 pool.world.2.own iid := by
  rintro iid rfl
  simp only [findsLive,about,Bool.and_eq_true,Bool.or_eq_true,List.any_eq_true,decide_eq_true_eq,List.contains_iff_mem]
    at allowed
  obtain ⟨row,live | ⟨off,settled⟩⟩ := allowed
  · exact ⟨row,.inl live⟩
  · refine ⟨row,.inr ⟨off,?_⟩⟩
    intro t' b booting
    rcases Nat.lt_or_ge t' pool.threads.length with born | unborn
    · have free := List.all_eq_true.mp settled t' (List.mem_range.mpr born)
      simpa [booting] using free
    · have first : pool.world.2.own t' = manning.first := (follows.next t' unborn).2
      rw [first] at booting
      cases booting

theorem final_reach {ids : Id → Prop} {pool later : ManningPool} (follows : Follows P manning (fun _ => BootStage.Ended) pool)
    (start : pool.Final ids) (reached : (manning.machine (daemon P)).Reach (fun pool action => findsLive pool action) pool later) :
    Follows P manning (fun _ => BootStage.Ended) later ∧ later.Final ids := by
  refine follow (fun _ req _ => req.manned) ?_ ?_ ?_ ?_ follows start reached
  · exact fun pool req _ _ final => ⟨final.settles,final.removed,final.off,final.destroyed⟩
  · intro pool t choice req op next outcome v allowed found follows orderly permitted may ran final
    have about : pool.about t = some op := by simp [Pool.about,found]
    have settles := final.settles.call follows.inv.1 permitted may (removable_of_findsLive follows allowed about) ran
    refine ⟨settles,?_,?_,?_⟩
    · exact fun iid held => (final.removed iid held).exec follows.inv.1 permitted may ran
    · exact fun iid held => (final.removed iid held).off (final.off iid held) may ran
    · exact fun iid held => final.settles.destroyed ran (final.destroyed iid held)
  · intro pool move v _ _ moved final
    refine ⟨final.settles.moved moved,?_,?_,?_⟩
    · intro iid held
      have removed := final.removed iid held
      exact ⟨moved.db ▸ removed.row,moved.mem ▸ removed.live,removed.settled⟩
    · exact fun iid held => off_moved (final.off iid held) moved
    · exact fun iid held => moved.db ▸ final.destroyed iid held
  · intro pool _ _ final
    refine ⟨⟨?_,?_,?_,?_,?_,?_,?_⟩,?_,final.off,final.destroyed⟩
    · rintro t b ⟨⟩
    · rintro iid ⟨⟩
    · rintro t T ⟨⟩
    · rintro t c ⟨⟩
    · rintro t c ⟨⟩
    · rintro t c ⟨⟩
    · rintro t iid ⟨⟩
    · exact fun iid held => ⟨(final.removed iid held).row,by rintro ⟨⟩,by rintro t b ⟨⟩⟩

/-- In every run whose destroys find the VM in `LIVE`, or no VM that runs or is being booted: once
    `destroy_instance` has returned, the VM never runs again, no reading of `LIVE` (a tick of the
    meter begins with one) ever finds it, and the row stays DESTROYED. -/
theorem destroy_final (P : Platform) {w : World} (fresh : w.Fresh) {pool later : ManningPool}
    (reached : (manning.machine (daemon P)).Reach (fun pool action => findsLive pool action) ⟨(w,manning.start ()),[]⟩ pool)
    {t : Nat} {iid : Id} {reply : Json} (returned : pool.threads[t]? = some ⟨.destroy_instance iid,.ret reply⟩)
    (onward : (manning.machine (daemon P)).Reach (fun pool action => findsLive pool action) pool later) :
    Finished later.world.1 iid ∧ ∀ t choice keys v,
      exec P t (.mem .liveKeys) choice later.world.1 = some (.ok keys,v) → iid ∉ keys := by
  have begun : ManningPool.Final (fun _ => False) ⟨(w,manning.start ()),[]⟩ := by
    refine ⟨⟨?_,?_,?_,?_,?_,?_,?_⟩,fun _ absurd => absurd.elim,fun _ absurd => absurd.elim,fun _ absurd => absurd.elim⟩
    · rintro t b ⟨⟩
    · simp [fresh.live]
    · simp [fresh.idle]
    · rintro t c ⟨⟩
    · rintro t c ⟨⟩
    · rintro t c ⟨⟩
    · rintro t iid ⟨⟩
  obtain ⟨follows,final⟩ := final_reach (P := P) (fresh.follows ()) begun reached
  have ended := follows.ended (show pool.threads[t]? = some ⟨_,Prog.ofOutcome (.ok reply)⟩ from returned)
  obtain ⟨removed,off,destroyed⟩ := final.settles.gone t iid (ended.gone iid reply rfl rfl)
  have now : pool.Final (· = iid) :=
    ⟨final.settles,by rintro _ rfl; exact removed,by rintro _ rfl; exact off,by rintro _ rfl; exact destroyed⟩
  obtain ⟨-,last⟩ := final_reach follows now onward
  have absent := (last.removed iid rfl).live
  refine ⟨⟨last.off iid rfl,absent,last.destroyed iid rfl⟩,?_⟩
  intro t choice keys v ran
  obtain ⟨⟨result,mem⟩,executed,same⟩ := Option.map_eq_some_iff.mp ran
  cases same
  cases choice <;> cases executed
  exact absent

/-- The instance that thread `t` has destroyed, when it has returned. -/
def ManningPool.destroyedBy (pool : ManningPool) (t : Nat) : Option Id :=
  match pool.threads[t]? with
  | some ⟨.destroy_instance iid,.ret _⟩ => some iid
  | _ => none

theorem ManningPool.returned_of_destroyedBy {pool : ManningPool} {t : Nat} {iid : Id} (destroyed : pool.destroyedBy t = some iid) :
    ∃ reply, pool.threads[t]? = some ⟨.destroy_instance iid,.ret reply⟩ := by
  unfold ManningPool.destroyedBy at destroyed
  split at destroyed
  · rename_i iid' reply same
    cases destroyed
    exact ⟨reply,same⟩
  · cases destroyed

/-- An instance is forked and destroyed. -/
def forkThenDestroy : List (Action Req Choice Move) :=
  oneSnapshot ++ oneFork ++ .request (.destroy_instance "i") :: calls 3 (List.replicate 4 .ok)

/-- A snapshot of it is asked for, and there is a tick of the meter. -/
def tickLater : List (Action Req Choice Move) :=
  .request (.snapshot_instance "i" .null) :: calls 4 [.ok] ++ .request (.meter_tick 5) :: calls 5 [.ok,.ok,.time 9,.ok,.ok]

theorem destroy_final_tickLater : ∃ pool later : ManningPool,
    (manning.machine (daemon .plain)).run findsLive forkThenDestroy ⟨(World.initial defaultProject false,manning.start ()),[]⟩ =
      some pool ∧ (manning.machine (daemon .plain)).run findsLive tickLater pool = some later ∧
      later.world.1.db.committed.usage.length = 1 ∧ later.world.1.mem.live = ["c"] ∧ Finished later.world.1 "i" := by
  have seen : ((manning.machine (daemon .plain)).run findsLive forkThenDestroy
      ⟨(World.initial defaultProject false,manning.start ()),[]⟩).bind (fun pool : ManningPool =>
        ((manning.machine (daemon .plain)).run findsLive tickLater pool).map fun later : ManningPool =>
          (pool.destroyedBy 3,later.world.1.db.committed.usage.length,later.world.1.mem.live)) =
      some (some "i",1,["c"]) := by decide +kernel
  obtain ⟨pool,ran,seen⟩ := Option.bind_eq_some_iff.mp seen
  obtain ⟨later,again,same⟩ := Option.map_eq_some_iff.mp seen
  simp only [Prod.mk.injEq] at same
  obtain ⟨destroyed,billed,live⟩ := same
  obtain ⟨reply,returned⟩ := ManningPool.returned_of_destroyedBy destroyed
  have allows : ∀ (pool : ManningPool) action, findsLive pool action → findsLive pool action := fun _ _ passes => passes
  have reached := Machine.reach_of_run (manning.machine (daemon .plain)) allows ran
  have onward := Machine.reach_of_run (manning.machine (daemon .plain)) allows again
  exact ⟨pool,later,ran,again,billed,live,
    (destroy_final .plain (World.initial_fresh defaultProject false) reached returned onward).1⟩

/-- Clients destroy instances whose rows are committed. -/
def namesVisible (pool : ManningPool) : Action Req Choice Move → Bool
  | .request (.destroy_instance iid) => pool.world.1.db.committed.instances.any (·.id = iid)
  | _ => true

/-- The row of `i` is committed, its VM is not yet booted; a destroy returns, the boot goes on, and a
    tick of the meter bills the VM. -/
def destroyWhileBooting : List (Action Req Choice Move) :=
  .request (.create_run "p" .null) :: calls 0 ((createRun "r" "i" [7] [8]).take 7) ++
    .request (.destroy_instance "i") :: calls 1 (List.replicate 3 .ok) ++
    calls 0 ((createRun "r" "i" [7] [8]).drop 7) ++
    .request (.meter_tick 5) :: calls 2 [.ok,.ok,.time 9,.ok,.ok]

/-- A destroyed instance runs, is in `LIVE` and is billed. -/
theorem destroy_not_final : ∃ pool : ManningPool,
    (manning.machine (daemon .plain)).Reach (fun pool action => namesVisible pool action)
      ⟨(World.initial defaultProject false,manning.start ()),[]⟩ pool ∧
      (∃ reply, pool.threads[1]? = some ⟨.destroy_instance "i",.ret reply⟩) ∧ pool.world.1.isPhase "i" .running = true ∧
      pool.world.1.mem.live = ["i"] ∧ pool.world.1.db.committed.usage.map (·.vcpu_s) = [5] := by
  have seen : ((manning.machine (daemon .plain)).run namesVisible destroyWhileBooting
      ⟨(World.initial defaultProject false,manning.start ()),[]⟩).map (fun pool : ManningPool =>
        (pool.destroyedBy 1,pool.world.1.isPhase "i" .running,pool.world.1.mem.live,
          pool.world.1.db.committed.usage.map (·.vcpu_s))) = some (some "i",true,["i"],[5]) := by decide +kernel
  obtain ⟨pool,ran,same⟩ := Option.map_eq_some_iff.mp seen
  simp only [Prod.mk.injEq] at same
  obtain ⟨destroyed,running,live,billed⟩ := same
  have reached := Machine.reach_of_run (manning.machine (daemon .plain))
    (fun (pool : ManningPool) action (passes : namesVisible pool action) => passes) ran
  exact ⟨pool,reached,ManningPool.returned_of_destroyedBy destroyed,running,live,billed⟩

end Klados
