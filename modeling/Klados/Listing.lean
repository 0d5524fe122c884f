import Klados.Timeline
import Klados.Follow

/-!
The reply of `timeline`. Its two SELECTs are two reads, so a snapshot committed in between is
named by an instance of the second and missing from the first. When no snapshot of the run is
committed between the reads, every id that the reply names is the id of a snapshot in it
(`timeline_closed`).
-/
namespace Klados
open Effects
open Prog (Only)

variable {P : Platform}

/-- The entries of a list in the reply. -/
def Json.rows (reply : Json) (key : String) : List Json :=
  match reply.get? key with
  | some (.arr items) => items
  | _ => []

/-- The values of a column of such a list that are not null. -/
def Json.column (reply : Json) (rows key : String) : List String :=
  (reply.rows rows).filterMap fun row =>
    match row.get? key with
    | some (.str text) => some text
    | _ => none

/-- Every id that the reply refers to is the id of a snapshot in the same reply. -/
def Closed (reply : Json) : Prop :=
  (∀ sid ∈ reply.column "snapshots" "parent_id", sid ∈ reply.column "snapshots" "id") ∧
    ∀ sid ∈ reply.column "instances" "snapshot_id", sid ∈ reply.column "snapshots" "id"

instance (reply : Json) : Decidable (Closed reply) := inferInstanceAs (Decidable (_ ∧ _))

/-- The reply to `timeline(run_id)` when the two SELECTs read these tables. -/
def listing (run_id : Id) (T T' : Tables) : Json :=
  .obj [("run_id",.str run_id),("snapshots",.arr ((T.snapshotsOf run_id).map SnapshotRow.view)),
    ("instances",.arr ((T'.instancesOf run_id).map InstanceRow.view))]

section
variable {T T' : Tables} {rid sid : Id}

/-- The values of a column are those of the rows that the list shows. -/
theorem mem_column {ρ : Type} {reply : Json} {key column : String} {rows : List ρ} (view : ρ → Json)
    (value : ρ → Option String) (lists : reply.get? key = some (.arr (rows.map view)))
    (shows : ∀ row, (view row).get? column = some (Json.ofText (value row))) {text : String} :
    text ∈ reply.column key column ↔ ∃ row ∈ rows, value row = some text := by
  have entries : reply.rows key = rows.map view := by simp [Json.rows,lists]
  rw [Json.column,entries,List.mem_filterMap]
  constructor
  · rintro ⟨item,member,seen⟩
    obtain ⟨row,inside,rfl⟩ := List.mem_map.mp member
    rw [shows row] at seen
    cases known : value row with
    | none => simp [known,Json.ofText] at seen
    | some other =>
      have same : other = text := by simpa [known,Json.ofText] using seen
      exact ⟨row,inside,same ▸ known⟩
  · rintro ⟨row,inside,known⟩
    refine ⟨view row,List.mem_map_of_mem inside,?_⟩
    simp [shows row,known,Json.ofText]

theorem mem_snapshotsOf {row : SnapshotRow} : row ∈ T.snapshotsOf rid ↔ row ∈ T.snapshots ∧ row.run_id = rid := by
  simp [Tables.snapshotsOf]

theorem mem_instancesOf {row : InstanceRow} : row ∈ T.instancesOf rid ↔ row ∈ T.instances ∧ row.run_id = rid := by
  simp [Tables.instancesOf]

theorem listing_ids : sid ∈ (listing rid T T').column "snapshots" "id" ↔ ∃ row ∈ T.snapshotsOf rid, some row.id = some sid :=
  mem_column SnapshotRow.view (fun row => some row.id) rfl fun _ => rfl

theorem listing_parents : sid ∈ (listing rid T T').column "snapshots" "parent_id" ↔
    ∃ row ∈ T.snapshotsOf rid, row.parent_id = some sid :=
  mem_column SnapshotRow.view (·.parent_id) rfl fun _ => rfl

theorem listing_instances : sid ∈ (listing rid T T').column "instances" "snapshot_id" ↔
    ∃ row ∈ T'.instancesOf rid, row.snapshot_id = some sid :=
  mem_column InstanceRow.view (·.snapshot_id) rfl fun _ => rfl

/-- When the second SELECT sees no snapshot of the run that the first does not, the reply is closed. -/
theorem listing_closed (sane : Sane T) (sane' : Sane T')
    (same : ∀ row ∈ T'.snapshots, row.run_id = rid → row ∈ T.snapshots) : Closed (listing rid T T') := by
  constructor
  · intro sid named
    obtain ⟨row,member,child⟩ := listing_parents.mp named
    obtain ⟨inside,run⟩ := mem_snapshotsOf.mp member
    obtain ⟨parent,there,id,group⟩ := sane.grown.parent inside child
    exact listing_ids.mpr ⟨parent,mem_snapshotsOf.mpr ⟨there,group.trans run⟩,congrArg some id⟩
  · intro sid named
    obtain ⟨row,member,from_⟩ := listing_instances.mp named
    obtain ⟨inside,run⟩ := mem_instancesOf.mp member
    obtain ⟨snap,there,id,group⟩ := sane'.instance_snapshot row inside sid from_
    have own : snap.run_id = rid := group.trans run
    exact listing_ids.mpr ⟨snap,mem_snapshotsOf.mpr ⟨same snap there own,own⟩,congrArg some id⟩

end

/-- The tables that the thread has read, and whether it has written. -/
structure Reader where
  reads : List Tables
  wrote : Bool

def Reader.sees : (op : Op) → Except Exn op.Res → Reader → Reader
  | .db .read, .ok T, seen => { seen with reads := seen.reads ++ [T] }
  | .db (.execute _), _, seen => { seen with wrote := true }
  | _, _, seen => seen

/-- Every thread may call anything. -/
def reading : Track sig Exn World Move Reader Unit where
  first := ⟨[],false⟩
  next _ op outcome _ _ seen := seen.sees op outcome
  notes _ _ _ _ _ _ := ()
  moves _ _ _ := ()
  reboots _ := ()
  may _ _ _ := True

theorem reading_self {t : Nat} {op : Op} {outcome : Except Exn op.Res} {w v : World} {seen : Watched Reader Unit} :
    (reading.sees t op outcome w v seen).own t = (seen.own t).sees op outcome := Track.sees_self

abbrev ReadingPool := FollowedPool Reader Unit

/-- The run whose snapshots the thread has listed and whose instances it has not. -/
def ReadingPool.halfRead (pool : ReadingPool) (t : Nat) : Option Id :=
  match pool.threads[t]? with
  | some ⟨.timeline rid,_⟩ => if (pool.world.2.own t).reads.length = 1 then some rid else none
  | _ => none

/-- No snapshot of a run is committed while a request lies between its two reads of that run. -/
def unbroken (pool : ReadingPool) : Action Req Choice Move → Bool
  | .call t _ =>
    match pool.about t, pool.world.1.db.txn with
    | some (.db .commit), some (holder,T) => holder ≠ t || (List.range pool.threads.length).all fun t' =>
        (pool.halfRead t').all fun rid => T.snapshots.all fun row =>
          row.run_id ≠ rid || decide (row ∈ pool.world.1.db.committed.snapshots)
    | _, _ => true
  | _ => true

/-- What the reads of a request for the run have shown. -/
def Shown (committed : Tables) (rid : Id) : List Tables → Prop
  | [T] => Sane T ∧ ∀ row ∈ committed.snapshots, row.run_id = rid → row ∈ T.snapshots
  | [T,T'] => Sane T ∧ Sane T' ∧ ∀ row ∈ T'.snapshots, row.run_id = rid → row ∈ T.snapshots
  | _ => True

theorem reads_anything {α : Type} {t : Nat} {p : Reader → Prop} (program : KProg α) :
    Triple (reading.rules (daemon P)) t (Track.At t p) program (fun _ => Track.At t fun _ => True) :=
  (Track.keeps_triple (p := fun _ => True) (Only.all (fun _ _ _ => ⟨trivial,fun _ _ _ => trivial⟩) program)).consequence
    (fun _ _ _ => trivial) fun _ _ _ holds => holds

/-- How a request ends: a timeline is the listing of the two tables that were read. -/
def Listed : Req → Except Exn Json → Reader → Prop
  | .timeline rid, .ok reply, seen => seen.wrote = false ∧ ∃ T T', seen.reads = [T,T'] ∧ reply = listing rid T T'
  | _, _, _ => True

theorem timeline_listed {t : Nat} (rid : Id) :
    Triple (reading.rules (daemon P)) t (Track.At t (· = reading.first)) (timeline rid)
      (fun outcome => Track.At t (Listed (.timeline rid) outcome)) := by
  have listed : Triple (reading.rules (daemon P)) t (Track.At t (· = reading.first)) (timeline rid)
      (Track.Leaves t (fun _ => True) fun reply seen => Listed (.timeline rid) (.ok reply) seen) := by
    refine Track.call_bind (r := fun T seen => seen = ⟨[T],false⟩) (fun _ _ => trivial) ?_ (fun _ _ _ _ _ _ _ => trivial)
      fun T => ?_
    · rintro _ T w v _ _ rfl
      rfl
    refine Track.call_bind (r := fun T' seen => seen = ⟨[T,T'],false⟩) (fun _ _ => trivial) ?_ (fun _ _ _ _ _ _ _ => trivial)
      fun T' => ?_
    · rintro _ T' w v _ _ rfl
      rfl
    refine Track.ret_triple ?_
    rintro _ rfl
    exact ⟨rfl,T,T',rfl,rfl⟩
  refine listed.consequence (fun _ _ holds => holds) fun outcome _ _ holds => ?_
  cases outcome with
  | ok reply => exact holds
  | error error => exact trivial

theorem Req.listed {t : Nat} (req : Req) :
    Triple (reading.rules (daemon P)) t (Track.At t (· = reading.first)) (req.body P)
      (fun outcome => Track.At t (Listed req outcome)) := by
  cases req with
  | timeline rid => exact timeline_listed rid
  | create_run | snapshot_instance | fork_snapshot | destroy_instance | meter_tick =>
    exact (reads_anything _).consequence (fun _ _ holds => holds) fun outcome _ _ holds => by
      cases outcome <;> exact holds

/-! ## Runs -/

/-- A thread that has not written has no transaction, and a request for a run has seen the
    snapshots of the run. -/
structure ReadingPool.Keeps (pool : ReadingPool) : Prop where
  idle : ∀ t, (pool.world.2.own t).wrote = false → ∀ T, pool.world.1.db.txn ≠ some (t,T)
  shown : ∀ t rid prog, pool.threads[t]? = some ⟨.timeline rid,prog⟩ → (pool.world.2.own t).wrote = false →
    Shown pool.world.1.db.committed rid (pool.world.2.own t).reads

section
variable {committed committed' T : Tables} {rid : Id} {reads : List Tables}

/-- More committed rows do not matter to a request that is not between its reads, nor do rows of
    other runs. -/
theorem Shown.later (shown : Shown committed rid reads)
    (kept : reads.length = 1 → ∀ row ∈ committed'.snapshots, row.run_id = rid → row ∈ committed.snapshots) :
    Shown committed' rid reads := by
  match reads, shown, kept with
  | [], _, _ => trivial
  | [T], shown, kept => exact ⟨shown.1,fun row member run => shown.2 row (kept rfl row member run) run⟩
  | [T,T'], shown, _ => exact shown
  | _ :: _ :: _ :: _, _, _ => trivial

/-- The committed tables are read. -/
theorem Shown.read (shown : Shown committed rid reads) (sane : Sane committed) : Shown committed rid (reads ++ [committed]) := by
  match reads, shown with
  | [], _ => exact ⟨sane,fun _ member _ => member⟩
  | [T], shown => exact ⟨shown.1,sane,shown.2⟩
  | [T,T'], _ => trivial
  | _ :: _ :: _ :: _, _ => trivial

end

/-- The next call of a thread that has not written and still has not. -/
theorem Reader.quiet {op : Op} {outcome : Except Exn op.Res} {seen : Reader} (quiet : (seen.sees op outcome).wrote = false) :
    seen.wrote = false ∧ ∀ stmt, op ≠ .db (.execute stmt) := by
  unfold Reader.sees at quiet
  split at quiet
  · exact ⟨quiet,by simp⟩
  · cases quiet
  · rename_i _ notWrites
    exact ⟨quiet,fun stmt same => notWrites stmt (same ▸ outcome) same (by subst same; rfl)⟩

/-- A call reads the committed tables, or the thread has read what it had. -/
theorem Shown.call {t : Nat} {op : Op} {choice : Choice} {outcome : Except Exn op.Res} {w v : World} {seen : Reader} {rid : Id}
    (shown : Shown v.db.committed rid seen.reads) (orderly : Orderly w) (idle : ∀ T, w.db.txn ≠ some (t,T))
    (ran : exec P t op choice w = some (outcome,v)) : Shown v.db.committed rid (seen.sees op outcome).reads := by
  unfold Reader.sees
  split
  · obtain ⟨db,acts,rfl⟩ := exec_dbActs ran
    cases acts with
    | read =>
      rw [Db.visible_other idle]
      exact shown.read orderly.db.committed
  · exact shown
  · exact shown

theorem ReadingPool.Keeps.call {pool : ReadingPool} {t : Nat} {req : Req} {op : Op} {choice : Choice}
    {next : Except Exn op.Res → KProg Json} {outcome : Except Exn op.Res} {v : World} (keeps : pool.Keeps)
    (allowed : unbroken pool (.call t choice)) (found : pool.threads[t]? = some ⟨req,.call op next⟩)
    (orderly : Orderly pool.world.1) (ran : exec P t op choice pool.world.1 = some (outcome,v)) :
    ReadingPool.Keeps ⟨(v,reading.sees t op outcome pool.world.1 v pool.world.2),pool.threads.set t ⟨req,next outcome⟩⟩ := by
  have inside : t < pool.threads.length := (List.getElem?_eq_some_iff.mp found).1
  -- a commit adds no snapshot of a run that is half read
  have kept : ∀ t' rid prog, pool.threads[t']? = some ⟨.timeline rid,prog⟩ → (pool.world.2.own t').reads.length = 1 →
      ∀ row ∈ v.db.committed.snapshots, row.run_id = rid → row ∈ pool.world.1.db.committed.snapshots := by
    intro t' rid prog found' half row member run
    rcases exec_committed ran with same | ⟨rfl,_,held⟩
    · exact same ▸ member
    · have about : pool.about t = some (.db .commit) := by simp [Pool.about,found]
      have born : t' < pool.threads.length := (List.getElem?_eq_some_iff.mp found').1
      have between : pool.halfRead t' = some rid := by simp [ReadingPool.halfRead,found',half]
      simp only [unbroken,about,held,ne_eq,not_true_eq_false,decide_false,Bool.false_or,List.all_eq_true,
        List.mem_range] at allowed
      have spared := allowed t' born
      rw [between] at spared
      simpa [run] using List.all_eq_true.mp spared row member
  constructor
  · intro t' quiet
    by_cases own : t' = t
    · subst own
      rw [reading_self] at quiet
      obtain ⟨before,notWrites⟩ := Reader.quiet quiet
      exact exec_txn ran (fun _ => notWrites) (keeps.idle t' before)
    · simp only [Track.sees_other own] at quiet
      exact exec_txn ran (fun same => absurd same own) (keeps.idle t' quiet)
  · intro t' rid prog found' quiet
    by_cases own : t' = t
    · subst own
      simp only [List.getElem?_set_self inside] at found'
      cases Option.some.inj found'
      rw [reading_self] at quiet ⊢
      obtain ⟨before,-⟩ := Reader.quiet quiet
      have shown := (keeps.shown t' rid _ found before).later (kept t' rid _ found)
      exact shown.call orderly (keeps.idle t' before) ran
    · simp only [List.getElem?_set_ne (Ne.symm own)] at found'
      simp only [Track.sees_other own] at quiet ⊢
      exact (keeps.shown t' rid prog found' quiet).later (kept t' rid prog found')

/-- In every run in which no snapshot of a run is committed between the two reads of a `timeline` of
    that run, every id that a reply names is the id of a snapshot in the same reply. -/
theorem timeline_closed (P : Platform) {w : World} (fresh : w.Fresh) {pool : ReadingPool}
    (reached : (reading.machine (daemon P)).Reach (fun pool action => unbroken pool action) ⟨(w,reading.start ()),[]⟩ pool)
    {t : Nat} {rid : Id} {reply : Json} (found : pool.threads[t]? = some ⟨.timeline rid,.ret reply⟩) : Closed reply := by
  have bodies : ∀ (pool : ReadingPool) req, unbroken pool (.request req) →
      Triple (reading.rules (daemon P)) pool.threads.length (Track.At pool.threads.length (· = reading.first)) (req.body P)
        (fun outcome => Track.At pool.threads.length (Listed req outcome)) := fun _ req _ => req.listed
  have keeps : Follows P reading (fun _ => Listed) pool ∧ pool.Keeps := by
    refine follow bodies ?_ ?_ ?_ ?_ (fresh.follows ()) ?_ reached
    · intro pool req _ well keeps
      refine ⟨keeps.idle,?_⟩
      intro t rid prog found quiet
      rcases Nat.lt_or_ge t pool.threads.length with old | new
      · exact keeps.shown t rid prog (by simpa [List.getElem?_append_left old] using found) quiet
      · have unborn : pool.world.2.own t = reading.first := (well.next t new).2
        simp only [unborn]
        trivial
    · exact fun pool t choice req op next outcome v allowed found well _ _ _ ran keeps =>
        keeps.call allowed found well.inv.1 ran
    · intro pool move v _ _ moved keeps
      constructor
      · rw [moved.db]
        exact keeps.idle
      · rw [moved.db]
        exact keeps.shown
    · intro pool _ _ _
      exact ⟨fun _ _ _ => by simp [World.reboot],fun t _ _ found => by simp at found⟩
    · exact ⟨fun _ _ _ => by simp [fresh.idle],fun t _ _ found => by simp at found⟩
  obtain ⟨well,keeps⟩ := keeps
  obtain ⟨quiet,T,T',reads,rfl⟩ := well.ended (show pool.threads[t]? = some ⟨_,Prog.ofOutcome (.ok reply)⟩ from found)
  have shown := keeps.shown t rid _ found quiet
  rw [reads] at shown
  exact listing_closed shown.1 shown.2.1 shown.2.2

/-- The run that thread `t` was asked for and its reply, when it has ended with one. -/
def ReadingPool.answer (pool : ReadingPool) (t : Nat) : Option (Id × Json) :=
  match pool.threads[t]? with
  | some ⟨.timeline rid,.ret reply⟩ => some (rid,reply)
  | _ => none

theorem ReadingPool.found_of_answer {pool : ReadingPool} {t : Nat} {rid : Id} {reply : Json}
    (answer : pool.answer t = some (rid,reply)) : pool.threads[t]? = some ⟨.timeline rid,.ret reply⟩ := by
  unfold ReadingPool.answer at answer
  split at answer
  · rename_i found
    cases answer
    exact found
  · cases answer

/-- A timeline is asked for while a snapshot of the run is under way, and read after it. -/
def timelineAfter : List (Action Req Choice Move) :=
  .request (.create_run "p" .null) :: calls 0 (createRun "r" "i" [7] [8]) ++
    .request (.snapshot_instance "i" .null) :: .request (.timeline "r") ::
    calls 1 (takeSnapshot "s" ++ recordSnapshot) ++ calls 2 [.ok,.ok]

theorem timeline_closed_after : ∃ (pool : ReadingPool) (reply : Json),
    (reading.machine (daemon .plain)).run unbroken timelineAfter ⟨(World.initial defaultProject false,reading.start ()),[]⟩ =
      some pool ∧ pool.threads[2]? = some ⟨.timeline "r",.ret reply⟩ ∧ reply.column "instances" "snapshot_id" = ["s"] ∧
      Closed reply := by
  have seen : ((reading.machine (daemon .plain)).run unbroken timelineAfter
      ⟨(World.initial defaultProject false,reading.start ()),[]⟩).map (fun pool : ReadingPool =>
        (pool.answer 2).map fun (rid,reply) => (rid,reply.column "instances" "snapshot_id")) = some (some ("r",["s"])) := by
    decide +kernel
  obtain ⟨pool,ran,answered⟩ := Option.map_eq_some_iff.mp seen
  obtain ⟨⟨rid,reply⟩,answer,same⟩ := Option.map_eq_some_iff.mp answered
  simp only [Prod.mk.injEq] at same
  obtain ⟨rfl,instances⟩ := same
  have found := ReadingPool.found_of_answer answer
  have reached := Machine.reach_of_run (reading.machine (daemon .plain))
    (fun (pool : ReadingPool) action (passes : unbroken pool action) => passes) ran
  exact ⟨pool,reply,ran,found,instances,timeline_closed .plain (World.initial_fresh defaultProject false) reached found⟩

/-- The first SELECT of the timeline comes before the commit of a snapshot, the second after it. -/
def timelineAround : List (Action Req Choice Move) :=
  .request (.create_run "p" .null) :: calls 0 (createRun "r" "i" [7] [8]) ++
    .request (.snapshot_instance "i" .null) :: calls 1 (takeSnapshot "s" ++ recordSnapshot.dropLast) ++
    .request (.timeline "r") :: calls 2 [.ok] ++ calls 1 [.ok] ++ calls 2 [.ok]

/-- The reply shows the instance at a snapshot that it does not list. -/
theorem timeline_not_closed : ∃ (pool : ReadingPool) (reply : Json),
    (reading.machine (daemon .plain)).Reach (fun _ _ => True) ⟨(World.initial defaultProject false,reading.start ()),[]⟩ pool ∧
      pool.threads[2]? = some ⟨.timeline "r",.ret reply⟩ ∧ reply.column "instances" "snapshot_id" = ["s"] ∧
      ¬ Closed reply := by
  have seen : ((reading.machine (daemon .plain)).run (fun _ _ => true) timelineAround
      ⟨(World.initial defaultProject false,reading.start ()),[]⟩).map (fun pool : ReadingPool =>
        (pool.answer 2).map fun (rid,reply) =>
          (rid,reply.column "instances" "snapshot_id",reply.column "snapshots" "id")) = some (some ("r",["s"],[])) := by
    decide +kernel
  obtain ⟨pool,ran,answered⟩ := Option.map_eq_some_iff.mp seen
  obtain ⟨⟨rid,reply⟩,answer,same⟩ := Option.map_eq_some_iff.mp answered
  simp only [Prod.mk.injEq] at same
  obtain ⟨rfl,instances,snapshots⟩ := same
  refine ⟨pool,reply,Machine.reach_of_run _ (fun _ _ _ => trivial) ran,ReadingPool.found_of_answer answer,instances,?_⟩
  intro closed
  have listed := closed.2 "s" (by simp [instances])
  rw [snapshots] at listed
  cases listed

end Klados
