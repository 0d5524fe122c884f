import Klados.Protocol

/-!
The timeline. In every state that the daemon reaches, the committed snapshots of each run
are a forest to which the instances point, and a committed snapshot stays as it is.
-/
namespace Klados
open Effects

variable {P : Platform}

/-- Committed rows stay, whatever happens to the daemon. -/
theorem committed_grows_reach {pool later : KPool} (healthy : Healthy (protocol P) Unborn (fun _ _ _ _ => True) pool)
    (onward : (daemon P).Reach (fun _ _ => True) pool later) :
    Grows pool.world.db.committed later.world.db.committed := by
  refine protocol_sound.tracks (G := fun w v => Grows w.db.committed v.db.committed) (fun _ => Grows.refl _)
    (fun _ _ _ first second => first.trans second) ?_ (fun _ _ _ _ relied => relied.committed) (fun _ _ => Grows.refl _)
    healthy onward
  intro t op w v orderly _ guaranteed
  obtain ⟨permitted,choice,outcome,ran⟩ := guaranteed
  exact committed_grows orderly permitted ran

/-- In every state that the daemon reaches, with any requests interleaved, failing and
    rebooted in any way, the committed timeline is a forest inside each run, and the committed
    snapshots stay as they are from then on. -/
theorem timeline_forest (P : Platform) {w : World} (fresh : w.Fresh) {pool later : KPool}
    (reached : (daemon P).Reach (fun _ _ => True) ⟨w,[]⟩ pool) (onward : (daemon P).Reach (fun _ _ => True) pool later) :
    Timeline pool.world.db.committed ∧ pool.world.db.committed.snapshots <+: later.world.db.committed.snapshots := by
  have healthy := protocol_reach fresh reached
  exact ⟨healthy.inv.db.committed.timeline,(committed_grows_reach healthy onward).snapshots⟩

/-- A run of one request after the other: a run is created and its instance snapshotted. -/
def oneSnapshot : List (Action Req Choice Move) :=
  .request (.create_run "p" .null) :: calls 0 (createRun "r" "i" [7] [8]) ++
    .request (.snapshot_instance "i" .null) :: calls 1 (takeSnapshot "s" ++ recordSnapshot)

def defaultProject : ProjectRow := ⟨"p",some "default","key",0⟩

/-- A fork of the snapshot. -/
def oneFork : List (Action Req Choice Move) :=
  .request (.fork_snapshot "s" 1) :: calls 2 (forkOne "c" ++ recordChild ++ [.ok])

/-- And a snapshot of the child. -/
def forkedSnapshot : List (Action Req Choice Move) :=
  oneFork ++ .env (.guestMemory "c" [9] [8]) ::
    .request (.snapshot_instance "c" .null) :: calls 3 (takeSnapshot "t" ++ recordSnapshot)

/-- The parent is snapshotted again. -/
def parentAgain : List (Action Req Choice Move) :=
  .env (.guestMemory "i" [10] [8]) :: .request (.snapshot_instance "i" .null) :: calls 4 (takeSnapshot "u" ++ recordSnapshot)

theorem timeline_forest_forked : ∃ pool later : KPool,
    (daemon .plain).run (fun _ _ => true) (oneSnapshot ++ forkedSnapshot) ⟨World.initial defaultProject false,[]⟩ = some pool ∧
      (daemon .plain).run (fun _ _ => true) parentAgain pool = some later ∧
      later.world.db.committed.snapshots.map (fun row => (row.id,row.parent_id)) =
        [("s",none),("t",some "s"),("u",some "s")] ∧
      Timeline pool.world.db.committed ∧ pool.world.db.committed.snapshots <+: later.world.db.committed.snapshots := by
  have seen : ((daemon .plain).run (fun _ _ => true) (oneSnapshot ++ forkedSnapshot)
      ⟨World.initial defaultProject false,[]⟩).bind (fun pool => ((daemon .plain).run (fun _ _ => true) parentAgain pool).map
        fun later => later.world.db.committed.snapshots.map fun row => (row.id,row.parent_id)) =
      some [("s",none),("t",some "s"),("u",some "s")] := by decide +kernel
  obtain ⟨pool,ran,seen⟩ := Option.bind_eq_some_iff.mp seen
  obtain ⟨later,again,rows⟩ := Option.map_eq_some_iff.mp seen
  have reached := Machine.reach_of_run _ (fun _ _ _ => trivial) ran
  have onward := Machine.reach_of_run _ (fun _ _ _ => trivial) again
  exact ⟨pool,later,ran,again,rows,timeline_forest .plain (World.initial_fresh defaultProject false) reached onward⟩

end Klados
