import Klados.Alone
import Klados.Gate
import Klados.Timeline

/-!
A fork makes all of its children or nothing. `Child` says what one pass of the loop adds to the scene,
`Children` what several do, and `Spoilt` what is left when a call fails: the rows are rolled back, the
processes and the entries of `LIVE` are not. So a fork is all or nothing exactly when no call of it fails
once it has started a process; the exchange with the guest, whose errors it swallows, apart.
-/
namespace Klados
open Effects
open Prog (Only)

variable {P : Platform}

def childrenReply (kids : List (Id × String)) : Json :=
  .obj [("children",.arr (kids.map fun (iid,branch) => .obj [("instance_id",.str iid),("branch",.str branch)]))]

/-- The row of a child, but for the time. -/
structure InstanceRow.OfChild (snap : SnapshotRow) (kid : Id × String) (row : InstanceRow) : Prop where
  id : row.id = kid.1
  run : row.run_id = snap.run_id
  snapshot : row.snapshot_id = some snap.id
  state : row.state = .RUNNING
  branch : row.branch = kid.2

/-- The fork made these children and nothing else. -/
structure Forks (u v : Scene) (snap : SnapshotRow) (n : Int) (kids : List (Id × String)) : Prop where
  count : kids.length = n.toNat
  distinct : (kids.map (·.1)).Nodup
  fresh : ∀ iid ∈ kids.map (·.1), u.owner iid = none ∧ u.phase iid = none ∧ iid ∉ u.mem.live ∧
    ¬ u.db.committed.HasInstance iid
  phase : ∀ iid, v.phase iid = if iid ∈ kids.map (·.1) then some .running else u.phase iid
  mem : v.mem = { u.mem with live := u.mem.live ++ kids.map (·.1) }
  db : ∃ rows, List.Forall₂ (InstanceRow.OfChild snap) kids rows ∧
    v.db = { u.db with committed := { u.db.committed with instances := u.db.committed.instances ++ rows } }

/-- The fork returned exactly its children, or raised and left nothing: no process that was not there, `LIVE` and
    the database as they were. -/
def AllOrNothing (u v : Scene) (sid : Id) (n : Int) : Except Exn Json → Prop
  | .ok reply => ∃ snap ∈ u.db.committed.snapshots, snap.id = sid ∧
      ∃ kids, reply = childrenReply kids ∧ Forks u v snap n kids
  | .error _ => (∀ iid, u.phase iid = none → v.phase iid = none ∨ v.phase iid = some .dead) ∧
      v.mem.live = u.mem.live ∧ v.db = u.db

/-- A process was started, and a call failed after that. -/
structure SpawnLog where
  spawned : Bool
  orphaned : Bool
  deriving DecidableEq

/-- The call left a process that it started. -/
def spawns : Op → World → Bool
  | .vm (.spawn iid), w => (w.phase iid).isSome
  | _, _ => false

def SpawnLog.sees (op : Op) (outcome : Except Exn op.Res) (w : World) (seen : SpawnLog) : SpawnLog :=
  let spawned := seen.spawned || spawns op w
  ⟨spawned,seen.orphaned || (op.fails outcome && spawned)⟩

/-- The failure of a call that starts nothing. -/
def SpawnLog.fail (seen : SpawnLog) : SpawnLog := ⟨seen.spawned,seen.orphaned || seen.spawned⟩

theorem SpawnLog.sees_other {op : Op} {outcome : Except Exn op.Res} {w : World} {seen : SpawnLog} (other : spawns op w = false) :
    seen.sees op outcome w = if op.fails outcome then seen.fail else seen := by
  simp only [SpawnLog.sees,SpawnLog.fail,other,Bool.or_false]
  cases op.fails outcome with
  | true => rfl
  | false => simp

theorem spawns_quiet {op : Op} (quiet : op.isQuiet = true) (w : World) : spawns op w = false := by
  cases op with
  | vm o => cases o <;> first | rfl | cases quiet
  | db | fs | s3 | mem | sys => rfl

/-- Ids that nobody was given name nothing. -/
def Scene.Tidy (u : Scene) : Prop :=
  ∀ iid, u.owner iid = none → u.phase iid = none ∧ iid ∉ u.mem.live ∧ ¬ u.db.committed.HasInstance iid

theorem Orderly.tidy {w : World} (orderly : Orderly w) : w.scene.Tidy := by
  intro iid unowned
  have free : ¬ (w.owner iid).isSome := by
    rw [show w.owner iid = none from unowned]
    simp
  have absent : w.hyp.vm iid = none := by
    by_contra there
    exact free (orderly.known iid there)
  refine ⟨?_,?_,fun has => free (orderly.rows iid has)⟩
  · change (w.hyp.vm iid).map (·.phase) = none
    rw [absent]
    rfl
  · intro member
    obtain ⟨vm,there,_⟩ := orderly.live iid member
    exact absurd (absent.symm.trans there) (by simp)

/-- The scene with one instance more. -/
def Scene.add (u : Scene) (t : Nat) (row : InstanceRow) : Scene where
  db := { u.db with txn := some (t,{ u.db.visible t with instances := (u.db.visible t).instances ++ [row] }) }
  mem := { u.mem with live := u.mem.live ++ [row.id] }
  owner := Function.update u.owner row.id (some t)
  phase := Function.update u.phase row.id (some .running)

/-- One pass of the loop. -/
structure Child (t : Nat) (snap : SnapshotRow) (u : Scene) (kid : Id × String) (v : Scene) : Prop where
  new : u.owner kid.1 = none
  free : u.db.FreeFor t
  added : ∃ row, InstanceRow.OfChild snap kid row ∧ v = u.add t row

/-- What is left of a pass, or of a loop, in which a call failed. -/
structure Spoilt (t : Nat) (u : Scene) (before : Bool) (x : Scene × SpawnLog) : Prop where
  db : u.db.Drafted t x.1.db
  others : ∀ iid, (u.owner iid).isSome → x.1.phase iid = u.phase iid
  orphaned : x.2.orphaned = x.2.spawned
  whole : x.2.spawned = false → before = false ∧ x.1.mem = u.mem ∧ x.1.phase = u.phase
  left : x.2.spawned = true → before = true ∨
    ∃ iid, u.owner iid = none ∧ (x.1.phase iid = some .spawned ∨ x.1.phase iid = some .running)

section
variable {t : Nat} {u : Scene} {seen : SpawnLog} {snap : SnapshotRow} {iid : Id} {α : Type}

/-- A call failed before the pass started its process. -/
theorem spoilt_early (seen : SpawnLog) {v : Scene} (db : v.db = u.db) (mem : v.mem = u.mem) (phase : v.phase = u.phase)
    (calm : seen.orphaned = false) : Spoilt t u seen.spawned (v,seen.fail) where
  db := .of_eq db
  others iid _ := congrFun phase iid
  orphaned := by simp [SpawnLog.fail,calm]
  whole unspawned := ⟨unspawned,mem,phase⟩
  left spawned := .inl spawned

/-- A call failed after that. -/
theorem spoilt_late {v : Scene} {before : Bool} {phase : Phase} (db : u.db.Drafted t v.db)
    (set : v.phase = Function.update u.phase iid (some phase)) (new : u.owner iid = none)
    (kind : phase = .spawned ∨ phase = .running) : Spoilt t u before (v,⟨true,true⟩) where
  db := db
  others iid' owned := by
    have other : iid' ≠ iid := by
      rintro rfl
      simp [new] at owned
    exact (congrFun set iid').trans (Function.update_of_ne other _ _)
  orphaned := rfl
  whole := by rintro ⟨⟩
  left _ := by
    refine .inr ⟨iid,new,?_⟩
    change v.phase iid = some .spawned ∨ v.phase iid = some .running
    rw [set,Function.update_self]
    exact kind.imp (congrArg some) (congrArg some)

abbrev spawnWatch (P : Platform) : Machine sig Exn Json Req (World × SpawnLog) Choice Move := observed P SpawnLog.sees

/-- A quiet part leaves the scene as it is, and raises what its calls raise. -/
theorem quiet_part {program : KProg α} (quiet : Silent program)
    (straight : program.Straight) :
    (alone P SpawnLog.sees t).Proves (· = (u,seen)) program (· = (u,seen.fail)) fun _ => (· = (u,seen)) := by
  refine alone_straight quiet straight ?_ ?_
  · rintro op allowed choice value w v seen' ran ⟨⟩
    rw [scene_quiet allowed.1 ran,SpawnLog.sees_other (spawns_quiet allowed.1 v)]
    rfl
  · rintro op allowed choice error w v seen' ran ⟨⟩
    rw [scene_quiet allowed.1 ran,SpawnLog.sees_other (spawns_quiet allowed.1 v),if_pos]
    exact decide_eq_true allowed.2

/-- A quiet part that swallows what its calls raise, or that comes before any process. -/
theorem quiet_keeps {program : KProg α}
    (quiet : program.Only fun op : Op => op.isQuiet = true ∧ ((op.kind = .agent ∨ op.kind = .sys) ∨ seen.fail = seen)) :
    (alone P SpawnLog.sees t).Proves (· = (u,seen)) program (· = (u,seen)) fun _ => (· = (u,seen)) := by
  refine alone_keeps ?_ quiet
  rintro op ⟨still,calm⟩ choice outcome w v seen' ran ⟨⟩
  rw [scene_quiet still ran,SpawnLog.sees_other (spawns_quiet still v)]
  by_cases fails : op.fails outcome = true
  swap
  · rw [if_neg fails]
  rw [if_pos fails]
  cases outcome with
  | ok value => cases fails
  | error error =>
    rcases calm with (agent | sys) | same
    · simp [Op.fails,agent] at fails
    · exact (sys_returns sys ran).elim
    · rw [same]

theorem quiet_provide_scratch (iid : Id) (src : Path) :
    Silent (provide_scratch iid (some src)) := by
  refine Only.bind quiet_fs fun there => ?_
  split
  · exact quiet_fs
  · exact Only.bind quiet_fs fun _ => Only.when quiet_fs

theorem straight_provide_scratch (iid : Id) (src : Path) : (provide_scratch iid (some src)).Straight := by
  refine Prog.Straight.bind (Prog.Straight.perform _) fun there => ?_
  split
  · exact Prog.Straight.perform _
  · exact Prog.Straight.bind (Prog.Straight.perform _) fun _ => Prog.Straight.when (Prog.Straight.perform _)

/-- The scene when a child has its id. -/
def Scene.made (u : Scene) (t : Nat) (iid : Id) : Scene := { u with owner := Function.update u.owner iid (some t) }

/-- The scene when its process is started, or restored. -/
def Scene.spawned (u : Scene) (t : Nat) (iid : Id) (phase : Phase) : Scene := (u.made t iid).setPhase iid phase

/-- The scene when it is in `LIVE`. -/
def Scene.live (u : Scene) (t : Nat) (iid : Id) : Scene :=
  { u.spawned t iid .running with mem := { u.mem with live := u.mem.live ++ [iid] } }

/-- A failure before the process is started. -/
theorem spoilt_made (calm : seen.orphaned = false) (x : Scene × SpawnLog) (same : x = (u.made t iid,seen.fail)) :
    Spoilt t u seen.spawned x := by
  subst same
  exact spoilt_early seen rfl rfl rfl calm

/-- The call to spawn starts the process, which an error does not take back, or fails before. -/
theorem spawn_proves (calm : seen.orphaned = false) (new : u.owner iid = none) (tidy : u.Tidy) :
    (alone P SpawnLog.sees t).Proves (· = (u.made t iid,seen)) (vmCall (.spawn iid)) (Spoilt t u seen.spawned)
      fun _ => (· = (u.spawned t iid .spawned,⟨true,false⟩)) := by
  have started : ∀ {w : World} (fs : Files.Fs Path), w.scene = u.made t iid →
      let after : World := { w with fs, hyp := w.hyp.set iid ⟨.spawned,[],[],Agent.Guest.booting⟩ }
      after.scene = u.spawned t iid .spawned ∧ spawns (.vm (.spawn iid)) after = true := by
    intro w fs same
    refine ⟨?_,?_⟩
    · rw [scene_set,same]
      rfl
    · simp [spawns,World.phase]
  refine alone_call ?_ ?_
  · intro choice value w v seen' ran same
    obtain ⟨scene,rfl⟩ := Prod.mk.inj same
    obtain ⟨fs,hyp,acts,rfl⟩ := exec_vmActs ran
    cases acts with
    | spawn =>
      obtain ⟨after,spawned⟩ := started w.fs scene
      rw [after]
      simp [SpawnLog.sees,spawned,calm,Op.fails]
  · intro choice error w v seen' ran same
    obtain ⟨scene,rfl⟩ := Prod.mk.inj same
    obtain ⟨fs,hyp,acts,rfl⟩ := exec_vmActs ran
    cases acts with
    | fails =>
      have absent : spawns (.vm (.spawn iid)) w = false := by
        have none : w.phase iid = none := (congrFun (congrArg Scene.phase scene) iid).trans (tidy iid new).1
        simp [spawns,none]
      refine spoilt_made calm _ (show _ = (u.made t iid,seen'.fail) from ?_)
      rw [SpawnLog.sees_other absent,if_pos (by simp [Op.fails,Op.kind,VmOp.kind])]
      exact congrArg (·,seen'.fail) scene
    | spawn =>
      obtain ⟨after,spawned⟩ := started w.fs scene
      rw [after]
      simp only [SpawnLog.sees,spawned,Bool.or_true,calm,Bool.false_or,Bool.and_true]
      exact spoilt_late (.of_eq rfl) rfl new (.inl rfl)

/-- The load runs the guest, which an error does not take back, or fails before. -/
theorem load_proves (new : u.owner iid = none) (snap mem : Path) :
    (alone P SpawnLog.sees t).Proves (· = (u.spawned t iid .spawned,⟨true,false⟩)) (vmCall (.load iid snap mem))
      (Spoilt t u seen.spawned) fun _ => (· = (u.spawned t iid .running,⟨true,false⟩)) := by
  have loaded : ∀ {w : World} {fs : Files.Fs Path} {image dev : Bytes} {guest : Agent.Guest},
      w.scene = u.spawned t iid .spawned →
      ({ w with fs, hyp := w.hyp.set iid ⟨.running,image,dev,guest⟩ } : World).scene = u.spawned t iid .running := by
    intro w fs image dev guest same
    rw [scene_set,same]
    simp [Scene.spawned,Scene.setPhase]
  refine alone_call ?_ ?_
  · intro choice value w v seen' ran same
    obtain ⟨scene,rfl⟩ := Prod.mk.inj same
    obtain ⟨fs,hyp,acts,rfl⟩ := exec_vmActs ran
    cases acts with
    | load =>
      rw [loaded scene]
      rfl
  · intro choice error w v seen' ran same
    obtain ⟨scene,rfl⟩ := Prod.mk.inj same
    obtain ⟨fs,hyp,acts,rfl⟩ := exec_vmActs ran
    have orphaned : SpawnLog.sees (.vm (.load iid snap mem)) (.error error) ({ w with fs, hyp }) ⟨true,false⟩ = ⟨true,true⟩ := rfl
    rw [orphaned]
    cases acts with
    | fails =>
      have same : ({ w with fs := w.fs, hyp := w.hyp } : World).scene = u.spawned t iid .spawned := scene
      rw [same]
      exact spoilt_late (.of_eq rfl) rfl new (.inl rfl)
    | load =>
      rw [loaded scene]
      exact spoilt_late (.of_eq rfl) rfl new (.inr rfl)

theorem liveSet_proves (new : u.owner iid = none) (tidy : u.Tidy) :
    (alone P SpawnLog.sees t).Proves (· = (u.spawned t iid .running,⟨true,false⟩)) (memCall (.liveSet iid))
      (Spoilt t u seen.spawned) fun _ => (· = (u.live t iid,⟨true,false⟩)) := by
  have absent : ∀ w : World, w.scene = u.spawned t iid .running → iid ∉ w.mem.live := by
    intro w same
    have mem : w.mem = u.mem := congrArg Scene.mem same
    rw [mem]
    exact (tidy iid new).2.1
  refine alone_call ?_ ?_
  · intro choice value w v seen' ran same
    obtain ⟨scene,rfl⟩ := Prod.mk.inj same
    obtain ⟨_,after⟩ := scene_liveSet ran (absent w scene)
    rw [after,scene]
    rfl
  · intro choice error w v seen' ran same
    obtain ⟨scene,rfl⟩ := Prod.mk.inj same
    obtain ⟨impossible,_⟩ := scene_liveSet ran (absent w scene)
    cases impossible

/-- The row of the child is written, or the transaction is as it was. -/
theorem insert_proves (row : InstanceRow) (new : u.owner row.id = none) :
    (alone P SpawnLog.sees t).Proves (· = (u.live t row.id,⟨true,false⟩)) (dbCall (.execute (.insertInstance row)))
      (Spoilt t u seen.spawned) fun _ x => u.db.FreeFor t ∧ x = (u.add t row,⟨true,false⟩) := by
  refine alone_call ?_ ?_
  · intro choice value w v seen' ran same
    obtain ⟨scene,rfl⟩ := Prod.mk.inj same
    obtain ⟨db,acts,rfl⟩ := exec_dbActs ran
    have before : w.db = u.db := congrArg Scene.db scene
    cases acts with
    | wrote free applied =>
      simp only [Stmt.apply] at applied
      split at applied
      · cases applied
      cases applied
      refine ⟨before ▸ free,?_⟩
      have after : ∀ db, ({ w with db } : World).scene = { w.scene with db } := fun _ => rfl
      rw [after,scene,before]
      rfl
  · intro choice error w v seen' ran same
    obtain ⟨scene,rfl⟩ := Prod.mk.inj same
    obtain ⟨db,acts,rfl⟩ := exec_dbActs ran
    have before : w.db = u.db := congrArg Scene.db scene
    have phase : ({ w with db } : World).scene.phase = Function.update u.phase row.id (some .running) :=
      congrArg Scene.phase scene
    have orphaned : SpawnLog.sees (.db (.execute (.insertInstance row))) (.error error) ({ w with db }) ⟨true,false⟩ =
        ⟨true,true⟩ := rfl
    rw [orphaned]
    cases acts with
    | fails => exact spoilt_late (.of_eq before) phase new (.inr rfl)
    | refused free =>
      have committed : w.db.committed = u.db.committed := congrArg Db.committed before
      exact spoilt_late ⟨committed,.inr ⟨before ▸ free,_,rfl⟩⟩ phase new (.inr rfl)

theorem newId_proves :
    (alone P SpawnLog.sees t).Proves (· = (u,seen)) (sysCall .newId) (Spoilt t u seen.spawned)
      fun iid x => u.owner iid = none ∧ x = (u.made t iid,seen) := by
  refine alone_call ?_ ?_
  · intro choice value w v seen' ran same
    obtain ⟨scene,rfl⟩ := Prod.mk.inj same
    obtain ⟨iid,made,new,after⟩ := scene_newId ran
    cases made
    rw [scene] at new after
    refine ⟨new,?_⟩
    rw [after]
    simp [SpawnLog.sees,spawns,Op.fails,Scene.made]
  · intro choice error w v seen' ran same
    exact (sys_returns rfl ran).elim

/-- The boot of a child: what fails before its process is started leaves nothing. -/
theorem boot_vm_proves (calm : seen.orphaned = false) (new : u.owner iid = none) (tidy : u.Tidy) (snap mem src : Path) :
    (alone P SpawnLog.sees t).Proves (· = (u.made t iid,seen)) (boot_vm iid (some (snap,mem)) (some src))
      (Spoilt t u seen.spawned) fun _ => (· = (u.live t iid,⟨true,false⟩)) := by
  have early : ∀ {program : KProg Unit}, Silent program →
      program.Straight → (alone P SpawnLog.sees t).Proves (· = (u.made t iid,seen)) program (Spoilt t u seen.spawned)
        fun _ => (· = (u.made t iid,seen)) := by
    intro program quiet straight
    exact (quiet_part quiet straight).mono (fun _ same => same) (fun _ _ same => same) (spoilt_made calm)
  refine Solo.seq (early quiet_fs (Prog.Straight.perform _)) fun _ => ?_
  refine Solo.seq (early (quiet_provide_scratch iid src) (straight_provide_scratch iid src)) fun _ => ?_
  refine Solo.seq (spawn_proves calm new tidy) fun _ => ?_
  exact Solo.seq (load_proves new snap mem) fun _ => liveSet_proves new tidy

/-- The exchange with the guest of a child changes nothing and never raises. -/
theorem handshake_proves {e : Scene × SpawnLog → Prop} (n : Int) (i : Nat) :
    (alone P SpawnLog.sees t).Proves (· = (u,seen)) (handshake P iid i n) e fun _ => (· = (u,seen)) := by
  refine Solo.catching (e := (· = (u,seen)))
    (quiet_keeps (Only.mono (fun _ own => ⟨own.1,.inl own.2⟩) (Talks.quiet ?_))) fun error => Solo.ret fun _ same => same
  exact Only.bind (talks_wait_agent _ _) fun _ => Only.bind (talks_sys (by simp)) fun _ =>
    Only.bind (talks_vsock_request _ _) fun _ => Only.bind (talks_status _) fun _ => trivial

theorem now_proves {e : Scene × SpawnLog → Prop} :
    (alone P SpawnLog.sees t).Proves (· = (u,seen)) (sysCall .now) e fun _ => (· = (u,seen)) := by
  refine alone_call ?_ fun choice error w v seen' ran _ => (sys_returns rfl ran).elim
  intro choice value w v seen' ran same
  rw [scene_quiet rfl ran,SpawnLog.sees_other rfl]
  exact same

/-- One pass of the loop. -/
theorem fork_child_proves (snap : SnapshotRow) (calm : seen.orphaned = false) (tidy : u.Tidy) (n : Int) (i : Nat) :
    (alone P SpawnLog.sees t).Proves (· = (u,seen)) (fork_child P snap n i) (Spoilt t u seen.spawned)
      fun kid x => Child t snap u kid x.1 ∧ x.2 = ⟨true,false⟩ := by
  refine Solo.seq newId_proves fun iid => Solo.Proves.given fun new => ?_
  refine Solo.seq (boot_vm_proves calm new tidy _ _ _) fun _ => ?_
  refine Solo.seq (handshake_proves n i) fun branch => ?_
  refine Solo.seq now_proves fun now => ?_
  refine Solo.seq (insert_proves ⟨iid,snap.run_id,some snap.id,.RUNNING,branch,now⟩ new) fun _ => Solo.ret ?_
  rintro x ⟨free,rfl⟩
  exact ⟨⟨new,free,_,⟨rfl,rfl,rfl,rfl,rfl⟩,rfl⟩,rfl⟩

/-! ## The loop -/

/-- What several passes of the loop have added. -/
structure Children (t : Nat) (snap : SnapshotRow) (u : Scene) (kids : List (Id × String)) (v : Scene) : Prop where
  distinct : (kids.map (·.1)).Nodup
  new : ∀ iid ∈ kids.map (·.1), u.owner iid = none
  owner : ∀ iid, v.owner iid = none → u.owner iid = none ∧ iid ∉ kids.map (·.1)
  phase : ∀ iid, v.phase iid = if iid ∈ kids.map (·.1) then some .running else u.phase iid
  mem : v.mem = { u.mem with live := u.mem.live ++ kids.map (·.1) }
  committed : v.db.committed = u.db.committed
  txn : (kids = [] ∧ v.db = u.db) ∨ (u.db.FreeFor t ∧ ∃ rows, List.Forall₂ (InstanceRow.OfChild snap) kids rows ∧
    v.db.txn = some (t,{ u.db.committed with instances := u.db.committed.instances ++ rows }))

theorem Children.nil : Children t snap u [] u :=
  ⟨.nil,by simp,fun _ unowned => ⟨unowned,by simp⟩,by simp,by simp,rfl,.inl ⟨rfl,rfl⟩⟩

variable {kids : List (Id × String)} {kid : Id × String} {v x : Scene}

/-- One pass more. -/
theorem Children.snoc (children : Children t snap u kids v) (child : Child t snap v kid x) (unborn : ∀ T, u.db.txn ≠ some (t,T)) :
    Children t snap u (kids ++ [kid]) x := by
  obtain ⟨row,ofChild,rfl⟩ := child.added
  obtain ⟨unowned,absent⟩ := children.owner kid.1 child.new
  have named : row.id = kid.1 := ofChild.id
  have ids : (kids ++ [kid]).map (·.1) = kids.map (·.1) ++ [row.id] := by simp [named]
  refine ⟨?_,?_,?_,?_,?_,children.committed,.inr ?_⟩
  · rw [ids,List.nodup_append]
    refine ⟨children.distinct,by simp,?_⟩
    intro iid member iid' last
    rw [List.mem_singleton.mp last,named]
    rintro rfl
    exact absent member
  · intro iid member
    rw [ids,List.mem_append] at member
    rcases member with old | last
    · exact children.new iid old
    · rw [List.mem_singleton.mp last,named]
      exact unowned
  · intro iid free
    rw [ids,List.mem_append,List.mem_singleton]
    by_cases own : iid = row.id
    · rw [own] at free
      simp [Scene.add] at free
    · have before : v.owner iid = none := (Function.update_of_ne own _ _).symm.trans free
      obtain ⟨first,second⟩ := children.owner iid before
      exact ⟨first,fun listed => listed.elim second own⟩
  · intro iid
    rw [ids]
    by_cases own : iid = row.id
    · simp [Scene.add,own]
    · have same : (v.add t row).phase iid = v.phase iid := Function.update_of_ne own _ _
      have listed : iid ∈ kids.map (·.1) ++ [row.id] ↔ iid ∈ kids.map (·.1) := by
        rw [List.mem_append,List.mem_singleton,or_iff_left own]
      rw [same,children.phase iid]
      exact if_congr listed.symm rfl rfl
  · rw [ids]
    simp [Scene.add,children.mem]
  · have base : u.db.FreeFor t ∧ ∃ rows, List.Forall₂ (InstanceRow.OfChild snap) kids rows ∧
        v.db.visible t = { u.db.committed with instances := u.db.committed.instances ++ rows } := by
      rcases children.txn with ⟨rfl,same⟩ | ⟨free,rows,matched,held⟩
      · refine ⟨same ▸ child.free,[],.nil,?_⟩
        rw [same,Db.visible_other unborn,List.append_nil]
      · exact ⟨free,rows,matched,Db.visible_own held⟩
    obtain ⟨free,rows,matched,seen⟩ := base
    refine ⟨free,rows ++ [row],List.rel_append matched (.cons ofChild .nil),?_⟩
    simp only [Scene.add,seen,List.append_assoc]

theorem Children.tidy (children : Children t snap u kids v) (tidy : u.Tidy) : v.Tidy := by
  intro iid free
  obtain ⟨unowned,absent⟩ := children.owner iid free
  obtain ⟨phase,live,rows⟩ := tidy iid unowned
  refine ⟨?_,?_,children.committed ▸ rows⟩
  · rw [children.phase iid,if_neg absent]
    exact phase
  · rw [children.mem]
    simpa [live] using absent

/-- What a pass leaves when a call fails, the loop leaves. -/
theorem Children.spoilt {x : Scene × SpawnLog} (children : Children t snap u kids v) (spoilt : Spoilt t v (!kids.isEmpty) x) :
    Spoilt t u false x where
  db := by
    refine ⟨spoilt.db.committed.trans children.committed,?_⟩
    rcases children.txn with ⟨rfl,same⟩ | ⟨free,rows,_,held⟩
    · rw [← same]
      exact spoilt.db.txn
    · refine .inr ⟨free,?_⟩
      rcases spoilt.db.txn with same | ⟨_,written⟩
      · exact ⟨_,same.trans held⟩
      · exact written
  others iid owned := by
    have kept : (v.owner iid).isSome := by
      by_contra free
      have unowned := (children.owner iid (by simpa using free)).1
      simp [unowned] at owned
    have old : iid ∉ kids.map (·.1) := fun member => by simp [children.new iid member] at owned
    rw [spoilt.others iid kept,children.phase iid,if_neg old]
  orphaned := spoilt.orphaned
  whole unspawned := by
    obtain ⟨first,mem,phase⟩ := spoilt.whole unspawned
    have none : kids = [] := by simpa using first
    subst none
    refine ⟨rfl,?_,?_⟩
    · rw [mem,children.mem]
      simp
    · rw [phase]
      funext iid
      simpa using children.phase iid
  left spawned := by
    right
    rcases spoilt.left spawned with before | ⟨iid,free,phase⟩
    · cases kids with
      | nil => cases before
      | cons kid rest =>
        have member : kid.1 ∈ (kid :: rest).map (·.1) := by simp
        have owned : (v.owner kid.1).isSome := by
          by_contra free
          exact (children.owner kid.1 (by simpa using free)).2 member
        refine ⟨kid.1,children.new _ member,.inr ?_⟩
        rw [spoilt.others _ owned,children.phase,if_pos member]
    · exact ⟨iid,(children.owner iid free).1,phase⟩

theorem children_proves (tidy : u.Tidy) (unborn : ∀ T, u.db.txn ≠ some (t,T)) (snap : SnapshotRow) (n : Int) (turns : List Nat) :
    (alone P SpawnLog.sees t).Proves (· = (u,⟨false,false⟩)) (Prog.each turns (fork_child P snap n)) (Spoilt t u false)
      fun kids x => Children t snap u kids x.1 ∧ kids.length = turns.length ∧ x.2 = ⟨!kids.isEmpty,false⟩ := by
  refine (Solo.each (p := fun done kids x => Children t snap u kids x.1 ∧ kids.length = done.length ∧
    x.2 = (⟨!kids.isEmpty,false⟩ : SpawnLog)) ?_).mono ?_ (fun _ _ holds => holds) fun _ holds => holds
  · intro done i rest kids _
    refine Solo.Proves.at ?_
    rintro ⟨v,seen⟩ ⟨children,count,same⟩
    subst same
    refine (fork_child_proves snap rfl (children.tidy tidy) n i).mono (fun _ same => same) ?_ ?_
    · rintro kid x ⟨child,spawnLog⟩
      exact ⟨children.snoc child unborn,by simp [count],by simp [spawnLog]⟩
    · exact fun x spoilt => children.spoilt spoilt
  · rintro _ rfl
    exact ⟨.nil,rfl,rfl⟩

/-- What is left of a fork that raised. -/
structure Undone (u : Scene) (x : Scene × SpawnLog) : Prop where
  db : x.1.db = u.db
  whole : x.2.orphaned = false → x.1.mem = u.mem ∧ x.1.phase = u.phase
  left : x.2.orphaned = true → ∃ iid, u.owner iid = none ∧ (x.1.phase iid = some .spawned ∨ x.1.phase iid = some .running)

/-- The rows are committed. -/
theorem commit_proves (tidy : u.Tidy) (unborn : ∀ T, u.db.txn ≠ some (t,T)) (children : Children t snap u kids v) {n : Int}
    (count : kids.length = n.toNat) :
    (alone P SpawnLog.sees t).Proves (· = (v,⟨!kids.isEmpty,false⟩)) (dbCall .commit) (Spoilt t u false)
      fun _ x => Forks u x.1 snap n kids ∧ x.2.orphaned = false := by
  refine alone_call ?_ ?_
  · intro choice value w after seen ran same
    obtain ⟨scene,rfl⟩ := Prod.mk.inj same
    obtain ⟨db,acts,rfl⟩ := exec_dbActs ran
    have before : w.db = v.db := congrArg Scene.db scene
    have written : ∃ rows, List.Forall₂ (InstanceRow.OfChild snap) kids rows ∧
        db = { u.db with committed := { u.db.committed with instances := u.db.committed.instances ++ rows } } := by
      cases acts with
      | committed held =>
        rw [before] at held
        rcases children.txn with ⟨rfl,equal⟩ | ⟨free,rows,matched,pending⟩
        · exact absurd (equal ▸ held) (unborn _)
        · cases held.symm.trans pending
          exact ⟨rows,matched,Db.same rfl (free.idle unborn).symm⟩
      | unchanged idle =>
        rw [before] at idle
        rcases children.txn with ⟨rfl,equal⟩ | ⟨_,_,_,pending⟩
        · exact ⟨[],.nil,by rw [before,equal,List.append_nil]⟩
        · exact absurd pending (idle _)
    refine ⟨⟨count,children.distinct,?_,?_,?_,written⟩,?_⟩
    · exact fun iid member => ⟨children.new iid member,tidy iid (children.new iid member)⟩
    · intro iid
      exact (congrFun (congrArg Scene.phase scene) iid).trans (children.phase iid)
    · exact (congrArg Scene.mem scene).trans children.mem
    · rw [SpawnLog.sees_other rfl]
      rfl
  · intro choice error w after seen ran same
    obtain ⟨scene,rfl⟩ := Prod.mk.inj same
    obtain ⟨db,acts,rfl⟩ := exec_dbActs ran
    cases acts with
    | fails =>
      refine children.spoilt ?_
      have spawnLog : SpawnLog.sees (.db .commit) (.error error) w ⟨!kids.isEmpty,false⟩ = SpawnLog.fail ⟨!kids.isEmpty,false⟩ := by
        rw [SpawnLog.sees_other rfl]
        rfl
      refine show Spoilt t v _ (w.scene,_) from ?_
      rw [scene,spawnLog]
      exact spoilt_early ⟨!kids.isEmpty,false⟩ rfl rfl rfl rfl

theorem quiet_store : Silent (memCall .store) :=
  Only.perform ⟨rfl,by decide⟩

theorem quiet_decompress (bytes : Bytes) :
    Silent (decompress P bytes) := by
  unfold decompress
  split <;> trivial

theorem quiet_get (h : Digest) : Silent (get P h) := by
  refine Only.bind quiet_store fun store => Only.bind ?_ fun hot => ?_
  · unfold isCached
    split
    · exact quiet_fs
    · trivial
  split
  · exact Only.bind quiet_fs fun bytes => quiet_decompress bytes
  unfold get_cold
  split
  · refine Only.bind (Only.perform ⟨rfl,by simp [Op.kind]⟩) fun comp => ?_
    refine Only.bind (Only.when ?_) fun _ => quiet_decompress comp
    exact Only.bind quiet_fs fun _ => Only.bind quiet_fs fun _ => quiet_fs
  · trivial

theorem quiet_write_chunks (out : Nat) (hashes : List Digest) (offset : Nat) :
    Silent (write_chunks P out offset hashes) := by
  induction hashes generalizing offset with
  | nil => trivial
  | cons h rest ih => exact Only.bind (quiet_get h) fun chunk => Only.bind quiet_fs fun _ => ih _

/-- The image is rebuilt without a trace in the scene. -/
theorem quiet_reconstruct_mem (sid : Id) :
    Silent (reconstruct_mem P sid) := by
  refine Only.bind (Only.bind quiet_fs fun hot => ?_) fun cold => Only.bind (Only.when ?_) fun _ => trivial
  · split
    · trivial
    · exact quiet_fs
  refine Only.bind quiet_fs fun bytes => Only.bind ?_ fun manifest => ?_
  · unfold load_manifest
    split <;> trivial
  · exact Only.bind quiet_fs fun out => Only.bind (quiet_write_chunks _ _ _) fun _ => quiet_fs

theorem read_proves {e : Scene × SpawnLog → Prop} (unborn : ∀ T, u.db.txn ≠ some (t,T)) (raised : e (u,⟨false,false⟩)) :
    (alone P SpawnLog.sees t).Proves (· = (u,⟨false,false⟩)) (dbCall .read) e
      fun T x => T = u.db.committed ∧ x = (u,⟨false,false⟩) := by
  refine alone_call ?_ ?_
  · intro choice value w v seen ran same
    obtain ⟨scene,rfl⟩ := Prod.mk.inj same
    have before : w.db = u.db := congrArg Scene.db scene
    refine ⟨?_,?_⟩
    · rw [scene_read (before ▸ unborn) ran,before]
    · rw [scene_quiet rfl ran,scene,SpawnLog.sees_other rfl]
      rfl
  · intro choice error w v seen ran same
    obtain ⟨scene,rfl⟩ := Prod.mk.inj same
    rw [scene_quiet rfl ran,scene,SpawnLog.sees_other rfl]
    exact raised

/-- A fork alone: it forks, or it raises and what it has started is left. -/
theorem fork_snapshot_proves (tidy : u.Tidy) (unborn : ∀ T, u.db.txn ≠ some (t,T)) (sid : Id) (n : Int) :
    (alone P SpawnLog.sees t).Proves (· = (u,⟨false,false⟩)) (fork_snapshot P sid n) (Undone u)
      fun reply x => (∃ snap ∈ u.db.committed.snapshots, snap.id = sid ∧
        ∃ kids, reply = childrenReply kids ∧ Forks u x.1 snap n kids) ∧ x.2.orphaned = false := by
  have untouched : ∀ x, x = (u,(⟨false,false⟩ : SpawnLog)) → Spoilt t u false x := by
    rintro x rfl
    exact spoilt_early ⟨false,false⟩ rfl rfl rfl rfl
  have early : ∀ {β : Type} {program : KProg β}, Silent program →
      (alone P SpawnLog.sees t).Proves (· = (u,⟨false,false⟩)) program (Spoilt t u false) fun _ => (· = (u,⟨false,false⟩)) := by
    intro β program quiet
    refine (quiet_keeps (Only.mono (fun op still => ?_) quiet)).mono (fun _ same => same) (fun _ _ same => same) untouched
    exact ⟨still.1,.inr rfl⟩
  refine connection_proves unborn (fun _ (spoilt : Spoilt t u false _) => spoilt.db) ?_ ?_
  · -- the rows are rolled back, the processes stay
    intro v x seen spoilt
    rw [SpawnLog.sees_other rfl]
    refine ⟨rfl,fun safe => ?_,fun orphaned => ?_⟩
    · exact (spoilt.whole (spoilt.orphaned.symm.trans safe)).2
    · exact (spoilt.left (spoilt.orphaned.symm.trans orphaned)).resolve_left (by simp)
  refine Solo.seq (read_proves unborn (untouched _ rfl)) fun T => Solo.Proves.given fun read => ?_
  split
  · exact Solo.raise untouched
  rename_i snap found
  have member : snap ∈ u.db.committed.snapshots := read ▸ List.mem_of_find?_eq_some found
  have named : snap.id = sid := by simpa using List.find?_some found
  refine Solo.seq (early (quiet_reconstruct_mem sid)) fun _ => ?_
  refine Solo.seq (children_proves tidy unborn snap n _) fun kids => Solo.Proves.at ?_
  rintro ⟨v,seen⟩ ⟨children,count,rfl⟩
  refine Solo.seq (commit_proves tidy unborn children (count.trans (List.length_range))) fun _ => Solo.ret ?_
  rintro x ⟨forks,safe⟩
  exact ⟨⟨snap,member,named,kids,rfl,forks⟩,safe⟩

end

/-- A fork of any snapshot, started in any state that the daemon reaches and run alone while the guests go on, is all
    or nothing exactly when no call of it fails once it has started a process (the exchange with a guest apart). -/
theorem fork_all_or_nothing (P : Platform) {w : World} (fresh : w.Fresh) {pool : KPool}
    (reached : (daemon P).Reach (fun _ _ => True) ⟨w,[]⟩ pool) (sid : Id) (n : Int) {result : Except Exn Json} {v : World}
    {seen : SpawnLog} (ran : Runs ((spawnWatch P).drift nobodyDies) ((spawnWatch P).step pool.threads.length)
      (fork_snapshot P sid n) (pool.world,⟨false,false⟩) result (v,seen)) :
    AllOrNothing pool.world.scene v.scene sid n result ↔ seen.orphaned = false := by
  have healthy := protocol_reach fresh reached
  have tidy := Orderly.tidy healthy.inv
  have post := (fork_snapshot_proves (P := P) tidy (healthy.next _ (Nat.le_refl _)) sid n).runs rfl ran
  cases result with
  | ok reply =>
    obtain ⟨forks,safe⟩ := post
    exact ⟨fun _ => safe,fun _ => forks⟩
  | error error =>
    have undone : Undone pool.world.scene (v.scene,seen) := post
    constructor
    · rintro ⟨gone,_,_⟩
      by_contra orphaned
      obtain ⟨iid,unowned,left⟩ := undone.left (by simpa using orphaned)
      have absent : v.scene.phase iid = none ∨ v.scene.phase iid = some .dead := gone iid (tidy iid unowned).1
      rcases left with phase | phase <;> rcases absent with gone | gone
      all_goals
        have equal := phase.symm.trans gone
        cases equal
    · intro safe
      obtain ⟨mem,phase⟩ := undone.whole safe
      exact ⟨fun iid absent => .inl ((congrFun phase iid).trans absent),congrArg Memory.live mem,undone.db⟩

/-- A fork of two children that goes well. -/
def forkWell : List Choice := forkOne "c" ++ recordChild ++ [.id "d",.ok,.ok,.ok,.ok,.ok] ++ recordChild ++ [.ok]

/-- A fork that fails at the directory of the first child. -/
def forkStops : List Choice := (forkOne "c").take 11 ++ [.fail (.OSError "No space left on device"),.ok]

/-- A fork of two children that fails at the directory of the second. -/
def forkFails : List Choice := forkOne "c" ++ recordChild ++ [.id "d",.fail (.OSError "No space left on device"),.ok]

/-- Make a run and a snapshot of it, and fork that alone. -/
def forkAlone (n : Int) (script : List Choice) : Option (KPool × Except Exn Json × World × SpawnLog) :=
  ((daemon .plain).run (fun _ _ => true) oneSnapshot ⟨World.initial defaultProject false,[]⟩).bind fun pool =>
    (replay ((spawnWatch .plain).exec pool.threads.length) (fun (_ : Move) _ => none) (script.map .inr)
      (fork_snapshot .plain "s" n) (pool.world,⟨false,false⟩)).map fun outcome => (pool,outcome)

theorem forkAlone_runs {n : Int} {script : List Choice} {pool : KPool} {result : Except Exn Json} {v : World} {seen : SpawnLog}
    (forked : forkAlone n script = some (pool,result,v,seen)) :
    (daemon .plain).Reach (fun _ _ => True) ⟨World.initial defaultProject false,[]⟩ pool ∧
      Runs ((spawnWatch .plain).drift nobodyDies) ((spawnWatch .plain).step pool.threads.length) (fork_snapshot .plain "s" n)
        (pool.world,⟨false,false⟩) result (v,seen) := by
  obtain ⟨pool',ran,replayed⟩ := Option.bind_eq_some_iff.mp forked
  obtain ⟨outcome,replayed,same⟩ := Option.map_eq_some_iff.mp replayed
  cases same
  refine ⟨Machine.reach_of_run _ (fun _ _ _ => trivial) ran,?_⟩
  exact Runs.of_replay (fun _ => .refl) (fun first second => first.trans second) (by rintro _ _ _ ⟨⟩)
    (fun op choice s outcome s' executed => ⟨choice,executed⟩) replayed

/-- Two children are forked, or none. -/
theorem fork_all_or_nothing_two : (∃ pool resp v seen, forkAlone 2 forkWell = some (pool,.ok resp,v,seen) ∧
      v.phase "c" = some .running ∧ v.phase "d" = some .running ∧ AllOrNothing pool.world.scene v.scene "s" 2 (.ok resp)) ∧
    ∃ pool error v seen, forkAlone 2 forkStops = some (pool,.error error,v,seen) ∧
      AllOrNothing pool.world.scene v.scene "s" 2 (.error error) := by
  have found : (forkAlone 2 forkWell).map (fun (_,result,v,seen) => decide (result.toOption.isSome = true ∧
      v.phase "c" = some .running ∧ v.phase "d" = some .running ∧ seen.orphaned = false)) = some true := by decide +kernel
  have stopped : (forkAlone 2 forkStops).map (fun (_,result,_,seen) => decide (result.toOption.isNone = true ∧
      seen.orphaned = false)) = some true := by decide +kernel
  constructor
  · obtain ⟨⟨pool,result,v,seen⟩,forked,good⟩ := Option.map_eq_some_iff.mp found
    obtain ⟨returned,first,second,safe⟩ := of_decide_eq_true good
    obtain ⟨reached,ran⟩ := forkAlone_runs forked
    cases result with
    | error error => cases returned
    | ok resp =>
      exact ⟨pool,resp,v,seen,forked,first,second,
        (fork_all_or_nothing .plain (World.initial_fresh defaultProject false) reached "s" 2 ran).mpr safe⟩
  · obtain ⟨⟨pool,result,v,seen⟩,forked,good⟩ := Option.map_eq_some_iff.mp stopped
    obtain ⟨raised,safe⟩ := of_decide_eq_true good
    obtain ⟨reached,ran⟩ := forkAlone_runs forked
    cases result with
    | ok resp => cases raised
    | error error =>
      exact ⟨pool,error,v,seen,forked,
        (fork_all_or_nothing .plain (World.initial_fresh defaultProject false) reached "s" 2 ran).mpr safe⟩

/-- The second child cannot be made; the first one stays, without a row. -/
theorem fork_not_all_or_nothing : ∃ pool error v seen, forkAlone 2 forkFails = some (pool,.error error,v,seen) ∧
    (daemon .plain).Reach (fun _ _ => True) ⟨World.initial defaultProject false,[]⟩ pool ∧
    v.phase "c" = some .running ∧ v.mem.live = pool.world.mem.live ++ ["c"] ∧
    v.db.committed.instances = pool.world.db.committed.instances ∧
    ¬ AllOrNothing pool.world.scene v.scene "s" 2 (.error error) := by
  have found : (forkAlone 2 forkFails).map (fun (pool,result,v,_) => decide ((result.toOption.isNone = true ∧
      pool.world.phase "c" = none) ∧ v.phase "c" = some .running ∧ v.mem.live = pool.world.mem.live ++ ["c"] ∧
      v.db.committed.instances = pool.world.db.committed.instances)) = some true := by decide +kernel
  obtain ⟨⟨pool,result,v,seen⟩,forked,good⟩ := Option.map_eq_some_iff.mp found
  obtain ⟨⟨raised,absent⟩,running,live,rows⟩ := of_decide_eq_true good
  cases result with
  | ok reply => cases raised
  | error error =>
    refine ⟨pool,error,v,seen,forked,(forkAlone_runs forked).1,running,live,rows,?_⟩
    rintro ⟨gone,_,_⟩
    have phase : v.phase "c" = none ∨ v.phase "c" = some .dead := gone "c" absent
    simp [running] at phase

end Klados
