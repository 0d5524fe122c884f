import Klados.Daemon

/-!
What a move of the guests and what an operation of the daemon can change, said once: every
later argument about runs goes through these lemmas and does not unfold `World.move` or `exec`.
-/
namespace Klados
open Files (Fs)
open Effects
open Agent (Guest)

variable {P : Platform}

/-- A move of the VM of `iid` or of its guest. -/
inductive Vm.Moves (P : Platform) (iid : Id) : Move → Vm → Vm → Prop
  | memory {vm : Vm} {mem dev : Bytes} : vm.phase = .running →
      Vm.Moves P iid (.guestMemory iid mem dev) vm { vm with mem, dev }
  | up {vm : Vm} : vm.phase = .running → vm.guest.up = false →
      Vm.Moves P iid (.agentUp iid) vm { vm with guest := vm.guest.init }
  | agent {vm : Vm} {choice : Agent.Choice} {guest : Guest} : vm.phase = .running →
      vm.guest.turn P choice = some guest → Vm.Moves P iid (.agent iid choice) vm { vm with guest }
  | workload {vm : Vm} {move : Agent.WorkMove} {guest : Guest} : vm.phase = .running →
      vm.guest.workload move = some guest → Vm.Moves P iid (.workload iid move) vm { vm with guest }
  | dies {vm : Vm} : Vm.Moves P iid (.vmDies iid) vm { vm with phase := .dead }

/-- What a move does to the files: a running guest writes its disk, or somebody deletes a hot
    image or a cached chunk. -/
inductive Fs.Moves (w : World) : Move → Fs Path → Prop
  | none {move : Move} : (∀ iid bytes, move ≠ .guestDisk iid bytes) → Fs.Moves w move w.fs
  | disk {iid : Id} {bytes : Bytes} {vm : Vm} : w.hyp.vm iid = some vm → vm.phase = .running →
      (w.fs.names (.scratch iid)).isSome → Fs.Moves w (.guestDisk iid bytes) (w.fs.put (.scratch iid) bytes)
  | chunk {h : Digest} : Fs.Moves w (.delete (.chunk h)) (w.fs.remove (.chunk h))
  | mem {sid : Id} : Fs.Moves w (.delete (.snap sid .mem)) (w.fs.remove (.snap sid .mem))

/-- The instance whose process or guest moves. -/
def Move.target : Move → Option Id
  | .guestMemory iid _ _ | .agentUp iid | .agent iid _ | .workload iid _ | .vmDies iid => some iid
  | .guestDisk _ _ | .delete _ => none

/-- Everything a move does to the world. -/
structure World.Moved (P : Platform) (w : World) (move : Move) (v : World) : Prop where
  db : v.db = w.db
  bucket : v.bucket = w.bucket
  mem : v.mem = w.mem
  used : v.used = w.used
  saved : v.hyp.saved = w.hyp.saved
  fs : Fs.Moves w move v.fs
  vm : ∀ iid, (v.hyp.vm iid = w.hyp.vm iid ∧ move.target ≠ some iid) ∨
    ∃ vm vm', w.hyp.vm iid = some vm ∧ v.hyp.vm iid = some vm' ∧ Vm.Moves P iid move vm vm'

@[simp] theorem Hypervisor.set_self (hyp : Hypervisor) (iid : Id) (vm : Vm) : (hyp.set iid vm).vm iid = some vm := by
  simp [Hypervisor.set]

theorem Hypervisor.set_other (hyp : Hypervisor) {iid iid' : Id} (other : iid' ≠ iid) (vm : Vm) :
    (hyp.set iid vm).vm iid' = hyp.vm iid' := by
  simp [Hypervisor.set,other]

@[simp] theorem Hypervisor.set_saved (hyp : Hypervisor) (iid : Id) (vm : Vm) : (hyp.set iid vm).saved = hyp.saved := rfl

/-- Setting one VM changes no other. -/
theorem Hypervisor.set_vm (hyp : Hypervisor) (iid : Id) (vm : Vm) (iid' : Id) :
    (hyp.set iid vm).vm iid' = if iid' = iid then some vm else hyp.vm iid' := by
  by_cases same : iid' = iid
  · subst same
    simp
  · simp [Hypervisor.set_other hyp same,same]

theorem Vm.Moves.target {iid : Id} {move : Move} {vm vm' : Vm} (moves : Vm.Moves P iid move vm vm') :
    move.target = some iid := by
  cases moves <;> rfl

theorem moved_of_set {w : World} {move : Move} {iid : Id} {vm vm' : Vm} (there : w.hyp.vm iid = some vm)
    (moves : Vm.Moves P iid move vm vm') : w.Moved P move { w with hyp := w.hyp.set iid vm' } := by
  refine ⟨rfl,rfl,rfl,rfl,rfl,.none fun iid' bytes same => ?_,?_⟩
  · subst same
    cases moves
  intro iid'
  by_cases same : iid' = iid
  · subst same
    exact .inr ⟨vm,vm',there,by simp,moves⟩
  · refine .inl ⟨Hypervisor.set_other _ same _,?_⟩
    rw [moves.target]
    exact fun equal => same (Option.some.inj equal).symm

theorem World.guestStep_moved {w v : World} {move : Move} {iid : Id} {f : Vm → Option Vm}
    (stepped : w.guestStep iid f = some v)
    (moves : ∀ vm vm', vm.phase = .running → f vm = some vm' → Vm.Moves P iid move vm vm') : w.Moved P move v := by
  unfold World.guestStep at stepped
  split at stepped
  · rename_i vm there
    split at stepped
    · rename_i running
      obtain ⟨vm',made,same⟩ := Option.map_eq_some_iff.mp stepped
      subst same
      exact moved_of_set there (moves vm vm' running made)
    · cases stepped
  · cases stepped

theorem World.moved_of_move {w v : World} {move : Move} (moved : w.move P move = some v) : w.Moved P move v := by
  cases move with
  | guestMemory iid mem dev =>
    refine World.guestStep_moved moved ?_
    rintro vm vm' running ⟨⟩
    exact .memory running
  | guestDisk iid bytes =>
    simp only [World.move] at moved
    split at moved
    · rename_i vm there
      split at moved
      · rename_i free
        cases moved
        exact ⟨rfl,rfl,rfl,rfl,rfl,.disk there free.1 free.2,fun _ => .inl ⟨rfl,by simp [Move.target]⟩⟩
      · cases moved
    · cases moved
  | agentUp iid =>
    refine World.guestStep_moved moved ?_
    intro vm vm' running made
    split at made
    · cases made
    · rename_i down
      cases made
      exact .up running (by simpa using down)
  | agent iid choice =>
    refine World.guestStep_moved moved ?_
    intro vm vm' running made
    obtain ⟨guest,turned,same⟩ := Option.map_eq_some_iff.mp made
    subst same
    exact .agent running turned
  | workload iid step =>
    refine World.guestStep_moved moved ?_
    intro vm vm' running made
    obtain ⟨guest,worked,same⟩ := Option.map_eq_some_iff.mp made
    subst same
    exact .workload running worked
  | vmDies iid =>
    obtain ⟨vm,there,same⟩ := Option.map_eq_some_iff.mp moved
    subst same
    exact moved_of_set there .dies
  | delete p =>
    cases p with
    | chunk h =>
      cases moved
      exact ⟨rfl,rfl,rfl,rfl,rfl,.chunk,fun _ => .inl ⟨rfl,by simp [Move.target]⟩⟩
    | scratch iid => cases moved
    | snap sid file =>
      cases file <;> cases moved
      exact ⟨rfl,rfl,rfl,rfl,rfl,.mem,fun _ => .inl ⟨rfl,by simp [Move.target]⟩⟩

/-! ## Calls -/

section
variable {t : Nat} {op : Op} {choice : Choice} {w v : World} {outcome : Except Exn op.Res}

theorem exec_db (other : op.kind ≠ .db) (ran : exec P t op choice w = some (outcome,v)) : v.db = w.db := by
  cases op with
  | db o => exact absurd rfl other
  | fs o | s3 o | mem o | vm o | sys o =>
    obtain ⟨_,_,same⟩ := Option.map_eq_some_iff.mp ran
    cases same
    rfl

theorem exec_used (other : op.kind ≠ .sys) (ran : exec P t op choice w = some (outcome,v)) : v.used = w.used := by
  cases op with
  | sys o => exact absurd rfl other
  | db o | fs o | s3 o | mem o | vm o =>
    obtain ⟨_,_,same⟩ := Option.map_eq_some_iff.mp ran
    cases same
    rfl

/-- An operation of Firecracker or of a guest agent. -/
def Op.isVm : Op → Bool
  | .vm _ => true
  | _ => false

theorem exec_hyp (other : op.isVm = false) (ran : exec P t op choice w = some (outcome,v)) : v.hyp = w.hyp := by
  cases op with
  | vm o => cases other
  | db o | fs o | s3 o | mem o | sys o =>
    obtain ⟨_,_,same⟩ := Option.map_eq_some_iff.mp ran
    cases same
    rfl

/-- An operation on the memory of the daemon. -/
def Op.isMem : Op → Bool
  | .mem _ => true
  | _ => false

theorem exec_mem (other : op.isMem = false) (ran : exec P t op choice w = some (outcome,v)) : v.mem = w.mem := by
  cases op with
  | mem o => cases other
  | db o | fs o | s3 o | vm o | sys o =>
    obtain ⟨_,_,same⟩ := Option.map_eq_some_iff.mp ran
    cases same
    rfl

/-- Only `LIVE[iid] = vm` puts an instance there. -/
theorem exec_live (ran : exec P t op choice w = some (outcome,v)) {iid : Id} (member : iid ∈ v.mem.live) :
    iid ∈ w.mem.live ∨ op = .mem (.liveSet iid) := by
  by_cases mem : op.isMem
  swap
  · exact .inl (exec_mem (by simpa using mem) ran ▸ member)
  cases op with
  | db | fs | s3 | vm | sys => cases mem
  | mem o =>
    obtain ⟨⟨result,after⟩,executed,same⟩ := Option.map_eq_some_iff.mp ran
    cases same
    cases o with
    | liveSet iid' =>
      cases choice <;> cases executed
      by_cases same : iid = iid'
      · exact .inr (same ▸ rfl)
      · simp only at member
        split at member
        · exact .inl member
        · exact .inl (by simpa [same] using member)
    | livePop iid' =>
      cases choice <;> cases executed
      exact .inl (List.mem_filter.mp member).1
    | acquire =>
      cases choice with
      | ok =>
        simp only [memExec] at executed
        split at executed <;> cases executed
        exact .inl member
      | fail | torn | id | text | time | flag | boot | bootLost | lost | eof | puts | found => cases executed
    | liveGet | liveKeys | store | update | release =>
      cases choice <;> cases executed
      exact .inl member

/-- Only `LIVE.pop(iid)` removes an instance from there. -/
theorem exec_live_stays (ran : exec P t op choice w = some (outcome,v)) {iid : Id} (member : iid ∈ w.mem.live) :
    iid ∈ v.mem.live ∨ op = .mem (.livePop iid) := by
  by_cases mem : op.isMem
  swap
  · exact .inl (exec_mem (by simpa using mem) ran ▸ member)
  cases op with
  | db | fs | s3 | vm | sys => cases mem
  | mem o =>
    obtain ⟨⟨result,after⟩,executed,same⟩ := Option.map_eq_some_iff.mp ran
    cases same
    cases o with
    | liveSet iid' =>
      cases choice <;> cases executed
      left
      simp only
      split
      · exact member
      · exact List.mem_append_left _ member
    | livePop iid' =>
      cases choice <;> cases executed
      by_cases same : iid = iid'
      · exact .inr (same ▸ rfl)
      · exact .inl (List.mem_filter.mpr ⟨member,by simpa using same⟩)
    | acquire =>
      cases choice with
      | ok =>
        simp only [memExec] at executed
        split at executed <;> cases executed
        exact .inl member
      | fail | torn | id | text | time | flag | boot | bootLost | lost | eof | puts | found => cases executed
    | liveGet | liveKeys | store | update | release =>
      cases choice <;> cases executed
      exact .inl member

theorem exec_liveSet {iid : Id} {outcome : Except Exn Unit} (ran : exec P t (.mem (.liveSet iid)) choice w = some (outcome,v)) :
    outcome = .ok () ∧ iid ∈ v.mem.live := by
  obtain ⟨⟨result,after⟩,executed,same⟩ := Option.map_eq_some_iff.mp ran
  cases same
  cases choice <;> cases executed
  refine ⟨rfl,?_⟩
  simp only
  split
  · rename_i there
    simpa using there
  · simp

theorem exec_newId {outcome : Except Exn Id} (ran : exec P t (.sys .newId) choice w = some (outcome,v)) :
    ∃ id, outcome = .ok id ∧ w.owner id = none ∧ v = { w with used := (id,t) :: w.used } := by
  obtain ⟨⟨result,used⟩,executed,same⟩ := Option.map_eq_some_iff.mp ran
  cases same
  cases choice with
  | id value =>
    simp only [sysExec] at executed
    split at executed
    · cases executed
    · rename_i fresh
      cases executed
      refine ⟨value,rfl,?_,rfl⟩
      have absent : ∀ t', (value,t') ∉ w.used := by simpa using fresh
      simp only [World.owner,Option.map_eq_none_iff,List.find?_eq_none,decide_eq_true_eq]
      rintro ⟨id,t'⟩ member rfl
      exact absent t' member
  | ok | fail | torn | text | time | flag | boot | bootLost | lost | eof | puts | found => cases executed

/-- Following a link changes nothing. -/
theorem exec_follow {sid : Id} {path : List Diff.Str} {outcome : Except Exn Diff.Followed}
    (ran : exec P t (.sys (.follow sid path)) choice w = some (outcome,v)) :
    (∃ what, choice = .found what ∧ what ≠ .never ∧ outcome = .ok what) ∧ v = w := by
  obtain ⟨⟨result,used⟩,executed,same⟩ := Option.map_eq_some_iff.mp ran
  cases same
  cases choice with
  | found what => cases what <;> cases executed <;> exact ⟨⟨_,rfl,by simp,rfl⟩,rfl⟩
  | ok | fail | torn | id | text | time | flag | boot | bootLost | lost | eof | puts => cases executed

theorem owner_cons {id id' : Id} {t' : Nat} (fresh : w.owner id = none) (owned : w.owner id' = some t') :
    ({ w with used := (id,t) :: w.used } : World).owner id' = some t' := by
  have other : id ≠ id' := by
    rintro rfl
    rw [fresh] at owned
    cases owned
  simpa [World.owner,other] using owned

/-- An id that has an owner keeps it. -/
theorem exec_owner (ran : exec P t op choice w = some (outcome,v)) {id : Id} {t' : Nat}
    (owned : w.owner id = some t') : v.owner id = some t' := by
  by_cases sys : op.kind = .sys
  · cases op with
    | sys o =>
      cases o with
      | newId =>
        obtain ⟨fresh,_,unowned,same⟩ := exec_newId ran
        exact same ▸ owner_cons unowned owned
      | token | now | sleep | beforeDeadline | isDir =>
        obtain ⟨⟨result,used⟩,executed,same⟩ := Option.map_eq_some_iff.mp ran
        cases same
        cases choice <;> cases executed
        all_goals exact owned
      | follow sid path =>
        obtain ⟨_,rfl⟩ := exec_follow ran
        exact owned
    | mem o | vm o => cases o <;> cases sys
    | fs o => rcases o.kind_cases with kind | kind <;> simp [Op.kind,kind] at sys
    | db o | s3 o => cases sys
  · have same := exec_used sys ran
    simpa only [World.owner,same] using owned

end

/-- The instance whose process the operation addresses. -/
def VmOp.target : VmOp → Id
  | .spawn iid | .start iid | .load iid _ _ | .pause iid | .create iid _ _ | .resume iid | .kill iid
  | .connect iid _ | .receive iid _ => iid

theorem exec_vm {t : Nat} {o : VmOp} {choice : Choice} {w v : World} {outcome : Except Exn o.Res}
    (ran : exec P t (.vm o) choice w = some (outcome,v)) :
    ∃ fs hyp, vmExec w.fs w.hyp o choice = some (outcome,fs,hyp) ∧ v = { w with fs, hyp } := by
  obtain ⟨⟨result,fs,hyp⟩,executed,same⟩ := Option.map_eq_some_iff.mp ran
  cases same
  exact ⟨fs,hyp,executed,rfl⟩

/-- Everything that a Firecracker operation may do. -/
inductive VmOp.Acts (fs : Fs Path) (hyp : Hypervisor) : (o : VmOp) → Except Exn o.Res → Fs Path → Hypervisor → Prop
  | fails {o : VmOp} {error : Exn} : VmOp.Acts fs hyp o (.error error) fs hyp
  | spawn {iid : Id} {r : Except Exn Unit} :
      VmOp.Acts fs hyp (.spawn iid) r fs (hyp.set iid ⟨.spawned,[],[],Guest.booting⟩)
  | start {iid : Id} {vm : Vm} {mem dev : Bytes} {r : Except Exn Unit} : hyp.vm iid = some vm → vm.phase = .spawned →
      VmOp.Acts fs hyp (.start iid) r fs (hyp.set iid ⟨.running,mem,dev,Guest.booting⟩)
  | load {iid : Id} {snap mem : Path} {vm : Vm} {dev image : Bytes} {guest : Guest} {r : Except Exn Unit} :
      hyp.vm iid = some vm → vm.phase = .spawned → fs.content snap = some dev → fs.content mem = some image →
      hyp.saved snap = some guest →
      VmOp.Acts fs hyp (.load iid snap mem) r fs (hyp.set iid ⟨.running,image,dev,restored guest⟩)
  | pause {iid : Id} {vm : Vm} {r : Except Exn Unit} : hyp.vm iid = some vm →
      vm.phase = .running ∨ vm.phase = .paused →
      VmOp.Acts fs hyp (.pause iid) r fs (hyp.set iid { vm with phase := .paused })
  | resume {iid : Id} {vm : Vm} {r : Except Exn Unit} : hyp.vm iid = some vm →
      vm.phase = .running ∨ vm.phase = .paused →
      VmOp.Acts fs hyp (.resume iid) r fs (hyp.set iid { vm with phase := .running })
  | create {iid : Id} {snap mem : Path} {vm : Vm} : hyp.vm iid = some vm → vm.phase = .paused →
      VmOp.Acts fs hyp (.create iid snap mem) (.ok ()) ((fs.put snap vm.dev).put mem vm.mem)
        { hyp with saved := Function.update hyp.saved snap (some vm.guest) }
  | torn {iid : Id} {snap mem : Path} {vm : Vm} {k : Nat} {error : Exn} : hyp.vm iid = some vm → vm.phase = .paused →
      VmOp.Acts fs hyp (.create iid snap mem) (.error error) ((fs.put snap (vm.dev.take k)).put mem (vm.mem.take k)) hyp
  | kill {iid : Id} {vm : Vm} : hyp.vm iid = some vm →
      VmOp.Acts fs hyp (.kill iid) (.ok ()) fs (hyp.set iid { vm with phase := .dead })
  | killNone {iid : Id} : hyp.vm iid = none → VmOp.Acts fs hyp (.kill iid) (.ok ()) fs hyp
  | connect {iid : Id} {line : Agent.Line} {vm : Vm} : hyp.vm iid = some vm → vm.phase = .running → vm.guest.up →
      VmOp.Acts fs hyp (.connect iid line) (.ok vm.guest.nextConn) fs (hyp.set iid { vm with guest :=
        { vm.guest with inbox := vm.guest.inbox ++ [(vm.guest.nextConn,line)], nextConn := vm.guest.nextConn + 1 } })
  | lost {iid : Id} {line : Agent.Line} {vm : Vm} : hyp.vm iid = some vm →
      VmOp.Acts fs hyp (.connect iid line) (.ok vm.guest.nextConn) fs (hyp.set iid { vm with guest :=
        { vm.guest with nextConn := vm.guest.nextConn + 1 } })
  | receive {iid : Id} {conn : Nat} {vm : Vm} {reply : Json} : hyp.vm iid = some vm →
      vm.guest.replies.find? (·.1 = conn) = some (conn,reply) →
      VmOp.Acts fs hyp (.receive iid conn) (.ok reply) fs hyp
  | eof {iid : Id} {conn : Nat} : VmOp.Acts fs hyp (.receive iid conn) (.ok (.obj [])) fs hyp

theorem setPhase_cases {fs fs' : Fs Path} {hyp hyp' : Hypervisor} {iid : Id} {phase : Phase}
    {r outcome : Except Exn Unit} (set : setPhase fs hyp iid phase r = (outcome,fs',hyp')) :
    (∃ vm, hyp.vm iid = some vm ∧ (vm.phase = .running ∨ vm.phase = .paused) ∧ outcome = r ∧ fs' = fs ∧
      hyp' = hyp.set iid { vm with phase }) ∨ (outcome = .error apiError ∧ fs' = fs ∧ hyp' = hyp) := by
  unfold setPhase at set
  split at set
  · rename_i vm there
    split at set
    · rename_i alive
      cases set
      exact .inl ⟨vm,there,alive,rfl,rfl,rfl⟩
    · cases set
      exact .inr ⟨rfl,rfl,rfl⟩
  · cases set
    exact .inr ⟨rfl,rfl,rfl⟩

theorem VmOp.acts {fs fs' : Fs Path} {hyp hyp' : Hypervisor} {o : VmOp} {choice : Choice}
    {outcome : Except Exn o.Res} (executed : vmExec fs hyp o choice = some (outcome,fs',hyp')) :
    o.Acts fs hyp outcome fs' hyp' := by
  cases o with
  | spawn iid =>
    cases choice <;> cases executed
    · exact .spawn
    · exact .fails
    · exact .spawn
  | start iid =>
    cases choice with
    | boot | bootLost =>
      simp only [vmExec] at executed
      split at executed
      · rename_i vm there
        split at executed
        · rename_i spawned
          cases executed
          exact .start there spawned
        · cases executed
      · cases executed
    | fail error =>
      cases executed
      exact .fails
    | ok | torn | id | text | time | flag | lost | eof | puts | found => cases executed
  | load iid snap mem =>
    cases choice with
    | ok | torn =>
      simp only [vmExec,answered,Option.map_some] at executed
      split at executed
      · rename_i vm dev image guest there device memory frozen
        split at executed
        · rename_i spawned
          cases executed
          exact .load there spawned device memory frozen
        · cases executed
          exact .fails
      · cases executed
        exact .fails
    | fail error =>
      cases executed
      exact .fails
    | id | text | time | flag | boot | bootLost | lost | eof | puts | found => cases executed
  | pause iid =>
    cases choice with
    | ok | torn =>
      obtain ⟨vm,there,alive,rfl,rfl,rfl⟩ | ⟨rfl,rfl,rfl⟩ := setPhase_cases (Option.some.inj executed)
      · exact .pause there alive
      · exact .fails
    | fail error =>
      cases executed
      exact .fails
    | id | text | time | flag | boot | bootLost | lost | eof | puts | found => cases executed
  | create iid snap mem =>
    cases choice with
    | ok =>
      simp only [vmExec] at executed
      split at executed
      · rename_i vm there
        split at executed
        · rename_i paused
          cases executed
          exact .create there paused
        · cases executed
          exact .fails
      · cases executed
        exact .fails
    | torn k error =>
      simp only [vmExec] at executed
      split at executed
      · rename_i vm there
        split at executed
        · rename_i paused
          cases executed
          exact .torn there paused
        · cases executed
      · cases executed
    | fail error =>
      cases executed
      exact .fails
    | id | text | time | flag | boot | bootLost | lost | eof | puts | found => cases executed
  | resume iid =>
    cases choice with
    | ok | torn =>
      obtain ⟨vm,there,alive,rfl,rfl,rfl⟩ | ⟨rfl,rfl,rfl⟩ := setPhase_cases (Option.some.inj executed)
      · exact .resume there alive
      · exact .fails
    | fail error =>
      cases executed
      exact .fails
    | id | text | time | flag | boot | bootLost | lost | eof | puts | found => cases executed
  | kill iid =>
    cases choice with
    | ok =>
      simp only [vmExec] at executed
      split at executed
      · rename_i vm there
        cases executed
        exact .kill there
      · rename_i absent
        cases executed
        exact .killNone absent
    | fail | torn | id | text | time | flag | boot | bootLost | lost | eof | puts | found => cases executed
  | connect iid line =>
    cases choice with
    | ok =>
      simp only [vmExec] at executed
      split at executed
      · rename_i vm there
        split at executed
        · rename_i up
          cases executed
          exact .connect there up.1 up.2
        · cases executed
      · cases executed
    | lost =>
      simp only [vmExec] at executed
      split at executed
      · rename_i vm there
        cases executed
        exact .lost there
      · cases executed
    | fail error =>
      cases executed
      exact .fails
    | torn | id | text | time | flag | boot | bootLost | eof | puts | found => cases executed
  | receive iid conn =>
    cases choice with
    | ok =>
      simp only [vmExec] at executed
      split at executed
      · rename_i vm there
        split at executed
        · rename_i conn' reply found
          cases executed
          have same : conn' = conn := by simpa using List.find?_some found
          exact .receive there (same ▸ found)
        · cases executed
      · cases executed
    | eof =>
      cases executed
      exact .eof
    | fail error =>
      cases executed
      exact .fails
    | torn | id | text | time | flag | boot | bootLost | lost | puts | found => cases executed

/-- The process of the instance exists and has got past its start or its load. -/
def Hypervisor.Started (hyp : Hypervisor) (iid : Id) : Prop := ∃ vm, hyp.vm iid = some vm ∧ vm.phase ≠ .spawned

section
variable {fs fs' : Fs Path} {hyp hyp' : Hypervisor} {o : VmOp} {outcome : Except Exn o.Res}

theorem VmOp.acts_other (acts : o.Acts fs hyp outcome fs' hyp') {iid : Id} (other : iid ≠ o.target) :
    hyp'.vm iid = hyp.vm iid := by
  cases acts with
  | fails | create | torn | killNone | receive | eof => rfl
  | spawn | start | load | pause | resume | kill | connect | lost => exact Hypervisor.set_other _ other _

theorem VmOp.acts_none (acts : o.Acts fs hyp outcome fs' hyp') {iid : Id} (absent : hyp.vm iid = none)
    (notSpawned : o ≠ .spawn iid) : hyp'.vm iid = none := by
  by_cases same : iid = o.target
  · subst same
    cases acts with
    | fails | killNone | receive | eof => exact absent
    | spawn => exact absurd rfl notSpawned
    | start there | load there | pause there | resume there | create there | torn there | kill there | connect there
    | lost there => exact absurd (absent.symm.trans there) (by simp)
  · exact (VmOp.acts_other acts same).trans absent

/-- A process that got past its start stays so, unless it is started anew. -/
theorem VmOp.acts_started (acts : o.Acts fs hyp outcome fs' hyp') {iid : Id} (started : hyp.Started iid)
    (new : o = .spawn iid → hyp.vm iid = none) : hyp'.Started iid := by
  obtain ⟨vm,there,past⟩ := started
  by_cases same : iid = o.target
  · subst same
    cases acts with
    | fails | create | torn | killNone | receive | eof => exact ⟨vm,there,past⟩
    | spawn => exact absurd (there.symm.trans (new rfl)) (by simp)
    | start | load | pause | resume | kill => exact ⟨_,Hypervisor.set_self _ _ _,by simp⟩
    | connect here | lost here =>
      cases there.symm.trans here
      exact ⟨_,Hypervisor.set_self _ _ _,past⟩
  · exact ⟨vm,(VmOp.acts_other acts same).trans there,past⟩

end

/-- A move changes processes that exist and leaves them started. -/
theorem World.Moved.none {w v : World} {move : Move} (moved : w.Moved P move v) {iid : Id}
    (absent : w.hyp.vm iid = none) : v.hyp.vm iid = none := by
  rcases moved.vm iid with ⟨same,_⟩ | ⟨vm,vm',there,_⟩
  · exact same.trans absent
  · exact absurd (absent.symm.trans there) (by simp)

theorem World.Moved.started {w v : World} {move : Move} (moved : w.Moved P move v) {iid : Id}
    (started : w.hyp.Started iid) : v.hyp.Started iid := by
  obtain ⟨vm,there,past⟩ := started
  rcases moved.vm iid with ⟨same,_⟩ | ⟨vm,vm',here,there',moves⟩
  · exact ⟨vm,same.trans there,past⟩
  · cases there.symm.trans here
    refine ⟨vm',there',?_⟩
    cases moves <;> first | exact past | simp

end Klados
