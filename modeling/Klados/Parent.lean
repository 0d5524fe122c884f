import Klados.Gate

/-!
What a snapshot leaves of its parent. QUIESCE stops the parent's workload with SIGSTOP, and
only FORKED sends SIGCONT, which a recorded instance never gets: after a snapshot the VM runs
again and the workload does not. Exactly when no SIGSTOP was delivered is the parent as before
(`parent_runs_iff`).
-/
namespace Klados
open Effects
open Agent (Guest Line Spares)

variable {P : Platform}

/-- The call that the agent of the instance is about to make. -/
def World.agentCall (w : World) (iid : Id) : Option Agent.Op :=
  (w.hyp.vm iid).bind fun vm =>
    match vm.guest.current with
    | some (_,.call op _) => some op
    | _ => none

/-- The agent of the instance moves. -/
def Move.isTurn (iid : Id) : Move → Bool
  | .agent iid' _ => iid' = iid
  | _ => false

/-- What is watched: how many SIGSTOPs were delivered to the workload of an instance, and which
    VMs a thread has paused and not resumed since. -/
structure Halts where
  stops : Id → Nat
  holds : Nat → Id → Bool

def Halts.start : Halts := ⟨fun _ => 0,fun _ _ => false⟩

def Halts.hold (seen : Halts) (t : Nat) (iid : Id) (value : Bool) : Halts :=
  { seen with holds := Function.update seen.holds t (Function.update (seen.holds t) iid value) }

def Halts.sees (t : Nat) : (op : Op) → Except Exn op.Res → World → World → Halts → Halts
  | .vm (.pause iid), _, before, after, seen =>
    if before.isPhase iid .running && after.isPhase iid .paused then seen.hold t iid true else seen
  | .vm (.resume iid), _, _, after, seen => if after.isPhase iid .running then seen.hold t iid false else seen
  | _, _, _, _, seen => seen

def Halts.moves (move : Move) (w : World) (seen : Halts) : Halts :=
  match move with
  | .agent iid _ =>
    if (w.agentCall iid).any Agent.Op.isSigstop then
      { seen with stops := Function.update seen.stops iid (seen.stops iid + 1) }
    else seen
  | _ => seen

def Halts.reboots (seen : Halts) : Halts := ⟨seen.stops,fun _ _ => false⟩

def parent (P : Platform) : Machine sig Exn Json Req (World × Halts) Choice Move :=
  (daemon P).watch Halts.sees Halts.moves Halts.reboots

abbrev ParentPool := Pool sig Exn Json Req (World × Halts)

/-- The daemon keeps running, and the process of the instance neither dies nor is killed. -/
def undisturbed (iid : Id) (pool : ParentPool) : Action Req Choice Move → Bool
  | .call t _ =>
    match pool.about t with
    | some (.vm (.kill iid')) => iid' ≠ iid
    | _ => true
  | .env (.vmDies iid') => iid' ≠ iid
  | .reboot => false
  | _ => true

/-- No FORKED is under way. -/
structure Calm (g : Guest) : Prop where
  inbox : NoFork g.inbox
  current : ∀ conn program, g.current = some (conn,program) → Spares program

/-- The instance with this generation and branch: its VM runs unless somebody paused it, and its
    workload is stopped if a SIGSTOP was delivered since there had been `stops` of them. -/
structure Stands (iid : Id) (gen : Nat) (branch : Option Json) (stops : Nat) (w : World) (seen : Halts) : Prop where
  recorded : w.db.committed.HasInstance iid
  counted : stops ≤ seen.stops iid
  vm : ∃ vm, w.hyp.vm iid = some vm ∧ (vm.phase = .running ∨ vm.phase = .paused ∧ ∃ t, seen.holds t iid = true) ∧
    vm.guest.up = true ∧ vm.guest.forkgen = gen ∧ vm.guest.branch = branch ∧ Calm vm.guest ∧
    (vm.guest.work.stopped = true ↔ stops < seen.stops iid)

section
variable {g g' : Guest} {choice : Agent.Choice} {line : Line}

theorem Calm.push (calm : Calm g) (other : line.hasType "FORKED" = false) : Calm (push g line) :=
  ⟨calm.inbox.append (by rintro entry member; simp_all),calm.current⟩

theorem calm_idle (inbox : g.inbox = []) (current : g.current = none) : Calm g :=
  ⟨by simp [inbox,NoFork],by simp [current]⟩

theorem Calm.skip (calm : Calm g) : Calm (skip g) := ⟨calm.inbox,calm.current⟩

/-- A call outside FORKED leaves the generation and the branch. -/
theorem exec_spares {op : Agent.Op} {outcome : Except Exn op.Res} (spares : op.isFork = false)
    (ran : Agent.exec g op choice = some (outcome,g')) : g'.forkgen = g.forkgen ∧ g'.branch = g.branch := by
  obtain ⟨rfl,_⟩ | ⟨rfl,_⟩ := Agent.exec_cases ran
  · cases op <;> first | exact ⟨rfl,rfl⟩ | cases spares
  · exact ⟨rfl,rfl⟩

/-- A turn of a calm agent can only stop the workload. -/
theorem Calm.turn (calm : Calm g) (turns : g.Turns P choice g') :
    Calm g' ∧ (g.up = true → g'.up = true) ∧ g'.forkgen = g.forkgen ∧ g'.branch = g.branch ∧
      g'.work.stopped = (g.work.stopped || (match g.current with
        | some (_,.call op _) => some op
        | _ => none).any Agent.Op.isSigstop) := by
  cases turns with
  | @accept conn line rest up idle waiting =>
    refine ⟨⟨fun entry member => calm.inbox entry (by simp [waiting,member]),?_⟩,id,rfl,rfl,by simp [idle]⟩
    rintro _ _ ⟨⟩
    exact Agent.spares_serve (calm.inbox (conn,line) (by simp [waiting]))
  | reply busy => exact ⟨⟨calm.inbox,by simp⟩,id,rfl,rfl,by simp [busy]⟩
  | drop busy => exact ⟨⟨calm.inbox,by simp⟩,id,rfl,rfl,by simp [busy]⟩
  | @call conn op next outcome after busy ran =>
    have spares := calm.current _ _ busy
    obtain ⟨gen,branch⟩ := exec_spares spares.1 ran
    obtain ⟨up,inbox,_,_,_,_,stopped⟩ := exec_work ran
    have notCont : op.isSigcont = false := by
      have other := spares.1
      cases op <;> first | rfl | cases other
    refine ⟨⟨inbox ▸ calm.inbox,?_⟩,fun wasUp => up.trans wasUp,gen,branch,by simp [busy,stopped notCont]⟩
    rintro _ _ ⟨⟩
    exact spares.2 outcome

theorem workload_spares {move : Agent.WorkMove} (moved : g.workload move = some g') :
    g'.forkgen = g.forkgen ∧ g'.branch = g.branch := by
  unfold Guest.workload at moved
  split at moved
  · cases move with
    | run | fork | exitDescendant =>
      cases moved
      exact ⟨rfl,rfl⟩
    | exitMain =>
      dsimp only at moved
      split at moved <;> cases moved
      exact ⟨rfl,rfl⟩
  · cases moved

end

section
variable {iid : Id} {gen : Nat} {branch : Option Json} {stops : Nat} {w v : World} {seen : Halts}

/-- The call of the agent, seen from its guest. -/
theorem agentCall_eq {vm : Vm} (there : w.hyp.vm iid = some vm) :
    w.agentCall iid = match vm.guest.current with
      | some (_,.call op _) => some op
      | _ => none := by
  simp [World.agentCall,there]

theorem moves_holds {move : Move} : (Halts.moves move w seen).holds = seen.holds := by
  cases move with
  | agent =>
    simp only [Halts.moves]
    split <;> rfl
  | guestMemory | guestDisk | agentUp | workload | vmDies | delete => rfl

theorem moves_stops {move : Move} : (Halts.moves move w seen).stops iid =
    if move.isTurn iid && (w.agentCall iid).any Agent.Op.isSigstop then seen.stops iid + 1 else seen.stops iid := by
  cases move with
  | agent iid' choice =>
    simp only [Halts.moves]
    by_cases same : iid' = iid
    · subst same
      by_cases stop : (w.agentCall iid').any Agent.Op.isSigstop <;> simp [stop,Move.isTurn]
    · by_cases stop : (w.agentCall iid').any Agent.Op.isSigstop <;> simp [stop,same,Ne.symm same,Move.isTurn]
  | guestMemory | guestDisk | agentUp | workload | vmDies | delete => simp [Halts.moves,Move.isTurn]

theorem Stands.moved {move : Move} (stands : Stands iid gen branch stops w seen) (alive : move ≠ .vmDies iid)
    (step : w.Moved P move v) : Stands iid gen branch stops v (Halts.moves move w seen) := by
  obtain ⟨recorded,counted,vm,there,phase,up,sameGen,sameBranch,calm,stopped⟩ := stands
  refine ⟨step.db ▸ recorded,?_,?_⟩
  · rw [moves_stops]
    split <;> omega
  have phase' : ∀ vm' : Vm, vm'.phase = vm.phase →
      (vm'.phase = .running ∨ vm'.phase = .paused ∧ ∃ t, (Halts.moves move w seen).holds t iid = true) := by
    intro vm' same
    rwa [moves_holds,same]
  rcases step.vm iid with ⟨same,other⟩ | ⟨vm₀,vm',here,there',moves⟩
  · have noTurn : move.isTurn iid = false := by
      cases move with
      | agent iid' choice => simpa [Move.isTurn,Move.target] using other
      | guestMemory | guestDisk | agentUp | workload | vmDies | delete => rfl
    refine ⟨vm,same.trans there,phase' vm rfl,up,sameGen,sameBranch,calm,?_⟩
    simpa [moves_stops,noTurn] using stopped
  · cases there.symm.trans here
    refine ⟨vm',there',?_⟩
    cases moves with
    | memory => exact ⟨phase' _ rfl,up,sameGen,sameBranch,calm,by simpa [moves_stops,Move.isTurn] using stopped⟩
    | up _ down => exact absurd up (by simp [down])
    | dies => exact absurd rfl alive
    | workload _ worked =>
      obtain ⟨gen',branch'⟩ := workload_spares worked
      obtain ⟨_,up',inbox,current,_,_,stopped'⟩ := workload_same worked
      exact ⟨phase' _ rfl,up'.trans up,gen'.trans sameGen,branch'.trans sameBranch,
        ⟨inbox ▸ calm.inbox,current ▸ calm.current⟩,by simpa [moves_stops,stopped',Move.isTurn] using stopped⟩
    | agent _ turned =>
      obtain ⟨calm',up',gen',branch',stopped'⟩ := calm.turn (Agent.Guest.turns_of_turn turned)
      refine ⟨phase' _ rfl,up' up,gen'.trans sameGen,branch'.trans sameBranch,calm',?_⟩
      rw [← agentCall_eq there] at stopped'
      by_cases stop : (w.agentCall iid).any Agent.Op.isSigstop
      · have more : stops < seen.stops iid + 1 := by omega
        simpa [stopped',stop,moves_stops,Move.isTurn] using more
      · simpa [stopped',stop,moves_stops] using stopped

theorem sees_stops {t : Nat} {op : Op} {outcome : Except Exn op.Res} :
    (Halts.sees t op outcome w v seen).stops = seen.stops := by
  cases op with
  | vm o =>
    cases o with
    | pause | resume =>
      simp only [Halts.sees]
      split <;> rfl
    | spawn | start | load | create | kill | connect | receive => rfl
  | db | fs | s3 | mem | sys => rfl

/-- What a thread holds of an instance changes only with its pause and its resume. -/
theorem sees_holds {t : Nat} {op : Op} {outcome : Except Exn op.Res} (notPause : op ≠ .vm (.pause iid))
    (notResume : op ≠ .vm (.resume iid)) (t' : Nat) :
    (Halts.sees t op outcome w v seen).holds t' iid = seen.holds t' iid := by
  have other : ∀ {iid' value}, iid' ≠ iid → (seen.hold t iid' value).holds t' iid = seen.holds t' iid := by
    intro iid' value different
    by_cases same : t' = t
    · subst same
      simp [Halts.hold,Ne.symm different]
    · simp [Halts.hold,same]
  cases op with
  | vm o =>
    cases o with
    | pause iid' =>
      simp only [Halts.sees]
      split
      · exact other fun same => notPause (same ▸ rfl)
      · rfl
    | resume iid' =>
      simp only [Halts.sees]
      split
      · exact other fun same => notResume (same ▸ rfl)
      · rfl
    | spawn | start | load | create | kill | connect | receive => rfl
  | db | fs | s3 | mem | sys => rfl

theorem Stands.call {t : Nat} {op : Op} {outcome : Except Exn op.Res} {choice : Choice}
    (stands : Stands iid gen branch stops w seen) (orderly : Orderly w) (permitted : Permitted t op w)
    (spared : op ≠ .vm (.kill iid)) (ran : exec P t op choice w = some (outcome,v)) :
    Stands iid gen branch stops v (Halts.sees t op outcome w v seen) := by
  have grows := committed_grows orderly permitted ran
  obtain ⟨recorded,counted,vm,there,phase,up,sameGen,sameBranch,calm,stopped⟩ := stands
  refine ⟨grows.hasInstance recorded,by simpa only [sees_stops] using counted,?_⟩
  rw [sees_stops]
  -- a call that is not a pause or a resume of this VM
  have still : ∀ vm', v.hyp.vm iid = some vm' → vm'.phase = vm.phase → vm'.guest = vm.guest →
      op ≠ .vm (.pause iid) → op ≠ .vm (.resume iid) → ∃ vm, v.hyp.vm iid = some vm ∧
      (vm.phase = .running ∨ vm.phase = .paused ∧ ∃ t', (Halts.sees t op outcome w v seen).holds t' iid = true) ∧
      vm.guest.up = true ∧ vm.guest.forkgen = gen ∧ vm.guest.branch = branch ∧ Calm vm.guest ∧
      (vm.guest.work.stopped = true ↔ stops < seen.stops iid) := by
    intro vm' there' samePhase sameGuest notPause notResume
    refine ⟨vm',there',?_,by rw [sameGuest]; exact ⟨up,sameGen,sameBranch,calm,stopped⟩⟩
    simpa only [sees_holds notPause notResume,samePhase] using phase
  by_cases address : op.isVm
  swap
  · have other : op.isVm = false := by simpa using address
    have same := exec_hyp other ran
    refine still vm (same ▸ there) rfl rfl ?_ ?_ <;> rintro rfl <;> cases other
  cases op with
  | db | fs | s3 | mem | sys => cases address
  | vm o =>
    obtain ⟨fs,hyp,acts,rfl⟩ := exec_vmActs ran
    by_cases target : iid = o.target
    swap
    · refine still vm ((VmOp.acts_other acts target).trans there) rfl rfl ?_ ?_ <;> rintro ⟨⟩ <;> exact target rfl
    have started : vm.phase ≠ .spawned := by
      rcases phase with running | ⟨paused,_⟩ <;> simp_all
    cases o with
    | spawn iid' =>
      obtain rfl : iid = iid' := target
      exact absurd (there.symm.trans permitted.2) (by simp)
    | kill iid' =>
      obtain rfl : iid = iid' := target
      exact absurd rfl spared
    | start iid' =>
      obtain rfl : iid = iid' := target
      cases acts with
      | fails => exact still vm there rfl rfl (by simp) (by simp)
      | start here spawned =>
        cases there.symm.trans here
        exact absurd spawned started
    | load iid' _ _ =>
      obtain rfl : iid = iid' := target
      cases acts with
      | fails => exact still vm there rfl rfl (by simp) (by simp)
      | load here spawned =>
        cases there.symm.trans here
        exact absurd spawned started
    | create iid' _ _ =>
      obtain rfl : iid = iid' := target
      cases acts <;> exact still vm there rfl rfl (by simp) (by simp)
    | receive iid' _ =>
      obtain rfl : iid = iid' := target
      cases acts <;> exact still vm there rfl rfl (by simp) (by simp)
    | pause iid' =>
      obtain rfl : iid = iid' := target
      cases acts with
      | fails =>
        refine ⟨vm,there,?_,up,sameGen,sameBranch,calm,stopped⟩
        rcases phase with running | ⟨paused,t',held⟩
        · exact .inl running
        · exact .inr ⟨paused,t',by simpa [Halts.sees,World.isPhase,there,paused] using held⟩
      | pause here =>
        cases there.symm.trans here
        refine ⟨_,Hypervisor.set_self _ _ _,.inr ⟨rfl,?_⟩,up,sameGen,sameBranch,calm,stopped⟩
        rcases phase with running | ⟨paused,t',held⟩
        · exact ⟨t,by simp [Halts.sees,World.isPhase,there,running,Halts.hold]⟩
        · exact ⟨t',by simpa [Halts.sees,World.isPhase,there,paused] using held⟩
    | resume iid' =>
      obtain rfl : iid = iid' := target
      cases acts with
      | fails =>
        refine ⟨vm,there,?_,up,sameGen,sameBranch,calm,stopped⟩
        rcases phase with running | ⟨paused,t',held⟩
        · exact .inl running
        · exact .inr ⟨paused,t',by simpa [Halts.sees,World.isPhase,there,paused] using held⟩
      | resume here =>
        cases there.symm.trans here
        exact ⟨_,Hypervisor.set_self _ _ _,.inl rfl,up,sameGen,sameBranch,calm,stopped⟩
    | connect iid' line =>
      obtain rfl : iid = iid' := target
      have other : line.hasType "FORKED" = false := by
        by_contra forked
        exact (permitted.1 (by simpa using forked)).2 recorded
      cases acts with
      | fails => exact still vm there rfl rfl (by simp) (by simp)
      | connect here =>
        cases there.symm.trans here
        exact ⟨_,Hypervisor.set_self _ _ _,phase,up,sameGen,sameBranch,calm.push other,stopped⟩
      | lost here =>
        cases there.symm.trans here
        exact ⟨_,Hypervisor.set_self _ _ _,phase,up,sameGen,sameBranch,calm.skip,stopped⟩

end
/-! ## Threads -/

/-- The thread has paused no VM that it has not resumed. -/
def Free (t : Nat) (s : World × Halts) : Prop := ∀ iid, s.2.holds t iid = false

/-- The threads keep out of what the others have paused. -/
def halting (P : Platform) : Rules sig Exn (World × Halts) where
  step := (parent P).step
  inv _ := True
  rely t s s' := s'.2.holds t = s.2.holds t
  guar t _ s s' := ∀ t', t' ≠ t → s'.2.holds t' = s.2.holds t'

theorem halting_lawful : (halting P).Lawful := ⟨fun _ _ => rfl,fun _ {_ _ _} first second => second.trans first⟩

section
variable {t : Nat} {α : Type} {iid : Id}

theorem stable_free : Stable (halting P) t (Free t) := fun _ _ _ _ same free iid => by rw [same,free iid]

theorem sees_others {op : Op} {outcome : Except Exn op.Res} {w v : World} {seen : Halts} {t' : Nat} (other : t' ≠ t) :
    (Halts.sees t op outcome w v seen).holds t' = seen.holds t' := by
  have held : ∀ iid value, (seen.hold t iid value).holds t' = seen.holds t' := by simp [Halts.hold,other]
  cases op with
  | vm o =>
    cases o with
    | pause | resume =>
      simp only [Halts.sees]
      split
      · exact held _ _
      · rfl
    | spawn | start | load | create | kill | connect | receive => rfl
  | db | fs | s3 | mem | sys => rfl

/-- Of a call only its postcondition is to be shown. -/
theorem halting_acts {pre : World × Halts → Prop} {op : Op} {Q : Except Exn op.Res → World × Halts → Prop}
    (post : ∀ choice outcome w v seen, pre (w,seen) → exec P t op choice w = some (outcome,v) →
      Q outcome (v,Halts.sees t op outcome w v seen)) : Acts (halting P) t pre op Q where
  keeps := by
    rintro ⟨w,seen⟩ outcome s _ holds ⟨choice,ran⟩
    obtain ⟨⟨outcome',v⟩,ran',same⟩ := Option.map_eq_some_iff.mp ran
    cases same
    exact ⟨trivial,fun t' other => sees_others other,post choice outcome _ v seen holds ran'⟩

/-- Whatever is no part of a snapshot pauses nothing. -/
theorem plain_free {program : KProg α} (plain : Plain program) :
    Triple (halting P) t (Free t) program (fun _ => Free t) := by
  refine Triple.only stable_free ?_ plain
  intro op other
  refine halting_acts ?_
  intro choice outcome w v seen free _ iid
  rw [sees_holds]
  · exact free iid
  · rintro rfl
    cases other
  · rintro rfl
    cases other

theorem free_bind {β : Type} {program : KProg α} (plain : Plain program) {rest : α → KProg β}
    (onward : ∀ value, Triple (halting P) t (Free t) (rest value) (Ends fun _ => Free t)) :
    Triple (halting P) t (Free t) (program >>= rest) (Ends fun _ => Free t) :=
  Triple.seq halting_lawful ((plain_free plain).consequence (fun _ _ free => free) fun outcome _ _ free => by
    cases outcome
    · trivial
    · exact free) onward

/-- The thread holds no VM but this one. -/
def FreeBut (t : Nat) (iid : Id) (s : World × Halts) : Prop := ∀ iid', iid' ≠ iid → s.2.holds t iid' = false

theorem stable_freeBut : Stable (halting P) t (FreeBut t iid) :=
  fun _ _ _ _ same free iid' other => by rw [same,free iid' other]

theorem freeBut_triple {program : KProg α}
    (only : program.Only fun op : Op => ∀ iid', iid' ≠ iid → op ≠ .vm (.pause iid') ∧ op ≠ .vm (.resume iid')) :
    Triple (halting P) t (FreeBut t iid) program (fun _ => FreeBut t iid) := by
  refine Triple.only stable_freeBut ?_ only
  intro op others
  refine halting_acts ?_
  intro choice outcome w v seen free _ iid' other
  obtain ⟨notPause,notResume⟩ := others iid' other
  rw [sees_holds notPause notResume]
  exact free iid' other

theorem plain_others {program : KProg α} (plain : Plain program) :
    program.Only fun op : Op => ∀ iid', iid' ≠ iid → op ≠ .vm (.pause iid') ∧ op ≠ .vm (.resume iid') := by
  refine Prog.Only.mono ?_ plain
  rintro op other iid' _
  constructor <;> rintro rfl <;> cases other

theorem freeBut_bind {β : Type} {program : KProg α} {rest : α → KProg β}
    (only : program.Only fun op : Op => ∀ iid', iid' ≠ iid → op ≠ .vm (.pause iid') ∧ op ≠ .vm (.resume iid'))
    (onward : ∀ value, Triple (halting P) t (FreeBut t iid) (rest value) (Ends fun _ => Free t)) :
    Triple (halting P) t (FreeBut t iid) (program >>= rest) (Ends fun _ => Free t) :=
  Triple.seq halting_lawful ((freeBut_triple only).consequence (fun _ _ free => free) fun outcome _ _ free => by
    cases outcome
    · trivial
    · exact free) onward

/-- A resume that returns leaves the VM running, and the thread holds it no longer. -/
theorem resume_free : Triple (halting P) t (FreeBut t iid) (vmCall (.resume iid)) (Ends fun _ => Free t) := by
  refine Triple.perform stable_freeBut (halting_acts ?_) fun outcome => ?_
  · intro choice outcome w v seen free ran
    cases outcome with
    | error error => trivial
    | ok value =>
      obtain ⟨fs,hyp,acts,rfl⟩ := exec_vmActs ran
      cases acts with
      | resume here =>
        intro iid'
        by_cases same : iid' = iid
        · simp [Halts.sees,World.isPhase,Halts.hold,same]
        · simpa [Halts.sees,World.isPhase,Halts.hold,same] using free iid' same
  · cases outcome with
    | error error => exact fun _ _ _ _ _ _ => trivial
    | ok value => exact stable_free

theorem snapshot_instance_free (label : Json) :
    Triple (halting P) t (Free t) (snapshot_instance P iid label) (Ends fun _ => Free t) := by
  refine free_bind (plain_mem _) fun live => ?_
  split
  · exact Triple.raise stable_free fun _ _ _ => trivial
  refine Triple.catching halting_lawful (M := Ends fun _ => Free t) ?_ (fun _ _ _ free => free) ?_
  swap
  · intro error
    refine Triple.bind halting_lawful (M := fun _ _ => True) ?_ ?_ (fun _ _ _ _ => trivial)
    · exact Triple.perform (fun _ _ _ _ _ _ => trivial) (halting_acts fun _ _ _ _ _ _ _ => trivial)
        fun _ _ _ _ _ _ _ => trivial
    · exact fun _ => Triple.raise (fun _ _ _ _ _ _ => trivial) fun _ _ _ => trivial
  refine free_bind (plain_db rfl) fun T => ?_
  split
  · exact Triple.raise stable_free fun _ _ _ => trivial
  rename_i row _
  refine free_bind (plain_sys _) fun sid => ?_
  refine free_bind (plain_fs _) fun _ => ?_
  refine free_bind (plain_fs _) fun _ => ?_
  refine free_bind ((uses_quiesce iid).plain (by decide) (by decide)) fun _ => ?_
  refine Triple.consequence (P := FreeBut t iid) (Q := Ends fun _ => Free t) ?_ (fun _ _ free iid' _ => free iid')
    fun _ _ _ free => free
  refine freeBut_bind (Prog.Only.perform fun iid' other => ⟨by simpa using Ne.symm other,by simp⟩) fun _ => ?_
  refine freeBut_bind (Prog.Only.perform fun iid' other => ⟨by simp,by simp⟩) fun _ => ?_
  refine freeBut_bind (Prog.Only.perform fun iid' other => ⟨by simp,by simp⟩) fun _ => ?_
  refine freeBut_bind (plain_others ((uses_seal_scratch _ _).plain (by decide) (by decide))) fun _ => ?_
  refine Triple.seq halting_lawful resume_free fun _ => ?_
  refine free_bind ((uses_chunk_mem P _ _).plain (by decide) (by decide)) fun logical => ?_
  refine free_bind (plain_fs _) fun state => ?_
  refine free_bind (plain_sys _) fun now => ?_
  refine free_bind ((uses_bindText P _).plain (by decide) (by decide)) fun text => ?_
  refine Triple.seq halting_lawful (M := fun _ => Free t) ?_ fun _ => ?_
  · refine Triple.perform stable_free (halting_acts ?_) fun outcome => ?_
    · intro choice outcome w v seen free _
      cases outcome with
      | error error => trivial
      | ok value => exact free
    · cases outcome with
      | error error => exact fun _ _ _ _ _ _ => trivial
      | ok value => exact stable_free
  refine free_bind (plain_db rfl) fun _ => free_bind (plain_db rfl) fun _ => ?_
  exact Triple.ret stable_free fun _ _ free => free

theorem Req.free (req : Req) : Triple (halting P) t (Free t) (req.body P) (Ends fun _ => Free t) := by
  by_cases snapshot : ∃ iid label, req = .snapshot_instance iid label
  · obtain ⟨iid,label,rfl⟩ := snapshot
    exact snapshot_instance_free label
  · have plain := plain_body P fun iid label same => snapshot ⟨iid,label,same⟩
    refine (plain_free plain).consequence (fun _ _ free => free) fun outcome _ _ free => ?_
    cases outcome
    · trivial
    · exact free

end

/-- A thread that returned holds nothing. -/
theorem halting_sound : Sound (parent P) (fun _ _ => True) (halting P) Free (fun t _ => Ends fun _ => Free t) where
  lawful := halting_lawful
  calls _ _ choice _ _ _ _ _ _ _ _ ran := ⟨choice,ran⟩
  others t t' op w v other _ _ guaranteed := guaranteed t other
  envs pool move world _ _ moved := by
    obtain ⟨v,_,same⟩ := Option.map_eq_some_iff.mp moved
    subst same
    exact ⟨trivial,fun t => congrFun moves_holds t⟩
  reboots _ _ _ := ⟨trivial,fun _ _ => rfl⟩
  young _ := stable_free
  bodies _ req _ := req.free

theorem halting_start (w : World) :
    Healthy (halting P) Free (fun t _ => Ends fun _ => Free t) (⟨(w,Halts.start),[]⟩ : ParentPool) :=
  ⟨trivial,fun t thread found => by simp at found,fun _ _ _ => rfl⟩

/-- In every run: when a `snapshot_instance` has returned and no other request has the VM paused,
    then the VM runs with the generation and the branch it had, and its workload is runnable if
    and only if no SIGSTOP was delivered. -/
theorem parent_runs_iff (P : Platform) {w : World} (fresh : w.Fresh) {middle later : ParentPool} {iid : Id}
    (reached : (parent P).Reach (fun _ _ => True) ⟨(w,Halts.start),[]⟩ middle)
    (onward : (parent P).Reach (fun pool action => undisturbed iid pool action) middle later) {vm : Vm}
    (recorded : middle.world.1.db.committed.HasInstance iid) (there : middle.world.1.hyp.vm iid = some vm)
    (running : vm.phase = .running) (up : vm.guest.up = true) (runnable : vm.guest.work.stopped = false)
    (calm : Calm vm.guest) {t : Nat} {label reply : Json}
    (returned : later.threads[t]? = some ⟨.snapshot_instance iid label,.ret reply⟩)
    (alone : ∀ t', t' ≠ t → later.world.2.holds t' iid = false) :
    (∃ vm', later.world.1.hyp.vm iid = some vm' ∧ vm'.phase = .running ∧ vm'.guest.forkgen = vm.guest.forkgen ∧
      vm'.guest.branch = vm.guest.branch ∧ vm'.guest.work.stopped = false) ↔
      later.world.2.stops iid = middle.world.2.stops iid := by
  have healthy := protocol_sound.watch.reach (fresh.watched (P := P) Halts.start) reached
  have stands : Stands iid vm.guest.forkgen vm.guest.branch (middle.world.2.stops iid) later.world.1 later.world.2 := by
    refine protocol_sound.watched (J := Stands iid vm.guest.forkgen vm.guest.branch (middle.world.2.stops iid))
      ?_ ?_ (fun _ rebooted => by cases rebooted) healthy ?_ onward
    · intro pool t choice op outcome v allowed about orderly guaranteed ran stands
      refine stands.call orderly guaranteed.1 ?_ ran
      rintro rfl
      simp [undisturbed,about] at allowed
    · intro pool move v allowed _ moved stands
      refine stands.moved ?_ (World.moved_of_move moved)
      rintro rfl
      simp [undisturbed] at allowed
    · exact ⟨recorded,Nat.le_refl _,vm,there,.inl running,up,rfl,rfl,calm,by simp [runnable]⟩
  have free : Free t later.world := by
    have whole := halting_sound.reach (halting_start w) (reached.trans (onward.weaken fun _ _ _ => trivial))
    exact whole.safe t _ returned later.world rfl trivial
  obtain ⟨_,counted,vm',there',phase,_,gen,branch,_,stopped⟩ := stands
  have runs : vm'.phase = .running := by
    rcases phase with running | ⟨_,t',held⟩
    · exact running
    · by_cases same : t' = t
      · exact absurd (same ▸ held) (by simp [free iid])
      · exact absurd held (by simp [alone t' same])
  constructor
  · rintro ⟨vm₁,there₁,_,_,_,still⟩
    cases there'.symm.trans there₁
    have none : ¬ middle.world.2.stops iid < later.world.2.stops iid := fun more => by simp [stopped.mpr more] at still
    omega
  · intro none
    refine ⟨vm',there',runs,gen,branch,?_⟩
    by_contra halted
    have more := stopped.mp (by simpa using halted)
    omega

/-- The thread has returned from a `snapshot_instance`. -/
def snapshotReturned (pool : ParentPool) (t : Nat) (iid : Id) : Bool :=
  match pool.threads[t]? with
  | some ⟨.snapshot_instance iid' _,.ret _⟩ => iid' = iid
  | _ => false

theorem returned_of_snapshot {pool : ParentPool} {t : Nat} {iid : Id} (done : snapshotReturned pool t iid) :
    ∃ label reply, pool.threads[t]? = some ⟨.snapshot_instance iid label,.ret reply⟩ := by
  unfold snapshotReturned at done
  split at done
  · rename_i iid' label reply found
    have same : iid' = iid := by simpa using done
    exact ⟨label,reply,same ▸ found⟩
  · cases done

/-- A run whose instance `i` is up, and which has returned. -/
def bootedRun : List (Action Req Choice Move) :=
  .request (.create_run "p" .null) :: calls 0 (createRun "r" "i" [7] [8]) ++ [.env (.agentUp "i")]

/-- A snapshot whose QUIESCE gets lost. -/
def lostSnapshot : List (Action Req Choice Move) :=
  .request (.snapshot_instance "i" .null) :: calls 1 (takeSnapshot "s" ++ recordSnapshot)

/-- A snapshot whose QUIESCE is answered. -/
def quiescedSnapshot : List (Action Req Choice Move) :=
  .request (.snapshot_instance "i" .null) :: calls 1 [.ok,.ok,.id "s",.ok,.ok,.ok] ++ answerQuiesce "i" ++
    calls 1 ([.ok,.ok,.ok,.ok,.ok,.ok,.ok,.ok] ++ recordSnapshot)

/-- An instance that is recorded and whose VM and workload run while its agent is idle. -/
def runsIdle (pool : ParentPool) (iid : Id) : Bool :=
  pool.world.1.db.committed.instances.any (·.id = iid) && (pool.world.1.hyp.vm iid).any fun vm =>
    vm.phase = .running && vm.guest.up && vm.guest.executes && !vm.guest.work.stopped && vm.guest.inbox.isEmpty &&
      vm.guest.current.isNone

theorem parent_runs_iff_lost : ∃ middle later : ParentPool,
    (parent .plain).run (fun _ _ => true) bootedRun ⟨(World.initial defaultProject false,Halts.start),[]⟩ = some middle ∧
    (parent .plain).run (undisturbed "i") lostSnapshot middle = some later ∧
    ∃ vm, later.world.1.hyp.vm "i" = some vm ∧ vm.phase = .running ∧ vm.guest.work.stopped = false := by
  have seen : ((parent .plain).run (fun _ _ => true) bootedRun ⟨(World.initial defaultProject false,Halts.start),[]⟩).bind
      (fun middle => ((parent .plain).run (undisturbed "i") lostSnapshot middle).map fun later =>
        (runsIdle middle "i",snapshotReturned later 1 "i",later.threads.length,later.world.2.holds 0 "i",
          decide (later.world.2.stops "i" = middle.world.2.stops "i"))) = some (true,true,2,false,true) := by
    decide +kernel
  obtain ⟨middle,booted,seen⟩ := Option.bind_eq_some_iff.mp seen
  obtain ⟨later,ran,same⟩ := Option.map_eq_some_iff.mp seen
  simp only [Prod.mk.injEq,decide_eq_true_eq] at same
  obtain ⟨idle,ended,length,holds,none⟩ := same
  have reached := Machine.reach_of_run (parent .plain) (fun _ _ _ => trivial) booted
  have onward := Machine.reach_of_run (parent .plain)
    (fun (pool : ParentPool) action (passes : undisturbed "i" pool action) => passes) ran
  obtain ⟨label,reply,returned⟩ := returned_of_snapshot ended
  simp only [runsIdle,Bool.and_eq_true,List.any_eq_true,Option.any_eq_true,decide_eq_true_eq,Bool.not_eq_true',
    List.isEmpty_iff,Option.isNone_iff_eq_none] at idle
  obtain ⟨⟨row,member,named⟩,vm,there,⟨⟨⟨⟨running,up⟩,_⟩,runnable⟩,inbox⟩,current⟩ := idle
  have alone : ∀ t', t' ≠ 1 → later.world.2.holds t' "i" = false := by
    intro t' other
    have whole := halting_sound.reach (halting_start _) (reached.trans (onward.weaken fun _ _ _ => trivial))
    by_cases first : t' = 0
    · exact first ▸ holds
    · exact whole.next t' (by omega) "i"
  obtain ⟨vm',there',runs,_,_,still⟩ := (parent_runs_iff .plain (World.initial_fresh defaultProject false) reached onward
    ⟨row,member,named⟩ there running up runnable (calm_idle inbox current) returned alone).mpr none
  exact ⟨middle,later,booted,ran,vm',there',runs,still⟩

/-- The QUIESCE of a successful snapshot is answered, and the workload stays stopped. -/
theorem parent_not_runs : ∃ middle later : ParentPool,
    (parent .plain).Reach (fun _ _ => True) ⟨(World.initial defaultProject false,Halts.start),[]⟩ middle ∧
    runsIdle middle "i" = true ∧
    (parent .plain).Reach (fun pool action => undisturbed "i" pool action) middle later ∧
    snapshotReturned later 1 "i" = true ∧
    ∃ vm, later.world.1.hyp.vm "i" = some vm ∧ vm.phase = .running ∧ vm.guest.work.stopped = true ∧
      vm.guest.inbox = [] ∧ vm.guest.current = none := by
  have seen : ((parent .plain).run (fun _ _ => true) bootedRun ⟨(World.initial defaultProject false,Halts.start),[]⟩).bind
      (fun middle => ((parent .plain).run (undisturbed "i") quiescedSnapshot middle).map fun later =>
        (runsIdle middle "i",snapshotReturned later 1 "i",(later.world.1.hyp.vm "i").any fun vm => vm.phase = .running &&
          vm.guest.work.stopped && vm.guest.inbox.isEmpty && vm.guest.current.isNone)) = some (true,true,true) := by
    decide +kernel
  obtain ⟨middle,booted,seen⟩ := Option.bind_eq_some_iff.mp seen
  obtain ⟨later,ran,same⟩ := Option.map_eq_some_iff.mp seen
  simp only [Prod.mk.injEq,Option.any_eq_true,Bool.and_eq_true,decide_eq_true_eq,List.isEmpty_iff,
    Option.isNone_iff_eq_none] at same
  obtain ⟨idle,ended,vm,there,⟨⟨running,stopped⟩,inbox⟩,current⟩ := same
  exact ⟨middle,later,Machine.reach_of_run _ (fun _ _ _ => trivial) booted,idle,
    Machine.reach_of_run _ (fun _ _ passes => passes) ran,ended,vm,there,running,stopped,inbox,current⟩

end Klados
