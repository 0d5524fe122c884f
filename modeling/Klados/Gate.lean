import Klados.Timeline
import Klados.Handlers

/-!
The gate between a restore and the bump of the generation. The daemon swallows whatever goes
wrong with QUIESCE, and SIGSTOP reaches only the process that the agent spawned; so a
workload may run in a child before its generation is bumped. It does not, in any run in which
every snapshot is taken after a QUIESCED of its own and of a workload without descendants
(`workload_gated`).
-/
namespace Klados
open Effects
open Agent (Guest Line Holds BumpsFirst Stops isQuiesced)

variable {P : Platform}

/-- No FORKED is waiting. -/
def NoFork (inbox : List (Nat × Line)) : Prop := ∀ entry ∈ inbox, entry.2.hasType "FORKED" = false

/-- The workload is stopped, and nothing that the agent has yet to do continues it. -/
structure Frozen (g : Guest) : Prop where
  up : g.up = true
  stopped : g.work.stopped = true
  inbox : NoFork g.inbox
  current : ∀ conn program, g.current = some (conn,program) → Holds program

/-- No process of the workload can execute, and the agent bumps the generation before it
    continues the workload. -/
structure Held (g : Guest) : Prop where
  up : g.up = true
  executes : g.executes = false
  current : ∀ conn program, g.current = some (conn,program) → BumpsFirst program

/-- The QUIESCE on this connection is on its way: once it is answered QUIESCED, the guest is
    frozen. No FORKED comes behind it. -/
structure Awaits (g : Guest) (conn : Nat) : Prop where
  given : conn < g.nextConn
  waiting : ∀ before line after, g.inbox = before ++ (conn,line) :: after → line.hasType "QUIESCE" ∧ NoFork after
  current : ∀ program, g.current = some (conn,program) → g.up = true ∧ NoFork g.inbox ∧ Stops program g.work.stopped
  answered : ∀ reply, (conn,reply) ∈ g.replies → isQuiesced reply → Frozen g

/-- Connections are numbered in order. -/
structure Numbered (g : Guest) : Prop where
  inbox : ∀ entry ∈ g.inbox, entry.1 < g.nextConn
  current : ∀ conn program, g.current = some (conn,program) → conn < g.nextConn
  replies : ∀ entry ∈ g.replies, entry.1 < g.nextConn

/-- Another message at the end of the queue. -/
def push (g : Guest) (line : Line) : Guest :=
  { g with inbox := g.inbox ++ [(g.nextConn,line)], nextConn := g.nextConn + 1 }

/-- A connection that never reaches the agent. -/
def skip (g : Guest) : Guest := { g with nextConn := g.nextConn + 1 }

section
variable {g g' : Guest} {choice : Agent.Choice} {line : Line} {conn : Nat}

theorem NoFork.append {inbox more : List (Nat × Line)} (first : NoFork inbox) (second : NoFork more) :
    NoFork (inbox ++ more) := by
  intro entry member
  rcases List.mem_append.mp member with inside | inside
  · exact first entry inside
  · exact second entry inside

/-- A call of the agent, but for the program that is left. -/
theorem exec_work {op : Agent.Op} {outcome : Except Exn op.Res} (ran : Agent.exec g op choice = some (outcome,g')) :
    g'.up = g.up ∧ g'.inbox = g.inbox ∧ g'.replies = g.replies ∧ g'.nextConn = g.nextConn ∧
      g'.work.alive = g.work.alive ∧ g'.work.descendants = g.work.descendants ∧
      (op.isSigcont = false → g'.work.stopped = (g.work.stopped || op.isSigstop)) := by
  obtain ⟨rfl,_⟩ | ⟨rfl,notStop,_,_⟩ := Agent.exec_cases ran
  · cases op <;> simp [Guest.after,Agent.Op.isSigstop,Agent.Op.isSigcont]
  · have other : op.isSigstop = false := by cases op <;> first | rfl | exact absurd rfl notStop
    simp [other]

theorem Frozen.turn (frozen : Frozen g) (turns : g.Turns P choice g') : Frozen g' := by
  cases turns with
  | @accept conn line rest up idle waiting =>
    refine ⟨up,frozen.stopped,fun entry member => frozen.inbox entry (by simp [waiting,member]),?_⟩
    rintro _ _ ⟨⟩
    exact Agent.holds_serve (frozen.inbox (conn,line) (by simp [waiting]))
  | reply busy => exact ⟨frozen.up,frozen.stopped,frozen.inbox,by simp⟩
  | drop busy => exact ⟨frozen.up,frozen.stopped,frozen.inbox,by simp⟩
  | call busy ran =>
    have holds := frozen.current _ _ busy
    obtain ⟨up,inbox,_,_,_,_,stopped⟩ := exec_work ran
    refine ⟨up.trans frozen.up,?_,inbox ▸ frozen.inbox,?_⟩
    · simp [stopped holds.1,frozen.stopped]
    · rintro _ _ ⟨⟩
      exact holds.2 _

theorem Frozen.push (frozen : Frozen g) (other : line.hasType "FORKED" = false) : Frozen (push g line) :=
  ⟨frozen.up,frozen.stopped,frozen.inbox.append (by rintro entry member; simp_all),frozen.current⟩

theorem Frozen.skip (frozen : Frozen g) : Frozen (skip g) := ⟨frozen.up,frozen.stopped,frozen.inbox,frozen.current⟩

/-- A step of the workload changes nothing but the workload's own processes. -/
theorem workload_same {move : Agent.WorkMove} (moved : g.workload move = some g') :
    g.executes = true ∧ g'.up = g.up ∧ g'.inbox = g.inbox ∧ g'.current = g.current ∧ g'.replies = g.replies ∧
      g'.nextConn = g.nextConn ∧ g'.work.stopped = g.work.stopped := by
  unfold Guest.workload at moved
  split at moved
  · rename_i executes
    cases move with
    | run | fork | exitDescendant =>
      cases moved
      simp [executes]
    | exitMain =>
      dsimp only at moved
      split at moved
      · cases moved
        simp [executes]
      · cases moved
  · cases moved

theorem Frozen.workload {move : Agent.WorkMove} (frozen : Frozen g) (moved : g.workload move = some g') : Frozen g' := by
  obtain ⟨_,up,inbox,current,_,_,stopped⟩ := workload_same moved
  exact ⟨up.trans frozen.up,stopped.trans frozen.stopped,inbox ▸ frozen.inbox,current ▸ frozen.current⟩

/-- A frozen guest without descendants can be captured. -/
theorem Frozen.held (frozen : Frozen g) (alone : g.work.descendants = 0) : Held g :=
  ⟨frozen.up,by simp [Guest.executes,frozen.stopped,alone],
    fun conn program busy => (frozen.current conn program busy).bumpsFirst⟩

theorem Held.restored (held : Held g) : Held (restored g) := ⟨held.up,held.executes,held.current⟩

/-- The turn makes the write that bumps the generation. -/
def bumps (g : Guest) : Agent.Choice → Bool
  | .ok =>
    match g.current with
    | some (_,.call op _) => Agent.Op.isBump op
    | _ => false
  | _ => false

theorem Held.turn (held : Held g) (turns : g.Turns P choice g') (before : bumps g choice = false) : Held g' := by
  cases turns with
  | accept up idle waiting =>
    refine ⟨up,held.executes,?_⟩
    rintro _ _ ⟨⟩
    exact Agent.bumpsFirst_serve _
  | reply busy => exact ⟨held.up,held.executes,by simp⟩
  | drop busy => exact ⟨held.up,held.executes,by simp⟩
  | @call conn op next outcome after busy ran =>
    have first := held.current _ _ busy
    obtain ⟨up,_,_,_,alive,descendants,stopped⟩ := exec_work ran
    refine ⟨up.trans held.up,?_,?_⟩
    · have still := held.executes
      simp only [Guest.executes,alive,descendants,stopped first.1,Bool.or_eq_false_iff,Bool.and_eq_false_iff] at still ⊢
      refine ⟨?_,still.2⟩
      rcases still.1 with dead | halted
      · exact .inl dead
      · right
        simp at halted
        simp [halted]
    · rintro _ _ ⟨⟩
      refine first.2 outcome fun bump => ?_
      -- the write did not happen, so it failed
      cases op with
      | writeGen gen =>
        cases choice <;> cases ran
        · simp [bumps,busy,Agent.Op.isBump] at before
        · exact ⟨_,rfl⟩
      | writeBranch | writeDataBranch | setRealtime | time | readGen | sigstop | sync | sigcont | print | workPid
      | inspect => cases bump

theorem Held.push (held : Held g) : Held (push g line) := ⟨held.up,held.executes,held.current⟩

theorem Held.skip (held : Held g) : Held (skip g) := ⟨held.up,held.executes,held.current⟩

theorem Numbered.push (numbered : Numbered g) : Numbered (push g line) where
  inbox entry member := by
    rcases List.mem_append.mp member with old | new
    · exact Nat.lt_succ_of_lt (numbered.inbox entry old)
    · rw [List.mem_singleton.mp new]
      exact Nat.lt_succ_self _
  current conn program busy := Nat.lt_succ_of_lt (numbered.current conn program busy)
  replies entry member := Nat.lt_succ_of_lt (numbered.replies entry member)

theorem Numbered.skip (numbered : Numbered g) : Numbered (skip g) where
  inbox entry member := Nat.lt_succ_of_lt (numbered.inbox entry member)
  current conn program busy := Nat.lt_succ_of_lt (numbered.current conn program busy)
  replies entry member := Nat.lt_succ_of_lt (numbered.replies entry member)

theorem Numbered.turn (numbered : Numbered g) (turns : g.Turns P choice g') : Numbered g' := by
  cases turns with
  | @accept conn line rest up idle waiting =>
    refine ⟨fun entry member => numbered.inbox entry (by simp [waiting,member]),?_,numbered.replies⟩
    rintro _ _ ⟨⟩
    exact numbered.inbox (conn,line) (by simp [waiting])
  | @reply conn reply busy =>
    refine ⟨numbered.inbox,by simp,?_⟩
    intro entry member
    rcases List.mem_cons.mp member with new | old
    · subst new
      exact numbered.current conn _ busy
    · exact numbered.replies entry old
  | drop busy => exact ⟨numbered.inbox,by simp,numbered.replies⟩
  | call busy ran =>
    obtain ⟨_,inbox,replies,next,_,_,_⟩ := exec_work ran
    refine ⟨?_,?_,?_⟩
    · simpa only [inbox,next] using numbered.inbox
    · rintro _ _ ⟨⟩
      simpa only [next] using numbered.current _ _ busy
    · simpa only [replies,next] using numbered.replies

theorem Awaits.turn (awaits : Awaits g conn) (turns : g.Turns P choice g') : Awaits g' conn := by
  have frozen : ∀ reply, (conn,reply) ∈ g.replies → isQuiesced reply → Frozen g' :=
    fun reply member quiesced => (awaits.answered reply member quiesced).turn turns
  cases turns with
  | @accept conn' line rest up idle waiting =>
    refine ⟨awaits.given,?_,?_,frozen⟩
    · intro before line' after split
      have same : rest = before ++ (conn,line') :: after := split
      exact awaits.waiting ((conn',line) :: before) line' after (by simp [waiting,same])
    · rintro _ ⟨⟩
      obtain ⟨quiesce,clear⟩ := awaits.waiting [] line rest (by simp [waiting])
      exact ⟨up,clear,Agent.stops_serve quiesce _⟩
  | @reply conn' reply busy =>
    refine ⟨awaits.given,awaits.waiting,by simp,?_⟩
    intro reply' member quiesced
    rcases List.mem_cons.mp member with new | old
    · cases new
      obtain ⟨up,clear,stops⟩ := awaits.current _ busy
      exact ⟨up,stops quiesced,clear,by simp⟩
    · exact frozen reply' old quiesced
  | drop busy => exact ⟨awaits.given,awaits.waiting,by simp,frozen⟩
  | call busy ran =>
    obtain ⟨up,inbox,replies,next,_,_,stopped⟩ := exec_work ran
    refine ⟨?_,?_,?_,?_⟩
    · simpa only [next] using awaits.given
    · simpa only [inbox] using awaits.waiting
    · rintro _ ⟨⟩
      obtain ⟨wasUp,clear,stops⟩ := awaits.current _ busy
      refine ⟨up.trans wasUp,inbox ▸ clear,?_⟩
      simp only [stopped stops.1]
      exact stops.2 _
    · simpa only [replies] using frozen

theorem Awaits.workload {move : Agent.WorkMove} (awaits : Awaits g conn) (moved : g.workload move = some g') :
    Awaits g' conn := by
  obtain ⟨_,up,inbox,current,replies,next,stopped⟩ := workload_same moved
  refine ⟨?_,?_,?_,?_⟩
  · simpa only [next] using awaits.given
  · simpa only [inbox] using awaits.waiting
  · simpa only [current,up,inbox,stopped] using awaits.current
  · intro reply member quiesced
    exact (awaits.answered reply (replies ▸ member) quiesced).workload moved

/-- A message other than FORKED comes behind the QUIESCE. -/
theorem Awaits.push (awaits : Awaits g conn) (other : line.hasType "FORKED" = false) : Awaits (push g line) conn where
  given := Nat.lt_succ_of_lt awaits.given
  waiting before line' after split := by
    rcases List.eq_nil_or_concat' after with nil | ⟨after',last,same⟩
    · subst nil
      -- the last message has a new number
      have ends := List.append_inj_right' split rfl
      cases ends
      exact absurd awaits.given (Nat.lt_irrefl _)
    · subst same
      rw [← List.cons_append,← List.append_assoc] at split
      obtain ⟨old,new⟩ := List.append_inj' split rfl
      obtain ⟨quiesce,clear⟩ := awaits.waiting before line' after' old
      refine ⟨quiesce,clear.append ?_⟩
      rw [← new]
      intro entry member
      rw [List.mem_singleton.mp member]
      exact other
  current program busy := by
    obtain ⟨up,clear,stops⟩ := awaits.current program busy
    refine ⟨up,clear.append ?_,stops⟩
    intro entry member
    rw [List.mem_singleton.mp member]
    exact other
  answered reply member quiesced := (awaits.answered reply member quiesced).push other

theorem Awaits.skip (awaits : Awaits g conn) : Awaits (skip g) conn where
  given := Nat.lt_succ_of_lt awaits.given
  waiting := awaits.waiting
  current := awaits.current
  answered reply member quiesced := (awaits.answered reply member quiesced).skip

/-- A QUIESCE that is sent awaits its answer. -/
theorem Numbered.awaits_push (numbered : Numbered g) (quiesce : line.hasType "QUIESCE") :
    Awaits (Klados.push g line) g.nextConn where
  given := Nat.lt_succ_self _
  waiting before line' after split := by
    rcases List.eq_nil_or_concat' after with nil | ⟨after',last,same⟩
    · subst nil
      have ends := List.append_inj_right' split rfl
      cases ends
      exact ⟨quiesce,by simp [NoFork]⟩
    · subst same
      rw [← List.cons_append,← List.append_assoc] at split
      obtain ⟨old,_⟩ := List.append_inj' split rfl
      exact absurd (numbered.inbox (g.nextConn,line') (by simp [old])) (Nat.lt_irrefl _)
  current program busy := absurd (numbered.current _ program busy) (Nat.lt_irrefl _)
  answered reply member := absurd (numbered.replies _ member) (Nat.lt_irrefl _)

theorem Numbered.awaits_skip (numbered : Numbered g) : Awaits (Klados.skip g) g.nextConn where
  given := Nat.lt_succ_self _
  waiting before line after split :=
    absurd (numbered.inbox (g.nextConn,line) (by
      have same : g.inbox = before ++ (g.nextConn,line) :: after := split
      simp [same])) (Nat.lt_irrefl _)
  current program busy := absurd (numbered.current _ program busy) (Nat.lt_irrefl _)
  answered reply member := absurd (numbered.replies _ member) (Nat.lt_irrefl _)

end

theorem Awaits.init {g : Guest} {conn : Nat} (awaits : Awaits g conn) (down : g.up = false) : Awaits g.init conn where
  given := awaits.given
  waiting := awaits.waiting
  current program busy := absurd (awaits.current program busy).1 (by simp [down])
  answered reply member quiesced := absurd (awaits.answered reply member quiesced).up (by simp [down])

/-- What is watched: the children whose generation is not bumped yet, and for each thread the
    connection on which it sent QUIESCE and the instance that answered it QUIESCED. -/
structure Gate where
  unbumped : Id → Bool
  asked : Nat → Option (Id × Nat)
  answered : Nat → Option Id

def Gate.start : Gate := ⟨fun _ => false,fun _ => none,fun _ => none⟩

def World.isPhase (w : World) (iid : Id) (phase : Phase) : Bool := (w.hyp.vm iid).any (·.phase = phase)

/-- A restore that resumes its VM makes a child; QUIESCE and its answer are noted. -/
def Gate.sees (t : Nat) : (op : Op) → Except Exn op.Res → World → World → Gate → Gate
  | .vm (.load iid _ _), _, before, after, gate =>
    if before.isPhase iid .spawned && after.isPhase iid .running then
      { gate with unbumped := Function.update gate.unbumped iid true }
    else gate
  | .vm (.connect iid line), .ok conn, _, _, gate =>
    if line.hasType "QUIESCE" then { gate with asked := Function.update gate.asked t (some (iid,conn)) } else gate
  | .vm (.receive iid conn), .ok reply, _, _, gate =>
    if gate.asked t = some (iid,conn) ∧ isQuiesced reply then
      { gate with answered := Function.update gate.answered t (some iid) }
    else gate
  | _, _, _, _, gate => gate

/-- The agent's write of the generation is the bump. -/
def Gate.moves (move : Move) (w : World) (gate : Gate) : Gate :=
  match move with
  | .agent iid choice =>
    if (w.hyp.vm iid).any (bumps ·.guest choice) then
      { gate with unbumped := Function.update gate.unbumped iid false }
    else gate
  | _ => gate

def Gate.reboots (gate : Gate) : Gate := ⟨gate.unbumped,fun _ => none,fun _ => none⟩

def gated (P : Platform) : Machine sig Exn Json Req (World × Gate) Choice Move :=
  (daemon P).watch Gate.sees Gate.moves Gate.reboots

abbrev GatedPool := Pool sig Exn Json Req (World × Gate)

/-- A snapshot is taken only after a QUIESCED of the request's own, and of a workload that has
    no descendants then. -/
def quiesced (pool : GatedPool) : Action Req Choice Move → Bool
  | .call t _ =>
    match pool.about t with
    | some (.vm (.create iid _ _)) =>
      pool.world.2.answered t = some iid && (pool.world.1.hyp.vm iid).all (·.guest.work.descendants = 0)
    | _ => true
  | _ => true

/-- Children are held until the bump, and so is what they are restored from. -/
structure Gate.Keeps (w : World) (gate : Gate) : Prop where
  unbumped : ∀ iid, gate.unbumped iid → ∃ vm, w.hyp.vm iid = some vm ∧ vm.phase ≠ .spawned ∧ Held vm.guest
  saved : ∀ p g, w.hyp.saved p = some g → Held g ∧ Numbered g
  numbered : ∀ iid vm, w.hyp.vm iid = some vm → Numbered vm.guest
  asked : ∀ t iid conn, gate.asked t = some (iid,conn) → w.Published iid ∧
    ∃ vm, w.hyp.vm iid = some vm ∧ Awaits vm.guest conn
  answered : ∀ t iid, gate.answered t = some iid → w.Published iid ∧ ∃ vm, w.hyp.vm iid = some vm ∧ Frozen vm.guest

/-! ## Calls -/

/-- What a call does to the guest of a process that was there before. -/
inductive Guest.Called (o : VmOp) (iid : Id) (g : Guest) : Guest → Prop
  | same : Guest.Called o iid g g
  | push {line : Line} : o = .connect iid line → Guest.Called o iid g (push g line)
  | skip {line : Line} : o = .connect iid line → Guest.Called o iid g (skip g)

section
variable {fs fs' : Files.Fs Path} {hyp hyp' : Hypervisor} {o : VmOp} {outcome : Except Exn o.Res} {iid : Id}

/-- A process that got past its start keeps its guest, but for what is sent to it. -/
theorem VmOp.acts_guest (acts : o.Acts fs hyp outcome fs' hyp') {vm : Vm} (there : hyp.vm iid = some vm)
    (past : vm.phase ≠ .spawned) (new : o = .spawn iid → hyp.vm iid = none) :
    ∃ vm', hyp'.vm iid = some vm' ∧ vm'.phase ≠ .spawned ∧ Guest.Called o iid vm.guest vm'.guest := by
  by_cases same : iid = o.target
  · subst same
    cases acts with
    | fails | create | torn | killNone | receive | eof => exact ⟨vm,there,past,.same⟩
    | spawn => exact absurd (there.symm.trans (new rfl)) (by simp)
    | start here spawned | load here spawned =>
      cases there.symm.trans here
      exact absurd spawned past
    | pause here | resume here | kill here =>
      cases there.symm.trans here
      exact ⟨_,Hypervisor.set_self _ _ _,by simp,.same⟩
    | connect here =>
      cases there.symm.trans here
      exact ⟨_,Hypervisor.set_self _ _ _,past,.push rfl⟩
    | lost here =>
      cases there.symm.trans here
      exact ⟨_,Hypervisor.set_self _ _ _,past,.skip rfl⟩
  · exact ⟨vm,(VmOp.acts_other acts same).trans there,past,.same⟩

theorem booting_numbered : Numbered Guest.booting :=
  ⟨by simp [Guest.booting],by simp [Guest.booting],by simp [Guest.booting]⟩

theorem Numbered.restored {g : Guest} (numbered : Numbered g) : Numbered (restored g) :=
  ⟨by simp [Klados.restored],numbered.current,by simp [Klados.restored]⟩

/-- What holds of every guest that boots or is restored, and of every guest to which something is sent, holds after
    the call of all guests. -/
theorem VmOp.acts_guests {G : Guest → Prop} (acts : o.Acts fs hyp outcome fs' hyp') (booting : G Guest.booting)
    (saved : ∀ p g, hyp.saved p = some g → G (restored g)) (pushed : ∀ g line, G g → G (push g line))
    (skipped : ∀ g, G g → G (skip g)) (before : ∀ iid vm, hyp.vm iid = some vm → G vm.guest) :
    ∀ iid vm, hyp'.vm iid = some vm → G vm.guest := by
  have set : ∀ {iid' : Id} {vm' : Vm}, G vm'.guest → ∀ iid vm, (hyp.set iid' vm').vm iid = some vm → G vm.guest := by
    intro iid' vm' holds iid vm there
    rw [Hypervisor.set_vm] at there
    split at there
    · exact Option.some.inj there ▸ holds
    · exact before iid vm there
  cases acts with
  | fails | create | torn | killNone | receive | eof => exact before
  | spawn => exact set booting
  | start => exact set booting
  | load _ _ _ _ frozen => exact set (saved _ _ frozen)
  | pause there | resume there | kill there =>
    have old := before _ _ there
    exact set old
  | connect there => exact set (pushed _ _ (before _ _ there))
  | lost there => exact set (skipped _ (before _ _ there))

theorem VmOp.acts_numbered (acts : o.Acts fs hyp outcome fs' hyp')
    (numbered : ∀ iid vm, hyp.vm iid = some vm → Numbered vm.guest)
    (saved : ∀ p g, hyp.saved p = some g → Numbered g) :
    ∀ iid vm, hyp'.vm iid = some vm → Numbered vm.guest :=
  VmOp.acts_guests acts booting_numbered (fun p g frozen => (saved p g frozen).restored) (fun _ _ => .push) (fun _ => .skip)
    numbered

end

section
variable {w v : World} {gate : Gate} {t : Nat}

theorem World.Published.later {iid : Id} (published : w.Published iid) (grows : Grows w.db.committed v.db.committed)
    (started : ∀ iid, w.hyp.Started iid → v.hyp.Started iid) : v.Published iid :=
  ⟨grows.hasInstance published.1,started iid published.2⟩

/-- A call that does not address Firecracker changes no guest. -/
theorem Gate.Keeps.quiet (keeps : gate.Keeps w) (hyp : v.hyp = w.hyp) (grows : Grows w.db.committed v.db.committed) :
    gate.Keeps v := by
  have later : ∀ iid, w.Published iid → v.Published iid :=
    fun iid published => published.later grows fun _ => hyp ▸ id
  refine ⟨?_,?_,?_,?_,?_⟩
  · rw [hyp]
    exact keeps.unbumped
  · rw [hyp]
    exact keeps.saved
  · rw [hyp]
    exact keeps.numbered
  · intro t iid conn asked
    rw [hyp]
    exact (keeps.asked t iid conn asked).imp (later iid) id
  · intro t iid answered
    rw [hyp]
    exact (keeps.answered t iid answered).imp (later iid) id

theorem gate_sees_quiet {op : Op} (other : op.isVm = false)
    (outcome : Except Exn op.Res) : Gate.sees t op outcome w v gate = gate := by
  cases op with
  | vm o => cases other
  | db | fs | s3 | mem | sys => rfl

/-- What the watched values say still holds of the guests after a permitted Firecracker call. -/
theorem Gate.Keeps.vmCall {o : VmOp} {outcome : Except Exn o.Res} {choice : Choice} (keeps : gate.Keeps w)
    (orderly : Orderly w) (permitted : Permitted t (.vm o) w) (ran : exec P t (.vm o) choice w = some (outcome,v))
    (saved : ∀ p g, v.hyp.saved p = some g → Held g ∧ Numbered g) : gate.Keeps v := by
  have grows := committed_grows orderly permitted ran
  have started : ∀ iid, w.hyp.Started iid → v.hyp.Started iid := fun _ => started_exec permitted ran
  obtain ⟨fs,hyp,acts,rfl⟩ := exec_vmActs ran
  have new : ∀ iid, o = .spawn iid → w.hyp.vm iid = none := by
    rintro iid rfl
    exact permitted.2
  -- FORKED does not go to a published instance
  have other : ∀ iid line, o = .connect iid line → w.Published iid → line.hasType "FORKED" = false := by
    rintro iid line rfl published
    by_contra forked
    exact (permitted.1 (by simpa using forked)).2 published.1
  refine ⟨?_,saved,?_,?_,?_⟩
  · intro iid unbumped
    obtain ⟨vm,there,past,held⟩ := keeps.unbumped iid unbumped
    obtain ⟨vm',there',past',called⟩ := VmOp.acts_guest acts there past (new iid)
    refine ⟨vm',there',past',?_⟩
    generalize vm'.guest = after at called ⊢
    cases called with
    | same => exact held
    | push => exact held.push
    | skip => exact held.skip
  · exact VmOp.acts_numbered acts keeps.numbered fun p g frozen => (keeps.saved p g frozen).2
  · intro t' iid conn asked
    obtain ⟨published,vm,there,awaits⟩ := keeps.asked t' iid conn asked
    obtain ⟨vm₀,there₀,past⟩ := published.2
    cases there.symm.trans there₀
    obtain ⟨vm',there',_,called⟩ := VmOp.acts_guest acts there past (new iid)
    refine ⟨published.later grows started,vm',there',?_⟩
    generalize vm'.guest = after at called ⊢
    cases called with
    | same => exact awaits
    | push sent => exact awaits.push (other iid _ sent published)
    | skip => exact awaits.skip
  · intro t' iid answered
    obtain ⟨published,vm,there,frozen⟩ := keeps.answered t' iid answered
    obtain ⟨vm₀,there₀,past⟩ := published.2
    cases there.symm.trans there₀
    obtain ⟨vm',there',_,called⟩ := VmOp.acts_guest acts there past (new iid)
    refine ⟨published.later grows started,vm',there',?_⟩
    generalize vm'.guest = after at called ⊢
    cases called with
    | same => exact frozen
    | push sent => exact frozen.push (other iid _ sent published)
    | skip => exact frozen.skip

theorem acts_saved {o : VmOp} {fs fs' : Files.Fs Path} {hyp hyp' : Hypervisor} {outcome : Except Exn o.Res}
    (acts : o.Acts fs hyp outcome fs' hyp') :
    hyp'.saved = hyp.saved ∨ ∃ iid snap mem vm, o = .create iid snap mem ∧ hyp.vm iid = some vm ∧
      hyp'.saved = Function.update hyp.saved snap (some vm.guest) := by
  cases acts with
  | create there => exact .inr ⟨_,_,_,_,rfl,there,rfl⟩
  | fails | spawn | start | load | pause | resume | torn | kill | killNone | connect | lost | receive | eof =>
    exact .inl rfl

/-- A permitted call keeps children held, if what is captured is frozen and alone. -/
theorem Gate.Keeps.call {op : Op} {outcome : Except Exn op.Res} {choice : Choice} (keeps : gate.Keeps w)
    (orderly : Orderly w) (permitted : Permitted t op w) (ran : exec P t op choice w = some (outcome,v))
    (quiesced : ∀ iid snap mem, op = .vm (.create iid snap mem) → gate.answered t = some iid ∧
      ∀ vm, w.hyp.vm iid = some vm → vm.guest.work.descendants = 0) :
    (Gate.sees t op outcome w v gate).Keeps v := by
  cases op with
  | db | fs | s3 | sys | mem =>
    rw [gate_sees_quiet rfl]
    exact keeps.quiet (exec_hyp rfl ran) (committed_grows orderly permitted ran)
  | vm o =>
    have saved : ∀ p g, v.hyp.saved p = some g → Held g ∧ Numbered g := by
      obtain ⟨fs,hyp,acts,rfl⟩ := exec_vmActs ran
      rcases acts_saved acts with same | ⟨iid,snap,mem,vm,rfl,there,same⟩
      · intro p g frozen
        exact keeps.saved p g (same ▸ frozen)
      · intro p g frozen
        obtain ⟨answered,alone⟩ := quiesced iid snap mem rfl
        obtain ⟨_,vm',there',held⟩ := keeps.answered t iid answered
        cases there.symm.trans there'
        simp only [same,Function.update_apply] at frozen
        split at frozen
        · cases frozen
          exact ⟨held.held (alone vm there),keeps.numbered iid vm there⟩
        · exact keeps.saved p g frozen
    have kept := keeps.vmCall orderly permitted ran saved
    have grows := committed_grows orderly permitted ran
    have started : ∀ iid, w.hyp.Started iid → v.hyp.Started iid := fun _ => started_exec permitted ran
    obtain ⟨fs,hyp,acts,rfl⟩ := exec_vmActs ran
    cases o with
    | load iid snap mem =>
      simp only [Gate.sees]
      split
      · rename_i resumed
        refine ⟨?_,kept.saved,kept.numbered,kept.asked,kept.answered⟩
        intro iid' unbumped
        by_cases same : iid' = iid
        · subst same
          cases acts with
          | fails =>
            -- the VM did not change, so it was not resumed
            cases there : w.hyp.vm iid' with
            | none => simp [World.isPhase,there] at resumed
            | some vm =>
              simp only [World.isPhase,there,Option.any_some,Bool.and_eq_true,decide_eq_true_eq] at resumed
              exact absurd (resumed.1.symm.trans resumed.2) (by simp)
          | load _ _ _ _ frozen =>
            exact ⟨_,Hypervisor.set_self _ _ _,by simp,(keeps.saved _ _ frozen).1.restored⟩
        · simp only [Function.update_of_ne same] at unbumped
          exact kept.unbumped iid' unbumped
      · exact kept
    | connect iid line =>
      cases outcome with
      | error error => exact kept
      | ok conn =>
        simp only [Gate.sees]
        split
        · rename_i quiesce
          refine ⟨kept.unbumped,kept.saved,kept.numbered,?_,kept.answered⟩
          intro t' iid' conn' asked
          by_cases same : t' = t
          · subst same
            simp only [Function.update_self,Option.some.injEq,Prod.mk.injEq] at asked
            obtain ⟨rfl,rfl⟩ := asked
            have published := permitted.2 quiesce
            refine ⟨published.later grows started,?_⟩
            cases acts with
            | connect there => exact ⟨_,Hypervisor.set_self _ _ _,(keeps.numbered _ _ there).awaits_push quiesce⟩
            | lost there => exact ⟨_,Hypervisor.set_self _ _ _,(keeps.numbered _ _ there).awaits_skip⟩
          · simp only [Function.update_of_ne same] at asked
            exact kept.asked t' iid' conn' asked
        · exact kept
    | receive iid conn =>
      cases outcome with
      | error error => exact kept
      | ok reply =>
        simp only [Gate.sees]
        split
        · rename_i answer
          refine ⟨kept.unbumped,kept.saved,kept.numbered,kept.asked,?_⟩
          intro t' iid' answered
          by_cases same : t' = t
          · subst same
            simp only [Function.update_self,Option.some.injEq] at answered
            subst answered
            obtain ⟨published,vm,there,awaits⟩ := keeps.asked t' iid conn answer.1
            refine ⟨published.later grows started,?_⟩
            cases acts with
            | receive here found =>
              cases there.symm.trans here
              exact ⟨vm,there,awaits.answered reply (List.mem_of_find?_eq_some found) answer.2⟩
            | eof => simp [isQuiesced,Json.get?] at answer
          · simp only [Function.update_of_ne same] at answered
            exact kept.answered t' iid' answered
        · exact kept
    | spawn | start | pause | create | resume | kill => exact kept

end

section
variable {w v : World} {gate : Gate} {move : Move}

theorem Numbered.workload {g g' : Guest} {move : Agent.WorkMove} (numbered : Numbered g)
    (moved : g.workload move = some g') : Numbered g' := by
  obtain ⟨_,_,inbox,current,replies,next,_⟩ := workload_same moved
  refine ⟨?_,?_,?_⟩
  · simpa only [inbox,next] using numbered.inbox
  · simpa only [current,next] using numbered.current
  · simpa only [replies,next] using numbered.replies

theorem Numbered.moves {iid : Id} {vm vm' : Vm} (numbered : Numbered vm.guest) (moves : Vm.Moves P iid move vm vm') :
    Numbered vm'.guest := by
  cases moves with
  | memory | dies => exact numbered
  | up => exact ⟨numbered.inbox,numbered.current,numbered.replies⟩
  | agent _ turned => exact numbered.turn (Guest.turns_of_turn turned)
  | workload _ worked => exact numbered.workload worked

theorem Awaits.moves {iid : Id} {vm vm' : Vm} {conn : Nat} (awaits : Awaits vm.guest conn)
    (moves : Vm.Moves P iid move vm vm') : Awaits vm'.guest conn := by
  cases moves with
  | memory | dies => exact awaits
  | up _ down => exact awaits.init down
  | agent _ turned => exact awaits.turn (Guest.turns_of_turn turned)
  | workload _ worked => exact awaits.workload worked

theorem Frozen.moves {iid : Id} {vm vm' : Vm} (frozen : Frozen vm.guest) (moves : Vm.Moves P iid move vm vm') :
    Frozen vm'.guest := by
  cases moves with
  | memory | dies => exact frozen
  | up _ down => exact absurd frozen.up (by simp [down])
  | agent _ turned => exact frozen.turn (Guest.turns_of_turn turned)
  | workload _ worked => exact frozen.workload worked

theorem gate_moves_unbumped {iid : Id} (unbumped : (Gate.moves move w gate).unbumped iid) :
    gate.unbumped iid ∧ ∀ choice, move = .agent iid choice → (w.hyp.vm iid).any (bumps ·.guest choice) = false := by
  cases move with
  | agent iid' choice =>
    simp only [Gate.moves] at unbumped
    split at unbumped
    · by_cases same : iid = iid'
      · simp [same] at unbumped
      · simp only [Function.update_of_ne same] at unbumped
        refine ⟨unbumped,?_⟩
        rintro choice' ⟨⟩
        exact absurd rfl same
    · rename_i still
      refine ⟨unbumped,?_⟩
      rintro choice' ⟨⟩
      simpa using still
  | guestMemory | guestDisk | agentUp | workload | vmDies | delete => exact ⟨unbumped,by simp⟩

/-- Whatever the guests do, children stay held until the bump. -/
theorem Gate.Keeps.moved (keeps : gate.Keeps w) (moved : w.Moved P move v) : (Gate.moves move w gate).Keeps v := by
  have later : ∀ iid, w.Published iid → v.Published iid :=
    fun iid published => published.later (moved.db ▸ Grows.refl _) fun _ => moved.started
  have same : (Gate.moves move w gate).asked = gate.asked ∧ (Gate.moves move w gate).answered = gate.answered := by
    cases move with
    | agent => simp only [Gate.moves]; split <;> simp
    | guestMemory | guestDisk | agentUp | workload | vmDies | delete => simp [Gate.moves]
  refine ⟨?_,?_,?_,?_,?_⟩
  · intro iid unbumped
    obtain ⟨before,noBump⟩ := gate_moves_unbumped unbumped
    obtain ⟨vm,there,past,held⟩ := keeps.unbumped iid before
    have started := moved.started ⟨vm,there,past⟩
    rcases moved.vm iid with ⟨unchanged,_⟩ | ⟨vm₀,vm',here,there',moves⟩
    · exact ⟨vm,unchanged.trans there,past,held⟩
    · cases there.symm.trans here
      obtain ⟨vm₁,there₁,past₁⟩ := started
      cases there'.symm.trans there₁
      refine ⟨vm',there',past₁,?_⟩
      cases moves with
      | memory | dies => exact held
      | up _ down => exact absurd held.up (by simp [down])
      | @agent _ choice guest _ turned =>
        exact held.turn (Guest.turns_of_turn turned) (by simpa [there] using noBump choice rfl)
      | workload _ worked =>
        exact absurd (workload_same worked).1 (by simp [held.executes])
  · rw [moved.saved]
    exact keeps.saved
  · intro iid vm' there'
    rcases moved.vm iid with ⟨unchanged,_⟩ | ⟨vm,vm₁,there,there₁,moves⟩
    · exact keeps.numbered iid vm' (unchanged.symm.trans there')
    · cases there'.symm.trans there₁
      exact (keeps.numbered iid vm there).moves moves
  · intro t iid conn asked
    obtain ⟨published,vm,there,awaits⟩ := keeps.asked t iid conn (same.1 ▸ asked)
    rcases moved.vm iid with ⟨unchanged,_⟩ | ⟨vm₀,vm',here,there',moves⟩
    · exact ⟨later iid published,vm,unchanged.trans there,awaits⟩
    · cases there.symm.trans here
      exact ⟨later iid published,vm',there',awaits.moves moves⟩
  · intro t iid answered
    obtain ⟨published,vm,there,frozen⟩ := keeps.answered t iid (same.2 ▸ answered)
    rcases moved.vm iid with ⟨unchanged,_⟩ | ⟨vm₀,vm',here,there',moves⟩
    · exact ⟨later iid published,vm,unchanged.trans there,frozen⟩
    · cases there.symm.trans here
      exact ⟨later iid published,vm',there',frozen.moves moves⟩

theorem Gate.Keeps.reboot (keeps : gate.Keeps w) : gate.reboots.Keeps w.reboot :=
  ⟨keeps.unbumped,keeps.saved,keeps.numbered,by rintro _ _ _ ⟨⟩,by rintro _ _ ⟨⟩⟩

theorem gate_start (fresh : w.Fresh) : Gate.start.Keeps w where
  unbumped _ unbumped := by cases unbumped
  saved p g frozen := by simp [fresh.saved] at frozen
  numbered iid vm there := by simp [fresh.processes] at there
  asked := by rintro _ _ _ ⟨⟩
  answered := by rintro _ _ ⟨⟩

/-- When every snapshot is taken after a QUIESCED of its own and of a workload without
    descendants, no step of a child's workload comes before the bump in that child, and every
    captured guest is one whose workload cannot execute. -/
theorem workload_gated (P : Platform) (fresh : w.Fresh) {pool : GatedPool}
    (reached : (gated P).Reach (fun pool action => quiesced pool action) ⟨(w,Gate.start),[]⟩ pool) :
    (∀ iid step later, (gated P).act pool (.env (.workload iid step)) = some later → pool.world.2.unbumped iid = false) ∧
      ∀ p g, pool.world.1.hyp.saved p = some g → g.executes = false := by
  have kept : pool.world.2.Keeps pool.world.1 := by
    refine protocol_sound.watched (J := fun w gate => gate.Keeps w) ?_ ?_ (fun _ _ _ keeps => keeps.reboot)
      (fresh.watched Gate.start) (gate_start fresh) reached
    · intro pool t choice op outcome v allowed about orderly guaranteed ran keeps
      refine keeps.call orderly guaranteed.1 ran ?_
      rintro iid snap mem rfl
      simp only [quiesced,about,Bool.and_eq_true,decide_eq_true_eq] at allowed
      refine ⟨allowed.1,fun vm there => ?_⟩
      simpa [there] using allowed.2
    · intro pool move v _ _ moved keeps
      exact keeps.moved (World.moved_of_move moved)
  refine ⟨?_,fun p g frozen => (kept.saved p g frozen).1.executes⟩
  intro iid step later acted
  by_contra unbumped
  obtain ⟨vm,there,_,held⟩ := kept.unbumped iid (by simpa using unbumped)
  obtain ⟨watched,moved,_⟩ := Option.map_eq_some_iff.mp acted
  obtain ⟨v,moved',_⟩ := Option.map_eq_some_iff.mp moved
  simp only [daemon,World.move,World.guestStep,there] at moved'
  split at moved'
  · obtain ⟨vm',made,_⟩ := Option.map_eq_some_iff.mp moved'
    obtain ⟨guest,worked,_⟩ := Option.map_eq_some_iff.mp made
    exact absurd (workload_same worked).1 (by simp [held.executes])
  · cases moved'

end

/-- The QUIESCE reaches the agent, which answers it. -/
def answerQuiesce (iid : Id) : List (Action Req Choice Move) :=
  [.ok,.ok,.ok,.pid 7,.ok].map fun choice => .env (.agent iid choice)

/-- A snapshot after a QUIESCED, and a fork of it up to the restore of the child. -/
def quiescedFork : List (Action Req Choice Move) :=
  .request (.create_run "p" .null) :: calls 0 (createRun "r" "i" [7] [8]) ++ .env (.agentUp "i") ::
    .request (.snapshot_instance "i" .null) :: calls 1 [.ok,.ok,.id "s",.ok,.ok,.ok] ++ answerQuiesce "i" ++
    calls 1 ([.ok,.ok,.ok,.ok,.ok,.ok,.ok,.ok] ++ recordSnapshot) ++
    .request (.fork_snapshot "s" 1) :: calls 2 (forkOne "c")

theorem workload_gated_quiescedFork : ∃ pool : GatedPool,
    (gated .plain).run quiesced quiescedFork ⟨(World.initial defaultProject false,Gate.start),[]⟩ = some pool ∧
      pool.world.2.unbumped "c" = true ∧
      ∀ step later, (gated .plain).act pool (.env (.workload "c" step)) = some later → False := by
  have seen : ((gated .plain).run quiesced quiescedFork ⟨(World.initial defaultProject false,Gate.start),[]⟩).map
      (fun pool => pool.world.2.unbumped "c") = some true := by decide +kernel
  obtain ⟨pool,ran,unbumped⟩ := Option.map_eq_some_iff.mp seen
  have reached := Machine.reach_of_run (gated .plain) (fun (pool : GatedPool) action (passes : quiesced pool action) => passes) ran
  have safe := workload_gated .plain (World.initial_fresh defaultProject false) reached
  refine ⟨pool,ran,unbumped,fun step later acted => ?_⟩
  have bumped := safe.1 "c" step later acted
  rw [unbumped] at bumped
  cases bumped

/-- The same with a QUIESCE that gets lost: the snapshot is taken and forked all the same. -/
def lostFork : List (Action Req Choice Move) :=
  .request (.create_run "p" .null) :: calls 0 (createRun "r" "i" [7] [8]) ++ .env (.agentUp "i") ::
    .request (.snapshot_instance "i" .null) :: calls 1 (takeSnapshot "s" ++ recordSnapshot) ++
    .request (.fork_snapshot "s" 1) :: calls 2 (forkOne "c")

/-- The workload of the child executes before its generation is bumped. -/
theorem workload_not_gated : ∃ pool later : GatedPool,
    (gated .plain).Reach (fun _ _ => True) ⟨(World.initial defaultProject false,Gate.start),[]⟩ pool ∧
      (gated .plain).act pool (.env (.workload "c" .run)) = some later ∧ pool.world.2.unbumped "c" = true ∧
      pool.world.1.db.committed.snapshots.map (·.id) = ["s"] := by
  have seen : ((gated .plain).run (fun _ _ => true) lostFork ⟨(World.initial defaultProject false,Gate.start),[]⟩).map
      (fun pool => (((gated .plain).act pool (.env (.workload "c" .run))).isSome,pool.world.2.unbumped "c",
        pool.world.1.db.committed.snapshots.map (·.id))) = some (true,true,["s"]) := by decide +kernel
  obtain ⟨pool,ran,same⟩ := Option.map_eq_some_iff.mp seen
  simp only [Prod.mk.injEq] at same
  obtain ⟨later,acted⟩ := Option.isSome_iff_exists.mp same.1
  exact ⟨pool,later,Machine.reach_of_run _ (fun _ _ _ => trivial) ran,acted,same.2⟩

end Klados
