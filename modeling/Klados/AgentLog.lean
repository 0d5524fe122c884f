import Klados.Gate

/-!
What the agent's READY means. A child is followed from its restore on: which FORKED messages its
agent takes up, and which of the calls that FORKED makes take effect, in which order (`AgentLog`). When
the clock is not refused and the generation is read, the handler of FORKED answers READY only after
the branch file, the clock, the new generation and the release of the workload (`leads_serve`); and
`Told` says how far the one FORKED of a child has come, whatever is lost or delayed on its way.
-/
namespace Klados
open Effects
open Agent (Guest Line)

variable {P : Platform}

/-- The branch of the child `i` of `n`. -/
def branchOf (i : Nat) (n : Int) : String := "branch " ++ toString i ++ " of " ++ toString n

/-- A branch does not read like an error. -/
theorem branchOf_ne (i : Nat) (n : Int) (text : String) : branchOf i n ≠ "ERR:" ++ text := by
  intro same
  have letters := congrArg String.toList same
  simp [branchOf] at letters

/-- The FORKED message to that child. -/
def forkedMessage (i : Nat) (n : Int) (now : Time) : Json :=
  .obj [("type",.str "FORKED"),("index",.int i),("n",.int n),("true_time",.real now),("branch_context",.str (branchOf i n))]

/-- What its `branch.json` is to hold. -/
def branchFile (i : Nat) (n : Int) : Json := .obj [("index",.int i),("n",.int n),("context",.str (branchOf i n))]

/-- `r.get("status") == "READY"`. -/
def isReady (reply : Json) : Bool := reply.isDict && (Agent.field reply "status").isStr "READY"

/-- The calls of FORKED that settle a child: its branch, its clock, its generation, its workload. -/
def Agent.Op.settles : Agent.Op → Bool
  | .writeBranch _ | .setRealtime _ | .writeGen _ | .sigcont => true
  | _ => false

/-- The guest as it was restored, the FORKED messages whose handling began since then, and the
    settling calls that took effect, in order. -/
structure AgentLog where
  base : Guest
  heard : List Line
  took : List Agent.Op

/-- A turn of the agent adds the FORKED that it takes up, or the settling call that takes effect. -/
def AgentLog.turn (g : Guest) (choice : Agent.Choice) (log : AgentLog) : AgentLog :=
  match g.current with
  | none =>
    match g.inbox with
    | (_,line) :: _ => if line.hasType "FORKED" then { log with heard := log.heard ++ [line] } else log
    | [] => log
  | some (_,.call op _) =>
    match choice with
    | .ok => if op.settles then { log with took := log.took ++ [op] } else log
    | _ => log
  | some _ => log

/-- The calls take effect, one after the other. -/
def Agent.Guest.replays (g : Guest) (took : List Agent.Op) : Guest := took.foldl Guest.after g

@[simp] theorem replays_append (g : Guest) (took : List Agent.Op) (op : Agent.Op) :
    g.replays (took ++ [op]) = (g.replays took).after op := by
  simp [Guest.replays]

/-- The settling calls in the order in which FORKED makes them. -/
def settling (i : Nat) (n : Int) (now : Time) (gen : Nat) : List Agent.Op :=
  [.writeBranch (branchFile i n),.setRealtime now,.writeGen (gen + 1),.sigcont]

/-- How a call turns out when the clock is not refused, and the generation is read or is 0. -/
def Agent.Op.Fits (gen : Nat) : (op : Agent.Op) → Except Exn op.Res → Prop
  | .setRealtime _,.ok done => done = true
  | .readGen,.ok value => value = gen
  | .readGen,.error _ => gen = 0
  | _,_ => True

/-- What a call adds to the settling calls. -/
def Agent.Op.adds (op : Agent.Op) (outcome : Except Exn op.Res) (took : List Agent.Op) : List Agent.Op :=
  match outcome with
  | .ok _ => if op.settles then took ++ [op] else took
  | .error _ => took

/-- From a child restored as `base` in which the calls `took` took effect, the program returns with
    `post` or raises with `E` of the calls that took effect then. -/
def Leads {α : Type} (base : Guest) (post : α → List Agent.Op → Prop) (E : List Agent.Op → Prop) :
    Agent.AProg α → List Agent.Op → Prop
  | .ret value,took => post value took
  | .raise _,took => E took
  | .call op next,took => ∀ outcome : Except Exn op.Res, op.Fits (base.replays took).forkgen outcome →
      Leads base post E (next outcome) (op.adds outcome took)

section
variable {α β : Type} {base : Guest} {took : List Agent.Op} {E : List Agent.Op → Prop}

theorem Leads.ret {post : α → List Agent.Op → Prop} {value : α} (holds : post value took) :
    Leads base post E (pure value) took := holds

theorem Leads.weaken {program : Agent.AProg α} {post post' : α → List Agent.Op → Prop} (leads : Leads base post E program took)
    (weaker : ∀ value took, post value took → post' value took) : Leads base post' E program took := by
  induction program generalizing took with
  | ret value => exact weaker value took leads
  | raise error => exact leads
  | call op next ih => exact fun outcome fits => ih outcome (leads outcome fits)

theorem Leads.bind {program : Agent.AProg α} {rest : α → Agent.AProg β} {M : α → List Agent.Op → Prop}
    {post : β → List Agent.Op → Prop} (first : Leads base M E program took)
    (onward : ∀ value took, M value took → Leads base post E (rest value) took) :
    Leads base post E (program >>= rest) took := by
  induction program generalizing took with
  | ret value => exact onward value took first
  | raise error => exact first
  | call op next ih => exact fun outcome fits => ih outcome (first outcome fits)

theorem Leads.catching {program : Agent.AProg α} {handler : Exn → Agent.AProg α} {post : α → List Agent.Op → Prop}
    {E' : List Agent.Op → Prop} (first : Leads base post E program took)
    (handled : ∀ error took, E took → Leads base post E' (handler error) took) :
    Leads base post E' (tryCatch program handler) took := by
  induction program generalizing took with
  | ret value => exact first
  | raise error => exact handled error took first
  | call op next ih => exact fun outcome fits => ih outcome (first outcome fits)

/-- One call. -/
theorem Leads.perform {op : Agent.Op} {post : op.Res → List Agent.Op → Prop}
    (returns : ∀ value, op.Fits (base.replays took).forkgen (.ok value) → post value (op.adds (.ok value) took))
    (raises : E took) : Leads base post E (Agent.perform op) took := by
  intro outcome fits
  cases outcome with
  | ok value => exact returns value fits
  | error error => exact raises

/-- A program of which nothing is asked. -/
theorem Leads.any {post : α → List Agent.Op → Prop} (returns : ∀ value took, post value took) (raises : ∀ took, E took)
    (program : Agent.AProg α) : Leads base post E program took := by
  induction program generalizing took with
  | ret value => exact returns value took
  | raise error => exact raises took
  | call op next ih => exact fun outcome _ => ih outcome

end

section
variable {base : Guest} {took : List Agent.Op} (i : Nat) (n : Int) (now : Time)

theorem leads_write_branch : Leads base (fun _ after => after = took ++ [.writeBranch (branchFile i n)]) (fun _ => True)
    (Agent.write_branch (forkedMessage i n now) (.str (branchOf i n))) took := by
  refine Leads.bind (M := fun _ after => after = took ++ [.writeBranch (branchFile i n)]) ?_ ?_
  · exact Leads.perform (fun _ _ => rfl) trivial
  · rintro _ _ rfl
    -- what fails on the data disk is swallowed
    refine Leads.catching (E := fun after => after = took ++ [.writeBranch (branchFile i n)]) ?_ fun _ _ same => Leads.ret same
    exact Leads.perform (fun _ _ => rfl) rfl

theorem leads_set_clock : Leads base (fun _ after => after = took ++ [.setRealtime now]) (fun _ => True)
    (Agent.set_clock P (forkedMessage i n now)) took := by
  refine Leads.bind (M := fun done after => done = true ∧ after = took ++ [.setRealtime now]) ?_ ?_
  · exact Leads.perform (fun _ fits => ⟨fits,rfl⟩) trivial
  · rintro _ _ ⟨rfl,rfl⟩
    exact Leads.bind (Leads.perform (fun _ _ => rfl) trivial) fun _ _ same => Leads.ret (Eq.symm same)

theorem leads_bump_gen : Leads base (fun _ after => after = took ++ [.writeGen ((base.replays took).forkgen + 1)])
    (fun _ => True) Agent.bump_gen took := by
  refine Leads.bind (M := fun cur after => cur = (base.replays took).forkgen ∧ after = took) ?_ ?_
  · intro outcome fits
    cases outcome with
    | ok value => exact ⟨fits,rfl⟩
    | error error => exact ⟨Eq.symm fits,rfl⟩
  · rintro _ _ ⟨rfl,rfl⟩
    exact Leads.bind (Leads.perform (fun _ _ => rfl) trivial) fun _ _ same => Leads.ret (Eq.symm same)

/-- FORKED returns only after its settling calls took effect. -/
theorem leads_forked : Leads base (fun _ after => after = settling i n now base.forkgen) (fun _ => True)
    (Agent.forked P (forkedMessage i n now)) [] := by
  refine Leads.bind (leads_write_branch i n now) ?_
  rintro _ _ rfl
  refine Leads.bind (leads_set_clock i n now) ?_
  rintro _ _ rfl
  refine Leads.bind leads_bump_gen ?_
  rintro gen _ rfl
  refine Leads.bind (M := fun _ after => after = settling i n now base.forkgen) ?_ ?_
  · exact Leads.perform (fun _ _ => rfl) trivial
  · rintro _ _ rfl
    exact Leads.bind (Leads.perform (fun _ _ => rfl) trivial) fun _ _ same => Leads.ret (Eq.symm same)

end

/-- What READY says when it answers this message. -/
def Settled (line : Line) (gen : Nat) (took : List Agent.Op) : Prop :=
  ∀ i n now, line = .json (forkedMessage i n now) → took = settling i n now gen

theorem handle_forked (i : Nat) (n : Int) (now : Time) :
    Agent.handle P (forkedMessage i n now) = Agent.forked P (forkedMessage i n now) := by
  simp [Agent.handle,forkedMessage,Json.isDict,Agent.field,Json.get?,Json.isStr]

theorem not_ready_error (error : Exn) : isReady (Agent.errReply error) = false := by
  simp [isReady,Agent.errReply,Agent.field,Json.get?,Json.isStr]

/-- The agent answers a FORKED with READY only after its settling calls took effect. -/
theorem leads_serve (base : Guest) (line : Line) :
    Leads base (fun reply took => isReady reply → Settled line base.forkgen took) (fun _ => True) (Agent.serve P line) [] := by
  by_cases ours : ∃ i n now, line = .json (forkedMessage i n now)
  · obtain ⟨i,n,now,rfl⟩ := ours
    refine Leads.catching (E := fun _ => True) ?_ fun error took _ => Leads.ret ?_
    · dsimp only
      rw [handle_forked]
      refine (leads_forked i n now).weaken ?_
      rintro _ _ rfl _ i' n' now' same
      simp only [forkedMessage,Line.json.injEq,Json.obj.injEq,List.cons.injEq,Prod.mk.injEq,Json.int.injEq,Json.real.injEq,
        true_and] at same
      obtain ⟨index,count,time,_⟩ := same
      rw [Int.ofNat.inj index,count,time]
    · exact fun ready => absurd ready (by simp [not_ready_error])
  · exact Leads.any (fun _ _ _ i n now same => absurd ⟨i,n,now,same⟩ ours) (fun _ => trivial) _

/-- The guest has what the settling calls of its log left. -/
structure Tells (log : AgentLog) (g : Guest) : Prop where
  forkgen : g.forkgen = (log.base.replays log.took).forkgen
  branch : g.branch = (log.base.replays log.took).branch
  clock : g.clock = (log.base.replays log.took).clock

/-- What the agent has yet to do settles nothing. -/
def Unsettling (g : Guest) : Prop :=
  ∀ conn program, g.current = some (conn,program) → program.Only fun op : Agent.Op => op.settles = false

/-- The connection was given out and is no longer, or never was, anywhere in the guest. -/
structure Away (conn : Nat) (g : Guest) : Prop where
  given : conn < g.nextConn
  inbox : ∀ entry ∈ g.inbox, entry.1 ≠ conn
  current : ∀ program, g.current ≠ some (conn,program)
  replies : ∀ reply, (conn,reply) ∉ g.replies

/-- The FORKED of a child was not sent or was lost, or waits, is handled, or was handled; `sent` is
    the message with its connection, and `ready` says whether its READY was received. -/
inductive Told (log : AgentLog) (g : Guest) : Option (Line × Nat) → Bool → Prop
  | untold {sent : Option (Line × Nat)} : log.heard = [] → log.took = [] → NoFork g.inbox → Unsettling g →
      (∀ line conn, sent = some (line,conn) → Away conn g) → Told log g sent false
  | waits {line : Line} {conn : Nat} {before after : List (Nat × Line)} : log.heard = [] → log.took = [] →
      Unsettling g → line.hasType "FORKED" → g.inbox = before ++ (conn,line) :: after → NoFork (before ++ after) →
      Away conn { g with inbox := before ++ after } → Told log g (some (line,conn)) false
  | handled {line : Line} {conn : Nat} {program : Agent.AProg Json} : log.heard = [line] → NoFork g.inbox →
      g.current = some (conn,program) →
      Leads log.base (fun reply took => isReady reply → Settled line log.base.forkgen took) (fun _ => True) program
        log.took →
      Away conn { g with current := none } → Told log g (some (line,conn)) false
  | told {line : Line} {conn : Nat} {ready : Bool} : log.heard = [line] → NoFork g.inbox → Unsettling g →
      Away conn { g with replies := [] } →
      (∀ reply, (conn,reply) ∈ g.replies → isReady reply → Settled line log.base.forkgen log.took) →
      (ready → Settled line log.base.forkgen log.took) → Told log g (some (line,conn)) ready

/-- The call goes as FORKED takes for granted: the clock is not refused, and the generation is read
    unless it is 0. -/
def Agent.Op.goes (gen : Nat) : Agent.Op → Agent.Choice → Bool
  | .setRealtime _,.refused => false
  | .readGen,.fail _ => gen = 0
  | _,_ => true

section
variable {g g' : Guest} {choice : Agent.Choice} {op : Agent.Op} {outcome : Except Exn op.Res} {log : AgentLog}

theorem exec_fits (ran : Agent.exec g op choice = some (outcome,g')) (goes : op.goes g.forkgen choice = true) :
    op.Fits g.forkgen outcome := by
  cases op <;> cases choice <;> cases ran <;> simp_all [Agent.Op.Fits,Agent.Op.goes]

/-- What a call of the agent adds to its log. -/
theorem AgentLog.turn_call {conn : Nat} {next : Except Exn op.Res → Agent.AProg Json}
    (busy : g.current = some (conn,.call op next)) (ran : Agent.exec g op choice = some (outcome,g'))
    (goes : op.goes g.forkgen choice = true) : log.turn g choice = { log with took := op.adds outcome log.took } := by
  unfold AgentLog.turn
  rw [busy]
  cases op <;> cases choice <;> cases ran <;> simp_all [Agent.Op.adds,Agent.Op.settles,Agent.Op.goes]

theorem Tells.call {conn : Nat} {next : Except Exn op.Res → Agent.AProg Json} (tells : Tells log g)
    (busy : g.current = some (conn,.call op next)) (ran : Agent.exec g op choice = some (outcome,g'))
    (goes : op.goes g.forkgen choice = true) : Tells (log.turn g choice) g' := by
  rw [AgentLog.turn_call busy ran goes]
  obtain ⟨forkgen,branch,clock⟩ := tells
  cases op <;> cases choice <;> cases ran <;>
    constructor <;> simp_all [Agent.Op.adds,Agent.Op.settles,Agent.Op.goes,Guest.after]

theorem AgentLog.turn_idle {conn : Nat} {line : Line} {rest : List (Nat × Line)} (idle : g.current = none)
    (waiting : g.inbox = (conn,line) :: rest) :
    log.turn g choice = if line.hasType "FORKED" then { log with heard := log.heard ++ [line] } else log := by
  simp [AgentLog.turn,idle,waiting]

theorem AgentLog.turn_ends {conn : Nat} {program : Agent.AProg Json} (busy : g.current = some (conn,program))
    (ends : ∀ op next, program ≠ .call op next) : log.turn g choice = log := by
  cases program with
  | ret | raise => simp [AgentLog.turn,busy]
  | call op next => exact absurd rfl (ends op next)

/-- A turn that settles nothing leaves the log as it is. -/
theorem AgentLog.turn_unsettling {conn : Nat} {next : Except Exn op.Res → Agent.AProg Json}
    (busy : g.current = some (conn,.call op next)) (other : op.settles = false) : log.turn g choice = log := by
  unfold AgentLog.turn
  rw [busy]
  cases choice <;> simp [other]

theorem unsettling_serve {line : Line} {conn : Nat} {rest : List (Nat × Line)} (other : line.hasType "FORKED" = false) :
    Unsettling { g with inbox := rest, current := some (conn,Agent.serve P line) } := by
  rintro _ _ ⟨⟩
  refine Prog.Only.mono ?_ (Agent.tame_serve other)
  intro op calm
  cases op <;> first | rfl | cases calm

/-! ## One turn -/

section
variable {conn conn' : Nat}

theorem Away.accept {line : Line} {rest : List (Nat × Line)} {program : Agent.AProg Json} (away : Away conn g)
    (waiting : g.inbox = (conn',line) :: rest) : Away conn { g with inbox := rest, current := some (conn',program) } where
  given := away.given
  inbox entry member := away.inbox entry (by simp [waiting,member])
  current := by
    rintro _ ⟨⟩
    exact away.inbox (conn,line) (by simp [waiting]) rfl
  replies := away.replies

theorem Away.reply {program : Agent.AProg Json} {reply : Json} (away : Away conn g) (busy : g.current = some (conn',program)) :
    Away conn { g with current := none, replies := (conn',reply) :: g.replies } where
  given := away.given
  inbox := away.inbox
  current := by simp
  replies reply' member := by
    rcases List.mem_cons.mp member with new | old
    · cases new
      exact away.current program busy
    · exact away.replies reply' old

theorem Away.idle (away : Away conn g) : Away conn { g with current := none } :=
  ⟨away.given,away.inbox,by simp,away.replies⟩

theorem Away.call {program program' : Agent.AProg Json} (away : Away conn g) (busy : g.current = some (conn',program))
    (ran : Agent.exec g op choice = some (outcome,g')) : Away conn { g' with current := some (conn',program') } := by
  obtain ⟨_,inbox,replies,next,_,_,_⟩ := exec_work ran
  refine ⟨?_,?_,?_,?_⟩
  · simpa only [next] using away.given
  · simpa only [inbox] using away.inbox
  · rintro _ ⟨⟩
    exact away.current program busy
  · simpa only [replies] using away.replies

/-- Before its FORKED was sent, and when it was lost. -/
theorem Told.turn_untold {sent : Option (Line × Nat)} (heard : log.heard = []) (took : log.took = [])
    (clear : NoFork g.inbox) (calm : Unsettling g) (away : ∀ line conn, sent = some (line,conn) → Away conn g)
    (turns : g.Turns P choice g') : Told (log.turn g choice) g' sent false := by
  cases turns with
  | @accept conn' line rest up idle waiting =>
    have other : line.hasType "FORKED" = false := clear (conn',line) (by simp [waiting])
    rw [AgentLog.turn_idle idle waiting,if_neg (by simp [other])]
    exact .untold heard took (fun entry member => clear entry (by simp [waiting,member])) (unsettling_serve other)
      fun line conn same => (away line conn same).accept waiting
  | reply busy =>
    rw [AgentLog.turn_ends busy (by simp)]
    exact .untold heard took clear (by simp [Unsettling]) fun line conn same => (away line conn same).reply busy
  | drop busy =>
    rw [AgentLog.turn_ends busy (by simp)]
    exact .untold heard took clear (by simp [Unsettling]) fun line conn same => (away line conn same).idle
  | call busy ran =>
    have settles := calm _ _ busy
    rw [AgentLog.turn_unsettling busy settles.1]
    obtain ⟨_,inbox,_,_,_,_,_⟩ := exec_work ran
    refine .untold heard took (inbox ▸ clear) ?_ fun line conn same => (away line conn same).call busy ran
    rintro _ _ ⟨⟩
    exact settles.2 _

/-- While its FORKED waits, behind other messages or at the front. -/
theorem Told.turn_waits {line : Line} {conn : Nat} {before after : List (Nat × Line)} (heard : log.heard = [])
    (took : log.took = []) (calm : Unsettling g) (forked : line.hasType "FORKED")
    (waiting : g.inbox = before ++ (conn,line) :: after) (clear : NoFork (before ++ after))
    (away : Away conn { g with inbox := before ++ after }) (turns : g.Turns P choice g') :
    Told (log.turn g choice) g' (some (line,conn)) false := by
  cases turns with
  | @accept conn' line' rest up idle first =>
    rw [AgentLog.turn_idle idle first]
    cases before with
    | nil =>
      obtain ⟨⟨⟩,rfl⟩ := List.cons.inj (first.symm.trans waiting)
      rw [if_pos forked]
      refine .handled (by simp [heard]) clear rfl ?_ ⟨away.given,away.inbox,by simp,away.replies⟩
      rw [took]
      exact leads_serve log.base line
    | cons entry before =>
      obtain ⟨rfl,rfl⟩ := List.cons.inj (first.symm.trans waiting)
      have other : line'.hasType "FORKED" = false := clear (conn',line') (by simp)
      rw [if_neg (by simp [other])]
      refine .waits heard took (unsettling_serve other) forked rfl (fun entry member => clear entry (by simp_all)) ?_
      exact away.accept rfl
  | reply busy =>
    rw [AgentLog.turn_ends busy (by simp)]
    exact .waits heard took (by simp [Unsettling]) forked waiting clear (away.reply busy)
  | drop busy =>
    rw [AgentLog.turn_ends busy (by simp)]
    exact .waits heard took (by simp [Unsettling]) forked waiting clear away.idle
  | @call conn' op next outcome after busy ran =>
    have settles := calm _ _ busy
    rw [AgentLog.turn_unsettling busy settles.1]
    obtain ⟨_,inbox,replies,next,_,_,_⟩ := exec_work ran
    refine .waits heard took ?_ forked (inbox.trans waiting) clear ⟨?_,away.inbox,?_,?_⟩
    · rintro _ _ ⟨⟩
      exact settles.2 _
    · simpa only [next] using away.given
    · rintro _ ⟨⟩
      exact away.current _ busy
    · simpa only [replies] using away.replies

/-- While its FORKED is handled. -/
theorem Told.turn_handled {line : Line} {conn : Nat} {program : Agent.AProg Json} (heard : log.heard = [line])
    (clear : NoFork g.inbox) (busy : g.current = some (conn,program))
    (leads : Leads log.base (fun reply took => isReady reply → Settled line log.base.forkgen took) (fun _ => True) program
      log.took)
    (away : Away conn { g with current := none }) (tells : Tells log g) (turns : g.Turns P choice g')
    (goes : ∀ conn op next, g.current = some (conn,.call op next) → op.goes g.forkgen choice = true) :
    Told (log.turn g choice) g' (some (line,conn)) false := by
  cases turns with
  | accept _ idle => exact absurd (idle.symm.trans busy) (by simp)
  | @reply conn' reply answers =>
    obtain ⟨rfl,rfl⟩ := Prod.mk.inj (Option.some.inj (busy.symm.trans answers))
    rw [AgentLog.turn_ends answers (by simp)]
    refine .told heard clear (by simp [Unsettling]) ⟨away.given,away.inbox,by simp,by simp⟩ ?_ (by simp)
    intro reply' member ready
    rcases List.mem_cons.mp member with new | old
    · cases new
      exact leads ready
    · exact absurd old (away.replies reply')
  | drop drops =>
    rw [AgentLog.turn_ends drops (by simp)]
    refine .told heard clear (by simp [Unsettling]) ⟨away.given,away.inbox,by simp,by simp⟩ ?_ (by simp)
    exact fun reply member => absurd member (away.replies reply)
  | @call conn' op next outcome after calls ran =>
    obtain ⟨rfl,rfl⟩ := Prod.mk.inj (Option.some.inj (busy.symm.trans calls))
    have fits := goes _ _ _ calls
    rw [AgentLog.turn_call calls ran fits]
    obtain ⟨_,inbox,replies,given,_,_,_⟩ := exec_work ran
    refine .handled heard (inbox ▸ clear) rfl (leads outcome ?_) ⟨?_,?_,by simp,?_⟩
    · rw [← tells.forkgen]
      exact exec_fits ran fits
    · simpa only [given] using away.given
    · simpa only [inbox] using away.inbox
    · simpa only [replies] using away.replies

/-- After its FORKED was handled. -/
theorem Told.turn_told {line : Line} {conn : Nat} {ready : Bool} (heard : log.heard = [line]) (clear : NoFork g.inbox)
    (calm : Unsettling g) (away : Away conn { g with replies := [] })
    (answered : ∀ reply, (conn,reply) ∈ g.replies → isReady reply → Settled line log.base.forkgen log.took)
    (received : ready → Settled line log.base.forkgen log.took) (turns : g.Turns P choice g') :
    Told (log.turn g choice) g' (some (line,conn)) ready := by
  cases turns with
  | @accept conn' line' rest up idle waiting =>
    have other : line'.hasType "FORKED" = false := clear (conn',line') (by simp [waiting])
    rw [AgentLog.turn_idle idle waiting,if_neg (by simp [other])]
    exact .told heard (fun entry member => clear entry (by simp [waiting,member])) (unsettling_serve other)
      (away.accept waiting) answered received
  | @reply conn' reply busy =>
    rw [AgentLog.turn_ends busy (by simp)]
    refine .told heard clear (by simp [Unsettling]) ⟨away.given,away.inbox,by simp,by simp⟩ ?_ received
    intro reply' member ready
    rcases List.mem_cons.mp member with new | old
    · cases new
      exact absurd busy (away.current _)
    · exact answered reply' old ready
  | drop busy =>
    rw [AgentLog.turn_ends busy (by simp)]
    exact .told heard clear (by simp [Unsettling]) away.idle answered received
  | @call conn' op next outcome after busy ran =>
    have settles := calm _ _ busy
    rw [AgentLog.turn_unsettling busy settles.1]
    obtain ⟨_,inbox,replies,given,_,_,_⟩ := exec_work ran
    refine .told heard (inbox ▸ clear) ?_ ⟨?_,?_,?_,by simp⟩ ?_ received
    · rintro _ _ ⟨⟩
      exact settles.2 _
    · simpa only [given] using away.given
    · simpa only [inbox] using away.inbox
    · rintro _ ⟨⟩
      exact away.current _ busy
    · simpa only [replies] using answered

/-- A turn of the agent takes the FORKED a step further. -/
theorem Told.turn {sent : Option (Line × Nat)} {ready : Bool} (told : Told log g sent ready) (tells : Tells log g)
    (turns : g.Turns P choice g')
    (goes : ∀ conn op next, g.current = some (conn,.call op next) → op.goes g.forkgen choice = true) :
    Told (log.turn g choice) g' sent ready := by
  cases told with
  | untold heard took clear calm away => exact .turn_untold heard took clear calm away turns
  | waits heard took calm forked waiting clear away => exact .turn_waits heard took calm forked waiting clear away turns
  | handled heard clear busy leads away => exact .turn_handled heard clear busy leads away tells turns goes
  | told heard clear calm away answered received => exact .turn_told heard clear calm away answered received turns

theorem Tells.turn (tells : Tells log g) (turns : g.Turns P choice g')
    (goes : ∀ conn op next, g.current = some (conn,.call op next) → op.goes g.forkgen choice = true) :
    Tells (log.turn g choice) g' := by
  cases turns with
  | accept up idle waiting =>
    rw [AgentLog.turn_idle idle waiting]
    split <;> exact ⟨tells.forkgen,tells.branch,tells.clock⟩
  | reply busy | drop busy =>
    rw [AgentLog.turn_ends busy (by simp)]
    exact ⟨tells.forkgen,tells.branch,tells.clock⟩
  | call busy ran =>
    obtain ⟨forkgen,branch,clock⟩ := tells.call busy ran (goes _ _ _ busy)
    exact ⟨forkgen,branch,clock⟩

end

theorem Away.push {conn : Nat} {line : Line} (away : Away conn g) : Away conn (push g line) where
  given := Nat.lt_succ_of_lt away.given
  inbox entry member := by
    rcases List.mem_append.mp member with old | new
    · exact away.inbox entry old
    · rw [List.mem_singleton.mp new]
      exact Nat.ne_of_gt away.given
  current := away.current
  replies := away.replies

theorem Away.skip {conn : Nat} (away : Away conn g) : Away conn (skip g) :=
  ⟨Nat.lt_succ_of_lt away.given,away.inbox,away.current,away.replies⟩

/-- A connection that has just been given out is nowhere yet. -/
theorem Numbered.away {more : Nat} (numbered : Numbered g) (later : g.nextConn < more) :
    Away g.nextConn { g with nextConn := more } where
  given := later
  inbox entry member := Nat.ne_of_lt (numbered.inbox entry member)
  current program busy := absurd (numbered.current _ program busy) (Nat.lt_irrefl _)
  replies _ member := absurd (numbered.replies _ member) (Nat.lt_irrefl _)

/-- A message other than FORKED comes behind all others. -/
theorem Told.push {sent : Option (Line × Nat)} {ready : Bool} {line : Line} (told : Told log g sent ready)
    (other : line.hasType "FORKED" = false) : Told log (push g line) sent ready := by
  have behind : NoFork [(g.nextConn,line)] := by
    intro entry member
    rw [List.mem_singleton.mp member]
    exact other
  cases told with
  | untold heard took clear calm away =>
    exact .untold heard took (clear.append behind) calm fun line conn same => (away line conn same).push
  | @waits line' conn before after heard took calm forked waiting clear away =>
    have queued : (Klados.push g line).inbox = before ++ (conn,line') :: (after ++ [(g.nextConn,line)]) := by
      simp [Klados.push,waiting]
    refine .waits heard took calm forked queued ?_ ?_
    · rw [← List.append_assoc]
      exact clear.append behind
    · rw [← List.append_assoc]
      exact away.push
  | handled heard clear busy leads away => exact .handled heard (clear.append behind) busy leads away.push
  | told heard clear calm away answered received => exact .told heard (clear.append behind) calm away.push answered received

theorem Told.skip {sent : Option (Line × Nat)} {ready : Bool} (told : Told log g sent ready) :
    Told log (skip g) sent ready := by
  cases told with
  | untold heard took clear calm away => exact .untold heard took clear calm fun line conn same => (away line conn same).skip
  | waits heard took calm forked waiting clear away => exact .waits heard took calm forked waiting clear away.skip
  | handled heard clear busy leads away => exact .handled heard clear busy leads away.skip
  | told heard clear calm away answered received => exact .told heard clear calm away.skip answered received

/-- The one FORKED is sent. -/
theorem Told.send {ready : Bool} {line : Line} (told : Told log g none ready) (forked : line.hasType "FORKED")
    (numbered : Numbered g) : Told log (Klados.push g line) (some (line,g.nextConn)) ready := by
  cases told with
  | untold heard took clear calm =>
    have queued : (Klados.push g line).inbox = g.inbox ++ (g.nextConn,line) :: [] := rfl
    refine .waits heard took calm forked queued (by simpa using clear) ?_
    have away := numbered.away (Nat.lt_succ_self _)
    rw [List.append_nil]
    exact ⟨away.given,away.inbox,away.current,away.replies⟩

/-- The one FORKED is lost. -/
theorem Told.lose {ready : Bool} {line : Line} (told : Told log g none ready) (numbered : Numbered g) :
    Told log (Klados.skip g) (some (line,g.nextConn)) ready := by
  cases told with
  | untold heard took clear calm =>
    refine .untold heard took clear calm ?_
    rintro _ _ ⟨⟩
    exact numbered.away (Nat.lt_succ_self _)

/-- A READY that is received was sent after the settling calls. -/
theorem Told.answered {ready : Bool} {line : Line} {conn : Nat} {reply : Json} (told : Told log g (some (line,conn)) ready)
    (member : (conn,reply) ∈ g.replies) (answers : isReady reply) : Told log g (some (line,conn)) true := by
  cases told with
  | untold _ _ _ _ away => exact absurd member ((away line conn rfl).replies reply)
  | waits _ _ _ _ _ _ away => exact absurd member (away.replies reply)
  | handled _ _ _ _ away => exact absurd member (away.replies reply)
  | told heard clear calm away answered received =>
    exact .told heard clear calm away answered fun _ => answered reply member answers

/-- What is told speaks of the queue, the current connection and the replies only. -/
theorem Told.same {sent : Option (Line × Nat)} {ready : Bool} (told : Told log g sent ready) (inbox : g'.inbox = g.inbox)
    (current : g'.current = g.current) (replies : g'.replies = g.replies) (next : g'.nextConn = g.nextConn) :
    Told log g' sent ready := by
  obtain ⟨up,forkgen,branch,dataBranch,clock,work,entries,program,answers,given⟩ := g'
  dsimp only at inbox current replies next
  subst inbox current replies next
  cases told with
  | untold heard took clear calm away =>
    refine .untold heard took clear calm fun line conn same => ?_
    obtain ⟨given,entries,program,answers⟩ := away line conn same
    exact ⟨given,entries,program,answers⟩
  | waits heard took calm forked waiting clear away =>
    exact .waits heard took calm forked waiting clear ⟨away.given,away.inbox,away.current,away.replies⟩
  | handled heard clear busy leads away =>
    exact .handled heard clear busy leads ⟨away.given,away.inbox,away.current,away.replies⟩
  | told heard clear calm away answered received =>
    exact .told heard clear calm ⟨away.given,away.inbox,away.current,away.replies⟩ answered received

theorem Tells.same (tells : Tells log g) (forkgen : g'.forkgen = g.forkgen) (branch : g'.branch = g.branch)
    (clock : g'.clock = g.clock) : Tells log g' :=
  ⟨forkgen.trans tells.forkgen,branch.trans tells.branch,clock.trans tells.clock⟩

/-- Until the agent is up, the generation is 0 and nothing is handled. -/
def Grounded (g : Guest) : Prop := g.up = false → g.forkgen = 0 ∧ g.current = none

theorem booting_grounded : Grounded Guest.booting := fun _ => ⟨rfl,rfl⟩

theorem Grounded.turn (grounded : Grounded g) (turns : g.Turns P choice g') : Grounded g' := by
  have awake : ∀ conn program, g.current = some (conn,program) → g.up = true := by
    intro conn program busy
    by_contra down
    exact absurd ((grounded (by simpa using down)).2.symm.trans busy) (by simp)
  cases turns with
  | accept up => exact fun down => absurd (up.symm.trans down) (by simp)
  | reply busy | drop busy => exact fun down => absurd ((awake _ _ busy).symm.trans down) (by simp)
  | call busy ran =>
    have up := (exec_work ran).1
    exact fun down => absurd ((awake _ _ busy).symm.trans (up.symm.trans down)) (by simp)

theorem Grounded.init (g : Guest) : Grounded g.init := fun down => absurd down (by simp [Guest.init])

/-- A step of the workload changes the workload only. -/
theorem workload_frame {move : Agent.WorkMove} (moved : g.workload move = some g') : g' = { g with work := g'.work } := by
  unfold Guest.workload at moved
  split at moved
  · cases move with
    | run | fork | exitDescendant =>
      cases moved
      rfl
    | exitMain =>
      dsimp only at moved
      split at moved <;> cases moved
      rfl
  · cases moved

/-- A restored child in which nothing happened yet. -/
theorem told_restored (calm : Unsettling g) : Told ⟨restored g,[],[]⟩ (restored g) none false ∧
    Tells ⟨restored g,[],[]⟩ (restored g) :=
  ⟨.untold rfl rfl (by simp [NoFork,restored]) calm (by simp),rfl,rfl,rfl⟩

end

end Klados
