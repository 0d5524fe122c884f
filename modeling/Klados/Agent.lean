import Klados.Basics
import Klados.Effects

/-!
The guest agent (`guest/guest_agent.py`) and the part of a guest it governs: the fork
generation in `/run/klados/forkgen`, the branch file, the guest clock, and the workload
process, which SIGSTOP and SIGCONT stop and continue. The agent answers one connection at a
time; what it has still to do for the current one is part of the guest's state, since a
snapshot may freeze it there.
-/
namespace Klados.Agent
open Klados.Effects

/-- What the agent does besides computing. -/
inductive Op
  | writeBranch (value : Json)
  | writeDataBranch (context : Json)
  | setRealtime (epoch : Rat)
  | time
  | readGen
  | writeGen (gen : Nat)
  | sigstop
  | sync
  | sigcont
  | print
  | workPid
  | inspect (msg : Json)

abbrev Op.Res : Op → Type
  | .setRealtime _ => Bool
  | .time => Rat
  | .readGen => Nat
  | .workPid => Nat
  | .inspect _ => Json
  | _ => Unit

abbrev sig : Sig := ⟨Op,Op.Res⟩

abbrev AProg := Prog sig Exn

def perform (op : Op) : AProg op.Res := Prog.perform (S := sig) op

/-- `float(value)`. An integer that would be rounded to 2 ^ 1024 or more is too large. -/
def float (P : Platform) : Json → Except Exn Rat
  | .int value =>
    if value.natAbs < Nat.pow 2 1024 - Nat.pow 2 970 then .ok value
    else .error (.OverflowError "int too large to convert to float")
  | .real value => .ok value
  | .bool value => .ok (if value then 1 else 0)
  | .str text =>
    match P.parseFloat text with
    | some value => .ok value
    | none => .error (.ValueError "could not convert string to float")
  | _ => .error (.TypeError "float() argument must be a string or a real number")

/-- `_bump_gen`: a generation that cannot be read counts as 0. -/
def bump_gen : AProg Nat := do
  let cur ← tryCatch (perform .readGen) fun _ => pure 0
  perform (.writeGen (cur + 1))
  pure (cur + 1)

/-- `msg.get(key)`, or None. -/
def field (msg : Json) (key : String) : Json := (msg.get? key).getD .null

/-- The part of FORKED that sets the clock: what `clock_set` is afterwards. -/
def set_clock (P : Platform) (msg : Json) : AProg Json :=
  match msg.get? "true_time" with
  | none => pure .null
  | some true_time => do
    let epoch ← Prog.ofOutcome (float P true_time)
    let done ← perform (.setRealtime epoch)
    if done then do
      let now ← perform .time
      pure (.real now)
    else pure .null

/-- The part of FORKED that writes the branch files. -/
def write_branch (msg ctx : Json) : AProg Unit := do
  perform (.writeBranch (.obj [("index",field msg "index"),("n",field msg "n"),("context",ctx)]))
  tryCatch (perform (.writeDataBranch ctx)) fun _ => pure ()

/-- The FORKED branch of `Agent.handle`. -/
def forked (P : Platform) (msg : Json) : AProg Json := do
  let idx := field msg "index"
  let ctx := field msg "branch_context"
  Prog.when (!ctx.isNull) (write_branch msg ctx)
  let clock_set ← set_clock P msg
  let gen ← bump_gen -- bump generation FIRST ...
  perform .sigcont   -- ... then release the workload
  perform .print
  pure (.obj [("status",.str "READY"),("index",idx),("gen",.int gen),("clock",clock_set)])

/-- `Agent.handle`. The two inspections (CHECK, BROWSER_CHECK) only read. -/
def handle (P : Platform) (msg : Json) : AProg Json :=
  if !msg.isDict then Prog.raise (.AttributeError "object has no attribute 'get'")
  else
    let t := field msg "type"
    if t.isStr "PING" then pure (.obj [("status",.str "PONG")])
    else if t.isStr "CHECK" then perform (.inspect msg)
    else if t.isStr "QUIESCE" then do
      perform .sigstop
      perform .sync
      let pid ← perform .workPid
      pure (.obj [("status",.str "QUIESCED"),("pid",.int pid)])
    else if t.isStr "BROWSER_CHECK" then perform (.inspect msg)
    else if t.isStr "FORKED" then forked P msg
    else pure (.obj [("status",.str "ERR"),("msg",.str ("unknown type " ++ P.pyRepr t))])

/-- What arrives on one connection, cut at its first newline. -/
inductive Line
  | empty
  | malformed (error : Exn)
  | json (msg : Json)

/-- The line is a message of this type. -/
def Line.hasType (line : Line) (type : String) : Bool :=
  match line with
  | .json msg => msg.isDict && (field msg "type").isStr type
  | _ => false

def errReply (e : Exn) : Json := .obj [("status",.str "ERR"),("msg",.str e.str)]

/-- One turn of the loop of `main`: every exception becomes a reply. -/
def serve (P : Platform) (line : Line) : AProg Json :=
  tryCatch (match line with
    | .empty => pure (.obj [("status",.str "ERR")])
    | .malformed e => Prog.raise e
    | .json msg => handle P msg) fun e => pure (errReply e)

/-- The workload: the process the agent spawned and the processes descended from it. Only the
    first gets the agent's signals. -/
structure Workload where
  alive : Bool
  stopped : Bool
  descendants : Nat
  deriving DecidableEq

structure Guest where
  up : Bool
  forkgen : Nat
  branch : Option Json
  dataBranch : Option Json
  clock : Option Rat
  work : Workload
  inbox : List (Nat × Line)
  current : Option (Nat × AProg Json)
  replies : List (Nat × Json)
  nextConn : Nat

/-- A guest whose kernel has started and whose agent has not. -/
def Guest.booting : Guest := ⟨false,0,none,none,none,⟨false,false,0⟩,[],none,[],0⟩

/-- `Agent.__init__` and `listen`: the generation is 0 and the workload starts. -/
def Guest.init (g : Guest) : Guest :=
  { g with up := true, forkgen := 0, work := ⟨true,false,0⟩ }

/-- Whether some process of the workload can execute an instruction. -/
def Guest.executes (g : Guest) : Bool :=
  (g.work.alive && !g.work.stopped) || 0 < g.work.descendants

/-- How a call of the agent turns out. -/
inductive Choice
  | ok
  | fail (error : Exn)
  | refused            -- `clock_settime` returns an error code
  | time (now : Rat)
  | pid (value : Nat)
  | answer (value : Json)

/-- One call of the agent. A write that fails leaves the old file: `_write_atomic` writes
    beside it and renames. -/
def exec (g : Guest) : (op : Op) → Choice → Option (Except Exn op.Res × Guest)
  | .sigstop, .ok => some (.ok (),{ g with work := { g.work with stopped := true } })
  | .sigcont, .ok => some (.ok (),{ g with work := { g.work with stopped := false } })
  | .writeBranch value, .ok => some (.ok (),{ g with branch := some value })
  | .writeDataBranch value, .ok => some (.ok (),{ g with dataBranch := some value })
  | .setRealtime epoch, .ok => some (.ok true,{ g with clock := some epoch })
  | .setRealtime _, .refused => some (.ok false,g)
  | .time, .time now => some (.ok now,g)
  | .readGen, .ok => some (.ok g.forkgen,g)
  | .writeGen gen, .ok => some (.ok (),{ g with forkgen := gen })
  | .sync, .ok => some (.ok (),g)
  | .print, .ok => some (.ok (),g)
  | .workPid, .pid value => some (.ok value,g)
  | .inspect _, .answer value => some (.ok value,g)
  -- The signals and the pid cannot fail.
  | .sigstop, .fail _ | .sigcont, .fail _ | .workPid, .fail _ => none
  | _, .fail error => some (.error error,g)
  | _, _ => none

/-- A step of the agent: it accepts the next connection, makes one call for the current one,
    or answers it. -/
def Guest.turn (P : Platform) (g : Guest) (choice : Choice) : Option Guest :=
  match g.current with
  | none =>
    match g.inbox with
    | [] => none
    | (conn,line) :: rest => if g.up then some { g with inbox := rest, current := some (conn,serve P line) } else none
  | some (conn,.ret reply) => some { g with current := none, replies := (conn,reply) :: g.replies }
  | some (_,.raise _) => some { g with current := none }
  | some (conn,.call op next) =>
    (exec g op choice).map fun (outcome,g') => { g' with current := some (conn,next outcome) }

/-- What a call that takes effect changes. -/
def Guest.after (g : Guest) : Op → Guest
  | .sigstop => { g with work := { g.work with stopped := true } }
  | .sigcont => { g with work := { g.work with stopped := false } }
  | .writeBranch value => { g with branch := some value }
  | .writeDataBranch value => { g with dataBranch := some value }
  | .setRealtime epoch => { g with clock := some epoch }
  | .writeGen gen => { g with forkgen := gen }
  | _ => g

/-- A call takes effect and returns, or changes nothing; the signals always take effect. -/
theorem exec_cases {g g' : Guest} {op : Op} {choice : Choice} {outcome : Except Exn op.Res}
    (ran : exec g op choice = some (outcome,g')) :
    (g' = g.after op ∧ ∃ value, outcome = .ok value) ∨
      (g' = g ∧ op ≠ .sigstop ∧ op ≠ .sigcont ∧ ((∃ error, outcome = .error error) ∨ ∃ epoch, op = .setRealtime epoch)) := by
  cases op <;> cases choice <;> cases ran <;> simp [Guest.after]

/-- The ways in which a turn of the agent goes. -/
inductive Guest.Turns (P : Platform) (g : Guest) (choice : Choice) : Guest → Prop
  | accept {conn : Nat} {line : Line} {rest : List (Nat × Line)} : g.up = true → g.current = none →
      g.inbox = (conn,line) :: rest → g.Turns P choice { g with inbox := rest, current := some (conn,serve P line) }
  | reply {conn : Nat} {reply : Json} : g.current = some (conn,.ret reply) →
      g.Turns P choice { g with current := none, replies := (conn,reply) :: g.replies }
  | drop {conn : Nat} {error : Exn} : g.current = some (conn,.raise error) → g.Turns P choice { g with current := none }
  | call {conn : Nat} {op : Op} {next : Except Exn op.Res → AProg Json}
      {outcome : Except Exn op.Res} {after : Guest} : g.current = some (conn,.call op next) →
      exec g op choice = some (outcome,after) → g.Turns P choice { after with current := some (conn,next outcome) }

theorem Guest.turns_of_turn {P : Platform} {g g' : Guest} {choice : Choice} (turned : g.turn P choice = some g') :
    g.Turns P choice g' := by
  unfold Guest.turn at turned
  split at turned
  · rename_i idle
    split at turned
    · cases turned
    · rename_i conn line rest waiting
      split at turned
      · rename_i up
        cases turned
        exact .accept up idle waiting
      · cases turned
  · rename_i conn reply busy
    cases turned
    exact .reply busy
  · rename_i conn error busy
    cases turned
    exact .drop busy
  · rename_i conn op next busy
    obtain ⟨⟨outcome,after⟩,ran,same⟩ := Option.map_eq_some_iff.mp turned
    subst same
    exact .call busy ran

/-- A step of the workload: a process runs, starts another one, or exits. -/
inductive WorkMove
  | run
  | fork
  | exitMain
  | exitDescendant

def Guest.workload (g : Guest) (move : WorkMove) : Option Guest :=
  if g.executes then
    match move with
    | .run => some g
    | .fork => some { g with work := { g.work with descendants := g.work.descendants + 1 } }
    | .exitMain =>
      if g.work.alive && !g.work.stopped then some { g with work := { g.work with alive := false } } else none
    | .exitDescendant => some { g with work := { g.work with descendants := g.work.descendants - 1 } }
  else none

end Klados.Agent
