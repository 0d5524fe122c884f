import Klados.Agent

/-!
What the handlers of the guest agent do to the workload, in which order: only FORKED
continues the workload, and never before it has bumped the generation; a QUIESCE that is
answered QUIESCED has stopped it. Both are stated of what remains of a handler, because a
snapshot may freeze the agent in the middle of one.
-/
namespace Klados.Agent
open Klados.Effects
open Prog (Only)

def Op.isSigstop : Op → Bool
  | .sigstop => true
  | _ => false

def Op.isSigcont : Op → Bool
  | .sigcont => true
  | _ => false

def Op.isBump : Op → Bool
  | .writeGen _ => true
  | _ => false

/-- The calls of FORKED that touch what the agent governs. -/
def Op.isFork : Op → Bool
  | .writeBranch _ | .writeGen _ | .sigcont => true
  | _ => false

/-- The calls of the other handlers. -/
def Op.isTame : Op → Bool
  | .sigstop | .sync | .workPid | .inspect _ => true
  | _ => false

/-- The program leaves the branch and the generation as they are and does not continue the
    workload. -/
abbrev Spares {α : Type} (program : AProg α) : Prop := program.Only fun op : Op => op.isFork = false

/-- The program makes no call of FORKED's. -/
abbrev Tame {α : Type} (program : AProg α) : Prop := program.Only fun op : Op => op.isTame = true

/-- The program does not continue the workload. -/
abbrev Holds {α : Type} (program : AProg α) : Prop := program.Only fun op : Op => op.isSigcont = false

/-- The program bumps the generation before it continues the workload. -/
def BumpsFirst {α : Type} : AProg α → Prop
  | .ret _ => True
  | .raise _ => True
  | .call op next => Op.isSigcont op = false ∧
      ∀ outcome, (Op.isBump op = true → ∃ error, outcome = .error error) → BumpsFirst (next outcome)

/-- `reply["status"] == "QUIESCED"`. -/
def isQuiesced (reply : Json) : Bool := (reply.get? "status").any (·.isStr "QUIESCED")

/-- The program never continues the workload, and has stopped it when it replies QUIESCED. -/
def Stops : AProg Json → Bool → Prop
  | .ret reply, stopped => isQuiesced reply → stopped
  | .raise _, _ => True
  | .call op next, stopped =>
      Op.isSigcont op = false ∧ ∀ outcome, Stops (next outcome) (stopped || Op.isSigstop op)

variable {α β : Type} {P : Platform}

theorem Tame.spares {program : AProg α} (tame : Tame program) : Spares program := by
  refine Only.mono ?_ tame
  intro op listed
  cases op <;> first | rfl | cases listed

theorem Spares.holds {program : AProg α} (spares : Spares program) : Holds program := by
  refine Only.mono ?_ spares
  intro op other
  cases op <;> first | rfl | cases other

theorem Holds.bumpsFirst {program : AProg α} (holds : Holds program) : BumpsFirst program := by
  induction program with
  | ret value => trivial
  | raise error => trivial
  | call op next ih => exact ⟨holds.1,fun outcome _ => ih outcome (holds.2 outcome)⟩

theorem BumpsFirst.bind {program : AProg α} {rest : α → AProg β} (first : Holds program)
    (onward : ∀ value, BumpsFirst (rest value)) : BumpsFirst (program >>= rest) := by
  induction program with
  | ret value => exact onward value
  | raise error => trivial
  | call op next ih => exact ⟨first.1,fun outcome _ => ih outcome (first.2 outcome)⟩

theorem BumpsFirst.catching {program : AProg α} {handler : Exn → AProg α} (first : BumpsFirst program)
    (handled : ∀ error, BumpsFirst (handler error)) : BumpsFirst (tryCatch program handler) := by
  induction program with
  | ret value => trivial
  | raise error => exact handled error
  | call op next ih => exact ⟨first.1,fun outcome failed => ih outcome (first.2 outcome failed)⟩

theorem Stops.catching {program : AProg Json} {handler : Exn → AProg Json} {stopped : Bool}
    (first : Stops program stopped) (handled : ∀ error stopped, Stops (handler error) stopped) :
    Stops (tryCatch program handler) stopped := by
  induction program generalizing stopped with
  | ret value => exact first
  | raise error => exact handled error stopped
  | call op next ih => exact ⟨first.1,fun outcome => ih outcome (first.2 outcome)⟩

theorem holds_perform {op : Op} (other : op.isSigcont = false) : Holds (perform op) := Only.perform other

theorem holds_write_branch (msg ctx : Json) : Holds (write_branch msg ctx) :=
  Only.bind (holds_perform rfl) fun _ => Only.catching (holds_perform rfl) fun _ => trivial

theorem holds_set_clock (msg : Json) : Holds (set_clock P msg) := by
  unfold set_clock
  split
  · trivial
  · refine Only.bind (Only.ofOutcome _) fun epoch => Only.bind (holds_perform rfl) fun done => ?_
    split
    · exact Only.bind (holds_perform rfl) fun _ => trivial
    · trivial

/-- Whatever follows the bump. -/
theorem bumpsFirst_bump_gen (rest : Nat → AProg α) : BumpsFirst (bump_gen >>= rest) := by
  refine ⟨rfl,fun outcome _ => ?_⟩
  have wrote : ∀ cur : Nat, BumpsFirst ((perform (.writeGen (cur + 1)) >>= fun _ => pure (cur + 1)) >>= rest) := by
    intro cur
    refine ⟨rfl,fun outcome failed => ?_⟩
    obtain ⟨error,same⟩ := failed rfl
    subst same
    trivial
  cases outcome with
  | ok cur => exact wrote cur
  | error error => exact wrote 0

theorem bumpsFirst_forked (msg : Json) : BumpsFirst (forked P msg) :=
  BumpsFirst.bind (Only.when (holds_write_branch _ _)) fun _ =>
    BumpsFirst.bind (holds_set_clock msg) fun _ => bumpsFirst_bump_gen _

theorem isStr_eq {text : String} {value : Json} (same : value.isStr text) : value = .str text := by
  cases value <;> simp_all [Json.isStr]

theorem tame_perform {op : Op} (tame : op.isTame = true) : Tame (perform op) := Only.perform tame

/-- A handler of any message but FORKED leaves the workload as it is, or stops it. -/
theorem tame_handle {msg : Json} (other : (Line.json msg).hasType "FORKED" = false) : Tame (handle P msg) := by
  unfold handle
  split
  · trivial
  rename_i dict
  dsimp only
  split
  · trivial
  split
  · exact tame_perform rfl
  split
  · exact Only.bind (tame_perform rfl) fun _ => Only.bind (tame_perform rfl) fun _ =>
      Only.bind (tame_perform rfl) fun _ => trivial
  split
  · exact tame_perform rfl
  split
  · rename_i forked
    simp only [Line.hasType,forked,Bool.and_true] at other
    simp [other] at dict
  · trivial

theorem bumpsFirst_handle (msg : Json) : BumpsFirst (handle P msg) := by
  unfold handle
  split
  · trivial
  dsimp only
  split
  · trivial
  split
  · exact (holds_perform rfl).bumpsFirst
  split
  · exact Holds.bumpsFirst (Only.bind (holds_perform rfl) fun _ => Only.bind (holds_perform rfl) fun _ =>
      Only.bind (holds_perform rfl) fun _ => trivial)
  split
  · exact (holds_perform rfl).bumpsFirst
  split
  · exact bumpsFirst_forked msg
  · trivial

theorem tame_serve {line : Line} (other : line.hasType "FORKED" = false) : Tame (serve P line) := by
  refine Only.catching ?_ fun _ => trivial
  cases line with
  | empty => trivial
  | malformed error => trivial
  | json msg => exact tame_handle other

theorem spares_serve {line : Line} (other : line.hasType "FORKED" = false) : Spares (serve P line) :=
  (tame_serve other).spares

theorem holds_serve {line : Line} (other : line.hasType "FORKED" = false) : Holds (serve P line) :=
  (spares_serve other).holds

theorem bumpsFirst_serve (line : Line) : BumpsFirst (serve P line) := by
  refine BumpsFirst.catching ?_ fun _ => trivial
  cases line with
  | empty => trivial
  | malformed error => trivial
  | json msg => exact bumpsFirst_handle msg

/-- A QUIESCE that is answered QUIESCED has stopped the workload. -/
theorem stops_serve {line : Line} (quiesce : line.hasType "QUIESCE") (stopped : Bool) : Stops (serve P line) stopped := by
  refine Stops.catching ?_ fun error stopped => ?_
  · cases line with
    | empty => cases quiesce
    | malformed error => cases quiesce
    | json msg =>
      simp only [Line.hasType,Bool.and_eq_true] at quiesce
      obtain ⟨dict,type⟩ := quiesce
      have asked := isStr_eq type
      simp only [handle,dict,asked,Json.isStr]
      refine ⟨rfl,fun outcome => ?_⟩
      cases outcome with
      | error error => trivial
      | ok value =>
        refine ⟨rfl,fun outcome => ?_⟩
        cases outcome with
        | error error => trivial
        | ok value =>
          refine ⟨rfl,fun outcome => ?_⟩
          cases outcome with
          | error error => trivial
          | ok pid => exact fun _ => by simp [Op.isSigstop]
  · exact fun answered => by simp [isQuiesced,errReply,Json.get?,Json.isStr] at answered

end Klados.Agent
