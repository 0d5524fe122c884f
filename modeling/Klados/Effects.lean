import Mathlib.Logic.Relation

/-!
Programs over a signature of operations, and what it means to run one.

A program is a tree of calls: each call names an operation and continues with its
outcome, a result or a raised error. Programs run alone (`Runs`) or interleaved with
others (`Klados.Interleave`). One notion of safety serves both (`Safe`): it follows
the tree, lets the environment move the state before every call, and asks of every
call that it keeps the invariant and stays within what the other programs rely on.
-/
namespace Klados.Effects

/-- The operations a program may call and what each gives back. -/
structure Sig where
  Op : Type
  Res : Op → Type

/-- A program calling operations of `S`, which raises `ε` or returns `α`. -/
inductive Prog (S : Sig) (ε α : Type) : Type
  | ret (value : α)
  | raise (error : ε)
  | call (op : S.Op) (next : Except ε (S.Res op) → Prog S ε α)

namespace Prog
variable {S : Sig} {ε α β : Type}

def bind : Prog S ε α → (α → Prog S ε β) → Prog S ε β
  | .ret value, rest => rest value
  | .raise error, _ => .raise error
  | .call op next, rest => .call op (fun outcome => (next outcome).bind rest)

/-- Run `handler` on the error that the program raises, if it raises one. -/
def catching : Prog S ε α → (ε → Prog S ε α) → Prog S ε α
  | .ret value, _ => .ret value
  | .raise error, handler => handler error
  | .call op next, handler => .call op (fun outcome => (next outcome).catching handler)

/-- A program that ends at once with the given outcome. -/
def ofOutcome : Except ε α → Prog S ε α
  | .ok value => .ret value
  | .error error => .raise error

/-- One call, whose error is raised. -/
def perform (op : S.Op) : Prog S ε (S.Res op) := .call op ofOutcome

instance : Monad (Prog S ε) where
  pure := .ret
  bind := bind

instance : MonadExcept ε (Prog S ε) where
  throw := .raise
  tryCatch := catching

/-- Run a program for every element in order and collect the results. -/
def each : List β → (β → Prog S ε α) → Prog S ε (List α)
  | [], _ => .ret []
  | x :: rest, body => (body x).bind fun value => (each rest body).bind fun values => .ret (value :: values)

/-- Run the program if the condition holds. -/
def when (condition : Bool) (body : Prog S ε Unit) : Prog S ε Unit := if condition then body else .ret ()

/-- Every operation that the program may call satisfies `p`. -/
def Only (p : S.Op → Prop) : Prog S ε α → Prop
  | .ret _ => True
  | .raise _ => True
  | .call op next => p op ∧ ∀ outcome, (next outcome).Only p

section
variable {p : S.Op → Prop}

theorem Only.mono {q : S.Op → Prop} (weaker : ∀ op, p op → q op) {program : Prog S ε α} (only : program.Only p) :
    program.Only q := by
  induction program with
  | ret value => trivial
  | raise error => trivial
  | call op next ih => exact ⟨weaker op only.1,fun outcome => ih outcome (only.2 outcome)⟩

theorem Only.all (allowed : ∀ op, p op) (program : Prog S ε α) : program.Only p := by
  induction program with
  | ret value => trivial
  | raise error => trivial
  | call op next ih => exact ⟨allowed op,ih⟩

theorem Only.perform {op : S.Op} (allowed : p op) : (perform op : Prog S ε (S.Res op)).Only p :=
  ⟨allowed,fun outcome => by cases outcome <;> trivial⟩

theorem Only.ofOutcome (outcome : Except ε α) : (ofOutcome outcome : Prog S ε α).Only p := by
  cases outcome <;> trivial

theorem Only.bind {program : Prog S ε α} {rest : α → Prog S ε β} (first : program.Only p)
    (onward : ∀ value, (rest value).Only p) : (program >>= rest).Only p := by
  induction program with
  | ret value => exact onward value
  | raise error => trivial
  | call op next ih => exact ⟨first.1,fun outcome => ih outcome (first.2 outcome)⟩

theorem Only.catching {program : Prog S ε α} {handler : ε → Prog S ε α} (first : program.Only p)
    (handled : ∀ error, (handler error).Only p) : (tryCatch program handler).Only p := by
  induction program with
  | ret value => trivial
  | raise error => exact handled error
  | call op next ih => exact ⟨first.1,fun outcome => ih outcome (first.2 outcome)⟩

theorem Only.each {xs : List β} {body : β → Prog S ε α} (turn : ∀ x, (body x).Only p) :
    (each xs body).Only p := by
  induction xs with
  | nil => trivial
  | cons x rest ih => exact Only.bind (turn x) fun _ => Only.bind ih fun _ => trivial

theorem Only.when {condition : Bool} {body : Prog S ε Unit} (runs : body.Only p) :
    (when condition body).Only p := by
  cases condition
  · trivial
  · exact runs

end
end Prog
open Prog

section
variable {S : Sig} {ε α β W : Type}

/-- The program runs alone to its outcome. Before each call and at the end the
    environment may move the state along `drift`. -/
inductive Runs (drift : W → W → Prop) (step : (op : S.Op) → W → Except ε (S.Res op) → W → Prop) :
    Prog S ε α → W → Except ε α → W → Prop
  | ret {w v : W} {value : α} : drift w v → Runs drift step (.ret value) w (.ok value) v
  | raise {w v : W} {error : ε} : drift w v → Runs drift step (.raise error) w (.error error) v
  | call {w u v x : W} {op : S.Op} {next : Except ε (S.Res op) → Prog S ε α}
      {outcome : Except ε (S.Res op)} {result : Except ε α} :
      drift w u → step op u outcome v → Runs drift step (next outcome) v result x →
      Runs drift step (.call op next) w result x

/-- Run a program alone along a script of moves of the environment and choices of its calls. -/
def replay {C E : Type} (exec : (op : S.Op) → C → W → Option (Except ε (S.Res op) × W)) (env : E → W → Option W) :
    List (E ⊕ C) → Prog S ε α → W → Option (Except ε α × W)
  | [], .ret value, w => some (.ok value,w)
  | [], .raise error, w => some (.error error,w)
  | .inl move :: rest, program, w => (env move w).bind (replay exec env rest program)
  | .inr choice :: rest, .call op next, w =>
    (exec op choice w).bind fun (outcome,v) => replay exec env rest (next outcome) v
  | _, _, _ => none

/-- A script that goes through is a run. -/
theorem Runs.of_replay {C E : Type} {exec : (op : S.Op) → C → W → Option (Except ε (S.Res op) × W)}
    {env : E → W → Option W} {drift : W → W → Prop}
    {step : (op : S.Op) → W → Except ε (S.Res op) → W → Prop} (still : ∀ w, drift w w)
    (trans : ∀ {u v w}, drift u v → drift v w → drift u w) (moves : ∀ move w v, env move w = some v → drift w v)
    (steps : ∀ op choice w outcome v, exec op choice w = some (outcome,v) → step op w outcome v)
    {script : List (E ⊕ C)} {program : Prog S ε α} {w v : W} {result : Except ε α}
    (replayed : replay exec env script program w = some (result,v)) : Runs drift step program w result v := by
  induction script generalizing program w with
  | nil =>
    cases program with
    | ret value =>
      cases replayed
      exact .ret (still _)
    | raise error =>
      cases replayed
      exact .raise (still _)
    | call op next => cases replayed
  | cons action rest ih =>
    cases action with
    | inl move =>
      have split : (env move w).bind (replay exec env rest program) = some (result,v) := by
        cases program <;> exact replayed
      obtain ⟨u,moved,onward⟩ := Option.bind_eq_some_iff.mp split
      have first := moves move w u moved
      cases ih onward with
      | ret later => exact .ret (trans first later)
      | raise later => exact .raise (trans first later)
      | call later stepped more => exact .call (trans first later) stepped more
    | inr choice =>
      cases program with
      | ret value => cases replayed
      | raise error => cases replayed
      | call op next =>
        obtain ⟨⟨outcome,u⟩,executed,onward⟩ := Option.bind_eq_some_iff.mp replayed
        exact .call (still w) (steps op choice w outcome u executed) (ih onward)

/-! ## Safety -/

/-- The setting in which programs are proved safe: what a call may do, the invariant of the state, and for
    each thread what it relies on from the others and what it guarantees to them. -/
structure Rules (S : Sig) (ε W : Type) where
  step : Nat → (op : S.Op) → W → Except ε (S.Res op) → W → Prop
  inv : W → Prop
  rely : Nat → W → W → Prop
  guar : Nat → S.Op → W → W → Prop

/-- What makes `Rules` sound: a thread may rely on nothing happening and on several
    moves in a row. -/
structure Rules.Lawful (R : Rules S ε W) : Prop where
  refl : ∀ t w, R.rely t w w
  trans : ∀ t {u v w}, R.rely t u v → R.rely t v w → R.rely t u w

/-- Thread `t` may run the program from `w`: whatever the others do before each call,
    the call keeps the invariant and the guarantee, and the outcome satisfies `Q`. -/
def Safe (R : Rules S ε W) (t : Nat) : Prog S ε α → (Except ε α → W → Prop) → W → Prop
  | .ret value, Q, w => ∀ v, R.rely t w v → R.inv v → Q (.ok value) v
  | .raise error, Q, w => ∀ v, R.rely t w v → R.inv v → Q (.error error) v
  | .call op next, Q, w => ∀ v, R.rely t w v → R.inv v →
      ∀ outcome v', R.step t op v outcome v' → R.inv v' ∧ R.guar t op v v' ∧ Safe R t (next outcome) Q v'

variable {R : Rules S ε W} {t : Nat}

/-- A program that may run stays safe while the others move. -/
theorem Safe.later (lawful : R.Lawful) {program : Prog S ε α} {Q : Except ε α → W → Prop} {w v : W}
    (safe : Safe R t program Q w) (moved : R.rely t w v) : Safe R t program Q v := by
  cases program with
  | ret value => exact fun u more kept => safe u (lawful.trans t moved more) kept
  | raise error => exact fun u more kept => safe u (lawful.trans t moved more) kept
  | call op next => exact fun u more kept => safe u (lawful.trans t moved more) kept

theorem Safe.weaken {program : Prog S ε α} {Q Q' : Except ε α → W → Prop} {w : W} (safe : Safe R t program Q w)
    (implies : ∀ outcome v, R.inv v → Q outcome v → Q' outcome v) : Safe R t program Q' w := by
  induction program generalizing w with
  | ret value => exact fun v moved kept => implies _ v kept (safe v moved kept)
  | raise error => exact fun v moved kept => implies _ v kept (safe v moved kept)
  | call op next ih =>
    intro v moved kept outcome v' step
    obtain ⟨kept',guaranteed,rest⟩ := safe v moved kept outcome v' step
    exact ⟨kept',guaranteed,ih outcome rest⟩

theorem Safe.bind (lawful : R.Lawful) {program : Prog S ε α} {rest : α → Prog S ε β}
    {M : Except ε α → W → Prop} {Q : Except ε β → W → Prop} {w : W} (safe : Safe R t program M w) (kept : R.inv w)
    (onward : ∀ value v, R.inv v → M (.ok value) v → Safe R t (rest value) Q v)
    (raised : ∀ error v, R.inv v → M (.error error) v → Q (.error error) v) :
    Safe R t (program.bind rest) Q w := by
  induction program generalizing w with
  | ret value => exact onward value w kept (safe w (lawful.refl t w) kept)
  | raise error => exact fun v moved kept' => raised error v kept' (safe v moved kept')
  | call op next ih =>
    intro v moved kept' outcome v' step
    obtain ⟨kept'',guaranteed,later⟩ := safe v moved kept' outcome v' step
    exact ⟨kept'',guaranteed,ih outcome later kept''⟩

theorem Safe.catching (lawful : R.Lawful) {program : Prog S ε α} {handler : ε → Prog S ε α}
    {M Q : Except ε α → W → Prop} {w : W} (safe : Safe R t program M w) (kept : R.inv w)
    (returned : ∀ value v, R.inv v → M (.ok value) v → Q (.ok value) v)
    (handled : ∀ error v, R.inv v → M (.error error) v → Safe R t (handler error) Q v) :
    Safe R t (program.catching handler) Q w := by
  induction program generalizing w with
  | ret value => exact fun v moved kept' => returned value v kept' (safe v moved kept')
  | raise error => exact handled error w kept (safe w (lawful.refl t w) kept)
  | call op next ih =>
    intro v moved kept' outcome v' step
    obtain ⟨kept'',guaranteed,later⟩ := safe v moved kept' outcome v' step
    exact ⟨kept'',guaranteed,ih outcome later kept''⟩

/-- What the others' moves and the thread's own calls keep, the program keeps. -/
theorem Safe.frame {program : Prog S ε α} {Q : Except ε α → W → Prop} {B : W → Prop} {w : W}
    (relied : ∀ w v, R.inv w → R.inv v → R.rely t w v → B w → B v)
    (called : ∀ op w v, R.inv w → R.inv v → R.guar t op w v → B w → B v) (safe : Safe R t program Q w) (kept : R.inv w)
    (holds : B w) : Safe R t program (fun outcome v => Q outcome v ∧ B v) w := by
  induction program generalizing w with
  | ret value => exact fun v moved kept' => ⟨safe v moved kept',relied w v kept kept' moved holds⟩
  | raise error => exact fun v moved kept' => ⟨safe v moved kept',relied w v kept kept' moved holds⟩
  | call op next ih =>
    intro v moved kept' outcome v' step
    obtain ⟨kept'',guaranteed,rest⟩ := safe v moved kept' outcome v' step
    exact ⟨kept'',guaranteed,ih outcome rest kept'' (called op v v' kept' kept'' guaranteed (relied w v kept kept' moved holds))⟩

/-- Two sets of rules for the same programs. -/
def Rules.and (R R' : Rules S ε W) : Rules S ε W where
  step t op w outcome v := R.step t op w outcome v ∧ R'.step t op w outcome v
  inv w := R.inv w ∧ R'.inv w
  rely t w v := R.rely t w v ∧ R'.rely t w v
  guar t op w v := R.guar t op w v ∧ R'.guar t op w v

theorem Rules.Lawful.and {R' : Rules S ε W} (lawful : R.Lawful) (lawful' : R'.Lawful) : (R.and R').Lawful where
  refl t w := ⟨lawful.refl t w,lawful'.refl t w⟩
  trans t {_ _ _} first second := ⟨lawful.trans t first.1 second.1,lawful'.trans t first.2 second.2⟩

/-- What is safe under each of two sets of rules is safe under both. -/
theorem Safe.and {R' : Rules S ε W} {program : Prog S ε α} {Q Q' : Except ε α → W → Prop} {w : W}
    (safe : Safe R t program Q w) (safe' : Safe R' t program Q' w) :
    Safe (R.and R') t program (fun outcome w => Q outcome w ∧ Q' outcome w) w := by
  induction program generalizing w with
  | ret value => exact fun v relied kept => ⟨safe v relied.1 kept.1,safe' v relied.2 kept.2⟩
  | raise error => exact fun v relied kept => ⟨safe v relied.1 kept.1,safe' v relied.2 kept.2⟩
  | call op next ih =>
    intro v relied kept outcome v' step
    obtain ⟨inv,guaranteed,rest⟩ := safe v relied.1 kept.1 outcome v' step.1
    obtain ⟨inv',guaranteed',rest'⟩ := safe' v relied.2 kept.2 outcome v' step.2
    exact ⟨⟨inv,inv'⟩,⟨guaranteed,guaranteed'⟩,ih outcome rest rest'⟩

/-- The others cannot falsify `P` for thread `t`. -/
def Stable (R : Rules S ε W) (t : Nat) (P : W → Prop) : Prop :=
  ∀ w v, R.inv w → R.inv v → R.rely t w v → P w → P v

/-- From every state with `P`, thread `t` may run the program and ends in `Q`. -/
def Triple (R : Rules S ε W) (t : Nat) (P : W → Prop) (program : Prog S ε α) (Q : Except ε α → W → Prop) : Prop :=
  ∀ w, R.inv w → P w → Safe R t program Q w

/-- What a call must do for its triple: it keeps the invariant and the guarantee and establishes its
    postcondition. -/
structure Acts (R : Rules S ε W) (t : Nat) (P : W → Prop) (op : S.Op) (Q : Except ε (S.Res op) → W → Prop) :
    Prop where
  keeps : ∀ w outcome v, R.inv w → P w → R.step t op w outcome v → R.inv v ∧ R.guar t op w v ∧ Q outcome v

theorem Triple.ret {P : W → Prop} {Q : Except ε α → W → Prop} (stable : Stable R t P) {value : α}
    (post : ∀ w, R.inv w → P w → Q (.ok value) w) : Triple R t P (.ret value : Prog S ε α) Q :=
  fun w kept holds v moved kept' => post v kept' (stable w v kept kept' moved holds)

theorem Triple.raise {P : W → Prop} {Q : Except ε α → W → Prop} (stable : Stable R t P) {error : ε}
    (post : ∀ w, R.inv w → P w → Q (.error error) w) : Triple R t P (.raise error : Prog S ε α) Q :=
  fun w kept holds v moved kept' => post v kept' (stable w v kept kept' moved holds)

theorem Triple.call {P : W → Prop} {op : S.Op} {next : Except ε (S.Res op) → Prog S ε α}
    {M : Except ε (S.Res op) → W → Prop} {Q : Except ε α → W → Prop} (stable : Stable R t P)
    (acts : Acts R t P op M) (rest : ∀ outcome, Triple R t (M outcome) (next outcome) Q) :
    Triple R t P (.call op next) Q := by
  intro w kept holds v moved kept'
  have holds' := stable w v kept kept' moved holds
  intro outcome v' step
  obtain ⟨kept'',guaranteed,post⟩ := acts.keeps v outcome v' kept' holds' step
  exact ⟨kept'',guaranteed,rest outcome v' kept'' post⟩

theorem Triple.perform {P : W → Prop} {op : S.Op} {Q : Except ε (S.Res op) → W → Prop} (stable : Stable R t P)
    (acts : Acts R t P op Q) (stays : ∀ outcome, Stable R t (Q outcome)) : Triple R t P (perform op) Q := by
  refine Triple.call stable acts ?_
  intro outcome
  cases outcome with
  | ok value => exact Triple.ret (stays (.ok value)) (fun _ _ holds => holds)
  | error error => exact Triple.raise (stays (.error error)) (fun _ _ holds => holds)

theorem Triple.bind (lawful : R.Lawful) {P : W → Prop} {program : Prog S ε α} {rest : α → Prog S ε β}
    {M : Except ε α → W → Prop} {Q : Except ε β → W → Prop} (first : Triple R t P program M)
    (onward : ∀ value, Triple R t (M (.ok value)) (rest value) Q)
    (raised : ∀ error w, R.inv w → M (.error error) w → Q (.error error) w) :
    Triple R t P (program.bind rest) Q :=
  fun w kept holds => (first w kept holds).bind lawful kept (fun value v kept' mid => onward value v kept' mid) raised

theorem Triple.catching (lawful : R.Lawful) {P : W → Prop} {program : Prog S ε α} {handler : ε → Prog S ε α}
    {M Q : Except ε α → W → Prop} (first : Triple R t P program M)
    (returned : ∀ value w, R.inv w → M (.ok value) w → Q (.ok value) w)
    (handled : ∀ error, Triple R t (M (.error error)) (handler error) Q) :
    Triple R t P (program.catching handler) Q :=
  fun w kept holds => (first w kept holds).catching lawful kept returned (fun error v kept' mid => handled error v kept' mid)

theorem Triple.consequence {P P' : W → Prop} {program : Prog S ε α} {Q Q' : Except ε α → W → Prop}
    (triple : Triple R t P program Q) (pre : ∀ w, R.inv w → P' w → P w)
    (post : ∀ outcome w, R.inv w → Q outcome w → Q' outcome w) : Triple R t P' program Q' :=
  fun w kept holds => (triple w kept (pre w kept holds)).weaken post

/-- An assertion that the others' moves and the thread's own calls keep may be added on both sides. -/
theorem Triple.frame {P B : W → Prop} {program : Prog S ε α} {Q : Except ε α → W → Prop}
    (relied : ∀ w v, R.inv w → R.inv v → R.rely t w v → B w → B v)
    (called : ∀ op w v, R.inv w → R.inv v → R.guar t op w v → B w → B v) (triple : Triple R t P program Q) :
    Triple R t (fun w => P w ∧ B w) program fun outcome w => Q outcome w ∧ B w :=
  fun w kept ⟨first,second⟩ => (triple w kept first).frame relied called kept second

/-- The assertion about a normal end. -/
def Ends (Q : α → W → Prop) : Except ε α → W → Prop
  | .ok value => Q value
  | .error _ => fun _ => True

/-- One program after the other, when only the normal end matters. -/
theorem Triple.seq (lawful : R.Lawful) {P : W → Prop} {program : Prog S ε α} {rest : α → Prog S ε β}
    {M : α → W → Prop} {Q : β → W → Prop} (first : Triple R t P program (Ends M))
    (onward : ∀ value, Triple R t (M value) (rest value) (Ends Q)) : Triple R t P (program.bind rest) (Ends Q) :=
  Triple.bind lawful first onward fun _ _ _ _ => trivial

/-- A program whose calls all keep a stable assertion keeps it. -/
theorem Triple.only {P : W → Prop} {p : S.Op → Prop} (stable : Stable R t P)
    (acts : ∀ op, p op → Acts R t P op (fun _ => P)) {program : Prog S ε α} (only : program.Only p) :
    Triple R t P program (fun _ => P) := by
  induction program with
  | ret value => exact Triple.ret stable (fun _ _ holds => holds)
  | raise error => exact Triple.raise stable (fun _ _ holds => holds)
  | call op next ih => exact Triple.call stable (acts op only.1) (fun outcome => ih outcome (only.2 outcome))

/-- A loop: `P done values` holds once the elements `done` gave `values`. -/
theorem Triple.each (lawful : R.Lawful) {P : List β → List α → W → Prop} {E : ε → W → Prop}
    (stable : ∀ done values, Stable R t (P done values)) {body : β → Prog S ε α} {xs : List β}
    (turn : ∀ done x rest values, xs = done ++ x :: rest → Triple R t (P done values) (body x) (fun outcome w =>
      match outcome with
      | .ok value => P (done ++ [x]) (values ++ [value]) w
      | .error error => E error w)) :
    Triple R t (P [] []) (Prog.each xs body) (fun outcome w =>
      match outcome with
      | .ok values => P xs values w
      | .error error => E error w) := by
  have loop : ∀ rest done values, xs = done ++ rest → Triple R t (P done values) (Prog.each rest body)
      (fun outcome w =>
        match outcome with
        | .ok more => P xs (values ++ more) w
        | .error error => E error w) := by
    intro rest
    induction rest with
    | nil =>
      intro done values split
      refine Triple.ret (stable done values) ?_
      intro w _ holds
      simpa [split] using holds
    | cons x rest ih =>
      intro done values split
      refine Triple.bind lawful (turn done x rest values split) ?_ (fun error w _ holds => holds)
      intro value
      have tail := ih (done ++ [x]) (values ++ [value]) (by simpa using split)
      refine Triple.bind lawful tail ?_ (fun error w _ holds => holds)
      intro more w kept holds v moved kept'
      have whole : P xs (values ++ value :: more) w := by simpa using holds
      exact stable xs _ w v kept kept' moved whole
  exact (loop xs [] [] rfl).consequence (fun _ _ holds => holds) (fun outcome _ _ holds => by
    cases outcome with
    | ok values => simpa using holds
    | error error => exact holds)

/-- A safe program that runs alone keeps the invariant and ends in its postcondition. -/
theorem Safe.runs {drift : W → W → Prop}
    (drifts : ∀ w v, R.inv w → drift w v → R.inv v ∧ R.rely t w v) {program : Prog S ε α}
    {Q : Except ε α → W → Prop} {w v : W} {result : Except ε α} (kept : R.inv w) (safe : Safe R t program Q w)
    (runs : Runs drift (R.step t) program w result v) : R.inv v ∧ Q result v := by
  induction runs with
  | ret moved =>
    obtain ⟨kept',relied⟩ := drifts _ _ kept moved
    exact ⟨kept',safe _ relied kept'⟩
  | raise moved =>
    obtain ⟨kept',relied⟩ := drifts _ _ kept moved
    exact ⟨kept',safe _ relied kept'⟩
  | call moved step _ ih =>
    obtain ⟨kept',relied⟩ := drifts _ _ kept moved
    obtain ⟨kept'',_,rest⟩ := safe _ relied kept' _ _ step
    exact ih kept'' rest

end
end Klados.Effects
