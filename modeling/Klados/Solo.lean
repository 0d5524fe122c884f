import Klados.Effects

/-!
Programs that run alone, seen through a view. What is shown of such a program speaks of the view of the
state only, which the environment leaves as it is; so no assertion has to be shown stable, and what holds of
the program holds of every run of it (`Solo.Proves.runs`).
-/
namespace Klados.Effects

namespace Prog
variable {S : Sig} {ε α β : Type} {p : S.Op → Prop}

/-- The program raises what a call raises, at once, and raises nothing else. -/
def Straight : Prog S ε α → Prop
  | .ret _ => True
  | .raise _ => False
  | .call _ next => (∀ error, ∃ error', next (.error error) = .raise error') ∧ ∀ value, (next (.ok value)).Straight

theorem Straight.perform (op : S.Op) : (perform op : Prog S ε (S.Res op)).Straight := ⟨fun error => ⟨error,rfl⟩,fun _ => trivial⟩

theorem Straight.bind {program : Prog S ε α} {rest : α → Prog S ε β} (first : program.Straight)
    (onward : ∀ value, (rest value).Straight) : (program >>= rest).Straight := by
  induction program with
  | ret value => exact onward value
  | raise error => exact first.elim
  | call op next ih =>
    refine ⟨?_,fun value => ih (.ok value) (first.2 value)⟩
    intro error
    obtain ⟨error',same⟩ := first.1 error
    refine ⟨error',?_⟩
    change (next (.error error)).bind rest = .raise error'
    rw [same]
    rfl

theorem Straight.when {condition : Bool} {body : Prog S ε Unit} (straight : body.Straight) :
    (when condition body).Straight := by
  cases condition
  · trivial
  · exact straight

end Prog
open Prog

/-- A way to run programs alone: what a call does, how the environment drifts, and what of the state is seen. -/
structure Solo (S : Sig) (ε W V : Type) where
  step : (op : S.Op) → W → Except ε (S.Res op) → W → Prop
  drift : W → W → Prop
  view : W → V
  refl : ∀ w, drift w w
  trans : ∀ u v w, drift u v → drift v w → drift u w
  still : ∀ w v, drift w v → view v = view w

namespace Solo
variable {S : Sig} {ε α β γ W V : Type} {k : Solo S ε W V} {A B e e' : V → Prop}

def rules (k : Solo S ε W V) : Rules S ε W where
  step _ := k.step
  inv _ := True
  rely _ := k.drift
  guar _ _ _ _ := True

theorem lawful : k.rules.Lawful := ⟨fun _ => k.refl,fun _ {_ _ _} => k.trans _ _ _⟩

/-- What the view satisfies when a program has ended. -/
def Post (k : Solo S ε W V) (e : V → Prop) (q : α → V → Prop) : Except ε α → W → Prop
  | .ok value => fun w => q value (k.view w)
  | .error _ => fun w => e (k.view w)

/-- From a view with `A` the program returns in `q` or raises in `e`. -/
def Proves (k : Solo S ε W V) (A : V → Prop) (program : Prog S ε α) (e : V → Prop) (q : α → V → Prop) : Prop :=
  Triple k.rules 0 (fun w => A (k.view w)) program (k.Post e q)

theorem stable (A : V → Prop) : Stable k.rules 0 (fun w => A (k.view w)) := by
  intro w v _ _ moved holds
  rw [k.still w v moved]
  exact holds

theorem ret {q : α → V → Prop} {value : α} (holds : ∀ u, A u → q value u) : k.Proves A (.ret value) e q :=
  Triple.ret (stable A) fun _ _ before => holds _ before

theorem raise {q : α → V → Prop} {error : ε} (holds : ∀ u, A u → e u) : k.Proves A (.raise error : Prog S ε α) e q :=
  Triple.raise (stable A) fun _ _ before => holds _ before

theorem seq {program : Prog S ε α} {rest : α → Prog S ε β} {r : α → V → Prop} {q : β → V → Prop}
    (first : k.Proves A program e r) (onward : ∀ value, k.Proves (r value) (rest value) e q) :
    k.Proves A (program >>= rest) e q :=
  Triple.bind lawful first onward fun _ _ _ holds => holds

theorem Proves.mono {program : Prog S ε α} {q q' : α → V → Prop} (proved : k.Proves A program e q)
    (pre : ∀ u, B u → A u) (post : ∀ value u, q value u → q' value u) (raised : ∀ u, e u → e' u) :
    k.Proves B program e' q' := by
  refine Triple.consequence proved (fun _ _ holds => pre _ holds) ?_
  intro outcome w _ holds
  cases outcome with
  | ok value => exact post value _ holds
  | error error => exact raised _ holds

/-- What does not depend on the view may be assumed of the program. -/
theorem Proves.given {fact : Prop} {program : Prog S ε α} {q : α → V → Prop}
    (proved : fact → k.Proves A program e q) : k.Proves (fun u => fact ∧ A u) program e q := by
  intro w inv holds
  exact proved holds.1 w inv holds.2

/-- The program may be looked at from each view apart. -/
theorem Proves.at {program : Prog S ε α} {q : α → V → Prop}
    (proved : ∀ u, A u → k.Proves (· = u) program e q) : k.Proves A program e q :=
  fun w inv holds => proved (k.view w) holds w inv rfl

theorem catching {body : Prog S ε α} {handler : ε → Prog S ε α} {q : α → V → Prop} (inside : k.Proves A body e q)
    (handled : ∀ error, k.Proves e (handler error) e' q) : k.Proves A (tryCatch body handler) e' q :=
  Triple.catching lawful inside (fun _ _ _ holds => holds) handled

theorem call {op : S.Op} {r : S.Res op → V → Prop}
    (post : ∀ w value v, k.step op w (.ok value) v → A (k.view w) → r value (k.view v))
    (raised : ∀ w error v, k.step op w (.error error) v → A (k.view w) → e (k.view v)) :
    k.Proves A (perform op) e r := by
  refine Triple.perform (stable A) ⟨?_⟩ ?_
  · intro w outcome v _ holds stepped
    refine ⟨trivial,trivial,?_⟩
    cases outcome with
    | ok value => exact post w value v stepped holds
    | error error => exact raised w error v stepped holds
  · intro outcome
    cases outcome with
    | ok value => exact stable (r value)
    | error error => exact stable e

/-- A program whose calls leave the view as it should be, whatever becomes of them. -/
theorem keeps {p : S.Op → Prop} (acts : ∀ op, p op → ∀ w outcome v, k.step op w outcome v → A (k.view w) → A (k.view v))
    {program : Prog S ε α} (only : program.Only p) : k.Proves A program A fun _ => A := by
  refine Triple.consequence (Triple.only (stable A) ?_ only) (fun _ _ holds => holds) ?_
  · intro op allowed
    exact ⟨fun w outcome v _ holds stepped => ⟨trivial,trivial,acts op allowed w outcome v stepped holds⟩⟩
  · intro outcome w _ holds
    cases outcome <;> exact holds

/-- A program that raises what its calls raise. -/
theorem straight {p : S.Op → Prop} {program : Prog S ε α} (only : program.Only p) (straight : program.Straight)
    (post : ∀ op, p op → ∀ w value v, k.step op w (.ok value) v → A (k.view w) → A (k.view v))
    (raised : ∀ op, p op → ∀ w error v, k.step op w (.error error) v → A (k.view w) → e (k.view v)) :
    k.Proves A program e fun _ => A := by
  induction program with
  | ret value => exact ret fun _ holds => holds
  | raise error => exact straight.elim
  | call op next ih =>
    refine Triple.call (M := k.Post e fun _ => A) (stable A) ⟨?_⟩ ?_
    · intro w outcome v _ holds stepped
      refine ⟨trivial,trivial,?_⟩
      cases outcome with
      | ok value => exact post op only.1 w value v stepped holds
      | error error => exact raised op only.1 w error v stepped holds
    · intro outcome
      cases outcome with
      | ok value => exact ih (.ok value) (only.2 _) (straight.2 value)
      | error error =>
        obtain ⟨error',same⟩ := straight.1 error
        rw [same]
        exact raise fun _ holds => holds

/-- A loop: `p done values` holds once the elements `done` gave `values`. -/
theorem each {body : β → Prog S ε α} {xs : List β} {p : List β → List α → V → Prop}
    (turn : ∀ done x rest values, xs = done ++ x :: rest →
      k.Proves (p done values) (body x) e fun value => p (done ++ [x]) (values ++ [value])) :
    k.Proves (p [] []) (Prog.each xs body) e fun values => p xs values := by
  refine (Triple.each (P := fun done values w => p done values (k.view w)) (E := fun _ w => e (k.view w)) lawful
    (fun done values => stable (p done values)) ?_).consequence (fun _ _ holds => holds) ?_
  · intro done x rest values split
    refine (turn done x rest values split).consequence (fun _ _ holds => holds) ?_
    intro outcome w _ holds
    cases outcome <;> exact holds
  · intro outcome w _ holds
    cases outcome <;> exact holds

/-- What is proved of a program holds of every run of it. -/
theorem Proves.runs {program : Prog S ε α} {q : α → V → Prop} (proved : k.Proves A program e q) {w v : W}
    {result : Except ε α} (start : A (k.view w)) (ran : Runs k.drift k.step program w result v) : k.Post e q result v :=
  ((proved w trivial start).runs (fun _ _ _ moved => ⟨trivial,moved⟩) trivial ran).2

end Solo
end Klados.Effects
