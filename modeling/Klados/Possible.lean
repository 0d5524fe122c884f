import Klados.Effects

/-!
What a program can do: some way in which its calls turn out leads to a result. The rules follow the
construction of programs, and what can happen is a run (`Can.runs`).
-/
namespace Klados.Effects
open Prog

variable {S : Sig} {ε α β W : Type} {step : (op : S.Op) → W → Except ε (S.Res op) → W → Prop}

/-- The program can run from the state to a result with `Q`. -/
def Can (step : (op : S.Op) → W → Except ε (S.Res op) → W → Prop) : Prog S ε α → W → (α → W → Prop) → Prop
  | .ret value, w, Q => Q value w
  | .raise _, _, _ => False
  | .call op next, w, Q => ∃ outcome v, step op w outcome v ∧ Can step (next outcome) v Q

namespace Can

theorem perform {op : S.Op} {w : W} {Q : S.Res op → W → Prop} (value : S.Res op) (v : W) (stepped : step op w (.ok value) v)
    (holds : Q value v) : Can step (Prog.perform op) w Q := ⟨.ok value,v,stepped,holds⟩

theorem bind {program : Prog S ε α} {rest : α → Prog S ε β} {w : W} {M : α → W → Prop} {Q : β → W → Prop}
    (first : Can step program w M) (onward : ∀ value v, M value v → Can step (rest value) v Q) :
    Can step (program >>= rest) w Q := by
  induction program generalizing w with
  | ret value => exact onward value w first
  | raise error => exact first.elim
  | call op next ih =>
    obtain ⟨outcome,v,stepped,more⟩ := first
    exact ⟨outcome,v,stepped,ih outcome more⟩

/-- One call, and what can follow it. -/
theorem call_bind {op : S.Op} {rest : S.Res op → Prog S ε β} {w : W} {Q : β → W → Prop} (value : S.Res op) (v : W)
    (stepped : step op w (.ok value) v) (onward : Can step (rest value) v Q) : Can step (Prog.perform op >>= rest) w Q :=
  ⟨.ok value,v,stepped,onward⟩

/-- A body that can return is not handled. -/
theorem catching {body : Prog S ε α} {handler : ε → Prog S ε α} {w : W} {Q : α → W → Prop} (can : Can step body w Q) :
    Can step (tryCatch body handler) w Q := by
  induction body generalizing w with
  | ret value => exact can
  | raise error => exact can.elim
  | call op next ih =>
    obtain ⟨outcome,v,stepped,onward⟩ := can
    exact ⟨outcome,v,stepped,ih outcome onward⟩

theorem when {condition : Bool} {body : Prog S ε Unit} {w : W} {Q : Unit → W → Prop} (skipped : condition = false → Q () w)
    (can : condition = true → Can step body w Q) : Can step (Prog.when condition body) w Q := by
  cases condition with
  | false => exact skipped rfl
  | true => exact can rfl

/-- A loop, each turn of which keeps `I`. -/
theorem each {body : β → Prog S ε α} {I : W → Prop} (turn : ∀ x w, I w → Can step (body x) w fun _ => I) (xs : List β) {w : W}
    (start : I w) : Can step (Prog.each xs body) w fun _ => I := by
  induction xs generalizing w with
  | nil => exact start
  | cons x rest ih => exact bind (turn x w start) fun _ v kept => bind (ih kept) fun _ _ kept => kept

/-- What can happen is a run. -/
theorem runs {drift : W → W → Prop} (still : ∀ w, drift w w) {program : Prog S ε α} {w : W} {Q : α → W → Prop}
    (can : Can step program w Q) : ∃ value v, Runs drift step program w (.ok value) v ∧ Q value v := by
  induction program generalizing w with
  | ret value => exact ⟨value,w,.ret (still w),can⟩
  | raise error => exact can.elim
  | call op next ih =>
    obtain ⟨outcome,v,stepped,onward⟩ := can
    obtain ⟨value,x,ran,holds⟩ := ih outcome onward
    exact ⟨value,x,.call (still w) stepped ran,holds⟩

end Can
end Klados.Effects
