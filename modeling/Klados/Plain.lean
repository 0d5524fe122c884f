import Klados.Solo

/-!
Runs that nothing interferes with. What such a run does can be read off the construction of the
program, in both directions: a sequence runs its parts, and a loop that raises has gone through the
elements before the one that raised.
-/
namespace Klados.Effects
open Prog

variable {S : Sig} {ε α β W : Type}

theorem Prog.Straight.each {body : β → Prog S ε α} (straight : ∀ x, (body x).Straight) (xs : List β) :
    (each xs body).Straight := by
  induction xs with
  | nil => trivial
  | cons x rest ih => exact Straight.bind (straight x) fun _ => Straight.bind ih fun _ => trivial

/-- The program takes one state to another with no environment. -/
abbrev Does (step : (op : S.Op) → W → Except ε (S.Res op) → W → Prop) : Prog S ε α → W → Except ε α → W → Prop :=
  Runs Eq step

namespace Does
variable {step : (op : S.Op) → W → Except ε (S.Res op) → W → Prop} {w v : W}

theorem ret {value : α} {result : Except ε α} :
    Does step (.ret value) w result v ↔ result = .ok value ∧ v = w := by
  constructor
  · intro ran
    cases ran with
    | ret same => exact ⟨rfl,same.symm⟩
  · rintro ⟨rfl,rfl⟩
    exact .ret rfl

theorem raise {error : ε} {result : Except ε α} :
    Does step (.raise error) w result v ↔ result = .error error ∧ v = w := by
  constructor
  · intro ran
    cases ran with
    | raise same => exact ⟨rfl,same.symm⟩
  · rintro ⟨rfl,rfl⟩
    exact .raise rfl

theorem call {op : S.Op} {next : Except ε (S.Res op) → Prog S ε α} {result : Except ε α} :
    Does step (.call op next) w result v ↔ ∃ outcome u, step op w outcome u ∧ Does step (next outcome) u result v := by
  constructor
  · intro ran
    cases ran with
    | call same stepped rest => exact ⟨_,_,same ▸ stepped,rest⟩
  · rintro ⟨outcome,u,stepped,rest⟩
    exact Runs.call rfl stepped rest

theorem perform {op : S.Op} {result : Except ε (S.Res op)} :
    Does step (perform op) w result v ↔ step op w result v := by
  constructor
  · intro ran
    obtain ⟨outcome,u,stepped,rest⟩ := call.mp ran
    cases outcome with
    | ok value =>
      obtain ⟨rfl,rfl⟩ := ret.mp rest
      exact stepped
    | error error =>
      obtain ⟨rfl,rfl⟩ := raise.mp rest
      exact stepped
  · intro stepped
    refine call.mpr ⟨result,v,stepped,?_⟩
    cases result with
    | ok value => exact ret.mpr ⟨rfl,rfl⟩
    | error error => exact raise.mpr ⟨rfl,rfl⟩

/-- A sequence runs its second part on what the first returned, or raises what the first raised. -/
theorem bind {program : Prog S ε α} {rest : α → Prog S ε β} {result : Except ε β} :
    Does step (program >>= rest) w result v ↔
      (∃ value u, Does step program w (.ok value) u ∧ Does step (rest value) u result v) ∨
        ∃ error, result = .error error ∧ Does step program w (.error error) v := by
  induction program generalizing w with
  | ret value =>
    constructor
    · intro ran
      exact .inl ⟨value,w,ret.mpr ⟨rfl,rfl⟩,ran⟩
    · rintro (⟨value',u,first,second⟩ | ⟨error,_,first⟩)
      · obtain ⟨same,rfl⟩ := ret.mp first
        cases same
        exact second
      · cases (ret.mp first).1
  | raise error =>
    constructor
    · intro ran
      obtain ⟨rfl,rfl⟩ := raise.mp ran
      exact .inr ⟨error,rfl,raise.mpr ⟨rfl,rfl⟩⟩
    · rintro (⟨value,u,first,_⟩ | ⟨error',rfl,first⟩)
      · cases (raise.mp first).1
      · obtain ⟨same,rfl⟩ := raise.mp first
        cases same
        exact raise.mpr ⟨rfl,rfl⟩
  | call op next ih =>
    constructor
    · intro ran
      obtain ⟨outcome,u,stepped,later⟩ := call.mp ran
      rcases (ih outcome).mp later with ⟨value,x,first,second⟩ | ⟨error,same,first⟩
      · exact .inl ⟨value,x,call.mpr ⟨outcome,u,stepped,first⟩,second⟩
      · exact .inr ⟨error,same,call.mpr ⟨outcome,u,stepped,first⟩⟩
    · intro ran
      refine call.mpr ?_
      rcases ran with ⟨value,x,first,second⟩ | ⟨error,same,first⟩
      · obtain ⟨outcome,u,stepped,later⟩ := call.mp first
        exact ⟨outcome,u,stepped,(ih outcome).mpr (.inl ⟨value,x,later,second⟩)⟩
      · obtain ⟨outcome,u,stepped,later⟩ := call.mp first
        exact ⟨outcome,u,stepped,(ih outcome).mpr (.inr ⟨error,same,later⟩)⟩

/-- One call that returns, and what follows it. -/
theorem perform_bind {op : S.Op} {rest : S.Res op → Prog S ε β} {result : Except ε β} (value : S.Res op) (u : W)
    (stepped : step op w (.ok value) u) (onward : Does step (rest value) u result v) :
    Does step (Prog.perform op >>= rest) w result v :=
  bind.mpr (.inl ⟨value,u,perform.mpr stepped,onward⟩)

/-- What follows a part of which only one outcome is possible. -/
theorem after {program : Prog S ε α} {rest : α → Prog S ε β} {u : W} {result : Except ε β}
    (ran : Does step (program >>= rest) w result v) (value : α)
    (certain : ∀ outcome x, Does step program w outcome x → outcome = .ok value ∧ x = u) :
    Does step (rest value) u result v := by
  rcases bind.mp ran with ⟨value',x,first,second⟩ | ⟨error,_,first⟩
  · obtain ⟨same,rfl⟩ := certain _ _ first
    cases same
    exact second
  · cases (certain _ _ first).1

/-- More steps, more runs. -/
theorem mono {step' : (op : S.Op) → W → Except ε (S.Res op) → W → Prop}
    (weaker : ∀ op w outcome v, step op w outcome v → step' op w outcome v) {program : Prog S ε α}
    {result : Except ε α} (ran : Does step program w result v) : Does step' program w result v := by
  induction program generalizing w with
  | ret value => exact ret.mpr (ret.mp ran)
  | raise error => exact raise.mpr (raise.mp ran)
  | call op next ih =>
    obtain ⟨outcome,u,stepped,later⟩ := call.mp ran
    exact call.mpr ⟨outcome,u,weaker _ _ _ _ stepped,ih outcome later⟩

/-- What all calls of a program keep, the program keeps. -/
theorem keeps {p : S.Op → Prop} {I : W → Prop}
    (each : ∀ op, p op → ∀ w outcome v, step op w outcome v → I w → I v) {program : Prog S ε α} (only : program.Only p)
    {result : Except ε α} (ran : Does step program w result v) (start : I w) : I v := by
  induction program generalizing w with
  | ret value => exact (ret.mp ran).2 ▸ start
  | raise error => exact (raise.mp ran).2 ▸ start
  | call op next ih =>
    obtain ⟨outcome,u,stepped,later⟩ := call.mp ran
    exact ih outcome (only.2 outcome) later (each op only.1 _ _ _ stepped start)

/-- When a straight program returns, all its calls did. -/
theorem returned {program : Prog S ε α} (straight : program.Straight) {value : α}
    (ran : Does step program w (.ok value) v) :
    Does (fun op w outcome v => step op w outcome v ∧ ∃ value, outcome = .ok value) program w (.ok value) v := by
  induction program generalizing w with
  | ret value => exact ret.mpr (ret.mp ran)
  | raise error => exact straight.elim
  | call op next ih =>
    obtain ⟨outcome,u,stepped,later⟩ := call.mp ran
    cases outcome with
    | ok result => exact call.mpr ⟨.ok result,u,⟨stepped,result,rfl⟩,ih (.ok result) (straight.2 result) later⟩
    | error error =>
      obtain ⟨error',same⟩ := straight.1 error
      rw [same] at later
      cases (raise.mp later).1

/-! ## Loops -/

theorem each_nil {body : β → Prog S ε α} {result : Except ε (List α)} :
    Does step (each [] body) w result v ↔ result = .ok [] ∧ v = w := ret

theorem each_cons {body : β → Prog S ε α} {x : β} {rest : List β} {values : List α} :
    Does step (each (x :: rest) body) w (.ok values) v ↔
      ∃ value more u, values = value :: more ∧ Does step (body x) w (.ok value) u ∧
        Does step (each rest body) u (.ok more) v := by
  constructor
  · intro ran
    rcases bind.mp ran with ⟨value,u,first,later⟩ | ⟨_,same,_⟩
    · rcases bind.mp later with ⟨more,x,second,last⟩ | ⟨_,same,_⟩
      · obtain ⟨same,rfl⟩ := ret.mp last
        cases same
        exact ⟨value,more,u,rfl,first,second⟩
      · cases same
    · cases same
  · rintro ⟨value,more,u,rfl,first,second⟩
    exact bind.mpr (.inl ⟨value,u,first,bind.mpr (.inl ⟨more,v,second,ret.mpr ⟨rfl,rfl⟩⟩)⟩)

theorem each_append {body : β → Prog S ε α} {xs ys : List β} {first second : List α} {u : W}
    (before : Does step (each xs body) w (.ok first) u) (after : Does step (each ys body) u (.ok second) v) :
    Does step (each (xs ++ ys) body) w (.ok (first ++ second)) v := by
  induction xs generalizing w first with
  | nil =>
    obtain ⟨same,rfl⟩ := each_nil.mp before
    cases same
    exact after
  | cons x rest ih =>
    obtain ⟨value,more,x,rfl,head,tail⟩ := each_cons.mp before
    exact each_cons.mpr ⟨value,more ++ second,x,rfl,head,ih tail⟩

/-- A loop that raises has gone through the elements before the one that raised. -/
theorem each_error {body : β → Prog S ε α} {xs : List β} {error : ε}
    (ran : Does step (each xs body) w (.error error) v) :
    ∃ done x rest values u, xs = done ++ x :: rest ∧ Does step (each done body) w (.ok values) u ∧
      Does step (body x) u (.error error) v := by
  induction xs generalizing w with
  | nil => cases (each_nil.mp ran).1
  | cons x rest ih =>
    rcases bind.mp ran with ⟨value,u,first,later⟩ | ⟨error',same,first⟩
    · rcases bind.mp later with ⟨more,y,_,last⟩ | ⟨error',same,second⟩
      · cases (ret.mp last).1
      · cases same
        obtain ⟨done,y,rest',values,z,rfl,before,raised⟩ := ih second
        exact ⟨x :: done,y,rest',value :: values,z,rfl,each_cons.mpr ⟨value,values,u,rfl,first,before⟩,raised⟩
    · cases same
      exact ⟨[],x,rest,[],w,rfl,each_nil.mpr ⟨rfl,rfl⟩,first⟩

/-- A program that handles exceptions returns what its body did, or what the handler does. -/
theorem of_catching {body : Prog S ε α} {handler : ε → Prog S ε α} {result : Except ε α}
    (ran : Does step (tryCatch body handler) w result v) : (∃ value, result = .ok value ∧ Does step body w (.ok value) v) ∨
      ∃ error u, Does step body w (.error error) u ∧ Does step (handler error) u result v := by
  induction body generalizing w with
  | ret value =>
    obtain ⟨rfl,rfl⟩ := ret.mp ran
    exact .inl ⟨value,rfl,ret.mpr ⟨rfl,rfl⟩⟩
  | raise error => exact .inr ⟨error,w,raise.mpr ⟨rfl,rfl⟩,ran⟩
  | call op next ih =>
    obtain ⟨outcome,u,stepped,later⟩ := call.mp ran
    rcases ih outcome later with ⟨value,same,inside⟩ | ⟨error,x,inside,handled⟩
    · exact .inl ⟨value,same,call.mpr ⟨outcome,u,stepped,inside⟩⟩
    · exact .inr ⟨error,x,call.mpr ⟨outcome,u,stepped,inside⟩,handled⟩

end Does

/-- Whatever the program returns, it leaves `Q`. -/
def Gives (step : (op : S.Op) → W → Except ε (S.Res op) → W → Prop) (program : Prog S ε α) (w : W) (Q : α → W → Prop) :
    Prop :=
  ∀ value v, Does step program w (.ok value) v → Q value v

namespace Gives
variable {step : (op : S.Op) → W → Except ε (S.Res op) → W → Prop} {w : W} {Q : α → W → Prop}

theorem mono {Q' : α → W → Prop} {program : Prog S ε α} (gives : Gives step program w Q)
    (weaker : ∀ value v, Q value v → Q' value v) : Gives step program w Q' :=
  fun value v ran => weaker value v (gives value v ran)

theorem ret {value : α} (holds : Q value w) : Gives step (.ret value) w Q := by
  intro value' v ran
  obtain ⟨same,rfl⟩ := Does.ret.mp ran
  cases same
  exact holds

theorem raise {error : ε} : Gives step (.raise error) w Q := by
  intro value v ran
  cases (Does.raise.mp ran).1

theorem perform {op : S.Op} {Q : S.Res op → W → Prop} (after : ∀ value v, step op w (.ok value) v → Q value v) :
    Gives step (Prog.perform op) w Q :=
  fun value v ran => after value v (Does.perform.mp ran)

theorem bind {program : Prog S ε α} {rest : α → Prog S ε β} {Q : β → W → Prop} {R : α → W → Prop}
    (first : Gives step program w R) (onward : ∀ value v, R value v → Gives step (rest value) v Q) :
    Gives step (program >>= rest) w Q := by
  intro value v ran
  rcases Does.bind.mp ran with ⟨value',u,before,later⟩ | ⟨_,same,_⟩
  · exact onward value' u (first value' u before) value v later
  · cases same

/-- A handler that raises does not return. -/
theorem raising {body : Prog S ε α} {handler : ε → Prog S ε α} (inside : Gives step body w Q)
    (raises : ∀ error u value v, ¬ Does step (handler error) u (.ok value) v) : Gives step (tryCatch body handler) w Q := by
  intro value v ran
  rcases Does.of_catching ran with ⟨value',same,returned⟩ | ⟨error,u,_,handled⟩
  · cases same
    exact inside value v returned
  · exact absurd handled (raises error u value v)

theorem keeps {p : S.Op → Prop} {I : W → Prop}
    (each : ∀ op, p op → ∀ w outcome v, step op w outcome v → I w → I v) {program : Prog S ε α} (only : program.Only p)
    (start : I w) : Gives step program w fun _ v => I v :=
  fun _ _ ran => Does.keeps each only ran start

end Gives

/-- Whatever comes of the program, a value or an error, it leaves `Q`. -/
def Finishes (step : (op : S.Op) → W → Except ε (S.Res op) → W → Prop) (program : Prog S ε α) (w : W)
    (Q : Except ε α → W → Prop) : Prop :=
  ∀ result v, Does step program w result v → Q result v

namespace Finishes
variable {step : (op : S.Op) → W → Except ε (S.Res op) → W → Prop} {w : W} {Q : Except ε α → W → Prop}

theorem ret {value : α} (holds : Q (.ok value) w) : Finishes step (.ret value) w Q := by
  intro result v ran
  obtain ⟨rfl,rfl⟩ := Does.ret.mp ran
  exact holds

theorem raise {error : ε} (holds : Q (.error error) w) : Finishes step (.raise error) w Q := by
  intro result v ran
  obtain ⟨rfl,rfl⟩ := Does.raise.mp ran
  exact holds

theorem perform {op : S.Op} {Q : Except ε (S.Res op) → W → Prop} (after : ∀ outcome v, step op w outcome v → Q outcome v) :
    Finishes step (Prog.perform op) w Q :=
  fun outcome v ran => after outcome v (Does.perform.mp ran)

theorem bind {program : Prog S ε α} {rest : α → Prog S ε β} {Q : Except ε β → W → Prop} {R : Except ε α → W → Prop}
    (first : Finishes step program w R) (onward : ∀ value v, R (.ok value) v → Finishes step (rest value) v Q)
    (passes : ∀ error v, R (.error error) v → Q (.error error) v) : Finishes step (program >>= rest) w Q := by
  intro result v ran
  rcases Does.bind.mp ran with ⟨value,u,before,later⟩ | ⟨error,rfl,raised⟩
  · exact onward value u (first _ u before) result v later
  · exact passes error v (first _ v raised)

/-- After a part that can only return this value, and leave this state. -/
theorem after {program : Prog S ε α} {rest : α → Prog S ε β} {Q : Except ε β → W → Prop} {value : α} {u : W}
    (first : Finishes step program w fun result v => result = .ok value ∧ v = u) (onward : Finishes step (rest value) u Q) :
    Finishes step (program >>= rest) w Q := by
  refine bind first ?_ ?_
  · rintro _ _ ⟨same,rfl⟩
    cases same
    exact onward
  · rintro _ _ ⟨same,_⟩
    cases same

theorem catching {body : Prog S ε α} {handler : ε → Prog S ε α} {R : ε → W → Prop}
    (inside : Finishes step body w fun result v => match result with
      | .ok value => Q (.ok value) v
      | .error error => R error v)
    (handled : ∀ error v, R error v → Finishes step (handler error) v Q) : Finishes step (tryCatch body handler) w Q := by
  intro result v ran
  rcases Does.of_catching ran with ⟨value,rfl,returned⟩ | ⟨error,u,raised,later⟩
  · exact inside _ v returned
  · exact handled error u (inside _ u raised) result v later

/-! An invariant that every part keeps. -/

variable {I : W → Prop}

theorem seq {program : Prog S ε α} {rest : α → Prog S ε β} (first : Finishes step program w fun _ v => I v)
    (onward : ∀ value v, I v → Finishes step (rest value) v fun _ v => I v) :
    Finishes step (program >>= rest) w fun _ v => I v :=
  bind first onward fun _ _ kept => kept

theorem when {condition : Bool} {body : Prog S ε Unit} (start : I w) (runs : Finishes step body w fun _ v => I v) :
    Finishes step (Prog.when condition body) w fun _ v => I v := by
  cases condition
  · exact ret start
  · exact runs

theorem each {body : β → Prog S ε α} {xs : List β} (start : I w)
    (turn : ∀ x ∈ xs, ∀ u, I u → Finishes step (body x) u fun _ v => I v) :
    Finishes step (Prog.each xs body) w fun _ v => I v := by
  induction xs generalizing w with
  | nil => exact ret start
  | cons x rest ih =>
    refine seq (turn x (List.mem_cons_self ..) w start) fun _ u kept => ?_
    refine seq (ih kept fun y member => turn y (List.mem_cons_of_mem _ member)) fun _ _ kept' => ret kept'

end Finishes
end Klados.Effects
