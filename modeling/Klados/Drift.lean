import Klados.Plain

/-!
Runs in an environment that drifts. Programs that make the same calls as long as what they are told
looks the same come to the same, wherever they run (`Twin.runs`). When what the environment does to the
state cannot be told from where the program stands, its moves can be put off until the program has
ended: the run is a run in which nothing interferes, up to what it cannot tell (`Runs.follow`). And what holds of the runs of a
program holds as a triple (`Triple.of_runs`), so that a part shown in one way can stand in a program
that is shown in the other. Once a program keeps to its rules, what it comes to is shown with its calls
known to be within them (`Triple.heard`).
-/
namespace Klados.Effects
open Prog

variable {S : Sig} {ε α β W V : Type}

/-- The same error, or values that are related. -/
def Same (V : α → β → Prop) : Except ε α → Except ε β → Prop
  | .ok value, .ok value' => V value value'
  | .error error, .error error' => error = error'
  | _, _ => False

theorem Same.of_eq {outcome outcome' : Except ε α} (same : Same Eq outcome outcome') : outcome = outcome' := by
  cases outcome <;> cases outcome' <;> simp_all [Same]

/-- Two programs make the same calls, all of them `ok`, and come to the same, as long as what they are told
    is the same as far as `sees` can tell. -/
inductive Twin (ok : S.Op → Prop) (sees : (op : S.Op) → S.Res op → S.Res op → Prop) {α β : Type} (V : α → β → Prop) :
    Prog S ε α → Prog S ε β → Prop
  | ret {value : α} {value' : β} : V value value' → Twin ok sees V (.ret value) (.ret value')
  | raise (error : ε) : Twin ok sees V (.raise error) (.raise error)
  | call {op : S.Op} {next : Except ε (S.Res op) → Prog S ε α} {next' : Except ε (S.Res op) → Prog S ε β} : ok op →
      (∀ outcome outcome', Same (sees op) outcome outcome' → Twin ok sees V (next outcome) (next' outcome')) →
      Twin ok sees V (.call op next) (.call op next')

namespace Twin
variable {ok : S.Op → Prop} {sees : (op : S.Op) → S.Res op → S.Res op → Prop} {α' β' : Type} {V : α → α' → Prop}
  {V' : β → β' → Prop}

theorem perform {op : S.Op} (allowed : ok op) : Twin ok sees (sees op) (.perform op : Prog S ε (S.Res op)) (.perform op) := by
  refine .call allowed fun outcome outcome' same => ?_
  cases outcome with
  | ok value =>
    cases outcome' with
    | ok value' => exact .ret same
    | error error' => exact same.elim
  | error error =>
    cases outcome' with
    | ok value' => exact same.elim
    | error error' =>
      cases same
      exact .raise error

theorem bind {program : Prog S ε α} {program' : Prog S ε α'} {rest : α → Prog S ε β} {rest' : α' → Prog S ε β'}
    (first : Twin ok sees V program program')
    (onward : ∀ value value', V value value' → Twin ok sees V' (rest value) (rest' value')) :
    Twin ok sees V' (program >>= rest) (program' >>= rest') := by
  induction first with
  | ret same => exact onward _ _ same
  | raise error => exact .raise error
  | call allowed _ ih => exact .call allowed ih

theorem catching {program : Prog S ε α} {program' : Prog S ε α'} {handler : ε → Prog S ε α} {handler' : ε → Prog S ε α'}
    (inside : Twin ok sees V program program') (handled : ∀ error, Twin ok sees V (handler error) (handler' error)) :
    Twin ok sees V (tryCatch program handler) (tryCatch program' handler') := by
  induction inside with
  | ret same => exact .ret same
  | raise error => exact handled error
  | call allowed _ ih => exact .call allowed ih

/-- A program is its own twin where it sees everything. -/
theorem self {p : S.Op → Prop} (sharp : ∀ op, p op → ok op ∧ ∀ value value', sees op value value' → value = value')
    {program : Prog S ε α} (only : program.Only p) : Twin ok sees Eq program program := by
  induction program with
  | ret value => exact .ret rfl
  | raise error => exact .raise error
  | call op next ih =>
    obtain ⟨allowed,equal⟩ := sharp op only.1
    refine .call allowed fun outcome outcome' same => ?_
    have outcomes : outcome = outcome' := by
      cases outcome with
      | ok value =>
        cases outcome' with
        | ok value' => exact congrArg Except.ok (equal value value' same)
        | error error' => exact same.elim
      | error error =>
        cases outcome' with
        | ok value' => exact same.elim
        | error error' => exact congrArg Except.error same
    exact outcomes ▸ ih outcome (only.2 outcome)

/-- The run of a program, whatever drifts beside it, has a twin that nothing drifts beside. -/
theorem runs {U : Type} {like : U → W → Prop} {drift : W → W → Prop} {X : α → α' → Prop}
    {step : (op : S.Op) → W → Except ε (S.Res op) → W → Prop} {step' : (op : S.Op) → U → Except ε (S.Res op) → U → Prop}
    (drifts : ∀ v w u, like v w → drift w u → like v u)
    (follows : ∀ op, ok op → ∀ v w outcome u, like v w → step op w outcome u →
      ∃ outcome' v', step' op v outcome' v' ∧ Same (sees op) outcome outcome' ∧ like v' u)
    {program : Prog S ε α} {program' : Prog S ε α'} (twin : Twin ok sees X program program') {v : U} {w u : W}
    {result : Except ε α} (start : like v w) (ran : Runs drift step program w result u) :
    ∃ result' v', Does step' program' v result' v' ∧ Same X result result' ∧ like v' u := by
  induction ran generalizing v program' with
  | ret moved =>
    cases twin with
    | ret same => exact ⟨_,v,Does.ret.mpr ⟨rfl,rfl⟩,same,drifts _ _ _ start moved⟩
  | raise moved =>
    cases twin with
    | raise error => exact ⟨_,v,Does.raise.mpr ⟨rfl,rfl⟩,rfl,drifts _ _ _ start moved⟩
  | call moved stepped _ ih =>
    cases twin with
    | call allowed onward =>
      obtain ⟨outcome',x,stepped',same,like'⟩ := follows _ allowed _ _ _ _ (drifts _ _ _ start moved) stepped
      obtain ⟨result',v',later,last⟩ := ih (onward _ _ same) like'
      exact ⟨result',v',Does.call.mpr ⟨outcome',x,stepped',later⟩,last⟩

end Twin

/-- Forward simulation: the calls of the program do not tell related states apart, and the drift of
    the second stays related to the first. -/
theorem Runs.follow {like : V → W → Prop} {drift : W → W → Prop}
    {step : (op : S.Op) → W → Except ε (S.Res op) → W → Prop} {step' : (op : S.Op) → V → Except ε (S.Res op) → V → Prop}
    {p : S.Op → Prop} (drifts : ∀ v w u, like v w → drift w u → like v u)
    (follows : ∀ op, p op → ∀ v w outcome u, like v w → step op w outcome u → ∃ v', step' op v outcome v' ∧ like v' u)
    {program : Prog S ε α} (only : program.Only p) {v : V} {w u : W} {result : Except ε α} (start : like v w)
    (ran : Runs drift step program w result u) : ∃ v', Does step' program v result v' ∧ like v' u := by
  have twin : Twin p (fun _ => Eq) Eq program program := Twin.self (fun _ allowed => ⟨allowed,fun _ _ same => same⟩) only
  have matched : ∀ op, p op → ∀ v w outcome u, like v w → step op w outcome u →
      ∃ outcome' v', step' op v outcome' v' ∧ Same Eq outcome outcome' ∧ like v' u := by
    intro op allowed v w outcome u alike stepped
    obtain ⟨v',stepped',like'⟩ := follows op allowed v w outcome u alike stepped
    refine ⟨outcome,v',stepped',?_,like'⟩
    cases outcome <;> rfl
  obtain ⟨result',v',ran',same,like'⟩ := twin.runs drifts matched start ran
  obtain rfl := same.of_eq
  exact ⟨v',ran',like'⟩

/-- The rules of a program that nobody else runs beside: the environment drifts, and the calls keep
    the invariant. -/
def single (drift : W → W → Prop) (step : (op : S.Op) → W → Except ε (S.Res op) → W → Prop) (inv : W → Prop) :
    Rules S ε W where
  step _ := step
  inv := inv
  rely _ := drift
  guar _ _ _ _ := True

section
variable {drift : W → W → Prop} {step : (op : S.Op) → W → Except ε (S.Res op) → W → Prop} {inv : W → Prop} {t : Nat}
  {P : W → Prop}

theorem single_lawful (refl : ∀ w, drift w w) (trans : ∀ {u v w}, drift u v → drift v w → drift u w) :
    (single drift step inv).Lawful := ⟨fun _ => refl,fun _ {_ _ _} => trans⟩

/-- A call of a program that runs alone. -/
theorem single_acts {op : S.Op} {Q : Except ε (S.Res op) → W → Prop}
    (post : ∀ w outcome v, inv w → P w → step op w outcome v → inv v ∧ Q outcome v) :
    Acts (single drift step inv) t P op Q where
  keeps w outcome v kept holds stepped := by
    obtain ⟨kept',left⟩ := post w outcome v kept holds stepped
    exact ⟨kept',trivial,left⟩

/-- A program is safe when all its runs from here come to what they should. -/
theorem Safe.of_runs {p : S.Op → Prop} (keeps : ∀ op, p op → ∀ w outcome v, inv w → step op w outcome v → inv v)
    {program : Prog S ε α} (only : program.Only p) {Q : Except ε α → W → Prop} {w : W}
    (post : ∀ result v, Runs (fun w v => drift w v ∧ inv v) step program w result v → Q result v) :
    Safe (single drift step inv) t program Q w := by
  induction program generalizing w with
  | ret value => exact fun v moved kept => post _ v (.ret ⟨moved,kept⟩)
  | raise error => exact fun v moved kept => post _ v (.raise ⟨moved,kept⟩)
  | call op next ih =>
    intro v moved kept outcome u stepped
    exact ⟨keeps op only.1 v outcome u kept stepped,trivial,
      ih outcome (only.2 outcome) fun result x later => post result x (.call ⟨moved,kept⟩ stepped later)⟩

/-- What all runs of a program come to is a triple about it. -/
theorem Triple.of_runs {p : S.Op → Prop} (keeps : ∀ op, p op → ∀ w outcome v, inv w → step op w outcome v → inv v)
    {program : Prog S ε α} (only : program.Only p) {Q : Except ε α → W → Prop}
    (post : ∀ w result v, inv w → P w → Runs (fun w v => drift w v ∧ inv v) step program w result v → Q result v) :
    Triple (single drift step inv) t P program Q :=
  fun w kept holds => Safe.of_runs keeps only fun result v ran => post w result v kept holds ran

end

/-- The rules of a thread whose calls are known to be within `R`: they may be assumed, and nothing is
    guaranteed anew. -/
def Rules.heard (R : Rules S ε W) : Rules S ε W where
  step t op w outcome v := R.step t op w outcome v ∧ R.inv v ∧ R.guar t op w v
  inv := R.inv
  rely := R.rely
  guar _ _ _ _ := True

section
variable {R : Rules S ε W} {t : Nat}

theorem Rules.Lawful.heard (lawful : R.Lawful) : R.heard.Lawful := ⟨lawful.refl,lawful.trans⟩

/-- A program that keeps to the rules comes to what is heard of it. -/
theorem Safe.heard {program : Prog S ε α} {Q Q' : Except ε α → W → Prop} {w : W} (safe : Safe R t program Q w)
    (heard : Safe R.heard t program Q' w) : Safe R t program Q' w := by
  induction program generalizing w with
  | ret value => exact heard
  | raise error => exact heard
  | call op next ih =>
    intro v moved kept outcome u stepped
    obtain ⟨kept',guaranteed,rest⟩ := safe v moved kept outcome u stepped
    exact ⟨kept',guaranteed,ih outcome rest (heard v moved kept outcome u ⟨stepped,kept',guaranteed⟩).2.2⟩

theorem Triple.heard {P : W → Prop} {program : Prog S ε α} {Q Q' : Except ε α → W → Prop} (triple : Triple R t P program Q)
    (heard : Triple R.heard t P program Q') : Triple R t P program Q' :=
  fun w kept holds => (triple w kept holds).heard (heard w kept holds)

theorem heard_acts {P : W → Prop} {op : S.Op} {Q : Except ε (S.Res op) → W → Prop}
    (post : ∀ w outcome v, R.inv w → R.inv v → P w → R.step t op w outcome v → R.guar t op w v → Q outcome v) :
    Acts R.heard t P op Q where
  keeps w outcome v kept holds stepped :=
    ⟨stepped.2.1,trivial,post w outcome v kept stepped.2.1 holds stepped.1 stepped.2.2⟩

/-- What is shown of a program in two ways holds together. -/
theorem Safe.both {program : Prog S ε α} {Q Q' : Except ε α → W → Prop} {w : W}
    (safe : Safe R t program Q w) (safe' : Safe R t program Q' w) :
    Safe R t program (fun outcome v => Q outcome v ∧ Q' outcome v) w := by
  induction program generalizing w with
  | ret value => exact fun v moved kept => ⟨safe v moved kept,safe' v moved kept⟩
  | raise error => exact fun v moved kept => ⟨safe v moved kept,safe' v moved kept⟩
  | call op next ih =>
    intro v moved kept outcome u stepped
    obtain ⟨kept',guaranteed,rest⟩ := safe v moved kept outcome u stepped
    exact ⟨kept',guaranteed,ih outcome rest (safe' v moved kept outcome u stepped).2.2⟩

end

/-- From a state with `A` the program returns in `B` or raises in `E`. -/
def Lands (R : Rules S ε W) (t : Nat) (A : W → Prop) (program : Prog S ε α) (E : W → Prop) (B : α → W → Prop) : Prop :=
  Triple R t A program fun outcome w =>
    match outcome with
    | .ok value => B value w
    | .error _ => E w

namespace Lands
variable {R : Rules S ε W} {t : Nat} {A A' E E' : W → Prop} {B B' : α → W → Prop}

theorem mono {program : Prog S ε α} (lands : Lands R t A program E B) (pre : ∀ w, R.inv w → A' w → A w)
    (raised : ∀ w, R.inv w → E w → E' w) (post : ∀ value w, R.inv w → B value w → B' value w) :
    Lands R t A' program E' B' := by
  refine Triple.consequence lands pre ?_
  intro outcome w kept holds
  cases outcome with
  | ok value => exact post value w kept holds
  | error error => exact raised w kept holds

/-- A fact that the assertion carries and that does not depend on the state. -/
theorem given {fact : Prop} {program : Prog S ε α} (known : ∀ w, A w → fact) (lands : fact → Lands R t A program E B) :
    Lands R t A program E B := fun w kept holds => lands (known w holds) w kept holds

/-- A value of which the assertion says that there is one. -/
theorem some {ι : Type} {X : ι → W → Prop} {program : Prog S ε α} (lands : ∀ i, Lands R t (X i) program E B) :
    Lands R t (fun w => ∃ i, X i w) program E B := fun w kept ⟨i,holds⟩ => lands i w kept holds

theorem ret {value : α} (stable : Stable R t A) (post : ∀ w, R.inv w → A w → B value w) :
    Lands R t A (.ret value : Prog S ε α) E B := Triple.ret stable post

theorem raise {error : ε} (stable : Stable R t A) (post : ∀ w, R.inv w → A w → E w) :
    Lands R t A (.raise error : Prog S ε α) E B := Triple.raise stable post

theorem bind (lawful : R.Lawful) {program : Prog S ε α} {rest : α → Prog S ε β} {C : β → W → Prop}
    (first : Lands R t A program E B) (onward : ∀ value, Lands R t (B value) (rest value) E C) :
    Lands R t A (program >>= rest) E C := Triple.bind lawful first onward fun _ _ _ holds => holds

theorem catching (lawful : R.Lawful) {body : Prog S ε α} {handler : ε → Prog S ε α} (inside : Lands R t A body E' B)
    (handled : ∀ error, Lands R t E' (handler error) E B) : Lands R t A (tryCatch body handler) E B :=
  Triple.catching lawful inside (fun _ _ _ holds => holds) handled

theorem when {condition : Bool} {body : Prog S ε Unit} {B : Unit → W → Prop} (stable : Stable R t A)
    (runs : condition = true → Lands R t A body E B) (skips : condition = false → ∀ w, R.inv w → A w → B () w) :
    Lands R t A (Prog.when condition body) E B := by
  cases condition with
  | false => exact ret stable (skips rfl)
  | true => exact runs rfl

/-- A program whose calls all keep an assertion. -/
theorem only {p : S.Op → Prop} (stable : Stable R t A) (acts : ∀ op, p op → Acts R t A op fun _ => A)
    {program : Prog S ε α} (only : program.Only p) : Lands R t A program A fun _ => A := by
  refine Triple.consequence (Triple.only stable acts only) (fun _ _ holds => holds) ?_
  intro outcome w _ holds
  cases outcome <;> exact holds

/-- A loop: `X done values` holds once the elements `done` gave `values`. -/
theorem each (lawful : R.Lawful) {X : List β → List α → W → Prop} (stable : ∀ done values, Stable R t (X done values))
    {body : β → Prog S ε α} {xs : List β}
    (turn : ∀ done x rest values, xs = done ++ x :: rest →
      Lands R t (X done values) (body x) E fun value => X (done ++ [x]) (values ++ [value])) :
    Lands R t (X [] []) (Prog.each xs body) E fun values => X xs values := by
  refine (Triple.each (E := fun _ => E) lawful stable fun done x rest values split => ?_).consequence
    (fun _ _ holds => holds) ?_
  · refine (turn done x rest values split).consequence (fun _ _ holds => holds) ?_
    intro outcome w _ holds
    cases outcome <;> exact holds
  · intro outcome w _ holds
    cases outcome <;> exact holds

end Lands
end Klados.Effects
