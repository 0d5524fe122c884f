import Klados.Interleave

/-!
Rules that differ from request to request. Where a system is sound under rules that all its
threads share, every request may have rules of its own on top of them, which may use what the
shared rules say about each call (`Roles`). Then every thread keeps to the rules of the request
that started it, in every state reached (`Sound.roles`), and so does every call that it makes
(`Sound.called`).
-/
namespace Klados.Effects

section
variable {S : Sig} {ε α Req W C E : Type}

/-- Rules for each request, on top of the shared rules `R`. They have one invariant. -/
structure Roles (m : Machine S ε α Req W C E) (R : Rules S ε W) (unborn : Nat → W → Prop) (N : Req → Rules S ε W)
    (inv : W → Prop) (Q : Req → Except ε α → W → Prop) : Prop where
  lawful : ∀ req, (N req).Lawful
  shared : ∀ req, (N req).inv = inv
  calls : ∀ req t op choice w outcome v, R.inv w → R.inv v → R.guar t op w v →
    m.exec t op choice w = some (outcome,v) → (N req).step t op w outcome v
  others : ∀ req req' t t' op w v, t ≠ t' → R.inv w → R.guar t' op w v → inv w → inv v → (N req').guar t' op w v →
    (N req).rely t w v
  envs : ∀ move w v, R.inv w → inv w → m.env move w = some v → inv v ∧ ∀ req t, (N req).rely t w v
  reboots : ∀ w, R.inv w → inv w → inv (m.reboot w)
  bodies : ∀ req t, Triple (N req) t (unborn t) (m.body req) (Q req)

/-- Every thread is safe under the rules of its request. -/
structure Cast (N : Req → Rules S ε W) (inv : W → Prop) (Q : Req → Except ε α → W → Prop) (pool : Pool S ε α Req W) :
    Prop where
  kept : inv pool.world
  safe : ∀ t thread, pool.threads[t]? = some thread → Safe (N thread.req) t thread.prog (Q thread.req) pool.world

variable {m : Machine S ε α Req W C E} {ok : Pool S ε α Req W → Action Req C E → Prop} {R : Rules S ε W}
  {unborn : Nat → W → Prop} {Q : Nat → Req → Except ε α → W → Prop} {N : Req → Rules S ε W} {inv : W → Prop}
  {Q' : Req → Except ε α → W → Prop} {pool later : Pool S ε α Req W}

theorem Cast.idle (start : inv pool.world) (none : pool.threads = []) : Cast N inv Q' pool :=
  ⟨start,fun t thread found => by simp [none] at found⟩

/-- What a call of a thread guarantees, under the rules of its request. -/
theorem Cast.call (roles : Roles m R unborn N inv Q') (cast : Cast N inv Q' pool) {t : Nat} {choice : C} {req : Req}
    {op : S.Op} {next : Except ε (S.Res op) → Prog S ε α} {outcome : Except ε (S.Res op)} {v : W}
    (found : pool.threads[t]? = some ⟨req,.call op next⟩) (kept : R.inv pool.world) (kept' : R.inv v)
    (guaranteed : R.guar t op pool.world v) (executed : m.exec t op choice pool.world = some (outcome,v)) :
    inv v ∧ (N req).guar t op pool.world v ∧ Safe (N req) t (next outcome) (Q' req) v := by
  have step := roles.calls req t op choice pool.world outcome v kept kept' guaranteed executed
  have safe := cast.safe t _ found pool.world ((roles.lawful req).refl t pool.world) (roles.shared req ▸ cast.kept)
  obtain ⟨inv',own,rest⟩ := safe outcome v step
  exact ⟨roles.shared req ▸ inv',own,rest⟩

/-- One allowed action leaves every thread within the rules of its request. -/
theorem Cast.act (roles : Roles m R unborn N inv Q') (healthy : Healthy R unborn Q pool)
    (healthy' : Healthy R unborn Q later) (cast : Cast N inv Q' pool) {action : Action Req C E}
    (acted : m.act pool action = some later)
    (guaranteed : ∀ t choice op, action = .call t choice → pool.about t = some op → R.guar t op pool.world later.world) :
    Cast N inv Q' later := by
  cases action with
  | request req =>
    cases Option.some.inj acted
    refine ⟨cast.kept,?_⟩
    intro t thread found
    rcases Nat.lt_or_ge t pool.threads.length with old | new
    · exact cast.safe t thread (by simpa [List.getElem?_append_left old] using found)
    · rw [List.getElem?_append_right new] at found
      obtain ⟨inside,same⟩ := List.getElem?_eq_some_iff.mp found
      have first : t - pool.threads.length = 0 := by simpa using inside
      obtain rfl : thread = ⟨req,m.body req⟩ := by simpa [first] using same.symm
      exact roles.bodies req t pool.world (roles.shared req ▸ cast.kept) (healthy.next t new)
  | call t choice =>
    simp only [Machine.act] at acted
    split at acted
    · rename_i req op next found
      obtain ⟨⟨outcome,v⟩,executed,same⟩ := Option.map_eq_some_iff.mp acted
      subst same
      have called := guaranteed t choice op rfl (by simp [Pool.about,found])
      obtain ⟨kept,own,rest⟩ := cast.call roles found healthy.inv healthy'.inv called executed
      have inside : t < pool.threads.length := (List.getElem?_eq_some_iff.mp found).1
      refine ⟨kept,?_⟩
      intro t' thread found'
      by_cases same : t' = t
      · subst same
        simp only [List.getElem?_set_self inside] at found'
        cases Option.some.inj found'
        exact rest
      · simp only [List.getElem?_set_ne (Ne.symm same)] at found'
        refine (cast.safe t' thread found').later (roles.lawful thread.req) ?_
        exact roles.others thread.req req t' t op _ v same healthy.inv called cast.kept kept own
    · cases acted
  | env move =>
    obtain ⟨v,moved,same⟩ := Option.map_eq_some_iff.mp acted
    subst same
    obtain ⟨kept,relied⟩ := roles.envs move pool.world v healthy.inv cast.kept moved
    exact ⟨kept,fun t thread found => (cast.safe t thread found).later (roles.lawful thread.req) (relied thread.req t)⟩
  | reboot =>
    cases Option.some.inj acted
    exact .idle (roles.reboots _ healthy.inv cast.kept) rfl

/-- In every state reached, every thread is safe under the rules of its request. -/
theorem Sound.roles (sound : Sound m ok R unborn Q) (roles : Roles m R unborn N inv Q') (healthy : Healthy R unborn Q pool)
    (cast : Cast N inv Q' pool) (reached : m.Reach ok pool later) : Healthy R unborn Q later ∧ Cast N inv Q' later := by
  refine sound.induct ?_ healthy cast reached
  intro middle action last _ acted well well' guaranteed kept
  exact kept.act roles well well' acted guaranteed

/-- Every call that a thread makes is one that the rules of its request allow. -/
theorem Sound.called (sound : Sound m ok R unborn Q) (roles : Roles m R unborn N inv Q') (healthy : Healthy R unborn Q pool)
    (cast : Cast N inv Q' pool) {t : Nat} {choice : C} {req : Req} {op : S.Op} {next : Except ε (S.Res op) → Prog S ε α}
    {outcome : Except ε (S.Res op)} {v : W} (found : pool.threads[t]? = some ⟨req,.call op next⟩)
    (allowed : ok pool (.call t choice)) (executed : m.exec t op choice pool.world = some (outcome,v)) :
    inv v ∧ R.guar t op pool.world v ∧ (N req).guar t op pool.world v := by
  have step := sound.calls pool t choice req op next outcome v found allowed healthy.inv executed
  have before := healthy.safe t _ found pool.world (sound.lawful.refl t pool.world) healthy.inv
  obtain ⟨kept,guaranteed,_⟩ := before outcome v step
  obtain ⟨kept',own,_⟩ := cast.call roles found healthy.inv kept guaranteed executed
  exact ⟨kept',guaranteed,own⟩

end

section
variable {S : Sig} {ε α β W : Type} {R : Rules S ε W} {t : Nat} {K : W → Prop}

/-- The program keeps the assertion, whether it returns or raises. -/
abbrev Stays (R : Rules S ε W) (t : Nat) (K : W → Prop) (program : Prog S ε α) : Prop :=
  Triple R t K program fun _ => K

/-- A step from which something more is known, if it returns. -/
abbrev Learns (R : Rules S ε W) (t : Nat) (K : W → Prop) (program : Prog S ε α) (X : α → W → Prop) : Prop :=
  Triple R t K program fun outcome w => K w ∧ Ends X outcome w

theorem Stays.ret (stable : Stable R t K) (value : α) : Stays R t K (.ret value) :=
  Triple.ret stable fun _ _ holds => holds

theorem Stays.raise (stable : Stable R t K) (error : ε) : Stays R t K (.raise error : Prog S ε α) :=
  Triple.raise stable fun _ _ holds => holds

theorem Stays.ofOutcome (stable : Stable R t K) (outcome : Except ε α) : Stays R t K (Prog.ofOutcome outcome) := by
  cases outcome with
  | ok value => exact Stays.ret stable value
  | error error => exact Stays.raise stable error

theorem Stays.bind (lawful : R.Lawful) {program : Prog S ε α} {rest : α → Prog S ε β} (first : Stays R t K program)
    (onward : ∀ value, Stays R t K (rest value)) : Stays R t K (program.bind rest) :=
  Triple.bind lawful first onward fun _ _ _ holds => holds

theorem Stays.learn (lawful : R.Lawful) {program : Prog S ε α} {rest : α → Prog S ε β} {X : α → W → Prop}
    (first : Learns R t K program X) (onward : ∀ value, Stays R t (fun w => K w ∧ X value w) (rest value)) :
    Stays R t K (program.bind rest) := by
  refine Triple.bind lawful first ?_ fun _ _ _ holds => holds.1
  exact fun value => (onward value).consequence (fun _ _ holds => holds) fun _ _ _ holds => holds.1

theorem Stays.catching (lawful : R.Lawful) {program : Prog S ε α} {handler : ε → Prog S ε α}
    (first : Stays R t K program) (handled : ∀ error, Stays R t K (handler error)) :
    Stays R t K (program.catching handler) := by
  refine Triple.catching lawful first (fun _ _ _ holds => holds) ?_
  exact handled

theorem Stays.when (stable : Stable R t K) {condition : Bool} {body : Prog S ε Unit} (runs : Stays R t K body) :
    Stays R t K (Prog.when condition body) := by
  cases condition
  · exact Stays.ret stable ()
  · exact runs

theorem Stays.each (lawful : R.Lawful) (stable : Stable R t K) {xs : List β} {body : β → Prog S ε α}
    (turn : ∀ x ∈ xs, Stays R t K (body x)) : Stays R t K (Prog.each xs body) := by
  induction xs with
  | nil => exact Stays.ret stable []
  | cons x rest ih =>
    refine Stays.bind lawful (turn x (by simp)) fun value => ?_
    refine Stays.bind lawful (ih fun y member => turn y (by simp [member])) fun values => ?_
    exact Stays.ret stable (value :: values)

/-- A program all of whose calls keep the assertion. -/
theorem Stays.only {p : S.Op → Prop} (stable : Stable R t K) (acts : ∀ op, p op → Acts R t K op fun _ => K)
    {program : Prog S ε α} (only : program.Only p) : Stays R t K program := Triple.only stable acts only

/-- A program without calls. -/
theorem Stays.silent (stable : Stable R t K) {program : Prog S ε α} (only : program.Only fun _ => False) :
    Stays R t K program := Triple.only stable (fun _ called => called.elim) only

end
end Klados.Effects
