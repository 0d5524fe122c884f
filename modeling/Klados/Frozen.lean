import Klados.Hook
import Mathlib.Data.List.Induction

/-!
What the hook keeps from the children of a snapshot. A snapshot freezes the workload between any two of its
steps; in each child the agent bumps `forkgen` before the workload goes on. Then a draw of the child comes from
generators that were seeded in the child itself, unless the workload was frozen in a wrapped draw between its
check and the draw: that goes on with the generator as it was before the fork, in every child (`draws_reseeded`).
-/
namespace Klados.Hook
open Files (Bytes)

variable {L : Libraries}

/-- `int(text)` of a text of digits, as the agent writes it. -/
def int (text : String) : Option Nat :=
  if text ≠ "" ∧ text.toList.all Char.isDigit then some (Nat.ofDigitChars 10 text.toList 0) else none

/-- `_bump_gen`: a generation that cannot be read counts as 0. -/
def _bump_gen (forkgen : Option String) : Nat := (((_read_gen forkgen).bind int).getD 0) + 1

/-- A step of the process, or its snapshot: what is continued is a child in which the agent has bumped `forkgen`.
    Other children of the same snapshot are other ways to go on. -/
inductive Event (L : Libraries)
  | step (a : Action L)
  | fork

/-- The child that is continued. -/
def Process.forked (s : Process L) : Process L :=
  { s with mem := { s.mem with forkgen := some (toString (_bump_gen s.mem.forkgen)) } }

/-- Nothing but the agent writes `forkgen`. -/
def Process.next (s : Process L) : Event L → Option (Process L)
  | .step (.write _) => none
  | .step a => Hook.next s a
  | .fork => some s.forked

/-- A process, its children and their children: each fork goes on in one of them. -/
def Process.run (s : Process L) (events : List (Event L)) : Option (Process L) := events.foldlM Process.next s

/-- A child goes on like this until a draw returns the value. -/
structure Returns (s : Process L) (actions : List (Action L)) (d : Draw) (value : L.Value) : Prop where
  own : ∀ forkgen, .write forkgen ∉ actions
  ran : (run s (actions ++ [.draw d])).isSome
  value : values s (actions ++ [.draw d]) = values s actions ++ [value]

/-- Generators that were seeded with two results of `os.urandom`, after what the application has done since. -/
def seeded (urandom : Bytes × Bytes) (pool : L.Pool) (since : List (Action L)) : Generators L :=
  since.foldl used ⟨L.seed (L.bytes urandom.1),L.RAND_add urandom.2 pool⟩

/-- The generators were last seeded in one of these actions, with what `os.urandom` returned there. -/
def Seeded (s : Process L) (actions : List (Action L)) (urandom : Bytes × Bytes) (g : Generators L) : Prop :=
  ∃ before a since u, actions = before ++ a :: since ∧ (a = .app urandom ∨ a = .poller urandom) ∧ run s before = some u ∧
    reseeding u a = true ∧ g = seeded urandom u.mem.generators.pool since

/-- The value is drawn from generators that were seeded in one of these actions. -/
def Own (s : Process L) (actions : List (Action L)) (d : Draw) (value : L.Value) (urandom : Bytes × Bytes) : Prop :=
  ∃ g, Seeded s actions urandom g ∧ value = (d.orig g).1

/-- What `os.urandom` returns if the step reseeds. -/
def Action.urandom : Action L → Option (Bytes × Bytes)
  | .app urandom | .poller urandom => some urandom
  | _ => none

/-- `os.urandom` returns nothing twice. -/
def Apart (one other : List (Action L)) : Prop :=
  ∀ a ∈ one, ∀ b ∈ other, ∀ u u', a.urandom = some u → b.urandom = some u' → u.1 ≠ u'.1 ∧ u.2 ≠ u'.2

/-- The application is not in a wrapped draw that goes on to draw without another reseed. -/
def Clear (s : Process L) : Prop :=
  match s.app with
  | none | some (_,.read) | some (_,.recorded _) | some (_,.reseed _) => True
  | some (_,.compare (some g)) => s.mem.gen ≠ some g ∧ s.poller ≠ .record g
  | some (_,.compare none) | some (_,.record _) | some (_,.done) => False

/-- The text of a generation up to this one. -/
def Upto (n : Nat) (text : String) : Prop := ∃ k ≤ n, text = toString k

/-- A thread holds generations up to this one. -/
def Point.upto (n : Nat) : Point → Prop
  | .compare g => ∃ text, g = some text ∧ Upto n text
  | .recorded g | .reseed g | .record g => Upto n g
  | .read | .done => True

/-- The file holds this generation, and nothing holds a later one. -/
structure Counted (n : Nat) (s : Process L) : Prop where
  forkgen : s.mem.forkgen = some (toString n)
  gen : ∃ text, s.mem.gen = some text ∧ Upto n text
  app : ∀ d p, s.app = some (d,p) → p.upto n
  poller : s.poller.upto n

/-- Nothing was reseeded for this generation, and the next draw of the application is still to come to its reseed. -/
structure Unspoiled (n : Nat) (s : Process L) : Prop where
  gen : s.mem.gen ≠ some (toString n)
  poller : s.poller ≠ .record (toString n)
  clear : Clear s

section
variable {n m : Nat} {s u v : Process L} {a : Action L} {mem : Memory L} {p : Point} {actions : List (Action L)}

theorem toString_digits (n : Nat) : (toString n).toList = Nat.toDigits 10 n := Nat.toList_repr

theorem isDigit_toString {d : Char} (inside : d ∈ (toString n).toList) : d.isDigit = true := by
  rw [toString_digits] at inside
  exact Nat.isDigit_of_mem_toDigits (by decide) (by decide) inside

theorem ofDigits_toString (n : Nat) : Nat.ofDigitChars 10 (toString n).toList 0 = n := by
  rw [toString_digits,Nat.ofDigitChars_ten_toDigits]

theorem strip_toString (n : Nat) : strip (toString n) = toString n := by
  have digits : ∀ c ∈ (toString n).toList, isSpace c = false := by
    intro c inside
    have digit := isDigit_toString inside
    simp only [Char.isDigit,Bool.and_eq_true,decide_eq_true_eq] at digit
    have low : 48 ≤ c.toNat := digit.1
    have high : c.toNat ≤ 57 := digit.2
    simp only [isSpace,Bool.or_eq_false_iff,Bool.and_eq_false_iff,decide_eq_false_iff_not]
    omega
  have keep : ∀ chars : List Char, (∀ c ∈ chars, isSpace c = false) → chars.dropWhile isSpace = chars := by
    intro chars clean
    cases chars with
    | nil => rfl
    | cons first rest => rw [List.dropWhile_cons_of_neg (by simp [clean first (List.mem_cons_self ..)])]
  rw [strip,keep _ digits,keep _ (fun c inside => digits c (List.mem_reverse.mp inside)),List.reverse_reverse,
    String.ofList_toList]

theorem read_toString (n : Nat) : _read_gen (some (toString n)) = some (toString n) := congrArg some (strip_toString n)

theorem bump_toString (n : Nat) : _bump_gen (some (toString n)) = n + 1 := by
  have some_digit : toString n ≠ "" := by
    intro same
    have none : Nat.toDigits 10 n = [] := by rw [← toString_digits,same]; rfl
    exact Nat.toDigits_ne_nil none
  have parsed : int (toString n) = some n := by
    rw [int,if_pos ⟨some_digit,List.all_eq_true.mpr fun _ inside => isDigit_toString inside⟩,ofDigits_toString]
  rw [_bump_gen,read_toString,Option.bind_some,parsed]
  rfl

theorem Upto.mono {text : String} (upto : Upto n text) (le : n ≤ m) : Upto m text := by
  obtain ⟨k,bound,same⟩ := upto
  exact ⟨k,Nat.le_trans bound le,same⟩

theorem Upto.ne_next {text : String} (upto : Upto n text) : text ≠ toString (n + 1) := by
  obtain ⟨k,bound,rfl⟩ := upto
  intro same
  have equal := ofDigits_toString k
  rw [same,ofDigits_toString] at equal
  omega

theorem Point.upto_mono (upto : p.upto n) (le : n ≤ m) : p.upto m := by
  cases p with
  | compare g =>
    obtain ⟨text,same,bound⟩ := upto
    exact ⟨text,same,bound.mono le⟩
  | recorded g | reseed g | record g => exact Upto.mono upto le
  | read | done => trivial

/-- A step of `_maybe_reseed` holds no later generation than before. -/
theorem maybe_reseed_upto (forkgen : mem.forkgen = some (toString n)) (gen : ∃ text, mem.gen = some text ∧ Upto n text)
    (upto : p.upto n) (urandom : Bytes × Bytes) :
    (_maybe_reseed urandom mem p).1.upto n ∧ (_maybe_reseed urandom mem p).2.forkgen = some (toString n) ∧
      ∃ text, (_maybe_reseed urandom mem p).2.gen = some text ∧ Upto n text := by
  cases p with
  | read =>
    refine ⟨⟨toString n,?_,n,Nat.le_refl n,rfl⟩,forkgen,gen⟩
    rw [forkgen,read_toString]
  | compare g =>
    obtain ⟨text,rfl,bound⟩ := upto
    simp only [_maybe_reseed]
    split
    · exact ⟨bound,forkgen,gen⟩
    · exact ⟨trivial,forkgen,gen⟩
  | recorded g =>
    simp only [_maybe_reseed]
    split <;> exact ⟨upto,forkgen,gen⟩
  | reseed g => exact ⟨upto,forkgen,gen⟩
  | record g => exact ⟨trivial,forkgen,g,rfl,upto⟩
  | done => exact ⟨trivial,forkgen,gen⟩

/-- Step: nothing holds a later generation than the file. -/
theorem Counted.step (counted : Counted n s) (own : ∀ forkgen, a ≠ .write forkgen) (stepped : next s a = some v) :
    Counted n v := by
  cases a with
  | write forkgen => exact absurd rfl (own forkgen)
  | call d =>
    simp only [Hook.next] at stepped
    split at stepped <;> cases stepped
    refine ⟨counted.forkgen,counted.gen,?_,counted.poller⟩
    rintro d p ⟨⟩
    trivial
  | app urandom =>
    simp only [Hook.next] at stepped
    split at stepped
    · rename_i d p inside
      split at stepped <;> cases stepped
      obtain ⟨upto,forkgen,gen⟩ := maybe_reseed_upto counted.forkgen counted.gen (counted.app d p inside) urandom
      refine ⟨forkgen,gen,?_,counted.poller⟩
      rintro d p ⟨⟩
      exact upto
    · cases stepped
  | draw d =>
    simp only [Hook.next] at stepped
    split at stepped <;> cases stepped
    refine ⟨counted.forkgen,counted.gen,?_,counted.poller⟩
    rintro d p ⟨⟩
  | seed a =>
    simp only [Hook.next] at stepped
    split at stepped <;> cases stepped
    exact ⟨counted.forkgen,counted.gen,counted.app,counted.poller⟩
  | poller urandom =>
    simp only [Hook.next] at stepped
    split at stepped <;> cases stepped
    · exact ⟨counted.forkgen,counted.gen,counted.app,trivial⟩
    · obtain ⟨upto,forkgen,gen⟩ := maybe_reseed_upto counted.forkgen counted.gen counted.poller urandom
      exact ⟨forkgen,gen,counted.app,upto⟩

theorem Clear.of_idle (idle : s.app = none) : Clear s := by
  rw [Clear,idle]
  trivial

/-- The application is left alone where another thread moves on: what it compares with changes only to a generation
    that is not the one it has read. -/
theorem Clear.aside (clear : Clear s) {gen : Option String} {poller : Point} (apart : ∀ g, poller ≠ .record g)
    (which : gen = s.mem.gen ∨ ∃ g, s.poller = .record g ∧ gen = some g) :
    Clear { s with mem := { s.mem with gen }, poller } := by
  unfold Clear at clear ⊢
  cases inside : s.app with
  | none => trivial
  | some draw =>
    obtain ⟨d,p⟩ := draw
    rw [inside] at clear
    cases p with
    | read | recorded | reseed => trivial
    | record | done => exact clear.elim
    | compare g =>
      cases g with
      | none => exact clear.elim
      | some g =>
        refine ⟨?_,apart g⟩
        rcases which with rfl | ⟨g',recording,rfl⟩
        · exact clear.1
        · intro same
          cases same
          exact clear.2 recording

/-- Step of the poller: it does not bring the application to draw without a reseed. -/
theorem Unspoiled.poller_step (counted : Counted n s) (unspoiled : Unspoiled n s) {urandom : Bytes × Bytes}
    (stepped : next s (.poller urandom) = some v) (quiet : s.poller.reseeds = false) : Unspoiled n v := by
  obtain ⟨text,gen,_⟩ := counted.gen
  simp only [Hook.next] at stepped
  split at stepped
  · cases stepped
    exact ⟨unspoiled.gen,Point.noConfusion,unspoiled.clear.aside (fun _ => Point.noConfusion) (.inl rfl)⟩
  · rename_i busy
    cases stepped
    cases point : s.poller with
    | read => exact ⟨unspoiled.gen,Point.noConfusion,unspoiled.clear.aside (fun _ => Point.noConfusion) (.inl rfl)⟩
    | compare g =>
      cases g with
      | none => exact ⟨unspoiled.gen,Point.noConfusion,unspoiled.clear.aside (fun _ => Point.noConfusion) (.inl rfl)⟩
      | some g =>
        simp only [_maybe_reseed]
        split
        · exact ⟨unspoiled.gen,Point.noConfusion,unspoiled.clear.aside (fun _ => Point.noConfusion) (.inl rfl)⟩
        · exact ⟨unspoiled.gen,Point.noConfusion,unspoiled.clear.aside (fun _ => Point.noConfusion) (.inl rfl)⟩
    | recorded g =>
      -- A generation is recorded, so the poller comes to its reseed first.
      have known : s.mem.gen ≠ none := by simp [gen]
      simp only [_maybe_reseed,if_pos known]
      exact ⟨unspoiled.gen,Point.noConfusion,unspoiled.clear.aside (fun _ => Point.noConfusion) (.inl rfl)⟩
    | reseed g =>
      rw [point] at quiet
      cases quiet
    | record g =>
      refine ⟨?_,Point.noConfusion,unspoiled.clear.aside (fun _ => Point.noConfusion) (.inr ⟨g,point,rfl⟩)⟩
      intro same
      cases same
      exact unspoiled.poller point
    | done => exact absurd point busy

/-- Step of the application in a wrapped draw: it comes nearer to its reseed. -/
theorem Unspoiled.app_step (counted : Counted n s) (unspoiled : Unspoiled n s) {urandom : Bytes × Bytes}
    (stepped : next s (.app urandom) = some v) (quiet : reseeding s (.app urandom) = false) : Unspoiled n v := by
  obtain ⟨text,gen,_⟩ := counted.gen
  have kept := unspoiled.clear
  simp only [Hook.next] at stepped
  split at stepped
  · rename_i d p inside
    rw [Clear,inside] at kept
    split at stepped <;> cases stepped
    cases p with
    | read =>
      refine ⟨unspoiled.gen,unspoiled.poller,?_⟩
      simp only [Clear,_maybe_reseed,counted.forkgen,read_toString]
      exact ⟨unspoiled.gen,unspoiled.poller⟩
    | compare g =>
      cases g with
      | none => exact kept.elim
      | some g =>
        have differs : some g ≠ s.mem.gen := kept.1.symm
        simp only [_maybe_reseed,if_pos differs]
        exact ⟨unspoiled.gen,unspoiled.poller,trivial⟩
    | recorded g =>
      have known : s.mem.gen ≠ none := by simp [gen]
      simp only [_maybe_reseed,if_pos known]
      exact ⟨unspoiled.gen,unspoiled.poller,trivial⟩
    | reseed g => simp [reseeding,inside,Point.reseeds] at quiet
    | record g | done => exact kept.elim
  · cases stepped

/-- Step: without a reseed, the next draw is still to come to its own. -/
theorem Unspoiled.step (counted : Counted n s) (unspoiled : Unspoiled n s) (own : ∀ forkgen, a ≠ .write forkgen)
    (stepped : next s a = some v) (quiet : reseeding s a = false) : Unspoiled n v ∧ ∀ d, a ≠ .draw d := by
  cases a with
  | write forkgen => exact absurd rfl (own forkgen)
  | call d =>
    simp only [Hook.next] at stepped
    split at stepped <;> cases stepped
    exact ⟨⟨unspoiled.gen,unspoiled.poller,trivial⟩,by simp⟩
  | app urandom => exact ⟨unspoiled.app_step counted stepped quiet,by simp⟩
  | draw d =>
    simp only [Hook.next] at stepped
    split at stepped
    · rename_i inside
      have kept := unspoiled.clear
      rw [Clear,inside] at kept
      exact kept.elim
    · cases stepped
  | seed a =>
    simp only [Hook.next] at stepped
    split at stepped <;> cases stepped
    rename_i idle
    exact ⟨⟨unspoiled.gen,unspoiled.poller,Clear.of_idle idle⟩,by simp⟩
  | poller urandom => exact ⟨unspoiled.poller_step counted stepped quiet,by simp⟩

/-- Step: a reseed seeds the generators with what `os.urandom` returns, and any other step changes them as the
    application does. -/
theorem generators_step (stepped : next s a = some v) :
    (reseeding s a = true ∧ ∃ urandom, (a = .app urandom ∨ a = .poller urandom) ∧
      v.mem.generators = ⟨L.seed (L.bytes urandom.1),L.RAND_add urandom.2 s.mem.generators.pool⟩) ∨
    (reseeding s a = false ∧ v.mem.generators = used s.mem.generators a) := by
  have moves : ∀ urandom p, (_maybe_reseed urandom s.mem p).2.generators =
      if p.reseeds then ⟨L.seed (L.bytes urandom.1),L.RAND_add urandom.2 s.mem.generators.pool⟩ else s.mem.generators := by
    intro urandom p
    cases p with
    | compare g => cases g <;> rfl
    | read | recorded | reseed | record | done => rfl
  cases a with
  | write forkgen =>
    cases stepped
    exact .inr ⟨rfl,rfl⟩
  | call d | draw d | seed a =>
    simp only [Hook.next] at stepped
    split at stepped <;> cases stepped
    exact .inr ⟨rfl,rfl⟩
  | app urandom =>
    simp only [Hook.next] at stepped
    split at stepped
    · rename_i d p inside
      split at stepped <;> cases stepped
      have which : reseeding s (.app urandom) = p.reseeds := by simp [reseeding,inside]
      rw [which,moves]
      cases p.reseeds with
      | true => exact .inl ⟨rfl,urandom,.inl rfl,rfl⟩
      | false => exact .inr ⟨rfl,rfl⟩
    · cases stepped
  | poller urandom =>
    simp only [Hook.next] at stepped
    split at stepped
    · rename_i finished
      cases stepped
      exact .inr ⟨by simp [reseeding,finished,Point.reseeds],rfl⟩
    · cases stepped
      rw [moves]
      cases reseeds : s.poller.reseeds with
      | true => exact .inl ⟨reseeds,urandom,.inr rfl,rfl⟩
      | false => exact .inr ⟨reseeds,rfl⟩

/-! ## Runs -/

theorem process_run_cons {e : Event L} {rest : List (Event L)} :
    s.run (e :: rest) = some v ↔ ∃ u, s.next e = some u ∧ u.run rest = some v := by
  rw [Process.run,List.foldlM_cons]
  exact Option.bind_eq_some_iff

theorem run_one : run s [a] = some v ↔ next s a = some v := by
  rw [run_cons]
  constructor
  · rintro ⟨u,stepped,same⟩
    cases same
    exact stepped
  · exact fun stepped => ⟨v,stepped,rfl⟩

theorem values_append {first rest : List (Action L)} (ran : run s first = some u) :
    values s (first ++ rest) = values s first ++ values u rest := by
  induction first generalizing s with
  | nil =>
    cases ran
    rfl
  | cons a first ih =>
    obtain ⟨w,stepped,later⟩ := run_cons.mp ran
    simp [values,stepped,ih later]

/-- The child that is continued is at a later generation than any that is held. -/
theorem Counted.forked (counted : Counted n s) : Counted (n + 1) s.forked := by
  obtain ⟨text,gen,upto⟩ := counted.gen
  refine ⟨?_,⟨text,gen,upto.mono (Nat.le_succ n)⟩,?_,Point.upto_mono counted.poller (Nat.le_succ n)⟩
  · show some (toString (_bump_gen s.mem.forkgen)) = _
    rw [counted.forkgen,bump_toString]
  · intro d p inside
    exact Point.upto_mono (counted.app d p inside) (Nat.le_succ n)

/-- Where the workload may be frozen, the next draw of the child is still to come to its reseed. -/
theorem Counted.unspoiled (counted : Counted n s) (clear : Clear s) : Unspoiled (n + 1) s.forked := by
  obtain ⟨text,gen,upto⟩ := counted.gen
  refine ⟨?_,?_,clear⟩
  · intro same
    have held : s.mem.gen = some (toString (n + 1)) := same
    rw [gen] at held
    exact upto.ne_next (Option.some.inj held)
  · intro same
    have held := counted.poller
    rw [show s.poller = .record (toString (n + 1)) from same] at held
    exact Upto.ne_next held rfl

/-- Run: nothing holds a later generation than the file, in the children of children too. -/
theorem counted_run {events : List (Event L)} (counted : Counted n s) (ran : s.run events = some v) :
    ∃ m, Counted m v := by
  induction events generalizing s n with
  | nil =>
    cases ran
    exact ⟨n,counted⟩
  | cons e rest ih =>
    obtain ⟨u,stepped,later⟩ := process_run_cons.mp ran
    cases e with
    | fork =>
      cases stepped
      exact ih counted.forked later
    | step a =>
      have own : ∀ forkgen, a ≠ .write forkgen := by
        rintro forkgen rfl
        cases stepped
      have moved : Hook.next s a = some u := by
        cases a with
        | write forkgen => exact absurd rfl (own forkgen)
        | call | app | draw | seed | poller => exact stepped
      exact ih (counted.step own moved) later

theorem counted_start (n : Nat) (g : Generators L) : Counted n (_start (some (toString n)) g) := by
  refine ⟨rfl,⟨toString n,read_toString n,n,Nat.le_refl n,rfl⟩,?_,trivial⟩
  rintro d p ⟨⟩

/-- Run of a child: its next draw is still to come to its reseed, or its generators were seeded in it. -/
theorem Unspoiled.run (counted : Counted n s) (unspoiled : Unspoiled n s) (own : ∀ forkgen, .write forkgen ∉ actions)
    (ran : run s actions = some v) :
    Counted n v ∧ (Unspoiled n v ∨ ∃ urandom, Seeded s actions urandom v.mem.generators) := by
  induction actions using List.reverseRecOn generalizing v with
  | nil =>
    cases ran
    exact ⟨counted,.inl unspoiled⟩
  | append_singleton actions a ih =>
    obtain ⟨u,before,last⟩ := run_append.mp ran
    have stepped := run_one.mp last
    have other : ∀ forkgen, a ≠ .write forkgen := by
      rintro forkgen rfl
      exact own forkgen (by simp)
    obtain ⟨counted',state⟩ := ih (fun forkgen inside => own forkgen (List.mem_append_left _ inside)) before
    refine ⟨counted'.step other stepped,?_⟩
    rcases generators_step stepped with ⟨reseeds,urandom,which,same⟩ | ⟨quiet,same⟩
    · exact .inr ⟨urandom,actions,a,[],u,rfl,which,before,reseeds,same⟩
    rcases state with unspoiled | ⟨urandom,front,b,since,w,rfl,which,earlier,reseeds,since_⟩
    · exact .inl (unspoiled.step counted' other stepped quiet).1
    · refine .inr ⟨urandom,front,b,since ++ [a],w,by simp,which,earlier,reseeds,?_⟩
      rw [same,since_,seeded,seeded,List.foldl_append]
      rfl

/-- The draw at the end, and the process that makes it. -/
theorem Returns.draw {d : Draw} {value : L.Value} (returns : Returns s actions d value) :
    ∃ v, run s actions = some v ∧ v.app = some (d,.done) ∧ value = (d.orig v.mem.generators).1 := by
  obtain ⟨w,ran⟩ := Option.isSome_iff_exists.mp returns.ran
  obtain ⟨v,before,last⟩ := run_append.mp ran
  have stepped := run_one.mp last
  refine ⟨v,before,?_,?_⟩
  · simp only [Hook.next] at stepped
    split at stepped
    · assumption
    · cases stepped
  · have drawn := returns.value
    rw [values_append before,List.append_cancel_left_eq] at drawn
    simp only [values,stepped,Hook.drawn,Option.map_some,Option.getD_some,List.append_nil,List.cons.injEq] at drawn
    exact drawn.1.symm

theorem Returns.of_draw {d : Draw} (own : ∀ forkgen, .write forkgen ∉ actions) (ran : run s actions = some v)
    (inside : v.app = some (d,.done)) : Returns s actions d (d.orig v.mem.generators).1 where
  own := own
  ran := by
    have drawn : ∃ w, Hook.next v (.draw d) = some w := by simp [Hook.next,inside]
    obtain ⟨w,stepped⟩ := drawn
    rw [run_append.mpr ⟨v,ran,run_cons.mpr ⟨w,stepped,rfl⟩⟩]
    rfl
  value := by
    rw [values_append ran]
    simp [values,Hook.drawn,Hook.next,inside]

/-- A child of a workload that was frozen where it may be frozen draws from generators of its own. -/
theorem Counted.own {d : Draw} {value : L.Value} (counted : Counted n s) (clear : Clear s)
    (returns : Returns s.forked actions d value) : ∃ urandom, Own s.forked actions d value urandom := by
  obtain ⟨v,ran,inside,drawn⟩ := returns.draw
  obtain ⟨_,unspoiled | ⟨urandom,fresh⟩⟩ := (counted.unspoiled clear).run counted.forked returns.own ran
  · have kept := unspoiled.clear
    rw [Clear,inside] at kept
    exact kept.elim
  · exact ⟨urandom,_,fresh,drawn⟩

theorem Seeded.reseeds {urandom : Bytes × Bytes} {g : Generators L} (fresh : Seeded s actions urandom g) :
    reseeds s actions = true := by
  obtain ⟨before,a,since,u,rfl,_,ran,reseeding_,_⟩ := fresh
  induction before generalizing s with
  | nil =>
    cases ran
    simp [reseeds,reseeding_]
  | cons b before ih =>
    obtain ⟨w,stepped,later⟩ := run_cons.mp ran
    simp [Hook.reseeds,stepped,ih later]

theorem Own.urandom_mem {urandom : Bytes × Bytes} {d : Draw} {value : L.Value} (own : Own s actions d value urandom) :
    ∃ a ∈ actions, a.urandom = some urandom := by
  obtain ⟨g,⟨before,a,since,u,rfl,which,_⟩,_⟩ := own
  refine ⟨a,by simp,?_⟩
  rcases which with rfl | rfl <;> rfl

theorem unwritten {urandom : Bytes × Bytes} (which : ∀ a ∈ actions, a = .app urandom ∨ a = .poller urandom)
    (forkgen : Option String) : .write forkgen ∉ actions := by
  intro inside
  rcases which _ inside with same | same <;> cases same

/-- Where the workload may not be frozen, a child goes on to draw from what was frozen, whatever `os.urandom`
    returns in it. -/
theorem frozen_draws (frozen : ¬ Clear s) (urandom : Bytes × Bytes) : ∃ actions d v,
    (∀ a ∈ actions, a = .app urandom ∨ a = .poller urandom) ∧ reseeds s.forked actions = false ∧
      run s.forked actions = some v ∧ v.app = some (d,.done) ∧ v.mem.generators = s.mem.generators := by
  obtain ⟨⟨forkgen,gen,g⟩,app,poller⟩ := s
  cases app with
  | none => exact absurd trivial frozen
  | some draw =>
    obtain ⟨d,p⟩ := draw
    cases p with
    | read | recorded | reseed => exact absurd trivial frozen
    | done => exact ⟨[],d,_,by simp,rfl,rfl,rfl,rfl⟩
    | record text =>
      refine ⟨[.app urandom],d,_,by simp,?_,run_cons.mpr ⟨_,rfl,rfl⟩,rfl,rfl⟩
      simp [Process.forked,reseeds,reseeding,Point.reseeds]
    | compare read =>
      cases read with
      | none =>
        refine ⟨[.app urandom],d,_,by simp,?_,run_cons.mpr ⟨_,rfl,rfl⟩,rfl,rfl⟩
        simp [Process.forked,reseeds,reseeding,Point.reseeds]
      | some text =>
        by_cases same : gen = some text
        · subst same
          refine ⟨[.app urandom],d,_,by simp,?_,run_cons.mpr ⟨_,rfl,rfl⟩,?_,?_⟩
          · simp [Process.forked,reseeds,reseeding,Point.reseeds]
          · simp [Process.forked]
          · rfl
        · -- The poller records what the application has read before it compares.
          have recording : poller = .record text := by
            by_contra other
            exact frozen ⟨same,other⟩
          subst recording
          refine ⟨[.poller urandom,.app urandom],d,_,by simp,?_,run_cons.mpr ⟨_,rfl,run_cons.mpr ⟨_,rfl,rfl⟩⟩,?_,?_⟩
          · simp [Process.forked,reseeds,reseeding,Point.reseeds,next,_maybe_reseed]
          · simp
          · rfl

end

/-- At every stop of every run, of the first process and of its children: if and only if the workload is frozen where
    it may be frozen, each draw of each child returns a value from generators that were seeded in that child with what
    its own `os.urandom` returned, and used by its application alone since. So two children draw from generators that
    were seeded with different bytes. A stop elsewhere leaves every child a way to return the value that the frozen
    generators give, whatever its `os.urandom` returns. -/
theorem draws_reseeded (n : Nat) (g : Generators L) {events : List (Event L)} {s : Process L}
    (ran : (_start (some (toString n)) g).run events = some s) :
    (Clear s ↔ ∀ actions d value, Returns s.forked actions d value → ∃ urandom, Own s.forked actions d value urandom) ∧
    (Clear s → ∀ one other d d' value value', Returns s.forked one d value → Returns s.forked other d' value' →
      Apart one other → ∃ urandom urandom', Own s.forked one d value urandom ∧ Own s.forked other d' value' urandom' ∧
        urandom.1 ≠ urandom'.1 ∧ urandom.2 ≠ urandom'.2) ∧
    (¬ Clear s → ∀ urandom, ∃ actions d, (∀ a ∈ actions, a = .app urandom ∨ a = .poller urandom) ∧
      Returns s.forked actions d (d.orig s.mem.generators).1) := by
  obtain ⟨m,counted⟩ := counted_run (counted_start n g) ran
  refine ⟨⟨fun clear actions d value => counted.own clear,?_⟩,?_,?_⟩
  · intro own
    by_contra frozen
    obtain ⟨actions,d,v,which,quiet,ran,inside,same⟩ := frozen_draws frozen ([],[])
    obtain ⟨urandom,_,fresh,_⟩ := own actions d _ (.of_draw (unwritten which) ran inside)
    rw [fresh.reseeds] at quiet
    cases quiet
  · intro clear one other d d' value value' returns returns' apart
    obtain ⟨urandom,own⟩ := counted.own clear returns
    obtain ⟨urandom',own'⟩ := counted.own clear returns'
    obtain ⟨a,inside,drawn⟩ := own.urandom_mem
    obtain ⟨b,inside',drawn'⟩ := own'.urandom_mem
    exact ⟨urandom,urandom',own,own',apart a inside b inside' _ _ drawn drawn'⟩
  · intro frozen urandom
    obtain ⟨actions,d,v,which,_,ran,inside,same⟩ := frozen_draws frozen urandom
    refine ⟨actions,d,which,?_⟩
    rw [← same]
    exact .of_draw (unwritten which) ran inside

/-- A draw of a child: the wrapper reads, compares, finds a generation recorded, reseeds and records. -/
def childDraw (urandom : Bytes × Bytes) : List (Action counting) := .call .random :: List.replicate 5 (.app urandom)

/-- Two children of a child, each frozen before a draw: what they draw comes from their own seeds. -/
theorem draws_reseeded_twice : ∃ s : Process counting, started.run [.fork] = some s ∧
    Returns s.forked (childDraw ([1],[1])) .random (1 : Nat) ∧ Returns s.forked (childDraw ([1,1],[2])) .random (2 : Nat) ∧
      ∃ urandom urandom', Own s.forked (childDraw ([1],[1])) .random (1 : Nat) urandom ∧
        Own s.forked (childDraw ([1,1],[2])) .random (2 : Nat) urandom' ∧ urandom.1 ≠ urandom'.1 ∧ urandom.2 ≠ urandom'.2 := by
  have ran : started.run [.fork] = some started.forked := rfl
  have first : Returns started.forked.forked (childDraw ([1],[1])) .random (1 : Nat) := ⟨by simp [childDraw],rfl,rfl⟩
  have second : Returns started.forked.forked (childDraw ([1,1],[2])) .random (2 : Nat) := ⟨by simp [childDraw],rfl,rfl⟩
  have apart : Apart (childDraw ([1],[1])) (childDraw ([1,1],[2])) := by
    simp [Apart,childDraw,Action.urandom]
  have clear : Clear started.forked := trivial
  exact ⟨_,ran,first,second,(draws_reseeded (L := counting) 0 ⟨(0 : Nat),(0 : Nat)⟩ ran).2.1 clear _ _ _ _ _ _ first second apart⟩

/-- The workload is frozen between the check of a wrapped draw and the draw itself: every child draws from the
    generator as it was, and none of them has seeded it. -/
theorem draws_frozen : ∃ s : Process counting,
    started.run [.step (.call .random),.step (.app ([],[])),.step (.app ([],[]))] = some s ∧
      Returns s.forked [] .random (0 : Nat) ∧ ∀ urandom, ¬ Own s.forked [] .random (0 : Nat) urandom := by
  refine ⟨_,rfl,⟨by simp,rfl,rfl⟩,?_⟩
  intro urandom own
  obtain ⟨a,inside,_⟩ := own.urandom_mem
  cases inside

end Klados.Hook
