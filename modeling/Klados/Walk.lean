import Mathlib.Data.List.Nodup
import Mathlib.Data.List.Perm.Subperm

/-!
A depth-first walk through rows that name a parent row. Rows may name a parent that is not there,
or name each other in a circle. The walk from the rows without a parent ends, and finds each row
whose chain of parents ends exactly once, with all that descends from a row directly behind it.
-/
namespace Klados.Walk

variable {α β κ : Type}

/-- One after the other, as long as each ends. -/
def visitAll (visit : α → Option (List β)) : List α → Option (List β)
  | [] => some []
  | a :: rest => do
    let first ← visit a
    let more ← visitAll visit rest
    pure (first ++ more)

/-- The walk below a parent, with the depth of its recursion bounded. -/
def walk (kids : Option κ → List α) (id : α → κ) (out : Nat → α → List β) : Nat → Option κ → Nat → Option (List β)
  | 0,_,_ => none
  | fuel + 1,parent,depth =>
    visitAll (fun a => (walk kids id out fuel (some (id a)) (depth + 1)).map (out depth a ++ ·)) (kids parent)

/-- The visits of a walk, each with its depth. -/
inductive Walked (kids : Option κ → List α) (id : α → κ) : List α → Nat → List (Nat × α) → Prop
  | nil {depth : Nat} : Walked kids id [] depth []
  | cons {a : α} {rest : List α} {depth : Nat} {below more : List (Nat × α)} :
      Walked kids id (kids (some (id a))) (depth + 1) below → Walked kids id rest depth more →
      Walked kids id (a :: rest) depth ((depth,a) :: below ++ more)

section
variable {kids : Option κ → List α} {id : α → κ} {out : Nat → α → List β}

theorem visitAll_walked {fuel depth : Nat}
    (inner : ∀ parent lines, walk kids id out fuel parent (depth + 1) = some lines →
      ∃ visits, Walked kids id (kids parent) (depth + 1) visits ∧ lines = visits.flatMap fun v => out v.1 v.2)
    {todo : List α} {lines : List β}
    (ran : visitAll (fun a => (walk kids id out fuel (some (id a)) (depth + 1)).map (out depth a ++ ·)) todo = some lines) :
    ∃ visits, Walked kids id todo depth visits ∧ lines = visits.flatMap fun v => out v.1 v.2 := by
  induction todo generalizing lines with
  | nil =>
    cases ran
    exact ⟨[],.nil,rfl⟩
  | cons a rest ih =>
    obtain ⟨first,visited,ran⟩ := Option.bind_eq_some_iff.mp ran
    obtain ⟨more,others,same⟩ := Option.bind_eq_some_iff.mp ran
    obtain ⟨below,walked,rfl⟩ := Option.map_eq_some_iff.mp visited
    obtain ⟨visits,down,rfl⟩ := inner _ _ walked
    obtain ⟨visits',across,rfl⟩ := ih others
    cases same
    exact ⟨_,.cons down across,by simp⟩

/-- What a walk that ends has put out. -/
theorem walk_walked {fuel depth : Nat} {parent : Option κ} {lines : List β}
    (ran : walk kids id out fuel parent depth = some lines) :
    ∃ visits, Walked kids id (kids parent) depth visits ∧ lines = visits.flatMap fun v => out v.1 v.2 := by
  induction fuel generalizing parent depth lines with
  | zero => cases ran
  | succ fuel ih => exact visitAll_walked (fun _ _ walked => ih walked) ran

/-- A walk is determined by where it starts. -/
theorem Walked.unique {todo : List α} {depth : Nat} {visits visits' : List (Nat × α)} (walked : Walked kids id todo depth visits)
    (walked' : Walked kids id todo depth visits') : visits = visits' := by
  induction walked generalizing visits' with
  | nil =>
    cases walked'
    rfl
  | cons _ _ down across =>
    cases walked' with
    | cons down' across' => rw [down down',across across']

/-- Behind each visit come the visits below it. -/
theorem Walked.behind {todo : List α} {depth : Nat} {visits : List (Nat × α)} (walked : Walked kids id todo depth visits)
    {before after : List (Nat × α)} {v : Nat × α} (split : visits = before ++ v :: after) :
    ∃ below more, after = below ++ more ∧ Walked kids id (kids (some (id v.2))) (v.1 + 1) below := by
  induction walked generalizing before after with
  | nil => simp at split
  | @cons a rest depth below more down _ ihDown ihAcross =>
    cases before with
    | nil =>
      obtain ⟨same,rfl⟩ := List.cons.inj split
      subst same
      exact ⟨below,more,rfl,down⟩
    | cons first before =>
      obtain ⟨_,tail⟩ := List.cons.inj split
      rcases List.append_eq_append_iff.mp tail with ⟨inner,rfl,rest'⟩ | ⟨inner,here,rest'⟩
      · obtain ⟨below',more',split',walked'⟩ := ihAcross rest'
        exact ⟨below',more',split',walked'⟩
      · cases inner with
        | nil =>
          obtain ⟨below',more',split',walked'⟩ := @ihAcross [] _ rest'.symm
          exact ⟨below',more',split',walked'⟩
        | cons w inner =>
          obtain ⟨rfl,rfl⟩ := List.cons.inj rest'
          obtain ⟨below',more',rfl,walked'⟩ := ihDown here
          exact ⟨below',more' ++ more,by simp,walked'⟩

end

section
variable (rows : List α) (id : α → κ) (parent : α → Option κ)

/-- The row has this many ancestors, up to one without a parent. -/
inductive Depth : α → Nat → Prop
  | root {a : α} : a ∈ rows → parent a = none → Depth a 0
  | child {a p : α} {n : Nat} : a ∈ rows → Depth p n → parent a = some (id p) → Depth a (n + 1)

/-- The row descends from `p`. -/
inductive Below (p : α) : α → Prop
  | child {a : α} : a ∈ rows → parent a = some (id p) → Below p a
  | further {a b : α} : Below p b → a ∈ rows → parent a = some (id b) → Below p a

/-- Where a walk is: at the top, or below a row of the depth before. -/
inductive Level : Option κ → Nat → Prop
  | top : Level none 0
  | inner {p : α} {n : Nat} : Depth rows id parent p n → Level (some (id p)) (n + 1)

variable [DecidableEq κ]

def kidsOf (p : Option κ) : List α := rows.filter fun a => parent a = p

/-- What a listing of the rows must be. -/
structure Lists (visits : List (Nat × α)) : Prop where
  once : (visits.map (·.2)).Nodup
  all : ∀ a, a ∈ visits.map (·.2) ↔ ∃ n, Depth rows id parent a n
  depth : ∀ v ∈ visits, Depth rows id parent v.2 v.1
  ordered : ∀ before v after, visits = before ++ v :: after → ∀ p ∈ rows, parent v.2 = some (id p) → p ∈ before.map (·.2)
  together : ∀ before v after, visits = before ++ v :: after → ∃ below more, after = below ++ more ∧
    (∀ u ∈ below, Below rows id parent v.2 u.2) ∧ ∀ u ∈ before ++ more, ¬ Below rows id parent v.2 u.2

end

section
variable {rows : List α} {id : α → κ} {parent : α → Option κ} {a b p q : α} {n m : Nat}

theorem Depth.mem (depth : Depth rows id parent a n) : a ∈ rows := by
  cases depth with
  | root member => exact member
  | child member => exact member

theorem Below.mem (below : Below rows id parent p a) : a ∈ rows := by
  cases below with
  | child member => exact member
  | further _ member => exact member

/-- A descendant is deeper. -/
theorem Below.deeper (below : Below rows id parent p a) (depth : Depth rows id parent p n) :
    ∃ m, n < m ∧ Depth rows id parent a m := by
  induction below with
  | child member names => exact ⟨n + 1,Nat.lt_succ_self n,.child member depth names⟩
  | further _ member names ih =>
    obtain ⟨m,less,deep⟩ := ih
    exact ⟨m + 1,Nat.lt_succ_of_lt less,.child member deep names⟩

theorem Below.trans (first : Below rows id parent p q) (second : Below rows id parent q a) : Below rows id parent p a := by
  induction second with
  | child member names => exact .further first member names
  | further _ member names ih => exact .further ih member names

section
variable (distinct : (rows.map id).Nodup)
include distinct

theorem same_row (first : a ∈ rows) (second : b ∈ rows) (same : id a = id b) : a = b :=
  List.inj_on_of_nodup_map distinct first second same

theorem Depth.unique (first : Depth rows id parent a n) (second : Depth rows id parent a m) : n = m := by
  induction first generalizing m with
  | root _ none =>
    cases second with
    | root => rfl
    | child _ _ names => rw [none] at names; cases names
  | child _ above names ih =>
    cases second with
    | root _ none => rw [none] at names; cases names
    | child _ above' names' =>
      have same := same_row distinct above.mem above'.mem (Option.some.inj (names.symm.trans names'))
      subst same
      rw [ih above']

theorem Depth.above (depth : Depth rows id parent a n) (member : p ∈ rows) (names : parent a = some (id p)) :
    ∃ m, Depth rows id parent p m := by
  cases depth with
  | root _ none => rw [none] at names; cases names
  | child _ above names' =>
    have same := same_row distinct above.mem member (Option.some.inj (names'.symm.trans names))
    exact ⟨_,same ▸ above⟩

/-- No row of the same depth descends from a row. -/
theorem Below.not_level (below : Below rows id parent p a) (depth : Depth rows id parent p n) :
    ¬ Depth rows id parent a n := by
  intro level
  obtain ⟨m,less,deep⟩ := below.deeper depth
  have := level.unique distinct deep
  omega

/-- The ancestors of a row are in a line. -/
theorem Below.line (first : Below rows id parent p a) (second : Below rows id parent q a) (left : p ∈ rows) (right : q ∈ rows) :
    p = q ∨ Below rows id parent p q ∨ Below rows id parent q p := by
  induction first generalizing q with
  | child _ names =>
    cases second with
    | child _ names' => exact .inl (same_row distinct left right (Option.some.inj (names.symm.trans names')))
    | further up _ names' =>
      have same := same_row distinct left up.mem (Option.some.inj (names.symm.trans names'))
      exact .inr (.inr (same ▸ up))
  | further up _ names ih =>
    cases second with
    | child _ names' =>
      have same := same_row distinct up.mem right (Option.some.inj (names.symm.trans names'))
      exact .inr (.inl (same ▸ up))
    | further up' _ names' =>
      have same := same_row distinct up.mem up'.mem (Option.some.inj (names.symm.trans names'))
      subst same
      exact ih up' right

/-- A row has fewer ancestors than there are rows. -/
theorem Depth.lt (depth : Depth rows id parent a n) : n < rows.length := by
  have line : ∃ chain : List α, chain.length = n + 1 ∧ chain.Nodup ∧ ∀ b ∈ chain, ∃ m ≤ n, Depth rows id parent b m := by
    induction depth with
    | @root a member none =>
      refine ⟨[a],rfl,List.nodup_singleton a,?_⟩
      intro b inside
      rw [List.mem_singleton.mp inside]
      exact ⟨0,Nat.le_refl 0,.root member none⟩
    | @child a p n member above names ih =>
      obtain ⟨chain,length,once,levels⟩ := ih
      have deep := Depth.child member above names
      refine ⟨a :: chain,by rw [List.length_cons,length],List.nodup_cons.mpr ⟨?_,once⟩,?_⟩
      · intro inside
        obtain ⟨m,least,level⟩ := levels a inside
        have := level.unique distinct deep
        omega
      · intro b inside
        rcases List.mem_cons.mp inside with rfl | earlier
        · exact ⟨n + 1,Nat.le_refl _,deep⟩
        · obtain ⟨m,least,level⟩ := levels b earlier
          exact ⟨m,by omega,level⟩
  obtain ⟨chain,length,once,levels⟩ := line
  have within : chain ⊆ rows := fun b inside => (levels b inside).choose_spec.2.mem
  have := (List.subperm_of_subset once within).length_le
  omega

theorem Level.le {at_ : Option κ} (level : Level rows id parent at_ n) : n ≤ rows.length := by
  cases level with
  | top => omega
  | inner depth => exact depth.lt distinct

end

variable [DecidableEq κ]

theorem mem_kidsOf {at_ : Option κ} : a ∈ kidsOf rows parent at_ ↔ a ∈ rows ∧ parent a = at_ := by
  simp [kidsOf]

theorem Level.kids {at_ : Option κ} (level : Level rows id parent at_ n) (kid : a ∈ kidsOf rows parent at_) :
    Depth rows id parent a n := by
  obtain ⟨member,names⟩ := mem_kidsOf.mp kid
  cases level with
  | top => exact .root member names
  | inner depth => exact .child member depth names

/-- What descends from a row is a child, or descends from one. -/
theorem below_iff : Below rows id parent p a ↔ ∃ c ∈ kidsOf rows parent (some (id p)), a = c ∨ Below rows id parent c a := by
  constructor
  · intro below
    induction below with
    | child member names => exact ⟨_,mem_kidsOf.mpr ⟨member,names⟩,.inl rfl⟩
    | further _ member names ih =>
      obtain ⟨c,kid,rfl | down⟩ := ih
      · exact ⟨_,kid,.inr (.child member names)⟩
      · exact ⟨c,kid,.inr (.further down member names)⟩
  · rintro ⟨c,kid,rfl | down⟩
    · exact .child (mem_kidsOf.mp kid).1 (mem_kidsOf.mp kid).2
    · exact (Below.child (mem_kidsOf.mp kid).1 (mem_kidsOf.mp kid).2).trans down

/-! ## Visits -/

section
variable {todo : List α} {visits : List (Nat × α)}

theorem Walked.mem_iff (walked : Walked (kidsOf rows parent) id todo n visits) :
    a ∈ visits.map (·.2) ↔ ∃ r ∈ todo, a = r ∨ Below rows id parent r a := by
  induction walked with
  | nil => simp
  | @cons r rest depth below more _ _ down across =>
    have here : a ∈ below.map (·.2) ↔ Below rows id parent r a := down.trans below_iff.symm
    rw [List.map_append,List.map_cons,List.mem_append,List.mem_cons,here,across]
    simp

theorem Walked.depth (walked : Walked (kidsOf rows parent) id todo n visits) (level : ∀ r ∈ todo, Depth rows id parent r n) :
    ∀ v ∈ visits, Depth rows id parent v.2 v.1 := by
  induction walked with
  | nil => simp
  | @cons r rest depth below more _ _ down across =>
    have own := level r (List.mem_cons_self ..)
    intro v member
    rcases List.mem_append.mp member with first | later
    · rcases List.mem_cons.mp first with rfl | inside
      · exact own
      · exact down (fun c kid => (Level.inner own).kids kid) v inside
    · exact across (fun c kid => level c (List.mem_cons_of_mem _ kid)) v later

theorem Walked.nodup (distinct : (rows.map id).Nodup) (walked : Walked (kidsOf rows parent) id todo n visits)
    (level : ∀ r ∈ todo, Depth rows id parent r n) (once : todo.Nodup) : (visits.map (·.2)).Nodup := by
  induction walked with
  | nil => simp
  | @cons r rest depth below more walkedDown walkedAcross down across =>
    have own := level r (List.mem_cons_self ..)
    have others : ∀ c ∈ rest, Depth rows id parent c depth := fun c kid => level c (List.mem_cons_of_mem _ kid)
    have here : ∀ a, a ∈ below.map (·.2) ↔ Below rows id parent r a := fun a => walkedDown.mem_iff.trans below_iff.symm
    obtain ⟨new,once'⟩ := List.nodup_cons.mp once
    rw [List.map_append,List.map_cons,List.cons_append,List.nodup_cons,List.mem_append,List.nodup_append]
    refine ⟨?_,down (fun c kid => (Level.inner own).kids kid) ?_,across others once',?_⟩
    · rintro (inside | later)
      · exact ((here r).mp inside).not_level distinct own own
      · obtain ⟨c,kid,rfl | above⟩ := walkedAcross.mem_iff.mp later
        · exact new kid
        · exact above.not_level distinct (others c kid) own
    · exact (List.Nodup.of_map id distinct).filter _
    · rintro a inside a' later rfl
      have under := (here a).mp inside
      obtain ⟨c,kid,rfl | under'⟩ := walkedAcross.mem_iff.mp later
      · exact under.not_level distinct own (others a kid)
      · rcases under.line distinct under' own.mem (others c kid).mem with rfl | down' | up'
        · exact new kid
        · exact down'.not_level distinct own (others c kid)
        · exact up'.not_level distinct (others c kid) own

end

/-- A walk with recursion as deep as there are rows ends. -/
theorem walk_ends (distinct : (rows.map id).Nodup) (out : Nat → α → List β) (fuel : Nat) {at_ : Option κ}
    (level : Level rows id parent at_ n) (enough : rows.length < fuel + n) :
    ∃ lines, walk (kidsOf rows parent) id out fuel at_ n = some lines := by
  induction fuel generalizing at_ n with
  | zero =>
    have := level.le distinct
    omega
  | succ fuel ih =>
    have each : ∀ todo : List α, (∀ r ∈ todo, Depth rows id parent r n) → ∃ lines,
        visitAll (fun a => (walk (kidsOf rows parent) id out fuel (some (id a)) (n + 1)).map (out n a ++ ·)) todo = some lines := by
      intro todo levels
      induction todo with
      | nil => exact ⟨[],rfl⟩
      | cons r rest more =>
        obtain ⟨lines,down⟩ := ih (.inner (levels r (List.mem_cons_self ..))) (by omega)
        obtain ⟨lines',across⟩ := more fun c kid => levels c (List.mem_cons_of_mem _ kid)
        exact ⟨_,by simp only [visitAll,down,across,Option.map_some,Option.bind_some,bind,pure]; rfl⟩
    exact each _ fun r kid => level.kids kid

theorem Walked.lists (distinct : (rows.map id).Nodup) {visits : List (Nat × α)}
    (walked : Walked (kidsOf rows parent) id (kidsOf rows parent none) 0 visits) : Lists rows id parent visits := by
  have level : ∀ r ∈ kidsOf rows parent none, Depth rows id parent r 0 := fun r kid => Level.top.kids kid
  have once := walked.nodup distinct level ((List.Nodup.of_map id distinct).filter _)
  have depth := walked.depth level
  have all : ∀ a, a ∈ visits.map (·.2) ↔ ∃ n, Depth rows id parent a n := by
    intro a
    rw [walked.mem_iff]
    constructor
    · rintro ⟨r,kid,rfl | below⟩
      · exact ⟨0,level a kid⟩
      · obtain ⟨m,_,deep⟩ := below.deeper (level r kid)
        exact ⟨m,deep⟩
    · rintro ⟨n,deep⟩
      induction deep with
      | root member none => exact ⟨_,mem_kidsOf.mpr ⟨member,none⟩,.inl rfl⟩
      | child member _ names ih =>
        obtain ⟨r,kid,rfl | below⟩ := ih
        · exact ⟨_,kid,.inr (.child member names)⟩
        · exact ⟨r,kid,.inr (.further below member names)⟩
  have together : ∀ before v after, visits = before ++ v :: after → ∃ below more, after = below ++ more ∧
      (∀ u ∈ below, Below rows id parent v.2 u.2) ∧ ∀ u ∈ before ++ more, ¬ Below rows id parent v.2 u.2 := by
    intro before v after split
    obtain ⟨below,more,rfl,walked'⟩ := walked.behind split
    have here : ∀ a, a ∈ below.map (·.2) ↔ Below rows id parent v.2 a := fun a => walked'.mem_iff.trans below_iff.symm
    refine ⟨below,more,rfl,fun u inside => (here u.2).mp (List.mem_map_of_mem inside),?_⟩
    -- what descends from `v` is listed behind it, so nowhere else
    intro u outside under
    have twice := (here u.2).mpr under
    have member : u.2 ∈ (before ++ more).map (·.2) := List.mem_map_of_mem outside
    rw [split,List.map_append,List.map_cons,List.map_append,List.nodup_append,List.nodup_cons,List.nodup_append] at once
    rw [List.map_append] at member
    rcases List.mem_append.mp member with first | later
    · exact once.2.2 _ first _ (List.mem_cons_of_mem _ (List.mem_append_left _ twice)) rfl
    · exact once.2.1.2.2.2 _ twice _ later rfl
  refine ⟨once,all,depth,?_,together⟩
  intro before v after split p member names
  have here := depth v (by simp [split])
  obtain ⟨m,deep⟩ := here.above distinct member names
  have under : Below rows id parent p v.2 := .child here.mem names
  have listed := (all p).mpr ⟨m,deep⟩
  rw [split,List.map_append,List.map_cons,List.mem_append,List.mem_cons] at listed
  rcases listed with first | rfl | later
  · exact first
  · exact absurd deep (under.not_level distinct deep)
  · obtain ⟨u,inside,rfl⟩ := List.mem_map.mp later
    obtain ⟨front,back,split'⟩ := List.append_of_mem inside
    obtain ⟨below,more,_,_,away⟩ := together (before ++ v :: front) u back (by rw [split,split']; simp)
    exact absurd under (away v (by simp))

/-- The walk from the top lists the rows, whatever their parents are. -/
theorem walk_lists (parent : α → Option κ) (distinct : (rows.map id).Nodup) (out : Nat → α → List β) :
    ∃ visits, Lists rows id parent visits ∧ ∀ fuel, rows.length < fuel →
      walk (kidsOf rows parent) id out fuel none 0 = some (visits.flatMap fun v => out v.1 v.2) := by
  obtain ⟨lines,ran⟩ := walk_ends distinct out (rows.length + 1) Level.top (Nat.lt_succ_self _)
  obtain ⟨visits,walked,_⟩ := walk_walked ran
  refine ⟨visits,walked.lists distinct,?_⟩
  intro fuel enough
  obtain ⟨lines',ran'⟩ := walk_ends distinct out fuel Level.top (by omega)
  obtain ⟨visits',walked',rfl⟩ := walk_walked ran'
  rw [ran',walked.unique walked']

end
end Klados.Walk
