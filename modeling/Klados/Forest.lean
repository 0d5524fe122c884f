import Mathlib.Logic.Function.Iterate
import Mathlib.Data.List.Nodup

/-!
Rows that name a parent row by its key. A list that grew one row at a time, each naming an
earlier row of its own group or none, is a forest: keys are unique, and following parents
from any row ends after finitely many steps.
-/
namespace Klados.Forest

/-- How a row names itself, its parent and the group it belongs to. -/
structure Keys (ρ κ γ : Type) where
  key : ρ → κ
  parent : ρ → Option κ
  group : ρ → γ

variable {ρ κ γ : Type} (K : Keys ρ κ γ)

/-- The rows contain one with this key in this group. -/
def Holds (rows : List ρ) (k : κ) (g : γ) : Prop := ∃ row ∈ rows, K.key row = k ∧ K.group row = g

/-- The rows were appended one by one, each with a new key and an earlier parent. -/
inductive Grown : List ρ → Prop
  | nil : Grown []
  | append {rows : List ρ} {row : ρ} : Grown rows → (∀ old ∈ rows, K.key old ≠ K.key row) →
      (∀ k, K.parent row = some k → Holds K rows k (K.group row)) → Grown (rows ++ [row])

variable [DecidableEq κ]

def find (rows : List ρ) (k : κ) : Option ρ := rows.find? (K.key · = k)

/-- One step from a key to the key of the parent. -/
def up (rows : List ρ) (at_ : Option κ) : Option κ := at_.bind fun k => (find K rows k).bind K.parent

/-- Following parents from the key ends. -/
def Rooted (rows : List ρ) (k : κ) : Prop := ∃ n, (up K rows)^[n] (some k) = none

variable {K}

omit [DecidableEq κ] in
theorem Holds.mono {rows later : List ρ} (grown : rows <+: later) {k : κ} {g : γ} (holds : Holds K rows k g) :
    Holds K later k g := by
  obtain ⟨row,member,named⟩ := holds
  exact ⟨row,grown.subset member,named⟩

omit [DecidableEq κ] in
/-- The parent of a row is a row of the same group. -/
theorem Grown.parent {rows : List ρ} (grown : Grown K rows) {row : ρ} (member : row ∈ rows) {k : κ}
    (child : K.parent row = some k) : Holds K rows k (K.group row) := by
  induction grown with
  | nil => cases member
  | append _ _ earlier ih =>
    refine Holds.mono (List.prefix_append _ _) ?_
    rcases List.mem_append.mp member with old | new
    · exact ih old
    · rw [List.mem_singleton] at new
      subst new
      exact earlier k child

omit [DecidableEq κ] in
theorem Grown.unique {rows : List ρ} (grown : Grown K rows) {a b : ρ} (first : a ∈ rows) (second : b ∈ rows)
    (same : K.key a = K.key b) : a = b := by
  induction grown with
  | nil => cases first
  | append _ fresh _ ih =>
    rw [List.mem_append,List.mem_singleton] at first second
    rcases first with oldA | newA
    · rcases second with oldB | newB
      · exact ih oldA oldB
      · exact absurd (newB ▸ same) (fresh a oldA)
    · rcases second with oldB | newB
      · exact absurd (newA ▸ same.symm) (fresh b oldB)
      · rw [newA,newB]

omit [DecidableEq κ] in
theorem Grown.nodup {rows : List ρ} (grown : Grown K rows) : (rows.map K.key).Nodup := by
  induction grown with
  | nil => exact List.nodup_nil
  | append _ fresh _ ih =>
    rw [List.map_append,List.nodup_append]
    refine ⟨ih,List.nodup_singleton _,?_⟩
    rintro k old k' new rfl
    obtain ⟨row,member,named⟩ := List.mem_map.mp old
    exact fresh row member (named.trans (List.mem_singleton.mp new))

theorem find_append_of_holds {rows more : List ρ} {row : ρ} (member : row ∈ rows) :
    find K (rows ++ more) (K.key row) = find K rows (K.key row) := by
  have there : (find K rows (K.key row)).isSome := List.find?_isSome.mpr ⟨row,member,decide_eq_true rfl⟩
  obtain ⟨found,seen⟩ := Option.isSome_iff_exists.mp there
  have appended : find K (rows ++ more) (K.key row) = (find K rows (K.key row)).or (find K more (K.key row)) :=
    List.find?_append
  rw [appended,seen,Option.some_or]

/-- Among old rows, following parents does not see the rows appended later. -/
theorem up_iterate_append {rows : List ρ} (grown : Grown K rows) {row : ρ} (n : Nat) {at_ : Option κ}
    (known : ∀ k, at_ = some k → ∃ old ∈ rows, K.key old = k) :
    (up K (rows ++ [row]))^[n] at_ = (up K rows)^[n] at_ := by
  induction n generalizing at_ with
  | zero => rfl
  | succ n ih =>
    have step : up K (rows ++ [row]) at_ = up K rows at_ := by
      cases at_ with
      | none => rfl
      | some k =>
        obtain ⟨old,member,named⟩ := known k rfl
        subst named
        simp only [up,Option.bind_some,find_append_of_holds member]
    rw [Function.iterate_succ_apply,Function.iterate_succ_apply,step]
    apply ih
    intro k reached
    obtain ⟨j,_,next⟩ := Option.bind_eq_some_iff.mp reached
    obtain ⟨found,seen,child⟩ := Option.bind_eq_some_iff.mp next
    obtain ⟨parent,member,named,_⟩ := grown.parent (List.mem_of_find?_eq_some seen) child
    exact ⟨parent,member,named⟩

/-- From every row of a grown list, following parents ends. -/
theorem Grown.rooted {rows : List ρ} (grown : Grown K rows) : ∀ row ∈ rows, Rooted K rows (K.key row) := by
  induction grown with
  | nil => simp
  | @append rows new grown fresh earlier ih =>
    have old : ∀ row ∈ rows, Rooted K (rows ++ [new]) (K.key row) := by
      intro row member
      obtain ⟨n,ends⟩ := ih row member
      refine ⟨n,?_⟩
      rw [up_iterate_append grown n (by rintro k ⟨⟩; exact ⟨row,member,rfl⟩)]
      exact ends
    intro row member
    rw [List.mem_append,List.mem_singleton] at member
    rcases member with member | last
    · exact old row member
    · subst last
      have found : find K (rows ++ [row]) (K.key row) = some row := by
        unfold find
        rw [List.find?_append,List.find?_eq_none.mpr (by simpa using fresh)]
        simp
      have step : up K (rows ++ [row]) (some (K.key row)) = K.parent row := by simp [up,found]
      cases child : K.parent row with
      | none => exact ⟨1,by simpa [child] using step⟩
      | some k =>
        obtain ⟨parent,inside,named,_⟩ := earlier k child
        obtain ⟨n,ends⟩ := old parent inside
        exact ⟨n + 1,by rw [Function.iterate_succ_apply,step,child,← named]; exact ends⟩

section
variable {ι : Type} {parent : ι → Option ι → Prop} {base : Option ι} {xs : List ι} {x : ι}

/-- The last of the list, or the base of an empty one. -/
def tip (base : Option ι) (xs : List ι) : Option ι := xs.getLast?.or base

/-- Each element names the one before it as its parent, and the first names the base. -/
def Linked (parent : ι → Option ι → Prop) (base : Option ι) (xs : List ι) : Prop :=
  ∀ before x after, xs = before ++ x :: after → parent x (tip base before)

@[simp] theorem tip_nil : tip base ([] : List ι) = base := rfl

@[simp] theorem tip_append : tip base (xs ++ [x]) = some x := by simp [tip]

theorem Linked.nil : Linked parent base [] := by
  intro before x after split
  simp at split

/-- A chain grows at its tip. -/
theorem Linked.append (linked : Linked parent base xs) (last : parent x (tip base xs)) : Linked parent base (xs ++ [x]) := by
  intro before y after split
  rcases List.eq_nil_or_concat after with rfl | ⟨inner,z,rfl⟩
  · obtain ⟨rfl,same⟩ := List.append_inj' split rfl
    cases same
    exact last
  · rw [List.concat_eq_append] at split
    have inside : xs ++ [x] = (before ++ y :: inner) ++ [z] := by simpa using split
    exact linked before y inner (List.append_inj' inside rfl).1

theorem Linked.mono {parent' : ι → Option ι → Prop} (linked : Linked parent base xs)
    (weaker : ∀ x p, parent x p → parent' x p) : Linked parent' base xs :=
  fun before x after split => weaker _ _ (linked before x after split)

end
end Klados.Forest
