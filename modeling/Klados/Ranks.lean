import Mathlib.Data.List.Sort
import Mathlib.Data.Rat.Floor
import Mathlib.Tactic.Linarith
import Mathlib.Tactic.Positivity

/-!
Places of a sorted list, and what lies between two places. An element of a sorted list is found by
counting (`getElem_le_iff`), so sorting keeps a pointwise order (`sort_getElem_le`). A sequence of
numbers is read between its places along straight lines (`reading`).
-/
namespace Klados.Ranks

section
variable {α : Type} [LinearOrder α]

/-- In a sorted list the element at a place is at most `x` when more elements than come before it are. -/
theorem getElem_le_iff {l : List α} (sorted : l.SortedLE) (x : α) {i : ℕ} (inside : i < l.length) :
    l[i] ≤ x ↔ i < l.countP (· ≤ x) := by
  have pairs := sorted.pairwise
  clear sorted
  induction l generalizing i with
  | nil => simp at inside
  | cons head tail ih =>
    obtain ⟨first,rest⟩ := List.pairwise_cons.mp pairs
    cases i with
    | zero =>
      by_cases low : head ≤ x
      · simp [low]
      · have above : ∀ y ∈ tail, ¬ y ≤ x := fun y member small => low ((first y member).trans small)
        simpa [low] using fun y member => not_le.mp (above y member)
    | succ i =>
      have within : i < tail.length := by simpa using inside
      have place := ih within rest
      by_cases low : head ≤ x
      · simp [low,place]
      · have above : ∀ y ∈ tail, ¬ y ≤ x := fun y member small => low ((first y member).trans small)
        have empty : tail.countP (· ≤ x) = 0 := by simpa [List.countP_eq_zero] using above
        have high : ¬ tail[i] ≤ x := above _ (List.getElem_mem within)
        simp [low,empty,high]

/-- Raising elements leaves fewer of them at most `x`. -/
theorem countP_le_of_raised {l m : List α} (raised : List.Forall₂ (· ≤ ·) l m) (x : α) :
    m.countP (· ≤ x) ≤ l.countP (· ≤ x) := by
  induction raised with
  | nil => simp
  | @cons a b l m up _ ih =>
    by_cases low : b ≤ x
    · have lower := up.trans low
      simpa [low,lower] using ih
    · by_cases lower : a ≤ x
      · simp only [List.countP_cons,low,lower]
        simp
        omega
      · simpa [low,lower] using ih

/-- Sorting keeps a pointwise order. -/
theorem sort_getElem_le {l m : List α} (raised : List.Forall₂ (· ≤ ·) l m) {i : ℕ}
    (left : i < (l.insertionSort (· ≤ ·)).length) (right : i < (m.insertionSort (· ≤ ·)).length) :
    (l.insertionSort (· ≤ ·))[i] ≤ (m.insertionSort (· ≤ ·))[i] := by
  have sortedLeft := (List.pairwise_insertionSort (· ≤ ·) l).sortedLE
  have sortedRight := (List.pairwise_insertionSort (· ≤ ·) m).sortedLE
  have counted := (getElem_le_iff sortedRight _ right).mp (le_refl (m.insertionSort (· ≤ ·))[i])
  rw [(List.perm_insertionSort (· ≤ ·) m).countP_eq] at counted
  rw [getElem_le_iff sortedLeft _ left,(List.perm_insertionSort (· ≤ ·) l).countP_eq]
  exact counted.trans_le (countP_le_of_raised raised _)

/-- Lists with the same elements have one sorted list. -/
theorem sort_eq_of_perm {l m : List α} (same : l.Perm m) :
    l.insertionSort (· ≤ ·) = m.insertionSort (· ≤ ·) := by
  have perm := ((List.perm_insertionSort (· ≤ ·) l).trans same).trans (List.perm_insertionSort (· ≤ ·) m).symm
  exact perm.eq_of_sortedLE (List.pairwise_insertionSort (· ≤ ·) l).sortedLE (List.pairwise_insertionSort (· ≤ ·) m).sortedLE

end

/-- What a sequence has at `k`, along the straight line from the place before it to the next. -/
def reading (f : ℕ → ℚ) (k : ℚ) : ℚ :=
  f ⌊k⌋₊ + (f (⌊k⌋₊ + 1) - f ⌊k⌋₊) * (k - ⌊k⌋₊)

section
variable {f g : ℕ → ℚ} {k l : ℚ}

@[simp] theorem reading_natCast (f : ℕ → ℚ) (n : ℕ) : reading f n = f n := by
  simp [reading]

/-- How far `k` is from the place before it. -/
theorem part_bounds (nonneg : 0 ≤ k) : 0 ≤ k - ⌊k⌋₊ ∧ k - ⌊k⌋₊ ≤ 1 := by
  have below := Nat.floor_le nonneg
  have above := Nat.lt_floor_add_one k
  constructor <;> linarith

theorem le_reading (rising : Monotone f) (nonneg : 0 ≤ k) : f ⌊k⌋₊ ≤ reading f k := by
  have step : 0 ≤ f (⌊k⌋₊ + 1) - f ⌊k⌋₊ := sub_nonneg.mpr (rising (Nat.le_succ _))
  have gain := mul_nonneg step (part_bounds nonneg).1
  unfold reading
  linarith

theorem reading_le (rising : Monotone f) (nonneg : 0 ≤ k) : reading f k ≤ f (⌊k⌋₊ + 1) := by
  have step : 0 ≤ f (⌊k⌋₊ + 1) - f ⌊k⌋₊ := sub_nonneg.mpr (rising (Nat.le_succ _))
  have gain := mul_le_mul_of_nonneg_left (part_bounds nonneg).2 step
  unfold reading
  linarith

/-- A rising sequence is read in order: within one interval along its line, otherwise across the place
    where the lower interval ends. -/
theorem reading_mono (rising : Monotone f) (nonneg : 0 ≤ k) (order : k ≤ l) : reading f k ≤ reading f l := by
  have floors : ⌊k⌋₊ ≤ ⌊l⌋₊ := Nat.floor_mono order
  by_cases same : ⌊k⌋₊ = ⌊l⌋₊
  · have step : 0 ≤ f (⌊l⌋₊ + 1) - f ⌊l⌋₊ := sub_nonneg.mpr (rising (Nat.le_succ _))
    have gain := mul_le_mul_of_nonneg_left (sub_le_sub_right order (⌊l⌋₊ : ℚ)) step
    unfold reading
    rw [same]
    linarith
  · have apart : ⌊k⌋₊ + 1 ≤ ⌊l⌋₊ := by omega
    calc reading f k ≤ f (⌊k⌋₊ + 1) := reading_le rising nonneg
      _ ≤ f ⌊l⌋₊ := rising apart
      _ ≤ reading f l := le_reading rising (nonneg.trans order)

/-- A higher sequence is read higher. -/
theorem reading_le_reading (higher : ∀ i, f i ≤ g i) (nonneg : 0 ≤ k) : reading f k ≤ reading g k := by
  obtain ⟨above,below⟩ := part_bounds nonneg
  have first := mul_le_mul_of_nonneg_right (higher ⌊k⌋₊) (sub_nonneg.mpr below)
  have second := mul_le_mul_of_nonneg_right (higher (⌊k⌋₊ + 1)) above
  unfold reading
  linarith

end

end Klados.Ranks
