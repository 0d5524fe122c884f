import Klados.Ranks
import Mathlib.Tactic.NormNum

/-!
The statistics of the harness in exact arithmetic: `percentile` reads the sorted values at the rank
`(n-1)*p/100`, along a straight line between two of them. For `0 <= p <= 100` it stays inside the list, is
ordered in `p` between the least and the greatest value, does not see the order of the values, and never
falls when a value is raised (`percentile_proper`).
-/
namespace Klados.Metrics
open Ranks

/-- `IndexError: list index out of range`. -/
inductive Fault
  | IndexError
  deriving DecidableEq

/-- `xs[i]`: a negative index counts from the end. -/
def item (xs : List Rat) (i : Int) : Except Fault Rat :=
  let place := if i < 0 then i + xs.length else i
  if 0 ≤ place then
    match xs[place.toNat]? with
    | some x => .ok x
    | none => .error .IndexError
  else .error .IndexError

/-- `int(k)`: towards zero. -/
def int (k : Rat) : Int := k.num.tdiv k.den

/-- `sorted(values)`. -/
def sorted (values : List Rat) : List Rat := values.insertionSort (· ≤ ·)

/-- `k = (len(xs) - 1) * (p / 100.0)`. -/
def rank (n : Nat) (p : Rat) : Rat := (n - 1) * (p / 100)

/-- `lo, hi = int(k), min(int(k) + 1, len(xs) - 1)`. -/
def lo (n : Nat) (p : Rat) : Int := int (rank n p)
def hi (n : Nat) (p : Rat) : Int := min (int (rank n p) + 1) (n - 1)

/-- The indexes at which `percentile` reads the sorted list. -/
def indexes (n : Nat) (p : Rat) : List Int := if n = 1 then [0] else [lo n p,hi n p]

/-- `none` is `nan`. -/
def percentile (values : List Rat) (p : Rat) : Except Fault (Option Rat) :=
  if values.isEmpty then .ok none
  else
    let xs := sorted values
    if xs.length = 1 then do
      let only ← item xs 0
      return some only
    else do
      let low ← item xs (lo xs.length p)
      let high ← item xs (hi xs.length p)
      return some (low + (high - low) * (rank xs.length p - lo xs.length p))

/-- `round(x, 2)`: to hundredths, a half goes to the even neighbour. -/
def round2 (x : Rat) : Rat :=
  let part := x * 100 - (x * 100).floor
  let up := 1 / 2 < part ∨ part = 1 / 2 ∧ (x * 100).floor % 2 = 1
  ((x * 100).floor + if up then 1 else 0) / 100

structure Summary where
  n : Nat
  min : Option Rat
  p50 : Option Rat
  p99 : Option Rat
  max : Option Rat
  mean : Option Rat
  deriving DecidableEq

/-- `summary`: for an empty list `p50` and `p99` are `nan` and the others are `None`. -/
def summary (values : List Rat) : Except Fault Summary := do
  let p50 ← percentile values 50
  let p99 ← percentile values 99
  return ⟨values.length,values.min?.map round2,p50.map round2,p99.map round2,values.max?.map round2,
    if values.isEmpty then none else some (round2 (values.sum / values.length))⟩

/-- The element at a place, the last one from there on. -/
def place (xs : List Rat) (i : Nat) : Rat := xs.getD (min i (xs.length - 1)) 0

section
variable {values xs : List Rat} {p q : Rat} {i n : Nat}

@[simp] theorem sorted_length (values : List Rat) : (sorted values).length = values.length :=
  List.length_insertionSort ..

theorem sorted_perm (values : List Rat) : (sorted values).Perm values := List.perm_insertionSort ..

theorem place_eq (positive : 0 < xs.length) (i : Nat) : place xs i = xs[min i (xs.length - 1)] := by
  have inside : min i (xs.length - 1) < xs.length := by omega
  simp [place,List.getD,List.getElem?_eq_getElem inside]

theorem place_mem (positive : 0 < xs.length) (i : Nat) : place xs i ∈ xs := by
  rw [place_eq positive]
  exact List.getElem_mem _

theorem place_sorted (positive : 0 < values.length) : Monotone (place (sorted values)) := by
  intro i j order
  have filled : 0 < (sorted values).length := by simpa using positive
  rw [place_eq filled,place_eq filled]
  exact List.sortedLE_iff_getElem_le_getElem_of_le.mp List.sortedLE_insertionSort (by omega)

theorem item_inside (inside : i < xs.length) : item xs i = .ok (place xs i) := by
  have nonneg : ¬ ((i : Int) < 0) := by omega
  have clamped : min i (xs.length - 1) = i := by omega
  simp [item,nonneg,inside,place_eq (by omega : 0 < xs.length),clamped]

theorem int_eq_floor {k : Rat} (nonneg : 0 ≤ k) : int k = ⌊k⌋₊ := by
  have top : 0 ≤ k.num := Rat.num_nonneg.mpr nonneg
  rw [int,Int.tdiv_eq_ediv_of_nonneg top,Int.natCast_floor_eq_floor nonneg,Rat.floor_def']

theorem rank_nonneg (positive : 0 < n) (low : 0 ≤ p) : 0 ≤ rank n p := by
  have least : (1 : Rat) ≤ n := by exact_mod_cast positive
  have part : 0 ≤ p / 100 := by positivity
  exact mul_nonneg (by linarith) part

theorem rank_mono (positive : 0 < n) (order : p ≤ q) : rank n p ≤ rank n q := by
  have least : (1 : Rat) ≤ n := by exact_mod_cast positive
  have part : p / 100 ≤ q / 100 := by linarith
  exact mul_le_mul_of_nonneg_left part (by linarith)

@[simp] theorem rank_zero (n : Nat) : rank n 0 = (0 : Nat) := by simp [rank]

theorem rank_hundred (positive : 0 < n) : rank n 100 = (n - 1 : Nat) := by
  rw [rank,Nat.cast_sub positive]
  norm_num

theorem floor_rank_lt (positive : 0 < n) (high : p ≤ 100) : ⌊rank n p⌋₊ < n := by
  have top : rank n p ≤ (n - 1 : Nat) := by
    rw [← rank_hundred positive]
    exact rank_mono positive high
  have floors := Nat.floor_mono top
  rw [Nat.floor_natCast] at floors
  omega

theorem lo_eq (positive : 0 < n) (low : 0 ≤ p) : lo n p = ⌊rank n p⌋₊ := int_eq_floor (rank_nonneg positive low)

theorem hi_eq (positive : 0 < n) (low : 0 ≤ p) : hi n p = (min (⌊rank n p⌋₊ + 1) (n - 1) : Nat) := by
  rw [hi,int_eq_floor (rank_nonneg positive low)]
  omega

/-- No index is out of range, and none is negative. -/
theorem indexes_inside (positive : 0 < n) (low : 0 ≤ p) (high : p ≤ 100) {i : Int} (read : i ∈ indexes n p) :
    0 ≤ i ∧ i < n := by
  have below := floor_rank_lt positive high
  unfold indexes at read
  split at read
  · have first : i = 0 := by simpa using read
    omega
  · rw [lo_eq positive low,hi_eq positive low] at read
    have either : i = ⌊rank n p⌋₊ ∨ i = (min (⌊rank n p⌋₊ + 1) (n - 1) : Nat) := by simpa using read
    omega

/-- A percentile reads the sorted values at its rank. -/
theorem percentile_eq (nonempty : values ≠ []) (low : 0 ≤ p) (high : p ≤ 100) :
    percentile values p = .ok (some (reading (place (sorted values)) (rank values.length p))) := by
  have positive := List.length_pos_iff.mpr nonempty
  have below := floor_rank_lt positive high
  have filled : values.isEmpty = false := by simpa using nonempty
  unfold percentile
  simp only [filled,Bool.false_eq_true,if_false,sorted_length]
  by_cases alone : values.length = 1
  · have inside : 0 < (sorted values).length := by simp [alone]
    have first : item (sorted values) 0 = .ok (place (sorted values) 0) := item_inside inside
    have zero : rank values.length p = (0 : Nat) := by simp [rank,alone]
    simp [alone,first] at zero ⊢
    rw [zero]
    have same := reading_natCast (place (sorted values)) 0
    simpa [pure,Except.pure,bind,Except.bind] using same.symm
  · have lower : item (sorted values) (lo values.length p) = .ok (place (sorted values) ⌊rank values.length p⌋₊) := by
      rw [lo_eq positive low]
      exact item_inside (by simpa using below)
    have next : min (⌊rank values.length p⌋₊ + 1) (values.length - 1) < values.length := by omega
    have upper : item (sorted values) (hi values.length p) = .ok (place (sorted values) (⌊rank values.length p⌋₊ + 1)) := by
      rw [hi_eq positive low,item_inside (by simpa using next)]
      simp [place]
    rw [if_neg alone,lower,upper,lo_eq positive low]
    simp [reading,pure,Except.pure,bind,Except.bind]

theorem least_place (positive : 0 < values.length) : values.min? = some (place (sorted values) 0) := by
  have filled : 0 < (sorted values).length := by simpa using positive
  refine List.min?_eq_some_iff.mpr ⟨(sorted_perm values).mem_iff.mp (place_mem filled 0),?_⟩
  intro x member
  obtain ⟨i,inside,rfl⟩ := List.getElem_of_mem ((sorted_perm values).mem_iff.mpr member)
  have clamped : min i ((sorted values).length - 1) = i := by omega
  have here : place (sorted values) i = (sorted values)[i] := by simp only [place_eq filled,clamped]
  exact here ▸ place_sorted positive (Nat.zero_le i)

theorem greatest_place (positive : 0 < values.length) :
    values.max? = some (place (sorted values) (values.length - 1)) := by
  have filled : 0 < (sorted values).length := by simpa using positive
  refine List.max?_eq_some_iff.mpr ⟨(sorted_perm values).mem_iff.mp (place_mem filled _),?_⟩
  intro x member
  obtain ⟨i,inside,rfl⟩ := List.getElem_of_mem ((sorted_perm values).mem_iff.mpr member)
  have clamped : min i ((sorted values).length - 1) = i := by omega
  have here : place (sorted values) i = (sorted values)[i] := by simp only [place_eq filled,clamped]
  have last : i ≤ values.length - 1 := by
    rw [sorted_length] at inside
    omega
  exact here ▸ place_sorted positive last

theorem percentile_zero (nonempty : values ≠ []) : percentile values 0 = .ok values.min? := by
  rw [percentile_eq nonempty (by norm_num) (by norm_num),rank_zero,reading_natCast,
    least_place (List.length_pos_iff.mpr nonempty)]

theorem percentile_hundred (nonempty : values ≠ []) : percentile values 100 = .ok values.max? := by
  have positive := List.length_pos_iff.mpr nonempty
  rw [percentile_eq nonempty (by norm_num) (by norm_num),rank_hundred positive,reading_natCast,greatest_place positive]

/-- Percentiles are ordered as their `p`. -/
theorem percentile_mono (nonempty : values ≠ []) (low : 0 ≤ p) (order : p ≤ q) (high : q ≤ 100) {a b : Rat}
    (left : percentile values p = .ok (some a)) (right : percentile values q = .ok (some b)) : a ≤ b := by
  have positive := List.length_pos_iff.mpr nonempty
  rw [percentile_eq nonempty low (order.trans high)] at left
  rw [percentile_eq nonempty (low.trans order) high] at right
  cases left
  cases right
  exact reading_mono (place_sorted positive) (rank_nonneg positive low) (rank_mono positive order)

theorem percentile_perm {others : List Rat} (same : others.Perm values) (p : Rat) :
    percentile others p = percentile values p := by
  have one : sorted others = sorted values := sort_eq_of_perm same
  have filled : others.isEmpty = values.isEmpty := by
    rw [Bool.eq_iff_iff,List.isEmpty_iff,List.isEmpty_iff,← List.length_eq_zero_iff,← List.length_eq_zero_iff,
      same.length_eq]
  simp only [percentile,one,filled]

/-- Raising values raises every place of the sorted list. -/
theorem place_raised {raised : List Rat} (up : List.Forall₂ (· ≤ ·) values raised) (positive : 0 < values.length)
    (i : Nat) : place (sorted values) i ≤ place (sorted raised) i := by
  have size : raised.length = values.length := up.length_eq.symm
  rw [place_eq (by simpa using positive),place_eq (by simpa [size] using positive)]
  simp only [sorted_length,size]
  exact sort_getElem_le up _ _

theorem percentile_raised {raised : List Rat} (up : List.Forall₂ (· ≤ ·) values raised) (nonempty : values ≠ [])
    (low : 0 ≤ p) (high : p ≤ 100) {a b : Rat} (before : percentile values p = .ok (some a))
    (after : percentile raised p = .ok (some b)) : a ≤ b := by
  have positive := List.length_pos_iff.mpr nonempty
  have size : raised.length = values.length := up.length_eq.symm
  have filled : raised ≠ [] := List.length_pos_iff.mp (size ▸ positive)
  rw [percentile_eq nonempty low high] at before
  rw [percentile_eq filled low high,size] at after
  cases before
  cases after
  exact reading_le_reading (place_raised up positive) (rank_nonneg positive low)

/-- `percentile` is a quantile function: it reads inside the list, lies between the least and the greatest value
    and meets them at 0 and 100, is ordered in `p`, and depends on the values as a rising function of them that
    does not see their order. -/
theorem percentile_proper (values : List Rat) (nonempty : values ≠ []) (p q : Rat) (low : 0 ≤ p) (order : p ≤ q)
    (high : q ≤ 100) :
    (∀ i ∈ indexes values.length p ++ indexes values.length q, 0 ≤ i ∧ i < values.length) ∧
      (∃ least a b greatest, values.min? = some least ∧ values.max? = some greatest ∧
        percentile values p = .ok (some a) ∧ percentile values q = .ok (some b) ∧
        least ≤ a ∧ a ≤ b ∧ b ≤ greatest ∧
        percentile values 0 = .ok (some least) ∧ percentile values 100 = .ok (some greatest)) ∧
      (∀ others, others.Perm values → percentile others p = percentile values p) ∧
      ∀ raised, List.Forall₂ (· ≤ ·) values raised → ∃ a b, percentile values p = .ok (some a) ∧
        percentile raised p = .ok (some b) ∧ a ≤ b := by
  have positive := List.length_pos_iff.mpr nonempty
  have under : p ≤ 100 := order.trans high
  have nonneg : 0 ≤ q := low.trans order
  refine ⟨?_,?_,fun others same => percentile_perm same p,?_⟩
  · intro i read
    rcases List.mem_append.mp read with first | second
    · exact indexes_inside positive low under first
    · exact indexes_inside positive nonneg high second
  · have least := least_place positive
    have greatest := greatest_place positive
    have left := percentile_eq nonempty low under
    have right := percentile_eq nonempty nonneg high
    have zero := percentile_zero nonempty
    have hundred := percentile_hundred nonempty
    rw [least] at zero
    rw [greatest] at hundred
    exact ⟨_,_,_,_,least,greatest,left,right,percentile_mono nonempty (le_refl 0) low under zero left,
      percentile_mono nonempty low order high left right,
      percentile_mono nonempty nonneg high (le_refl 100) right hundred,zero,hundred⟩
  · intro raised up
    have size : raised.length = values.length := up.length_eq.symm
    have filled : raised ≠ [] := List.length_pos_iff.mp (size ▸ positive)
    have before := percentile_eq nonempty low under
    have after := percentile_eq filled low under
    exact ⟨_,_,before,after,percentile_raised up nonempty low under before after⟩

/-- Four measurements, the median and the 99th percentile, and the same after the least is raised above the others. -/
theorem percentile_proper_four : percentile [7,1,3,5] 50 = .ok (some 4) ∧ percentile [7,9,3,5] 50 = .ok (some 6) ∧
    ∃ a b, percentile [7,1,3,5] 50 = .ok (some a) ∧ percentile [7,1,3,5] 99 = .ok (some b) ∧ a ≤ b := by
  have proper := percentile_proper [7,1,3,5] (by simp) 50 99 (by norm_num) (by norm_num) (by norm_num)
  obtain ⟨_,⟨_,a,b,_,_,_,left,right,_,order,_⟩,_,_⟩ := proper
  exact ⟨by decide +kernel,by decide +kernel,a,b,left,right,order⟩

/-- Rounding keeps the order: two values over one whole number of hundredths by their parts, otherwise the
    lower is rounded to the next whole number at most. -/
theorem round2_mono {x y : Rat} (order : x ≤ y) : round2 x ≤ round2 y := by
  have scaled : x * 100 ≤ y * 100 := by linarith
  have floors : (x * 100).floor ≤ (y * 100).floor := Int.floor_le_floor scaled
  unfold round2
  refine div_le_div_of_nonneg_right ?_ (by norm_num)
  by_cases same : (x * 100).floor = (y * 100).floor
  · rw [same]
    by_cases up : 1 / 2 < x * 100 - (y * 100).floor ∨ x * 100 - (y * 100).floor = 1 / 2 ∧ (y * 100).floor % 2 = 1
    · have higher : 1 / 2 < y * 100 - (y * 100).floor ∨ y * 100 - (y * 100).floor = 1 / 2 ∧ (y * 100).floor % 2 = 1 := by
        rcases up with above | ⟨half,odd⟩
        · exact .inl (by linarith)
        · rcases (show 1 / 2 ≤ y * 100 - (y * 100).floor by linarith).lt_or_eq with above | equal
          · exact .inl above
          · exact .inr ⟨equal.symm,odd⟩
      rw [if_pos up,if_pos higher]
    · rw [if_neg up]
      split <;> linarith
  · have apart : ((x * 100).floor : Rat) + 1 ≤ (y * 100).floor := by exact_mod_cast (by omega)
    split <;> split <;> linarith

/-- The summary of some values is in order. -/
theorem summary_ordered (nonempty : values ≠ []) : ∃ s least median tail greatest, summary values = .ok s ∧
    s.n = values.length ∧ s.min = some least ∧ s.p50 = some median ∧ s.p99 = some tail ∧ s.max = some greatest ∧
    least ≤ median ∧ median ≤ tail ∧ tail ≤ greatest := by
  have positive := List.length_pos_iff.mpr nonempty
  have half := percentile_eq nonempty (show (0 : Rat) ≤ 50 by norm_num) (by norm_num)
  have tail := percentile_eq nonempty (show (0 : Rat) ≤ 99 by norm_num) (by norm_num)
  have zero := percentile_zero nonempty
  have hundred := percentile_hundred nonempty
  rw [least_place positive] at zero
  rw [greatest_place positive] at hundred
  refine ⟨_,_,_,_,_,by rw [summary,half,tail]; rfl,rfl,by rw [least_place positive]; rfl,rfl,rfl,
    by rw [greatest_place positive]; rfl,round2_mono ?_,round2_mono ?_,round2_mono ?_⟩
  · exact percentile_mono nonempty (le_refl 0) (by norm_num) (by norm_num) zero half
  · exact percentile_mono nonempty (by norm_num) (by norm_num) (by norm_num) half tail
  · exact percentile_mono nonempty (by norm_num) (by norm_num) (le_refl 100) tail hundred

end

end Klados.Metrics
