import Mathlib.Data.List.Basic
import Mathlib.Data.List.Induction

/-!
Cutting a list into blocks of one size, the last one possibly shorter: the slices
`data[0:n]`, `data[n:2n]`, and so on. Nothing is lost (`slices_flatten`), every slice is
non-empty and no longer than the size, and cutting at a multiple of the size cuts no
slice in two (`slices_append`). And cutting a list as it is read, where a decision on the
current chunk ends it (`cutBy`): what was cut at some place is cut there whatever stood
before the chunk and whatever follows it.
-/
namespace Klados.Blocks
variable {α : Type}

/-- The slices of length `n`, one for each multiple of `n` below the length. -/
def slices (n : Nat) (data : List α) : List (List α) :=
  (List.range ((data.length + n - 1) / n)).map fun i => (data.drop (i * n)).take n

@[simp] theorem slices_nil (n : Nat) : slices n ([] : List α) = [] := by
  have none : (n - 1) / n = 0 := by
    rcases Nat.eq_zero_or_pos n with zero | pos
    · simp [zero]
    · exact Nat.div_eq_of_lt (by omega)
  simp [slices,none]

theorem slices_step {n : Nat} (pos : 0 < n) {data : List α} (some : data ≠ []) :
    slices n data = data.take n :: slices n (data.drop n) := by
  have long : 0 < data.length := List.length_pos_iff.mpr some
  have count : (data.length + n - 1) / n = (data.length - n + n - 1) / n + 1 := by
    rcases Nat.lt_or_ge data.length n with short | enough
    · have first : (data.length + n - 1) / n = 1 := by
        rw [Nat.div_eq_iff pos]; omega
      have rest : (data.length - n + n - 1) / n = 0 := Nat.div_eq_of_lt (by omega)
      rw [first,rest]
    · have split : data.length + n - 1 = (data.length - n + n - 1) + n := by omega
      rw [split,Nat.add_div_right _ pos]
  unfold slices
  rw [count,List.range_succ_eq_map]
  simp only [List.map_cons,List.map_map,Nat.zero_mul,List.drop_zero,List.length_drop]
  congr 1
  apply List.map_congr_left
  intro i _
  simp only [Function.comp_apply,List.drop_drop,Nat.succ_mul,Nat.add_comm (i * n) n]

/-- Induction along the slices. -/
theorem slices_induction {n : Nat} (pos : 0 < n) {motive : List α → Prop} (nil : motive [])
    (step : ∀ data, data ≠ [] → motive (data.drop n) → motive data) (data : List α) : motive data := by
  by_cases empty : data = []
  · exact empty ▸ nil
  · exact step data empty (slices_induction pos nil step (data.drop n))
termination_by data.length
decreasing_by
  have := List.length_pos_iff.mpr empty
  simp only [List.length_drop]
  omega

theorem slices_flatten {n : Nat} (pos : 0 < n) (data : List α) : (slices n data).flatten = data := by
  induction data using slices_induction pos with
  | nil => simp
  | step data some ih => rw [slices_step pos some,List.flatten_cons,ih,List.take_append_drop]

theorem slices_length {n : Nat} (pos : 0 < n) (data : List α) :
    ∀ slice ∈ slices n data, slice ≠ [] ∧ slice.length ≤ n := by
  induction data using slices_induction pos with
  | nil => simp
  | step data some ih =>
    intro slice member
    rw [slices_step pos some] at member
    rcases List.mem_cons.mp member with first | later
    · subst first
      exact ⟨by simp [some]; omega,List.length_take_le n data⟩
    · exact ih slice later

/-- Cutting where a slice ends: the slices of both parts. -/
theorem slices_append {n : Nat} (pos : 0 < n) (first rest : List α) (whole : n ∣ first.length) :
    slices n (first ++ rest) = slices n first ++ slices n rest := by
  induction first using slices_induction pos with
  | nil => simp
  | step first some ih =>
    obtain ⟨k,length⟩ := whole
    have long : n ≤ first.length := by
      rw [length]
      apply Nat.le_mul_of_pos_right
      rcases Nat.eq_zero_or_pos k with zero | kpos
      · exact absurd (List.length_eq_zero_iff.mp (by simp [length,zero])) some
      · exact kpos
    have divides : n ∣ (first.drop n).length := by
      rw [List.length_drop,length]
      exact Nat.dvd_sub (Nat.dvd_mul_right n k) (Nat.dvd_refl n)
    rw [slices_step pos (by simp [some]),slices_step pos some,List.take_append_of_le_length long,
      List.drop_append_of_le_length long,ih divides,List.cons_append]

/-! ## Cutting as the list is read -/

section
variable (stop : List α → Prop) [DecidablePred stop]

/-- The chunk grows element by element until it is to stop; what is left at the end is the last chunk. -/
def cutBy (chunk : List α) : List α → List (List α)
  | [] => if chunk.isEmpty then [] else [chunk]
  | x :: rest => if stop (chunk ++ [x]) then (chunk ++ [x]) :: cutBy [] rest else cutBy (chunk ++ [x]) rest

/-- A chunk that ends exactly where it first can. -/
structure Stops (chunk : List α) : Prop where
  ends : stop chunk
  some : chunk ≠ []
  first : ∀ before after, chunk = before ++ after → before ≠ [] → after ≠ [] → ¬ stop before

/-- Nothing that is read ends the chunk. -/
def Endless (data : List α) : Prop := ∀ before after, data = before ++ after → before ≠ [] → ¬ stop before

variable {stop}

theorem cutBy_nil : cutBy stop [] ([] : List α) = [] := rfl

/-- Elements that do not end the chunk are read into it. -/
theorem cutBy_append (chunk : List α) {data : List α} (rest : List α)
    (on : ∀ before after, data = before ++ after → before ≠ [] → ¬ stop (chunk ++ before)) :
    cutBy stop chunk (data ++ rest) = cutBy stop (chunk ++ data) rest := by
  induction data generalizing chunk with
  | nil => simp
  | cons x data ih =>
    have goes : ¬ stop (chunk ++ [x]) := on [x] data rfl (by simp)
    rw [List.cons_append,cutBy,if_neg goes,ih (chunk ++ [x])]
    · simp
    · intro before after split _ stops
      refine on (x :: before) after (by rw [split]; rfl) (by simp) ?_
      simpa using stops

/-- A chunk that ends where it first can is cut off, whatever follows. -/
theorem Stops.cut {chunk : List α} (stops : Stops stop chunk) (rest : List α) :
    cutBy stop [] (chunk ++ rest) = chunk :: cutBy stop [] rest := by
  obtain ⟨before,x,same⟩ := List.eq_nil_or_concat chunk |>.resolve_left stops.some
  subst same
  have on : ∀ front back, before = front ++ back → front ≠ [] → ¬ stop ([] ++ front) := by
    intro front back split some
    exact stops.first front (back ++ [x]) (by rw [split]; simp) some (by simp)
  rw [List.concat_eq_append,List.append_assoc,cutBy_append [] _ on,List.nil_append,List.singleton_append,cutBy,
    if_pos (by simpa using stops.ends)]

/-- What never ends is one chunk. -/
theorem Endless.cut {data : List α} (endless : Endless stop data) (some : data ≠ []) : cutBy stop [] data = [data] := by
  have whole := cutBy_append [] [] endless
  rw [List.append_nil,List.nil_append] at whole
  rw [whole,cutBy,if_neg (by simpa using some)]

variable (stop) in
/-- Some prefix is the first to stop, or none does. -/
theorem stops_or_endless (data : List α) :
    (∃ chunk rest, data = chunk ++ rest ∧ Stops stop chunk) ∨ Endless stop data := by
  induction data using List.reverseRecOn with
  | nil => exact .inr fun before after split some => absurd (List.append_eq_nil_iff.mp split.symm).1 some
  | append_singleton data x ih =>
    rcases ih with ⟨chunk,rest,split,stops⟩ | endless
    · exact .inl ⟨chunk,rest ++ [x],by rw [split]; simp,stops⟩
    · have earlier : ∀ before after, data ++ [x] = before ++ after → before ≠ [] → after ≠ [] → ¬ stop before := by
        intro before after split some more
        obtain ⟨middle,y,last⟩ := List.eq_nil_or_concat after |>.resolve_left more
        rw [last,List.concat_eq_append,← List.append_assoc] at split
        exact endless before middle (List.append_inj_left' split rfl) some
      by_cases stops : stop (data ++ [x])
      · exact .inl ⟨data ++ [x],[],by simp,⟨stops,by simp,earlier⟩⟩
      · refine .inr fun before after split some => ?_
        by_cases more : after = []
        · rw [more,List.append_nil] at split
          exact split ▸ stops
        · exact earlier before after split some more

variable (stop) in
/-- Induction along the chunks. -/
theorem cutBy_induction {motive : List α → Prop} (nil : motive []) (last : ∀ data, data ≠ [] → Endless stop data → motive data)
    (step : ∀ chunk rest, Stops stop chunk → motive rest → motive (chunk ++ rest)) (data : List α) : motive data := by
  by_cases empty : data = []
  · exact empty ▸ nil
  · rcases stops_or_endless stop data with ⟨chunk,rest,split,stops⟩ | endless
    · exact split ▸ step chunk rest stops (cutBy_induction nil last step rest)
    · exact last data empty endless
termination_by data.length
decreasing_by
  have := List.length_pos_iff.mpr stops.some
  rw [split,List.length_append]
  omega

theorem cutBy_flatten (data : List α) : (cutBy stop [] data).flatten = data := by
  induction data using cutBy_induction stop with
  | nil => rfl
  | last data some endless => rw [endless.cut some]; simp
  | step chunk rest stops ih => rw [stops.cut,List.flatten_cons,ih]

/-- A place where the list is cut: some chunks end there. -/
def Boundary (chunks : List (List α)) (k : Nat) : Prop := ∃ n, k = (chunks.take n).flatten.length

/-- At a boundary the list can be taken apart: the chunks are those of both parts. -/
theorem cutBy_resumes (data : List α) {k : Nat} (boundary : Boundary (cutBy stop [] data) k) :
    cutBy stop [] data = cutBy stop [] (data.take k) ++ cutBy stop [] (data.drop k) := by
  induction data using cutBy_induction stop generalizing k with
  | nil => simp [cutBy_nil]
  | last data some endless =>
    obtain ⟨n,length⟩ := boundary
    rw [endless.cut some] at length
    cases n with
    | zero => simp [length,cutBy_nil]
    | succ n => simp [length,cutBy_nil]
  | step chunk rest stops ih =>
    obtain ⟨n,length⟩ := boundary
    rw [stops.cut] at length
    cases n with
    | zero => simp [length,cutBy_nil]
    | succ n =>
      have further : k = chunk.length + ((cutBy stop [] rest).take n).flatten.length := by simpa using length
      have split := ih ⟨n,rfl⟩
      rw [stops.cut,further,List.take_length_add_append,List.drop_length_add_append,stops.cut,List.cons_append,← split]

theorem boundary_append {first second : List (List α)} {k : Nat} :
    Boundary (first ++ second) (first.flatten.length + k) ↔ Boundary second k := by
  constructor
  · rintro ⟨n,length⟩
    rw [List.take_append,List.flatten_append,List.length_append] at length
    by_cases within : n ≤ first.length
    · have part : (first.take n).flatten.length ≤ first.flatten.length := by
        rw [← List.take_append_drop n first,List.flatten_append,List.length_append,List.take_append_drop]
        omega
      rw [Nat.sub_eq_zero_of_le within,List.take_zero,List.flatten_nil,List.length_nil] at length
      exact ⟨0,by simp; omega⟩
    · rw [List.take_of_length_le (by omega)] at length
      exact ⟨n - first.length,by omega⟩
  · rintro ⟨n,rfl⟩
    exact ⟨first.length + n,by rw [List.take_length_add_append,List.flatten_append,List.length_append]⟩

/-- Where nothing was cut so far, a cut is made if and only if what was read is to stop. -/
theorem cutBy_boundary (data : List α) {k : Nat} (some : 0 < k) (inside : k < data.length)
    (first : ∀ j, Boundary (cutBy stop [] data) j → j = 0 ∨ k ≤ j) :
    Boundary (cutBy stop [] data) k ↔ stop (data.take k) := by
  have read : data.take k ≠ [] := by
    intro empty
    have := congrArg List.length empty
    rw [List.length_take,List.length_nil] at this
    omega
  rcases stops_or_endless stop data with ⟨chunk,rest,rfl,stops⟩ | endless
  · have long : k ≤ chunk.length := by
      have pos := List.length_pos_iff.mpr stops.some
      have := first chunk.length ⟨1,by rw [stops.cut]; simp⟩
      omega
    rw [List.take_append_of_le_length long]
    by_cases whole : k = chunk.length
    · rw [whole,List.take_length]
      exact iff_of_true ⟨1,by rw [stops.cut]; simp⟩ stops.ends
    · refine iff_of_false ?_ (stops.first _ (chunk.drop k) (List.take_append_drop ..).symm ?_ ?_)
      · rintro ⟨n,length⟩
        rw [stops.cut] at length
        cases n with
        | zero => simp at length; omega
        | succ n => simp at length; omega
      · rwa [List.take_append_of_le_length long] at read
      · intro empty
        have := congrArg List.length empty
        rw [List.length_drop,List.length_nil] at this
        omega
  · refine iff_of_false ?_ (endless _ (data.drop k) (List.take_append_drop ..).symm read)
    rintro ⟨n,length⟩
    rw [endless.cut (by rintro rfl; simp at inside)] at length
    cases n with
    | zero => simp at length; omega
    | succ n => simp at length; omega

end

/-- Slices are cut where their length says so. -/
theorem slices_eq_cutBy {n : Nat} (pos : 0 < n) (data : List α) :
    slices n data = cutBy (fun chunk => n ≤ chunk.length) [] data := by
  induction data using slices_induction pos with
  | nil => rw [slices_nil,cutBy_nil]
  | step data some ih =>
    rw [slices_step pos some,ih]
    by_cases long : n ≤ data.length
    · have length : (data.take n).length = n := by
        rw [List.length_take]
        omega
      have stops : Stops (fun chunk : List α => n ≤ chunk.length) (data.take n) := by
        refine ⟨by omega,by intro empty; rw [empty,List.length_nil] at length; omega,?_⟩
        intro before after split _ more
        have := congrArg List.length split
        have := List.length_pos_iff.mpr more
        rw [length,List.length_append] at *
        omega
      conv_rhs => rw [← List.take_append_drop n data,stops.cut]
    · have endless : Endless (fun chunk : List α => n ≤ chunk.length) data := by
        intro before after split _
        have := congrArg List.length split
        rw [List.length_append] at this
        omega
      rw [endless.cut some,List.take_of_length_le (by omega),List.drop_of_length_le (by omega),cutBy_nil]

section
variable {stop : List α → Prop} [DecidablePred stop]

/-- Cutting each slice by itself cuts as cutting the whole does, if and only if the whole is cut where
    the slices end. -/
theorem cutBy_slices {n : Nat} (pos : 0 < n) (data : List α) :
    (slices n data).flatMap (cutBy stop []) = cutBy stop [] data ↔
      ∀ k, k * n < data.length → Boundary (cutBy stop [] data) (k * n) := by
  induction data using slices_induction pos with
  | nil =>
    refine iff_of_true (by rw [slices_nil,cutBy_nil]; rfl) ?_
    intro k inside
    simp at inside
  | step data some ih =>
    have front : (cutBy stop [] (data.take n)).flatten = data.take n := cutBy_flatten _
    rw [slices_step pos some,List.flatMap_cons]
    by_cases long : n < data.length
    · have length : (cutBy stop [] (data.take n)).flatten.length = n := by
        rw [front,List.length_take]
        omega
      have joined : ∀ k, Boundary (cutBy stop [] (data.take n) ++ cutBy stop [] (data.drop n)) ((k + 1) * n) ↔
          Boundary (cutBy stop [] (data.drop n)) (k * n) := by
        intro k
        have split : (k + 1) * n = (cutBy stop [] (data.take n)).flatten.length + k * n := by
          rw [length,Nat.succ_mul,Nat.add_comm]
        rw [split]
        exact boundary_append
      constructor
      · intro same k inside
        have first : Boundary (cutBy stop [] data) n := by
          rw [← same]
          exact ⟨(cutBy stop [] (data.take n)).length,by rw [List.take_left,length]⟩
        have apart := cutBy_resumes data first
        have rest := List.append_cancel_left (same.trans apart)
        cases k with
        | zero => exact ⟨0,by simp⟩
        | succ k =>
          rw [apart,joined]
          refine ih.mp rest k ?_
          rw [List.length_drop]
          rw [Nat.succ_mul] at inside
          omega
      · intro boundary
        have apart := cutBy_resumes data (by simpa using boundary 1 (by omega))
        rw [apart]
        refine congrArg _ (ih.mpr fun k inside => ?_)
        rw [← joined,← apart]
        refine boundary (k + 1) ?_
        rw [List.length_drop] at inside
        rw [Nat.succ_mul]
        omega
    · rw [List.take_of_length_le (by omega),List.drop_of_length_le (by omega),slices_nil]
      refine iff_of_true (by rw [List.flatMap_nil,List.append_nil]) ?_
      intro k inside
      have zero : k = 0 := by
        by_contra other
        have := Nat.le_mul_of_pos_left n (Nat.pos_of_ne_zero other)
        omega
      subst zero
      exact ⟨0,by simp⟩

end

end Klados.Blocks
