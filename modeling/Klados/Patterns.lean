import Klados.Files
import Mathlib.Data.List.TakeWhile
import Mathlib.Data.List.Infix

/-!
Patterns on bytes: literals, each followed by at least one byte of a class. Where no class accepts the byte that the
next literal begins with, taking as much as possible for each class is the only way to match (`front_isSome_iff`).
All matches are found from the left, each after the end of the one before (`findAll_ne_nil_iff`).
-/
namespace Klados.Patterns
open Files (Bytes)

/-- A literal, and a class with at least one byte. -/
structure Part where
  literal : Bytes
  accepts : UInt8 → Bool

abbrev Pattern := List Part

/-- What the classes take at the front of some bytes, each as much as it can, and the rest. -/
def front : Pattern → Bytes → Option (List Bytes × Bytes)
  | [], bytes => some ([],bytes)
  | part :: more, bytes =>
    let after := bytes.drop part.literal.length
    if part.literal <+: bytes ∧ after.takeWhile part.accepts ≠ [] then
      (front more (after.dropWhile part.accepts)).map fun found => (after.takeWhile part.accepts :: found.1,found.2)
    else none

/-- All matches from the left, in at most `fuel` places. -/
def findAll {α : Type} (front : Bytes → Option (α × Bytes)) : Nat → Bytes → List α
  | 0, _ => []
  | _, [] => []
  | fuel + 1, b :: tail =>
    match front (b :: tail) with
    | some (found,rest) => found :: findAll front fuel rest
    | none => findAll front fuel tail

/-- The first match. -/
def search {α : Type} (front : Bytes → Option α) : Bytes → Option α
  | [] => front []
  | b :: tail => (front (b :: tail)).or (search front tail)

/-- Bytes that begin with the literals and some bytes of their classes. -/
def Laid : Pattern → Bytes → Prop
  | [], _ => True
  | part :: more, bytes => ∃ group rest, bytes = part.literal ++ (group ++ rest) ∧ group ≠ [] ∧
      (∀ b ∈ group, part.accepts b = true) ∧ Laid more rest

/-- No class accepts the byte that the next literal begins with. -/
def Apart : Pattern → Prop
  | part :: following :: more =>
    (∃ b tail, following.literal = b :: tail ∧ part.accepts b = false) ∧ Apart (following :: more)
  | _ => True

theorem laid_of_front {pattern : Pattern} {bytes : Bytes} (found : (front pattern bytes).isSome) : Laid pattern bytes := by
  induction pattern generalizing bytes with
  | nil => trivial
  | cons part more ih =>
    unfold front at found
    dsimp only at found
    split at found
    · rename_i holds
      obtain ⟨⟨after,rfl⟩,some⟩ := holds
      rw [List.drop_left] at some found
      refine ⟨after.takeWhile part.accepts,after.dropWhile part.accepts,?_,some,?_,ih (by simpa using found)⟩
      · rw [List.takeWhile_append_dropWhile]
      · exact fun b member => List.mem_takeWhile_imp member
    · cases found

theorem front_isSome_of_laid {pattern : Pattern} (apart : Apart pattern) {bytes : Bytes} (laid : Laid pattern bytes) :
    (front pattern bytes).isSome := by
  induction pattern generalizing bytes with
  | nil => rfl
  | cons part more ih =>
    obtain ⟨group,rest,rfl,some,accepted,further⟩ := laid
    have taken : (group ++ rest).takeWhile part.accepts = group ++ rest.takeWhile part.accepts :=
      List.takeWhile_append_of_pos accepted
    have left : (group ++ rest).dropWhile part.accepts = rest.dropWhile part.accepts :=
      List.dropWhile_append_of_pos accepted
    have held : part.literal <+: part.literal ++ (group ++ rest) ∧ group ++ rest.takeWhile part.accepts ≠ [] :=
      ⟨List.prefix_append ..,by simp [some]⟩
    simp only [front,List.drop_left,taken,left]
    rw [if_pos held,Option.isSome_map]
    cases more with
    | nil => rfl
    | cons following others =>
      obtain ⟨⟨b,tail,begins,refused⟩,apart⟩ := apart
      refine ih apart ?_
      have ⟨group',rest',shape,_⟩ := further
      have stops : rest.dropWhile part.accepts = rest := by
        rw [shape,begins,List.cons_append,List.dropWhile_cons_of_neg (by simp [refused])]
      rw [stops]
      exact further

/-- Taking as much as possible finds a match wherever there is one. -/
theorem front_isSome_iff {pattern : Pattern} (apart : Apart pattern) (bytes : Bytes) :
    (front pattern bytes).isSome ↔ Laid pattern bytes :=
  ⟨laid_of_front,front_isSome_of_laid apart⟩

/-- Something is found when there is a match at some place. -/
theorem findAll_ne_nil_iff {α : Type} (front : Bytes → Option (α × Bytes)) {fuel : Nat} {bytes : Bytes}
    (enough : bytes.length ≤ fuel) :
    findAll front fuel bytes ≠ [] ↔ ∃ before after, bytes = before ++ after ∧ after ≠ [] ∧ (front after).isSome := by
  induction bytes generalizing fuel with
  | nil =>
    have nothing : findAll front fuel [] = [] := by cases fuel <;> rfl
    simp [nothing]
  | cons b tail ih =>
    obtain ⟨fuel,rfl⟩ : ∃ less, fuel = less + 1 := ⟨fuel - 1,by rw [List.length_cons] at enough; omega⟩
    cases here : front (b :: tail) with
    | some found =>
      obtain ⟨found,rest⟩ := found
      have first : findAll front (fuel + 1) (b :: tail) ≠ [] := by simp [findAll,here]
      exact ⟨fun _ => ⟨[],b :: tail,rfl,List.cons_ne_nil _ _,by rw [here]; rfl⟩,fun _ => first⟩
    | none =>
      have later : findAll front (fuel + 1) (b :: tail) = findAll front fuel tail := by simp [findAll,here]
      rw [later,ih (by simpa using enough)]
      constructor
      · rintro ⟨before,after,rfl,some,matched⟩
        exact ⟨b :: before,after,rfl,some,matched⟩
      · rintro ⟨_ | ⟨b',before⟩,after,shape,some,matched⟩
        · rw [List.nil_append] at shape
          rw [← shape,here] at matched
          cases matched
        · rw [List.cons_append,List.cons.injEq] at shape
          exact ⟨before,after,shape.2,some,matched⟩

end Klados.Patterns
