import Klados.Patterns
import Klados.Framing
import Mathlib.Algebra.Order.Ring.Rat
import Mathlib.Data.Set.Card

/-!
The verdict on concurrent forks. The consoles of the children are searched for samples and for the line of the
handshake, values that several children have are counted, and the run is declared good on counts of children and
collisions. The counts are exact; but nothing asks whether a child had samples at all (`verdict_iff`).
-/
namespace Klados.Verdict
open Patterns Framing

def digit (b : UInt8) : Bool := 48 ≤ b ∧ b ≤ 57
def hex (b : UInt8) : Bool := digit b ∨ 97 ≤ b ∧ b ≤ 102
def clockByte (b : UInt8) : Bool := digit b ∨ b = 45 ∨ b = 46

/-- `\S`. -/
def nonSpace (b : UInt8) : Bool := b ∉ ([32,9,10,11,12,13] : Bytes)

/-- `SAMPLE (\d+) MT=([0-9a-f]+) O=([0-9a-f]+) K=([0-9a-f]+)`. -/
def SAMPLE_RE : Pattern := [⟨encode "SAMPLE ",digit⟩,⟨encode " MT=",hex⟩,⟨encode " O=",hex⟩,⟨encode " K=",hex⟩]

/-- `KLADOS_FORKED index=(\S+) gen=(\S+) clock=([0-9.\-]+)`, up to ` context=(.*)`. -/
def FORKED_RE : Pattern := [⟨encode "KLADOS_FORKED index=",nonSpace⟩,⟨encode " gen=",nonSpace⟩,⟨encode " clock=",clockByte⟩]

/-- `m.group(i)`. -/
def group (groups : List Bytes) (i : Nat) : Bytes := groups.getD (i - 1) []

/-- The clock and the context of a `KLADOS_FORKED` line that begins here. -/
def forkedFront (bytes : Bytes) : Option (Bytes × Bytes) :=
  (front FORKED_RE bytes).bind fun found =>
    if encode " context=" <+: found.2 then
      some (group found.1 3,(found.2.drop (encode " context=").length).takeWhile (· ≠ newline))
    else none

/-- The sets of values of the two generators in a console, without duplicates; a console that is not there has none. -/
def parse_samples : Option Bytes → List Bytes × List Bytes
  | none => ([],[])
  | some data =>
    let found := findAll (front SAMPLE_RE) data.length data
    ((found.map (group · 2)).dedup,(found.map (group · 3)).dedup)

def number (digits : Bytes) : Nat := digits.foldl (fun n b => n * 10 + (b.toNat - 48)) 0

/-- `float(text)` of digits, points and signs, unrounded; `none` where it raises. -/
def float (text : Bytes) : Option Rat :=
  let negative := text.head? = some 45
  let unsigned := if negative then text.drop 1 else text
  let whole := unsigned.takeWhile digit
  let rest := unsigned.dropWhile digit
  let part := rest.drop 1
  if rest.head?.getD 46 = 46 ∧ part.all digit ∧ whole ++ part ≠ [] then
    let size : Rat := number (whole ++ part) / 10 ^ part.length
    some (if negative then -size else size)
  else none

/-- `data.decode()`, at most `fuel` characters; `none` where it raises. -/
def decodeStrict : Nat → Bytes → Option (List Char)
  | _, [] => some []
  | 0, _ :: _ => none
  | fuel + 1, lead :: rest =>
    if lead < 0x80 then (decodeStrict fuel rest).map (Char.ofNat lead.toNat :: ·)
    else
      match sequence lead rest with
      | some (c,n) => (decodeStrict fuel (rest.drop n)).map (c :: ·)
      | none => none

structure Forked where
  clock : Rat
  context : String
  deriving DecidableEq

/-- `none` where it raises; a console without the line has no values. -/
def parse_forked : Option Bytes → Option (Option Forked)
  | none => some none
  | some data =>
    match search forkedFront data with
    | none => some none
    | some (clock,context) => do
      let clock ← float clock
      let context ← decodeStrict context.length context
      return some ⟨clock,strip (String.ofList context)⟩

/-- `seen[v].add(c)`. -/
def note (seen : List (Bytes × List Nat)) (c : Nat) (v : Bytes) : List (Bytes × List Nat) :=
  if v ∈ seen.map Prod.fst then seen.map fun entry => if entry.1 = v then (v,entry.2.insert c) else entry
  else seen ++ [(v,[c])]

/-- The children that each value was seen in. -/
def index (vals : List (Nat × List Bytes)) : List (Bytes × List Nat) :=
  vals.foldl (fun seen child => child.2.foldl (fun seen v => note seen child.1 v) seen) []

def cross (vals : List (Nat × List Bytes)) : List (Bytes × List Nat) := (index vals).filter fun entry => 2 ≤ entry.2.length

/-- A child: whether it was alive after all were started and at the end, its reply to the handshake with the time of
    the request, and its console. -/
structure Child where
  alive_concurrently : Bool
  reply : Except Exn Json
  host_true : Rat
  still_alive : Bool
  console : Option Bytes

/-- `r.get("status") == "READY"`. A reply that is no object, or none, stands as an error. -/
def Child.ready (child : Child) : Bool :=
  match child.reply with
  | .ok r => ((r.get? "status").map (Json.isStr "READY")).getD false
  | .error _ => false

/-- `f"you are branch {i} of {args.forks}"`. -/
def branch_context (i n : Nat) : String := "you are branch " ++ toString i ++ " of " ++ toString n

def mt_by (children : List Child) : List (Nat × List Bytes) :=
  children.zipIdx.map fun child => (child.2,(parse_samples child.1.console).1)
def o_by (children : List Child) : List (Nat × List Bytes) :=
  children.zipIdx.map fun child => (child.2,(parse_samples child.1.console).2)

def mt_col (children : List Child) : Nat := (cross (mt_by children)).length
def o_col (children : List Child) : Nat := (cross (o_by children)).length

/-- Whether a child has its branch context; `none` where the console raises. -/
def delivered (n : Nat) (child : Child × Nat) : Option Bool :=
  (parse_forked child.1.console).map fun fk => (fk.map fun fk => decide (fk.context = branch_context child.2 n)).getD false

def ctx_ok (children : List Child) : Option Nat := do
  let contexts ← children.zipIdx.mapM (delivered children.length)
  return contexts.countP id

/-- How far the clock of a child is off, in milliseconds, where it has one. -/
def skew (child : Child) : Option Rat :=
  match parse_forked child.console with
  | some (some fk) => if 0 < fk.clock then some (|child.host_true - fk.clock| * 1000) else none
  | _ => none

structure Report where
  alive_concurrently : Nat
  still_alive : Nat
  ok_ready : Nat
  mt_col : Nat
  o_col : Nat
  ctx_ok : Nat
  skew : Option Rat
  works : Bool
  deriving DecidableEq

/-- The verification; `works` says that `CONCURRENT FORK WORKS` is printed. It raises where a console does. -/
def verify (children : List Child) : Option Report := do
  let forks := children.length
  let alive := children.countP (·.alive_concurrently)
  let still := children.countP (·.still_alive)
  let ready := children.countP Child.ready
  let ctx ← ctx_ok children
  let concurrent := alive = forks ∧ still = forks
  return ⟨alive,still,ready,mt_col children,o_col children,ctx,(children.filterMap skew).max?,
    concurrent ∧ ready = forks ∧ mt_col children = 0 ∧ o_col children = 0 ∧ ctx = forks⟩

/-- A console with a sample line in it. -/
def Sampled (console : Option Bytes) : Prop :=
  ∃ before after, console = some (before ++ after) ∧ Laid SAMPLE_RE after

/-- No two of some children have a value in common. -/
def Distinct (children : List Child) (values : Child → List Bytes) : Prop :=
  ∀ (i j : Nat) (first second : Child), i ≠ j → children[i]? = some first → children[j]? = some second →
    ∀ v, v ∈ values first → v ∉ values second

/-- The values that at least two children have. -/
def Shared (children : List Child) (values : Child → List Bytes) : Set Bytes :=
  {v | ∃ (i j : Nat) (first second : Child), i ≠ j ∧ children[i]? = some first ∧ children[j]? = some second ∧
    v ∈ values first ∧ v ∈ values second}

def Child.mt (child : Child) : List Bytes := (parse_samples child.console).1
def Child.o (child : Child) : List Bytes := (parse_samples child.console).2

/-- The verdict speaks for samples in every console that no two children share, and the counts are those of the
    shared values. -/
structure Reliable (children : List Child) : Prop where
  verdict : ∀ report, verify children = some report → report.works = true →
    (∀ child ∈ children, Sampled child.console) ∧ Distinct children Child.mt ∧ Distinct children Child.o
  mt_count : mt_col children = (Shared children Child.mt).ncard
  o_count : o_col children = (Shared children Child.o).ncard

/-- Children that are alive and ready, have their branch contexts and share no value. -/
structure Passes (children : List Child) : Prop where
  alive : ∀ child ∈ children, child.alive_concurrently = true
  still : ∀ child ∈ children, child.still_alive = true
  ready : ∀ child ∈ children, child.ready = true
  context : ∀ (i : Nat) (child : Child), children[i]? = some child →
    ∃ clock, parse_forked child.console = some (some ⟨clock,branch_context i children.length⟩)
  mt : Distinct children Child.mt
  o : Distinct children Child.o

/-- Such children, some of them without a sample line. -/
structure Vacuous (children : List Child) : Prop extends Passes children where
  silent : ∃ child ∈ children, ¬ Sampled child.console

theorem sample_apart : Apart SAMPLE_RE :=
  ⟨⟨_,_,rfl,by decide⟩,⟨_,_,rfl,by decide⟩,⟨_,_,rfl,by decide⟩,trivial⟩

/-- A console has a value of each generator when it has a sample line. -/
theorem sampled_iff (console : Option Bytes) : Sampled console ↔ (parse_samples console).1 ≠ [] := by
  cases console with
  | none => simp [Sampled,parse_samples]
  | some data =>
    have found := findAll_ne_nil_iff (front SAMPLE_RE) (Nat.le_refl data.length)
    have nonempty : (parse_samples (some data)).1 ≠ [] ↔ findAll (front SAMPLE_RE) data.length data ≠ [] := by
      simp [parse_samples]
    rw [nonempty,found]
    constructor
    · rintro ⟨before,after,shape,laid⟩
      refine ⟨before,after,Option.some.inj shape,?_,(front_isSome_iff sample_apart after).mpr laid⟩
      rintro rfl
      obtain ⟨_,_,empty,_⟩ := laid
      cases empty
    · rintro ⟨before,after,shape,_,matched⟩
      exact ⟨before,after,congrArg some shape,laid_of_front matched⟩

/-! ## The inverted index -/

/-- An index without repetitions that says which children have which values. -/
structure Indexed (seen : List (Bytes × List Nat)) (pairs : List (Nat × Bytes)) : Prop where
  keys : (seen.map Prod.fst).Nodup
  children : ∀ entry ∈ seen, entry.2.Nodup
  holds : ∀ v c, (∃ entry ∈ seen, entry.1 = v ∧ c ∈ entry.2) ↔ (c,v) ∈ pairs

section
variable {seen : List (Bytes × List Nat)} {pairs : List (Nat × Bytes)} {v : Bytes} {c : Nat}

theorem note_keys (seen : List (Bytes × List Nat)) (c : Nat) (v : Bytes) : (note seen c v).map Prod.fst =
    if v ∈ seen.map Prod.fst then seen.map Prod.fst else seen.map Prod.fst ++ [v] := by
  unfold note
  split
  · rw [List.map_map]
    apply List.map_congr_left
    intro entry _
    by_cases same : entry.1 = v
    · simp [same]
    · simp [same]
  · simp

/-- What an index says after one more value of a child. -/
theorem note_holds (seen : List (Bytes × List Nat)) (c : Nat) (v : Bytes) (u : Bytes) (d : Nat) :
    (∃ entry ∈ note seen c v, entry.1 = u ∧ d ∈ entry.2) ↔
      (∃ entry ∈ seen, entry.1 = u ∧ d ∈ entry.2) ∨ (d = c ∧ u = v) := by
  unfold note
  split
  · rename_i known
    constructor
    · rintro ⟨entry',member,rfl,has⟩
      obtain ⟨entry,held,rfl⟩ := List.mem_map.mp member
      by_cases same : entry.1 = v
      · rw [if_pos same] at has ⊢
        rcases List.mem_insert_iff.mp has with rfl | before
        · exact .inr ⟨rfl,rfl⟩
        · exact .inl ⟨entry,held,same,before⟩
      · rw [if_neg same] at has ⊢
        exact .inl ⟨entry,held,rfl,has⟩
    · rintro (⟨entry,member,rfl,has⟩ | ⟨rfl,rfl⟩)
      · refine ⟨_,List.mem_map_of_mem member,?_⟩
        by_cases same : entry.1 = v
        · rw [if_pos same]
          exact ⟨same.symm,List.mem_insert_of_mem has⟩
        · rw [if_neg same]
          exact ⟨rfl,has⟩
      · obtain ⟨entry,member,same⟩ := List.mem_map.mp known
        refine ⟨_,List.mem_map_of_mem member,?_⟩
        rw [if_pos same]
        exact ⟨rfl,List.mem_insert_self⟩
  · constructor
    · rintro ⟨entry,member,rfl,has⟩
      rcases List.mem_append.mp member with old | new
      · exact .inl ⟨entry,old,rfl,has⟩
      · rw [List.mem_singleton.mp new] at has ⊢
        exact .inr ⟨by simpa using has,rfl⟩
    · rintro (⟨entry,member,rfl,has⟩ | ⟨rfl,rfl⟩)
      · exact ⟨entry,List.mem_append_left _ member,rfl,has⟩
      · exact ⟨_,List.mem_append_right _ (List.mem_singleton_self _),rfl,List.mem_singleton_self _⟩

/-- Step: one value of one child. -/
theorem Indexed.note (indexed : Indexed seen pairs) (c : Nat) (v : Bytes) :
    Indexed (Verdict.note seen c v) (pairs ++ [(c,v)]) := by
  refine ⟨?_,?_,?_⟩
  · rw [note_keys]
    split
    · exact indexed.keys
    · rename_i new
      refine List.nodup_append.mpr ⟨indexed.keys,List.nodup_singleton v,?_⟩
      rintro key member _ only rfl
      rw [List.mem_singleton.mp only] at member
      exact new member
  · intro entry member
    unfold Verdict.note at member
    split at member
    · obtain ⟨before,held,rfl⟩ := List.mem_map.mp member
      split
      · exact (indexed.children before held).insert
      · exact indexed.children before held
    · rcases List.mem_append.mp member with old | new
      · exact indexed.children entry old
      · rw [List.mem_singleton.mp new]
        exact List.nodup_singleton c
  · intro u d
    rw [note_holds,indexed.holds]
    simp

/-- Run: the values of one child. -/
theorem Indexed.notes (indexed : Indexed seen pairs) (c : Nat) (values : List Bytes) :
    Indexed (values.foldl (fun seen v => Verdict.note seen c v) seen) (pairs ++ values.map fun v => (c,v)) := by
  induction values generalizing seen pairs with
  | nil => simpa using indexed
  | cons v rest ih => simpa using ih (indexed.note c v)

/-- Run: the values of all children. -/
theorem indexed_index (vals : List (Nat × List Bytes)) :
    Indexed (index vals) (vals.flatMap fun child => child.2.map fun v => (child.1,v)) := by
  have run : ∀ seen pairs, Indexed seen pairs →
      Indexed (vals.foldl (fun seen child => child.2.foldl (fun seen v => note seen child.1 v) seen) seen)
        (pairs ++ vals.flatMap fun child => child.2.map fun v => (child.1,v)) := by
    induction vals with
    | nil =>
      intro seen pairs indexed
      simpa using indexed
    | cons child rest ih =>
      intro seen pairs indexed
      have more := ih _ _ (indexed.notes child.1 child.2)
      simpa using more
  have start : Indexed [] [] := ⟨List.nodup_nil,by simp,by simp⟩
  exact run [] [] start

/-- A list without repetitions has two elements when it has two different ones. -/
theorem two_le_length_iff {list : List Nat} (nodup : list.Nodup) :
    2 ≤ list.length ↔ ∃ i j, i ≠ j ∧ i ∈ list ∧ j ∈ list := by
  obtain _ | ⟨a,_ | ⟨b,more⟩⟩ := list
  · simp
  · simp
  · have apart : a ≠ b := by
      rintro rfl
      simp at nodup
    simp only [List.length_cons]
    exact ⟨fun _ => ⟨a,b,apart,by simp,by simp⟩,fun _ => by omega⟩

theorem cross_keys_nodup (vals : List (Nat × List Bytes)) : ((cross vals).map Prod.fst).Nodup :=
  (indexed_index vals).keys.sublist (List.filter_sublist.map _)

/-- `cross` finds the values that are listed under two children. -/
theorem mem_cross_keys {vals : List (Nat × List Bytes)} : v ∈ (cross vals).map Prod.fst ↔
    ∃ i j first second, i ≠ j ∧ (i,first) ∈ vals ∧ (j,second) ∈ vals ∧ v ∈ first ∧ v ∈ second := by
  have indexed := indexed_index vals
  have listed : ∀ c, (c,v) ∈ (vals.flatMap fun child => child.2.map fun v => (child.1,v)) ↔
      ∃ values, (c,values) ∈ vals ∧ v ∈ values := by
    intro c
    simp only [List.mem_flatMap,List.mem_map,Prod.mk.injEq,Prod.exists]
    constructor
    · rintro ⟨_,values,member,_,has,rfl,rfl⟩
      exact ⟨values,member,has⟩
    · rintro ⟨values,member,has⟩
      exact ⟨c,values,member,v,has,rfl,rfl⟩
  constructor
  · intro key
    obtain ⟨entry,member,rfl⟩ := List.mem_map.mp key
    obtain ⟨held,two⟩ := List.mem_filter.mp member
    obtain ⟨i,j,apart,left,right⟩ := (two_le_length_iff (indexed.children entry held)).mp (by simpa using two)
    obtain ⟨first,inFirst,hasFirst⟩ := (listed i).mp ((indexed.holds entry.1 i).mp ⟨entry,held,rfl,left⟩)
    obtain ⟨second,inSecond,hasSecond⟩ := (listed j).mp ((indexed.holds entry.1 j).mp ⟨entry,held,rfl,right⟩)
    exact ⟨i,j,first,second,apart,inFirst,inSecond,hasFirst,hasSecond⟩
  · rintro ⟨i,j,first,second,apart,inFirst,inSecond,hasFirst,hasSecond⟩
    obtain ⟨entry,held,same,left⟩ := (indexed.holds v i).mpr ((listed i).mpr ⟨first,inFirst,hasFirst⟩)
    obtain ⟨entry',held',same',right⟩ := (indexed.holds v j).mpr ((listed j).mpr ⟨second,inSecond,hasSecond⟩)
    have one : entry' = entry := List.inj_on_of_nodup_map indexed.keys held' held (same'.trans same.symm)
    have two := (two_le_length_iff (indexed.children entry held)).mpr ⟨i,j,apart,left,one ▸ right⟩
    exact List.mem_map.mpr ⟨entry,List.mem_filter.mpr ⟨held,by simpa using two⟩,same⟩

end

section
variable {children : List Child}

/-- The values of the children by their numbers. -/
theorem mem_cross_children (values : Child → List Bytes) (v : Bytes) :
    v ∈ (cross (children.zipIdx.map fun child => (child.2,values child.1))).map Prod.fst ↔ v ∈ Shared children values := by
  have listed : ∀ i vs, (i,vs) ∈ (children.zipIdx.map fun child => (child.2,values child.1)) ↔
      ∃ child, children[i]? = some child ∧ vs = values child := by
    intro i vs
    simp only [List.mem_map,Prod.exists,Prod.mk.injEq,List.mem_zipIdx_iff_getElem?]
    constructor
    · rintro ⟨child,_,found,rfl,rfl⟩
      exact ⟨child,found,rfl⟩
    · rintro ⟨child,found,rfl⟩
      exact ⟨child,i,found,rfl,rfl⟩
  rw [mem_cross_keys]
  constructor
  · rintro ⟨i,j,_,_,apart,left,right,hasFirst,hasSecond⟩
    obtain ⟨first,foundFirst,rfl⟩ := (listed i _).mp left
    obtain ⟨second,foundSecond,rfl⟩ := (listed j _).mp right
    exact ⟨i,j,first,second,apart,foundFirst,foundSecond,hasFirst,hasSecond⟩
  · rintro ⟨i,j,first,second,apart,foundFirst,foundSecond,hasFirst,hasSecond⟩
    exact ⟨i,j,_,_,apart,(listed i _).mpr ⟨first,foundFirst,rfl⟩,(listed j _).mpr ⟨second,foundSecond,rfl⟩,hasFirst,hasSecond⟩

/-- As many collisions are counted as there are values that children share. -/
theorem cross_length (values : Child → List Bytes) :
    (cross (children.zipIdx.map fun child => (child.2,values child.1))).length = (Shared children values).ncard := by
  have keys : Shared children values =
      ↑((cross (children.zipIdx.map fun child => (child.2,values child.1))).map Prod.fst).toFinset := by
    ext v
    simp only [List.coe_toFinset,Set.mem_ofPred_eq]
    exact (mem_cross_children values v).symm
  rw [keys,Set.ncard_coe_finset,List.toFinset_card_of_nodup (cross_keys_nodup _),List.length_map]

/-- No collision is counted when no two children have a value in common. -/
theorem cross_length_zero (children : List Child) (values : Child → List Bytes) :
    (cross (children.zipIdx.map fun child => (child.2,values child.1))).length = 0 ↔ Distinct children values := by
  rw [List.length_eq_zero_iff,← List.map_eq_nil_iff (f := Prod.fst),List.eq_nil_iff_forall_not_mem]
  constructor
  · intro none i j first second apart foundFirst foundSecond v left right
    exact none v ((mem_cross_children values v).mpr ⟨i,j,first,second,apart,foundFirst,foundSecond,left,right⟩)
  · intro distinct v key
    obtain ⟨i,j,first,second,apart,foundFirst,foundSecond,left,right⟩ := (mem_cross_children values v).mp key
    exact distinct i j first second apart foundFirst foundSecond v left right

theorem mapM_eq_some_iff {α β : Type} {list : List α} {f : α → Option β} {results : List β} :
    list.mapM f = some results ↔ list.map f = results.map some := by
  induction list generalizing results with
  | nil => cases results <;> simp
  | cons a rest ih =>
    rw [List.mapM_cons]
    cases here : f a with
    | none => cases results <;> simp [here]
    | some b =>
      cases results with
      | nil => cases rest.mapM f <;> simp
      | cons b' others =>
        simp only [Option.bind_eq_bind,Option.bind_some,List.map_cons,List.cons.injEq,here,Option.some.injEq,← ih]
        cases later : rest.mapM f <;> simp

/-- All of a list answer yes when none of them raises and as many answer so as there are. -/
theorem mapM_all {α : Type} (list : List α) (answer : α → Option Bool) :
    (∃ answers, list.mapM answer = some answers ∧ answers.countP id = list.length) ↔ ∀ a ∈ list, answer a = some true := by
  constructor
  · rintro ⟨answers,ran,count⟩ a member
    have same := mapM_eq_some_iff.mp ran
    have size : list.length = answers.length := by simpa using congrArg List.length same
    have yes := List.countP_eq_length.mp (count.trans size)
    have found : answer a ∈ answers.map some := same ▸ List.mem_map_of_mem member
    obtain ⟨b,held,here⟩ := List.mem_map.mp found
    rw [← here]
    exact congrArg some (yes b held)
  · intro yes
    refine ⟨list.map fun _ => true,mapM_eq_some_iff.mpr ?_,by simp [List.countP_replicate]⟩
    rw [List.map_map]
    exact List.map_congr_left yes

theorem delivered_iff (n : Nat) (child : Child) (i : Nat) : delivered n (child,i) = some true ↔
    ∃ clock, parse_forked child.console = some (some ⟨clock,branch_context i n⟩) := by
  unfold delivered
  cases parse_forked child.console with
  | none => simp
  | some found =>
    cases found with
    | none => simp
    | some forked =>
      obtain ⟨clock,context⟩ := forked
      simp

/-- Every child has its branch context. -/
theorem ctx_ok_iff : ctx_ok children = some children.length ↔ ∀ (i : Nat) (child : Child), children[i]? = some child →
    ∃ clock, parse_forked child.console = some (some ⟨clock,branch_context i children.length⟩) := by
  have all := mapM_all children.zipIdx (delivered children.length)
  rw [List.length_zipIdx] at all
  have count : ctx_ok children = some children.length ↔
      ∃ answers, children.zipIdx.mapM (delivered children.length) = some answers ∧ answers.countP id = children.length := by
    simp [ctx_ok,Option.bind_eq_some_iff]
  rw [count,all]
  constructor
  · intro yes i child found
    exact (delivered_iff _ child i).mp (yes (child,i) (List.mem_zipIdx_iff_getElem?.mpr found))
  · rintro contexts ⟨child,i⟩ member
    exact (delivered_iff _ child i).mpr (contexts i child (List.mem_zipIdx_iff_getElem?.mp member))

/-- The words are printed exactly where every check passes. -/
theorem works_iff : (∃ report, verify children = some report ∧ report.works = true) ↔ Passes children := by
  have checks : (∃ report, verify children = some report ∧ report.works = true) ↔
      ctx_ok children = some children.length ∧ children.countP (·.alive_concurrently) = children.length ∧
        children.countP (·.still_alive) = children.length ∧ children.countP Child.ready = children.length ∧
        mt_col children = 0 ∧ o_col children = 0 := by
    unfold verify
    cases ctx_ok children with
    | none => simp
    | some ctx =>
      simp
      tauto
  rw [checks,ctx_ok_iff,List.countP_eq_length,List.countP_eq_length,List.countP_eq_length]
  have mt := cross_length_zero children Child.mt
  have o := cross_length_zero children Child.o
  constructor
  · rintro ⟨contexts,alive,still,ready,noMt,noO⟩
    exact ⟨alive,still,ready,contexts,mt.mp noMt,o.mp noO⟩
  · intro passes
    exact ⟨passes.context,passes.alive,passes.still,passes.ready,mt.mpr passes.mt,o.mpr passes.o⟩

/-- The verdict and its counts are right exactly where it is not the silence of a child that passes. -/
theorem verdict_iff (children : List Child) : Reliable children ↔ ¬ Vacuous children := by
  constructor
  · rintro reliable ⟨passes,child,member,silent⟩
    obtain ⟨report,ran,works⟩ := works_iff.mpr passes
    exact silent ((reliable.verdict report ran works).1 child member)
  · intro sound
    refine ⟨?_,cross_length Child.mt,cross_length Child.o⟩
    intro report ran works
    have passes := works_iff.mp ⟨report,ran,works⟩
    refine ⟨?_,passes.mt,passes.o⟩
    intro child member
    by_contra silent
    exact sound ⟨passes,child,member,silent⟩

end

/-- A child whose console has the line of the handshake and nothing else. -/
def quiet (i n : Nat) : Child :=
  ⟨true,.ok (.obj [("status",.str "READY")]),5,true,
    some (encode ("KLADOS_FORKED index=" ++ toString i ++ " gen=1 clock=5.0 context=" ++ branch_context i n ++ "\r\n"))⟩

/-- Two such children pass without a single sample. -/
theorem verdict_quiet : ¬ Reliable [quiet 0 2,quiet 1 2] := by
  intro reliable
  have printed : verify [quiet 0 2,quiet 1 2] = some ⟨2,2,2,0,0,2,some 0,true⟩ := by decide +kernel
  have sampled := (reliable.verdict _ printed rfl).1 (quiet 0 2) (List.mem_cons_self ..)
  have nothing : (parse_samples (quiet 0 2).console).1 = [] := by decide +kernel
  exact (sampled_iff _).mp sampled nothing

end Klados.Verdict
