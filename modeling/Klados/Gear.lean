import Klados.Cas
import Mathlib.Data.Nat.ModEq
import Mathlib.Tactic.Ring

/-!
Content-defined chunking (`CAS._blocks` with `cdc`). The loop cuts where its decision on the current
chunk says so, and the decision looks at the size of the chunk and at the low 13 bits of the gear hash.
A byte's contribution is shifted out of these after 13 more bytes, so the hash is a window.
-/
namespace Klados
open Blocks

/-- The gear hash after some bytes. -/
def roll (gear : UInt8 → UInt64) (h : UInt64) (bytes : Bytes) : UInt64 :=
  bytes.foldl (fun h b => (h <<< 1) + gear b) h

theorem roll_append (gear : UInt8 → UInt64) (h : UInt64) (first second : Bytes) :
    roll gear h (first ++ second) = roll gear (roll gear h first) second := List.foldl_append

/-- `(h & mask) == 0`. -/
theorem masked_iff (h : UInt64) : h &&& 8191 = 0 ↔ h.toNat % 8192 = 0 := by
  rw [← UInt64.toNat_inj,UInt64.toNat_and]
  show h.toNat &&& (2 ^ 13 - 1) = 0 ↔ _
  rw [Nat.and_two_pow_sub_one_eq_mod]

/-- One more byte, and hashes that agree in their low bits agree in one more. -/
theorem shift_agree {n : Nat} (small : n < 64) {a b : UInt64} (agree : a.toNat % 2 ^ n = b.toNat % 2 ^ n) (g : UInt64) :
    ((a <<< 1) + g).toNat % 2 ^ (n + 1) = ((b <<< 1) + g).toNat % 2 ^ (n + 1) := by
  have shifted : ∀ x : UInt64, ((x <<< 1) + g).toNat % 2 ^ (n + 1) = (x.toNat * 2 + g.toNat) % 2 ^ (n + 1) := by
    intro x
    have divides : 2 ^ (n + 1) ∣ 2 ^ 64 := Nat.pow_dvd_pow 2 small
    rw [UInt64.toNat_add,Nat.mod_mod_of_dvd _ divides,Nat.add_mod,UInt64.toNat_shiftLeft,Nat.mod_mod_of_dvd _ divides,
      ← Nat.add_mod,Nat.shiftLeft_eq]
    rfl
  rw [shifted,shifted]
  have doubled : a.toNat * 2 % 2 ^ (n + 1) = b.toNat * 2 % 2 ^ (n + 1) := by
    rw [pow_succ,Nat.mul_mod_mul_right,Nat.mul_mod_mul_right,agree]
  rw [Nat.add_mod,doubled,← Nat.add_mod]

/-- After some bytes the hashes agree in as many low bits, whatever they were before. -/
theorem roll_agree (gear : UInt8 → UInt64) (bytes : Bytes) (small : bytes.length ≤ 64) (a b : UInt64) :
    (roll gear a bytes).toNat % 2 ^ bytes.length = (roll gear b bytes).toNat % 2 ^ bytes.length := by
  induction bytes using List.reverseRecOn with
  | nil => simp [Nat.mod_one]
  | append_singleton bytes x ih =>
    rw [List.length_append,List.length_singleton] at small
    rw [roll_append,roll_append,List.length_append,List.length_singleton]
    exact shift_agree (by omega) (ih (by omega)) (gear x)

/-- The last 13 bytes. -/
def window (chunk : Bytes) : Bytes := chunk.drop (chunk.length - 13)

/-- The bits that the decision looks at are those of the window. -/
theorem roll_window (gear : UInt8 → UInt64) (h : UInt64) {chunk : Bytes} (long : 13 ≤ chunk.length) :
    (roll gear h chunk).toNat % 8192 = (roll gear 0 (window chunk)).toNat % 8192 := by
  have length : (window chunk).length = 13 := by
    rw [window,List.length_drop]
    omega
  have split : chunk = chunk.take (chunk.length - 13) ++ window chunk := (List.take_append_drop _ _).symm
  have agree := roll_agree gear (window chunk) (by omega) (roll gear h (chunk.take (chunk.length - 13))) 0
  rw [length,← roll_append,← split] at agree
  exact agree

/-- Whether `_blocks` cuts when the current chunk has come to be this. -/
def gearStop (gear : UInt8 → UInt64) (chunk : Bytes) : Prop :=
  (chunk.length ≥ 2048 ∧ roll gear 0 chunk &&& 8191 = 0) ∨ chunk.length ≥ 65536

instance (gear : UInt8 → UInt64) : DecidablePred (gearStop gear) := fun chunk => by
  unfold gearStop
  infer_instance

/-- The loop cuts by its decision: the hash that it carries is that of the current chunk. -/
theorem gearBlocks_eq_cutBy (gear : UInt8 → UInt64) (chunk data : Bytes) :
    gearBlocks gear (roll gear 0 chunk) chunk data = cutBy (gearStop gear) chunk data := by
  induction data generalizing chunk with
  | nil =>
    unfold gearBlocks cutBy
    cases chunk <;> rfl
  | cons b rest ih =>
    have hash : (roll gear 0 chunk <<< 1) + gear b = roll gear 0 (chunk ++ [b]) := by rw [roll_append]; rfl
    unfold gearBlocks cutBy
    dsimp only
    rw [hash]
    by_cases stops : gearStop gear (chunk ++ [b])
    · have now := stops
      unfold gearStop at now
      rw [if_pos stops,if_pos now]
      exact congrArg _ (ih [])
    · have on := stops
      unfold gearStop at on
      rw [if_neg stops,if_neg on]
      exact ih (chunk ++ [b])

/-- Between the bounds of the size the decision is one on the window. -/
theorem gearStop_window (gear : UInt8 → UInt64) {chunk : Bytes} (least : 2048 ≤ chunk.length)
    (most : chunk.length < 65536) :
    gearStop gear chunk ↔ (roll gear 0 (window chunk)).toNat % 8192 = 0 := by
  rw [← roll_window gear 0 (by omega),← masked_iff]
  constructor
  · rintro (⟨_,zero⟩ | long)
    · exact zero
    · omega
  · intro zero
    exact .inl ⟨least,zero⟩

theorem stops_size {gear : UInt8 → UInt64} {chunk : Bytes} (stops : Stops (gearStop gear) chunk) :
    2048 ≤ chunk.length ∧ chunk.length ≤ 65536 := by
  constructor
  · rcases stops.ends with ⟨least,_⟩ | most
    · exact least
    · omega
  · by_contra long
    refine stops.first (chunk.take 65536) (chunk.drop 65536) (List.take_append_drop ..).symm ?_ ?_ (.inr ?_)
    · intro empty
      have := congrArg List.length empty
      simp only [List.length_take,List.length_nil] at this
      omega
    · intro empty
      have := congrArg List.length empty
      simp only [List.length_drop,List.length_nil] at this
      omega
    · rw [List.length_take]
      omega

theorem endless_size {gear : UInt8 → UInt64} {data : Bytes} (endless : Endless (gearStop gear) data) (some : data ≠ []) :
    data.length < 65536 := by
  by_contra long
  exact endless data [] (by simp) some (.inr (by omega))

theorem blocks_cdc {P : Platform} {store : Cas} (cdc : store.cdc = true) (data : Bytes) :
    blocks P store data = cutBy (gearStop P.gear) [] data := by
  rw [blocks,if_pos cdc]
  exact gearBlocks_eq_cutBy P.gear [] data

/-- When `_blocks` cuts. -/
def Cas.Stop (P : Platform) (store : Cas) (chunk : Bytes) : Prop :=
  if store.cdc then gearStop P.gear chunk else store.block ≤ chunk.length

instance (P : Platform) (store : Cas) : DecidablePred (store.Stop P) := fun chunk => by
  unfold Cas.Stop
  infer_instance

/-- `_blocks` cuts by its decision on the current chunk, in both modes. -/
theorem blocks_eq_cutBy {P : Platform} {store : Cas} (cuts : store.cdc = true ∨ 0 < store.block) (data : Bytes) :
    blocks P store data = cutBy (store.Stop P) [] data := by
  unfold blocks
  by_cases cdc : store.cdc = true
  · have decision : store.Stop P = gearStop P.gear := funext fun chunk => if_pos cdc
    rw [if_pos cdc]
    simp only [decision]
    exact gearBlocks_eq_cutBy P.gear [] data
  · have decision : store.Stop P = fun chunk => store.block ≤ chunk.length := funext fun chunk => if_neg cdc
    rw [if_neg cdc]
    simp only [decision]
    exact slices_eq_cutBy (cuts.resolve_left cdc) data

/-- Cutting loses nothing. -/
theorem blocks_flatten {P : Platform} {store : Cas} (cuts : store.cdc = true ∨ 0 < store.block) (data : Bytes) :
    (blocks P store data).flatten = data := by
  rw [blocks_eq_cutBy cuts]
  exact cutBy_flatten data

/-- Every chunk but the last, and the last. -/
theorem gearBlocks_size (gear : UInt8 → UInt64) (data : Bytes) :
    (∀ chunk ∈ (gearBlocks gear 0 [] data).dropLast, 2048 ≤ chunk.length ∧ chunk.length ≤ 65536) ∧
      ∀ chunk ∈ (gearBlocks gear 0 [] data).getLast?, 1 ≤ chunk.length ∧ chunk.length ≤ 65536 := by
  rw [show gearBlocks gear 0 [] data = cutBy (gearStop gear) [] data from gearBlocks_eq_cutBy gear [] data]
  induction data using cutBy_induction (gearStop gear) with
  | nil => simp [cutBy_nil]
  | last data some endless =>
    have long := List.length_pos_iff.mpr some
    have short := endless_size endless some
    rw [endless.cut some]
    constructor
    · simp
    · intro chunk last
      simp only [List.getLast?_singleton,Option.mem_def,Option.some.injEq] at last
      subst last
      omega
  | step chunk rest stops ih =>
    obtain ⟨least,most⟩ := stops_size stops
    rw [stops.cut]
    by_cases more : cutBy (gearStop gear) [] rest = []
    · rw [more]
      constructor
      · simp
      · intro chunk' last
        simp only [List.getLast?_singleton,Option.mem_def,Option.some.injEq] at last
        subst last
        omega
    · rw [List.dropLast_cons_of_ne_nil more,List.getLast?_cons_of_ne_nil more]
      refine ⟨?_,ih.2⟩
      intro chunk' member
      rcases List.mem_cons.mp member with rfl | later
      · exact ⟨least,most⟩
      · exact ih.1 chunk' later

/-- The chunk of which byte `i` is read starts at `start`: nothing is cut after that up to the byte. -/
def Current (chunks : List Bytes) (start i : Nat) : Prop :=
  Boundary chunks start ∧ start ≤ i ∧ ∀ k, Boundary chunks k → k ≤ start ∨ i < k

/-- What the gear hash of a window says. -/
def windowCuts (gear : UInt8 → UInt64) (bytes : Bytes) : Bool := (roll gear 0 bytes).toNat % 8192 = 0

/-- Between the bounds of the size, whether the chunk is cut after a byte is seen in the last 13 bytes. -/
theorem cut_by_window (gear : UInt8 → UInt64) {data : Bytes} {start i : Nat}
    (current : Current (gearBlocks gear 0 [] data) start i) (inside : i + 1 < data.length)
    (least : 2048 ≤ i + 1 - start) (most : i + 1 - start < 65536) :
    Boundary (gearBlocks gear 0 [] data) (i + 1) ↔ windowCuts gear ((data.take (i + 1)).drop (i + 1 - 13)) = true := by
  have same : ∀ bytes, gearBlocks gear 0 [] bytes = cutBy (gearStop gear) [] bytes := gearBlocks_eq_cutBy gear []
  rw [same] at current ⊢
  obtain ⟨boundary,before,first⟩ := current
  have front : (cutBy (gearStop gear) [] (data.take start)).flatten.length = start := by
    rw [cutBy_flatten,List.length_take]
    omega
  -- The chunks from `start` on, where nothing is cut up to the byte.
  have apart : ∀ k, Boundary (cutBy (gearStop gear) [] data) (start + k) ↔
      Boundary (cutBy (gearStop gear) [] (data.drop start)) k := by
    intro k
    have joined : Boundary (cutBy (gearStop gear) [] (data.take start) ++ cutBy (gearStop gear) [] (data.drop start))
        ((cutBy (gearStop gear) [] (data.take start)).flatten.length + k) ↔ _ := boundary_append
    rw [front,← cutBy_resumes data boundary] at joined
    exact joined
  have place : i + 1 = start + (i + 1 - start) := by omega
  have read : (data.drop start).take (i + 1 - start) = (data.take (i + 1)).drop start := by
    rw [List.drop_take]
  have length : ((data.drop start).take (i + 1 - start)).length = i + 1 - start := by
    rw [List.length_take,List.length_drop]
    omega
  rw [place,apart,← place,cutBy_boundary _ (by omega) (by rw [List.length_drop]; omega),
    gearStop_window gear (by omega) (by omega),windowCuts,decide_eq_true_iff,window,length,read,List.drop_drop]
  · rw [show start + (i + 1 - start - 13) = i + 1 - 13 by omega]
  · intro j cut
    rcases first (start + j) ((apart j).mpr cut) with early | late
    · exact .inl (by omega)
    · exact .inr (by omega)

/-- Content-defined chunking loses nothing, keeps the sizes in their bounds, decides by a window of 13
    bytes, and goes on from a boundary as from the beginning. -/
theorem cdc_chunking (P : Platform) {store : Cas} (cdc : store.cdc = true) (data : Bytes) :
    (blocks P store data).flatten = data ∧
    ((∀ chunk ∈ (blocks P store data).dropLast, 2048 ≤ chunk.length ∧ chunk.length ≤ 65536) ∧
      ∀ chunk ∈ (blocks P store data).getLast?, 1 ≤ chunk.length ∧ chunk.length ≤ 65536) ∧
    (∀ start i, Current (blocks P store data) start i → i + 1 < data.length → 2048 ≤ i + 1 - start →
      i + 1 - start < 65536 →
      (Boundary (blocks P store data) (i + 1) ↔ windowCuts P.gear ((data.take (i + 1)).drop (i + 1 - 13)) = true)) ∧
    (∀ k, Boundary (blocks P store data) k →
      blocks P store data = blocks P store (data.take k) ++ blocks P store (data.drop k)) ∧
    ∀ front other rest, data = front ++ rest → Boundary (blocks P store data) front.length →
      Boundary (blocks P store (other ++ rest)) other.length →
      blocks P store data = blocks P store front ++ blocks P store rest ∧
        blocks P store (other ++ rest) = blocks P store other ++ blocks P store rest := by
  have same : ∀ bytes, blocks P store bytes = gearBlocks P.gear 0 [] bytes := fun bytes => if_pos cdc
  have cut : ∀ bytes, gearBlocks P.gear 0 [] bytes = cutBy (gearStop P.gear) [] bytes := gearBlocks_eq_cutBy P.gear []
  have resumes : ∀ bytes k, Boundary (blocks P store bytes) k →
      blocks P store bytes = blocks P store (bytes.take k) ++ blocks P store (bytes.drop k) := by
    intro bytes k boundary
    simp only [same,cut] at boundary ⊢
    exact cutBy_resumes bytes boundary
  refine ⟨?_,?_,?_,resumes data,?_⟩
  · rw [same,cut]
    exact cutBy_flatten data
  · rw [same]
    exact gearBlocks_size P.gear data
  · rw [same]
    exact fun start i current inside least most => cut_by_window P.gear current inside least most
  · intro front other rest split boundary boundary'
    subst split
    have first := resumes _ _ boundary
    have second := resumes _ _ boundary'
    rw [List.take_left,List.drop_left] at first second
    exact ⟨first,second⟩

/-- `_GEAR` at the bytes 0 and 1, which are all that the file holds. -/
def gear01 : UInt8 → UInt64
  | 0 => 10734006239897485896
  | 1 => 65369308820478381
  | _ => 0

def cdcPlatform : Platform := { Platform.plain with gear := gear01 }

/-- 13 bytes whose gear hash ends in 13 zero bits. -/
def cuttingWindow : Bytes := [0,1,0,0,0,1,0,1,0,1,0,0,0]

/-- The first chunk: one byte longer than the least size. -/
def firstChunk : Bytes := List.replicate 2036 0 ++ cuttingWindow

theorem firstChunk_length : firstChunk.length = 2049 := by
  rw [firstChunk,List.length_append,List.length_replicate]
  rfl

theorem firstChunk_stops : Stops (gearStop gear01) firstChunk := by
  have length := firstChunk_length
  refine ⟨?_,(by intro empty; rw [empty] at length; cases length),?_⟩
  · rw [gearStop_window gear01 (by omega) (by omega),window,length,firstChunk,
      List.drop_left' (by rw [List.length_replicate])]
    decide
  · intro before after split _ more stops
    have shorter : before.length < 2049 := by
      have := congrArg List.length split
      have := List.length_pos_iff.mpr more
      rw [length,List.length_append] at *
      omega
    have least : 2048 ≤ before.length := by
      rcases stops with ⟨least,_⟩ | most
      · exact least
      · omega
    have same : before = List.replicate 2036 0 ++ cuttingWindow.take 12 := by
      have taken : before = firstChunk.take 2048 := by
        rw [split,List.take_left' (by omega)]
      rw [taken,firstChunk,List.take_append,List.take_of_length_le (by rw [List.length_replicate]; omega),
        List.length_replicate]
    have seen : window before = 0 :: cuttingWindow.take 12 := by
      rw [window,show before.length - 13 = 2035 by omega,same,
        show (2036 : Nat) = 2035 + 1 from rfl,List.replicate_succ',List.append_assoc,
        List.drop_left' (by rw [List.length_replicate])]
      rfl
    rw [gearStop_window gear01 least (by omega),seen] at stops
    revert stops
    decide

/-- Zeros are cut at the greatest size. -/
theorem zeros_stop : Stops (gearStop gear01) (List.replicate 65536 0) := by
  refine ⟨.inr (by rw [List.length_replicate]),by rw [← List.length_pos_iff,List.length_replicate]; omega,?_⟩
  intro before after split _ more stops
  have lengths := congrArg List.length split
  have pos := List.length_pos_iff.mpr more
  rw [List.length_replicate,List.length_append] at lengths
  have zeros : before = List.replicate before.length 0 :=
    List.eq_replicate_length.mpr fun x member => List.eq_of_mem_replicate (split ▸ List.mem_append_left _ member)
  have least : 2048 ≤ before.length := by
    rcases stops with ⟨least,_⟩ | most
    · exact least
    · omega
  have seen : window before = List.replicate 13 0 := by
    rw [window,zeros,List.length_replicate,List.drop_replicate]
    congr 1
    omega
  rw [gearStop_window gear01 least (by omega),seen] at stops
  revert stops
  decide

theorem zeros_cut (m : Nat) : cutBy (gearStop gear01) [] (List.replicate (m * 65536) 0) =
    List.replicate m (List.replicate 65536 0) := by
  induction m with
  | zero => rw [Nat.zero_mul]; rfl
  | succ m ih => rw [Nat.succ_mul,Nat.add_comm,List.replicate_add,zeros_stop.cut,ih,List.replicate_succ (n := m)]

/-- `CAS(cdc=True)`. -/
def measuring (cdc : Bool) : Cas := ⟨false,4096,cdc,false,[],[],0,0,0⟩

/-- A chunk that the content ends, and zeros. -/
def cutting : Bytes := firstChunk ++ List.replicate (2 * 65536) 0

theorem cutting_blocks :
    blocks cdcPlatform (measuring true) cutting = firstChunk :: List.replicate 2 (List.replicate 65536 0) := by
  rw [blocks_cdc rfl,cutting]
  exact (firstChunk_stops.cut _).trans (congrArg _ (zeros_cut 2))

theorem cutting_boundary : Boundary (blocks cdcPlatform (measuring true) cutting) firstChunk.length :=
  ⟨1,by rw [cutting_blocks,List.take_succ_cons,List.take_zero,List.flatten_cons,List.flatten_nil,List.append_nil]⟩

/-- Nothing is cut before the end of the first chunk. -/
theorem cutting_current : Current (blocks cdcPlatform (measuring true) cutting) 0 2048 := by
  refine ⟨⟨0,rfl⟩,Nat.zero_le _,?_⟩
  rintro k ⟨n,rfl⟩
  cases n with
  | zero => exact .inl le_rfl
  | succ n =>
    rw [cutting_blocks,List.take_succ_cons,List.flatten_cons,List.length_append,firstChunk_length]
    exact .inr (by omega)

/-- The first chunk ends where its last 13 bytes say so, and the zeros are cut as if something else came first. -/
theorem cdc_chunking_cutting : (blocks cdcPlatform (measuring true) cutting).flatten = cutting ∧
    windowCuts gear01 ((cutting.take 2049).drop 2036) = true ∧
    blocks cdcPlatform (measuring true) cutting =
      blocks cdcPlatform (measuring true) firstChunk ++ blocks cdcPlatform (measuring true) (List.replicate (2 * 65536) 0) ∧
    blocks cdcPlatform (measuring true) (List.replicate 65536 0 ++ List.replicate (2 * 65536) 0) =
      blocks cdcPlatform (measuring true) (List.replicate 65536 0) ++
        blocks cdcPlatform (measuring true) (List.replicate (2 * 65536) 0) := by
  obtain ⟨whole,-,window,-,resumes⟩ := cdc_chunking cdcPlatform (show (measuring true).cdc = true from rfl) cutting
  have long : cutting.length = 2049 + 2 * 65536 := by
    rw [cutting,List.length_append,firstChunk_length,List.length_replicate]
  have cut : Boundary (blocks cdcPlatform (measuring true) cutting) 2049 := firstChunk_length ▸ cutting_boundary
  have other : Boundary (blocks cdcPlatform (measuring true) (List.replicate 65536 0 ++ List.replicate (2 * 65536) 0))
      (List.replicate 65536 (0 : UInt8)).length := by
    refine ⟨1,?_⟩
    have first := zeros_stop.cut (List.replicate (2 * 65536) 0)
    rw [blocks_cdc rfl,show cdcPlatform.gear = gear01 from rfl,first,List.take_succ_cons,List.take_zero,List.flatten_cons,
      List.flatten_nil,List.append_nil]
  exact ⟨whole,(window 0 2048 cutting_current (by omega) (by omega) (by omega)).mp cut,
    resumes firstChunk (List.replicate 65536 0) (List.replicate (2 * 65536) 0) rfl cutting_boundary other⟩

end Klados
