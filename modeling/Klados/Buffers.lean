import Klados.Counters

/-!
What the read buffer of `put_file` does to the chunks. Each buffer is cut by itself, so the chunks are
those of the whole file exactly when the file is cut where the buffers end: always with blocks that
divide the buffer, and with content-defined chunks only where the content has it so.
-/
namespace Klados
open Effects
open Blocks

/-- The whole file is cut wherever a buffer ends inside it. -/
def Aligned (P : Platform) (store : Cas) (data : Bytes) : Prop :=
  ∀ k, k * readBuffer < data.length → Boundary (blocks P store data) (k * readBuffer)

section
variable {P : Platform} {store : Cas}

theorem chunks_of_buffers (cuts : store.cdc = true ∨ 0 < store.block) (path : Path) (data : Bytes) :
    (Put.file path).chunks P store data = (Put.bytes data).chunks P store data ↔ Aligned P store data := by
  have same : ∀ bytes, blocks P store bytes = cutBy (store.Stop P) [] bytes := blocks_eq_cutBy cuts
  unfold Put.chunks Aligned reads
  simp only [same]
  rw [show blocks P store = cutBy (store.Stop P) [] from funext same]
  exact cutBy_slices (by decide) data

/-- Blocks that divide the buffer end where it does. -/
theorem aligned_of_dvd (fixed : store.cdc = false) (pos : 0 < store.block) (divides : store.block ∣ readBuffer)
    (data : Bytes) : Aligned P store data := by
  intro k inside
  have same : ∀ bytes, blocks P store bytes = slices store.block bytes := fun bytes => if_neg (by simp [fixed])
  have length : (data.take (k * readBuffer)).length = k * readBuffer := by
    rw [List.length_take]
    omega
  have split := slices_append pos (data.take (k * readBuffer)) (data.drop (k * readBuffer))
    (by rw [length]; exact Dvd.dvd.mul_left divides k)
  rw [List.take_append_drop] at split
  rw [same,split]
  exact ⟨(slices store.block (data.take (k * readBuffer))).length,by rw [List.take_left,slices_flatten pos,length]⟩

end

/-- Chunks considered are known by their hashes, also in lists. -/
theorem Platform.Distinguishes.lists {P : Platform} {K : Bytes → Prop} (apart : P.Distinguishes K) {first second : List Bytes}
    (left : ∀ blk ∈ first, K blk) (right : ∀ blk ∈ second, K blk) (same : first.map P.blake2b = second.map P.blake2b) :
    first = second := by
  induction first generalizing second with
  | nil => exact (List.map_eq_nil_iff.mp same.symm).symm
  | cons blk rest ih =>
    cases second with
    | nil => cases same
    | cons blk' rest' =>
      obtain ⟨hash,hashes⟩ := List.cons.inj same
      rw [apart blk blk' (left blk (List.mem_cons_self ..)) (right blk' (List.mem_cons_self ..)) hash,
        ih (fun x member => left x (List.mem_cons_of_mem _ member)) (fun x member => right x (List.mem_cons_of_mem _ member))
          hashes]

/-- The passes of a call do to the object what the chunks do. -/
theorem stock_store {P : Platform} (blks : List Bytes) (w : World) :
    (blks.foldl (World.stock P) w).mem.store = blks.foldl (Cas.take P) w.mem.store := by
  induction blks generalizing w with
  | nil => rfl
  | cons blk rest ih => exact ih (w.stock P blk)

/-- Two calls that were given the same chunks return the same manifest and leave the same object. -/
theorem same_of_chunks {P : Platform} (put put' : Put) {w v x y : World} {data data' : Bytes}
    (equal : x.mem.store = w.mem.store) (given : put.data w = some data) (given' : put'.data x = some data')
    (chunks : put.chunks P w.mem.store data = put'.chunks P w.mem.store data') {manifest manifest' : List Digest}
    (ran : Does (acts P) (put.prog P) w (.ok manifest) v) (ran' : Does (acts P) (put'.prog P) x (.ok manifest') y) :
    manifest = manifest' ∧ v.mem.store = y.mem.store := by
  obtain ⟨rfl,rfl⟩ := of_returned put given ran
  obtain ⟨rfl,rfl⟩ := of_returned put' given' ran'
  rw [stock_store,stock_store,equal,chunks]
  exact ⟨rfl,rfl⟩

/-- `put_file` of a file and `put_bytes` of its contents, on equal objects: with blocks that divide the
    read buffer they return the same manifest and leave the same object, and with content-defined
    chunks they do if and only if the contents are cut wherever a buffer ends. -/
theorem put_file_put_bytes {P : Platform} {path : Path} {w v x y : World} {data : Bytes} {manifest manifest' : List Digest}
    (equal : x.mem.store = w.mem.store) (found : w.fs.content path = some data)
    (file : Does (acts P) (put_file P path) w (.ok manifest) v)
    (bytes : Does (acts P) (put_bytes P data) x (.ok manifest') y) :
    (w.mem.store.cdc = false → 0 < w.mem.store.block → w.mem.store.block ∣ readBuffer →
      manifest = manifest' ∧ v.mem.store = y.mem.store) ∧
    (w.mem.store.cdc = true → Aligned P w.mem.store data → manifest = manifest' ∧ v.mem.store = y.mem.store) ∧
    (w.mem.store.cdc = true → ∀ K : Bytes → Prop, P.Distinguishes K →
      (∀ blk ∈ (Put.file path).chunks P w.mem.store data ++ (Put.bytes data).chunks P w.mem.store data, K blk) →
      manifest = manifest' → Aligned P w.mem.store data) := by
  have same : (Put.file path).chunks P w.mem.store data = (Put.bytes data).chunks P w.mem.store data →
      manifest = manifest' ∧ v.mem.store = y.mem.store := fun chunks =>
    same_of_chunks (.file path) (.bytes data) equal found rfl chunks file bytes
  refine ⟨?_,?_,?_⟩
  · intro fixed pos divides
    exact same ((chunks_of_buffers (.inr pos) path data).mpr (aligned_of_dvd fixed pos divides data))
  · intro cdc aligned
    exact same ((chunks_of_buffers (.inl cdc) path data).mpr aligned)
  · intro cdc K apart considered equal'
    rw [← chunks_of_buffers (.inl cdc) path]
    have hashes := (of_returned (.file path) found file).1
    have hashes' := (of_returned (.bytes data) rfl bytes).1
    rw [equal] at hashes'
    have equals : ((Put.file path).chunks P w.mem.store data).map P.blake2b =
        ((Put.bytes data).chunks P w.mem.store data).map P.blake2b := hashes.symm.trans (equal'.trans hashes')
    exact apart.lists (fun blk member => considered blk (List.mem_append_left _ member))
      (fun blk member => considered blk (List.mem_append_right _ member)) equals

/-- A chunk, and then zeros, which are cut at the greatest size only. -/
def straddling : Bytes := firstChunk ++ List.replicate (128 * 65536) 0

/-- The file goes over the end of the first buffer with a chunk. -/
theorem straddling_not_aligned : ¬ Aligned cdcPlatform (measuring true) straddling := by
  intro aligned
  have long : straddling.length = 2049 + 128 * 65536 := by
    rw [straddling,List.length_append,firstChunk_length,List.length_replicate]
  obtain ⟨n,place⟩ := aligned 1 (by rw [long,readBuffer]; omega)
  have cut : blocks cdcPlatform (measuring true) straddling = firstChunk :: List.replicate 128 (List.replicate 65536 0) := by
    rw [blocks_cdc rfl,straddling]
    exact (firstChunk_stops.cut _).trans (congrArg _ (zeros_cut 128))
  rw [cut,readBuffer] at place
  cases n with
  | zero =>
    rw [List.take_zero,List.flatten_nil,List.length_nil] at place
    omega
  | succ n =>
    rw [List.take_succ_cons,List.flatten_cons,List.length_append,firstChunk_length,List.take_replicate,
      List.flatten_replicate_replicate,List.length_replicate] at place
    omega

/-- An object that only measures, and a file. -/
def holding (cdc : Bool) (data : Bytes) : World :=
  { World.initial ⟨"p",none,"key",0⟩ false with
    fs := (Files.Fs.empty : Files.Fs Path).put (.scratch "i") data, mem := ⟨[],measuring cdc,none⟩ }

theorem holding_content (cdc : Bool) (data : Bytes) : (holding cdc data).fs.content (.scratch "i") = some data := by
  rw [holding,Files.Fs.content_put Files.Fs.empty_wf,if_pos rfl]

/-- Both calls can succeed. -/
theorem holding_runs (P : Platform) (cdc : Bool) (data : Bytes) :
    ∃ manifest manifest' v y, Does (acts P) (put_file P (.scratch "i")) (holding cdc data) (.ok manifest) v ∧
      Does (acts P) (put_bytes P data) (holding cdc data) (.ok manifest') y := by
  have file := put_runs (P := P) (w := holding cdc data) (.file (.scratch "i")) (holding_content cdc data)
  have bytes := put_runs (P := P) (w := holding cdc data) (.bytes data) rfl
  exact ⟨_,_,_,_,file.mono fun _ _ _ _ stepped => stepped.1,bytes.mono fun _ _ _ _ stepped => stepped.1⟩

/-- Zeros are cut where a buffer ends. -/
theorem zeros_aligned (m : Nat) : Aligned cdcPlatform (measuring true) (List.replicate (m * 65536) 0) := by
  intro k inside
  have cut : blocks cdcPlatform (measuring true) (List.replicate (m * 65536) 0) = List.replicate m (List.replicate 65536 0) := by
    rw [blocks_cdc rfl]
    exact zeros_cut m
  rw [List.length_replicate,readBuffer] at inside
  refine ⟨k * 128,?_⟩
  rw [cut,List.take_replicate,List.flatten_replicate_replicate,List.length_replicate,readBuffer,
    Nat.min_eq_left (by omega)]
  omega

/-- Files of more than one buffer, in both modes. -/
theorem put_file_put_bytes_buffers : (∃ manifest manifest' v y,
      Does (acts .plain) (put_file .plain (.scratch "i")) (holding false (List.replicate (2 * readBuffer) 7 ++ [8]))
        (.ok manifest) v ∧
      Does (acts .plain) (put_bytes .plain (List.replicate (2 * readBuffer) 7 ++ [8]))
        (holding false (List.replicate (2 * readBuffer) 7 ++ [8])) (.ok manifest') y ∧
      manifest = manifest' ∧ v.mem.store = y.mem.store) ∧
    ∃ manifest manifest' v y,
      Does (acts cdcPlatform) (put_file cdcPlatform (.scratch "i")) (holding true (List.replicate (129 * 65536) 0))
        (.ok manifest) v ∧
      Does (acts cdcPlatform) (put_bytes cdcPlatform (List.replicate (129 * 65536) 0))
        (holding true (List.replicate (129 * 65536) 0)) (.ok manifest') y ∧
      manifest = manifest' ∧ v.mem.store = y.mem.store := by
  constructor
  · obtain ⟨manifest,manifest',v,y,file,bytes⟩ := holding_runs .plain false (List.replicate (2 * readBuffer) 7 ++ [8])
    exact ⟨manifest,manifest',v,y,file,bytes,
      (put_file_put_bytes rfl (holding_content false _) file bytes).1 rfl (by decide) (by decide)⟩
  · obtain ⟨manifest,manifest',v,y,file,bytes⟩ := holding_runs cdcPlatform true (List.replicate (129 * 65536) 0)
    exact ⟨manifest,manifest',v,y,file,bytes,
      (put_file_put_bytes rfl (holding_content true _) file bytes).2.1 rfl (zeros_aligned 129)⟩

/-- With content-defined chunks the manifests of a file of more than one buffer can differ. -/
theorem put_file_not_put_bytes : ∃ manifest manifest' v y,
    Does (acts cdcPlatform) (put_file cdcPlatform (.scratch "i")) (holding true straddling) (.ok manifest) v ∧
    Does (acts cdcPlatform) (put_bytes cdcPlatform straddling) (holding true straddling) (.ok manifest') y ∧
    manifest ≠ manifest' := by
  obtain ⟨manifest,manifest',v,y,file,bytes⟩ := holding_runs cdcPlatform true straddling
  refine ⟨manifest,manifest',v,y,file,bytes,?_⟩
  intro same
  refine straddling_not_aligned ((chunks_of_buffers (.inl rfl) (.scratch "i") straddling).mp ?_)
  have hashes := (of_returned (.file (.scratch "i")) (holding_content true straddling) file).1
  have hashes' := (of_returned (.bytes straddling) rfl bytes).1
  rw [hashes,hashes'] at same
  exact List.map_injective_iff.mpr (fun _ _ equal => equal) same

end Klados
