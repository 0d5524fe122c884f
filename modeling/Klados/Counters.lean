import Klados.Passes

/-!
What the attributes of a store object say about the chunks that it was given. Whatever their order, the
counters, the index and the queue are those of the chunks that were seen, each distinct one once, and so
is what the passes leave in the chunk directory.
-/
namespace Klados
open Effects
open Files (Fs)
open Blocks

/-- The index and the counters are those of the chunks `done`. The chunks considered are those of `K`. -/
structure Tallied (P : Platform) (K : Bytes → Prop) (store : Cas) (done : List Bytes) : Prop where
  considered : ∀ blk ∈ done, K blk
  known : ∀ h, store.knows h = true ↔ ∃ blk ∈ done, P.blake2b blk = h
  keys : (store.index.map (·.1)).Nodup
  logical : store.logical = (done.map List.length).sum
  chunks : store.chunks = done.length
  stored : store.stored = ∑ blk ∈ done.toFinset, (P.compress blk).length

/-- Each distinct chunk waits for its upload once, and nothing else does. -/
structure Queued (P : Platform) (store : Cas) (done : List Bytes) : Prop where
  once : (store.pending.map (·.1)).Nodup
  all : ∀ h comp, (h,comp) ∈ store.pending ↔
    store.s3 = true ∧ ∃ blk ∈ done, h = P.blake2b blk ∧ comp = P.compress blk

/-- `CAS(root, block, cdc, level, s3, bucket)`. -/
def Cas.opened (block : Nat) (cdc s3 : Bool) : Cas := ⟨true,block,cdc,s3,[],[],0,0,0⟩

section
variable {P : Platform} {K : Bytes → Prop} {store : Cas} {done : List Bytes} {blk : Bytes}

/-- A new object has seen nothing. -/
theorem Tallied.start {root : Bool} {block : Nat} {cdc s3 : Bool} :
    Tallied P K ⟨root,block,cdc,s3,[],[],0,0,0⟩ [] := by
  constructor <;> simp [Cas.knows]

/-- A pass leaves the parameters of the object. -/
theorem take_parameters (store : Cas) (blk : Bytes) :
    (store.take P blk).root = store.root ∧ (store.take P blk).block = store.block ∧
      (store.take P blk).cdc = store.cdc ∧ (store.take P blk).s3 = store.s3 := by
  simp only [Cas.take]
  split
  · exact ⟨rfl,rfl,rfl,rfl⟩
  · split <;> exact ⟨rfl,rfl,rfl,rfl⟩

/-- A chunk that is in the index is counted, and nothing else happens. -/
theorem take_known (known : store.knows (P.blake2b blk) = true) : store.take P blk = store.count blk := if_pos known

/-- What happens to the attributes when the chunk is not in the index. -/
theorem take_new (new : store.knows (P.blake2b blk) = false) :
    (store.take P blk).index = (P.blake2b blk,(P.compress blk).length) :: store.index ∧
      (store.take P blk).logical = store.logical + blk.length ∧ (store.take P blk).chunks = store.chunks + 1 ∧
      (store.take P blk).stored = store.stored + (P.compress blk).length ∧
      (store.take P blk).pending =
        if store.s3 then store.pending ++ [(P.blake2b blk,P.compress blk)] else store.pending := by
  have counted : ¬ (store.count blk).knows (P.blake2b blk) = true := by rw [show (store.count blk).knows _ = _ from new]; simp
  simp only [Cas.take,if_neg counted]
  by_cases cold : store.s3 = true
  · rw [if_pos (show (store.count blk).s3 = true from cold),if_pos cold]
    exact ⟨rfl,rfl,rfl,rfl,rfl⟩
  · rw [if_neg (show ¬ (store.count blk).s3 = true from cold),if_neg cold]
    exact ⟨rfl,rfl,rfl,rfl,rfl⟩

/-- A pass puts the hash of its chunk into the index, if it is not there. -/
theorem take_knows (store : Cas) (blk : Bytes) (h : Digest) :
    (store.take P blk).knows h = (decide (P.blake2b blk = h) || store.knows h) := by
  cases knows : store.knows (P.blake2b blk) with
  | true =>
    rw [take_known knows,show (store.count blk).knows h = store.knows h from rfl]
    by_cases own : P.blake2b blk = h
    · subst own
      simp [knows]
    · simp [own]
  | false =>
    rw [Cas.knows,(take_new knows).1]
    rfl

theorem Tallied.mem_iff (tallied : Tallied P K store done) (apart : P.Distinguishes K) (considered : K blk) :
    store.knows (P.blake2b blk) = true ↔ blk ∈ done := by
  rw [tallied.known]
  constructor
  · rintro ⟨blk',member,same⟩
    rw [← apart blk' blk (tallied.considered blk' member) considered same]
    exact member
  · intro member
    exact ⟨blk,member,rfl⟩

theorem considered_append (considered : ∀ blk ∈ done, K blk) (more : K blk) : ∀ blk' ∈ done ++ [blk], K blk' := by
  intro blk' member
  rcases List.mem_append.mp member with earlier | last
  · exact considered blk' earlier
  · exact List.mem_singleton.mp last ▸ more

/-- Step: what is tallied after one more chunk. -/
theorem Tallied.take (tallied : Tallied P K store done) (apart : P.Distinguishes K) (considered : K blk) :
    Tallied P K (store.take P blk) (done ++ [blk]) := by
  have logical := tallied.logical
  have chunks := tallied.chunks
  have seen := tallied.mem_iff apart considered
  cases knows : store.knows (P.blake2b blk) with
  | true =>
    have again := seen.mp knows
    rw [take_known knows]
    refine ⟨considered_append tallied.considered considered,?_,tallied.keys,?_,?_,?_⟩
    · intro h
      rw [show (store.count blk).knows h = store.knows h from rfl,tallied.known h]
      constructor
      · rintro ⟨blk',member,same⟩
        exact ⟨blk',List.mem_append_left _ member,same⟩
      · rintro ⟨blk',member,same⟩
        rcases List.mem_append.mp member with earlier | last
        · exact ⟨blk',earlier,same⟩
        · exact ⟨blk,again,List.mem_singleton.mp last ▸ same⟩
    · simp only [Cas.count,List.map_append,List.map_cons,List.map_nil,List.sum_append,List.sum_cons,List.sum_nil]
      omega
    · simp only [Cas.count,List.length_append,List.length_singleton]
      omega
    · have same : (done ++ [blk]).toFinset = done.toFinset := by
        rw [List.toFinset_append]
        exact Finset.union_eq_left.mpr fun blk' last => by simp_all
      rw [same]
      exact tallied.stored
  | false =>
    obtain ⟨index,logical',chunks',stored',_⟩ := take_new knows
    have absent : blk ∉ done.toFinset := by
      rw [List.mem_toFinset]
      intro member
      rw [seen.mpr member] at knows
      cases knows
    refine ⟨considered_append tallied.considered considered,?_,?_,?_,?_,?_⟩
    · intro h
      rw [take_knows,Bool.or_eq_true,decide_eq_true_iff,tallied.known h]
      constructor
      · rintro (same | ⟨blk',member,same⟩)
        · exact ⟨blk,by simp,same⟩
        · exact ⟨blk',List.mem_append_left _ member,same⟩
      · rintro ⟨blk',member,same⟩
        rcases List.mem_append.mp member with earlier | last
        · exact .inr ⟨blk',earlier,same⟩
        · exact .inl (List.mem_singleton.mp last ▸ same)
    · rw [index,List.map_cons,List.nodup_cons]
      refine ⟨?_,tallied.keys⟩
      intro member
      obtain ⟨entry,there,same⟩ := List.mem_map.mp member
      have : store.knows (P.blake2b blk) = true := List.any_eq_true.mpr ⟨entry,there,by simpa using same⟩
      rw [knows] at this
      cases this
    · rw [logical']
      simp only [List.map_append,List.map_cons,List.map_nil,List.sum_append,List.sum_cons,List.sum_nil]
      omega
    · rw [chunks',List.length_append,List.length_singleton]
      omega
    · rw [stored',tallied.stored,List.toFinset_append,List.toFinset_cons,List.toFinset_nil,Finset.union_comm,
        Finset.insert_union,Finset.empty_union,Finset.sum_insert absent,Nat.add_comm]

/-- Step: what waits for its upload after one more chunk. -/
theorem Queued.take (queued : Queued P store done) (tallied : Tallied P K store done) (apart : P.Distinguishes K)
    (considered : K blk) : Queued P (store.take P blk) (done ++ [blk]) := by
  have seen := tallied.mem_iff apart considered
  have s3 := (take_parameters (P := P) store blk).2.2.2
  cases knows : store.knows (P.blake2b blk) with
  | true =>
    have again := seen.mp knows
    rw [take_known knows]
    refine ⟨queued.once,?_⟩
    intro h comp
    rw [show (store.count blk).pending = store.pending from rfl,queued.all]
    refine and_congr_right fun _ => ?_
    constructor
    · rintro ⟨blk',member,same⟩
      exact ⟨blk',List.mem_append_left _ member,same⟩
    · rintro ⟨blk',member,same⟩
      rcases List.mem_append.mp member with earlier | last
      · exact ⟨blk',earlier,same⟩
      · exact ⟨blk,again,List.mem_singleton.mp last ▸ same⟩
  | false =>
    obtain ⟨_,_,_,_,pending⟩ := take_new knows
    cases cold : store.s3 with
    | false =>
      rw [cold,if_neg (by simp)] at pending
      refine ⟨by rw [pending]; exact queued.once,?_⟩
      intro h comp
      rw [pending,queued.all,s3,cold]
      simp
    | true =>
      rw [cold,if_pos rfl] at pending
      constructor
      · rw [pending,List.map_append,List.map_cons,List.map_nil,List.nodup_append]
        refine ⟨queued.once,by simp,?_⟩
        intro h member h' last same
        obtain ⟨⟨_,comp⟩,there,rfl⟩ := List.mem_map.mp member
        obtain ⟨_,blk',member',own,_⟩ := (queued.all _ _).mp there
        have known := (tallied.known (P.blake2b blk)).mpr ⟨blk',member',own.symm.trans (same.trans (List.mem_singleton.mp last))⟩
        rw [knows] at known
        cases known
      · intro h comp
        rw [pending,List.mem_append,queued.all,s3,cold]
        constructor
        · rintro (⟨_,blk',member,same⟩ | last)
          · exact ⟨rfl,blk',List.mem_append_left _ member,same⟩
          · cases List.mem_singleton.mp last
            exact ⟨rfl,blk,by simp,rfl,rfl⟩
        · rintro ⟨_,blk',member,rfl,rfl⟩
          rcases List.mem_append.mp member with earlier | last
          · exact .inl ⟨rfl,blk',earlier,rfl,rfl⟩
          · rw [List.mem_singleton.mp last]
            exact .inr (List.mem_singleton_self _)

end
section
variable {P : Platform} {w : World}

theorem shelve_wf (wf : w.fs.Wf) (blk : Bytes) : (w.shelve P blk).Wf := by
  unfold World.shelve
  dsimp only
  split
  · exact wf
  · exact Fs.put_wf wf _ _

/-- A pass makes at most the file of its chunk, and that only where none was. -/
theorem shelve_content (wf : w.fs.Wf) (blk : Bytes) (p : Path) :
    (w.shelve P blk).content p =
      if w.mem.store.knows (P.blake2b blk) = false ∧ w.mem.store.root = true ∧ p = .chunk (P.blake2b blk) ∧
          w.fs.content p = none then some (P.compress blk)
      else w.fs.content p := by
  have named := Fs.content_isSome w.fs (.chunk (P.blake2b blk))
  unfold World.shelve
  dsimp only
  by_cases skipped : (w.mem.store.knows (P.blake2b blk) || !w.mem.store.root ||
      (w.fs.names (.chunk (P.blake2b blk))).isSome) = true
  · rw [if_pos skipped,if_neg]
    rintro ⟨new,root,rfl,absent⟩
    rw [new,root,← named,absent] at skipped
    cases skipped
  · rw [if_neg skipped,Fs.content_put wf]
    simp only [Bool.or_eq_true,not_or,Bool.not_eq_true,Bool.not_eq_true',Bool.not_eq_false] at skipped
    obtain ⟨⟨new,root⟩,missing⟩ := skipped
    have absent : w.fs.content (.chunk (P.blake2b blk)) = none := by
      rw [← Option.not_isSome_iff_eq_none,named,missing]
      simp
    by_cases same : p = .chunk (P.blake2b blk)
    · rw [if_pos same,if_pos ⟨new,root,same,same ▸ absent⟩]
    · rw [if_neg same,if_neg fun all => same all.2.2.1]

end
end Klados
