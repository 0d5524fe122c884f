import Klados.Counters

/-!
Sequences of puts that all succeed, on a new object. What they leave is a function of the chunks that
were seen: the order of the calls does not show in the counters, in the chunk directory or in the
bucket, and neither does a second put of the same bytes in what is stored.
-/
namespace Klados
open Effects
open Files (Fs)

/-- What a call puts: bytes at once, or a file with these bytes. -/
structure Load where
  file : Bool
  data : Bytes

def Put.load (data : Bytes) : Put → Load
  | .bytes _ => ⟨false,data⟩
  | .file _ => ⟨true,data⟩

/-- The chunks by the parameters of the chunking. -/
def Load.chunks (P : Platform) (block : Nat) (cdc : Bool) (load : Load) : List Bytes :=
  let cut := blocks P ⟨false,block,cdc,false,[],[],0,0,0⟩
  if load.file then (reads load.data).flatMap cut else cut load.data

/-- What may happen between two calls: anything that leaves the chunk files, the bucket and the object. -/
structure Between (w v : World) : Prop where
  wf : w.fs.Wf → v.fs.Wf
  chunks : ∀ h, v.fs.content (.chunk h) = w.fs.content (.chunk h)
  bucket : v.bucket = w.bucket
  store : v.mem.store = w.mem.store

/-- Calls that put something and return, one after the other, with what each put and its manifest.
    The chunks that are put are among those considered. -/
inductive Fills (P : Platform) (K : Bytes → Prop) (w : World) : List (Load × List Digest) → World → Prop
  | start : Fills P K w [] w
  | put {entries : List (Load × List Digest)} {u x v : World} {put : Put} {data : Bytes} {manifest : List Digest} :
      Fills P K w entries u → Between u x → put.data x = some data → (∀ blk ∈ put.chunks P x.mem.store data, K blk) →
      Does (acts P) (put.prog P) x (.ok manifest) v → Fills P K w (entries ++ [(put.load data,manifest)]) v

/-- The chunks that were seen. -/
def seen (P : Platform) (block : Nat) (cdc : Bool) (entries : List (Load × List Digest)) : List Bytes :=
  entries.flatMap fun entry => entry.1.chunks P block cdc

/-- The file of a chunk that was seen. -/
def shelf (P : Platform) (root : Bool) (done : List Bytes) (h : Digest) : Option Bytes :=
  if root then (done.find? fun blk => P.blake2b blk = h).map P.compress else none

/-- What the puts of some chunks left of a world. -/
structure Filled (P : Platform) (K : Bytes → Prop) (w v : World) (done : List Bytes) : Prop where
  wf : v.fs.Wf
  root : v.mem.store.root = w.mem.store.root
  block : v.mem.store.block = w.mem.store.block
  cdc : v.mem.store.cdc = w.mem.store.cdc
  s3 : v.mem.store.s3 = w.mem.store.s3
  tallied : Tallied P K v.mem.store done
  queued : Queued P v.mem.store done
  files : ∀ h, v.fs.content (.chunk h) = (w.fs.content (.chunk h)).or (shelf P w.mem.store.root done h)
  bucket : v.bucket = w.bucket

section
variable {P : Platform} {K : Bytes → Prop} {w v u : World} {done : List Bytes}

theorem chunks_load (put : Put) (store : Cas) (data : Bytes) :
    (put.load data).chunks P store.block store.cdc = put.chunks P store data := by
  have same : blocks P ⟨false,store.block,store.cdc,false,[],[],0,0,0⟩ = blocks P store := rfl
  cases put <;> simp [Put.load,Load.chunks,Put.chunks,same]

/-- Step: one more pass. -/
theorem Filled.stock (filled : Filled P K w v done) (apart : P.Distinguishes K) {blk : Bytes} (considered : K blk) :
    Filled P K w (v.stock P blk) (done ++ [blk]) := by
  obtain ⟨root,block,cdc,s3⟩ := take_parameters (P := P) v.mem.store blk
  have tallied := filled.tallied
  refine ⟨shelve_wf filled.wf blk,root.trans filled.root,block.trans filled.block,cdc.trans filled.cdc,s3.trans filled.s3,
    tallied.take apart considered,filled.queued.take tallied apart considered,?_,filled.bucket⟩
  intro h
  rw [show (v.stock P blk).fs = v.shelve P blk from rfl,shelve_content filled.wf,filled.root,filled.files]
  have known := tallied.known (P.blake2b blk)
  unfold shelf
  cases w.mem.store.root with
  | false => simp
  | true =>
    rw [List.find?_append]
    by_cases own : h = P.blake2b blk
    · subst own
      cases found : done.find? fun blk' => P.blake2b blk' = P.blake2b blk with
      | some blk' =>
        have knows := known.mpr ⟨blk',List.mem_of_find?_eq_some found,by simpa using List.find?_some found⟩
        simp [knows]
      | none =>
        have new : v.mem.store.knows (P.blake2b blk) = false := by
          rw [← Bool.not_eq_true,known]
          rintro ⟨blk',member,same⟩
          simpa [same] using List.find?_eq_none.mp found blk' member
        cases w.fs.content (.chunk (P.blake2b blk)) <;> simp [new]
    · have other : ¬ P.blake2b blk = h := fun same => own same.symm
      simp [own,other]

/-- Run: the passes of a call. -/
theorem Filled.stocks (filled : Filled P K w v done) (apart : P.Distinguishes K) {blks : List Bytes}
    (considered : ∀ blk ∈ blks, K blk) : Filled P K w (blks.foldl (World.stock P) v) (done ++ blks) := by
  induction blks generalizing v done with
  | nil => simpa using filled
  | cons blk rest ih =>
    have first := filled.stock apart (considered blk (List.mem_cons_self ..))
    have more := ih first fun blk' member => considered blk' (List.mem_cons_of_mem _ member)
    simpa using more

theorem Filled.between (filled : Filled P K w v done) (moved : Between v u) : Filled P K w u done := by
  refine ⟨moved.wf filled.wf,?_,?_,?_,?_,?_,?_,?_,moved.bucket.trans filled.bucket⟩
  · rw [moved.store]
    exact filled.root
  · rw [moved.store]
    exact filled.block
  · rw [moved.store]
    exact filled.cdc
  · rw [moved.store]
    exact filled.s3
  · rw [moved.store]
    exact filled.tallied
  · rw [moved.store]
    exact filled.queued
  · intro h
    rw [moved.chunks]
    exact filled.files h

/-- Run: what a sequence of puts on a new object leaves, and what it returned. -/
theorem Fills.filled {entries : List (Load × List Digest)} (fills : Fills P K w entries v) (apart : P.Distinguishes K)
    (wf : w.fs.Wf) {root : Bool} {block : Nat} {cdc s3 : Bool} (fresh : w.mem.store = ⟨root,block,cdc,s3,[],[],0,0,0⟩) :
    Filled P K w v (seen P block cdc entries) ∧
      ∀ entry ∈ entries, entry.2 = (entry.1.chunks P block cdc).map P.blake2b := by
  induction fills with
  | start =>
    refine ⟨⟨wf,rfl,rfl,rfl,rfl,?_,?_,?_,rfl⟩,by simp⟩
    · rw [fresh]
      exact Tallied.start
    · rw [fresh]
      constructor <;> simp [seen]
    · intro h
      simp [seen,shelf]
  | @put entries u x v put data manifest before moved given considered ran ih =>
    obtain ⟨filled,manifests⟩ := ih
    have here := filled.between moved
    obtain ⟨rfl,rfl⟩ := of_returned put given ran
    have chunks : put.chunks P x.mem.store data = (put.load data).chunks P block cdc := by
      rw [← chunks_load,here.block,here.cdc,fresh]
    have after := here.stocks apart considered
    rw [chunks] at after ⊢
    refine ⟨by simpa [seen] using after,?_⟩
    intro entry member
    rcases List.mem_append.mp member with earlier | last
    · exact manifests entry earlier
    · rw [List.mem_singleton.mp last]

/-- An object is what it was before the batch, or one of the batch. -/
theorem putAll_cases (bucket : Bucket) (batch : List (Digest × Bytes)) (outcomes : List PutOutcome) (h : Digest) :
    bucket.putAll batch outcomes h = bucket h ∨ ∃ comp, (h,comp) ∈ batch ∧ bucket.putAll batch outcomes h = some comp := by
  induction batch generalizing bucket outcomes with
  | nil => exact .inl rfl
  | cons entry rest ih =>
    cases outcomes with
    | nil => exact .inl rfl
    | cons outcome outcomes =>
      obtain ⟨first,comp₀⟩ := entry
      rw [Bucket.putAll]
      rcases ih (if outcome.stored then Function.update bucket first (some comp₀) else bucket) outcomes with
        same | ⟨comp,member,found⟩
      · rw [same]
        split
        · by_cases own : h = first
          · subst own
            exact .inr ⟨comp₀,List.mem_cons_self ..,Function.update_self ..⟩
          · exact .inl (Function.update_of_ne own _ _)
        · exact .inl rfl
      · exact .inr ⟨comp,List.mem_cons_of_mem _ member,found⟩

/-- When all objects of the batch are stored, each of them is there. -/
theorem putAll_all {batch : List (Digest × Bytes)} {outcomes : List PutOutcome} (length : outcomes.length = batch.length)
    (stored : outcomes.all (·.stored) = true) (bucket : Bucket) {h : Digest} {comp : Bytes} (member : (h,comp) ∈ batch) :
    ∃ comp', (h,comp') ∈ batch ∧ bucket.putAll batch outcomes h = some comp' := by
  induction batch generalizing bucket outcomes with
  | nil => cases member
  | cons entry rest ih =>
    cases outcomes with
    | nil => cases length
    | cons outcome outcomes =>
      obtain ⟨first,comp₀⟩ := entry
      rw [List.all_cons,Bool.and_eq_true] at stored
      rw [Bucket.putAll,if_pos stored.1]
      rcases List.mem_cons.mp member with own | later
      · cases own
        rcases putAll_cases (Function.update bucket h (some comp)) rest outcomes h with same | ⟨comp',later,found⟩
        · rw [same]
          exact ⟨comp,List.mem_cons_self ..,Function.update_self ..⟩
        · exact ⟨comp',List.mem_cons_of_mem _ later,found⟩
      · obtain ⟨comp',later',found⟩ := ih (Nat.succ.inj length) stored.2 _ later
        exact ⟨comp',List.mem_cons_of_mem _ later',found⟩

/-- A batch of different objects, all stored. -/
theorem putAll_stored {batch : List (Digest × Bytes)} (once : (batch.map (·.1)).Nodup) {outcomes : List PutOutcome}
    (length : outcomes.length = batch.length) (stored : outcomes.all (·.stored) = true) (bucket : Bucket) (h : Digest) :
    (∀ comp, (h,comp) ∈ batch → bucket.putAll batch outcomes h = some comp) ∧
      ((∀ comp, (h,comp) ∉ batch) → bucket.putAll batch outcomes h = bucket h) := by
  constructor
  · intro comp member
    obtain ⟨comp',member',found⟩ := putAll_all length stored bucket member
    have same := List.inj_on_of_nodup_map once member' member rfl
    cases same
    exact found
  · intro absent
    rcases putAll_cases bucket batch outcomes h with same | ⟨comp,member,_⟩
    · exact same
    · exact absurd member (absent comp)

/-- What is left when the chunks that wait were sent to the bucket. -/
def World.uploaded (w : World) (outcomes : List PutOutcome) : World :=
  { w with bucket := w.bucket.putAll w.mem.store.pending outcomes,
           mem := { w.mem with store := { w.mem.store with pending := [] } } }

/-- An object with nothing to upload is as it would be after an upload. -/
theorem uploaded_nothing (empty : v.mem.store.pending = []) : v.uploaded [] = v := by
  obtain ⟨db,fs,bucket,⟨live,⟨root,block,cdc,s3,index,pending,logical,stored,chunks⟩,lock⟩,hyp,used⟩ := v
  cases (show pending = [] from empty)
  rfl

/-- With a bucket, however an upload ends, the queue is empty afterwards. -/
theorem flush_uploads {result : Except Exn Nat} (cold : v.mem.store.s3 = true) (ran : Does (acts P) flush_s3 v result u) :
    ∃ outcomes, u = v.uploaded outcomes ∧ ∀ n, result = .ok n →
      outcomes.length = v.mem.store.pending.length ∧ outcomes.all (·.stored) = true := by
  have looked := ran.after _ fun _ _ first => acts_store.mp (Does.perform.mp first)
  cases empty : v.mem.store.pending.isEmpty with
  | true =>
    rw [cold,empty] at looked
    obtain ⟨_,rfl⟩ := Does.ret.mp looked
    rw [List.isEmpty_iff] at empty
    exact ⟨[],(uploaded_nothing empty).symm,fun _ _ => by simp [empty]⟩
  | false =>
    rw [cold,empty] at looked
    have taken := looked.after _ fun _ _ first => acts_update.mp (Does.perform.mp first)
    have put : ∀ {outcome x}, acts P (.s3 (.put v.mem.store.pending))
        (v.withStore { v.mem.store with pending := [] }) outcome x → ∃ outcomes, x = v.uploaded outcomes ∧
          ((∃ value, outcome = .ok value) →
            outcomes.length = v.mem.store.pending.length ∧ outcomes.all (·.stored) = true) := by
      rintro outcome x ⟨choice,ran'⟩
      obtain ⟨⟨r,bucket⟩,executed,same⟩ := Option.map_eq_some_iff.mp ran'
      cases same
      cases choice with
      | puts outcomes =>
        simp only [s3Exec] at executed
        split at executed
        · rename_i whole
          split at executed
          · cases executed
            exact ⟨outcomes,rfl,fun returned => nomatch returned⟩
          · rename_i none
            cases executed
            have stored := whole.2.resolve_right fun raised => by
              obtain ⟨outcome,member,some⟩ := List.any_eq_true.mp raised
              rw [List.findSome?_eq_none_iff.mp none outcome member] at some
              cases some
            exact ⟨outcomes,rfl,fun _ => ⟨whole.1,stored⟩⟩
        · cases executed
      | _ => cases executed
    rcases Does.bind.mp taken with ⟨_,x,uploaded,last⟩ | ⟨error,rfl,raised⟩
    · obtain ⟨rfl,rfl⟩ := Does.ret.mp last
      obtain ⟨outcomes,left,whole⟩ := put (Does.perform.mp uploaded)
      exact ⟨outcomes,left,fun _ _ => whole ⟨_,rfl⟩⟩
    · obtain ⟨outcomes,left,_⟩ := put (Does.perform.mp raised)
      exact ⟨outcomes,left,fun _ same => nomatch same⟩

/-- What an upload that returned leaves in the bucket. -/
theorem flush_bucket (once : (v.mem.store.pending.map (·.1)).Nodup) (cold : v.mem.store.s3 = true) {n : Nat}
    (ran : Does (acts P) flush_s3 v (.ok n) u) (h : Digest) :
    (∀ comp, (h,comp) ∈ v.mem.store.pending → u.bucket h = some comp) ∧
      ((∀ comp, (h,comp) ∉ v.mem.store.pending) → u.bucket h = v.bucket h) := by
  obtain ⟨outcomes,rfl,whole⟩ := flush_uploads cold ran
  obtain ⟨length,stored⟩ := whole n rfl
  exact putAll_stored once length stored v.bucket h

/-- Without a bucket nothing is uploaded. -/
theorem flush_nothing (local_ : v.mem.store.s3 = false) {n : Nat} (ran : Does (acts P) flush_s3 v (.ok n) u) :
    u.bucket = v.bucket := by
  have looked := ran.after _ fun _ _ first => acts_store.mp (Does.perform.mp first)
  rw [local_] at looked
  exact congrArg World.bucket (Does.ret.mp looked).2

/-! ## Statistics -/

/-- The number of keys of the index. -/
theorem Tallied.unique {store : Cas} (tallied : Tallied P K store done) :
    store.index.length = (done.map P.blake2b).toFinset.card := by
  have same : (store.index.map (·.1)).toFinset = (done.map P.blake2b).toFinset := by
    ext h
    have known := tallied.known h
    simp only [List.mem_toFinset,List.mem_map]
    rw [← known,Cas.knows,List.any_eq_true]
    simp
  rw [← same,List.toFinset_card_of_nodup tallied.keys,List.length_map]

/-- What `stats` reports. -/
structure Report where
  logical_bytes : Nat
  chunks_total : Nat
  chunks_unique : Nat
  stored_bytes : Nat
  dedup_ratio : Rat
  unique_fraction : Rat

/-- `CAS.stats`, where `rounded a b n` is `round(a / b, n)`. -/
def Cas.stats (rounded : Nat → Nat → Nat → Rat) (store : Cas) : Report where
  logical_bytes := store.logical
  chunks_total := store.chunks
  chunks_unique := store.index.length
  stored_bytes := store.stored
  dedup_ratio := if store.stored = 0 then 0 else rounded store.logical store.stored 2
  unique_fraction := if store.chunks = 0 then 0 else rounded store.index.length store.chunks 4

/-- The statistics do not depend on the order in which the chunks were seen, nor on where they went. -/
theorem Tallied.stats {store store' : Cas} {done done' : List Bytes} (tallied : Tallied P K store done)
    (tallied' : Tallied P K store' done') (perm : done'.Perm done) (rounded : Nat → Nat → Nat → Rat) :
    store'.stats rounded = store.stats rounded := by
  have logical : store'.logical = store.logical := by
    rw [tallied'.logical,tallied.logical,(perm.map List.length).sum_eq]
  have chunks : store'.chunks = store.chunks := by rw [tallied'.chunks,tallied.chunks,perm.length_eq]
  have stored : store'.stored = store.stored := by
    rw [tallied'.stored,tallied.stored,List.toFinset_eq_of_perm _ _ perm]
  have unique : store'.index.length = store.index.length := by
    rw [tallied'.unique,tallied.unique,List.toFinset_eq_of_perm _ _ (perm.map P.blake2b)]
  unfold Cas.stats
  rw [logical,chunks,stored,unique]

/-- Neither do the files. -/
theorem shelf_perm {root : Bool} {done' : List Bytes} (apart : P.Distinguishes K) (considered : ∀ blk ∈ done, K blk)
    (perm : done'.Perm done) (h : Digest) : shelf P root done' h = shelf P root done h := by
  unfold shelf
  cases root with
  | false => rfl
  | true =>
    simp only [↓reduceIte]
    cases found : done.find? fun blk => P.blake2b blk = h with
    | none =>
      have absent : (done'.find? fun blk => P.blake2b blk = h) = none := by
        rw [List.find?_eq_none] at found ⊢
        exact fun blk member => found blk (perm.mem_iff.mp member)
      rw [absent]
    | some blk =>
      have own : P.blake2b blk = h := by simpa using List.find?_some found
      have member := List.mem_of_find?_eq_some found
      cases found' : done'.find? fun blk => P.blake2b blk = h with
      | none =>
        have absent := List.find?_eq_none.mp found' blk (perm.mem_iff.mpr member)
        simp [own] at absent
      | some blk' =>
        have own' : P.blake2b blk' = h := by simpa using List.find?_some found'
        have member' := perm.mem_iff.mp (List.mem_of_find?_eq_some found')
        rw [apart blk' blk (considered blk' member') (considered blk member) (own'.trans own.symm)]

/-- Nor what is in the bucket after an upload. -/
theorem uploaded_perm {v' u' : World} {done' : List Bytes} (filled : Filled P K w v done) (filled' : Filled P K w v' done')
    (perm : done'.Perm done) {n n' : Nat} (ran : Does (acts P) flush_s3 v (.ok n) u)
    (ran' : Does (acts P) flush_s3 v' (.ok n') u') : u'.bucket = u.bucket := by
  cases s3 : w.mem.store.s3 with
  | false =>
    rw [flush_nothing (filled.s3.trans s3) ran,flush_nothing (filled'.s3.trans s3) ran',filled.bucket,filled'.bucket]
  | true =>
    have cold := filled.s3.trans s3
    have cold' := filled'.s3.trans s3
    funext h
    obtain ⟨inside,outside⟩ := flush_bucket filled.queued.once cold ran h
    obtain ⟨inside',outside'⟩ := flush_bucket filled'.queued.once cold' ran' h
    have pending : ∀ comp, (h,comp) ∈ v'.mem.store.pending ↔ (h,comp) ∈ v.mem.store.pending := by
      intro comp
      rw [filled.queued.all,filled'.queued.all,cold,cold']
      exact and_congr_right fun _ => exists_congr fun blk => and_congr_left fun _ => perm.mem_iff
    by_cases queued : ∃ comp, (h,comp) ∈ v.mem.store.pending
    · obtain ⟨comp,member⟩ := queued
      rw [inside comp member,inside' comp ((pending comp).mpr member)]
    · rw [outside fun comp member => queued ⟨comp,member⟩,
        outside' fun comp member => queued ⟨comp,(pending comp).mp member⟩,filled.bucket,filled'.bucket]

/-- Chunks that were all seen change nothing but what is counted. -/
theorem stocks_again {blks : List Bytes} (known : ∀ blk ∈ blks, v.mem.store.knows (P.blake2b blk) = true) :
    (blks.foldl (World.stock P) v).fs = v.fs ∧
      (blks.foldl (World.stock P) v).mem.store.index = v.mem.store.index ∧
      (blks.foldl (World.stock P) v).mem.store.stored = v.mem.store.stored ∧
      (blks.foldl (World.stock P) v).mem.store.pending = v.mem.store.pending := by
  induction blks generalizing v with
  | nil => exact ⟨rfl,rfl,rfl,rfl⟩
  | cons blk rest ih =>
    have knows := known blk (List.mem_cons_self ..)
    have taken : (v.stock P blk).mem.store = v.mem.store.count blk := take_known knows
    have files : (v.stock P blk).fs = v.fs := by
      show v.shelve P blk = v.fs
      simp [World.shelve,knows]
    obtain ⟨fs,index,stored,pending⟩ := ih (v := v.stock P blk) fun blk' member => by
      rw [taken]
      exact known blk' (List.mem_cons_of_mem _ member)
    rw [List.foldl_cons,fs,index,stored,pending,taken,files]
    exact ⟨rfl,rfl,rfl,rfl⟩

end

/-- What the object says after a sequence of puts, in terms of the puts. -/
structure Exact (P : Platform) (block : Nat) (cdc : Bool) (entries : List (Load × List Digest)) (store : Cas) : Prop where
  logical : store.logical = (entries.map fun entry => entry.1.data.length).sum
  chunks : store.chunks = (entries.map fun entry => entry.2.length).sum
  keys : (store.index.map (·.1)).Nodup
  index : ∀ h, h ∈ store.index.map (·.1) ↔ ∃ blk ∈ seen P block cdc entries, P.blake2b blk = h
  stored : store.stored = ∑ blk ∈ (seen P block cdc entries).toFinset, (P.compress blk).length
  queued : Queued P store (seen P block cdc entries)
  manifests : ∀ entry ∈ entries, entry.2 = (entry.1.chunks P block cdc).map P.blake2b

section
variable {P : Platform} {K : Bytes → Prop} {w v : World} {block : Nat} {cdc : Bool}

/-- The chunks of an object that only measures. -/
theorem measures_flatten (P : Platform) (cuts : cdc = true ∨ 0 < block) (put : Put) (data : Bytes) :
    (put.chunks P ⟨false,block,cdc,false,[],[],0,0,0⟩ data).flatten = data :=
  chunks_flatten cuts put data

theorem load_flatten (cuts : cdc = true ∨ 0 < block) (load : Load) : (load.chunks P block cdc).flatten = load.data := by
  obtain ⟨file,data⟩ := load
  cases file with
  | false =>
    have whole := measures_flatten P cuts (.bytes data) data
    rw [← chunks_load] at whole
    exact whole
  | true =>
    have whole := measures_flatten P cuts (.file (.scratch "")) data
    rw [← chunks_load] at whole
    exact whole

theorem seen_length (cuts : cdc = true ∨ 0 < block) (entries : List (Load × List Digest)) :
    ((seen P block cdc entries).map List.length).sum = (entries.map fun entry => entry.1.data.length).sum := by
  induction entries with
  | nil => rfl
  | cons entry rest ih =>
    have own : ((entry.1.chunks P block cdc).map List.length).sum = entry.1.data.length := by
      rw [← List.length_flatten,load_flatten cuts]
    rw [seen,List.flatMap_cons,List.map_append,List.sum_append,own,List.map_cons,List.sum_cons]
    exact congrArg _ ih

theorem seen_count {entries : List (Load × List Digest)}
    (manifests : ∀ entry ∈ entries, entry.2 = (entry.1.chunks P block cdc).map P.blake2b) :
    (seen P block cdc entries).length = (entries.map fun entry => entry.2.length).sum := by
  induction entries with
  | nil => rfl
  | cons entry rest ih =>
    have own := manifests entry (List.mem_cons_self ..)
    have more := ih fun entry' member => manifests entry' (List.mem_cons_of_mem _ member)
    rw [seen,List.flatMap_cons,List.length_append,List.map_cons,List.sum_cons,own,List.length_map]
    exact congrArg _ more

theorem Filled.exact {entries : List (Load × List Digest)} (filled : Filled P K w v (seen P block cdc entries))
    (cuts : cdc = true ∨ 0 < block)
    (manifests : ∀ entry ∈ entries, entry.2 = (entry.1.chunks P block cdc).map P.blake2b) :
    Exact P block cdc entries v.mem.store := by
  have tallied := filled.tallied
  refine ⟨tallied.logical.trans (seen_length cuts entries),tallied.chunks.trans (seen_count manifests),tallied.keys,?_,
    tallied.stored,filled.queued,manifests⟩
  intro h
  rw [← tallied.known,Cas.knows,List.any_eq_true,List.mem_map]
  simp

theorem seen_loads (entries : List (Load × List Digest)) :
    seen P block cdc entries = (entries.map (·.1)).flatMap fun load => load.chunks P block cdc := by
  rw [seen,List.flatMap_map]

/-- The manifests of the same puts are the same. -/
theorem same_manifests {entries entries' : List (Load × List Digest)}
    (manifests : ∀ entry ∈ entries, entry.2 = (entry.1.chunks P block cdc).map P.blake2b)
    (manifests' : ∀ entry ∈ entries', entry.2 = (entry.1.chunks P block cdc).map P.blake2b)
    (loads : entries'.map (·.1) = entries.map (·.1)) : entries'.map (·.2) = entries.map (·.2) := by
  have chunks : ∀ list : List (Load × List Digest),
      (∀ entry ∈ list, entry.2 = (entry.1.chunks P block cdc).map P.blake2b) →
      list.map (·.2) = (list.map (·.1)).map fun load => (load.chunks P block cdc).map P.blake2b := by
    intro list all
    rw [List.map_map]
    exact List.map_congr_left all
  rw [chunks _ manifests,chunks _ manifests',loads]

/-- For every sequence of puts on a new object in which nothing fails: the index, the counters and the
    queue are those of the chunks seen, each distinct one once. In any order the puts give the same
    statistics, chunk files and bucket; a second put stores nothing; and an object that only measures
    returns the same manifests and reports the same. -/
theorem dedup_exact {P : Platform} {K : Bytes → Prop} (apart : P.Distinguishes K) {w v : World} (wf : w.fs.Wf)
    {root : Bool} {block : Nat} {cdc s3 : Bool} (fresh : w.mem.store = ⟨root,block,cdc,s3,[],[],0,0,0⟩)
    (cuts : cdc = true ∨ 0 < block) {entries : List (Load × List Digest)} (fills : Fills P K w entries v)
    (rounded : Nat → Nat → Nat → Rat) :
    Exact P block cdc entries v.mem.store ∧
    (∀ (entries' : List (Load × List Digest)) (v' : World), Fills P K w entries' v' → (entries'.map (·.1)).Perm
      (entries.map (·.1)) →
      v'.mem.store.stats rounded = v.mem.store.stats rounded ∧
      (∀ h, v'.fs.content (.chunk h) = v.fs.content (.chunk h)) ∧
      ∀ n n' u u', Does (acts P) flush_s3 v (.ok n) u → Does (acts P) flush_s3 v' (.ok n') u' → u'.bucket = u.bucket) ∧
    (∀ (put : Put) (data : Bytes) (x y : World) (manifest : List Digest), Between v x → put.data x = some data →
      put.load data ∈ entries.map (·.1) →
      Does (acts P) (put.prog P) x (.ok manifest) y →
      y.mem.store.stored = v.mem.store.stored ∧ y.mem.store.index = v.mem.store.index ∧
      y.mem.store.pending = v.mem.store.pending ∧ y.fs = x.fs) ∧
    ∀ (w' : World) (entries' : List (Load × List Digest)) (v' : World), w'.fs.Wf →
      w'.mem.store = ⟨false,block,cdc,false,[],[],0,0,0⟩ → Fills P K w' entries' v' →
      entries'.map (·.1) = entries.map (·.1) →
      entries'.map (·.2) = entries.map (·.2) ∧ v'.mem.store.stats rounded = v.mem.store.stats rounded := by
  obtain ⟨filled,manifests⟩ := fills.filled apart wf fresh
  refine ⟨filled.exact cuts manifests,?_,?_,?_⟩
  · intro entries' v' fills' perm
    obtain ⟨filled',_⟩ := fills'.filled apart wf fresh
    have chunks : (seen P block cdc entries').Perm (seen P block cdc entries) := by
      rw [seen_loads,seen_loads]
      exact perm.flatMap_right _
    refine ⟨filled.tallied.stats filled'.tallied chunks rounded,?_,?_⟩
    · intro h
      rw [filled'.files,filled.files,shelf_perm apart filled.tallied.considered chunks]
    · intro n n' u u' ran ran'
      exact uploaded_perm filled filled' chunks ran ran'
  · intro put data x y manifest moved given again ran
    obtain ⟨_,rfl⟩ := of_returned put given ran
    have here := filled.between moved
    have known : ∀ blk ∈ put.chunks P x.mem.store data, x.mem.store.knows (P.blake2b blk) = true := by
      intro blk member
      rw [here.tallied.known]
      refine ⟨blk,?_,rfl⟩
      rw [seen_loads,List.mem_flatMap]
      refine ⟨_,again,?_⟩
      rw [← chunks_load,here.block,here.cdc,fresh] at member
      exact member
    obtain ⟨fs,index,stored,pending⟩ := stocks_again known
    have store := moved.store
    exact ⟨stored.trans (congrArg Cas.stored store),index.trans (congrArg Cas.index store),
      pending.trans (congrArg Cas.pending store),fs⟩
  · intro w' entries' v' wf' fresh' fills' loads
    obtain ⟨filled',manifests'⟩ := fills'.filled apart wf' fresh'
    refine ⟨same_manifests manifests manifests' loads,filled.tallied.stats filled'.tallied ?_ rounded⟩
    rw [seen_loads,seen_loads,loads]

end

/-- Anything can be put, in any order. -/
theorem fills_loads {w : World} (wf : w.fs.Wf) {root : Bool} {block : Nat} {cdc s3 : Bool}
    (fresh : w.mem.store = ⟨root,block,cdc,s3,[],[],0,0,0⟩) (loads : List Load) :
    ∃ entries v, Fills .plain (fun _ => True) w entries v ∧ entries.map (·.1) = loads := by
  induction loads using List.reverseRecOn with
  | nil => exact ⟨[],w,.start,rfl⟩
  | append_singleton loads load ih =>
    obtain ⟨entries,u,fills,rfl⟩ := ih
    have here : u.fs.Wf := (fills.filled (fun _ _ _ _ same => same) wf fresh).1.wf
    obtain ⟨file,data⟩ := load
    cases file with
    | false =>
      have ran := (put_runs (P := .plain) (w := u) (.bytes data) rfl).mono fun _ _ _ _ stepped => stepped.1
      exact ⟨_,_,fills.put ⟨id,fun _ => rfl,rfl,rfl⟩ rfl (fun _ _ => trivial) ran,by rw [List.map_append]; rfl⟩
    | true =>
      -- the file is written first
      let x : World := { u with fs := u.fs.put (.scratch "i") data }
      have content : ∀ path, x.fs.content path = if path = .scratch "i" then some data else u.fs.content path :=
        Files.Fs.content_put here _ _
      have given : (Put.file (.scratch "i")).data x = some data := content _
      have between : Between u x := ⟨fun wf => Files.Fs.put_wf wf _ _,fun h => content (.chunk h),rfl,rfl⟩
      have ran := (put_runs (P := .plain) _ given).mono fun _ _ _ _ stepped => stepped.1
      exact ⟨_,_,fills.put between given (fun _ _ => trivial) ran,by rw [List.map_append]; rfl⟩

/-- A file and two buffers that have a block in common. -/
def sharing : List Load := [⟨true,[7,8,9]⟩,⟨false,[7,8,5]⟩,⟨false,[7,8]⟩]

/-- An object with blocks of two bytes, that writes files or only measures. -/
def pairing (root : Bool) : World :=
  { World.initial ⟨"p",none,"key",0⟩ false with mem := ⟨[],⟨root,2,false,false,[],[],0,0,0⟩,none⟩ }

/-- The common block is stored once, in either order, and measured once. -/
theorem dedup_exact_sharing : ∃ entries v entries' v' measured x,
    Fills .plain (fun _ => True) (pairing true) entries v ∧ entries.map (·.1) = sharing ∧
    Fills .plain (fun _ => True) (pairing true) entries' v' ∧ entries'.map (·.1) = sharing.reverse ∧
    Fills .plain (fun _ => True) (pairing false) measured x ∧ measured.map (·.1) = sharing ∧
    v.mem.store.logical = 8 ∧ v.mem.store.chunks = 5 ∧ v.mem.store.stored = 7 ∧
    (∀ h, v'.fs.content (.chunk h) = v.fs.content (.chunk h)) ∧ measured.map (·.2) = entries.map (·.2) ∧
    x.mem.store.stats (fun _ _ _ => 0) = v.mem.store.stats fun _ _ _ => 0 := by
  obtain ⟨entries,v,fills,loads⟩ := fills_loads (w := pairing true) Files.Fs.empty_wf rfl sharing
  obtain ⟨entries',v',fills',loads'⟩ := fills_loads (w := pairing true) Files.Fs.empty_wf rfl sharing.reverse
  obtain ⟨measured,x,measures,loads''⟩ := fills_loads (w := pairing false) Files.Fs.empty_wf rfl sharing
  obtain ⟨counted,orders,_,measuring⟩ :=
    dedup_exact (fun _ _ _ _ same => same) Files.Fs.empty_wf rfl (.inr (by decide)) fills fun _ _ _ => 0
  have blocks : seen .plain 2 false entries = [[7,8],[9],[7,8],[5],[7,8]] := by
    rw [seen_loads,loads]
    decide +kernel
  have perm : (entries'.map (·.1)).Perm (entries.map (·.1)) := by
    rw [loads,loads']
    exact List.reverse_perm _
  obtain ⟨manifests,stats⟩ := measuring _ measured x Files.Fs.empty_wf rfl measures (loads''.trans loads.symm)
  refine ⟨entries,v,entries',v',measured,x,fills,loads,fills',loads',measures,loads'',?_,?_,?_,
    (orders entries' v' fills' perm).2.1,manifests,stats⟩
  · have bytes : ((seen .plain 2 false entries).map List.length).sum = _ := seen_length (.inr (by decide)) entries
    rw [counted.logical,← bytes,blocks]
    rfl
  · rw [counted.chunks,← seen_count counted.manifests,blocks]
    rfl
  · rw [counted.stored,blocks]
    rfl

end Klados
