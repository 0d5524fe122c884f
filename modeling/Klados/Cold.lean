import Klados.Restore
import Klados.Stats

/-!
The cold tier under failing uploads. Snapshots are chunked one after the other, any call of any of them
may fail, and the daemon may be restarted in between. A chunk goes to the bucket when it is new to the
index, with the batch of the call that saw it first; `flush_s3` empties the queue before the batch is
sent. So a published manifest is complete in the bucket exactly when none of its chunks was lost with an
earlier batch, and only then the image can be restored without the chunk directory.
-/
namespace Klados.Cold
open Effects
open Files (Fs)

/-- A snapshot whose memory image was chunked. -/
structure Snap where
  sid : Id
  image : Bytes

def Snap.chunks (P : Platform) (p : Snap) : List Bytes := (Put.file (.snap p.sid .mem)).chunks P (Cas.fresh true) p.image

/-- The bytes of its manifest. -/
def Snap.manifest (P : Platform) (p : Snap) : Bytes := P.dumpManifest ⟨4096,(p.chunks P).map P.blake2b⟩

/-- Each chunk of the manifest is in the bucket, with the right content. -/
def Complete (P : Platform) (w : World) (p : Snap) : Prop :=
  ∀ blk ∈ p.chunks P, w.bucket (P.blake2b blk) = some (P.compress blk)

/-- The index holds the chunk, but it neither waits for its upload nor is it in the bucket. -/
def Stray (P : Platform) (w : World) (blk : Bytes) : Prop :=
  w.mem.store.knows (P.blake2b blk) = true ∧ (P.blake2b blk,P.compress blk) ∉ w.mem.store.pending ∧
    w.bucket (P.blake2b blk) ≠ some (P.compress blk)

/-- No chunk of the image is one that an earlier batch lost. -/
def Spared (P : Platform) (w : World) (p : Snap) : Prop := ∀ blk ∈ p.chunks P, ¬ Stray P w blk

/-- What may happen between two snapshots: anything that leaves the bucket and the manifests that were
    published, a restart of the daemon and the loss of chunk files included. -/
structure Meanwhile (published : List Snap) (w v : World) : Prop where
  wf : w.fs.Wf → v.fs.Wf
  bucket : v.bucket = w.bucket
  store : v.mem.store = w.mem.store ∨ v.mem.store = Cas.fresh true
  manifests : ∀ p ∈ published, v.fs.content (.snap p.sid .manifest) = w.fs.content (.snap p.sid .manifest)

/-- One `_chunk_mem`, of an image whose chunks are among those considered, or what happens between two.
    A call that completes publishes a manifest; those calls satisfy `ok`. -/
inductive Step (P : Platform) (K : Bytes → Prop) (ok : World → Snap → Prop) : World × List Snap → World × List Snap → Prop
  | completes {w v : World} {published : List Snap} {p : Snap} {logical : Nat} :
      (∀ q ∈ published, q.sid ≠ p.sid) → w.fs.content (.snap p.sid .mem) = some p.image → (∀ blk ∈ p.chunks P, K blk) →
      ok w p → Does (acts P) (chunk_mem P p.sid (.snap p.sid .mem)) w (.ok logical) v →
      Step P K ok (w,published) (v,published ++ [p])
  | raises {w v : World} {published : List Snap} {p : Snap} {error : Exn} :
      (∀ q ∈ published, q.sid ≠ p.sid) → w.fs.content (.snap p.sid .mem) = some p.image → (∀ blk ∈ p.chunks P, K blk) →
      Does (acts P) (chunk_mem P p.sid (.snap p.sid .mem)) w (.error error) v → Step P K ok (w,published) (v,published)
  | meanwhile {w v : World} {published : List Snap} : Meanwhile published w v → Step P K ok (w,published) (v,published)

/-- The object has the parameters of the daemon's store, with a bucket. -/
structure Tiered (store : Cas) : Prop where
  root : store.root = true
  block : store.block = 4096
  cdc : store.cdc = false
  s3 : store.s3 = true

/-- Only whole chunks wait, and every manifest that was published is in its file and complete in the bucket. -/
structure Ledger (P : Platform) (K : Bytes → Prop) (published : List Snap) (w : World) : Prop where
  wf : w.fs.Wf
  tiered : Tiered w.mem.store
  queued : ∀ h comp, (h,comp) ∈ w.mem.store.pending → ∃ blk, K blk ∧ h = P.blake2b blk ∧ comp = P.compress blk
  considered : ∀ p ∈ published, ∀ blk ∈ p.chunks P, K blk
  manifests : ∀ p ∈ published, w.fs.content (.snap p.sid .manifest) = some (p.manifest P)
  complete : ∀ p ∈ published, Complete P w p

/-- At most the file `p` differs. -/
structure Alters (p : Path) (w v : World) : Prop where
  mem : v.mem = w.mem
  bucket : v.bucket = w.bucket
  wf : w.fs.Wf → v.fs.Wf
  others : w.fs.Wf → ∀ q, q ≠ p → v.fs.content q = w.fs.content q

section
variable {P : Platform} {K : Bytes → Prop} {published : List Snap} {w v u : World} {p : Path}

theorem Alters.refl : Alters p w w := ⟨rfl,rfl,id,fun _ _ _ => rfl⟩

theorem Alters.trans (first : Alters p w u) (second : Alters p u v) : Alters p w v where
  mem := second.mem.trans first.mem
  bucket := second.bucket.trans first.bucket
  wf wf := second.wf (first.wf wf)
  others wf q other := (second.others (first.wf wf) q other).trans (first.others wf q other)

theorem Ledger.alters (ledger : Ledger P K published w) (apart : ∀ q ∈ published, p ≠ .snap q.sid .manifest)
    (altered : Alters p w v) : Ledger P K published v := by
  refine ⟨altered.wf ledger.wf,altered.mem ▸ ledger.tiered,altered.mem ▸ ledger.queued,ledger.considered,?_,?_⟩
  · intro q member
    rw [altered.others ledger.wf _ (apart q member).symm]
    exact ledger.manifests q member
  · intro q member blk inside
    rw [altered.bucket]
    exact ledger.complete q member blk inside

/-- The object changes, but its parameters do not, and what waits are whole chunks. -/
theorem Ledger.withStore (ledger : Ledger P K published w) {store : Cas} (tiered : Tiered store)
    (queued : ∀ h comp, (h,comp) ∈ store.pending → ∃ blk, K blk ∧ h = P.blake2b blk ∧ comp = P.compress blk) :
    Ledger P K published (w.withStore store) :=
  ⟨ledger.wf,tiered,queued,ledger.considered,ledger.manifests,ledger.complete⟩

/-- What a bucket entry that an upload leaves can be. -/
theorem Ledger.uploads (ledger : Ledger P K published w) (apart : P.Distinguishes K) (outcomes : List PutOutcome)
    {blk : Bytes} (considered : K blk) : (w.uploaded outcomes).bucket (P.blake2b blk) = w.bucket (P.blake2b blk) ∨
      (P.blake2b blk,P.compress blk) ∈ w.mem.store.pending ∧
        (w.uploaded outcomes).bucket (P.blake2b blk) = some (P.compress blk) := by
  rcases putAll_cases w.bucket w.mem.store.pending outcomes (P.blake2b blk) with same | ⟨comp,member,found⟩
  · exact .inl same
  · obtain ⟨blk',considered',own,rfl⟩ := ledger.queued _ _ member
    obtain rfl := apart blk blk' considered considered' own
    exact .inr ⟨member,found⟩

/-- Whatever PUTs fail, an upload keeps what was in the bucket. -/
theorem Ledger.uploaded (ledger : Ledger P K published w) (apart : P.Distinguishes K) (outcomes : List PutOutcome) :
    Ledger P K published (w.uploaded outcomes) := by
  have tiered := ledger.tiered
  refine ⟨ledger.wf,⟨tiered.root,tiered.block,tiered.cdc,tiered.s3⟩,?_,ledger.considered,ledger.manifests,?_⟩
  · intro h comp member
    cases member
  · intro q member blk inside
    rcases ledger.uploads apart outcomes (ledger.considered q member blk inside) with same | ⟨_,found⟩
    · rw [same]
      exact ledger.complete q member blk inside
    · exact found

theorem Ledger.meanwhile (ledger : Ledger P K published w) (moved : Meanwhile published w v) : Ledger P K published v := by
  refine ⟨moved.wf ledger.wf,?_,?_,ledger.considered,?_,?_⟩
  · rcases moved.store with same | restarted
    · rw [same]
      exact ledger.tiered
    · rw [restarted]
      exact ⟨rfl,rfl,rfl,rfl⟩
  · intro h comp member
    rcases moved.store with same | restarted
    · rw [same] at member
      exact ledger.queued h comp member
    · rw [restarted] at member
      cases member
  · intro q member
    rw [moved.manifests q member]
    exact ledger.manifests q member
  · intro q member blk inside
    rw [moved.bucket]
    exact ledger.complete q member blk inside

theorem finishes_makedirs : Finishes (acts P) (fsCall .makedirs) w fun _ v => v = w := by
  refine Finishes.perform ?_
  rintro outcome v ⟨choice,ran⟩
  cases choice <;> simp [exec,fsExec] at ran
  all_goals exact ran.2.symm

theorem finishes_getsize : Finishes (acts P) (fsCall (.getsize p)) w fun _ v => v = w := by
  refine Finishes.perform ?_
  rintro outcome v ⟨choice,ran⟩
  obtain ⟨⟨result,fs⟩,executed,same⟩ := Option.map_eq_some_iff.mp ran
  cases same
  cases choice with
  | ok =>
    simp only [fsExec] at executed
    split at executed <;> cases executed <;> rfl
  | fail e =>
    cases executed
    rfl
  | _ => cases executed

theorem finishes_remove : Finishes (acts P) (fsCall (.remove p)) w fun _ v => Alters p w v := by
  refine Finishes.perform ?_
  rintro outcome v ⟨choice,ran⟩
  obtain ⟨⟨result,fs⟩,executed,same⟩ := Option.map_eq_some_iff.mp ran
  cases same
  cases choice with
  | ok =>
    simp only [fsExec] at executed
    split at executed <;> cases executed
    · refine ⟨rfl,rfl,fun wf => Fs.remove_wf wf _,fun _ q other => ?_⟩
      rw [Fs.content_remove,if_neg other]
    · exact .refl
  | fail e =>
    cases executed
    exact .refl
  | _ => cases executed

/-- The write of a file, in which anything may fail. -/
theorem finishes_write_file {bytes : Bytes} : Finishes (acts P) (write_file p bytes) w fun _ v => Alters p w v := by
  refine Finishes.bind (R := fun outcome u => Alters p w u ∧ ∀ inode, outcome = .ok inode → u.fs.names p = some inode) ?_ ?_
    fun _ _ opened => opened.1
  · refine Finishes.perform ?_
    rintro outcome u ⟨choice,ran⟩
    obtain ⟨⟨result,fs⟩,executed,same⟩ := Option.map_eq_some_iff.mp ran
    cases same
    cases choice with
    | ok =>
      cases executed
      refine ⟨⟨rfl,rfl,fun wf => Fs.openTrunc_wf wf _,fun wf q other => ?_⟩,?_⟩
      · rw [Fs.content_openTrunc wf,if_neg other]
      · rintro inode same
        cases same
        simp [Fs.openTrunc_names]
    | fail e =>
      cases executed
      exact ⟨.refl,fun _ same => nomatch same⟩
    | _ => cases executed
  · rintro inode u ⟨opened,named⟩
    have kept : ∀ bytes, Alters p u { u with fs := u.fs.write inode 0 bytes } := by
      intro bytes
      refine ⟨rfl,rfl,fun wf => Fs.write_wf wf _ _ _,fun wf q other => ?_⟩
      rw [Fs.content_write wf (named inode rfl),if_neg other]
    refine Finishes.perform ?_
    rintro outcome v ⟨choice,ran⟩
    obtain ⟨⟨result,fs⟩,executed,same⟩ := Option.map_eq_some_iff.mp ran
    cases same
    cases choice with
    | ok | torn k e =>
      cases executed
      exact opened.trans (kept _)
    | fail e =>
      cases executed
      exact opened
    | _ => cases executed

theorem finishes_store_chunk {h : Digest} {comp : Bytes} :
    Finishes (acts P) (store_chunk h comp) w fun _ v => Alters (.chunk h) w v := by
  refine Finishes.bind finishes_makedirs ?_ fun _ v same => same ▸ .refl
  rintro _ x rfl
  refine Finishes.bind (R := fun _ v => v = x) (Finishes.perform fun _ _ stepped => (acts_exists.mp stepped).2) ?_
    fun _ v same => same ▸ .refl
  rintro there _ rfl
  exact Finishes.when .refl finishes_write_file

theorem Tiered.blocks {store : Cas} (tiered : Tiered store) : blocks P store = blocks P (Cas.fresh true) := by
  funext data
  unfold Klados.blocks
  rw [tiered.cdc,tiered.block]
  rfl

theorem Ledger.update (ledger : Ledger P K published w) {f : Cas → Cas} (tiered : Tiered (f w.mem.store))
    (queued : ∀ h comp, (h,comp) ∈ (f w.mem.store).pending → ∃ blk, K blk ∧ h = P.blake2b blk ∧ comp = P.compress blk) :
    Finishes (acts P) (memCall (.update f)) w fun _ v => Ledger P K published v := by
  refine Finishes.perform fun _ v stepped => ?_
  obtain ⟨_,rfl⟩ := acts_update.mp stepped
  exact ledger.withStore tiered queued

theorem Ledger.put_new (ledger : Ledger P K published w) (store : Cas) {blk : Bytes} (considered : K blk) :
    Finishes (acts P) (put_new P store (P.blake2b blk) blk) w fun _ v => Ledger P K published v := by
  have tiered := ledger.tiered
  refine Finishes.seq (ledger.update ⟨tiered.root,tiered.block,tiered.cdc,tiered.s3⟩ ledger.queued) fun _ u recorded => ?_
  refine Finishes.seq (Finishes.when recorded ?_) fun _ x shelved => Finishes.when shelved ?_
  · intro result v ran
    exact recorded.alters (by simp) (finishes_store_chunk result v ran)
  · have tiered := shelved.tiered
    refine shelved.update ⟨tiered.root,tiered.block,tiered.cdc,tiered.s3⟩ ?_
    intro h comp member
    rcases List.mem_append.mp member with earlier | last
    · exact shelved.queued h comp earlier
    · cases List.mem_singleton.mp last
      exact ⟨blk,considered,rfl,rfl⟩

theorem Ledger.put_block (ledger : Ledger P K published w) {blk : Bytes} (considered : K blk) :
    Finishes (acts P) (put_block P blk) w fun _ v => Ledger P K published v := by
  have tiered := ledger.tiered
  refine Finishes.seq (ledger.update ⟨tiered.root,tiered.block,tiered.cdc,tiered.s3⟩ ledger.queued) fun _ u counted => ?_
  refine Finishes.seq (Finishes.perform fun _ _ stepped => (acts_store.mp stepped).2 ▸ counted) fun store x looked => ?_
  exact Finishes.seq (Finishes.when looked (looked.put_new store considered)) fun _ _ stored => Finishes.ret stored

theorem Ledger.put_bytes (ledger : Ledger P K published w) {data : Bytes}
    (considered : ∀ blk ∈ blocks P (Cas.fresh true) data, K blk) :
    Finishes (acts P) (put_bytes P data) w fun _ v => Ledger P K published v := by
  intro result v ran
  have passes := passes_of_put_bytes ran
  rw [ledger.tiered.blocks] at passes
  exact Finishes.each ledger (fun blk member _ kept => kept.put_block (considered blk member)) result v passes

theorem Ledger.put_file (ledger : Ledger P K published w) {p : Snap} (given : w.fs.content (.snap p.sid .mem) = some p.image)
    (considered : ∀ blk ∈ p.chunks P, K blk) :
    Finishes (acts P) (put_file P (.snap p.sid .mem)) w fun _ v => Ledger P K published v := by
  refine Finishes.bind (R := fun outcome v => v = w ∧ ∀ data, outcome = .ok data → data = p.image) ?_ ?_
    fun _ _ same => same.1 ▸ ledger
  · refine Finishes.perform fun outcome v stepped => ?_
    obtain ⟨same,found⟩ := acts_readFile stepped
    refine ⟨same,fun data read => ?_⟩
    cases given.symm.trans (found data read)
    rfl
  · rintro data v ⟨rfl,read⟩
    cases read data rfl
    refine Finishes.seq (Finishes.each ledger ?_) fun _ _ kept => Finishes.ret kept
    intro buffer member u kept
    exact kept.put_bytes fun blk inside => considered blk (List.mem_flatMap.mpr ⟨buffer,member,inside⟩)

theorem Ledger.flush_s3 (ledger : Ledger P K published w) (apart : P.Distinguishes K) :
    Finishes (acts P) flush_s3 w fun _ v => Ledger P K published v := by
  intro result v ran
  obtain ⟨outcomes,rfl,_⟩ := flush_uploads ledger.tiered.s3 ran
  exact ledger.uploaded apart outcomes

/-- The lock is taken or given back. -/
theorem lock_keeps {o : MemOp} (lock : o = .acquire ∨ o = .release) {outcome : Except Exn o.Res}
    (stepped : acts P (.mem o) w outcome v) : v.fs = w.fs ∧ v.bucket = w.bucket ∧ v.mem.store = w.mem.store := by
  obtain ⟨choice,ran⟩ := stepped
  obtain ⟨⟨result,mem⟩,executed,same⟩ := Option.map_eq_some_iff.mp ran
  cases same
  refine ⟨rfl,rfl,?_⟩
  rcases lock with rfl | rfl <;> cases choice <;> simp [memExec] at executed
  · rw [← executed.2.2]
  · rw [← executed.2]

theorem Ledger.lock (ledger : Ledger P K published w) {o : MemOp} (lock : o = .acquire ∨ o = .release) :
    Finishes (acts P) (memCall o) w fun _ v => Ledger P K published v ∧ v.fs = w.fs := by
  refine Finishes.perform fun outcome v stepped => ?_
  obtain ⟨fs,bucket,store⟩ := lock_keeps lock stepped
  exact ⟨⟨fs ▸ ledger.wf,store ▸ ledger.tiered,store ▸ ledger.queued,ledger.considered,fs ▸ ledger.manifests,
    fun q member blk inside => bucket ▸ ledger.complete q member blk inside⟩,fs⟩

/-- However `_chunk_mem` ends, what was published before is still complete. -/
theorem Ledger.chunk_mem (ledger : Ledger P K published w) (apart : P.Distinguishes K) {p : Snap}
    (new : ∀ q ∈ published, q.sid ≠ p.sid) (given : w.fs.content (.snap p.sid .mem) = some p.image)
    (considered : ∀ blk ∈ p.chunks P, K blk) :
    Finishes (acts P) (chunk_mem P p.sid (.snap p.sid .mem)) w fun _ v => Ledger P K published v := by
  refine Finishes.seq (Finishes.bind (ledger.lock (.inl rfl)) ?_ fun _ _ kept => kept.1) ?_
  · rintro _ u ⟨locked,fs⟩
    refine Finishes.seq (Finishes.catching (R := fun _ v => Ledger P K published v) ?_ ?_) fun _ v stocked => ?_
    · refine Finishes.bind (locked.put_file (fs ▸ given) considered) (fun _ _ stocked => ?_) fun _ _ kept => kept
      exact Finishes.bind (stocked.flush_s3 apart) (fun _ _ kept => Finishes.ret kept) fun _ _ kept => kept
    · intro error v kept
      exact Finishes.bind (kept.lock (.inr rfl)) (fun _ _ unlocked => Finishes.raise unlocked.1) fun _ _ unlocked => unlocked.1
    · exact Finishes.bind (stocked.lock (.inr rfl)) (fun _ _ unlocked => Finishes.ret unlocked.1) fun _ _ unlocked => unlocked.1
  intro hashes u stocked
  have own : ∀ file, ∀ q ∈ published, Path.snap p.sid file ≠ .snap q.sid .manifest :=
    fun _ q member same => new q member (Path.snap.inj same).1.symm
  refine Finishes.bind finishes_write_file (fun _ v written => ?_) fun _ _ written => stocked.alters (own _) written
  have named := stocked.alters (own _) written
  refine Finishes.bind finishes_getsize ?_ fun _ _ same => same ▸ named
  rintro _ _ rfl
  refine Finishes.bind finishes_remove (fun _ _ removed => ?_) fun _ _ removed => named.alters (own _) removed
  exact Finishes.ret (named.alters (own _) removed)

/-! ## What a call that completes uploads -/

/-- The chunk goes to the bucket with the batch of this call: it waits already, or it is new. -/
def Sent (P : Platform) (w : World) (p : Snap) (blk : Bytes) : Prop :=
  (P.blake2b blk,P.compress blk) ∈ w.mem.store.pending ∨ (blk ∈ p.chunks P ∧ w.mem.store.knows (P.blake2b blk) = false)

/-- What a call that completes leaves in the bucket, in the index and in the queue. -/
structure Batch (P : Platform) (K : Bytes → Prop) (p : Snap) (w v : World) : Prop where
  sent : ∀ blk, K blk → Sent P w p blk → v.bucket (P.blake2b blk) = some (P.compress blk)
  rest : ∀ blk, K blk → ¬ Sent P w p blk → v.bucket (P.blake2b blk) = w.bucket (P.blake2b blk)
  knows : ∀ blk, K blk → (v.mem.store.knows (P.blake2b blk) = true ↔
    w.mem.store.knows (P.blake2b blk) = true ∨ blk ∈ p.chunks P)
  pending : v.mem.store.pending = []

/-- What waits after some passes: what waited before, and the chunks that were new. -/
theorem stocks_pending (apart : P.Distinguishes K) {blks : List Bytes} (considered : ∀ blk ∈ blks, K blk)
    (s3 : w.mem.store.s3 = true) (h : Digest) (comp : Bytes) :
    (h,comp) ∈ (blks.foldl (World.stock P) w).mem.store.pending ↔ (h,comp) ∈ w.mem.store.pending ∨
      ∃ blk ∈ blks, w.mem.store.knows (P.blake2b blk) = false ∧ h = P.blake2b blk ∧ comp = P.compress blk := by
  induction blks generalizing w with
  | nil => simp
  | cons blk rest ih =>
    have own := considered blk (List.mem_cons_self ..)
    have later := fun blk' member => considered blk' (List.mem_cons_of_mem _ member)
    have knows : ∀ h, (w.stock P blk).mem.store.knows h = (decide (P.blake2b blk = h) || w.mem.store.knows h) :=
      take_knows w.mem.store blk
    have first : (h,comp) ∈ (w.stock P blk).mem.store.pending ↔ (h,comp) ∈ w.mem.store.pending ∨
        (w.mem.store.knows (P.blake2b blk) = false ∧ h = P.blake2b blk ∧ comp = P.compress blk) := by
      show (h,comp) ∈ (w.mem.store.take P blk).pending ↔ _
      cases known : w.mem.store.knows (P.blake2b blk) with
      | true =>
        rw [take_known known]
        simp [Cas.count]
      | false =>
        rw [(take_new known).2.2.2.2,s3,if_pos rfl,List.mem_append,List.mem_singleton,Prod.mk.injEq]
        simp
    rw [List.foldl_cons,ih later ((take_parameters w.mem.store blk).2.2.2.trans s3),first]
    constructor
    · rintro ((waits | ⟨new,same⟩) | ⟨blk',member,new,same⟩)
      · exact .inl waits
      · exact .inr ⟨blk,List.mem_cons_self ..,new,same⟩
      · rw [knows,Bool.or_eq_false_iff] at new
        exact .inr ⟨blk',List.mem_cons_of_mem _ member,new.2,same⟩
    · rintro (waits | ⟨blk',member,new,same⟩)
      · exact .inl (.inl waits)
      · by_cases again : P.blake2b blk = P.blake2b blk'
        · rw [← again] at new
          rw [← apart blk blk' own (considered blk' member) again] at same
          exact .inl (.inr ⟨new,same⟩)
        · rcases List.mem_cons.mp member with rfl | inside
          · exact absurd rfl again
          · exact .inr ⟨blk',inside,by rw [knows]; simp [again,new],same⟩

theorem stocks_knows {blks : List Bytes} (h : Digest) : (blks.foldl (World.stock P) w).mem.store.knows h = true ↔
    w.mem.store.knows h = true ∨ ∃ blk ∈ blks, P.blake2b blk = h := by
  induction blks generalizing w with
  | nil => simp
  | cons blk rest ih =>
    rw [List.foldl_cons,ih,show (w.stock P blk).mem.store.knows h = _ from take_knows w.mem.store blk h,Bool.or_eq_true,
      decide_eq_true_iff]
    simp only [List.mem_cons,exists_eq_or_imp]
    constructor
    · rintro ((own | known) | later)
      · exact .inr (.inl own)
      · exact .inl known
      · exact .inr (.inr later)
    · rintro (known | own | later)
      · exact .inl (.inr known)
      · exact .inl (.inl own)
      · exact .inr later

/-- The passes leave the bucket and the parameters of the object. -/
theorem stocks_leave {blks : List Bytes} (wf : w.fs.Wf) : (blks.foldl (World.stock P) w).bucket = w.bucket ∧
    (blks.foldl (World.stock P) w).mem.store.s3 = w.mem.store.s3 ∧ (blks.foldl (World.stock P) w).fs.Wf := by
  induction blks generalizing w with
  | nil => exact ⟨rfl,rfl,wf⟩
  | cons blk rest ih =>
    obtain ⟨bucket,s3,kept⟩ := ih (w := w.stock P blk) (shelve_wf wf blk)
    exact ⟨bucket,s3.trans (take_parameters w.mem.store blk).2.2.2,kept⟩

theorem Ledger.stocks (ledger : Ledger P K published w) {blks : List Bytes} (considered : ∀ blk ∈ blks, K blk) :
    Ledger P K published (blks.foldl (World.stock P) w) :=
  Finishes.each ledger (fun blk member _ kept => kept.put_block (considered blk member)) _ _
    ((blocks_run blks).mono fun _ _ _ _ stepped => stepped.1)

theorem uploaded_knows (x : World) (outcomes : List PutOutcome) (h : Digest) :
    (x.uploaded outcomes).mem.store.knows h = x.mem.store.knows h := rfl

/-- The passes of an image and an upload in which every PUT succeeds. -/
theorem Ledger.batch (ledger : Ledger P K published w) (apart : P.Distinguishes K) {p : Snap}
    (considered : ∀ blk ∈ p.chunks P, K blk) {x : World} (passed : x = (p.chunks P).foldl (World.stock P) w)
    {outcomes : List PutOutcome} (length : outcomes.length = x.mem.store.pending.length)
    (stored : outcomes.all (·.stored) = true) : Batch P K p w (x.uploaded outcomes) := by
  have stocked : Ledger P K published x := passed ▸ ledger.stocks considered
  have bucket : x.bucket = w.bucket := passed ▸ (stocks_leave ledger.wf).1
  have waits : ∀ blk, K blk → ((P.blake2b blk,P.compress blk) ∈ x.mem.store.pending ↔ Sent P w p blk) := by
    intro blk own
    rw [passed,stocks_pending apart considered ledger.tiered.s3]
    refine or_congr_right ⟨?_,fun new => ⟨blk,new.1,new.2,rfl,rfl⟩⟩
    rintro ⟨blk',member,new,same,_⟩
    rw [apart blk blk' own (considered blk' member) same]
    exact ⟨member,new⟩
  refine ⟨?_,?_,?_,rfl⟩
  · intro blk own sent
    obtain ⟨comp,member,found⟩ := putAll_all length stored x.bucket ((waits blk own).mpr sent)
    obtain ⟨blk',considered',same,rfl⟩ := stocked.queued _ _ member
    rw [← apart blk blk' own considered' same] at found
    exact found
  · intro blk own unsent
    rcases stocked.uploads apart outcomes own with same | ⟨member,_⟩
    · rw [same,bucket]
    · exact absurd ((waits blk own).mp member) unsent
  · intro blk own
    rw [uploaded_knows,passed,stocks_knows]
    refine or_congr_right ⟨?_,fun member => ⟨blk,member,rfl⟩⟩
    rintro ⟨blk',member,same⟩
    rw [apart blk blk' own (considered blk' member) same.symm]
    exact member

/-- A batch is what it is by the bucket and the object only. -/
theorem Batch.of_same {p : Snap} {x y : World} (batch : Batch P K p w x) (bucket : y.bucket = x.bucket)
    (store : y.mem.store = x.mem.store) : Batch P K p w y :=
  ⟨bucket ▸ batch.sent,bucket ▸ batch.rest,store ▸ batch.knows,store ▸ batch.pending⟩

theorem Batch.since {p : Snap} {x : World} (batch : Batch P K p x v) (bucket : x.bucket = w.bucket)
    (store : x.mem.store = w.mem.store) : Batch P K p w v := by
  have sent : ∀ blk, Sent P x p blk ↔ Sent P w p blk := fun blk => by rw [Sent,Sent,store]
  refine ⟨fun blk own out => batch.sent blk own ((sent blk).mpr out),?_,store ▸ batch.knows,batch.pending⟩
  intro blk own unsent
  rw [batch.rest blk own fun out => unsent ((sent blk).mp out),bucket]

/-- What `put_file` and `flush_s3` leave when both return. -/
theorem Ledger.gives_upload (ledger : Ledger P K published w) (apart : P.Distinguishes K) {p : Snap}
    (given : w.fs.content (.snap p.sid .mem) = some p.image) (considered : ∀ blk ∈ p.chunks P, K blk) :
    Gives (acts P) (do
      let hashes ← Klados.put_file P (.snap p.sid .mem)
      let _ ← Klados.flush_s3
      pure hashes) w fun hashes v => hashes = (p.chunks P).map P.blake2b ∧ v.fs.Wf ∧ Batch P K p w v := by
  have cut : (Put.file (.snap p.sid .mem)).chunks P w.mem.store p.image = p.chunks P := by
    rw [Snap.chunks,Put.chunks,Put.chunks,ledger.tiered.blocks]
  refine Gives.bind (R := fun hashes x => hashes = (p.chunks P).map P.blake2b ∧
    x = (p.chunks P).foldl (World.stock P) w) ?_ ?_
  · intro hashes x ran
    have returned := of_returned (.file (.snap p.sid .mem)) given ran
    rw [cut] at returned
    exact returned
  · rintro hashes x ⟨rfl,passed⟩
    have s3 : x.mem.store.s3 = true := passed ▸ (stocks_leave ledger.wf).2.1.trans ledger.tiered.s3
    have wf : x.fs.Wf := passed ▸ (stocks_leave ledger.wf).2.2
    refine Gives.bind (R := fun _ v => v.fs.Wf ∧ Batch P K p w v) ?_ fun _ _ flushed => Gives.ret ⟨rfl,flushed⟩
    intro n v ran
    obtain ⟨outcomes,rfl,whole⟩ := flush_uploads s3 ran
    obtain ⟨length,stored⟩ := whole n rfl
    exact ⟨wf,ledger.batch apart considered passed length stored⟩

/-- What `_chunk_mem` leaves when it completes. -/
theorem Ledger.gives_chunk_mem (ledger : Ledger P K published w) (apart : P.Distinguishes K) {p : Snap}
    (given : w.fs.content (.snap p.sid .mem) = some p.image) (considered : ∀ blk ∈ p.chunks P, K blk) :
    Gives (acts P) (Klados.chunk_mem P p.sid (.snap p.sid .mem)) w fun _ v =>
      v.fs.content (.snap p.sid .manifest) = some (p.manifest P) ∧ Batch P K p w v := by
  refine Gives.bind (gives_locked (Q := fun hashes v => hashes = (p.chunks P).map P.blake2b ∧ v.fs.Wf ∧ Batch P K p w v) ?_ ?_) ?_
  · intro u stepped
    obtain ⟨fs,bucket,store⟩ := lock_keeps (.inl rfl) stepped
    have locked := (ledger.lock (.inl rfl) _ _ (Does.perform.mpr stepped)).1
    exact (locked.gives_upload apart (fs ▸ given) considered).mono fun _ _ left => ⟨left.1,left.2.1,left.2.2.since bucket store⟩
  · rintro hashes u v stepped ⟨same,wf,batch⟩
    obtain ⟨fs,bucket,store⟩ := lock_keeps (.inr rfl) stepped
    exact ⟨same,fs ▸ wf,batch.of_same bucket store⟩
  rintro hashes u ⟨rfl,wf,batch⟩
  refine Gives.bind gives_write_file ?_
  rintro _ _ rfl
  refine Gives.bind (R := fun _ v => v = _) (fun n v ran => finishes_getsize _ v ran) ?_
  rintro logical _ rfl
  refine Gives.bind gives_remove ?_
  rintro _ _ rfl
  refine Gives.ret ⟨?_,batch.of_same rfl rfl⟩
  rw [Fs.content_remove,if_neg (by simp)]
  show (u.fs.put (.snap p.sid .manifest) (p.manifest P)).content (.snap p.sid .manifest) = _
  rw [Fs.content_put wf,if_pos rfl]

/-- After a call that completes: the manifest is complete exactly when no chunk of the image was lost before. -/
theorem Batch.complete_iff {p : Snap} (batch : Batch P K p w v) (considered : ∀ blk ∈ p.chunks P, K blk) :
    Complete P v p ↔ Spared P w p := by
  constructor
  · rintro complete blk member ⟨known,waits,missing⟩
    refine missing ((batch.rest blk (considered blk member) ?_).symm.trans (complete blk member))
    rintro (waiting | ⟨_,new⟩)
    · exact waits waiting
    · rw [known] at new
      cases new
  · intro spared blk member
    by_cases sent : Sent P w p blk
    · exact batch.sent blk (considered blk member) sent
    · rw [batch.rest blk (considered blk member) sent]
      by_contra missing
      refine spared blk member ⟨?_,fun waits => sent (.inl waits),missing⟩
      rw [← Bool.not_eq_false]
      exact fun new => sent (.inr ⟨member,new⟩)

/-- A call that completes loses no chunk. -/
theorem Batch.stray {p : Snap} (batch : Batch P K p w v) {blk : Bytes} (considered : K blk) (stray : Stray P v blk) :
    Stray P w blk := by
  obtain ⟨known,_,missing⟩ := stray
  have unsent : ¬ Sent P w p blk := fun sent => missing (batch.sent blk considered sent)
  rw [batch.rest blk considered unsent] at missing
  refine ⟨?_,fun waits => unsent (.inl waits),missing⟩
  rcases (batch.knows blk considered).mp known with before | member
  · exact before
  · rw [← Bool.not_eq_false]
    exact fun new => unsent (.inr ⟨member,new⟩)

/-- Step: one snapshot, or what happens between two. -/
theorem Ledger.step {s s' : World × List Snap} (ledger : Ledger P K s.2 s.1) (apart : P.Distinguishes K)
    (next : Step P K (Spared P) s s') : Ledger P K s'.2 s'.1 := by
  cases next with
  | @completes w v published p logical new given considered spared ran =>
    have kept := ledger.chunk_mem apart new given considered _ v ran
    obtain ⟨manifest,batch⟩ := ledger.gives_chunk_mem apart given considered logical v ran
    have whole := (batch.complete_iff considered).mpr spared
    refine ⟨kept.wf,kept.tiered,kept.queued,?_,?_,?_⟩
    all_goals
      intro q member
      rcases List.mem_append.mp member with earlier | last
    · exact kept.considered q earlier
    · exact List.mem_singleton.mp last ▸ considered
    · exact kept.manifests q earlier
    · exact List.mem_singleton.mp last ▸ manifest
    · exact kept.complete q earlier
    · exact List.mem_singleton.mp last ▸ whole
  | raises new given considered ran => exact ledger.chunk_mem apart new given considered _ _ ran
  | meanwhile moved => exact ledger.meanwhile moved

/-- Run: from a new object on, while no image has a chunk that was lost. -/
theorem Ledger.steps {s s' : World × List Snap} (ledger : Ledger P K s.2 s.1) (apart : P.Distinguishes K)
    (session : Relation.ReflTransGen (Step P K (Spared P)) s s') : Ledger P K s'.2 s'.1 := by
  induction session with
  | refl => exact ledger
  | tail _ next ih => exact ih.step apart next

/-- What holds in every run: nothing is said of the manifests. -/
theorem Ledger.bare {s s' : World × List Snap} (ledger : Ledger P K [] s.1) (apart : P.Distinguishes K)
    (session : Relation.ReflTransGen (Step P K fun _ _ => True) s s') : Ledger P K [] s'.1 := by
  induction session with
  | refl => exact ledger
  | tail _ next ih =>
    cases next with
    | completes _ given considered _ ran => exact ih.chunk_mem apart (by simp) given considered _ _ ran
    | raises _ given considered ran => exact ih.chunk_mem apart (by simp) given considered _ _ ran
    | meanwhile moved => exact ih.meanwhile ⟨moved.wf,moved.bucket,moved.store,by simp⟩

theorem Ledger.start (wf : w.fs.Wf) (opened : w.mem.store = Cas.fresh true) : Ledger P K [] w := by
  refine ⟨wf,?_,?_,by simp,by simp,by simp⟩
  · rw [opened]
    exact ⟨rfl,rfl,rfl,rfl⟩
  · rw [opened]
    intro h comp member
    cases member

/-- The chunk directory and the hot image are lost; the bucket and the manifest are there. -/
structure Emptied (p : Snap) (w u : World) : Prop where
  wf : u.fs.Wf
  bucket : u.bucket = w.bucket
  store : Tiered u.mem.store
  manifest : u.fs.content (.snap p.sid .manifest) = w.fs.content (.snap p.sid .manifest)
  chunks : ∀ h, u.fs.content (.chunk h) = none
  hot : u.fs.content (.snap p.sid .mem) = none

/-- The image can be materialised again, and whenever it is, it is the image. -/
def Restores (P : Platform) (u : World) (p : Snap) : Prop :=
  (∃ v, Does (acts P) (reconstruct_mem P p.sid) u (.ok (.snap p.sid .mem)) v) ∧
    Gives (acts P) (reconstruct_mem P p.sid) u fun path v =>
      path = .snap p.sid .mem ∧ v.fs.content (.snap p.sid .mem) = some p.image

theorem Snap.flatten (p : Snap) : (p.chunks P).flatten = p.image := chunks_flatten (.inr (by decide)) _ _

theorem Ledger.restores (ledger : Ledger P K published w) (lossless : P.Lossless) (apart : P.Distinguishes K) {p : Snap}
    (member : p ∈ published) (emptied : Emptied p w u) : Restores P u p := by
  have available : Available P (p.chunks P) u := by
    refine ⟨emptied.wf,emptied.store.root,emptied.store.s3,?_,?_⟩
    · intro blk _ bytes found
      rw [emptied.chunks] at found
      cases found
    · intro blk inside
      rw [emptied.bucket]
      exact ledger.complete p member blk inside
  have manifest : u.fs.content (.snap p.sid .manifest) = some (P.dumpManifest ⟨4096,(p.chunks P).map P.blake2b⟩) :=
    emptied.manifest.trans (ledger.manifests p member)
  have restored := available.reconstructs lossless apart (ledger.considered p member) manifest emptied.hot
  rw [p.flatten] at restored
  exact restored

/-- In every run in which no image has a chunk that was lost before, whatever calls fail: every manifest that
    was published is complete in the bucket, and its image can be restored without the chunk directory. In
    every run at all, a call that completes publishes a complete manifest exactly when its image has no such
    chunk; and it loses none, so that a chunk is lost only in a call that raises. -/
theorem cold_complete {P : Platform} (lossless : P.Lossless) {K : Bytes → Prop} (apart : P.Distinguishes K) {w : World}
    (wf : w.fs.Wf) (opened : w.mem.store = Cas.fresh true) :
    (∀ s, Relation.ReflTransGen (Step P K (Spared P)) (w,[]) s → ∀ p ∈ s.2,
      s.1.fs.content (.snap p.sid .manifest) = some (p.manifest P) ∧ Complete P s.1 p ∧
        ∀ u, Emptied p s.1 u → Restores P u p) ∧
    ∀ s, Relation.ReflTransGen (Step P K fun _ _ => True) (w,[]) s → ∀ (p : Snap) (logical : Nat) (v : World),
      s.1.fs.content (.snap p.sid .mem) = some p.image → (∀ blk ∈ p.chunks P, K blk) →
      Does (acts P) (chunk_mem P p.sid (.snap p.sid .mem)) s.1 (.ok logical) v →
      (Complete P v p ↔ Spared P s.1 p) ∧ ∀ blk, K blk → Stray P v blk → Stray P s.1 blk := by
  have ledger : Ledger P K [] w := Ledger.start wf opened
  constructor
  · intro s session p member
    have held := Ledger.steps (s := (w,[])) ledger apart session
    exact ⟨held.manifests p member,held.complete p member,fun u emptied => held.restores lossless apart member emptied⟩
  · intro s session p logical v given considered ran
    have held := Ledger.bare (s := (w,[])) ledger apart session
    obtain ⟨_,batch⟩ := held.gives_chunk_mem apart given considered logical v ran
    exact ⟨batch.complete_iff considered,fun blk own stray => batch.stray own stray⟩

end
/-- Two memory images with the same bytes, and a bucket. -/
def twoImages : World :=
  { World.initial ⟨"p",none,"key",0⟩ true with fs := ((Fs.empty : Fs Path).put (.snap "s" .mem) [7]).put (.snap "s'" .mem) [7] }

/-- Run `_chunk_mem` along a script. -/
def chunkAlong (script : List Choice) (sid : Id) (w : World) : Option (Except Exn Nat × World) :=
  replay (exec .plain 0) (fun (_ : Empty) _ => none) (script.map .inr) (chunk_mem .plain sid (.snap sid .mem)) w

theorem does_of_chunkAlong {script : List Choice} {sid : Id} {w v : World} {result : Except Exn Nat}
    (ran : chunkAlong script sid w = some (result,v)) :
    Does (acts .plain) (chunk_mem .plain sid (.snap sid .mem)) w result v :=
  Runs.of_replay (fun _ => rfl) (fun first second => first.trans second) (fun move => nomatch move)
    (fun _ choice _ _ _ executed => ⟨choice,executed⟩) ran

/-- The calls of `_chunk_mem` on an image of one new chunk, up to its upload. -/
def upload : List Choice := List.replicate 13 .ok

theorem one_chunk (sid : Id) : Snap.chunks .plain ⟨sid,[7]⟩ = [[7]] := by
  have cut : (Put.file (.snap "s" .mem)).chunks .plain (Cas.fresh true) [7] = [[7]] := by decide +kernel
  exact cut

/-- The daemon is started again. -/
def reopened (w : World) : World := { w with mem := ⟨[],Cas.fresh true,none⟩ }

/-- The manifest of the first image cannot be written, and the daemon is restarted; then the second image is
    uploaded, and the first, which has the same chunk. -/
theorem cold_complete_shared : ∃ s, Relation.ReflTransGen (Step .plain (· = [7]) (Spared .plain)) (twoImages,[]) s ∧
    s.2 = [⟨"s'",[7]⟩,⟨"s",[7]⟩] ∧ s.1.mem.store.stored = 2 ∧
    ∀ p ∈ s.2, Complete .plain s.1 p ∧ ∀ u, Emptied p s.1 u → Restores .plain u p := by
  have found : ((chunkAlong (upload ++ [.puts [⟨true,none⟩],.ok,.fail (.OSError "No space left on device")]) "s" twoImages).bind
      fun (raised,x) => (chunkAlong (List.replicate 11 .ok ++ [.puts [⟨true,none⟩]] ++ List.replicate 5 .ok) "s'" (reopened x)).bind
        fun (first,y) => (chunkAlong (List.replicate 11 .ok) "s" y).map fun (second,v) =>
          decide ((raised.toOption = none ∧ twoImages.fs.content (.snap "s" .mem) = some [7]) ∧
            (first.toOption.isSome = true ∧ x.fs.content (.snap "s'" .mem) = some [7]) ∧
            second.toOption.isSome = true ∧ y.fs.content (.snap "s" .mem) = some [7] ∧ y.bucket [7] = some [1,7] ∧
            v.mem.store.stored = 2)) = some true := by decide +kernel
  obtain ⟨⟨raised,x⟩,ran,rest⟩ := Option.bind_eq_some_iff.mp found
  obtain ⟨⟨first,y⟩,ran',rest⟩ := Option.bind_eq_some_iff.mp rest
  obtain ⟨⟨second,v⟩,ran'',good⟩ := Option.map_eq_some_iff.mp rest
  obtain ⟨⟨failed,given⟩,⟨returned,given'⟩,returned',given'',uploaded,stored⟩ := of_decide_eq_true good
  cases raised with
  | ok logical => cases failed
  | error error =>
    cases first with
    | error error' => cases returned
    | ok logical =>
      cases second with
      | error error' => cases returned'
      | ok logical' =>
        have wf : twoImages.fs.Wf := Fs.put_wf (Fs.put_wf Fs.empty_wf _ _) _ _
        have failing : Step .plain (· = [7]) (Spared .plain) (twoImages,[]) (x,[]) :=
          .raises (p := ⟨"s",[7]⟩) (by simp) given (by simp [one_chunk]) (does_of_chunkAlong ran)
        have restarting : Step .plain (· = [7]) (Spared .plain) (x,[]) (reopened x,[]) :=
          .meanwhile ⟨id,rfl,.inr rfl,by simp⟩
        have fresh : Spared .plain (reopened x) ⟨"s'",[7]⟩ := fun blk _ stray =>
          absurd stray.1 (by simp [reopened,Cas.fresh,Cas.knows])
        have completing : Step .plain (· = [7]) (Spared .plain) (reopened x,[]) (y,[⟨"s'",[7]⟩]) :=
          .completes (p := ⟨"s'",[7]⟩) (by simp) given' (by simp [one_chunk]) fresh (does_of_chunkAlong ran')
        have shared : Spared .plain y ⟨"s",[7]⟩ := by
          rintro blk member ⟨_,_,missing⟩
          rw [one_chunk,List.mem_singleton] at member
          subst member
          exact missing uploaded
        have again : Step .plain (· = [7]) (Spared .plain) (y,[⟨"s'",[7]⟩]) (v,[⟨"s'",[7]⟩,⟨"s",[7]⟩]) :=
          .completes (p := ⟨"s",[7]⟩) (by simp) given'' (by simp [one_chunk]) shared (does_of_chunkAlong ran'')
        have session := (((Relation.ReflTransGen.single failing).tail restarting).tail completing).tail again
        have held := (cold_complete Platform.plain_lossless (fun _ _ _ _ same => same) wf rfl).1 _ session
        exact ⟨_,session,rfl,stored,fun p member => (held p member).2⟩

/-- The PUT of the first snapshot's chunk fails, and a second snapshot has the same chunk: it succeeds, its
    manifest is published, and its chunk is not in the bucket. Without the chunk directory it is lost. -/
theorem failed_upload_poisons : ∃ s u, Relation.ReflTransGen (Step .plain (· = [7]) fun _ _ => True) (twoImages,[]) s ∧
    s.2 = [⟨"s'",[7]⟩] ∧ s.1.bucket [7] = none ∧ ¬ Complete .plain s.1 ⟨"s'",[7]⟩ ∧
    Emptied ⟨"s'",[7]⟩ s.1 u ∧ ∀ path v, ¬ Does (acts .plain) (reconstruct_mem .plain "s'") u (.ok path) v := by
  have found : ((chunkAlong (upload ++ [.puts [⟨false,some (.RuntimeError "S3 PUT -> 503")⟩],.ok]) "s" twoImages).bind
      fun (raised,x) => (chunkAlong (List.replicate 11 .ok) "s'" x).map fun (returned,v) =>
        decide (twoImages.fs.content (.snap "s" .mem) = some [7] ∧ raised.toOption = none ∧
          x.fs.content (.snap "s'" .mem) = some [7] ∧ returned.toOption.isSome = true ∧
          v.fs.content (.snap "s'" .manifest) = some (encodeManifest ⟨4096,[[7]]⟩) ∧ v.bucket [7] = none ∧
          v.mem.store.root = true ∧ v.mem.store.block = 4096 ∧ v.mem.store.cdc = false ∧ v.mem.store.s3 = true)) =
            some true := by decide +kernel
  obtain ⟨⟨raised,x⟩,first,rest⟩ := Option.bind_eq_some_iff.mp found
  obtain ⟨⟨returned,v⟩,second,good⟩ := Option.map_eq_some_iff.mp rest
  obtain ⟨given,failed,given',succeeded,manifest,missing,root,block,cdc,s3⟩ := of_decide_eq_true good
  cases raised with
  | ok logical => cases failed
  | error error =>
    cases returned with
    | error error' => cases succeeded
    | ok logical =>
      let left : Fs Path := (Fs.empty : Fs Path).put (.snap "s'" .manifest) (encodeManifest ⟨4096,[[7]]⟩)
      have wf : left.Wf := Fs.put_wf Fs.empty_wf _ _
      have content : ∀ q, left.content q = if q = .snap "s'" .manifest then some (encodeManifest ⟨4096,[[7]]⟩) else none :=
        fun q => Fs.content_put Fs.empty_wf _ _ q
      have emptied : Emptied ⟨"s'",[7]⟩ v { v with fs := left } :=
        ⟨wf,rfl,⟨root,block,cdc,s3⟩,by rw [manifest]; exact content _,fun h => content _,content _⟩
      have failing : Step .plain (· = [7]) (fun _ _ => True) (twoImages,[]) (x,[]) :=
        .raises (p := ⟨"s",[7]⟩) (by simp) given (by simp [one_chunk]) (does_of_chunkAlong first)
      have completing : Step .plain (· = [7]) (fun _ _ => True) (x,[]) (v,[⟨"s'",[7]⟩]) :=
        .completes (p := ⟨"s'",[7]⟩) (by simp) given' (by simp [one_chunk]) trivial (does_of_chunkAlong second)
      refine ⟨(v,[⟨"s'",[7]⟩]),{ v with fs := left },.tail (.single failing) completing,rfl,missing,?_,emptied,?_⟩
      · intro complete
        have there := complete [7] (by simp [one_chunk])
        cases missing.symm.trans there
      · intro path y ran
        have listed : left.content (.snap "s'" .manifest) = some (Platform.plain.dumpManifest ⟨4096,[[7]]⟩) := content _
        exact not_reconstructs Platform.plain_lossless (w := { v with fs := left }) wf listed (content _) (content _)
          missing path y ran

end Klados.Cold
