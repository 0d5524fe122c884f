import Klados.Charge
import Klados.Cold

/-!
The chunk store as long as nothing fails to be written. Each chunk of the index is where it belongs,
in its file or in the bucket, or waits for its upload; so what was stored once stays there for every
later image that has the same chunk. An image goes in chunk by chunk and comes back whole.
-/
namespace Klados
open Effects
open Files (Fs)

/-- The calls that make directories, files and objects. -/
def Op.makes : Op → Prop
  | .fs .makedirs | .fs (.openTrunc _) | .fs (.write _ _ _) | .s3 (.put _) => True
  | _ => False

/-- A call of the daemon, where nothing fails to be made. -/
def sure (P : Platform) (op : Op) (w : World) (outcome : Except Exn op.Res) (v : World) : Prop :=
  acts P op w outcome v ∧ (op.makes → ∃ value, outcome = .ok value)

/-- The chunk is where it stays: in the bucket if there is one, else in its file. -/
def Persists (P : Platform) (s3 : Bool) (w : World) (blk : Bytes) : Prop :=
  if s3 then w.bucket (P.blake2b blk) = some (P.compress blk)
  else w.fs.content (.chunk (P.blake2b blk)) = some (P.compress blk)

/-- The chunk is where it stays, or on its way there. -/
def Placed (P : Platform) (s3 : Bool) (w : World) (blk : Bytes) : Prop :=
  Persists P s3 w blk ∨ (s3 = true ∧ (P.blake2b blk,P.compress blk) ∈ w.mem.store.pending)

/-- The state of the store: files of chunks are complete, and the chunks of the index are placed. -/
structure Shelf (P : Platform) (K : Bytes → Prop) (s3 : Bool) (w : World) : Prop where
  wf : w.fs.Wf
  root : w.mem.store.root = true
  block : w.mem.store.block = 4096
  cdc : w.mem.store.cdc = false
  tier : w.mem.store.s3 = s3
  clean : ∀ blk, K blk → ∀ bytes, w.fs.content (.chunk (P.blake2b blk)) = some bytes → bytes = P.compress blk
  queued : ∀ h comp, (h,comp) ∈ w.mem.store.pending → ∃ blk, K blk ∧ h = P.blake2b blk ∧ comp = P.compress blk
  indexed : ∀ blk, K blk → w.mem.store.knows (P.blake2b blk) = true → Placed P s3 w blk

/-- The chunks of an image. -/
def pages (P : Platform) (image : Bytes) : List Bytes := Load.chunks P 4096 false ⟨true,image⟩

section
variable {P : Platform} {K : Bytes → Prop} {s3 : Bool} {w v u : World} {blk : Bytes}

theorem pages_flatten (image : Bytes) : (pages P image).flatten = image := load_flatten (.inr (by decide)) _

theorem Shelf.chunks (shelf : Shelf P K s3 w) (p : Path) (image : Bytes) :
    (Put.file p).chunks P w.mem.store image = pages P image := by
  rw [pages,← shelf.block,← shelf.cdc]
  exact (chunks_load (.file p) w.mem.store image).symm

/-- Where a chunk is does not depend on other files than its own. -/
theorem Persists.of_same (persists : Persists P s3 w blk) (bucket : v.bucket = w.bucket)
    (file : ∀ h, v.fs.content (.chunk h) = w.fs.content (.chunk h)) : Persists P s3 v blk := by
  unfold Persists at persists ⊢
  rw [bucket,file]
  exact persists

theorem Placed.of_same (placed : Placed P s3 w blk) (store : v.mem.store = w.mem.store) (bucket : v.bucket = w.bucket)
    (file : ∀ h, v.fs.content (.chunk h) = w.fs.content (.chunk h)) : Placed P s3 v blk := by
  rcases placed with persists | ⟨tier,waits⟩
  · exact .inl (persists.of_same bucket file)
  · exact .inr ⟨tier,store ▸ waits⟩

theorem Shelf.of_same (shelf : Shelf P K s3 w) (wf : v.fs.Wf) (store : v.mem.store = w.mem.store) (bucket : v.bucket = w.bucket)
    (file : ∀ h, v.fs.content (.chunk h) = w.fs.content (.chunk h)) : Shelf P K s3 v where
  wf := wf
  root := store ▸ shelf.root
  block := store ▸ shelf.block
  cdc := store ▸ shelf.cdc
  tier := store ▸ shelf.tier
  clean blk considered bytes found := shelf.clean blk considered bytes (file _ ▸ found)
  queued h comp waits := shelf.queued h comp (store ▸ waits)
  indexed blk considered knows := (shelf.indexed blk considered (store ▸ knows)).of_same store bucket file

/-- A store that has just been opened. -/
theorem Shelf.reboot (shelf : Shelf P K s3 w) : Shelf P K s3 w.reboot where
  wf := shelf.wf
  root := rfl
  block := rfl
  cdc := rfl
  tier := shelf.tier
  clean := shelf.clean
  queued h comp waits := by cases waits
  indexed blk _ knows := by cases knows

/-- What a pass of `put_bytes` leaves in the queue. -/
theorem take_pending (store : Cas) (blk : Bytes) : (store.take P blk).pending = store.pending ∨
    (store.s3 = true ∧ store.knows (P.blake2b blk) = false ∧
      (store.take P blk).pending = store.pending ++ [(P.blake2b blk,P.compress blk)]) := by
  cases knows : store.knows (P.blake2b blk) with
  | true => exact .inl (by rw [take_known knows]; rfl)
  | false =>
    rw [(take_new knows).2.2.2.2]
    by_cases tier : store.s3 = true
    · exact .inr ⟨tier,rfl,if_pos tier⟩
    · exact .inl (if_neg tier)

theorem stock_content (wf : w.fs.Wf) {p : Path} {bytes : Bytes} (found : w.fs.content p = some bytes) :
    (w.stock P blk).fs.content p = some bytes := by
  refine (shelve_content wf blk p).trans ?_
  rw [if_neg,found]
  rintro ⟨_,_,_,absent⟩
  rw [found] at absent
  cases absent

/-- Where a chunk is placed, a pass leaves it. -/
theorem Placed.stock (wf : w.fs.Wf) (placed : Placed P s3 w blk) (other : Bytes) : Placed P s3 (w.stock P other) blk := by
  rcases placed with persists | ⟨tier,waits⟩
  · refine .inl ?_
    cases s3 with
    | true => exact persists
    | false => exact stock_content wf persists
  · refine .inr ⟨tier,?_⟩
    rcases take_pending (P := P) w.mem.store other with same | ⟨_,_,more⟩
    · exact same.symm ▸ waits
    · exact more.symm ▸ List.mem_append_left _ waits

/-- A chunk that goes through is placed afterwards. -/
theorem Shelf.placed (shelf : Shelf P K s3 w) (considered : K blk) : Placed P s3 (w.stock P blk) blk := by
  cases knows : w.mem.store.knows (P.blake2b blk) with
  | true => exact (shelf.indexed blk considered knows).stock shelf.wf blk
  | false =>
    cases s3 with
    | true =>
      refine .inr ⟨rfl,?_⟩
      show _ ∈ (w.mem.store.take P blk).pending
      rw [(take_new knows).2.2.2.2,if_pos shelf.tier]
      exact List.mem_append_right _ (List.mem_singleton_self _)
    | false =>
      refine .inl ?_
      show (w.shelve P blk).content (.chunk (P.blake2b blk)) = _
      rw [shelve_content shelf.wf]
      cases found : w.fs.content (.chunk (P.blake2b blk)) with
      | none => rw [if_pos ⟨knows,shelf.root,rfl,rfl⟩]
      | some bytes =>
        rw [if_neg (by simp),shelf.clean blk considered bytes found]

/-- Step: one chunk. -/
theorem Shelf.stock (shelf : Shelf P K s3 w) (apart : P.Distinguishes K) (considered : K blk) :
    Shelf P K s3 (w.stock P blk) := by
  obtain ⟨root,block,cdc,tier⟩ := take_parameters (P := P) w.mem.store blk
  refine ⟨shelve_wf shelf.wf blk,root.trans shelf.root,block.trans shelf.block,cdc.trans shelf.cdc,tier.trans shelf.tier,?_,?_,?_⟩
  · intro blk' considered' bytes found
    rw [show (w.stock P blk).fs = w.shelve P blk from rfl,shelve_content shelf.wf] at found
    split at found
    · rename_i new
      rw [apart blk' blk considered' considered (by simpa using new.2.2.1)]
      exact (Option.some.inj found).symm
    · exact shelf.clean blk' considered' bytes found
  · intro h comp waits
    rcases take_pending (P := P) w.mem.store blk with same | ⟨_,_,more⟩
    · exact shelf.queued h comp (same ▸ waits)
    · have one : (h,comp) ∈ w.mem.store.pending ++ [(P.blake2b blk,P.compress blk)] := more ▸ waits
      rcases List.mem_append.mp one with before | last
      · exact shelf.queued h comp before
      · cases List.mem_singleton.mp last
        exact ⟨blk,considered,rfl,rfl⟩
  · intro blk' considered' knows
    have known : (w.mem.store.take P blk).knows (P.blake2b blk') = true := knows
    rw [take_knows,Bool.or_eq_true,decide_eq_true_iff] at known
    rcases known with own | before
    · rw [apart blk' blk considered' considered own.symm]
      exact shelf.placed considered
    · exact (shelf.indexed blk' considered' before).stock shelf.wf blk

/-- Run: the chunks of an image. -/
theorem Shelf.stocks (shelf : Shelf P K s3 w) (apart : P.Distinguishes K) {blks : List Bytes} (considered : ∀ blk ∈ blks, K blk) :
    Shelf P K s3 (blks.foldl (World.stock P) w) ∧ (∀ blk ∈ blks, Placed P s3 (blks.foldl (World.stock P) w) blk) ∧
      ∀ blk, Placed P s3 w blk → Placed P s3 (blks.foldl (World.stock P) w) blk := by
  induction blks generalizing w with
  | nil => exact ⟨shelf,by simp,fun _ placed => placed⟩
  | cons blk rest ih =>
    have own := considered blk (List.mem_cons_self ..)
    obtain ⟨kept,all,stay⟩ := ih (shelf.stock apart own) fun blk' member => considered blk' (List.mem_cons_of_mem _ member)
    refine ⟨kept,?_,fun blk' placed => stay blk' (placed.stock shelf.wf blk)⟩
    intro blk' member
    rcases List.mem_cons.mp member with rfl | later
    · exact stay _ (shelf.placed own)
    · exact all blk' later

/-- After an upload in which every PUT succeeds, what was placed is where it stays. -/
theorem Shelf.uploaded (shelf : Shelf P K true w) (apart : P.Distinguishes K) {outcomes : List PutOutcome}
    (length : outcomes.length = w.mem.store.pending.length) (stored : outcomes.all (·.stored) = true) :
    Shelf P K true (w.uploaded outcomes) ∧ ∀ blk, K blk → Placed P true w blk → Persists P true (w.uploaded outcomes) blk := by
  have persists : ∀ blk, K blk → Placed P true w blk → Persists P true (w.uploaded outcomes) blk := by
    intro blk considered placed
    have whole : ∀ comp, (P.blake2b blk,comp) ∈ w.mem.store.pending → comp = P.compress blk := by
      intro comp waits
      obtain ⟨blk',considered',same,rfl⟩ := shelf.queued _ _ waits
      rw [apart blk blk' considered considered' same]
    show w.bucket.putAll w.mem.store.pending outcomes (P.blake2b blk) = some (P.compress blk)
    rcases placed with there | ⟨_,waits⟩
    · rcases putAll_cases w.bucket w.mem.store.pending outcomes (P.blake2b blk) with same | ⟨comp,waits,found⟩
      · exact same.trans there
      · rw [found,whole comp waits]
    · obtain ⟨comp,waits',found⟩ := putAll_all length stored w.bucket waits
      rw [found,whole comp waits']
  refine ⟨⟨shelf.wf,shelf.root,shelf.block,shelf.cdc,shelf.tier,shelf.clean,?_,?_⟩,persists⟩
  · intro h comp waits
    cases waits
  · exact fun blk considered knows => .inl (persists blk considered (shelf.indexed blk considered knows))

/-! ## What work on the store leaves -/

/-- Work on the store keeps the shelf, the chunks where they are, and all files but chunks and those of `mine`. -/
structure Worked (P : Platform) (K : Bytes → Prop) (s3 : Bool) (mine : Path → Prop) (w v : World) : Prop where
  shelf : Shelf P K s3 v
  persists : ∀ blk, K blk → Persists P s3 w blk → Persists P s3 v blk
  files : ∀ p, ¬ mine p → (∀ h, p ≠ .chunk h) → v.fs.content p = w.fs.content p

variable {mine : Path → Prop}

theorem Worked.refl (shelf : Shelf P K s3 w) : Worked P K s3 mine w w := ⟨shelf,fun _ _ => id,fun _ _ _ => rfl⟩

theorem Worked.trans (first : Worked P K s3 mine w u) (second : Worked P K s3 mine u v) : Worked P K s3 mine w v where
  shelf := second.shelf
  persists blk considered persists := second.persists blk considered (first.persists blk considered persists)
  files p other chunk := (second.files p other chunk).trans (first.files p other chunk)

theorem Shelf.alters (shelf : Shelf P K s3 w) {p : Path} (own : mine p) (chunk : ∀ h, p ≠ .chunk h)
    (altered : Cold.Alters p w v) : Worked P K s3 mine w v := by
  have others := altered.others shelf.wf
  have file : ∀ h, v.fs.content (.chunk h) = w.fs.content (.chunk h) := fun h => others _ (chunk h).symm
  refine ⟨shelf.of_same (altered.wf shelf.wf) (by rw [altered.mem]) altered.bucket file,?_,?_⟩
  · exact fun blk _ persists => persists.of_same altered.bucket file
  · exact fun q other _ => others q fun same => other (same ▸ own)

theorem Shelf.lock (shelf : Shelf P K s3 w) {o : MemOp} (lock : o = .acquire ∨ o = .release) {outcome : Except Exn o.Res}
    (stepped : acts P (.mem o) w outcome v) : Worked P K s3 mine w v := by
  obtain ⟨fs,bucket,store⟩ := Cold.lock_keeps lock stepped
  have file : ∀ h, v.fs.content (.chunk h) = w.fs.content (.chunk h) := fun h => by rw [fs]
  exact ⟨shelf.of_same (fs ▸ shelf.wf) store bucket file,fun _ _ persists => persists.of_same bucket file,fun _ _ _ => by rw [fs]⟩

theorem sound_of_sure {α : Type} {program : KProg α} {result : Except Exn α} (ran : Does (sure P) program w result v) :
    Does (sound P) program w result v := by
  refine ran.mono fun op _ _ _ stepped => ⟨stepped.1,fun writes => stepped.2 ?_⟩
  cases op with
  | fs o => cases o <;> trivial
  | db | s3 | mem | vm | sys => exact writes.elim

theorem acts_of_sure {α : Type} {program : KProg α} {result : Except Exn α} (ran : Does (sure P) program w result v) :
    Does (acts P) program w result v := ran.mono fun _ _ _ _ stepped => stepped.1

/-- What holds of a program when calls fail, holds when some do not. -/
theorem finishes_sure {α : Type} {program : KProg α} {Q : Except Exn α → World → Prop}
    (finishes : Finishes (acts P) program w Q) : Finishes (sure P) program w Q :=
  fun result v ran => finishes result v (acts_of_sure ran)

theorem sound_put_bytes {data : Bytes} {outcome : Except Exn (List Digest)} (ran : Does (sound P) (put_bytes P data) w outcome v) :
    outcome = .ok ((blocks P w.mem.store data).map P.blake2b) ∧ v = (blocks P w.mem.store data).foldl (World.stock P) w :=
  sound_blocks (ran.after _ fun _ _ first => acts_store.mp (Does.perform.mp first).1)

theorem sound_buffers {buffers : List Bytes} {outcome : Except Exn (List (List Digest))}
    (ran : Does (sound P) (Prog.each buffers (put_bytes P)) w outcome v) :
    outcome = .ok (buffers.map fun buffer => (blocks P w.mem.store buffer).map P.blake2b) ∧
      v = (buffers.flatMap (blocks P w.mem.store)).foldl (World.stock P) w := by
  induction buffers generalizing w v outcome with
  | nil => exact Does.each_nil.mp ran
  | cons buffer rest ih =>
    have passes := (blocks_run (P := P) (w := w) (blocks P w.mem.store buffer)).mono fun _ _ _ _ stepped => stepped.1
    have first := ran.after _ fun _ _ first => sound_put_bytes first
    have more := first.after _ fun _ _ second => ih second
    obtain ⟨same,rfl⟩ := Does.ret.mp more
    rw [same_blocks passes] at same ⊢
    exact ⟨same,by rw [List.flatMap_cons,List.foldl_append]⟩

/-- Putting an image fails only where it cannot be read. -/
theorem sound_put_file {p : Path} {image : Bytes} (given : w.fs.content p = some image) {outcome : Except Exn (List Digest)}
    (ran : Does (sound P) (put_file P p) w outcome v) : ((∃ error, outcome = .error error) ∧ v = w) ∨
      (outcome = .ok (((Put.file p).chunks P w.mem.store image).map P.blake2b) ∧
        v = ((Put.file p).chunks P w.mem.store image).foldl (World.stock P) w) := by
  rcases Does.bind.mp ran with ⟨data,u,first,later⟩ | ⟨error,same,first⟩
  · obtain ⟨rfl,found⟩ := acts_readFile (Does.perform.mp first).1
    cases given.symm.trans (found data rfl)
    have last := later.after _ fun _ _ loop => sound_buffers loop
    obtain ⟨same,rfl⟩ := Does.ret.mp last
    refine .inr ⟨same.trans ?_,rfl⟩
    rw [Put.chunks,List.map_flatMap,List.flatMap_def]
  · exact .inl ⟨⟨error,same⟩,(acts_readFile (Does.perform.mp first).1).1⟩

/-- An upload in which no PUT fails. -/
theorem sure_flush_s3 {result : Except Exn Nat} (ran : Does (sure P) flush_s3 w result v) : (∃ n, result = .ok n) ∧
    (w.mem.store.s3 = false → v = w) ∧ (w.mem.store.s3 = true → ∃ outcomes, v = w.uploaded outcomes ∧
      outcomes.length = w.mem.store.pending.length ∧ outcomes.all (·.stored) = true) := by
  have looked := ran.after _ fun _ _ first => acts_store.mp (Does.perform.mp first).1
  have returned : ∃ n, result = .ok n := by
    split at looked
    · exact ⟨0,(Does.ret.mp looked).1⟩
    · have taken := looked.after _ fun _ _ first => acts_update.mp (Does.perform.mp first).1
      rcases Does.bind.mp taken with ⟨_,x,_,last⟩ | ⟨error,_,raised⟩
      · exact ⟨_,(Does.ret.mp last).1⟩
      · obtain ⟨value,same⟩ := (Does.perform.mp raised).2 trivial
        cases same
  refine ⟨returned,?_,?_⟩
  · intro local_
    rw [local_] at looked
    exact (Does.ret.mp looked).2
  · intro tier
    obtain ⟨n,rfl⟩ := returned
    obtain ⟨outcomes,left,whole⟩ := flush_uploads tier (acts_of_sure ran)
    exact ⟨outcomes,left,whole n rfl⟩

/-- The passes of an image. -/
theorem Shelf.passed (shelf : Shelf P K s3 w) (apart : P.Distinguishes K) {blks : List Bytes} (considered : ∀ blk ∈ blks, K blk) :
    (∀ blk, Persists P s3 w blk → Persists P s3 (blks.foldl (World.stock P) w) blk) ∧
      ∀ p, (∀ h, p ≠ .chunk h) → (blks.foldl (World.stock P) w).fs.content p = w.fs.content p := by
  induction blks generalizing w with
  | nil => exact ⟨fun _ => id,fun _ _ => rfl⟩
  | cons blk rest ih =>
    have own := considered blk (List.mem_cons_self ..)
    obtain ⟨persists,files⟩ := ih (shelf.stock apart own) fun blk' member => considered blk' (List.mem_cons_of_mem _ member)
    refine ⟨fun blk' there => persists blk' ?_,fun p chunk => (files p chunk).trans ?_⟩
    · cases s3 with
      | true => exact there
      | false => exact stock_content shelf.wf there
    · refine (shelve_content shelf.wf blk p).trans (if_neg ?_)
      exact fun new => chunk _ new.2.2.1

/-- An upload in which every PUT succeeds, as work on the store. -/
theorem Shelf.uploads (shelf : Shelf P K true w) (apart : P.Distinguishes K) {outcomes : List PutOutcome}
    (length : outcomes.length = w.mem.store.pending.length) (stored : outcomes.all (·.stored) = true) :
    Worked P K true mine w (w.uploaded outcomes) := by
  obtain ⟨uploaded,there⟩ := shelf.uploaded apart length stored
  exact ⟨uploaded,fun blk considered persists => there blk considered (.inl persists),fun _ _ _ => rfl⟩

theorem Shelf.put_file (shelf : Shelf P K s3 w) (apart : P.Distinguishes K) {p : Path} {image : Bytes}
    (given : w.fs.content p = some image) (considered : ∀ blk ∈ pages P image, K blk) :
    Finishes (sure P) (do
      let hashes ← put_file P p
      let _ ← flush_s3
      pure hashes) w fun result v => Worked P K s3 mine w v ∧
        ∀ hashes, result = .ok hashes → hashes = (pages P image).map P.blake2b ∧ ∀ blk ∈ pages P image, Persists P s3 v blk := by
  refine Finishes.bind (R := fun result u => (u = w ∧ ∀ hashes, result ≠ .ok hashes) ∨
    (result = .ok ((pages P image).map P.blake2b) ∧ u = (pages P image).foldl (World.stock P) w)) ?_ ?_ ?_
  · intro result u ran
    rcases sound_put_file given (sound_of_sure ran) with ⟨⟨error,rfl⟩,same⟩ | done
    · exact .inl ⟨same,fun _ => nofun⟩
    · rw [shelf.chunks] at done
      exact .inr done
  · rintro hashes u (⟨_,raised⟩ | ⟨same,rfl⟩)
    · exact absurd rfl (raised hashes)
    cases same
    obtain ⟨stocked,placed,_⟩ := shelf.stocks apart considered
    obtain ⟨persists,files⟩ := shelf.passed apart considered
    have passed : Worked P K s3 mine w ((pages P image).foldl (World.stock P) w) :=
      ⟨stocked,fun blk _ => persists blk,fun p _ chunk => files p chunk⟩
    intro result v ran
    rcases Does.bind.mp ran with ⟨n,x,flushed,last⟩ | ⟨error,_,raised⟩
    swap
    · obtain ⟨⟨n,same⟩,_⟩ := sure_flush_s3 raised
      cases same
    obtain ⟨rfl,rfl⟩ := Does.ret.mp last
    obtain ⟨_,kept,uploads⟩ := sure_flush_s3 flushed
    cases s3 with
    | false =>
      rw [kept stocked.tier]
      refine ⟨passed,fun hashes same => ⟨(Except.ok.inj same).symm,fun blk member => ?_⟩⟩
      exact (placed blk member).resolve_right fun waits => nomatch waits.1
    | true =>
      obtain ⟨outcomes,rfl,length,stored⟩ := uploads stocked.tier
      refine ⟨passed.trans (stocked.uploads apart length stored),fun hashes same => ⟨(Except.ok.inj same).symm,?_⟩⟩
      exact fun blk member => (stocked.uploaded apart length stored).2 blk (considered blk member) (placed blk member)
  · rintro error v (⟨rfl,_⟩ | ⟨same,_⟩)
    · exact ⟨.refl shelf,fun _ => nofun⟩
    · cases same

/-- The files that `_chunk_mem` works on. -/
def Path.isImage (sid : Id) (p : Path) : Prop := p = .snap sid .mem ∨ p = .snap sid .manifest

/-- The bytes of the manifest of an image. -/
def manifestOf (P : Platform) (image : Bytes) : Bytes := P.dumpManifest ⟨4096,(pages P image).map P.blake2b⟩

/-- What is left of an image that went in: its manifest is in its file and its chunks are where they stay. -/
structure Chunked (P : Platform) (s3 : Bool) (sid : Id) (image : Bytes) (w : World) : Prop where
  manifest : w.fs.content (.snap sid .manifest) = some (manifestOf P image)
  there : ∀ blk ∈ pages P image, Persists P s3 w blk

/-- However `_chunk_mem` ends, nothing that was there before is lost, and when it returns the image is in. -/
theorem Shelf.chunk_mem (shelf : Shelf P K s3 w) (apart : P.Distinguishes K) {sid : Id} {image : Bytes}
    (given : w.fs.content (.snap sid .mem) = some image) (considered : ∀ blk ∈ pages P image, K blk) :
    Finishes (sure P) (chunk_mem P sid (.snap sid .mem)) w fun result v => Worked P K s3 (Path.isImage sid) w v ∧
      ∀ logical, result = .ok logical → Chunked P s3 sid image v ∧ v.fs.content (.snap sid .mem) = none := by
  have lock : ∀ {o : MemOp} {u : World}, (o = .acquire ∨ o = .release) → Shelf P K s3 u →
      Finishes (sure P) (memCall o) u fun _ v => Worked P K s3 (Path.isImage sid) u v ∧ v.fs = u.fs := fun which held =>
    Finishes.perform fun _ _ stepped => ⟨held.lock which stepped.1,(Cold.lock_keeps which stepped.1).1⟩
  refine Finishes.bind (R := fun result u => Worked P K s3 (Path.isImage sid) w u ∧ ∀ hashes, result = .ok hashes →
    hashes = (pages P image).map P.blake2b ∧ ∀ blk ∈ pages P image, Persists P s3 u blk) ?_ ?_ ?_
  · refine Finishes.bind (lock (.inl rfl) shelf) ?_ fun _ _ locked => ⟨locked.1,fun _ => nofun⟩
    rintro _ u ⟨locked,same⟩
    rw [← same] at given
    refine Finishes.bind (R := fun result v => Worked P K s3 (Path.isImage sid) w v ∧ ∀ hashes, result = .ok hashes →
      hashes = (pages P image).map P.blake2b ∧ ∀ blk ∈ pages P image, Persists P s3 v blk) ?_ ?_ fun _ _ kept => kept
    · refine Finishes.catching (R := fun _ v => Worked P K s3 (Path.isImage sid) w v) ?_ ?_
      · intro result v ran
        obtain ⟨stored,all⟩ := locked.shelf.put_file apart given considered result v ran
        cases result with
        | ok hashes => exact ⟨locked.trans stored,all⟩
        | error error => exact locked.trans stored
      · intro error v kept
        refine Finishes.bind (lock (.inr rfl) kept.shelf) ?_ fun _ _ unlocked => ⟨kept.trans unlocked.1,fun _ => nofun⟩
        exact fun _ _ unlocked => Finishes.raise ⟨kept.trans unlocked.1,fun _ => nofun⟩
    · rintro hashes v ⟨kept,all⟩
      refine Finishes.bind (lock (.inr rfl) kept.shelf) ?_ fun _ _ unlocked => ⟨kept.trans unlocked.1,fun _ => nofun⟩
      rintro _ x ⟨unlocked,_⟩
      refine Finishes.ret ⟨kept.trans unlocked,fun hashes' same => ?_⟩
      cases same
      obtain ⟨named,there⟩ := all _ rfl
      exact ⟨named,fun blk member => unlocked.persists blk (considered blk member) (there blk member)⟩
  · rintro hashes u ⟨stored,all⟩
    obtain ⟨rfl,there⟩ := all hashes rfl
    refine Finishes.bind (R := fun _ v => Worked P K s3 (Path.isImage sid) w v ∧ Chunked P s3 sid image v) ?_ ?_
      fun _ _ kept => ⟨kept.1,fun _ => nofun⟩
    · intro result v ran
      obtain ⟨_,rfl⟩ := sound_write_file (sound_of_sure ran)
      have altered := Cold.finishes_write_file _ _ (acts_of_sure ran)
      have written : Worked P K s3 (Path.isImage sid) u _ := stored.shelf.alters (.inr rfl) (by simp) altered
      refine ⟨stored.trans written,?_,fun blk member => written.persists blk (considered blk member) (there blk member)⟩
      exact (Fs.content_put stored.shelf.wf _ _ _).trans (if_pos rfl)
    rintro _ v ⟨kept,chunked⟩
    refine Finishes.bind (finishes_sure Cold.finishes_getsize) ?_ fun _ _ same => ⟨same ▸ kept,fun _ => nofun⟩
    rintro logical v rfl
    refine Finishes.bind (R := fun result x => Worked P K s3 (Path.isImage sid) w x ∧
      (result = .ok () → Chunked P s3 sid image x ∧ x.fs.content (.snap sid .mem) = none)) ?_ ?_
      fun _ _ removed => ⟨removed.1,fun _ => nofun⟩
    · intro result x ran
      have altered := Cold.finishes_remove _ _ (acts_of_sure ran)
      have removed : Worked P K s3 (Path.isImage sid) v x := kept.shelf.alters (.inl rfl) (by simp) altered
      refine ⟨kept.trans removed,?_⟩
      rintro rfl
      have gone := gives_remove () x (acts_of_sure ran)
      refine ⟨⟨?_,fun blk member => removed.persists blk (considered blk member) (chunked.there blk member)⟩,?_⟩
      · rw [altered.others kept.shelf.wf _ (by simp)]
        exact chunked.manifest
      · rw [gone,Fs.content_remove,if_pos rfl]
    · rintro _ x ⟨removed,whole⟩
      exact Finishes.ret ⟨removed,fun _ _ => whole rfl⟩
  · exact fun _ _ kept => ⟨kept.1,fun _ => nofun⟩

end
end Klados
