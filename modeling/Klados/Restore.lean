import Klados.Counters

/-!
Reading chunks back. A chunk is got from its file, or from the bucket and then put into the directory
again; `_reconstruct_mem` writes the chunks of a manifest one after the other. When every chunk has a
complete file or an object in the bucket, what is materialised is the image that was cut.
-/
namespace Klados
open Effects
open Files (Fs)

/-- The chunks can be got: their files are complete where they are there, and the others are in the bucket. -/
structure Available (P : Platform) (blks : List Bytes) (w : World) : Prop where
  wf : w.fs.Wf
  root : w.mem.store.root = true
  s3 : w.mem.store.s3 = true
  clean : ∀ blk ∈ blks, ∀ bytes, w.fs.content (.chunk (P.blake2b blk)) = some bytes → bytes = P.compress blk
  there : ∀ blk ∈ blks, w.bucket (P.blake2b blk) = some (P.compress blk)

/-- What is left when a chunk was got: its file is there. -/
def World.warmed (P : Platform) (w : World) (blk : Bytes) : World :=
  if (w.fs.names (.chunk (P.blake2b blk))).isSome then w
  else { w with fs := w.fs.put (.chunk (P.blake2b blk)) (P.compress blk) }

section
variable {P : Platform} {w v : World} {blks : List Bytes}

/-- A chunk with a complete file is read from there. -/
theorem get_complete (lossless : P.Lossless) (root : w.mem.store.root = true) {blk part : Bytes}
    (there : w.fs.content (.chunk (P.blake2b blk)) = some (P.compress blk)) :
    Does (acts P) (get P (P.blake2b blk)) w (.ok part) v ↔ part = blk ∧ v = w := by
  have named : (w.fs.names (.chunk (P.blake2b blk))).isSome = true := by
    rw [← Fs.content_isSome,there]
    rfl
  have unpacked : decompress P (P.compress blk) = pure blk := by
    unfold decompress
    rw [lossless.decompress_compress]
  have cached : isCached w.mem.store (P.blake2b blk) = fsCall (.exists (.chunk (P.blake2b blk))) := if_pos root
  constructor
  · intro ran
    have asked := ran.after _ fun _ _ first => acts_store.mp (Does.perform.mp first)
    have hit := asked.after true fun _ _ first => by
      rw [cached] at first
      rw [← named]
      exact acts_exists.mp (Does.perform.mp first)
    rcases Does.bind.mp hit with ⟨bytes,u,first,later⟩ | ⟨_,same,_⟩
    · obtain ⟨rfl,found⟩ := acts_readFile (Does.perform.mp first)
      cases there.symm.trans (found bytes rfl)
      rw [unpacked] at later
      obtain ⟨same,rfl⟩ := Does.ret.mp later
      cases same
      exact ⟨rfl,rfl⟩
    · cases same
  · rintro ⟨rfl,rfl⟩
    refine Does.perform_bind _ _ (acts_store.mpr ⟨rfl,rfl⟩) ?_
    refine Does.bind.mpr (.inl ⟨true,v,?_,?_⟩)
    · rw [cached,← named]
      exact Does.perform.mpr (acts_exists.mpr ⟨rfl,rfl⟩)
    · refine Does.perform_bind (P.compress part) v ⟨.ok,by simp [exec,fsExec,there]⟩ ?_
      rw [unpacked]
      exact Does.ret.mpr ⟨rfl,rfl⟩

theorem gives_warm {h : Digest} {comp : Bytes} :
    Gives (acts P) (warm h comp) w fun _ v => v = { w with fs := w.fs.put (.chunk h) comp } := by
  refine Gives.bind (R := fun _ v => v = w) ?_ ?_
  · intro value v ran
    exact (sound_makedirs (Does.perform.mp (sound_of_returned (.perform _) ran))).2
  · rintro _ _ rfl
    exact gives_write_file

theorem warm_runs (h : Digest) (comp : Bytes) :
    Does (acts P) (warm h comp) w (.ok ()) { w with fs := w.fs.put (.chunk h) comp } := by
  refine Does.perform_bind () w ⟨.ok,rfl⟩ ?_
  exact (write_file_runs _ _).mono fun _ _ _ _ stepped => stepped.1

/-- A chunk that is in the bucket and not in the directory is got from the bucket. -/
theorem get_bucket (lossless : P.Lossless) (root : w.mem.store.root = true) (s3 : w.mem.store.s3 = true) {blk part : Bytes}
    (missing : w.fs.content (.chunk (P.blake2b blk)) = none) (there : w.bucket (P.blake2b blk) = some (P.compress blk)) :
    Does (acts P) (get P (P.blake2b blk)) w (.ok part) v ↔
      part = blk ∧ v = { w with fs := w.fs.put (.chunk (P.blake2b blk)) (P.compress blk) } := by
  have unnamed : (w.fs.names (.chunk (P.blake2b blk))).isSome = false := by
    rw [← Fs.content_isSome,missing]
    rfl
  have unpacked : decompress P (P.compress blk) = pure blk := by
    unfold decompress
    rw [lossless.decompress_compress]
  have cached : isCached w.mem.store (P.blake2b blk) = fsCall (.exists (.chunk (P.blake2b blk))) := if_pos root
  have object : ∀ {comp u}, acts P (.s3 (.get (P.blake2b blk))) w (.ok comp) u ↔ comp = P.compress blk ∧ u = w := by
    intro comp u
    constructor
    · rintro ⟨choice,ran⟩
      cases choice <;> simp [exec,s3Exec,there] at ran
      exact ⟨ran.1.symm,ran.2.symm⟩
    · rintro ⟨rfl,rfl⟩
      exact ⟨.ok,by simp [exec,s3Exec,there]⟩
  have cold : get_cold P w.mem.store (P.blake2b blk) = (do
      let comp ← s3Call (.get (P.blake2b blk))
      warm (P.blake2b blk) comp
      decompress P comp) := by
    simp [get_cold,s3,root,Prog.when]
  constructor
  · intro ran
    have asked := ran.after _ fun _ _ first => acts_store.mp (Does.perform.mp first)
    have miss := asked.after false fun _ _ first => by
      rw [cached] at first
      rw [← unnamed]
      exact acts_exists.mp (Does.perform.mp first)
    rw [if_neg (by simp),cold] at miss
    rcases Does.bind.mp miss with ⟨comp,u,first,later⟩ | ⟨_,same,_⟩
    · obtain ⟨rfl,rfl⟩ := object.mp (Does.perform.mp first)
      rcases Does.bind.mp later with ⟨_,x,second,last⟩ | ⟨_,same,_⟩
      · cases gives_warm _ x second
        rw [unpacked] at last
        obtain ⟨same,rfl⟩ := Does.ret.mp last
        cases same
        exact ⟨rfl,rfl⟩
      · cases same
    · cases same
  · rintro ⟨rfl,rfl⟩
    refine Does.perform_bind _ _ (acts_store.mpr ⟨rfl,rfl⟩) ?_
    refine Does.bind.mpr (.inl ⟨false,w,?_,?_⟩)
    · rw [cached,← unnamed]
      exact Does.perform.mpr (acts_exists.mpr ⟨rfl,rfl⟩)
    · rw [if_neg (by simp),cold]
      refine Does.perform_bind _ w (object.mpr ⟨rfl,rfl⟩) ?_
      refine Does.bind.mpr (.inl ⟨(),_,warm_runs _ _,?_⟩)
      rw [unpacked]
      exact Does.ret.mpr ⟨rfl,rfl⟩

/-- A chunk that is available is got, and its file is there afterwards. -/
theorem Available.get (available : Available P blks w) (lossless : P.Lossless) {blk part : Bytes} (member : blk ∈ blks) :
    Does (acts P) (get P (P.blake2b blk)) w (.ok part) v ↔ part = blk ∧ v = w.warmed P blk := by
  have named := Fs.content_isSome w.fs (.chunk (P.blake2b blk))
  unfold World.warmed
  cases found : w.fs.content (.chunk (P.blake2b blk)) with
  | some bytes =>
    cases available.clean blk member bytes found
    rw [get_complete lossless available.root found,if_pos (by rw [← named,found]; rfl)]
  | none =>
    rw [get_bucket lossless available.root available.s3 found (available.there blk member),
      if_neg (by rw [← named,found]; simp)]

/-- What is available stays available when files other than those of its chunks change. -/
theorem Available.of_fs (available : Available P blks w) {fs : Fs Path} (wf : fs.Wf)
    (same : ∀ h, fs.content (.chunk h) = w.fs.content (.chunk h)) : Available P blks { w with fs } :=
  ⟨wf,available.root,available.s3,fun blk member bytes found => available.clean blk member bytes ((same _).symm.trans found),
    available.there⟩

theorem warmed_content (wf : w.fs.Wf) (blk : Bytes) {p : Path} (other : p ≠ .chunk (P.blake2b blk)) :
    (w.warmed P blk).fs.content p = w.fs.content p ∧ (w.warmed P blk).fs.names p = w.fs.names p := by
  unfold World.warmed
  split
  · exact ⟨rfl,rfl⟩
  · refine ⟨?_,?_⟩
    · rw [Fs.content_put wf,if_neg other]
    · rw [Fs.put,Fs.write_names,Fs.openTrunc_names,Function.update_of_ne other]

/-- Getting a chunk leaves the others available, when no two of them have the same hash. -/
theorem Available.warmed {K : Bytes → Prop} (available : Available P blks w) (apart : P.Distinguishes K)
    (considered : ∀ blk ∈ blks, K blk) {blk : Bytes} (member : blk ∈ blks) : Available P blks (w.warmed P blk) := by
  unfold World.warmed
  split
  · exact available
  · refine ⟨Fs.put_wf available.wf _ _,available.root,available.s3,?_,available.there⟩
    intro blk' member' bytes found
    rw [Fs.content_put available.wf] at found
    split at found
    · rename_i same
      cases found
      rw [apart blk' blk (considered blk' member') (considered blk member) (Path.chunk.inj same)]
    · exact available.clean blk' member' bytes found

/-! ## The image -/

/-- The chunks are available, and the temporary file holds what was written so far. -/
structure Filling (P : Platform) (blks : List Bytes) (sid : Id) (out : Nat) (done : Bytes) (w : World) : Prop where
  available : Available P blks w
  named : w.fs.names (.snap sid .memTmp) = some out
  holds : w.fs.content (.snap sid .memTmp) = some done

/-- What is left when the next chunk is written. -/
def World.filled (P : Platform) (w : World) (out offset : Nat) (blk : Bytes) : World :=
  { w.warmed P blk with fs := (w.warmed P blk).fs.write out offset blk }

/-- Step: one more chunk. -/
theorem Filling.step {K : Bytes → Prop} {sid : Id} {out : Nat} {done : Bytes} (filling : Filling P blks sid out done w)
    (apart : P.Distinguishes K) (considered : ∀ blk ∈ blks, K blk) {blk : Bytes} (member : blk ∈ blks) :
    Filling P blks sid out (done ++ blk) (w.filled P out done.length blk) := by
  have warmed := filling.available.warmed apart considered member
  obtain ⟨content,names⟩ := warmed_content (P := P) filling.available.wf blk
    (show Path.snap sid .memTmp ≠ .chunk (P.blake2b blk) from fun same => nomatch same)
  have named : (w.warmed P blk).fs.names (.snap sid .memTmp) = some out := names.trans filling.named
  have holds : (w.warmed P blk).fs.data out = done := by
    have found := content.trans filling.holds
    rw [Fs.content,named] at found
    exact Option.some.inj found
  refine ⟨warmed.of_fs (Fs.write_wf warmed.wf _ _ _) fun h => ?_,named,?_⟩
  · rw [Fs.content_write warmed.wf named,if_neg (by simp)]
  · show ((w.warmed P blk).fs.write out done.length blk).content (.snap sid .memTmp) = _
    rw [Fs.content_write warmed.wf named,if_pos rfl,holds,Fs.overlay_end]

theorem acts_write {inode offset : Nat} {bytes : Bytes} :
    acts P (.fs (.write inode offset bytes)) w (.ok ()) v ↔ v = { w with fs := w.fs.write inode offset bytes } := by
  constructor
  · rintro ⟨choice,ran⟩
    cases choice <;> simp [exec,fsExec] at ran
    exact ran.symm
  · rintro rfl
    exact ⟨.ok,rfl⟩

/-- Run: the chunks are written one after the other, each behind those before it. -/
theorem Filling.write_chunks {K : Bytes → Prop} {sid : Id} {out : Nat} {done : Bytes}
    (filling : Filling P blks sid out done w) (lossless : P.Lossless) (apart : P.Distinguishes K)
    (considered : ∀ blk ∈ blks, K blk) {rest : List Bytes} (within : ∀ blk ∈ rest, blk ∈ blks) :
    (∃ v, Does (acts P) (write_chunks P out done.length (rest.map P.blake2b)) w (.ok ()) v) ∧
      Gives (acts P) (write_chunks P out done.length (rest.map P.blake2b)) w fun _ v =>
        Filling P blks sid out (done ++ rest.flatten) v := by
  induction rest generalizing w done with
  | nil =>
    refine ⟨⟨w,Does.ret.mpr ⟨rfl,rfl⟩⟩,Gives.ret ?_⟩
    rw [List.flatten_nil,List.append_nil]
    exact filling
  | cons blk rest ih =>
    have member := within blk (List.mem_cons_self ..)
    have got : ∀ {part u}, Does (acts P) (get P (P.blake2b blk)) w (.ok part) u ↔ part = blk ∧ u = w.warmed P blk :=
      filling.available.get lossless member
    have next := filling.step apart considered member
    obtain ⟨⟨v,ran⟩,leaves⟩ := ih next fun blk' inside => within blk' (List.mem_cons_of_mem _ inside)
    rw [List.length_append] at ran leaves
    constructor
    · refine ⟨v,Does.bind.mpr (.inl ⟨blk,_,got.mpr ⟨rfl,rfl⟩,?_⟩)⟩
      exact Does.perform_bind () _ (acts_write.mpr rfl) ran
    · refine Gives.bind (R := fun part u => part = blk ∧ u = w.warmed P blk) (fun part u first => got.mp first) ?_
      rintro _ _ ⟨rfl,rfl⟩
      refine Gives.bind (R := fun _ u => u = w.filled P out done.length _) (Gives.perform fun _ _ stepped =>
        acts_write.mp stepped) ?_
      rintro _ _ rfl
      rw [List.flatten_cons,← List.append_assoc]
      exact leaves

/-- An image that is not in its file is cold when there is a manifest. -/
theorem isCold_iff {sid : Id} (missing : w.fs.content (.snap sid .mem) = none) {bytes : Bytes}
    (there : w.fs.content (.snap sid .manifest) = some bytes) {outcome : Except Exn Bool} :
    Does (acts P) (isCold sid) w outcome v ↔ outcome = .ok true ∧ v = w := by
  have hot : (w.fs.names (.snap sid .mem)).isSome = false := by
    rw [← Fs.content_isSome,missing]
    rfl
  have kept : (w.fs.names (.snap sid .manifest)).isSome = true := by
    rw [← Fs.content_isSome,there]
    rfl
  constructor
  · intro ran
    have asked := ran.after false fun _ _ first => hot ▸ acts_exists.mp (Does.perform.mp first)
    exact kept ▸ acts_exists.mp (Does.perform.mp asked)
  · rintro ⟨rfl,rfl⟩
    refine Does.perform_bind false v (acts_exists.mpr ⟨by rw [hot],rfl⟩) ?_
    exact Does.perform.mpr (acts_exists.mpr ⟨by rw [kept],rfl⟩)

theorem acts_openTrunc {p : Path} {inode : Nat} :
    acts P (.fs (.openTrunc p)) w (.ok inode) v ↔ inode = (w.fs.openTrunc p).1 ∧ v = { w with fs := (w.fs.openTrunc p).2 } := by
  constructor
  · rintro ⟨choice,ran⟩
    cases choice <;> simp [exec,fsExec] at ran
    exact ⟨ran.1.symm,ran.2.symm⟩
  · rintro ⟨rfl,rfl⟩
    exact ⟨.ok,rfl⟩

theorem acts_replace {src dst : Path} :
    acts P (.fs (.replace src dst)) w (.ok ()) v ↔ ∃ fs, w.fs.replace src dst = some fs ∧ v = { w with fs } := by
  constructor
  · rintro ⟨choice,ran⟩
    cases found : w.fs.replace src dst with
    | none => cases choice <;> simp [exec,fsExec,found] at ran
    | some fs =>
      cases choice <;> simp [exec,fsExec,found] at ran
      exact ⟨fs,rfl,ran.symm⟩
  · rintro ⟨fs,found,rfl⟩
    exact ⟨.ok,by simp [exec,fsExec,found]⟩

theorem reads_found {p : Path} {bytes : Bytes} (there : w.fs.content p = some bytes) {data : Bytes} :
    acts P (.fs (.readFile p)) w (.ok data) v ↔ data = bytes ∧ v = w := by
  constructor
  · intro stepped
    obtain ⟨same,found⟩ := acts_readFile stepped
    cases there.symm.trans (found data rfl)
    exact ⟨rfl,same⟩
  · rintro ⟨rfl,rfl⟩
    exact ⟨.ok,by simp [exec,fsExec,there]⟩

/-- The temporary file is opened: nothing is written yet. -/
theorem Available.opened (available : Available P blks w) (sid : Id) :
    Filling P blks sid (w.fs.openTrunc (.snap sid .memTmp)).1 [] { w with fs := (w.fs.openTrunc (.snap sid .memTmp)).2 } := by
  refine ⟨available.of_fs (Fs.openTrunc_wf available.wf _) fun h => ?_,?_,?_⟩
  · rw [Fs.content_openTrunc available.wf,if_neg (by simp)]
  · simp [Fs.openTrunc_names]
  · show (w.fs.openTrunc (.snap sid .memTmp)).2.content (.snap sid .memTmp) = _
    rw [Fs.content_openTrunc available.wf,if_pos rfl]

/-- The temporary file becomes the image. -/
theorem Filling.replaced {sid : Id} {out : Nat} {done : Bytes} (filling : Filling P blks sid out done w) :
    ∃ fs, w.fs.replace (.snap sid .memTmp) (.snap sid .mem) = some fs ∧ fs.content (.snap sid .mem) = some done := by
  cases replaced : w.fs.replace (.snap sid .memTmp) (.snap sid .mem) with
  | none =>
    rw [Fs.replace,filling.named] at replaced
    cases replaced
  | some fs =>
    refine ⟨fs,rfl,?_⟩
    rw [Fs.content_replace (by simp) replaced,if_pos rfl]
    exact filling.holds

/-- The image is materialised again when its chunks are available and nothing fails, and whenever
    `_reconstruct_mem` returns, the file holds the image. -/
theorem Available.reconstructs {K : Bytes → Prop} (available : Available P blks w) (lossless : P.Lossless)
    (apart : P.Distinguishes K) (considered : ∀ blk ∈ blks, K blk) {sid : Id} {block : Nat}
    (manifest : w.fs.content (.snap sid .manifest) = some (P.dumpManifest ⟨block,blks.map P.blake2b⟩))
    (missing : w.fs.content (.snap sid .mem) = none) :
    (∃ v, Does (acts P) (reconstruct_mem P sid) w (.ok (.snap sid .mem)) v) ∧
      Gives (acts P) (reconstruct_mem P sid) w fun path v =>
        path = .snap sid .mem ∧ v.fs.content (.snap sid .mem) = some blks.flatten := by
  have opened := available.opened sid
  obtain ⟨⟨u,ran⟩,leaves⟩ := opened.write_chunks lossless apart considered fun _ member => member
  rw [List.length_nil,List.nil_append] at leaves
  have loaded : load_manifest P (P.dumpManifest ⟨block,blks.map P.blake2b⟩) = pure ⟨block,blks.map P.blake2b⟩ := by
    unfold load_manifest
    rw [lossless.load_dump]
  constructor
  · obtain ⟨fs,replaced,_⟩ := (leaves () u ran).replaced
    refine ⟨{ u with fs },Does.bind.mpr (.inl ⟨true,w,(isCold_iff missing manifest).mpr ⟨rfl,rfl⟩,?_⟩)⟩
    refine Does.bind.mpr (.inl ⟨(),_,?_,Does.ret.mpr ⟨rfl,rfl⟩⟩)
    refine Does.perform_bind _ w ((reads_found manifest).mpr ⟨rfl,rfl⟩) ?_
    rw [loaded]
    refine Does.perform_bind _ _ (acts_openTrunc.mpr ⟨rfl,rfl⟩) ?_
    refine Does.bind.mpr (.inl ⟨(),u,ran,?_⟩)
    exact Does.perform.mpr (acts_replace.mpr ⟨fs,replaced,rfl⟩)
  · refine Gives.bind (R := fun cold v => cold = true ∧ v = w) ?_ ?_
    · intro cold v first
      obtain ⟨same,left⟩ := (isCold_iff missing manifest).mp first
      cases same
      exact ⟨rfl,left⟩
    rintro _ w ⟨rfl,rfl⟩
    refine Gives.bind (R := fun _ v => v.fs.content (.snap sid .mem) = some blks.flatten) ?_ fun _ _ held =>
      Gives.ret ⟨rfl,held⟩
    refine Gives.bind (Gives.perform fun _ _ stepped => (reads_found manifest).mp stepped) ?_
    rintro _ w ⟨rfl,rfl⟩
    rw [loaded]
    refine Gives.bind (R := fun m v => m = ⟨block,blks.map P.blake2b⟩ ∧ v = w) (Gives.ret ⟨rfl,rfl⟩) ?_
    rintro _ w ⟨rfl,rfl⟩
    refine Gives.bind (Gives.perform fun _ _ stepped => acts_openTrunc.mp stepped) ?_
    rintro _ _ ⟨rfl,rfl⟩
    refine Gives.bind leaves ?_
    intro _ x filling
    obtain ⟨fs,replaced,held⟩ := filling.replaced
    refine Gives.perform ?_
    intro _ v stepped
    obtain ⟨fs',replaced',rfl⟩ := acts_replace.mp stepped
    cases replaced.symm.trans replaced'
    exact held

/-- A chunk that is neither in the directory nor in the bucket is not got. -/
theorem not_got {h : Digest} (absent : w.fs.content (.chunk h) = none) (lost : w.bucket h = none) :
    Gives (acts P) (get P h) w fun _ _ => False := by
  have unnamed : (w.fs.names (.chunk h)).isSome = false := by
    rw [← Fs.content_isSome,absent]
    rfl
  refine Gives.bind (R := fun store v => v = w) (Gives.perform fun _ _ stepped => (acts_store.mp stepped).2) ?_
  rintro store w rfl
  refine Gives.bind (R := fun hot v => hot = false ∧ v = w) ?_ ?_
  · unfold isCached
    split
    · refine Gives.perform fun hot v stepped => ?_
      obtain ⟨same,left⟩ := acts_exists.mp stepped
      rw [unnamed] at same
      cases same
      exact ⟨rfl,left⟩
    · exact Gives.ret ⟨rfl,rfl⟩
  · rintro _ w ⟨rfl,rfl⟩
    rw [if_neg (by simp)]
    unfold get_cold
    split
    · refine Gives.bind (R := fun _ _ => False) (Gives.perform ?_) fun _ _ impossible => impossible.elim
      rintro comp v ⟨choice,ran⟩
      cases choice <;> simp [exec,s3Exec,lost] at ran
    · exact Gives.raise

/-- An image whose first chunk is lost is not materialised. -/
theorem not_reconstructs (lossless : P.Lossless) (wf : w.fs.Wf) {sid : Id} {block : Nat} {h : Digest} {hashes : List Digest}
    (manifest : w.fs.content (.snap sid .manifest) = some (P.dumpManifest ⟨block,h :: hashes⟩))
    (missing : w.fs.content (.snap sid .mem) = none) (absent : w.fs.content (.chunk h) = none) (lost : w.bucket h = none) :
    Gives (acts P) (reconstruct_mem P sid) w fun _ _ => False := by
  refine Gives.bind (R := fun cold v => cold = true ∧ v = w) ?_ ?_
  · intro cold v first
    obtain ⟨same,left⟩ := (isCold_iff missing manifest).mp first
    cases same
    exact ⟨rfl,left⟩
  rintro _ w ⟨rfl,rfl⟩
  refine Gives.bind (R := fun _ _ => False) ?_ fun _ _ impossible => impossible.elim
  refine Gives.bind (Gives.perform fun _ _ stepped => (reads_found manifest).mp stepped) ?_
  rintro _ w ⟨rfl,rfl⟩
  have loaded : load_manifest P (P.dumpManifest ⟨block,h :: hashes⟩) = pure ⟨block,h :: hashes⟩ := by
    unfold load_manifest
    rw [lossless.load_dump]
  rw [loaded]
  refine Gives.bind (R := fun m v => m = ⟨block,h :: hashes⟩ ∧ v = w) (Gives.ret ⟨rfl,rfl⟩) ?_
  rintro _ w ⟨rfl,rfl⟩
  refine Gives.bind (Gives.perform fun _ _ stepped => acts_openTrunc.mp stepped) ?_
  rintro _ _ ⟨rfl,rfl⟩
  refine Gives.bind (R := fun _ _ => False) ?_ fun _ _ impossible => impossible.elim
  refine Gives.bind (not_got ?_ lost) fun _ _ impossible => impossible.elim
  show (w.fs.openTrunc (.snap sid .memTmp)).2.content (.chunk h) = none
  rw [Fs.content_openTrunc wf,if_neg (by simp),absent]

end
end Klados
