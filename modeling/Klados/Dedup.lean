import Klados.Restore

/-!
One store object and the `put_bytes` and `put_file` calls on it, some of which may raise. As long
as no chunk file fails to be created or written, the index, the files and the counters agree; the
first failure leaves the object with a chunk that is in its index and has been counted, but is not
on disk.
-/
namespace Klados
open Effects
open Files (Fs)
open Blocks (slices slices_flatten)

/-- What holds of the object and of the chunk files when the chunks `done` went through, as long as
    nothing failed. The chunks considered are those of `K`. -/
structure Stocked (P : Platform) (K : Bytes → Prop) (w : World) (done : List Bytes) : Prop where
  wf : w.fs.Wf
  root : w.mem.store.root = true
  cuts : w.mem.store.cdc = true ∨ 0 < w.mem.store.block
  clean : ∀ blk, K blk → ∀ bytes, w.fs.content (.chunk (P.blake2b blk)) = some bytes → bytes = P.compress blk
  there : ∀ blk ∈ done, w.fs.content (.chunk (P.blake2b blk)) = some (P.compress blk)
  tallied : Tallied P K w.mem.store done

section
variable {P : Platform} {K : Bytes → Prop} {w v : World} {done : List Bytes}

/-- Step: a pass in which nothing fails adds its chunk to those that went through. -/
theorem Stocked.stock (stocked : Stocked P K w done) (apart : P.Distinguishes K) {blk : Bytes} (considered : K blk) :
    Stocked P K (w.stock P blk) (done ++ [blk]) := by
  obtain ⟨root,block,cdc,_⟩ := take_parameters (P := P) w.mem.store blk
  have known := stocked.tallied.mem_iff apart considered
  have shelf := shelve_content (P := P) stocked.wf blk
  have kept : ∀ {h bytes}, w.fs.content (.chunk h) = some bytes → (w.shelve P blk).content (.chunk h) = some bytes := by
    intro h bytes found
    rw [shelf,if_neg,found]
    rintro ⟨_,_,_,absent⟩
    rw [found] at absent
    cases absent
  refine ⟨shelve_wf stocked.wf blk,root.trans stocked.root,?_,?_,?_,stocked.tallied.take apart considered⟩
  · show (w.mem.store.take P blk).cdc = true ∨ 0 < (w.mem.store.take P blk).block
    rw [block,cdc]
    exact stocked.cuts
  · intro blk' considered' bytes found
    rw [show (w.stock P blk).fs = w.shelve P blk from rfl,shelf] at found
    split at found
    · rename_i new
      rw [apart blk' blk considered' considered (by simpa using new.2.2.1)]
      exact (Option.some.inj found).symm
    · exact stocked.clean blk' considered' bytes found
  · intro blk' member
    rcases List.mem_append.mp member with earlier | last
    · exact kept (stocked.there blk' earlier)
    · rw [List.mem_singleton.mp last]
      by_cases again : blk ∈ done
      · exact kept (stocked.there blk again)
      · cases found : w.fs.content (.chunk (P.blake2b blk)) with
        | some bytes => exact (kept found).trans (congrArg _ (stocked.clean blk considered bytes found))
        | none =>
          rw [show (w.stock P blk).fs = w.shelve P blk from rfl,shelf,if_pos]
          refine ⟨?_,stocked.root,rfl,found⟩
          rw [← Bool.not_eq_true,known]
          exact again

/-- Run: and so do the passes of a whole loop. -/
theorem Stocked.blocks (stocked : Stocked P K w done) (apart : P.Distinguishes K) {blks : List Bytes}
    (considered : ∀ blk ∈ blks, K blk) : Stocked P K (blks.foldl (World.stock P) w) (done ++ blks) := by
  induction blks generalizing w done with
  | nil => simpa using stocked
  | cons blk rest ih =>
    have first := stocked.stock apart (considered blk (List.mem_cons_self ..))
    have more := ih first fun blk' member => considered blk' (List.mem_cons_of_mem _ member)
    simpa using more

/-- The manifest can be read back to the data: the chunks can be got, and whenever they are got they are the data. -/
def ReadsBack (P : Platform) (w : World) (manifest : List Digest) (data : Bytes) : Prop :=
  (∃ parts v, Does (acts P) (Prog.each manifest (get P)) w (.ok parts) v ∧ parts.flatten = data) ∧
    ∀ parts v, Does (acts P) (Prog.each manifest (get P)) w (.ok parts) v → parts.flatten = data

/-- Complete chunks are read back. -/
theorem get_chunks (lossless : P.Lossless) (root : w.mem.store.root = true) {blks : List Bytes}
    (there : ∀ blk ∈ blks, w.fs.content (.chunk (P.blake2b blk)) = some (P.compress blk)) {parts : List Bytes} :
    Does (acts P) (Prog.each (blks.map P.blake2b) (get P)) w (.ok parts) v ↔ parts = blks ∧ v = w := by
  induction blks generalizing parts with
  | nil =>
    rw [List.map_nil,Does.each_nil,Except.ok.injEq]
  | cons blk rest ih =>
    have later : ∀ blk ∈ rest, w.fs.content (.chunk (P.blake2b blk)) = some (P.compress blk) :=
      fun blk' member => there blk' (List.mem_cons_of_mem _ member)
    have first : ∀ u part, Does (acts P) (get P (P.blake2b blk)) w (.ok part) u ↔ part = blk ∧ u = w :=
      fun u part => get_complete lossless root (there blk (List.mem_cons_self ..))
    rw [List.map_cons,Does.each_cons]
    constructor
    · rintro ⟨part,others,u,rfl,one,more⟩
      obtain ⟨rfl,rfl⟩ := (first u part).mp one
      obtain ⟨rfl,rfl⟩ := (ih later).mp more
      exact ⟨rfl,rfl⟩
    · rintro ⟨rfl,rfl⟩
      exact ⟨blk,rest,v,rfl,(first v blk).mpr ⟨rfl,rfl⟩,(ih later).mpr ⟨rfl,rfl⟩⟩

theorem reads_back (lossless : P.Lossless) (root : w.mem.store.root = true) {blks : List Bytes}
    (there : ∀ blk ∈ blks, w.fs.content (.chunk (P.blake2b blk)) = some (P.compress blk)) :
    ReadsBack P w (blks.map P.blake2b) blks.flatten := by
  refine ⟨⟨blks,w,(get_chunks lossless root there).mpr ⟨rfl,rfl⟩,rfl⟩,?_⟩
  intro parts v ran
  rw [((get_chunks lossless root there).mp ran).1]

end

/-- What the calls so far gave: the manifests that were returned, each with the bytes that were
    put, and the chunks that were processed to the end. -/
structure History where
  returned : List (List Digest × Bytes)
  done : List Bytes

def History.start : History := ⟨[],[]⟩

/-- What may happen between two calls: anything that leaves the chunk files and the object, but for
    the chunks that wait for an upload. -/
structure Elsewhere (w v : World) : Prop where
  wf : w.fs.Wf → v.fs.Wf
  chunks : ∀ h, v.fs.content (.chunk h) = w.fs.content (.chunk h)
  store : ∃ pending, v.mem.store = { w.mem.store with pending }

/-- One call on the object, or what happens between two calls. The operations of a call are those of
    `step`, and the chunks that are put are among those considered. -/
inductive Session (P : Platform) (K : Bytes → Prop) (step : (op : Op) → World → Except Exn op.Res → World → Prop) :
    World × History → World × History → Prop
  | returns {w v : World} {history : History} {put : Put} {data : Bytes} {manifest : List Digest} :
      put.data w = some data → (∀ blk ∈ put.chunks P w.mem.store data, K blk) →
      Does (S := sig) step (put.prog P) w (.ok manifest) v →
      Session P K step (w,history)
        (v,⟨history.returned ++ [(manifest,data)],history.done ++ put.chunks P w.mem.store data⟩)
  | raises {w v : World} {history : History} {put : Put} {done : List Bytes} {error : Exn} :
      (∀ blk ∈ done, K blk) → put.Raised P w done error v → Does (S := sig) step (put.prog P) w (.error error) v →
      Session P K step (w,history) (v,{ history with done := history.done ++ done })
  | elsewhere {w v : World} {history : History} : Elsewhere w v → Session P K step (w,history) (v,history)

/-- The file of the chunk is there and complete. -/
def Complete (P : Platform) (K : Bytes → Prop) (w : World) (h : Digest) : Prop :=
  ∃ blk, K blk ∧ P.blake2b blk = h ∧ w.fs.content (.chunk h) = some (P.compress blk)

/-- What a state owes to the calls so far. -/
structure Durable (P : Platform) (K : Bytes → Prop) (s : World × History) : Prop where
  index : ∀ h, s.1.mem.store.knows h = true → Complete P K s.1 h
  manifests : ∀ entry ∈ s.2.returned, ReadsBack P s.1 entry.1 entry.2
  logical : s.1.mem.store.logical = (s.2.done.map List.length).sum
  chunks : s.1.mem.store.chunks = s.2.done.length
  stored : s.1.mem.store.stored = ∑ blk ∈ s.2.done.toFinset, (P.compress blk).length

section
variable {P : Platform} {K : Bytes → Prop} {w v : World} {s s' : World × History}

/-- What holds in a session in which nothing failed. -/
structure Unfailed (P : Platform) (K : Bytes → Prop) (s : World × History) : Prop where
  stocked : Stocked P K s.1 s.2.done
  returned : ∀ entry ∈ s.2.returned, ∃ blks : List Bytes,
    entry = (blks.map P.blake2b,blks.flatten) ∧ ∀ blk ∈ blks, blk ∈ s.2.done

theorem Unfailed.durable (held : Unfailed P K s) (lossless : P.Lossless) : Durable P K s := by
  have tallied := held.stocked.tallied
  refine ⟨?_,?_,tallied.logical,tallied.chunks,tallied.stored⟩
  · intro h knows
    obtain ⟨blk,member,rfl⟩ := (tallied.known h).mp knows
    exact ⟨blk,tallied.considered blk member,rfl,held.stocked.there blk member⟩
  · intro entry member
    obtain ⟨blks,rfl,within⟩ := held.returned entry member
    exact reads_back lossless held.stocked.root fun blk inside => held.stocked.there blk (within blk inside)

theorem Stocked.elsewhere {done : List Bytes} (stocked : Stocked P K w done) (moved : Elsewhere w v) :
    Stocked P K v done := by
  obtain ⟨pending,store⟩ := moved.store
  have tallied := stocked.tallied
  refine ⟨moved.wf stocked.wf,?_,?_,?_,?_,?_⟩
  · rw [store]
    exact stocked.root
  · rw [store]
    exact stocked.cuts
  · intro blk considered bytes found
    rw [moved.chunks] at found
    exact stocked.clean blk considered bytes found
  · intro blk member
    rw [moved.chunks]
    exact stocked.there blk member
  · rw [store]
    exact ⟨tallied.considered,tallied.known,tallied.keys,tallied.logical,tallied.chunks,tallied.stored⟩

/-- A call that returned in a session in which nothing had failed. -/
theorem Unfailed.returns {history : History} (held : Unfailed P K (w,history)) (apart : P.Distinguishes K) {put : Put}
    {data : Bytes} {manifest : List Digest} (given : put.data w = some data)
    (considered : ∀ blk ∈ put.chunks P w.mem.store data, K blk)
    (ran : Does (acts P) (put.prog P) w (.ok manifest) v) :
    Unfailed P K (v,⟨history.returned ++ [(manifest,data)],history.done ++ put.chunks P w.mem.store data⟩) := by
  obtain ⟨data',given',passes⟩ := passes_of_returned ran
  cases given.symm.trans given'
  have nothing := sound_of_returned (.each straight_put_block _) passes
  obtain ⟨same,rfl⟩ := sound_blocks nothing
  cases same
  refine ⟨held.stocked.blocks apart considered,?_⟩
  intro entry member
  rcases List.mem_append.mp member with earlier | last
  · obtain ⟨blks,same,within⟩ := held.returned entry earlier
    exact ⟨blks,same,fun blk inside => List.mem_append_left _ (within blk inside)⟩
  · refine ⟨put.chunks P w.mem.store data,?_,fun blk inside => List.mem_append_right _ inside⟩
    rw [List.mem_singleton.mp last,chunks_flatten held.stocked.cuts put data]

/-- A pass that raises leaves a chunk that is counted and did not go through. -/
theorem Stocked.raised {before done : List Bytes} (stocked : Stocked P K w before) (apart : P.Distinguishes K)
    (considered : ∀ blk ∈ done, K blk) {hashes : List Digest} {u : World} {blk : Bytes} {error : Exn}
    (passes : Does (acts P) (Prog.each done (put_block P)) w (.ok hashes) u)
    (failed : Does (acts P) (put_block P blk) u (.error error) v) :
    v.mem.store.chunks = (before ++ done).length + 1 := by
  have nothing := sound_of_returned (.each straight_put_block _) passes
  obtain ⟨_,rfl⟩ := sound_blocks nothing
  rw [chunks_of_raised failed,(stocked.blocks apart considered).tallied.chunks]

/-- When no chunk file fails, only the file to be put can have failed to be read. -/
theorem unread_of_sound {put : Put} {error : Exn} (ran : Does (sound P) (put.prog P) w (.error error) v) : v = w := by
  have buffer : ∀ {x y : World} {data : Bytes}, ¬ Does (sound P) (put_bytes P data) x (.error error) y := by
    intro x y data raised
    have passes := raised.after _ fun _ _ first => acts_store.mp (Does.perform.mp first).1
    cases (sound_blocks passes).1
  cases put with
  | bytes data => exact absurd ran buffer
  | file path =>
    rcases Does.bind.mp ran with ⟨data,u,first,later⟩ | ⟨_,same,first⟩
    · rcases Does.bind.mp later with ⟨manifests,x,_,last⟩ | ⟨_,same,loop⟩
      · cases (Does.ret.mp last).1
      · cases same
        obtain ⟨_,_,_,_,_,_,_,raised⟩ := Does.each_error loop
        exact absurd raised buffer
    · cases same
      exact (acts_readFile (Does.perform.mp first).1).1

/-- Step: what holds in a session in which nothing failed holds after the next step of it. -/
theorem Unfailed.step (held : Unfailed P K s) (apart : P.Distinguishes K) (next : Session P K (sound P) s s') :
    Unfailed P K s' := by
  cases next with
  | returns given considered ran =>
    exact held.returns apart given considered (ran.mono fun _ _ _ _ stepped => stepped.1)
  | @raises w v history put done error considered raised ran =>
    have same := unread_of_sound ran
    subst same
    rcases raised with ⟨data,blk,rest,hashes,u,_,_,passes,failed⟩ | ⟨rfl,_⟩
    · have counted : v.mem.store.chunks = (history.done ++ done).length + 1 :=
        held.stocked.raised apart considered passes failed
      have before : v.mem.store.chunks = history.done.length := held.stocked.tallied.chunks
      rw [List.length_append] at counted
      omega
    · simpa using held
  | elsewhere moved => exact ⟨held.stocked.elsewhere moved,held.returned⟩

/-- Run: from a new object on. -/
theorem Unfailed.steps (held : Unfailed P K s) (apart : P.Distinguishes K)
    (session : Relation.ReflTransGen (Session P K (sound P)) s s') : Unfailed P K s' := by
  induction session with
  | refl => exact held
  | tail _ next ih => exact ih.step apart next

/-- The next call is as it should be, or a chunk file failed in it and what it owes is not kept. -/
theorem Unfailed.next (held : Unfailed P K s) (lossless : P.Lossless) (apart : P.Distinguishes K)
    (next : Session P K (acts P) s s') : Durable P K s' ↔ Session P K (sound P) s s' := by
  constructor
  · intro durable
    cases next with
    | returns given considered ran => exact .returns given considered (sound_of_returned (straight_put _) ran)
    | @raises w v history put done error considered raised ran =>
      rcases raised with ⟨data,blk,rest,hashes,u,_,_,passes,failed⟩ | ⟨rfl,path,rfl,unread⟩
      · have counted : v.mem.store.chunks = (history.done ++ done).length + 1 :=
          held.stocked.raised apart considered passes failed
        have processed : v.mem.store.chunks = (history.done ++ done).length := durable.chunks
        omega
      · refine .raises considered (.inr ⟨rfl,path,rfl,unread⟩) ?_
        exact Does.bind.mpr (.inr ⟨error,rfl,Does.perform.mpr ⟨unread,fun writes => writes.elim⟩⟩)
    | elsewhere moved => exact .elsewhere moved
  · intro next
    exact (held.step apart next).durable lossless

end

/-! ## The result -/

/-- A new object, in a directory that holds no incomplete file of a chunk considered. -/
theorem Unfailed.start {P : Platform} {K : Bytes → Prop} {w : World} (wf : w.fs.Wf) {block : Nat} {cdc s3 : Bool}
    (opened : w.mem.store = Cas.opened block cdc s3) (cuts : cdc = true ∨ 0 < block)
    (clean : ∀ blk, K blk → ∀ bytes, w.fs.content (.chunk (P.blake2b blk)) = some bytes → bytes = P.compress blk) :
    Unfailed P K (w,History.start) := by
  refine ⟨⟨wf,?_,?_,clean,by simp [History.start],?_⟩,by simp [History.start]⟩
  · rw [opened]
    rfl
  · rw [opened]
    exact cuts
  · rw [opened]
    exact Tallied.start

/-- In every session with a new object in which no chunk file fails to be created or written, every
    state keeps what it owes: each hash in the index has its file, each manifest can be read back, and
    the counters count what went through. The first call in which a chunk file fails ends this. -/
theorem dedup_durable {P : Platform} (lossless : P.Lossless) {K : Bytes → Prop} (apart : P.Distinguishes K) {w : World}
    (wf : w.fs.Wf) {block : Nat} {cdc s3 : Bool} (opened : w.mem.store = Cas.opened block cdc s3)
    (cuts : cdc = true ∨ 0 < block)
    (clean : ∀ blk, K blk → ∀ bytes, w.fs.content (.chunk (P.blake2b blk)) = some bytes → bytes = P.compress blk)
    {s : World × History} (session : Relation.ReflTransGen (Session P K (sound P)) (w,History.start) s) :
    Durable P K s ∧ ∀ s', Session P K (acts P) s s' → (Durable P K s' ↔ Session P K (sound P) s s') := by
  have held := (Unfailed.start wf opened cuts clean).steps apart session
  exact ⟨held.durable lossless,fun s' next => held.next lossless apart next⟩

/-- A new object whose directory is empty. -/
def newStore : World := World.initial ⟨"p",none,"key",0⟩ false

/-- Run a call along a script. -/
def putAlong (script : List Choice) (put : Put) (w : World) : Option (Except Exn (List Digest) × World) :=
  replay (exec .plain 0) (fun (_ : Empty) _ => none) (script.map .inr) (put.prog .plain) w

theorem does_of_putAlong {script : List Choice} {put : Put} {w v : World} {result : Except Exn (List Digest)}
    (ran : putAlong script put w = some (result,v)) : Does (acts .plain) (put.prog .plain) w result v :=
  Runs.of_replay (fun _ => rfl) (fun first second => first.trans second) (fun move => nomatch move)
    (fun _ choice _ _ _ executed => ⟨choice,executed⟩) ran

/-- A put of one new chunk, up to the write of its file. -/
def openChunk : List Choice := [.ok,.ok,.ok,.ok,.ok,.ok,.ok]

theorem plain_distinguishes (K : Bytes → Prop) : Platform.plain.Distinguishes K := fun _ _ _ _ same => same

/-- A new object with blocks of two bytes. -/
def smallBlocks : World := { newStore with mem := ⟨[],Cas.opened 2 false false,none⟩ }

/-- A file that is not there cannot be put. -/
theorem unread_raises (w : World) {path : Path} (absent : w.fs.content path = none) :
    Put.Raised .plain (.file path) w [] notFound w ∧
      Does (sound .plain) (put_file .plain path) w (.error notFound) w := by
  have unread : acts .plain (.fs (.readFile path)) w (.error notFound) w :=
    ⟨.ok,by simp [exec,fsExec,absent]⟩
  exact ⟨.inr ⟨rfl,path,rfl,unread⟩,
    Does.bind.mpr (.inr ⟨_,rfl,Does.perform.mpr ⟨unread,fun writes => writes.elim⟩⟩)⟩

/-- Two puts that have a block in common, and between them one of a file that is not there. -/
theorem dedup_durable_shared : ∃ s,
    Relation.ReflTransGen (Session .plain (fun _ => True) (sound .plain)) (smallBlocks,History.start) s ∧
    s.2 = ⟨[([[7,8],[9]],[7,8,9]),([[7,8],[5]],[7,8,5])],[[7,8],[9],[7,8],[5]]⟩ ∧ s.1.mem.store.stored = 7 ∧
    Durable .plain (fun _ => True) s := by
  have first := put_runs (P := .plain) (w := smallBlocks) (.bytes [7,8,9]) rfl
  let u := ((Put.bytes [7,8,9]).chunks .plain smallBlocks.mem.store [7,8,9]).foldl (World.stock .plain) smallBlocks
  have absent : u.fs.content (.scratch "i") = none := by decide +kernel
  obtain ⟨raised,ran⟩ := unread_raises u absent
  have second := put_runs (P := .plain) (w := u) (.bytes [7,8,5]) rfl
  have session := ((Relation.ReflTransGen.refl (r := Session .plain (fun _ => True) (sound .plain))
    (a := (smallBlocks,History.start))).tail (.returns rfl (fun _ _ => trivial) first)).tail
      (.raises (fun _ _ => trivial) raised ran) |>.tail (.returns rfl (fun _ _ => trivial) second)
  have durable := (dedup_durable Platform.plain_lossless (plain_distinguishes _) Fs.empty_wf rfl (.inr (by decide))
    (by simp [smallBlocks,newStore,World.initial]) session).1
  have blocks : (Put.bytes [7,8,9]).chunks .plain smallBlocks.mem.store [7,8,9] = [[7,8],[9]] ∧
      (Put.bytes [7,8,5]).chunks .plain u.mem.store [7,8,5] = [[7,8],[5]] := by decide +kernel
  refine ⟨_,session,?_,?_,durable⟩
  · rw [blocks.1,blocks.2]
    rfl
  · rw [durable.stored,blocks.1,blocks.2]
    rfl

/-- A chunk whose file is not what was compressed cannot be got from the cache. -/
theorem not_get {P : Platform} {w v : World} {h : Digest} {bytes part : Bytes} (root : w.mem.store.root = true)
    (there : w.fs.content (.chunk h) = some bytes) (broken : P.decompress bytes = none) :
    ¬ Does (acts P) (get P h) w (.ok part) v := by
  intro ran
  have named : (w.fs.names (.chunk h)).isSome = true := by
    rw [← Fs.content_isSome,there]
    rfl
  have asked := ran.after _ fun _ _ first => acts_store.mp (Does.perform.mp first)
  have hit := asked.after true fun _ _ first => by
    rw [show isCached w.mem.store h = fsCall (.exists (.chunk h)) from if_pos root] at first
    rw [← named]
    exact acts_exists.mp (Does.perform.mp first)
  rcases Does.bind.mp hit with ⟨found,u,first,later⟩ | ⟨_,same,_⟩
  · obtain ⟨rfl,own⟩ := acts_readFile (Does.perform.mp first)
    cases there.symm.trans (own found rfl)
    rw [decompress,broken] at later
    cases (Does.raise.mp later).1
  · cases same

/-- The write of a chunk file fails before its first byte, and the same chunk is put again: the put
    succeeds, the hash is in the index, and the chunk is lost. -/
theorem failed_write_poisons : ∃ s,
    Relation.ReflTransGen (Session .plain (· = [7]) (acts .plain)) (newStore,History.start) s ∧
    s.2.returned = [([[7]],[7])] ∧ s.1.mem.store.knows [7] = true ∧ ¬ Complete .plain (· = [7]) s.1 [7] ∧
    ¬ ReadsBack .plain s.1 [[7]] [7] ∧ ¬ Durable .plain (· = [7]) s := by
  have found : ((putAlong (openChunk ++ [.torn 0 (.OSError "No space left on device")]) (.bytes [7]) newStore).bind
      fun (raised,u) => (putAlong [.ok,.ok,.ok] (.bytes [7]) u).map fun (returned,v) =>
        decide (Put.chunks .plain u.mem.store [7] (.bytes [7]) = [[7]] ∧ raised.toOption = none ∧
          returned.toOption = some [[7]] ∧ v.mem.store.knows [7] = true ∧ v.mem.store.root = true ∧
            v.fs.content (.chunk [7]) = some [])) = some true := by decide +kernel
  obtain ⟨⟨raised,u⟩,first,rest⟩ := Option.bind_eq_some_iff.mp found
  obtain ⟨⟨returned,v⟩,second,good⟩ := Option.map_eq_some_iff.mp rest
  obtain ⟨cut,failed,succeeded,knows,root,content⟩ := of_decide_eq_true good
  cases raised with
  | ok manifest => cases failed
  | error error =>
    cases returned with
    | error error' => cases succeeded
    | ok manifest =>
      cases succeeded
      have lost : ¬ Complete .plain (· = [7]) v [7] := by
        rintro ⟨blk,_,_,there⟩
        cases content.symm.trans there
      have broken : ¬ ReadsBack .plain v [[7]] [7] := by
        rintro ⟨⟨parts,x,ran,_⟩,_⟩
        obtain ⟨_,_,_,_,got,_⟩ := Does.each_cons.mp ran
        exact not_get root content rfl got
      obtain ⟨done,raised⟩ := Put.raised (does_of_putAlong first)
      have within : ∀ blk ∈ done, blk = [7] := by
        intro blk member
        rcases raised with ⟨data,next,later,_,_,given,cut,_,_⟩ | ⟨rfl,_⟩
        · cases given
          have inside : blk ∈ done ++ next :: later := List.mem_append_left _ member
          rw [← cut] at inside
          exact (by decide : ∀ blk ∈ Put.chunks .plain newStore.mem.store [7] (.bytes [7]), blk = [7]) blk inside
        · cases member
      refine ⟨(v,_),.tail (.single (.raises within raised (does_of_putAlong first)))
        (.returns rfl ?_ (does_of_putAlong second)),rfl,knows,lost,broken,fun durable => lost (durable.index _ knows)⟩
      rw [cut]
      decide

end Klados
