import Klados.Gear
import Klados.Engine
import Klados.Plain
import Mathlib.Data.List.Dedup
import Mathlib.Algebra.BigOperators.Group.Finset.Basic
import Mathlib.Logic.Relation

/-!
The calls `put_bytes` and `put_file`, pass by pass of the loop of `put_bytes`. A pass in which no chunk
file fails to be created or written does what `World.stock` says: `Cas.take` to the object, and to
the chunk directory at most one new file. A call that returned is the passes of its chunks, one after
the other, and one that raised went through the chunks before the one that failed.
-/
namespace Klados
open Effects
open Files (Fs)
open Blocks (slices slices_flatten)

/-- The calls on a store object that put something. -/
inductive Put
  | bytes (data : Bytes)
  | file (path : Path)

def Put.prog (P : Platform) : Put → KProg (List Digest)
  | .bytes data => put_bytes P data
  | .file path => put_file P path

/-- The bytes that are put. -/
def Put.data (w : World) : Put → Option Bytes
  | .bytes data => some data
  | .file path => w.fs.content path

/-- The chunks in the order in which they are stored: a file is read into buffers, and each buffer is cut. -/
def Put.chunks (P : Platform) (store : Cas) (data : Bytes) : Put → List Bytes
  | .bytes _ => blocks P store data
  | .file _ => (reads data).flatMap (blocks P store)

/-- An operation of the program that puts. -/
def acts (P : Platform) (op : Op) (w : World) (outcome : Except Exn op.Res) (v : World) : Prop :=
  ∃ choice, exec P 0 op choice w = some (outcome,v)

/-- The operations with which a put creates a chunk file and writes it. -/
def Op.writesChunk : Op → Prop
  | .fs .makedirs => True
  | .fs (.openTrunc _) => True
  | .fs (.write _ _ _) => True
  | _ => False

/-- An operation of the program that puts, where no chunk file fails to be created or written. -/
def sound (P : Platform) (op : Op) (w : World) (outcome : Except Exn op.Res) (v : World) : Prop :=
  acts P op w outcome v ∧ (op.writesChunk → ∃ value, outcome = .ok value)

/-- No two of the chunks considered have the same hash. -/
def Platform.Distinguishes (P : Platform) (K : Bytes → Prop) : Prop :=
  ∀ a b, K a → K b → P.blake2b a = P.blake2b b → a = b

def World.withStore (w : World) (store : Cas) : World := { w with mem := { w.mem with store } }

/-- What a pass does to the object: a chunk is counted, and a new one is recorded, and queued if there
    is a bucket. -/
def Cas.take (P : Platform) (store : Cas) (blk : Bytes) : Cas :=
  let h := P.blake2b blk
  let comp := P.compress blk
  let counted := store.count blk
  if counted.knows h then counted
  else if counted.s3 then (counted.record h comp).queue h comp
  else counted.record h comp

/-- What a pass does to the files: a new chunk is put on disk, if there is a directory and no such
    file in it. -/
def World.shelve (P : Platform) (w : World) (blk : Bytes) : Fs Path :=
  let h := P.blake2b blk
  if w.mem.store.knows h || !w.mem.store.root || (w.fs.names (.chunk h)).isSome then w.fs
  else w.fs.put (.chunk h) (P.compress blk)

/-- A pass of the loop of `put_bytes` in which nothing fails. -/
def World.stock (P : Platform) (w : World) (blk : Bytes) : World :=
  { w with fs := w.shelve P blk, mem := { w.mem with store := w.mem.store.take P blk } }

section
variable {P : Platform} {w v : World}

theorem acts_update {f : Cas → Cas} {outcome : Except Exn Unit} :
    acts P (.mem (.update f)) w outcome v ↔ outcome = .ok () ∧ v = w.withStore (f w.mem.store) := by
  constructor
  · rintro ⟨choice,ran⟩
    cases choice <;> simp [exec,memExec] at ran
    exact ⟨ran.1.symm,ran.2.symm⟩
  · rintro ⟨rfl,rfl⟩
    exact ⟨.ok,rfl⟩

theorem acts_store {outcome : Except Exn Cas} :
    acts P (.mem .store) w outcome v ↔ outcome = .ok w.mem.store ∧ v = w := by
  constructor
  · rintro ⟨choice,ran⟩
    cases choice <;> simp [exec,memExec] at ran
    exact ⟨ran.1.symm,ran.2.symm⟩
  · rintro ⟨rfl,rfl⟩
    exact ⟨.ok,rfl⟩

theorem acts_exists {p : Path} {outcome : Except Exn Bool} :
    acts P (.fs (.exists p)) w outcome v ↔ outcome = .ok (w.fs.names p).isSome ∧ v = w := by
  constructor
  · rintro ⟨choice,ran⟩
    cases choice <;> simp [exec,fsExec] at ran
    exact ⟨ran.1.symm,ran.2.symm⟩
  · rintro ⟨rfl,rfl⟩
    exact ⟨.ok,rfl⟩

theorem sound_makedirs {outcome : Except Exn Unit} (stepped : sound P (.fs .makedirs) w outcome v) :
    outcome = .ok () ∧ v = w := by
  obtain ⟨⟨choice,ran⟩,returns⟩ := stepped
  obtain ⟨value,rfl⟩ := returns trivial
  cases choice <;> simp [exec,fsExec] at ran
  exact ⟨rfl,ran.symm⟩

theorem sound_openTrunc {p : Path} {outcome : Except Exn Nat} (stepped : sound P (.fs (.openTrunc p)) w outcome v) :
    outcome = .ok (w.fs.openTrunc p).1 ∧ v = { w with fs := (w.fs.openTrunc p).2 } := by
  obtain ⟨⟨choice,ran⟩,returns⟩ := stepped
  obtain ⟨value,rfl⟩ := returns trivial
  cases choice <;> simp [exec,fsExec] at ran
  exact ⟨by rw [ran.1],ran.2.symm⟩

theorem sound_write {inode offset : Nat} {bytes : Bytes} {outcome : Except Exn Unit}
    (stepped : sound P (.fs (.write inode offset bytes)) w outcome v) :
    outcome = .ok () ∧ v = { w with fs := w.fs.write inode offset bytes } := by
  obtain ⟨⟨choice,ran⟩,returns⟩ := stepped
  obtain ⟨value,rfl⟩ := returns trivial
  cases choice <;> simp [exec,fsExec] at ran
  exact ⟨rfl,ran.symm⟩

theorem sound_write_file {p : Path} {bytes : Bytes} {outcome : Except Exn Unit}
    (ran : Does (sound P) (write_file p bytes) w outcome v) :
    outcome = .ok () ∧ v = { w with fs := w.fs.put p bytes } := by
  have opened := ran.after _ fun _ _ first => sound_openTrunc (Does.perform.mp first)
  exact sound_write (Does.perform.mp opened)

theorem sound_store_chunk {h : Digest} {comp : Bytes} {outcome : Except Exn Unit}
    (ran : Does (sound P) (store_chunk h comp) w outcome v) :
    outcome = .ok () ∧
      v = { w with fs := if (w.fs.names (.chunk h)).isSome then w.fs else w.fs.put (.chunk h) comp } := by
  have made := ran.after _ fun _ _ first => sound_makedirs (Does.perform.mp first)
  have looked := made.after _ fun _ _ first => acts_exists.mp (Does.perform.mp first).1
  cases there : (w.fs.names (.chunk h)).isSome with
  | true =>
    rw [there] at looked
    obtain ⟨same,rfl⟩ := Does.ret.mp looked
    exact ⟨same,rfl⟩
  | false =>
    rw [there] at looked
    exact sound_write_file looked

/-- What a pass does with a chunk that is not in the index. -/
theorem sound_put_new {blk : Bytes} (new : w.mem.store.knows (P.blake2b blk) = false) {outcome : Except Exn Unit}
    (ran : Does (sound P) (put_new P (w.mem.store.count blk) (P.blake2b blk) blk)
      (w.withStore (w.mem.store.count blk)) outcome v) :
    outcome = .ok () ∧ v = w.stock P blk := by
  have recorded := ran.after _ fun _ _ first => acts_update.mp (Does.perform.mp first).1
  have known : (w.mem.store.count blk).knows (P.blake2b blk) = false := new
  have stored : Does (sound P) (Prog.when w.mem.store.s3 (memCall (.update (·.queue (P.blake2b blk) (P.compress blk)))))
      ({ w with fs := w.shelve P blk,
                mem := { w.mem with store := (w.mem.store.count blk).record (P.blake2b blk) (P.compress blk) } })
      outcome v := by
    refine recorded.after () fun _ _ first => ?_
    unfold World.shelve
    cases root : w.mem.store.root with
    | false =>
      rw [show (w.mem.store.count blk).root = false from root] at first
      obtain ⟨same,rfl⟩ := Does.ret.mp first
      exact ⟨same,by simp [World.withStore,new]⟩
    | true =>
      rw [show (w.mem.store.count blk).root = true from root] at first
      obtain ⟨same,rfl⟩ := sound_store_chunk first
      refine ⟨same,?_⟩
      cases there : (w.fs.names (.chunk (P.blake2b blk))).isSome <;> simp [World.withStore,new,there]
  unfold World.stock Cas.take
  cases s3 : w.mem.store.s3 with
  | true =>
    rw [s3] at stored
    obtain ⟨same,rfl⟩ := acts_update.mp (Does.perform.mp stored).1
    exact ⟨same,by simp [World.withStore,known,show (w.mem.store.count blk).s3 = true from s3]⟩
  | false =>
    rw [s3] at stored
    obtain ⟨same,rfl⟩ := Does.ret.mp stored
    exact ⟨same,by simp [known,show (w.mem.store.count blk).s3 = false from s3]⟩

/-- A pass in which nothing fails. -/
theorem sound_put_block {blk : Bytes} {outcome : Except Exn Digest} (ran : Does (sound P) (put_block P blk) w outcome v) :
    outcome = .ok (P.blake2b blk) ∧ v = w.stock P blk := by
  have counted := ran.after _ fun _ _ first => acts_update.mp (Does.perform.mp first).1
  have looked := counted.after _ fun _ _ first => acts_store.mp (Does.perform.mp first).1
  cases known : w.mem.store.knows (P.blake2b blk) with
  | true =>
    have skipped := looked.after () fun _ _ first => by
      rw [show (w.withStore (w.mem.store.count blk)).mem.store.knows (P.blake2b blk) = true from known] at first
      exact Does.ret.mp first
    obtain ⟨same,rfl⟩ := Does.ret.mp skipped
    refine ⟨same,?_⟩
    have counts : (w.mem.store.count blk).knows (P.blake2b blk) = true := known
    simp [World.stock,World.shelve,Cas.take,World.withStore,known,counts]
  | false =>
    have stored := looked.after () fun _ _ first => by
      rw [show (w.withStore (w.mem.store.count blk)).mem.store.knows (P.blake2b blk) = false from known] at first
      exact sound_put_new known first
    exact Does.ret.mp stored

/-- The passes of a loop in which nothing fails. -/
theorem sound_blocks {blks : List Bytes} {outcome : Except Exn (List Digest)}
    (ran : Does (sound P) (Prog.each blks (put_block P)) w outcome v) :
    outcome = .ok (blks.map P.blake2b) ∧ v = blks.foldl (World.stock P) w := by
  induction blks generalizing w v outcome with
  | nil => exact Does.each_nil.mp ran
  | cons blk rest ih =>
    have first := ran.after _ fun _ _ first => sound_put_block first
    have more := first.after _ fun _ _ second => ih second
    obtain ⟨same,rfl⟩ := Does.ret.mp more
    exact ⟨same,rfl⟩

/-- The operation leaves an attribute of the object as it is. -/
def Op.Fixes {γ : Type} (g : Cas → γ) : Op → Prop
  | .mem (.update f) => ∀ store, g (f store) = g store
  | _ => True

theorem acts_fixes {γ : Type} {g : Cas → γ} {op : Op} (fixes : op.Fixes g) {outcome : Except Exn op.Res}
    (stepped : acts P op w outcome v) : g v.mem.store = g w.mem.store := by
  obtain ⟨choice,ran⟩ := stepped
  cases op with
  | mem o =>
    obtain ⟨⟨r,mem⟩,ran',same⟩ := Option.map_eq_some_iff.mp ran
    cases same
    cases o with
    | update f =>
      cases choice <;> simp [memExec] at ran'
      rw [← ran'.2]
      exact fixes w.mem.store
    | acquire =>
      cases choice <;> simp [memExec] at ran'
      rw [← ran'.2.2]
    | liveGet iid | liveSet iid | livePop iid | liveKeys | store | release =>
      cases choice <;> simp [memExec] at ran'
      rw [← ran'.2]
  | db o | fs o | s3 o | vm o | sys o =>
    obtain ⟨_,_,same⟩ := Option.map_eq_some_iff.mp ran
    cases same
    rfl

section
variable {γ : Type} {g : Cas → γ} (record : ∀ store h comp, g (store.record h comp) = g store)
  (queue : ∀ store h comp, g (store.queue h comp) = g store)
include record queue

theorem put_new_fixes (store : Cas) (h : Digest) (blk : Bytes) : (put_new P store h blk).Only (Op.Fixes g) := by
  refine Prog.Only.bind (Prog.Only.perform fun store => record store _ _) fun _ => ?_
  refine Prog.Only.bind (Prog.Only.when ?_) fun _ => Prog.Only.when (Prog.Only.perform fun store => queue store _ _)
  refine Prog.Only.bind (Prog.Only.perform trivial) fun _ => ?_
  refine Prog.Only.bind (Prog.Only.perform trivial) fun _ => Prog.Only.when ?_
  exact Prog.Only.bind (Prog.Only.perform trivial) fun _ => Prog.Only.perform trivial

theorem put_block_fixes (count : ∀ store blk, g (store.count blk) = g store) (blk : Bytes) :
    (put_block P blk).Only (Op.Fixes g) := by
  refine Prog.Only.bind (Prog.Only.perform fun store => count store _) fun _ => ?_
  refine Prog.Only.bind (Prog.Only.perform trivial) fun _ => ?_
  exact Prog.Only.bind (Prog.Only.when (put_new_fixes record queue _ _ _)) fun _ => trivial

end

/-- No pass changes how data is cut. -/
theorem same_blocks {blks : List Bytes} {outcome : Except Exn (List Digest)}
    (ran : Does (acts P) (Prog.each blks (put_block P)) w outcome v) :
    blocks P v.mem.store = blocks P w.mem.store := by
  have fixes := fun blk => put_block_fixes (P := P) (g := fun store => (store.cdc,store.block)) (fun _ _ _ => rfl)
    (fun _ _ _ => rfl) (fun _ _ => rfl) blk
  have kept := ran.keeps (I := fun x => (x.mem.store.cdc,x.mem.store.block) = (w.mem.store.cdc,w.mem.store.block))
    (fun op fixes _ _ _ stepped same => (acts_fixes fixes stepped).trans same) (Prog.Only.each fixes) rfl
  obtain ⟨cdc,block⟩ := Prod.mk.inj kept
  funext data
  unfold blocks
  rw [cdc,block]

/-- A pass that raises has counted its chunk. -/
theorem chunks_of_raised {blk : Bytes} {error : Exn} (ran : Does (acts P) (put_block P blk) w (.error error) v) :
    v.mem.store.chunks = w.mem.store.chunks + 1 := by
  have counted := ran.after _ fun _ _ first => acts_update.mp (Does.perform.mp first)
  have looked := counted.after _ fun _ _ first => acts_store.mp (Does.perform.mp first)
  have rest : ∀ known : Bool,
      (Prog.when (!known) (put_new P (w.mem.store.count blk) (P.blake2b blk) blk) >>= fun _ =>
        (pure (P.blake2b blk) : KProg Digest)).Only (Op.Fixes Cas.chunks) := fun known =>
    Prog.Only.bind (Prog.Only.when (put_new_fixes (fun _ _ _ => rfl) (fun _ _ _ => rfl) _ _ _)) fun _ => trivial
  exact looked.keeps (I := fun x => x.mem.store.chunks = w.mem.store.chunks + 1)
    (fun op fixes _ _ _ stepped same => (acts_fixes fixes stepped).trans same) (rest _) rfl

/-! ## The passes of a call -/

theorem acts_readFile {p : Path} {outcome : Except Exn Bytes} (stepped : acts P (.fs (.readFile p)) w outcome v) :
    v = w ∧ ∀ data, outcome = .ok data → w.fs.content p = some data := by
  obtain ⟨choice,ran⟩ := stepped
  cases choice with
  | ok =>
    cases found : w.fs.content p with
    | none =>
      simp [exec,fsExec,found] at ran
      exact ⟨ran.2.symm,fun data same => by rw [← ran.1] at same; cases same⟩
    | some bytes =>
      simp [exec,fsExec,found] at ran
      exact ⟨ran.2.symm,fun data same => by rw [← ran.1] at same; cases same; rfl⟩
  | fail e =>
    simp [exec,fsExec] at ran
    exact ⟨ran.2.symm,fun data same => by rw [← ran.1] at same; cases same⟩
  | _ => simp [exec,fsExec] at ran

theorem passes_of_put_bytes {data : Bytes} {outcome : Except Exn (List Digest)}
    (ran : Does (acts P) (put_bytes P data) w outcome v) :
    Does (acts P) (Prog.each (blocks P w.mem.store data) (put_block P)) w outcome v :=
  ran.after _ fun _ _ first => acts_store.mp (Does.perform.mp first)

/-- The passes of several buffers, one after the other. -/
theorem passes_of_buffers {buffers : List Bytes} {manifests : List (List Digest)}
    (ran : Does (acts P) (Prog.each buffers (put_bytes P)) w (.ok manifests) v) :
    Does (acts P) (Prog.each (buffers.flatMap (blocks P w.mem.store)) (put_block P)) w (.ok manifests.flatten) v := by
  induction buffers generalizing w manifests with
  | nil =>
    obtain ⟨same,rfl⟩ := Does.each_nil.mp ran
    cases same
    exact Does.each_nil.mpr ⟨rfl,rfl⟩
  | cons buffer rest ih =>
    obtain ⟨manifest,more,u,rfl,first,later⟩ := Does.each_cons.mp ran
    have passes := passes_of_put_bytes first
    have others := ih later
    rw [same_blocks passes] at others
    rw [List.flatMap_cons,List.flatten_cons]
    exact Does.each_append passes others

/-- A call that returned put its data, all chunks of it. -/
theorem passes_of_returned {put : Put} {manifest : List Digest} (ran : Does (acts P) (put.prog P) w (.ok manifest) v) :
    ∃ data, put.data w = some data ∧
      Does (acts P) (Prog.each (put.chunks P w.mem.store data) (put_block P)) w (.ok manifest) v := by
  cases put with
  | bytes data => exact ⟨data,rfl,passes_of_put_bytes ran⟩
  | file path =>
    rcases Does.bind.mp ran with ⟨data,u,first,later⟩ | ⟨_,same,_⟩
    · obtain ⟨rfl,found⟩ := acts_readFile (Does.perform.mp first)
      rcases Does.bind.mp later with ⟨manifests,x,loop,last⟩ | ⟨_,same,_⟩
      · obtain ⟨same,rfl⟩ := Does.ret.mp last
        cases same
        exact ⟨data,found data rfl,passes_of_buffers loop⟩
      · cases same
    · cases same

/-- The call raised when it had got through the chunks `done`: in the pass of the next one, or
    because the file that it was to put could not be read. -/
def Put.Raised (P : Platform) (put : Put) (w : World) (done : List Bytes) (error : Exn) (v : World) : Prop :=
  (∃ data blk rest hashes u, put.data w = some data ∧ put.chunks P w.mem.store data = done ++ blk :: rest ∧
    Does (acts P) (Prog.each done (put_block P)) w (.ok hashes) u ∧
      Does (acts P) (put_block P blk) u (.error error) v) ∨
  (done = [] ∧ ∃ path, put = .file path ∧ acts P (.fs (.readFile path)) w (.error error) v)

theorem raised_in_buffer {data : Bytes} {error : Exn} (ran : Does (acts P) (put_bytes P data) w (.error error) v) :
    ∃ done blk rest hashes u, blocks P w.mem.store data = done ++ blk :: rest ∧
      Does (acts P) (Prog.each done (put_block P)) w (.ok hashes) u ∧
      Does (acts P) (put_block P blk) u (.error error) v :=
  Does.each_error (passes_of_put_bytes ran)

/-- Every call that raises had got somewhere. -/
theorem Put.raised {put : Put} {error : Exn} (ran : Does (acts P) (put.prog P) w (.error error) v) :
    ∃ done, put.Raised P w done error v := by
  cases put with
  | bytes data =>
    obtain ⟨done,blk,rest,hashes,u,cut,before,raised⟩ := raised_in_buffer ran
    exact ⟨done,.inl ⟨data,blk,rest,hashes,u,rfl,cut,before,raised⟩⟩
  | file path =>
    rcases Does.bind.mp ran with ⟨data,u,first,later⟩ | ⟨_,same,first⟩
    · obtain ⟨rfl,found⟩ := acts_readFile (Does.perform.mp first)
      rcases Does.bind.mp later with ⟨manifests,x,_,last⟩ | ⟨_,same,loop⟩
      · cases (Does.ret.mp last).1
      · cases same
        obtain ⟨buffers,buffer,others,manifests,x,split,before,raised⟩ := Does.each_error loop
        have passes := passes_of_buffers before
        obtain ⟨done,blk,rest,hashes,y,cut,within,failed⟩ := raised_in_buffer raised
        rw [same_blocks passes] at cut
        refine ⟨_,.inl ⟨data,blk,rest ++ others.flatMap (blocks P u.mem.store),_,y,found data rfl,?_,
          Does.each_append passes within,failed⟩⟩
        simp only [Put.chunks,split,List.flatMap_append,List.flatMap_cons,cut,List.append_assoc,List.cons_append]
    · cases same
      exact ⟨[],.inr ⟨rfl,path,rfl,Does.perform.mp first⟩⟩

theorem straight_put_block (blk : Bytes) : (put_block P blk).Straight := by
  refine Prog.Straight.bind (.perform _) fun _ => .bind (.perform _) fun _ => .bind (.when ?_) fun _ => trivial
  refine .bind (.perform _) fun _ => .bind (.when ?_) fun _ => .when (.perform _)
  refine .bind (.perform _) fun _ => .bind (.perform _) fun _ => .when ?_
  exact .bind (.perform _) fun _ => .perform _

theorem straight_put_bytes (data : Bytes) : (put_bytes P data).Straight :=
  .bind (.perform _) fun _ => .each straight_put_block _

theorem straight_put (put : Put) : (put.prog P).Straight := by
  cases put with
  | bytes data => exact straight_put_bytes data
  | file path => exact .bind (.perform _) fun _ => .bind (.each straight_put_bytes _) fun _ => trivial

/-- In a call that returned nothing failed. -/
theorem sound_of_returned {α : Type} {program : KProg α} (straight : program.Straight) {value : α}
    (ran : Does (acts P) program w (.ok value) v) : Does (sound P) program w (.ok value) v :=
  (ran.returned straight).mono fun _ _ _ _ stepped => ⟨stepped.1,fun _ => stepped.2⟩

theorem chunks_flatten {store : Cas} (cuts : store.cdc = true ∨ 0 < store.block) (put : Put) (data : Bytes) :
    (put.chunks P store data).flatten = data := by
  cases put with
  | bytes _ => exact blocks_flatten cuts data
  | file _ =>
    have whole : ∀ buffers : List Bytes, (buffers.flatMap (blocks P store)).flatten = buffers.flatten := by
      intro buffers
      induction buffers with
      | nil => rfl
      | cons buffer rest ih => rw [List.flatMap_cons,List.flatten_append,blocks_flatten cuts,ih,List.flatten_cons]
    rw [Put.chunks,whole,reads,slices_flatten (by decide)]

theorem gives_write_file {p : Path} {bytes : Bytes} :
    Gives (acts P) (write_file p bytes) w fun _ v => v = { w with fs := w.fs.put p bytes } := by
  intro value v ran
  have straight : (write_file p bytes).Straight := .bind (.perform _) fun _ => .perform _
  exact (sound_write_file (sound_of_returned straight ran)).2

theorem gives_getsize {p : Path} {bytes : Bytes} (found : w.fs.content p = some bytes) :
    Gives (acts P) (fsCall (.getsize p)) w fun n v => n = bytes.length ∧ v = w := by
  refine Gives.perform ?_
  rintro n v ⟨choice,ran⟩
  cases choice <;> simp [exec,fsExec,found] at ran
  exact ⟨ran.1.symm,ran.2.symm⟩

theorem gives_remove {p : Path} : Gives (acts P) (fsCall (.remove p)) w fun _ v => v = { w with fs := w.fs.remove p } := by
  refine Gives.perform ?_
  rintro ⟨⟩ v ⟨choice,ran⟩
  obtain ⟨⟨result,fs⟩,executed,same⟩ := Option.map_eq_some_iff.mp ran
  cases same
  cases choice with
  | ok =>
    simp only [fsExec] at executed
    split at executed <;> cases executed
    rfl
  | fail | torn | id | text | time | flag | boot | bootLost | lost | eof | puts | found => cases executed

theorem gives_locked {α : Type} {body : KProg α} {Q : α → World → Prop}
    (acquired : ∀ u, acts P (.mem .acquire) w (.ok ()) u → Gives (acts P) body u Q)
    (released : ∀ value u v, acts P (.mem .release) u (.ok ()) v → Q value u → Q value v) :
    Gives (acts P) (locked body) w Q := by
  refine Gives.bind (R := fun _ u => Gives (acts P) body u Q) (Gives.perform fun _ u stepped => acquired u stepped) ?_
  intro _ u inside
  refine Gives.bind (R := Q) (Gives.raising inside ?_) ?_
  · intro error y value v ran
    rcases Does.bind.mp ran with ⟨_,_,_,raised⟩ | ⟨_,same,_⟩
    · cases (Does.raise.mp raised).1
    · cases same
  · intro value v holds
    refine Gives.bind (R := fun _ v => Q value v) (Gives.perform fun _ _ stepped => released value _ _ stepped holds) ?_
    exact fun _ _ holds' => Gives.ret holds'

theorem acquire_store {outcome : Except Exn Unit} (stepped : acts P (.mem .acquire) w outcome v) :
    v.mem.store = w.mem.store := by
  obtain ⟨choice,ran⟩ := stepped
  cases choice <;> simp [exec,memExec] at ran
  rw [← ran.2.2]

theorem sound_ok {op : Op} {value : op.Res} (choice : Choice) (ran : exec P 0 op choice w = some (.ok value,v)) :
    sound P op w (.ok value) v := ⟨⟨choice,ran⟩,fun _ => ⟨value,rfl⟩⟩

theorem write_file_runs (p : Path) (bytes : Bytes) :
    Does (sound P) (write_file p bytes) w (.ok ()) { w with fs := w.fs.put p bytes } :=
  Does.perform_bind (w.fs.openTrunc p).1 { w with fs := (w.fs.openTrunc p).2 } (sound_ok .ok rfl)
    (Does.perform.mpr (sound_ok .ok rfl))

/-- A chunk file can be made. -/
theorem store_chunk_runs (h : Digest) (comp : Bytes) : Does (sound P) (store_chunk h comp) w (.ok ())
    { w with fs := if (w.fs.names (.chunk h)).isSome then w.fs else w.fs.put (.chunk h) comp } := by
  refine Does.perform_bind () w (sound_ok .ok rfl) ?_
  refine Does.perform_bind (w.fs.names (.chunk h)).isSome w (sound_ok .ok rfl) ?_
  cases there : (w.fs.names (.chunk h)).isSome with
  | true => exact Does.ret.mpr ⟨rfl,rfl⟩
  | false => exact write_file_runs _ _

/-- A chunk that is not in the index can be put. -/
theorem put_new_runs {blk : Bytes} (new : w.mem.store.knows (P.blake2b blk) = false) :
    Does (sound P) (put_new P (w.mem.store.count blk) (P.blake2b blk) blk) (w.withStore (w.mem.store.count blk)) (.ok ())
      (w.stock P blk) := by
  have known : (w.mem.store.count blk).knows (P.blake2b blk) = false := new
  refine Does.perform_bind () _ (sound_ok .ok rfl) ?_
  refine Does.bind.mpr (.inl ⟨(),({ w with fs := w.shelve P blk } : World).withStore
    ((w.mem.store.count blk).record (P.blake2b blk) (P.compress blk)),?_,?_⟩)
  · cases root : w.mem.store.root with
    | false =>
      rw [show (w.mem.store.count blk).root = false from root]
      exact Does.ret.mpr ⟨rfl,by simp [World.shelve,World.withStore,new,root]⟩
    | true =>
      rw [show (w.mem.store.count blk).root = true from root]
      have made := store_chunk_runs (P := P) (w := (w.withStore (w.mem.store.count blk)).withStore
        ((w.mem.store.count blk).record (P.blake2b blk) (P.compress blk))) (P.blake2b blk) (P.compress blk)
      have shelf : w.shelve P blk = if (w.fs.names (.chunk (P.blake2b blk))).isSome then w.fs
          else w.fs.put (.chunk (P.blake2b blk)) (P.compress blk) := by
        cases there : (w.fs.names (.chunk (P.blake2b blk))).isSome <;> simp [World.shelve,new,root,there]
      rw [shelf]
      exact made
  · unfold World.stock Cas.take
    cases s3 : w.mem.store.s3 with
    | true =>
      rw [show (w.mem.store.count blk).s3 = true from s3]
      exact Does.perform.mpr ⟨acts_update.mpr ⟨rfl,by
        simp [World.withStore,known,show (w.mem.store.count blk).s3 = true from s3]⟩,fun writes => writes.elim⟩
    | false =>
      rw [show (w.mem.store.count blk).s3 = false from s3]
      exact Does.ret.mpr ⟨rfl,by simp [World.withStore,known,show (w.mem.store.count blk).s3 = false from s3]⟩

/-- A pass can succeed. -/
theorem put_block_runs (blk : Bytes) : Does (sound P) (put_block P blk) w (.ok (P.blake2b blk)) (w.stock P blk) := by
  refine Does.perform_bind () (w.withStore (w.mem.store.count blk)) (sound_ok .ok rfl) ?_
  refine Does.perform_bind (w.mem.store.count blk) (w.withStore (w.mem.store.count blk)) (sound_ok .ok rfl) ?_
  refine Does.bind.mpr (.inl ⟨(),w.stock P blk,?_,Does.ret.mpr ⟨rfl,rfl⟩⟩)
  cases known : w.mem.store.knows (P.blake2b blk) with
  | true =>
    have counts : (w.mem.store.count blk).knows (P.blake2b blk) = true := known
    rw [counts]
    exact Does.ret.mpr ⟨rfl,by simp [World.stock,World.shelve,Cas.take,World.withStore,known,counts]⟩
  | false =>
    rw [show (w.mem.store.count blk).knows (P.blake2b blk) = false from known]
    exact put_new_runs known

theorem blocks_run (blks : List Bytes) :
    Does (sound P) (Prog.each blks (put_block P)) w (.ok (blks.map P.blake2b)) (blks.foldl (World.stock P) w) := by
  induction blks generalizing w with
  | nil => exact Does.each_nil.mpr ⟨rfl,rfl⟩
  | cons blk rest ih => exact Does.each_cons.mpr ⟨_,_,w.stock P blk,rfl,put_block_runs blk,ih⟩

theorem put_bytes_runs (data : Bytes) : Does (sound P) (put_bytes P data) w
    (.ok ((blocks P w.mem.store data).map P.blake2b)) ((blocks P w.mem.store data).foldl (World.stock P) w) :=
  Does.perform_bind w.mem.store w (sound_ok .ok rfl) (blocks_run _)

theorem buffers_run (buffers : List Bytes) : Does (sound P) (Prog.each buffers (put_bytes P)) w
    (.ok (buffers.map fun buffer => (blocks P w.mem.store buffer).map P.blake2b))
    ((buffers.flatMap (blocks P w.mem.store)).foldl (World.stock P) w) := by
  induction buffers generalizing w with
  | nil => exact Does.each_nil.mpr ⟨rfl,rfl⟩
  | cons buffer rest ih =>
    have first := put_bytes_runs (P := P) (w := w) buffer
    have same := same_blocks ((blocks_run (P := P) (w := w) (blocks P w.mem.store buffer)).mono
      fun _ _ _ _ stepped => stepped.1)
    have later := ih (w := (blocks P w.mem.store buffer).foldl (World.stock P) w)
    rw [same] at later
    rw [List.flatMap_cons,List.foldl_append]
    exact Does.each_cons.mpr ⟨_,_,_,rfl,first,later⟩

/-- A call whose data can be read can succeed. -/
theorem put_runs (put : Put) {data : Bytes} (given : put.data w = some data) : Does (sound P) (put.prog P) w
    (.ok ((put.chunks P w.mem.store data).map P.blake2b)) ((put.chunks P w.mem.store data).foldl (World.stock P) w) := by
  cases put with
  | bytes data' =>
    cases given
    exact put_bytes_runs data
  | file path =>
    refine Does.perform_bind data w (sound_ok .ok ?_) ?_
    · rw [exec,fsExec,show w.fs.content path = some data from given]
      rfl
    · refine Does.bind.mpr (.inl ⟨_,_,buffers_run (reads data),Does.ret.mpr ⟨?_,rfl⟩⟩)
      rw [Put.chunks,List.map_flatMap,List.flatMap_def]

/-- What a call that returned returned, and what it left. -/
theorem of_returned (put : Put) {data : Bytes} (given : put.data w = some data) {manifest : List Digest}
    (ran : Does (acts P) (put.prog P) w (.ok manifest) v) :
    manifest = (put.chunks P w.mem.store data).map P.blake2b ∧
      v = (put.chunks P w.mem.store data).foldl (World.stock P) w := by
  obtain ⟨data',given',passes⟩ := passes_of_returned ran
  cases given.symm.trans given'
  obtain ⟨same,left⟩ := sound_blocks (sound_of_returned (.each straight_put_block _) passes)
  cases same
  exact ⟨rfl,left⟩

end
end Klados
