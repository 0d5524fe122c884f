import Klados.World
import Klados.Blocks

/-!
The content-addressed store (`storage/cas.py`): chunking, `put_bytes`, `put_file`,
`flush_s3` and `get`, call by call on the attributes of the store object, the chunk
files and the bucket.
-/
namespace Klados
open Effects
open Blocks (slices)

def dbCall (o : DbOp) : KProg o.Res := Prog.perform (S := sig) (.db o)
def fsCall (o : FsOp) : KProg o.Res := Prog.perform (S := sig) (.fs o)
def s3Call (o : S3Op) : KProg o.Res := Prog.perform (S := sig) (.s3 o)
def memCall (o : MemOp) : KProg o.Res := Prog.perform (S := sig) (.mem o)
def vmCall (o : VmOp) : KProg o.Res := Prog.perform (S := sig) (.vm o)
def sysCall (o : SysOp) : KProg o.Res := Prog.perform (S := sig) (.sys o)

/-- `with open(p, "wb") as f: f.write(bytes)`. -/
def write_file (p : Path) (bytes : Bytes) : KProg Unit := do
  let f ← fsCall (.openTrunc p)
  fsCall (.write f 0 bytes)

/-- The gear-hash mode of `_blocks`: `h` and the current chunk are carried along the bytes. -/
def gearBlocks (gear : UInt8 → UInt64) (h : UInt64) (chunk : Bytes) : Bytes → List Bytes
  | [] => if chunk = [] then [] else [chunk]
  | b :: rest =>
    let h := (h <<< 1) + gear b
    let chunk := chunk ++ [b]
    if (chunk.length ≥ 2048 ∧ h &&& 8191 = 0) ∨ chunk.length ≥ 65536 then chunk :: gearBlocks gear 0 [] rest
    else gearBlocks gear h chunk rest

/-- `CAS._blocks`. -/
def blocks (P : Platform) (store : Cas) (data : Bytes) : List Bytes :=
  if store.cdc then gearBlocks P.gear 0 [] data else slices store.block data

/-- The read buffer of `put_file`, `8 << 20`. -/
def readBuffer : Nat := 8388608

/-- The results of `f.read(buf)` one after the other, up to the empty one. -/
def reads (data : Bytes) : List Bytes := slices readBuffer data

/-- Persist a compressed chunk unless its file exists. -/
def store_chunk (h : Digest) (comp : Bytes) : KProg Unit := do
  fsCall .makedirs
  let there ← fsCall (.exists (.chunk h))
  Prog.when (!there) (write_file (.chunk h) comp)

/-- `self.logical += len(blk)` and `self.chunks += 1`. -/
def Cas.count (store : Cas) (blk : Bytes) : Cas :=
  { store with logical := store.logical + blk.length, chunks := store.chunks + 1 }

/-- `self.index[h] = len(comp)` and `self.stored += len(comp)`. -/
def Cas.record (store : Cas) (h : Digest) (comp : Bytes) : Cas :=
  { store with index := (h,comp.length) :: store.index, stored := store.stored + comp.length }

/-- `self._pending.append((h, comp))`. -/
def Cas.queue (store : Cas) (h : Digest) (comp : Bytes) : Cas :=
  { store with pending := store.pending ++ [(h,comp)] }

/-- The branch of `put_bytes` for a chunk that is not in the index. -/
def put_new (P : Platform) (store : Cas) (h : Digest) (blk : Bytes) : KProg Unit := do
  let comp := P.compress blk
  memCall (.update (·.record h comp))
  Prog.when store.root (store_chunk h comp)
  Prog.when store.s3 (memCall (.update (·.queue h comp)))

/-- One pass of the loop of `put_bytes`. -/
def put_block (P : Platform) (blk : Bytes) : KProg Digest := do
  memCall (.update (·.count blk))
  let store ← memCall .store
  let h := P.blake2b blk
  Prog.when (!store.knows h) (put_new P store h blk)
  pure h

/-- `CAS.put_bytes`. -/
def put_bytes (P : Platform) (data : Bytes) : KProg (List Digest) := do
  let store ← memCall .store
  Prog.each (blocks P store data) (put_block P)

/-- `CAS.put_file`. -/
def put_file (P : Platform) (path : Path) : KProg (List Digest) := do
  let data ← fsCall (.readFile path)
  let manifests ← Prog.each (reads data) (put_bytes P)
  pure manifests.flatten

/-- `CAS.flush_s3`. -/
def flush_s3 : KProg Nat := do
  let store ← memCall .store
  if !store.s3 || store.pending.isEmpty then pure 0
  else do
    memCall (.update fun s => { s with pending := [] })
    s3Call (.put store.pending)
    pure store.pending.length

/-- `zlib.decompress`. -/
def decompress (P : Platform) (bytes : Bytes) : KProg Bytes :=
  match P.decompress bytes with
  | some data => pure data
  | none => Prog.raise (.ZlibError "Error -3 while decompressing data")

/-- Warm the hot cache. -/
def warm (h : Digest) (comp : Bytes) : KProg Unit := do
  fsCall .makedirs
  write_file (.chunk h) comp

/-- The part of `CAS.get` after a miss in the hot cache. -/
def get_cold (P : Platform) (store : Cas) (h : Digest) : KProg Bytes :=
  if store.s3 then do
    let comp ← s3Call (.get h)
    Prog.when store.root (warm h comp)
    decompress P comp
  else Prog.raise (.OSError "chunk not in hot cache and no S3 tier configured")

/-- `p and os.path.exists(p)` in `get`. -/
def isCached (store : Cas) (h : Digest) : KProg Bool :=
  if store.root then fsCall (.exists (.chunk h)) else pure false

/-- The part of `CAS.get` after a hit in the hot cache. -/
def get_hot (P : Platform) (h : Digest) : KProg Bytes := do
  let bytes ← fsCall (.readFile (.chunk h))
  decompress P bytes

/-- `CAS.get`. -/
def get (P : Platform) (h : Digest) : KProg Bytes := do
  let store ← memCall .store
  let hot ← isCached store h
  if hot then get_hot P h else get_cold P store h

end Klados
