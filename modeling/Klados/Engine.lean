import Klados.Cas

/-!
The engine of kladosd (`engine/kladosd.py`): snapshots and forks of instances, the
timeline in the database, metering, and the tables they leave. Each function is a
program over the calls of `Klados.World`, in the order of the source.
-/
namespace Klados
open Effects
open Agent (Line)

/-- `fc.vsock_request(uds, 5000, payload)`. -/
def vsock_request (iid : Id) (payload : Json) : KProg Json := do
  let conn ← vmCall (.connect iid (.json payload))
  vmCall (.receive iid conn)

/-- `with _store_lock:`. -/
def locked {α : Type} (body : KProg α) : KProg α := do
  memCall .acquire
  let value ← tryCatch body fun e => do
    memCall .release
    Prog.raise e
  memCall .release
  pure value

/-- The body of a function that opens a connection: an exception drops the connection, which
    rolls back what it had not committed. -/
def connection {α : Type} (body : KProg α) : KProg α :=
  tryCatch body fun e => do
    dbCall .rollback
    Prog.raise e

/-- `_chunk_mem`. -/
def chunk_mem (P : Platform) (sid : Id) (mem_path : Path) : KProg Nat := do
  let hashes ← locked (do
    let hashes ← put_file P mem_path
    let _ ← flush_s3
    pure hashes)
  write_file (.snap sid .manifest) (P.dumpManifest ⟨4096,hashes⟩)
  let logical ← fsCall (.getsize mem_path)
  fsCall (.remove mem_path)
  pure logical

/-- `json.load(f)` of a manifest. -/
def load_manifest (P : Platform) (bytes : Bytes) : KProg Manifest :=
  match P.loadManifest bytes with
  | some m => pure m
  | none => Prog.raise (.ValueError "Expecting value")

/-- The loop of `_reconstruct_mem`: chunks are written one after the other. -/
def write_chunks (P : Platform) (out : Nat) : Nat → List Digest → KProg Unit
  | _, [] => pure ()
  | offset, h :: rest => do
    let chunk ← get P h
    fsCall (.write out offset chunk)
    write_chunks P out (offset + chunk.length) rest

/-- The part of `_reconstruct_mem` that builds the image. -/
def materialize (P : Platform) (sid : Id) : KProg Unit := do
  let bytes ← fsCall (.readFile (.snap sid .manifest))
  let m ← load_manifest P bytes
  let out ← fsCall (.openTrunc (.snap sid .memTmp))
  write_chunks P out 0 m.hashes
  fsCall (.replace (.snap sid .memTmp) (.snap sid .mem))

/-- `not (os.path.exists(mem) or not os.path.exists(man))`. -/
def isCold (sid : Id) : KProg Bool := do
  let hot ← fsCall (.exists (.snap sid .mem))
  if hot then pure false else fsCall (.exists (.snap sid .manifest))

/-- `_reconstruct_mem`. -/
def reconstruct_mem (P : Platform) (sid : Id) : KProg Path := do
  let cold ← isCold sid
  Prog.when cold (materialize P sid)
  pure (.snap sid .mem)

/-- `r.get("status")`. -/
def status (r : Json) : KProg Json :=
  if r.isDict then pure ((r.get? "status").getD .null)
  else Prog.raise (.AttributeError "object has no attribute 'get'")

/-- `_wait_agent`: the loop sleeps 0.2 s in each pass and ends after 20 s. -/
def wait_agent (iid : Id) : Nat → KProg Bool
  | 0 => pure false
  | polls + 1 => do
    if !(← sysCall .beforeDeadline) then pure false
    else
      let pong ← tryCatch (do
        let r ← vsock_request iid (.obj [("type",.str "PING")])
        let s ← status r
        pure (s.isStr "PONG")) fun _ => pure false
      if pong then pure true
      else
        sysCall .sleep
        wait_agent iid polls

def polls : Nat := 100

/-- A fresh disk, unless the instance has one. -/
def fresh_scratch (iid : Id) : KProg Unit := do
  let there ← fsCall (.exists (.scratch iid))
  Prog.when (!there) (fsCall (.makeDisk (.scratch iid)))

/-- The disk of a new instance: a copy of `scratch_src` when that is given and exists, else a
    fresh one. -/
def provide_scratch (iid : Id) : Option Path → KProg Unit
  | none => fresh_scratch iid
  | some src => do
    let there ← fsCall (.exists src)
    if there then fsCall (.copy src (.scratch iid)) else fresh_scratch iid

/-- Boot a fresh VM, or restore one. -/
def start_vm (iid : Id) : Option (Path × Path) → KProg Unit
  | none => vmCall (.start iid)
  | some (snap,mem) => vmCall (.load iid snap mem)

/-- `_boot_vm`. -/
def boot_vm (iid : Id) (load_from : Option (Path × Path)) (scratch_src : Option Path) : KProg Unit := do
  fsCall .makedirs
  provide_scratch iid scratch_src
  vmCall (.spawn iid)
  start_vm iid load_from
  memCall (.liveSet iid)

/-- A parameter bound to a TEXT column; lists, dictionaries and integers beyond 64 bits cannot be bound. -/
def bindText (P : Platform) : Json → KProg (Option String)
  | .null => pure none
  | .bool value => pure (some (if value then "1" else "0"))
  | .int value =>
    if -0x8000000000000000 ≤ value ∧ value ≤ 0x7fffffffffffffff then pure (some (toString value))
    else Prog.raise (.OverflowError "Python int too large to convert to SQLite INTEGER")
  | .real value => pure (some (P.realText value))
  | .str value => pure (some value)
  | .arr _ | .obj _ => Prog.raise (.DbError "type is not supported")

/-- `create_run`. -/
def create_run (P : Platform) (project_id : Id) (image_label : Json) : KProg Json := do
  let rid ← sysCall .newId
  let iid ← sysCall .newId
  connection (do
    let now ← sysCall .now
    let image ← bindText P image_label
    dbCall (.execute (.insertRun ⟨rid,project_id,image,now⟩))
    let now ← sysCall .now
    dbCall (.execute (.insertInstance ⟨iid,rid,none,.RUNNING,"genesis",now⟩))
    dbCall .commit)
  boot_vm iid none none
  let _ ← wait_agent iid polls
  pure (.obj [("run_id",.str rid),("instance_id",.str iid)])

/-- The QUIESCE request of `snapshot_instance`; whatever it raises is swallowed. -/
def quiesce (iid : Id) : KProg Unit :=
  tryCatch (do
    let _ ← vsock_request iid (.obj [("type",.str "QUIESCE")])
    sysCall .sleep) fun _ => pure ()

/-- Seal the disk of the instance into the snapshot. -/
def seal_scratch (iid sid : Id) : KProg Unit := do
  let there ← fsCall (.exists (.scratch iid))
  Prog.when there (fsCall (.copy (.scratch iid) (.snap sid .scratch)))

/-- `snapshot_instance`. -/
def snapshot_instance (P : Platform) (iid : Id) (label : Json) : KProg Json := do
  let live ← memCall (.liveGet iid)
  if !live then Prog.raise (.KeyError ("no live instance " ++ iid))
  else connection (do
    let T ← dbCall .read
    match T.instance? iid with
    | none => Prog.raise (.TypeError "'NoneType' object is not subscriptable")
    | some row => do
      let sid ← sysCall .newId
      fsCall .makedirs
      fsCall .makedirs
      quiesce iid
      vmCall (.pause iid)
      vmCall (.create iid (.snap sid .vmstate) (.snap sid .mem))
      fsCall .makedirs
      -- seal the writable /data disk layer into the snapshot
      seal_scratch iid sid
      vmCall (.resume iid)
      let logical ← chunk_mem P sid (.snap sid .mem)
      let state ← fsCall (.getsize (.snap sid .vmstate))
      let size := logical + state
      let now ← sysCall .now
      let label ← bindText P label
      dbCall (.execute (.insertSnapshot
        ⟨sid,row.run_id,row.snapshot_id,label,.snap sid .vmstate,.snap sid .mem,size,now⟩))
      dbCall (.execute (.setSnapshot iid sid))
      dbCall .commit
      pure (.obj [("snapshot_id",.str sid),("size_bytes",.int size),("parent",Json.ofText row.snapshot_id)]))

/-- The FORKED exchange of `fork_snapshot`; the branch says what came of it. -/
def handshake (P : Platform) (iid : Id) (i : Nat) (n : Int) : KProg String := do
  let branch := "branch " ++ toString i ++ " of " ++ toString n
  tryCatch (do
    let _ ← wait_agent iid polls
    let now ← sysCall .now
    let r ← vsock_request iid (.obj [("type",.str "FORKED"),("index",.int i),("n",.int n),
      ("true_time",.real now),("branch_context",.str branch)])
    let s ← status r
    pure (if s.isStr "READY" then branch else "ERR:" ++ P.pyRepr r)) fun e => pure ("ERR:" ++ e.str)

/-- One pass of the loop of `fork_snapshot`. -/
def fork_child (P : Platform) (snap : SnapshotRow) (n : Int) (i : Nat) : KProg (Id × String) := do
  let iid ← sysCall .newId
  boot_vm iid (some (snap.snap_path,snap.mem_path)) (some (.snap snap.id .scratch))
  let branch ← handshake P iid i n
  let now ← sysCall .now
  dbCall (.execute (.insertInstance ⟨iid,snap.run_id,some snap.id,.RUNNING,branch,now⟩))
  pure (iid,branch)

/-- `fork_snapshot`. -/
def fork_snapshot (P : Platform) (sid : Id) (n : Int) : KProg Json :=
  connection (do
    let T ← dbCall .read
    match T.snapshot? sid with
    | none => Prog.raise (.KeyError ("no snapshot " ++ sid))
    | some snap => do
      let _ ← reconstruct_mem P sid
      let children ← Prog.each (List.range n.toNat) (fork_child P snap n)
      dbCall .commit
      pure (.obj [("children",.arr (children.map fun (iid,branch) =>
        .obj [("instance_id",.str iid),("branch",.str branch)]))]))

/-- `destroy_instance`. -/
def destroy_instance (iid : Id) : KProg Json := do
  let live ← memCall (.livePop iid)
  Prog.when live (vmCall (.kill iid))
  connection (do
    dbCall (.execute (.setDestroyed iid))
    dbCall .commit)
  pure (.obj [("instance_id",.str iid),("state",.str "DESTROYED")])

/-- A row of the first SELECT of `timeline`, as the reply shows it. -/
def SnapshotRow.view (row : SnapshotRow) : Json :=
  .obj [("id",.str row.id),("parent_id",Json.ofText row.parent_id),("label",Json.ofText row.label),
    ("size_bytes",.int row.size_bytes),("created_at",.real row.created_at)]

def InstanceState.text : InstanceState → String
  | .RUNNING => "RUNNING"
  | .DESTROYED => "DESTROYED"

/-- A row of the second SELECT of `timeline`. -/
def InstanceRow.view (row : InstanceRow) : Json :=
  .obj [("id",.str row.id),("snapshot_id",Json.ofText row.snapshot_id),("state",.str row.state.text),
    ("branch",.str row.branch)]

/-- `SELECT ... FROM snapshots WHERE run_id=? ORDER BY created_at`. -/
def Tables.snapshotsOf (T : Tables) (run_id : Id) : List SnapshotRow :=
  (T.snapshots.filter (·.run_id = run_id)).mergeSort fun row row' => row.created_at ≤ row'.created_at

/-- `SELECT ... FROM instances WHERE run_id=?`. -/
def Tables.instancesOf (T : Tables) (run_id : Id) : List InstanceRow := T.instances.filter (·.run_id = run_id)

/-- `timeline`: two SELECTs, one after the other, outside a transaction. -/
def timeline (run_id : Id) : KProg Json := do
  let T ← dbCall .read
  let snaps := T.snapshotsOf run_id
  let T ← dbCall .read
  let insts := T.instancesOf run_id
  pure (.obj [("run_id",.str run_id),("snapshots",.arr (snaps.map SnapshotRow.view)),
    ("instances",.arr (insts.map InstanceRow.view))])

/-- `IMAGE["mem_mib"]`. -/
def mem_mib : Rat := 512

/-- `SELECT r.project_id FROM instances i JOIN runs r ON i.run_id=r.id WHERE i.id=?`. -/
def Tables.projectOfInstance (T : Tables) (iid : Id) : Option Id :=
  ((T.instance? iid).bind fun row => T.run? row.run_id).map (·.project_id)

/-- `a = accr.setdefault(pid, [0.0, 0.0]); a[0] += v; a[1] += g`. -/
def accumulate (accr : List (Id × Rat × Rat)) (pid : Id) (v g : Rat) : List (Id × Rat × Rat) :=
  if accr.any (·.1 = pid) then
    accr.map fun (q,a,b) => if q = pid then (q,a + v,b + g) else (q,a,b)
  else accr ++ [(pid,v,g)]

/-- The first loop of `_meter_tick`. -/
def meter_rows (dt : Rat) : List Id → List (Id × Rat × Rat) → KProg (List (Id × Rat × Rat))
  | [], accr => pure accr
  | iid :: rest, accr => do
    let T ← dbCall .read
    match T.projectOfInstance iid with
    | none => meter_rows dt rest accr
    | some pid => meter_rows dt rest (accumulate accr pid dt (mem_mib / 1024 * dt))

/-- `_meter_tick`. -/
def meter_tick (dt : Rat) : KProg Json :=
  connection (do
    let live ← memCall .liveKeys
    let accr ← meter_rows dt live []
    let now ← sysCall .now
    let _ ← Prog.each accr fun (pid,v,g) => dbCall (.execute (.accrue pid v g now))
    dbCall .commit
    pure .null)

end Klados
