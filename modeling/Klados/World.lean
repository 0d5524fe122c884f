import Klados.Agent
import Klados.Diff
import Klados.Interleave

/-!
The state kladosd works on, and what each of its operations does there: the SQLite
database, the files under KLADOS_HOME, the S3 bucket, the memory of the daemon (`LIVE`,
the chunk store object, its lock) and the Firecracker processes with their guests. Every
operation touches the part it names and no other; a `Choice` resolves what it leaves open.
-/
namespace Klados
open Files (Fs)
open Effects
open Agent (Guest Line)

structure ProjectRow where
  id : Id
  name : Option String
  key_hash : String
  created_at : Time
  deriving DecidableEq

structure RunRow where
  id : Id
  project_id : Id
  image : Option String
  created_at : Time
  deriving DecidableEq

/-- The files of a snapshot directory. -/
inductive SnapFile
  | vmstate
  | mem
  | memTmp
  | manifest
  | scratch
  deriving DecidableEq

/-- The files the daemon reads and writes: `snapshots/<id>/...`, `instances/<id>/scratch.ext4`
    and `chunks/<h[:2]>/<h>`. -/
inductive Path
  | snap (sid : Id) (file : SnapFile)
  | scratch (iid : Id)
  | chunk (h : Digest)
  deriving DecidableEq

structure SnapshotRow where
  id : Id
  run_id : Id
  parent_id : Option Id
  label : Option String
  snap_path : Path
  mem_path : Path
  size_bytes : Nat
  created_at : Time
  deriving DecidableEq

inductive InstanceState
  | RUNNING
  | DESTROYED
  deriving DecidableEq

structure InstanceRow where
  id : Id
  run_id : Id
  snapshot_id : Option Id
  state : InstanceState
  branch : String
  created_at : Time
  deriving DecidableEq

structure UsageRow where
  project_id : Id
  vcpu_s : Rat
  ram_gib_s : Rat
  updated_at : Time
  deriving DecidableEq

structure Tables where
  projects : List ProjectRow
  runs : List RunRow
  snapshots : List SnapshotRow
  instances : List InstanceRow
  usage : List UsageRow
  deriving DecidableEq

/-- `SELECT ... WHERE id=?` on a table with that primary key. -/
def Tables.run? (T : Tables) (id : Id) : Option RunRow := T.runs.find? (·.id = id)
def Tables.snapshot? (T : Tables) (id : Id) : Option SnapshotRow := T.snapshots.find? (·.id = id)
def Tables.instance? (T : Tables) (id : Id) : Option InstanceRow := T.instances.find? (·.id = id)

/-- The statements that write. -/
inductive Stmt
  | insertProject (row : ProjectRow)
  | insertRun (row : RunRow)
  | insertSnapshot (row : SnapshotRow)
  | insertInstance (row : InstanceRow)
  | setSnapshot (iid sid : Id)
  | setDestroyed (iid : Id)
  | accrue (pid : Id) (vcpu_s ram_gib_s : Rat) (now : Time)

def uniqueFailed : Exn := .DbError "UNIQUE constraint failed"

/-- `UPDATE instances SET ... WHERE id=?`. -/
def updateInstance (rows : List InstanceRow) (iid : Id) (change : InstanceRow → InstanceRow) : List InstanceRow :=
  rows.map fun row => if row.id = iid then change row else row

/-- `INSERT INTO usage ... ON CONFLICT(project_id) DO UPDATE SET vcpu_s=vcpu_s+excluded.vcpu_s, ...`. -/
def accrueUsage (rows : List UsageRow) (new : UsageRow) : List UsageRow :=
  if rows.any (·.project_id = new.project_id) then
    rows.map fun row =>
      if row.project_id = new.project_id then
        { row with vcpu_s := row.vcpu_s + new.vcpu_s, ram_gib_s := row.ram_gib_s + new.ram_gib_s,
                   updated_at := new.updated_at }
      else row
  else rows ++ [new]

def Stmt.apply (T : Tables) : Stmt → Except Exn Tables
  | .insertProject row =>
    if T.projects.any (·.id = row.id) then .error uniqueFailed
    else .ok { T with projects := T.projects ++ [row] }
  | .insertRun row =>
    if T.runs.any (·.id = row.id) then .error uniqueFailed else .ok { T with runs := T.runs ++ [row] }
  | .insertSnapshot row =>
    if T.snapshots.any (·.id = row.id) then .error uniqueFailed
    else .ok { T with snapshots := T.snapshots ++ [row] }
  | .insertInstance row =>
    if T.instances.any (·.id = row.id) then .error uniqueFailed
    else .ok { T with instances := T.instances ++ [row] }
  | .setSnapshot iid sid =>
    .ok { T with instances := updateInstance T.instances iid fun row => { row with snapshot_id := some sid } }
  | .setDestroyed iid =>
    .ok { T with instances := updateInstance T.instances iid fun row => { row with state := .DESTROYED } }
  | .accrue pid v g now => .ok { T with usage := accrueUsage T.usage ⟨pid,v,g,now⟩ }

/-- The committed tables, and the thread that holds the write lock with what it has written. -/
structure Db where
  committed : Tables
  txn : Option (Nat × Tables)

/-- What the connection of thread `t` reads. -/
def Db.visible (db : Db) (t : Nat) : Tables :=
  match db.txn with
  | some (holder,written) => if holder = t then written else db.committed
  | none => db.committed

inductive DbOp
  | read
  | execute (stmt : Stmt)
  | commit
  | rollback

abbrev DbOp.Res : DbOp → Type
  | .read => Tables
  | _ => Unit

/-- How one PUT of a batch turns out: whether the object is in the bucket afterwards, and
    whether the call raised. -/
structure PutOutcome where
  stored : Bool
  raised : Option Exn

/-- What an operation leaves open. `torn k e` fails with `e` after the first `k` bytes. -/
inductive Choice
  | ok
  | fail (error : Exn)
  | torn (k : Nat) (error : Exn)
  | id (value : Id)
  | text (value : String)
  | time (now : Time)
  | flag (value : Bool)
  | boot (mem dev : Bytes)
  | bootLost (mem dev : Bytes) (error : Exn)
  | lost
  | eof
  | puts (outcomes : List PutOutcome)
  | found (what : Diff.Followed)

def Db.exec (t : Nat) (db : Db) : (o : DbOp) → Choice → Option (Except Exn o.Res × Db)
  | .read, .ok => some (.ok (db.visible t),db)
  | .execute stmt, .ok =>
    -- One writer at a time: the statement waits until no other thread holds the lock.
    if db.txn.all (·.1 = t) then
      match stmt.apply (db.visible t) with
      | .ok written => some (.ok (),{ db with txn := some (t,written) })
      | .error e => some (.error e,{ db with txn := some (t,db.visible t) })
    else none
  | .commit, .ok =>
    match db.txn with
    | some (holder,written) => some (.ok (),if holder = t then ⟨written,none⟩ else db)
    | none => some (.ok (),db)
  | .rollback, .ok => some (.ok (),if db.txn.any (·.1 = t) then { db with txn := none } else db)
  | .rollback, .fail _ => none
  | _, .fail e => some (.error e,db)
  | _, _ => none

inductive FsOp
  | exists (p : Path)
  | makedirs
  | openTrunc (p : Path)
  | write (inode offset : Nat) (bytes : Bytes)
  | readFile (p : Path)
  | remove (p : Path)
  | replace (src dst : Path)
  | copy (src dst : Path)
  | getsize (p : Path)
  | makeDisk (p : Path)

abbrev FsOp.Res : FsOp → Type
  | .exists _ => Bool
  | .openTrunc _ => Nat
  | .readFile _ => Bytes
  | .getsize _ => Nat
  | _ => Unit

def notFound : Exn := .OSError "No such file or directory"

def fsExec (P : Platform) (fs : Fs Path) : (o : FsOp) → Choice → Option (Except Exn o.Res × Fs Path)
  | .exists p, .ok => some (.ok (fs.names p).isSome,fs)
  | .makedirs, .ok => some (.ok (),fs)
  | .openTrunc p, .ok => some (.ok (fs.openTrunc p).1,(fs.openTrunc p).2)
  | .write inode offset bytes, .ok => some (.ok (),fs.write inode offset bytes)
  | .write inode offset bytes, .torn k e => some (.error e,fs.write inode offset (bytes.take k))
  | .readFile p, .ok =>
    match fs.content p with
    | some bytes => some (.ok bytes,fs)
    | none => some (.error notFound,fs)
  | .remove p, .ok => if (fs.names p).isSome then some (.ok (),fs.remove p) else some (.error notFound,fs)
  | .replace src dst, .ok =>
    match fs.replace src dst with
    | some after => some (.ok (),after)
    | none => some (.error notFound,fs)
  | .copy src dst, .ok =>
    match fs.content src with
    | some bytes => some (.ok (),fs.put dst bytes)
    | none => some (.error notFound,fs)
  | .copy src dst, .torn k e =>
    match fs.content src with
    | some bytes => some (.error e,fs.put dst (bytes.take k))
    | none => none
  | .getsize p, .ok =>
    match fs.content p with
    | some bytes => some (.ok bytes.length,fs)
    | none => some (.error notFound,fs)
  | .makeDisk p, .ok => some (.ok (),fs.put p P.emptyDisk)
  | .exists _, .fail _ => none -- `os.path.exists` does not raise
  | _, .fail e => some (.error e,fs)
  | _, _ => none

inductive S3Op
  | put (batch : List (Digest × Bytes))
  | get (h : Digest)

abbrev S3Op.Res : S3Op → Type
  | .put _ => Unit
  | .get _ => Bytes

abbrev Bucket := Digest → Option Bytes

/-- The objects of a batch that were stored. -/
def Bucket.putAll (bucket : Bucket) : List (Digest × Bytes) → List PutOutcome → Bucket
  | (h,comp) :: batch, outcome :: outcomes =>
    Bucket.putAll (if outcome.stored then Function.update bucket h (some comp) else bucket) batch outcomes
  | _, _ => bucket

/-- When no PUT of the batch raises, all objects are stored. Otherwise the first error is
    raised, and PUTs that had not started are cancelled. -/
def s3Exec (bucket : Bucket) : (o : S3Op) → Choice → Option (Except Exn o.Res × Bucket)
  | .put batch, .puts outcomes =>
    if outcomes.length = batch.length ∧ (outcomes.all (·.stored) ∨ outcomes.any (·.raised.isSome)) then
      match outcomes.findSome? PutOutcome.raised with
      | some e => some (.error e,bucket.putAll batch outcomes)
      | none => some (.ok (),bucket.putAll batch outcomes)
    else none
  | .get h, .ok =>
    match bucket h with
    | some comp => some (.ok comp,bucket)
    | none => some (.error (.RuntimeError "S3 GET -> 404"),bucket)
  | .get _, .fail e => some (.error e,bucket)
  | _, _ => none

/-! ## The memory of the daemon -/

/-- A `CAS` object: its parameters (`root` and `s3` say whether they were given) and its
    attributes. -/
structure Cas where
  root : Bool
  block : Nat
  cdc : Bool
  s3 : Bool
  index : List (Digest × Nat)
  pending : List (Digest × Bytes)
  logical : Nat
  stored : Nat
  chunks : Nat

/-- `CAS(root=..., block=4096, s3=s3, bucket=bucket)`. -/
def Cas.fresh (s3 : Bool) : Cas := ⟨true,4096,false,s3,[],[],0,0,0⟩

/-- `h in self.index`. -/
def Cas.knows (store : Cas) (h : Digest) : Bool := store.index.any (·.1 = h)

/-- `LIVE`, `STORE` and `_store_lock`. -/
structure Memory where
  live : List Id
  store : Cas
  lock : Option Nat

inductive MemOp
  | liveGet (iid : Id)
  | liveSet (iid : Id)
  | livePop (iid : Id)
  | liveKeys
  | store
  | update (f : Cas → Cas)
  | acquire
  | release

abbrev MemOp.Res : MemOp → Type
  | .liveGet _ => Bool
  | .livePop _ => Bool
  | .liveKeys => List Id
  | .store => Cas
  | _ => Unit

def memExec (t : Nat) (m : Memory) : (o : MemOp) → Choice → Option (Except Exn o.Res × Memory)
  | .liveGet iid, .ok => some (.ok (m.live.contains iid),m)
  | .liveSet iid, .ok =>
    some (.ok (),{ m with live := if m.live.contains iid then m.live else m.live ++ [iid] })
  | .livePop iid, .ok => some (.ok (m.live.contains iid),{ m with live := m.live.filter (· ≠ iid) })
  | .liveKeys, .ok => some (.ok m.live,m)
  | .store, .ok => some (.ok m.store,m)
  | .update f, .ok => some (.ok (),{ m with store := f m.store })
  | .acquire, .ok => if m.lock.isNone then some (.ok (),{ m with lock := some t }) else none
  | .release, .ok => some (.ok (),{ m with lock := none })
  | _, _ => none

inductive Phase
  | spawned
  | running
  | paused
  | dead
  deriving DecidableEq

/-- A Firecracker process: the guest's memory and device state as bytes, and the guest. -/
structure Vm where
  phase : Phase
  mem : Bytes
  dev : Bytes
  guest : Guest

/-- The processes by the instance they were started for, and the guest that each device-state
    file freezes together with its memory image. -/
structure Hypervisor where
  vm : Id → Option Vm
  saved : Path → Option Guest

inductive VmOp
  | spawn (iid : Id)
  | start (iid : Id)
  | load (iid : Id) (snap mem : Path)
  | pause (iid : Id)
  | create (iid : Id) (snap mem : Path)
  | resume (iid : Id)
  | kill (iid : Id)
  | connect (iid : Id) (line : Line)
  | receive (iid : Id) (conn : Nat)

abbrev VmOp.Res : VmOp → Type
  | .connect _ _ => Nat
  | .receive _ _ => Json
  | _ => Unit

def Hypervisor.set (hyp : Hypervisor) (iid : Id) (vm : Vm) : Hypervisor :=
  { hyp with vm := Function.update hyp.vm iid (some vm) }

/-- The guest of a restored VM: its open connections are reset. -/
def restored (g : Guest) : Guest := { g with inbox := [], replies := [] }

def apiError : Exn := .RuntimeError "firecracker API error"

/-- A call whose effect took place returns, or raises because its answer was lost. -/
def answered : Choice → Option (Except Exn Unit)
  | .ok => some (.ok ())
  | .torn _ e => some (.error e)
  | _ => none

/-- `PATCH /vm {state: ...}`: without effect when the VM is already in that state. -/
def setPhase (fs : Fs Path) (hyp : Hypervisor) (iid : Id) (phase : Phase) (r : Except Exn Unit) :
    Except Exn Unit × Fs Path × Hypervisor :=
  match hyp.vm iid with
  | some vm =>
    if vm.phase = .running ∨ vm.phase = .paused then (r,fs,hyp.set iid { vm with phase })
    else (.error apiError,fs,hyp)
  | none => (.error apiError,fs,hyp)

def vmExec (fs : Fs Path) (hyp : Hypervisor) :
    (o : VmOp) → Choice → Option (Except Exn o.Res × Fs Path × Hypervisor)
  | .kill _, .fail _ => none
  | _, .fail e => some (.error e,fs,hyp)
  -- `torn`: the process was started, but its socket never came up.
  | .spawn iid, c => (answered c).map fun r => (r,fs,hyp.set iid ⟨.spawned,[],[],Guest.booting⟩)
  | .start iid, .boot mem dev =>
    match hyp.vm iid with
    | some vm => if vm.phase = .spawned then some (.ok (),fs,hyp.set iid ⟨.running,mem,dev,Guest.booting⟩) else none
    | none => none
  -- The guest was started, but the answer of `InstanceStart` was lost.
  | .start iid, .bootLost mem dev e =>
    match hyp.vm iid with
    | some vm => if vm.phase = .spawned then some (.error e,fs,hyp.set iid ⟨.running,mem,dev,Guest.booting⟩) else none
    | none => none
  | .load iid snap mem, c =>
    (answered c).map fun r =>
      match hyp.vm iid, fs.content snap, fs.content mem, hyp.saved snap with
      | some vm, some dev, some image, some guest =>
        if vm.phase = .spawned then (r,fs,hyp.set iid ⟨.running,image,dev,restored guest⟩)
        else (.error apiError,fs,hyp)
      | _, _, _, _ => (.error apiError,fs,hyp)
  | .pause iid, c => (answered c).map (setPhase fs hyp iid .paused)
  | .resume iid, c => (answered c).map (setPhase fs hyp iid .running)
  -- Refused unless the VM is paused.
  | .create iid snap mem, .ok =>
    match hyp.vm iid with
    | some vm =>
      if vm.phase = .paused then
        some (.ok (),(fs.put snap vm.dev).put mem vm.mem,
          { hyp with saved := Function.update hyp.saved snap (some vm.guest) })
      else some (.error apiError,fs,hyp)
    | none => some (.error apiError,fs,hyp)
  | .create iid snap mem, .torn k e =>
    match hyp.vm iid with
    | some vm =>
      if vm.phase = .paused then some (.error e,(fs.put snap (vm.dev.take k)).put mem (vm.mem.take k),hyp) else none
    | none => none
  | .kill iid, .ok =>
    match hyp.vm iid with
    | some vm => some (.ok (),fs,hyp.set iid { vm with phase := .dead })
    | none => some (.ok (),fs,hyp)
  | .connect iid line, .ok =>
    match hyp.vm iid with
    | some vm =>
      if vm.phase = .running ∧ vm.guest.up then
        some (.ok vm.guest.nextConn,fs,hyp.set iid { vm with guest :=
          { vm.guest with inbox := vm.guest.inbox ++ [(vm.guest.nextConn,line)], nextConn := vm.guest.nextConn + 1 } })
      else none
    | none => none
  -- The request never reaches the agent.
  | .connect iid _, .lost =>
    match hyp.vm iid with
    | some vm =>
      some (.ok vm.guest.nextConn,fs,
        hyp.set iid { vm with guest := { vm.guest with nextConn := vm.guest.nextConn + 1 } })
    | none => none
  | .receive iid conn, .ok =>
    match hyp.vm iid with
    | some vm =>
      match vm.guest.replies.find? (·.1 = conn) with
      | some (_,reply) => some (.ok reply,fs,hyp)
      | none => none
    | none => none
  -- The connection is closed before a reply.
  | .receive _ _, .eof => some (.ok (.obj []),fs,hyp)
  | _, _ => none

/-- `isDir` and `follow` are what the kernel of the host finds through a link or a special file of the layer that
    is mounted for a snapshot: `os.walk` asks whether it is a directory, and `open` and `getsize` read what is there. -/
inductive SysOp
  | newId
  | token
  | now
  | sleep
  | beforeDeadline
  | isDir (sid : Id) (path : List Diff.Str)
  | follow (sid : Id) (path : List Diff.Str)

abbrev SysOp.Res : SysOp → Type
  | .newId => Id
  | .token => String
  | .now => Time
  | .beforeDeadline => Bool
  | .sleep => Unit
  | .isDir _ _ => Bool
  | .follow _ _ => Diff.Followed

/-- `used` lists the ids given out so far, each with the thread that asked for it. -/
structure World where
  db : Db
  fs : Fs Path
  bucket : Bucket
  mem : Memory
  hyp : Hypervisor
  used : List (Id × Nat)

/-- The thread that was given the id. -/
def World.owner (w : World) (id : Id) : Option Nat := (w.used.find? (·.1 = id)).map (·.2)

/-- What `init_db` leaves in an empty KLADOS_HOME: a default project and nothing else. -/
def World.initial (root : ProjectRow) (s3 : Bool) : World :=
  ⟨⟨⟨[root],[],[],[],[]⟩,none⟩,Fs.empty,fun _ => none,⟨[],Cas.fresh s3,none⟩,⟨fun _ => none,fun _ => none⟩,[]⟩

inductive Op
  | db (o : DbOp)
  | fs (o : FsOp)
  | s3 (o : S3Op)
  | mem (o : MemOp)
  | vm (o : VmOp)
  | sys (o : SysOp)

abbrev Op.Res : Op → Type
  | .db o => o.Res
  | .fs o => o.Res
  | .s3 o => o.Res
  | .mem o => o.Res
  | .vm o => o.Res
  | .sys o => o.Res

abbrev sig : Sig := ⟨Op,Op.Res⟩

/-- The programs of the daemon. -/
abbrev KProg := Prog sig Exn

def sysExec (t : Nat) (used : List (Id × Nat)) : (o : SysOp) → Choice → Option (Except Exn o.Res × List (Id × Nat))
  -- `uuid4` does not repeat itself.
  | .newId, .id value => if used.any (·.1 = value) then none else some (.ok value,(value,t) :: used)
  | .token, .text value => some (.ok value,used)
  | .now, .time value => some (.ok value,used)
  | .sleep, .ok => some (.ok (),used)
  | .beforeDeadline, .flag value => some (.ok value,used)
  -- The files of the host are not known here; the open of a FIFO that nobody writes does not return.
  | .isDir _ _, .flag value => some (.ok value,used)
  | .follow _ _, .found .never => none
  | .follow _ _, .found what => some (.ok what,used)
  | _, _ => none

/-- One operation of thread `t`. -/
def exec (P : Platform) (t : Nat) : (o : Op) → Choice → World → Option (Except Exn o.Res × World)
  | .db o, c, w => (w.db.exec t o c).map fun (r,db) => (r,{ w with db })
  | .fs o, c, w => (fsExec P w.fs o c).map fun (r,fs) => (r,{ w with fs })
  | .s3 o, c, w => (s3Exec w.bucket o c).map fun (r,bucket) => (r,{ w with bucket })
  | .mem o, c, w => (memExec t w.mem o c).map fun (r,mem) => (r,{ w with mem })
  | .vm o, c, w => (vmExec w.fs w.hyp o c).map fun (r,fs,hyp) => (r,{ w with fs, hyp })
  | .sys o, c, w => (sysExec t w.used o c).map fun (r,used) => (r,{ w with used })

inductive Move
  | guestMemory (iid : Id) (mem dev : Bytes)
  | guestDisk (iid : Id) (bytes : Bytes)
  | agentUp (iid : Id)
  | agent (iid : Id) (choice : Agent.Choice)
  | workload (iid : Id) (move : Agent.WorkMove)
  | vmDies (iid : Id)
  | delete (p : Path)

/-- A step of the guest of `iid`, which happens only while its VM runs. -/
def World.guestStep (w : World) (iid : Id) (f : Vm → Option Vm) : Option World :=
  match w.hyp.vm iid with
  | some vm => if vm.phase = .running then (f vm).map fun vm' => { w with hyp := w.hyp.set iid vm' } else none
  | none => none

def World.move (P : Platform) (w : World) : Move → Option World
  | .guestMemory iid mem dev => w.guestStep iid fun vm => some { vm with mem, dev }
  | .guestDisk iid bytes =>
    match w.hyp.vm iid with
    | some vm =>
      if vm.phase = .running ∧ (w.fs.names (.scratch iid)).isSome then some { w with fs := w.fs.put (.scratch iid) bytes }
      else none
    | none => none
  | .agentUp iid => w.guestStep iid fun vm => if vm.guest.up then none else some { vm with guest := vm.guest.init }
  | .agent iid choice => w.guestStep iid fun vm => (vm.guest.turn P choice).map fun guest => { vm with guest }
  | .workload iid move => w.guestStep iid fun vm => (vm.guest.workload move).map fun guest => { vm with guest }
  | .vmDies iid => (w.hyp.vm iid).map fun vm => { w with hyp := w.hyp.set iid { vm with phase := .dead } }
  | .delete p =>
    -- An operator may delete hot images and cached chunks.
    match p with
    | .chunk _ | .snap _ .mem => some { w with fs := w.fs.remove p }
    | _ => none

/-- A stop and a start of the daemon: its memory is lost, an open transaction is rolled
    back, and `init_db` finds its tables and its projects. A stop inside a call is a stop after
    the call has failed inside. -/
def World.reboot (w : World) : World :=
  { w with db := { w.db with txn := none },
           mem := ⟨[],Cas.fresh w.mem.store.s3,none⟩ }

end Klados
