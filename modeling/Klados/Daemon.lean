import Klados.Engine

/-!
The daemon as a machine: every request and every metering tick is a program on a thread of
its own, the operations fail and return as their choices say, guests and processes move in
between, and a reboot ends all threads.
-/
namespace Klados
open Effects

/-- What starts a thread of the daemon. -/
inductive Req
  | create_run (project_id : Id) (image_label : Json)
  | snapshot_instance (iid : Id) (label : Json)
  | fork_snapshot (sid : Id) (n : Int)
  | destroy_instance (iid : Id)
  | timeline (run_id : Id)
  | meter_tick (dt : Rat)

def Req.body (P : Platform) : Req → KProg Json
  | .create_run project_id image_label => Klados.create_run P project_id image_label
  | .snapshot_instance iid label => Klados.snapshot_instance P iid label
  | .fork_snapshot sid n => Klados.fork_snapshot P sid n
  | .destroy_instance iid => Klados.destroy_instance iid
  | .timeline run_id => Klados.timeline run_id
  | .meter_tick dt => Klados.meter_tick dt

def daemon (P : Platform) : Machine sig Exn Json Req World Choice Move where
  exec t op choice world := exec P t op choice world
  body := Req.body P
  env move world := world.move P move
  reboot := World.reboot

abbrev KPool := Pool sig Exn Json Req World

/-- The next calls of thread `t`. -/
def calls (t : Nat) (choices : List Choice) : List (Action Req Choice Move) := choices.map (.call t)

/-- A `create_run` that goes well; nothing answers the PING in time. -/
def createRun (rid iid : Id) (mem dev : Bytes) : List Choice :=
  [.id rid,.id iid,.time 0,.ok,.time 0,.ok,.ok,.ok,.ok,.ok,.ok,.boot mem dev,.ok,.flag false]

/-- A `snapshot_instance` up to the resume, where the QUIESCE is lost. -/
def takeSnapshot (sid : Id) : List Choice :=
  [.ok,.ok,.id sid,.ok,.ok,.lost,.eof,.ok,.ok,.ok,.ok,.ok,.ok,.ok]

/-- The rest of it, for an image of one new block and without S3. -/
def recordSnapshot : List Choice :=
  List.replicate 17 .ok ++ [.time 1,.ok,.ok,.ok]

/-- The calls of a fork of one child up to its restore, when the chunk is cached. -/
def forkOne (iid : Id) : List Choice :=
  List.replicate 10 .ok ++ [.id iid,.ok,.ok,.ok,.ok,.ok]

/-- The rest of the pass for one child, whose guest does not answer. -/
def recordChild : List Choice := [.ok,.flag false,.time 2,.lost,.eof,.time 3,.ok]

/-- The part of the world that an operation works on. -/
inductive Kind
  | db
  | fs
  | disk
  | s3
  | store
  | live
  | vm
  | capture
  | agent
  | sys
  deriving DecidableEq

/-- Copies of disks, and the question whether an instance has one, are told apart from the
    other file operations. -/
def FsOp.kind : FsOp → Kind
  | .copy _ _ | .exists (.scratch _) => .disk
  | _ => .fs

theorem FsOp.kind_cases (o : FsOp) : o.kind = .fs ∨ o.kind = .disk := by
  unfold FsOp.kind
  split
  · exact .inr rfl
  · exact .inr rfl
  · exact .inl rfl

def MemOp.kind : MemOp → Kind
  | .liveGet _ | .liveSet _ | .livePop _ | .liveKeys => .live
  | .store | .update _ | .acquire | .release => .store

def VmOp.kind : VmOp → Kind
  | .connect _ _ | .receive _ _ => .agent
  | .pause _ | .create _ _ _ | .resume _ => .capture
  | .spawn _ | .start _ | .load _ _ _ | .kill _ => .vm

def Op.kind : Op → Kind
  | .db _ => .db
  | .fs o => o.kind
  | .s3 _ => .s3
  | .mem o => o.kind
  | .vm o => o.kind
  | .sys _ => .sys

/-- The program calls operations of these kinds only. -/
abbrev Uses (kinds : List Kind) {α : Type} (program : KProg α) : Prop :=
  program.Only fun op : Op => op.kind ∈ kinds

open Prog (Only)

variable {kinds : List Kind}

theorem Uses.mono {more : List Kind} {α : Type} {program : KProg α} (uses : Uses kinds program)
    (within : kinds ⊆ more) : Uses more program :=
  Only.mono (fun _ listed => within listed) uses

/-- The program calls no operation of this kind. -/
abbrev Avoids (kind : Kind) {α : Type} (program : KProg α) : Prop := program.Only fun op : Op => op.kind ≠ kind

theorem Uses.avoids {α : Type} {program : KProg α} (uses : Uses kinds program) {kind : Kind}
    (absent : kind ∉ kinds) : Avoids kind program := by
  refine Only.mono ?_ uses
  intro op listed same
  exact absent (same ▸ listed)

theorem uses_fs {o : FsOp} (own : o.kind = .fs) (listed : .fs ∈ kinds) : Uses kinds (fsCall o) :=
  Only.perform (show o.kind ∈ kinds from own ▸ listed)
theorem uses_exists (file : .fs ∈ kinds) (disk : .disk ∈ kinds) (p : Path) : Uses kinds (fsCall (.exists p)) := by
  refine Only.perform ?_
  cases p <;> assumption
theorem uses_copy (listed : .disk ∈ kinds) (src dst : Path) : Uses kinds (fsCall (.copy src dst)) := Only.perform listed
theorem uses_s3 (listed : .s3 ∈ kinds) (o : S3Op) : Uses kinds (s3Call o) := Only.perform listed
theorem uses_mem (kind : Kind) {o : MemOp} (own : o.kind = kind) (listed : kind ∈ kinds) : Uses kinds (memCall o) :=
  Only.perform (show o.kind ∈ kinds from own ▸ listed)
theorem uses_vm (kind : Kind) {o : VmOp} (own : o.kind = kind) (listed : kind ∈ kinds) : Uses kinds (vmCall o) :=
  Only.perform (show o.kind ∈ kinds from own ▸ listed)

/-- What the chunk store works on. -/
abbrev storage : List Kind := [.fs,.s3,.store]

/-- What an exchange with the guest agent works on. -/
abbrev talk : List Kind := [.agent,.sys]

theorem uses_write_file (p : Path) (bytes : Bytes) : Uses storage (write_file p bytes) :=
  Only.bind (uses_fs rfl (by decide)) fun _ => uses_fs rfl (by decide)

theorem uses_store_chunk (h : Digest) (comp : Bytes) : Uses storage (store_chunk h comp) :=
  Only.bind (uses_fs rfl (by decide)) fun _ => Only.bind (uses_fs rfl (by decide)) fun _ => Only.when (uses_write_file _ _)

theorem uses_put_new (P : Platform) (store : Cas) (h : Digest) (blk : Bytes) : Uses storage (put_new P store h blk) :=
  Only.bind (uses_mem .store rfl (by decide)) fun _ => Only.bind (Only.when (uses_store_chunk _ _)) fun _ =>
    Only.when (uses_mem .store rfl (by decide))

theorem uses_put_block (P : Platform) (blk : Bytes) : Uses storage (put_block P blk) :=
  Only.bind (uses_mem .store rfl (by decide)) fun _ => Only.bind (uses_mem .store rfl (by decide)) fun _ =>
    Only.bind (Only.when (uses_put_new _ _ _ _)) fun _ => trivial

theorem uses_put_bytes (P : Platform) (data : Bytes) : Uses storage (put_bytes P data) :=
  Only.bind (uses_mem .store rfl (by decide)) fun _ => Only.each fun _ => uses_put_block _ _

theorem uses_put_file (P : Platform) (path : Path) : Uses storage (put_file P path) :=
  Only.bind (uses_fs rfl (by decide)) fun _ => Only.bind (Only.each fun _ => uses_put_bytes _ _) fun _ => trivial

theorem uses_flush_s3 : Uses storage flush_s3 := by
  refine Only.bind (uses_mem .store rfl (by decide)) fun store => ?_
  split
  · trivial
  · exact Only.bind (uses_mem .store rfl (by decide)) fun _ => Only.bind (uses_s3 (by decide) _) fun _ => trivial

theorem uses_decompress (P : Platform) (bytes : Bytes) : Uses storage (decompress P bytes) := by
  unfold decompress
  split <;> trivial

theorem uses_get_cold (P : Platform) (store : Cas) (h : Digest) : Uses storage (get_cold P store h) := by
  unfold get_cold
  split
  · exact Only.bind (uses_s3 (by decide) _) fun _ =>
      Only.bind (Only.when (Only.bind (uses_fs rfl (by decide)) fun _ => uses_write_file _ _)) fun _ => uses_decompress _ _
  · trivial

theorem uses_isCached (store : Cas) (h : Digest) : Uses storage (isCached store h) := by
  unfold isCached
  split
  · exact uses_fs rfl (by decide)
  · trivial

theorem uses_get (P : Platform) (h : Digest) : Uses storage (get P h) := by
  refine Only.bind (uses_mem .store rfl (by decide)) fun store => Only.bind (uses_isCached _ _) fun hot => ?_
  split
  · exact Only.bind (uses_fs rfl (by decide)) fun _ => uses_decompress _ _
  · exact uses_get_cold _ _ _

theorem uses_locked {α : Type} {body : KProg α} (uses : Uses storage body) : Uses storage (locked body) :=
  Only.bind (uses_mem .store rfl (by decide)) fun _ =>
    Only.bind (Only.catching uses fun _ => Only.bind (uses_mem .store rfl (by decide)) fun _ => trivial) fun _ =>
      Only.bind (uses_mem .store rfl (by decide)) fun _ => trivial

theorem uses_chunk_mem (P : Platform) (sid : Id) (mem_path : Path) : Uses storage (chunk_mem P sid mem_path) := by
  refine Only.bind (uses_locked ?_) fun hashes => ?_
  · exact Only.bind (uses_put_file _ _) fun _ => Only.bind uses_flush_s3 fun _ => trivial
  · exact Only.bind (uses_write_file _ _) fun _ => Only.bind (uses_fs rfl (by decide)) fun _ =>
      Only.bind (uses_fs rfl (by decide)) fun _ => trivial

theorem uses_write_chunks (P : Platform) (out : Nat) (hashes : List Digest) (offset : Nat) :
    Uses storage (write_chunks P out offset hashes) := by
  induction hashes generalizing offset with
  | nil => trivial
  | cons h rest ih => exact Only.bind (uses_get _ _) fun _ => Only.bind (uses_fs rfl (by decide)) fun _ => ih _

theorem uses_load_manifest (P : Platform) (bytes : Bytes) : Uses storage (load_manifest P bytes) := by
  unfold load_manifest
  split <;> trivial

theorem uses_isCold (sid : Id) : Uses storage (isCold sid) := by
  refine Only.bind (uses_fs rfl (by decide)) fun hot => ?_
  split
  · trivial
  · exact uses_fs rfl (by decide)

theorem uses_reconstruct_mem (P : Platform) (sid : Id) : Uses storage (reconstruct_mem P sid) := by
  refine Only.bind (uses_isCold _) fun cold => Only.bind (Only.when ?_) fun _ => trivial
  exact Only.bind (uses_fs rfl (by decide)) fun _ => Only.bind (uses_load_manifest _ _) fun _ =>
    Only.bind (uses_fs rfl (by decide)) fun _ => Only.bind (uses_write_chunks _ _ _ _) fun _ => uses_fs rfl (by decide)

/-- The program exchanges messages with the guest agent and waits, and asks for no new id. -/
abbrev Talks {α : Type} (program : KProg α) : Prop := program.Only fun op : Op => op.kind ∈ talk ∧ op ≠ .sys .newId

theorem Talks.uses {α : Type} {program : KProg α} (talks : Talks program) : Uses talk program :=
  Only.mono (fun _ allowed => allowed.1) talks

theorem talks_vm {o : VmOp} (own : o.kind = .agent) : Talks (vmCall o) :=
  Only.perform ⟨show o.kind ∈ talk from own ▸ by decide,by simp⟩

theorem talks_sys {o : SysOp} (other : o ≠ .newId) : Talks (sysCall o) :=
  Only.perform ⟨show Kind.sys ∈ talk by decide,fun same => other (Op.sys.inj same)⟩

theorem talks_vsock_request (iid : Id) (payload : Json) : Talks (vsock_request iid payload) :=
  Only.bind (talks_vm rfl) fun _ => talks_vm rfl

theorem uses_status (r : Json) : Uses kinds (status r) := by
  unfold status
  split <;> trivial

theorem talks_status (r : Json) : Talks (status r) := by
  unfold status
  split <;> trivial

theorem talks_wait_agent (iid : Id) (polls : Nat) : Talks (wait_agent iid polls) := by
  induction polls with
  | zero => trivial
  | succ polls ih =>
    refine Only.bind (talks_sys (by simp)) fun early => ?_
    split
    · trivial
    · refine Only.bind (Only.catching ?_ fun _ => trivial) fun pong => ?_
      · exact Only.bind (talks_vsock_request _ _) fun _ => Only.bind (talks_status _) fun _ => trivial
      · split
        · trivial
        · exact Only.bind (talks_sys (by simp)) fun _ => ih

theorem uses_wait_agent (iid : Id) (polls : Nat) : Uses talk (wait_agent iid polls) := (talks_wait_agent iid polls).uses

theorem uses_fresh_scratch (iid : Id) : Uses [.fs,.disk] (fresh_scratch iid) :=
  Only.bind (uses_exists (by decide) (by decide) _) fun _ => Only.when (uses_fs rfl (by decide))

theorem uses_provide_scratch (iid : Id) (scratch_src : Option Path) :
    Uses [.fs,.disk] (provide_scratch iid scratch_src) := by
  cases scratch_src with
  | none => exact uses_fresh_scratch iid
  | some src =>
    refine Only.bind (uses_exists (by decide) (by decide) _) fun there => ?_
    split
    · exact uses_copy (by decide) _ _
    · exact uses_fresh_scratch iid

theorem uses_start_vm (iid : Id) (load_from : Option (Path × Path)) : Uses [.vm] (start_vm iid load_from) := by
  cases load_from <;> exact uses_vm .vm rfl (by decide)

theorem uses_boot_vm (iid : Id) (load_from : Option (Path × Path)) (scratch_src : Option Path) :
    Uses [.fs,.disk,.live,.vm] (boot_vm iid load_from scratch_src) :=
  Only.bind (uses_fs rfl (by decide)) fun _ => Only.bind ((uses_provide_scratch _ _).mono (by decide)) fun _ =>
    Only.bind (uses_vm .vm rfl (by decide)) fun _ => Only.bind ((uses_start_vm _ _).mono (by decide)) fun _ =>
      uses_mem .live rfl (by decide)

/-- Binding a parameter calls nothing. -/
theorem only_bindText {p : Op → Prop} (P : Platform) (value : Json) : (bindText P value).Only p := by
  cases value with
  | null | bool | real | str | arr | obj => trivial
  | int value =>
    rw [bindText]
    split <;> trivial

theorem uses_bindText (P : Platform) (value : Json) : Uses [] (bindText P value) := only_bindText P value

theorem talks_quiesce (iid : Id) : Talks (quiesce iid) :=
  Only.catching (Only.bind (talks_vsock_request _ _) fun _ => talks_sys (by simp)) fun _ => trivial

theorem uses_quiesce (iid : Id) : Uses talk (quiesce iid) := (talks_quiesce iid).uses

theorem uses_seal_scratch (iid sid : Id) : Uses [.fs,.disk] (seal_scratch iid sid) :=
  Only.bind (uses_exists (by decide) (by decide) _) fun _ => Only.when (uses_copy (by decide) _ _)

theorem talks_handshake (P : Platform) (iid : Id) (i : Nat) (n : Int) : Talks (handshake P iid i n) :=
  Only.catching (Only.bind (talks_wait_agent _ _) fun _ => Only.bind (talks_sys (by simp)) fun _ =>
    Only.bind (talks_vsock_request _ _) fun _ => Only.bind (talks_status _) fun _ => trivial) fun _ => trivial

theorem uses_handshake (P : Platform) (iid : Id) (i : Nat) (n : Int) : Uses talk (handshake P iid i n) :=
  (talks_handshake P iid i n).uses

/-! ## Requests that take no snapshot -/

/-- An operation that only `snapshot_instance` calls: the VM is paused, captured and resumed,
    and the row is inserted. -/
def Op.isCapture : Op → Bool
  | .vm o => o.kind = .capture
  | .db (.execute (.insertSnapshot _)) => true
  | _ => false

/-- The program takes no part in a snapshot. -/
abbrev Plain {α : Type} (program : KProg α) : Prop := program.Only fun op : Op => op.isCapture = false

theorem isCapture_of_kind {op : Op} (db : op.kind ≠ .db) (capture : op.kind ≠ .capture) : op.isCapture = false := by
  cases op with
  | db o => exact absurd rfl db
  | vm o =>
    have other : o.kind ≠ .capture := capture
    simp [Op.isCapture,other]
  | fs o | s3 o | mem o | sys o => rfl

theorem Uses.plain {α : Type} {program : KProg α} (uses : Uses kinds program) (db : .db ∉ kinds)
    (capture : .capture ∉ kinds) : Plain program := by
  refine Only.mono ?_ uses
  intro op listed
  exact isCapture_of_kind (fun same => db (same ▸ listed)) fun same => capture (same ▸ listed)

theorem plain_db {o : DbOp} (other : (Op.db o).isCapture = false) : Plain (dbCall o) := Only.perform other

theorem plain_fs (o : FsOp) : Plain (fsCall o) := Only.perform rfl
theorem plain_sys (o : SysOp) : Plain (sysCall o) := Only.perform rfl
theorem plain_mem (o : MemOp) : Plain (memCall o) := Only.perform rfl

/-- What each request calls on the tables, on `LIVE` and on the processes; any may use files, the chunk
    store, ids and clocks. -/
def Req.calls : Req → Op → Bool
  | _, .fs _ | _, .s3 _ | _, .sys _ => true
  | _, .mem .store | _, .mem (.update _) | _, .mem .acquire | _, .mem .release => true
  | .create_run _ _, .db (.execute (.insertRun _)) | .create_run _ _, .db (.execute (.insertInstance _)) => true
  | .create_run _ _, .db .commit | .create_run _ _, .db .rollback | .create_run _ _, .mem (.liveSet _) => true
  | .create_run _ _, .vm o => o.kind = .vm || o.kind = .agent
  | .snapshot_instance _ _, .mem (.liveGet _) | .snapshot_instance _ _, .db .read => true
  | .snapshot_instance _ _, .db (.execute (.insertSnapshot _)) => true
  | .snapshot_instance _ _, .db (.execute (.setSnapshot _ _)) => true
  | .snapshot_instance _ _, .db .commit | .snapshot_instance _ _, .db .rollback => true
  | .snapshot_instance _ _, .vm o => o.kind = .capture || o.kind = .agent
  | .fork_snapshot _ _, .db .read | .fork_snapshot _ _, .db (.execute (.insertInstance _)) => true
  | .fork_snapshot _ _, .db .commit | .fork_snapshot _ _, .db .rollback | .fork_snapshot _ _, .mem (.liveSet _) => true
  | .fork_snapshot _ _, .vm o => o.kind = .vm || o.kind = .agent
  | .destroy_instance _, .mem (.livePop _) | .destroy_instance _, .vm (.kill _) => true
  | .destroy_instance _, .db (.execute (.setDestroyed _)) => true
  | .destroy_instance _, .db .commit | .destroy_instance _, .db .rollback => true
  | .timeline _, .db .read => true
  | .meter_tick _, .mem .liveKeys | .meter_tick _, .db .read => true
  | .meter_tick _, .db (.execute (.accrue _ _ _ _)) => true
  | .meter_tick _, .db .commit | .meter_tick _, .db .rollback => true
  | _, _ => false

/-- The program calls what the request may call. -/
abbrev PartOf (req : Req) {α : Type} (program : KProg α) : Prop := program.Only fun op : Op => req.calls op = true

section
variable {req : Req}

theorem part_call {op : Op} (calls : req.calls op = true) : PartOf req (Prog.perform (S := sig) op : KProg op.Res) :=
  Only.perform calls

theorem part_files {op : Op} (listed : op.kind ∈ [Kind.fs,.disk,.s3,.store,.sys]) : req.calls op = true := by
  cases op with
  | fs o | s3 o | sys o => cases req <;> rfl
  | db o => simp [Op.kind] at listed
  | mem o => cases o <;> first | cases req <;> rfl | simp [Op.kind,MemOp.kind] at listed
  | vm o => cases o <;> simp [Op.kind,VmOp.kind] at listed

theorem Uses.part {kinds : List Kind} {α : Type} {program : KProg α} (uses : Uses kinds program)
    (within : kinds ⊆ [Kind.fs,.disk,.s3,.store,.sys]) : PartOf req program :=
  Only.mono (fun _ listed => part_files (within listed)) uses

theorem Talks.part {α : Type} {program : KProg α} (talks : Talks program)
    (calls : ∀ o : VmOp, o.kind = .agent → req.calls (.vm o) = true) : PartOf req program := by
  refine Only.mono ?_ talks
  rintro op ⟨listed,_⟩
  rcases List.mem_cons.mp listed with agent | sys
  · cases op with
    | vm o => exact calls o agent
    | fs o => rcases o.kind_cases with kind | kind <;> simp [Op.kind,kind] at agent
    | mem o => cases o <;> cases agent
    | db | s3 | sys => cases agent
  · refine part_files ?_
    rw [List.mem_singleton.mp sys]
    decide

theorem part_connection {α : Type} {body : KProg α} (rollback : req.calls (.db .rollback) = true) (part : PartOf req body) :
    PartOf req (connection body) :=
  Only.catching part fun _ => Only.bind (part_call rollback) fun _ => trivial

end

theorem part_boot_vm {req : Req} (iid : Id) (load_from : Option (Path × Path)) (scratch_src : Option Path)
    (vm : ∀ o : VmOp, o.kind = .vm → req.calls (.vm o) = true) (live : req.calls (.mem (.liveSet iid)) = true) :
    PartOf req (boot_vm iid load_from scratch_src) := by
  refine Only.bind (part_call (part_files (by decide))) fun _ => ?_
  refine Only.bind ((uses_provide_scratch _ _).part (by decide)) fun _ => ?_
  refine Only.bind (part_call (vm _ rfl)) fun _ => Only.bind ?_ fun _ => part_call live
  cases load_from with
  | none => exact part_call (vm _ rfl)
  | some files => exact part_call (vm _ rfl)

theorem part_create_run (P : Platform) (project_id : Id) (image_label : Json) :
    PartOf (.create_run project_id image_label) (create_run P project_id image_label) := by
  refine Only.bind (part_call rfl) fun rid => Only.bind (part_call rfl) fun iid => ?_
  refine Only.bind (part_connection rfl ?_) fun _ => ?_
  · refine Only.bind (part_call rfl) fun _ => Only.bind ((uses_bindText P _).part (by decide)) fun _ => ?_
    exact Only.bind (part_call rfl) fun _ => Only.bind (part_call rfl) fun _ => Only.bind (part_call rfl) fun _ => part_call rfl
  · refine Only.bind (part_boot_vm _ _ _ (fun o own => by simp [Req.calls,own]) rfl) fun _ => ?_
    exact Only.bind ((talks_wait_agent _ _).part fun o own => by simp [Req.calls,own]) fun _ => trivial

theorem part_snapshot_instance (P : Platform) (iid : Id) (label : Json) :
    PartOf (.snapshot_instance iid label) (snapshot_instance P iid label) := by
  refine Only.bind (part_call rfl) fun live => ?_
  split
  · trivial
  refine part_connection rfl (Only.bind (part_call rfl) fun T => ?_)
  split
  · trivial
  refine Only.bind (part_call rfl) fun sid => Only.bind (part_call rfl) fun _ => Only.bind (part_call rfl) fun _ => ?_
  refine Only.bind ((talks_quiesce _).part fun o own => by simp [Req.calls,own]) fun _ => ?_
  refine Only.bind (part_call rfl) fun _ => Only.bind (part_call rfl) fun _ => Only.bind (part_call rfl) fun _ => ?_
  refine Only.bind ((uses_seal_scratch _ _).part (by decide)) fun _ => Only.bind (part_call rfl) fun _ => ?_
  refine Only.bind ((uses_chunk_mem P _ _).part (by decide)) fun logical => ?_
  refine Only.bind (part_call rfl) fun state => Only.bind (part_call rfl) fun now => ?_
  refine Only.bind ((uses_bindText P _).part (by decide)) fun label => ?_
  exact Only.bind (part_call rfl) fun _ => Only.bind (part_call rfl) fun _ => Only.bind (part_call rfl) fun _ => trivial

theorem part_fork_snapshot (P : Platform) (sid : Id) (n : Int) : PartOf (.fork_snapshot sid n) (fork_snapshot P sid n) := by
  refine part_connection rfl (Only.bind (part_call rfl) fun T => ?_)
  split
  · trivial
  refine Only.bind ((uses_reconstruct_mem P _).part (by decide)) fun _ => ?_
  refine Only.bind (Only.each fun i => ?_) fun _ => Only.bind (part_call rfl) fun _ => trivial
  refine Only.bind (part_call rfl) fun iid => ?_
  refine Only.bind (part_boot_vm _ _ _ (fun o own => by simp [Req.calls,own]) rfl) fun _ => ?_
  refine Only.bind ((talks_handshake P _ _ _).part fun o own => by simp [Req.calls,own]) fun branch => ?_
  exact Only.bind (part_call rfl) fun _ => Only.bind (part_call rfl) fun _ => trivial

theorem part_meter_rows (dt dt' : Rat) (live : List Id) (accr : List (Id × Rat × Rat)) :
    PartOf (.meter_tick dt) (meter_rows dt' live accr) := by
  induction live generalizing accr with
  | nil => trivial
  | cons iid rest ih =>
    refine Only.bind (part_call rfl) fun T => ?_
    split
    · exact ih accr
    · exact ih _

/-- Every request calls what it may. -/
theorem part_body (P : Platform) (req : Req) : PartOf req (req.body P) := by
  cases req with
  | create_run project_id image_label => exact part_create_run P project_id image_label
  | snapshot_instance iid label => exact part_snapshot_instance P iid label
  | fork_snapshot sid n => exact part_fork_snapshot P sid n
  | destroy_instance iid =>
    refine Only.bind (part_call rfl) fun live => Only.bind (Only.when (part_call rfl)) fun _ => ?_
    exact Only.bind (part_connection rfl (Only.bind (part_call rfl) fun _ => part_call rfl)) fun _ => trivial
  | timeline run_id => exact Only.bind (part_call rfl) fun _ => Only.bind (part_call rfl) fun _ => trivial
  | meter_tick dt =>
    refine part_connection rfl (Only.bind (part_call rfl) fun live => ?_)
    refine Only.bind (part_meter_rows _ _ _ _) fun accr => Only.bind (part_call rfl) fun now => ?_
    exact Only.bind (Only.each fun _ => part_call rfl) fun _ => Only.bind (part_call rfl) fun _ => trivial

/-- Only `snapshot_instance` takes part in a snapshot. -/
theorem plain_body (P : Platform) {req : Req} (other : ∀ iid label, req ≠ .snapshot_instance iid label) :
    Plain (req.body P) := by
  refine Only.mono ?_ (part_body P req)
  intro op calls
  cases req with
  | snapshot_instance iid label => exact absurd rfl (other iid label)
  | create_run | fork_snapshot | destroy_instance | timeline | meter_tick =>
    cases op with
    | fs | s3 | sys | mem => rfl
    | vm o => cases o <;> first | rfl | cases calls
    | db o =>
      cases o with
      | read | commit | rollback => rfl
      | execute stmt => cases stmt <;> first | rfl | cases calls

end Klados
