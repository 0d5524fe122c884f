import Klados.Stats
import Klados.Usage
import Klados.Follow

/-!
What storage costs. `usage` adds up the sizes that the snapshots of the project were recorded with,
and these are the sizes of the images before anything is shared. The charge is that of the distinct
chunks, as the comment above the prices has it, only where no chunk occurs twice in the images.
-/
namespace Klados.Charge
open Effects
open Files (Fs)
open Prog (Only)

def PRICE_VCPU_HR : Rat := 9 / 100
def PRICE_RAM_GIB_HR : Rat := 35 / 100
def PRICE_STORE_GB_MO : Rat := 5 / 100

/-- `SELECT COALESCE(SUM(s.size_bytes),0) FROM snapshots s JOIN runs r ON s.run_id=r.id WHERE r.project_id=?`. -/
def stored (T : Tables) (project_id : Id) : Nat :=
  (T.snapshots.flatMap fun s =>
    (T.runs.filter fun r => r.id = s.run_id ∧ r.project_id = project_id).map fun _ => s.size_bytes).sum

/-- The reply of `usage`. -/
structure Reply where
  vcpu_hours : Rat
  ram_gib_hours : Rat
  stored_bytes : Nat
  estimated_cost_usd : Rat

/-- `usage`, where `rounded x n` is `round(x, n)`. -/
def usage (rounded : Rat → Nat → Rat) (T : Tables) (project_id : Id) : Reply :=
  let row := usageOf T.usage project_id
  let stored := stored T project_id
  let vcpu_hr := row.1 / 3600
  let ram_hr := row.2 / 3600
  let store_gb : Rat := stored / 1000000000
  let cost := vcpu_hr * PRICE_VCPU_HR + ram_hr * PRICE_RAM_GIB_HR + store_gb * PRICE_STORE_GB_MO / 730
  ⟨rounded vcpu_hr 5,rounded ram_hr 5,stored,rounded cost 5⟩

/-- What `snapshot_instance` calls before the image is written. -/
def early : Op → Bool
  | .db .read | .fs .makedirs | .mem (.liveGet _) | .sys _ => true
  | .vm (.connect _ _) | .vm (.receive _ _) | .vm (.pause _) => true
  | _ => false

/-- The tables are those of `x`, and the VM holds this image and this device state. -/
structure Ready (iid : Id) (image dev : Bytes) (x w : World) : Prop where
  db : w.db = x.db
  store : w.mem.store = x.mem.store
  wf : w.fs.Wf
  there : ∃ vm, w.hyp.vm iid = some vm ∧ vm.mem = image ∧ vm.dev = dev

/-- What `snapshot_instance` calls afterwards, but for what `put_file` and the manifest need. -/
def late (sid : Id) : Op → Bool
  | .fs .makedirs | .fs (.exists _) | .vm (.resume _) | .mem .acquire | .mem .release | .mem .store | .s3 _ | .sys _ => true
  | .mem (.update _) => true
  | .fs (.copy _ dst) => dst = .snap sid .scratch
  | _ => false

/-- The tables are those of `x`, and the files hold this image and this device state. -/
structure Sealed (sid : Id) (image dev : Bytes) (x w : World) : Prop where
  db : w.db = x.db
  wf : w.fs.Wf
  mem : w.fs.content (.snap sid .mem) = some image
  vmstate : w.fs.content (.snap sid .vmstate) = some dev

section
variable {P : Platform} {iid sid : Id} {image dev : Bytes} {x w v : World} {op : Op} {outcome : Except Exn op.Res}

theorem Ready.vm (ready : Ready iid image dev x w) {vm vm' : Vm} {iid' : Id} (there : w.hyp.vm iid' = some vm)
    (mem : vm'.mem = vm.mem) (state : vm'.dev = vm.dev) : Ready iid image dev x { w with hyp := w.hyp.set iid' vm' } := by
  refine ⟨ready.db,ready.store,ready.wf,?_⟩
  obtain ⟨own,found,rfl,rfl⟩ := ready.there
  by_cases same : iid = iid'
  · subst same
    cases there.symm.trans found
    exact ⟨vm',Hypervisor.set_self _ _ _,mem,state⟩
  · exact ⟨own,(Hypervisor.set_other _ same _).trans found,rfl,rfl⟩

theorem Ready.early (ready : Ready iid image dev x w) (calls : early op = true) (stepped : acts P op w outcome v) :
    Ready iid image dev x v := by
  obtain ⟨choice,ran⟩ := stepped
  cases op with
  | db o =>
    cases o with
    | read =>
      obtain ⟨db,acts,rfl⟩ := exec_dbActs ran
      cases acts <;> exact ready
    | execute | commit | rollback => cases calls
  | fs o =>
    cases o with
    | makedirs =>
      obtain ⟨⟨result,fs⟩,executed,same⟩ := Option.map_eq_some_iff.mp ran
      cases same
      cases choice <;> cases executed
      all_goals exact ready
    | _ => cases calls
  | mem o =>
    cases o with
    | liveGet iid' =>
      obtain ⟨⟨result,mem⟩,executed,same⟩ := Option.map_eq_some_iff.mp ran
      cases same
      cases choice <;> cases executed
      exact ready
    | _ => cases calls
  | sys o =>
    obtain ⟨⟨result,used⟩,_,same⟩ := Option.map_eq_some_iff.mp ran
    cases same
    exact ⟨ready.db,ready.store,ready.wf,ready.there⟩
  | vm o =>
    obtain ⟨fs,hyp,acts,rfl⟩ := exec_vmActs ran
    cases acts with
    | fails | receive | eof => exact ready
    | pause there | connect there | lost there => exact ready.vm there rfl rfl
    | spawn | start | load | resume | create | torn | kill | killNone => cases calls
  | s3 o => cases calls

theorem Sealed.of_fs (sealed : Sealed sid image dev x w) (fs : v.fs = w.fs) (db : v.db = w.db) : Sealed sid image dev x v := by
  refine ⟨db.trans sealed.db,?_,?_,?_⟩
  · rw [fs]
    exact sealed.wf
  · rw [fs]
    exact sealed.mem
  · rw [fs]
    exact sealed.vmstate

theorem Sealed.put (sealed : Sealed sid image dev x w) {p : Path} {bytes : Bytes} (notMem : p ≠ .snap sid .mem)
    (notState : p ≠ .snap sid .vmstate) : Sealed sid image dev x { w with fs := w.fs.put p bytes } := by
  refine ⟨sealed.db,Fs.put_wf sealed.wf _ _,?_,?_⟩
  · rw [Fs.content_put sealed.wf,if_neg (Ne.symm notMem)]
    exact sealed.mem
  · rw [Fs.content_put sealed.wf,if_neg (Ne.symm notState)]
    exact sealed.vmstate

theorem Sealed.late (sealed : Sealed sid image dev x w) (calls : late sid op = true) (stepped : acts P op w outcome v) :
    Sealed sid image dev x v := by
  obtain ⟨choice,ran⟩ := stepped
  cases op with
  | fs o =>
    obtain ⟨⟨result,fs⟩,executed,same⟩ := Option.map_eq_some_iff.mp ran
    cases same
    cases o with
    | makedirs | «exists» =>
      cases choice <;> cases executed
      all_goals exact sealed.of_fs rfl rfl
    | copy src dst =>
      simp only [Charge.late,decide_eq_true_eq] at calls
      subst calls
      cases choice with
      | ok =>
        simp only [fsExec] at executed
        split at executed <;> cases executed
        · exact sealed.put (by simp) (by simp)
        · exact sealed.of_fs rfl rfl
      | torn k e =>
        simp only [fsExec] at executed
        split at executed <;> cases executed
        exact sealed.put (by simp) (by simp)
      | fail e =>
        cases executed
        exact sealed.of_fs rfl rfl
      | id | text | time | flag | boot | bootLost | lost | eof | puts | found => cases executed
    | _ => cases calls
  | vm o =>
    obtain ⟨fs,hyp,acts,rfl⟩ := exec_vmActs ran
    cases acts with
    | fails | resume => exact sealed.of_fs rfl rfl
    | spawn | start | load | pause | create | torn | kill | killNone | connect | lost | receive | eof => cases calls
  | mem o | s3 o | sys o =>
    obtain ⟨⟨result,_⟩,_,same⟩ := Option.map_eq_some_iff.mp ran
    cases same
    exact sealed.of_fs rfl rfl
  | db o => cases calls

theorem Sealed.stocks (sealed : Sealed sid image dev x w) (blks : List Bytes) :
    Sealed sid image dev x (blks.foldl (World.stock P) w) := by
  induction blks generalizing w with
  | nil => exact sealed
  | cons blk rest ih =>
    refine ih ⟨sealed.db,shelve_wf sealed.wf blk,?_,?_⟩
    · rw [show (w.stock P blk).fs = w.shelve P blk from rfl,shelve_content sealed.wf,if_neg (by simp)]
      exact sealed.mem
    · rw [show (w.stock P blk).fs = w.shelve P blk from rfl,shelve_content sealed.wf,if_neg (by simp)]
      exact sealed.vmstate

theorem late_flush_s3 : flush_s3.Only fun op : Op => late sid op = true := by
  refine Only.bind (Only.perform rfl) fun store => ?_
  split
  · trivial
  · exact Only.bind (Only.perform rfl) fun _ => Only.bind (Only.perform rfl) fun _ => trivial

theorem late_seal_scratch (iid : Id) :
    (seal_scratch iid sid).Only fun op : Op => late sid op = true ∧ op.isMem = false :=
  Only.bind (Only.perform ⟨rfl,rfl⟩) fun _ => Only.when (Only.perform ⟨by simp [late],rfl⟩)

/-- What the manifest of an image holds. -/
def manifestOf (P : Platform) (store : Cas) (sid : Id) (image : Bytes) : Bytes :=
  P.dumpManifest ⟨4096,((Put.file (.snap sid .mem)).chunks P store image).map P.blake2b⟩

/-- The image is put, and uploaded. -/
theorem gives_put_file (sealed : Sealed sid image dev x w) :
    Gives (acts P) (do
      let hashes ← put_file P (.snap sid .mem)
      let _ ← flush_s3
      pure hashes) w fun hashes v => Sealed sid image dev x v ∧
        hashes = ((Put.file (.snap sid .mem)).chunks P w.mem.store image).map P.blake2b := by
  refine Gives.bind (R := fun hashes v => Sealed sid image dev x v ∧
    hashes = ((Put.file (.snap sid .mem)).chunks P w.mem.store image).map P.blake2b) ?_ ?_
  · intro hashes v ran
    obtain ⟨same,rfl⟩ := of_returned (.file (.snap sid .mem)) sealed.mem ran
    exact ⟨sealed.stocks _,same⟩
  · rintro hashes v ⟨stocked,same⟩
    refine Gives.bind (R := fun _ v => Sealed sid image dev x v) ?_ fun _ _ flushed => Gives.ret ⟨flushed,same⟩
    exact Gives.keeps (fun op calls w outcome v stepped kept => kept.late calls stepped) late_flush_s3 stocked

/-- `_chunk_mem` returns the size of the image. -/
theorem gives_chunk_mem (sealed : Sealed sid image dev x w) :
    Gives (acts P) (chunk_mem P sid (.snap sid .mem)) w fun logical v => logical = image.length ∧ v.db = x.db ∧
      v.fs.Wf ∧ v.fs.content (.snap sid .vmstate) = some dev ∧
      v.fs.content (.snap sid .manifest) = some (manifestOf P w.mem.store sid image) := by
  refine Gives.bind (gives_locked (Q := fun hashes v => Sealed sid image dev x v ∧
    hashes = ((Put.file (.snap sid .mem)).chunks P w.mem.store image).map P.blake2b) (fun u stepped => ?_) ?_) ?_
  · rw [← acquire_store stepped]
    exact gives_put_file (sealed.late rfl stepped)
  · rintro hashes u v stepped ⟨held,same⟩
    exact ⟨held.late rfl stepped,same⟩
  rintro hashes u ⟨stocked,rfl⟩
  refine Gives.bind gives_write_file ?_
  rintro _ _ rfl
  have written : Sealed sid image dev x { u with fs := u.fs.put (.snap sid .manifest) (manifestOf P w.mem.store sid image) } :=
    stocked.put (by simp) (by simp)
  refine Gives.bind (gives_getsize written.mem) ?_
  rintro logical v ⟨same,left⟩
  subst left
  refine Gives.bind gives_remove ?_
  rintro _ _ rfl
  refine Gives.ret ⟨same,stocked.db,Fs.remove_wf written.wf _,?_,?_⟩
  · rw [Fs.content_remove,if_neg (by simp)]
    exact written.vmstate
  · rw [Fs.content_remove,if_neg (by simp)]
    show (u.fs.put (.snap sid .manifest) (manifestOf P w.mem.store sid image)).content (.snap sid .manifest) = _
    rw [Fs.content_put stocked.wf,if_pos rfl]

/-- What a snapshot of an instance with this image and this device state leaves. -/
structure Recorded (P : Platform) (image dev : Bytes) (run_id : Id) (x v : World) (row : SnapshotRow) : Prop where
  snapshots : v.db.committed.snapshots = x.db.committed.snapshots ++ [row]
  runs : v.db.committed.runs = x.db.committed.runs
  idle : v.db.txn = none
  wf : v.fs.Wf
  run : row.run_id = run_id
  size : row.size_bytes = image.length + dev.length
  manifest : v.fs.content (.snap row.id .manifest) = some (manifestOf P x.mem.store row.id image)

theorem Ready.gives {α : Type} {program : KProg α} (ready : Ready iid image dev x w)
    (only : program.Only fun op : Op => Charge.early op = true) :
    Gives (acts P) program w fun _ v => Ready iid image dev x v :=
  Gives.keeps (fun _ calls _ _ _ stepped kept => kept.early calls stepped) only ready

theorem Sealed.gives {α : Type} {program : KProg α} (sealed : Sealed sid image dev x w) (store : w.mem.store = x.mem.store)
    (only : program.Only fun op : Op => Charge.late sid op = true ∧ op.isMem = false) :
    Gives (acts P) program w fun _ v => Sealed sid image dev x v ∧ v.mem.store = x.mem.store := by
  refine Gives.keeps (I := fun v => Sealed sid image dev x v ∧ v.mem.store = x.mem.store) ?_ only ⟨sealed,store⟩
  rintro _ ⟨calls,other⟩ _ _ _ ⟨choice,ran⟩ ⟨held,same⟩
  exact ⟨held.late calls ⟨choice,ran⟩,by rw [exec_mem other ran,same]⟩

theorem early_quiesce (iid : Id) : (quiesce iid).Only fun op : Op => early op = true := by
  refine Only.mono ?_ (talks_quiesce iid)
  rintro op ⟨listed,_⟩
  cases op with
  | vm o => cases o <;> first | rfl | simp [Op.kind,VmOp.kind,talk] at listed
  | fs o => rcases o.kind_cases with kind | kind <;> simp [Op.kind,kind,talk] at listed
  | mem o => cases o <;> simp [Op.kind,MemOp.kind,talk] at listed
  | sys o => rfl
  | db o | s3 o => simp [Op.kind,talk] at listed

theorem gives_read (idle : w.db.txn = none) : Gives (acts P) (dbCall .read) w fun T v => T = w.db.committed ∧ v = w := by
  refine Gives.perform ?_
  rintro T v ⟨choice,ran⟩
  obtain ⟨db,acts,rfl⟩ := exec_dbActs ran
  cases acts
  exact ⟨by rw [Db.visible_other (by simp [idle])],rfl⟩

theorem gives_execute {stmt : Stmt} : Gives (acts P) (dbCall (.execute stmt)) w fun _ v =>
    ∃ T, stmt.apply (w.db.visible 0) = .ok T ∧ v = { w with db := { w.db with txn := some (0,T) } } := by
  refine Gives.perform ?_
  rintro _ v ⟨choice,ran⟩
  exact exec_written ran

theorem gives_commit {T : Tables} (held : w.db.txn = some (0,T)) :
    Gives (acts P) (dbCall .commit) w fun _ v => v = { w with db := ⟨T,none⟩ } := by
  refine Gives.perform ?_
  rintro _ v ⟨choice,ran⟩
  obtain ⟨db,acts,rfl⟩ := exec_dbActs ran
  cases acts with
  | committed held' =>
    cases held.symm.trans held'
    rfl
  | unchanged idle => exact absurd held (idle T)

theorem gives_create (ready : Ready iid image dev x w) :
    Gives (acts P) (vmCall (.create iid (.snap sid .vmstate) (.snap sid .mem))) w fun _ v =>
      Sealed sid image dev x v ∧ v.mem.store = x.mem.store := by
  refine Gives.perform ?_
  rintro _ v ⟨choice,ran⟩
  obtain ⟨fs,hyp,acts,rfl⟩ := exec_vmActs ran
  obtain ⟨vm,there,rfl,rfl⟩ := ready.there
  cases acts with
  | create there' _ =>
    cases there.symm.trans there'
    have state := Fs.put_wf ready.wf (.snap sid .vmstate) vm.dev
    refine ⟨⟨ready.db,Fs.put_wf state _ _,?_,?_⟩,ready.store⟩
    · rw [Fs.content_put state,if_pos rfl]
    · rw [Fs.content_put state,if_neg (by simp),Fs.content_put ready.wf,if_pos rfl]

/-- The statements of a snapshot, of which the second changes an instance only. -/
theorem gives_record {row : SnapshotRow} (reply : Json) (idle : w.db.txn = none) :
    Gives (acts P) (do
      dbCall (.execute (.insertSnapshot row))
      dbCall (.execute (.setSnapshot iid sid))
      dbCall .commit
      pure reply) w fun _ v => v.db.committed.snapshots = w.db.committed.snapshots ++ [row] ∧
        v.db.committed.runs = w.db.committed.runs ∧ v.db.txn = none ∧ v.fs = w.fs := by
  refine Gives.bind gives_execute ?_
  rintro _ _ ⟨T,applied,rfl⟩
  rw [Db.visible_other (by simp [idle])] at applied
  refine Gives.bind gives_execute ?_
  rintro _ _ ⟨T',applied',rfl⟩
  refine Gives.bind (gives_commit rfl) ?_
  rintro _ _ rfl
  refine Gives.ret ?_
  rw [Db.visible_own rfl] at applied'
  cases applied'
  simp only [Stmt.apply] at applied
  split at applied <;> cases applied
  exact ⟨rfl,rfl,rfl,rfl⟩

theorem gives_now : Gives (acts P) (sysCall .now) w fun _ v => v.db = w.db ∧ v.fs = w.fs := by
  refine Gives.perform ?_
  rintro _ v ⟨choice,ran⟩
  obtain ⟨⟨result,used⟩,_,same⟩ := Option.map_eq_some_iff.mp ran
  cases same
  exact ⟨rfl,rfl⟩

theorem gives_bindText (P : Platform) (label : Json) : Gives (acts P) (bindText P label) w fun _ v => v = w := by
  cases label with
  | null | bool | real | str => exact Gives.ret rfl
  | int value =>
    rw [bindText]
    split
    · exact Gives.ret rfl
    · exact Gives.raise
  | arr | obj => exact Gives.raise

/-- What a successful snapshot records. -/
theorem gives_snapshot_instance (ready : Ready iid image dev x x) (idle : x.db.txn = none) {inst : InstanceRow}
    (found : x.db.committed.instance? iid = some inst) (label : Json) :
    Gives (acts P) (snapshot_instance P iid label) x fun _ v => ∃ row, Recorded P image dev inst.run_id x v row := by
  refine Gives.bind (ready.gives (Only.perform rfl)) ?_
  intro live w ready
  split
  · exact Gives.raise
  refine Gives.raising ?_ ?_
  swap
  · intro error y value v ran
    rcases Does.bind.mp ran with ⟨_,_,_,raised⟩ | ⟨_,same,_⟩
    · cases (Does.raise.mp raised).1
    · cases same
  refine Gives.bind (gives_read (ready.db ▸ idle)) ?_
  rintro _ _ ⟨rfl,rfl⟩
  rw [ready.db,found]
  refine Gives.bind (ready.gives (Only.perform rfl)) fun sid _ ready => ?_
  refine Gives.bind (ready.gives (Only.perform rfl)) fun _ _ ready => ?_
  refine Gives.bind (ready.gives (Only.perform rfl)) fun _ _ ready => ?_
  refine Gives.bind (ready.gives (early_quiesce iid)) fun _ _ ready => ?_
  refine Gives.bind (ready.gives (Only.perform rfl)) fun _ _ ready => ?_
  refine Gives.bind (gives_create ready) ?_
  rintro _ _ ⟨sealed,store⟩
  refine Gives.bind (sealed.gives store (Only.perform ⟨rfl,rfl⟩)) ?_
  rintro _ _ ⟨sealed,store⟩
  refine Gives.bind (sealed.gives store (late_seal_scratch iid)) ?_
  rintro _ _ ⟨sealed,store⟩
  refine Gives.bind (sealed.gives store (Only.perform ⟨rfl,rfl⟩)) ?_
  rintro _ u ⟨sealed,store⟩
  refine Gives.bind (gives_chunk_mem sealed) ?_
  rintro logical y ⟨rfl,db,wf,state,manifest⟩
  rw [store] at manifest
  refine Gives.bind (gives_getsize state) ?_
  rintro size _ ⟨rfl,rfl⟩
  refine Gives.bind gives_now ?_
  rintro now z ⟨same,files⟩
  refine Gives.bind (gives_bindText P label) ?_
  rintro text _ rfl
  refine (gives_record _ (by rw [same,db,idle])).mono ?_
  rintro _ v ⟨snapshots,runs,idle',fs⟩
  refine ⟨_,snapshots.trans (by rw [same,db]),?_,idle',?_,rfl,rfl,?_⟩
  · rw [runs,same,db]
  · rw [fs,files]
    exact wf
  · rw [fs,files]
    exact manifest

end

/-! ## Sequences of snapshots -/

/-- What a snapshot was taken of: the project, the memory image and the device state. -/
structure Taken where
  project : Id
  image : Bytes
  dev : Bytes

/-- What may happen between two snapshots: anything that leaves those recorded, and leaves each run
    with its project. Run ids are primary keys. -/
structure Pause (u x : World) : Prop where
  snapshots : x.db.committed.snapshots = u.db.committed.snapshots
  runs : u.db.committed.runs <+: x.db.committed.runs
  keys : (x.db.committed.runs.map (·.id)).Nodup
  idle : x.db.txn = none
  wf : x.fs.Wf

/-- Snapshots of any instances that succeed, one after the other, with what each was taken of. -/
inductive Snapshots (P : Platform) (w : World) : List Taken → World → Prop
  | start : Snapshots P w [] w
  | take {taken : List Taken} {u x v : World} {iid : Id} {label reply : Json} {inst : InstanceRow} {run : RunRow} {vm : Vm} :
      Snapshots P w taken u → Pause u x → x.db.committed.instance? iid = some inst →
      run ∈ x.db.committed.runs → run.id = inst.run_id → x.hyp.vm iid = some vm →
      Does (acts P) (snapshot_instance P iid label) x (.ok reply) v →
      Snapshots P w (taken ++ [⟨run.project_id,vm.mem,vm.dev⟩]) v

/-- The chunks that the manifest of a snapshot refers to: those of the image, as STORE cuts it. -/
def Taken.chunks (P : Platform) (t : Taken) : List Bytes := Load.chunks P 4096 false ⟨true,t.image⟩

/-- The snapshots of a project. -/
def ofProject (taken : List Taken) (p : Id) : List Taken := taken.filter (·.project = p)

/-- The chunks that the snapshots of a project refer to. -/
def referenced (P : Platform) (taken : List Taken) (p : Id) : List Bytes := (ofProject taken p).flatMap (Taken.chunks P)

/-- The bytes of the device-state files of a project. -/
def states (taken : List Taken) (p : Id) : Nat := ((ofProject taken p).map (·.dev.length)).sum

/-- The size and the project of a row are those of what it records. -/
def Records (runs : List RunRow) (row : SnapshotRow) (t : Taken) : Prop :=
  row.size_bytes = t.image.length + t.dev.length ∧ ∃ run ∈ runs, run.id = row.run_id ∧ run.project_id = t.project

section
variable {P : Platform} {w v : World} {taken : List Taken} {p : Id}

theorem Records.mono {runs later : List RunRow} (grown : runs <+: later) {row : SnapshotRow} {t : Taken}
    (records : Records runs row t) : Records later row t := by
  obtain ⟨size,run,member,named⟩ := records
  exact ⟨size,run,grown.subset member,named⟩

/-- Run: the rows are those of the snapshots taken. -/
theorem Snapshots.records (snapshots : Snapshots P w taken v) (empty : w.db.committed.snapshots = [])
    (keys : (w.db.committed.runs.map (·.id)).Nodup) :
    List.Forall₂ (Records v.db.committed.runs) v.db.committed.snapshots taken ∧ (v.db.committed.runs.map (·.id)).Nodup := by
  induction snapshots with
  | start => exact ⟨by rw [empty]; exact .nil,keys⟩
  | @take taken u x v iid label reply inst run vm _ pause found member named there ran ih =>
    have ready : Ready iid vm.mem vm.dev x x := ⟨rfl,rfl,pause.wf,vm,there,rfl,rfl⟩
    obtain ⟨row,recorded⟩ := gives_snapshot_instance ready pause.idle found label reply v ran
    rw [recorded.snapshots,recorded.runs,pause.snapshots]
    refine ⟨?_,pause.keys⟩
    refine List.rel_append (ih.1.imp fun _ _ => Records.mono pause.runs) (.cons ⟨recorded.size,run,member,?_,rfl⟩ .nil)
    rw [recorded.run,named]

/-- The JOIN finds a row once, with the project of its run. -/
theorem join_one {runs : List RunRow} (keys : (runs.map (·.id)).Nodup) {row : SnapshotRow} {t : Taken}
    (records : Records runs row t) (p : Id) :
    ((runs.filter fun r => r.id = row.run_id ∧ r.project_id = p).map fun _ => row.size_bytes).sum =
      if t.project = p then t.image.length + t.dev.length else 0 := by
  obtain ⟨size,run,member,named,owned⟩ := records
  induction runs with
  | nil => cases member
  | cons first rest ih =>
    rw [List.map_cons,List.nodup_cons] at keys
    rcases List.mem_cons.mp member with rfl | later
    · have others : (rest.filter fun r => r.id = row.run_id ∧ r.project_id = p) = [] := by
        rw [List.filter_eq_nil_iff]
        intro r inside both
        simp only [decide_eq_true_eq] at both
        exact keys.1 (List.mem_map.mpr ⟨r,inside,both.1.trans named.symm⟩)
      have here : (run :: rest).filter (fun r => r.id = row.run_id ∧ r.project_id = p) = if t.project = p then [run] else [] := by
        rw [List.filter_cons,others]
        simp [named,owned]
      rw [here,size]
      by_cases own : t.project = p <;> simp [own]
    · have other : first.id ≠ row.run_id := by
        intro same
        exact keys.1 (List.mem_map.mpr ⟨run,later,named.trans same.symm⟩)
      rw [List.filter_cons_of_neg (by simp [other])]
      exact ih keys.2 later

theorem stored_records {T : Tables} (records : List.Forall₂ (Records T.runs) T.snapshots taken)
    (keys : (T.runs.map (·.id)).Nodup) (p : Id) :
    stored T p = ((ofProject taken p).map fun t => t.image.length + t.dev.length).sum := by
  have rows : ∀ {rows : List SnapshotRow} {taken : List Taken}, List.Forall₂ (Records T.runs) rows taken →
      (rows.flatMap fun s => (T.runs.filter fun r => r.id = s.run_id ∧ r.project_id = p).map fun _ => s.size_bytes).sum =
        ((ofProject taken p).map fun t => t.image.length + t.dev.length).sum := by
    intro rows taken records
    induction records with
    | nil => rfl
    | @cons row t rest more first _ ih =>
      rw [List.flatMap_cons,List.sum_append,join_one keys first,ih]
      by_cases own : t.project = p <;> simp [own,ofProject]
  exact rows records

theorem chunks_length (P : Platform) (t : Taken) : ((t.chunks P).map List.length).sum = t.image.length := by
  rw [← List.length_flatten,Taken.chunks,load_flatten (.inr (by decide))]

theorem chunks_slices (P : Platform) (t : Taken) : t.chunks P = (reads t.image).flatMap (Blocks.slices 4096) := by
  unfold Taken.chunks Load.chunks
  simp only [↓reduceIte]
  congr 1

theorem chunks_ne_nil (P : Platform) (t : Taken) : ∀ chunk ∈ t.chunks P, chunk ≠ [] := by
  intro chunk member
  rw [chunks_slices] at member
  obtain ⟨buffer,_,inside⟩ := List.mem_flatMap.mp member
  exact (Blocks.slices_length (by decide) buffer chunk inside).1

/-- The charge is that of the chunks, each as often as it is referred to, and of the state files. -/
theorem stored_chunks {T : Tables} (records : List.Forall₂ (Records T.runs) T.snapshots taken)
    (keys : (T.runs.map (·.id)).Nodup) (p : Id) :
    stored T p = ((referenced P taken p).map List.length).sum + states taken p := by
  rw [stored_records records keys,referenced,states]
  induction ofProject taken p with
  | nil => rfl
  | cons t rest ih =>
    have own := chunks_length P t
    rw [List.map_cons,List.sum_cons,ih,List.flatMap_cons,List.map_append,List.sum_append,own,List.map_cons,List.sum_cons]
    omega

/-- What is added up is at most what the distinct parts add up to when there are no others. -/
theorem sum_le_distinct {chunks : List Bytes} (some : ∀ chunk ∈ chunks, chunk ≠ []) :
    ∑ chunk ∈ chunks.toFinset, chunk.length ≤ (chunks.map List.length).sum ∧
      ((chunks.map List.length).sum ≤ ∑ chunk ∈ chunks.toFinset, chunk.length ↔ chunks.Nodup) := by
  induction chunks with
  | nil => simp
  | cons chunk rest ih =>
    obtain ⟨least,exact_⟩ := ih fun c member => some c (List.mem_cons_of_mem _ member)
    have pos := List.length_pos_iff.mpr (some chunk (List.mem_cons_self ..))
    rw [List.map_cons,List.sum_cons,List.toFinset_cons,List.nodup_cons]
    by_cases again : chunk ∈ rest
    · rw [Finset.insert_eq_of_mem (List.mem_toFinset.mpr again)]
      refine ⟨by omega,fun within => ?_,fun ⟨new,_⟩ => absurd again new⟩
      omega
    · rw [Finset.sum_insert (by simpa using again)]
      refine ⟨by omega,?_⟩
      rw [← exact_]
      constructor
      · exact fun within => ⟨again,by omega⟩
      · exact fun ⟨_,within⟩ => by omega

end

/-- A project with a running instance whose image is one byte. -/
def standing : World :=
  { World.initial ⟨"p",some "default","key",0⟩ false with
    db := ⟨⟨[⟨"p",some "default","key",0⟩],[⟨"r","p",none,0⟩],[],[⟨"i","r",none,.RUNNING,"genesis",0⟩],[]⟩,none⟩
    mem := ⟨["i"],Cas.fresh false,none⟩
    hyp := ⟨fun iid => if iid = "i" then some ⟨.running,[7],[8],Agent.Guest.booting⟩ else none,fun _ => none⟩ }

/-- A snapshot that succeeds, where `n` calls are those from the resume to the sizes. -/
def wholeSnapshot (sid : Id) (n : Nat) : List Choice := takeSnapshot sid ++ List.replicate n .ok ++ [.time 1,.ok,.ok,.ok]

def snapshotAlong (script : List Choice) (w : World) : Option (Except Exn Json × World) :=
  replay (exec .plain 0) (fun (_ : Empty) _ => none) (script.map .inr) (snapshot_instance .plain "i" .null) w

theorem does_of_snapshotAlong {script : List Choice} {w v : World} {result : Except Exn Json}
    (ran : snapshotAlong script w = some (result,v)) : Does (acts .plain) (snapshot_instance .plain "i" .null) w result v :=
  Runs.of_replay (fun _ => rfl) (fun first second => first.trans second) (fun move => nomatch move)
    (fun _ choice _ _ _ executed => ⟨choice,executed⟩) ran

/-- The image of one byte. -/
def small : Taken := ⟨"p",[7],[8]⟩

theorem taken_twice : ∃ w u v, w.Fresh ∧ Snapshots .plain w [small] u ∧ Snapshots .plain w [small,small] v := by
  have found : ((snapshotAlong (wholeSnapshot "s" 16) standing).bind fun (first,u) =>
      (snapshotAlong (wholeSnapshot "s'" 11) u).map fun (second,_) =>
        decide (first.toOption.isSome = true ∧ second.toOption.isSome = true ∧
          (u.db.committed.instance? "i").map (·.run_id) = some "r" ∧
          (u.hyp.vm "i").map (fun vm => (vm.mem,vm.dev)) = some ([7],[8]))) = some true := by
    decide +kernel
  obtain ⟨⟨first,u⟩,taken,rest⟩ := Option.bind_eq_some_iff.mp found
  obtain ⟨⟨second,v⟩,again,good⟩ := Option.map_eq_some_iff.mp rest
  obtain ⟨kept,kept',named,held⟩ := of_decide_eq_true good
  cases first with
  | error error => cases kept
  | ok reply =>
    cases second with
    | error error => cases kept'
    | ok reply' =>
      obtain ⟨inst,found,same⟩ := Option.map_eq_some_iff.mp named
      obtain ⟨⟨state,mem,dev,guest⟩,there,image⟩ := Option.map_eq_some_iff.mp held
      cases image
      have ready : Ready "i" [7] [8] standing standing := ⟨rfl,rfl,Files.Fs.empty_wf,_,rfl,rfl,rfl⟩
      obtain ⟨row,recorded⟩ := gives_snapshot_instance ready rfl rfl .null reply u (does_of_snapshotAlong taken)
      have one : Snapshots .plain (World.initial ⟨"p",some "default","key",0⟩ false) [small] u := by
        have pause : Pause (World.initial ⟨"p",some "default","key",0⟩ false) standing :=
          ⟨rfl,⟨_,rfl⟩,by simp [standing],rfl,Files.Fs.empty_wf⟩
        exact @Snapshots.take _ _ [] _ standing u _ _ _ _ ⟨"r","p",none,0⟩ ⟨.running,[7],[8],Agent.Guest.booting⟩ .start pause
          rfl (List.mem_singleton.mpr rfl) rfl rfl (does_of_snapshotAlong taken)
      refine ⟨_,u,v,World.initial_fresh _ _,one,?_⟩
      have runs : u.db.committed.runs = [⟨"r","p",none,0⟩] := recorded.runs
      exact .take one ⟨rfl,⟨[],by simp⟩,by simp [runs],recorded.idle,recorded.wf⟩ found (runs ▸ List.mem_singleton.mpr rfl)
        same.symm there (does_of_snapshotAlong again)

theorem small_chunks : small.chunks .plain = [[7]] := by
  rw [chunks_slices]
  decide +kernel

/-- After any successful snapshots, the charge is at most that of the distinct chunks and the state files of
    the project if and only if no chunk occurs twice among the images of its snapshots. One more
    snapshot of an image that it has already adds no memory bytes to the charge only if the image is empty. -/
theorem usage_after_dedup (P : Platform) {w v : World} (fresh : w.Fresh) {taken : List Taken}
    (snapshots : Snapshots P w taken v) (rounded : Rat → Nat → Rat) (p : Id) :
    ((usage rounded v.db.committed p).stored_bytes ≤
        ∑ chunk ∈ (referenced P taken p).toFinset, chunk.length + states taken p ↔ (referenced P taken p).Nodup) ∧
      ∀ (t : Taken) (v' : World), t.project = p → (∃ before ∈ taken, before.project = p ∧ before.image = t.image) →
        Snapshots P w (taken ++ [t]) v' →
        ((usage rounded v'.db.committed p).stored_bytes ≤ (usage rounded v.db.committed p).stored_bytes + t.dev.length ↔
          t.image = []) := by
  have keys : (w.db.committed.runs.map (·.id)).Nodup := by simp [fresh.runs]
  obtain ⟨records,ids⟩ := snapshots.records fresh.snapshots keys
  constructor
  · have charge := stored_chunks (P := P) records ids p
    have nonempty : ∀ chunk ∈ referenced P taken p, chunk ≠ [] := by
      intro chunk member
      obtain ⟨t,_,inside⟩ := List.mem_flatMap.mp member
      exact chunks_ne_nil P t chunk inside
    show stored v.db.committed p ≤ _ ↔ _
    rw [charge,Nat.add_le_add_iff_right]
    exact (sum_le_distinct nonempty).2
  · intro t v' own _ more
    obtain ⟨records',ids'⟩ := more.records fresh.snapshots keys
    show stored v'.db.committed p ≤ stored v.db.committed p + _ ↔ _
    rw [stored_records records' ids',stored_records records ids,ofProject,List.filter_append,List.map_append,List.sum_append,
      ← ofProject]
    simp only [own,decide_true,List.filter_cons_of_pos,List.filter_nil,List.map_cons,List.map_nil,List.sum_cons,List.sum_nil]
    rw [← List.length_eq_zero_iff]
    omega

theorem usage_after_dedup_small : ∃ w u v : World, w.Fresh ∧ Snapshots .plain w [small] u ∧ Snapshots .plain w [small,small] v ∧
    ((usage (fun x _ => x) u.db.committed "p").stored_bytes ≤
      ∑ chunk ∈ (referenced .plain [small] "p").toFinset, chunk.length + states [small] "p" ↔
        (referenced .plain [small] "p").Nodup) ∧
    ((usage (fun x _ => x) v.db.committed "p").stored_bytes ≤ (usage (fun x _ => x) u.db.committed "p").stored_bytes + 1 ↔
      small.image = []) := by
  obtain ⟨w,u,v,fresh,one,two⟩ := taken_twice
  obtain ⟨charge,again⟩ := usage_after_dedup .plain fresh one (fun x _ => x) "p"
  exact ⟨w,u,v,fresh,one,two,charge,again small v rfl ⟨small,List.mem_singleton.mpr rfl,rfl,rfl⟩ two⟩

/-- The same image twice: four bytes are charged for a chunk of one byte and two state files of one byte,
    and the second snapshot adds the byte of its image once more. -/
theorem usage_before_dedup : ∃ w u v : World, w.Fresh ∧ Snapshots .plain w [small] u ∧ Snapshots .plain w [small,small] v ∧
    (usage (fun x _ => x) u.db.committed "p").stored_bytes + small.dev.length <
      (usage (fun x _ => x) v.db.committed "p").stored_bytes ∧
    ∑ chunk ∈ (referenced .plain [small,small] "p").toFinset, chunk.length + states [small,small] "p" <
      (usage (fun x _ => x) v.db.committed "p").stored_bytes := by
  obtain ⟨w,u,v,fresh,one,two⟩ := taken_twice
  obtain ⟨first,ids⟩ := one.records fresh.snapshots (by simp [fresh.runs])
  obtain ⟨second,ids'⟩ := two.records fresh.snapshots (by simp [fresh.runs])
  have before : (usage (fun x _ => x) u.db.committed "p").stored_bytes = 2 := stored_records first ids "p"
  have after : (usage (fun x _ => x) v.db.committed "p").stored_bytes = 4 := stored_records second ids' "p"
  have chunks : referenced .plain [small,small] "p" = [[7],[7]] := by
    show ([small,small].filter (·.project = "p")).flatMap (Taken.chunks .plain) = _
    rw [show [small,small].filter (·.project = "p") = [small,small] from rfl]
    simp [small_chunks]
  refine ⟨w,u,v,fresh,one,two,?_,?_⟩
  · rw [before,after]
    decide
  · rw [chunks,after]
    decide

end Klados.Charge
