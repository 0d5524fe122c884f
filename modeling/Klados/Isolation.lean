import Klados.Grants

/-!
Isolation. Every function of the engine, run for a tenant, keeps to the project of the tenant; so does
every route, since an id is only passed on after its owner was asked for. With the meter these are
the threads of the server, and they keep to their rules in every run (`tenancy_roles`).
-/
namespace Klados
open Effects
open Prog (Only)
open Files (Fs Handle)

section
variable {P : Platform} {h : Http} {t : Nat} {pid : Id} {α β : Type} {K : World → Prop}

/-- Whoever knows `K` may touch the file with this name. -/
def Covers (t : Nat) (pid : Id) (K : World → Prop) (p : Path) : Prop :=
  ∀ w, Housed w → K w → ∀ row, p.row = some row → Reaches t pid w row

theorem covers_chunk (h : Digest) : Covers t pid K (.chunk h) := by
  rintro _ _ _ _ ⟨⟩

theorem Covers.mono {K' : World → Prop} {p : Path} (covers : Covers t pid K p) (more : ∀ w, K' w → K w) :
    Covers t pid K' p := fun w housed holds => covers w housed (more w holds)

theorem bind_stays {program : KProg α} {rest : α → KProg β} (first : Stays (tenancy P (.http h)) t K program)
    (onward : ∀ value, Stays (tenancy P (.http h)) t K (rest value)) :
    Stays (tenancy P (.http h)) t K (program >>= rest) := Stays.bind tenancy_lawful first onward

theorem learn_stays {program : KProg α} {rest : α → KProg β} {X : α → World → Prop}
    (first : Learns (tenancy P (.http h)) t K program X)
    (onward : ∀ value, Stays (tenancy P (.http h)) t (fun w => K w ∧ X value w) (rest value)) :
    Stays (tenancy P (.http h)) t K (program >>= rest) := Stays.learn tenancy_lawful first onward

/-- A call on a file by its name. -/
theorem Tenant.file (tenant : Tenant P h t pid always K) {o : FsOp}
    (moves : ∀ src dst, o = .replace src dst → src.row = dst.row)
    (other : ∀ inode offset bytes, o ≠ .write inode offset bytes) (covers : ∀ p ∈ o.paths, Covers t pid K p) :
    Stays (tenancy P (.http h)) t K (fsCall o) :=
  tenant.call trivial fun w housed holds _ => granted_files moves other fun p member => covers p member w housed holds

/-- Opening a file gives a handle for it. -/
theorem Tenant.open (tenant : Tenant P h t pid always K) {p : Path} (covers : Covers t pid K p) :
    Learns (tenancy P (.http h)) t K (fsCall (.openTrunc p)) fun f w => Handle Path.row p.row f w.fs := by
  refine tenant.learns (.fs (.openTrunc p)) trivial ?_ (fun f => (tenant.and (endures_handle _ _)).stable) ?_
  · intro w housed holds _
    refine granted_files (by simp) (by simp) ?_
    rintro p' member
    exact List.mem_singleton.mp member ▸ covers w housed holds
  · intro choice f w v housed _ ran
    obtain ⟨⟨r,fs⟩,executed,same⟩ := Option.map_eq_some_iff.mp ran
    cases same
    cases choice <;> cases executed
    exact Files.handle_of_openTrunc housed.wf p

theorem Tenant.write {f : Nat} {p : Path} (tenant : Tenant P h t pid always K)
    (opened : ∀ w, K w → Handle Path.row p.row f w.fs) (covers : Covers t pid K p) (offset : Nat) (bytes : Bytes) :
    Stays (tenancy P (.http h)) t K (fsCall (.write f offset bytes)) :=
  tenant.call trivial fun w housed holds _ => granted_write (opened w holds) (covers w housed holds)

theorem write_file_stays (tenant : Tenant P h t pid always K) {p : Path} (covers : Covers t pid K p) (bytes : Bytes) :
    Stays (tenancy P (.http h)) t K (write_file p bytes) := by
  refine learn_stays (tenant.open covers) fun f => ?_
  exact (tenant.and (endures_handle _ _)).write (fun _ holds => holds.2) (covers.mono fun _ holds => holds.1) 0 bytes

theorem store_chunk_stays (tenant : Tenant P h t pid always K) (h' : Digest) (comp : Bytes) :
    Stays (tenancy P (.http h)) t K (store_chunk h' comp) :=
  bind_stays (tenant.free (Only.perform rfl)) fun _ => bind_stays (tenant.free (Only.perform rfl)) fun _ =>
    Stays.when tenant.stable (write_file_stays tenant (covers_chunk h') comp)

theorem put_new_stays (tenant : Tenant P h t pid always K) (store : Cas) (h' : Digest) (blk : Bytes) :
    Stays (tenancy P (.http h)) t K (put_new P store h' blk) := by
  refine bind_stays (tenant.free (Only.perform rfl)) fun _ => ?_
  refine bind_stays (Stays.when tenant.stable (store_chunk_stays tenant _ _)) fun _ => ?_
  exact Stays.when tenant.stable (tenant.free (Only.perform rfl))

theorem put_block_stays (tenant : Tenant P h t pid always K) (blk : Bytes) :
    Stays (tenancy P (.http h)) t K (put_block P blk) :=
  bind_stays (tenant.free (Only.perform rfl)) fun _ => bind_stays (tenant.free (Only.perform rfl)) fun _ =>
    bind_stays (Stays.when tenant.stable (put_new_stays tenant _ _ blk)) fun _ => Stays.ret tenant.stable _

theorem put_file_stays (tenant : Tenant P h t pid always K) {p : Path} (covers : Covers t pid K p) :
    Stays (tenancy P (.http h)) t K (put_file P p) := by
  refine bind_stays (tenant.file (by simp) (by simp) (by simpa [FsOp.paths] using covers)) fun data => ?_
  refine bind_stays (Stays.each tenancy_lawful tenant.stable fun chunk _ => ?_) fun _ => Stays.ret tenant.stable _
  refine bind_stays (tenant.free (Only.perform rfl)) fun store => ?_
  exact Stays.each tenancy_lawful tenant.stable fun blk _ => put_block_stays tenant blk

theorem free_flush_s3 : flush_s3.Only fun op : Op => op.isFree = true := by
  refine Only.bind (Only.perform rfl) fun store => ?_
  split
  · trivial
  · exact Only.bind (Only.perform rfl) fun _ => Only.bind (Only.perform rfl) fun _ => trivial

theorem locked_stays (tenant : Tenant P h t pid always K) {body : KProg α}
    (inside : Stays (tenancy P (.http h)) t K body) : Stays (tenancy P (.http h)) t K (locked body) := by
  have release : Stays (tenancy P (.http h)) t K (memCall .release) := tenant.free (Only.perform rfl)
  refine bind_stays (tenant.free (Only.perform rfl)) fun _ => ?_
  refine bind_stays (Stays.catching tenancy_lawful inside fun e => ?_) fun value => ?_
  · exact bind_stays release fun _ => Stays.raise tenant.stable e
  · exact bind_stays release fun _ => Stays.ret tenant.stable value

theorem chunk_mem_stays (tenant : Tenant P h t pid always K) {sid : Id} (covers : ∀ file, Covers t pid K (.snap sid file)) :
    Stays (tenancy P (.http h)) t K (chunk_mem P sid (.snap sid .mem)) := by
  have named : ∀ {o : FsOp}, o.paths = [.snap sid .mem] → (∀ src dst, o ≠ .replace src dst) →
      (∀ inode offset bytes, o ≠ .write inode offset bytes) → Stays (tenancy P (.http h)) t K (fsCall o) := by
    intro o paths notMoved notWritten
    refine tenant.file (fun src dst same => absurd same (notMoved src dst)) notWritten ?_
    simpa [paths] using covers .mem
  refine bind_stays (locked_stays tenant ?_) fun hashes => ?_
  · refine bind_stays (put_file_stays tenant (covers .mem)) fun hashes => ?_
    exact bind_stays (tenant.free free_flush_s3) fun _ => Stays.ret tenant.stable hashes
  refine bind_stays (write_file_stays tenant (covers .manifest) _) fun _ => ?_
  refine bind_stays (named rfl (by simp) (by simp)) fun logical => ?_
  exact bind_stays (named rfl (by simp) (by simp)) fun _ => Stays.ret tenant.stable logical

theorem free_decompress (P : Platform) (bytes : Bytes) : (decompress P bytes).Only fun op : Op => op.isFree = true := by
  unfold decompress
  split <;> trivial

theorem get_stays (tenant : Tenant P h t pid always K) (h' : Digest) : Stays (tenancy P (.http h)) t K (get P h') := by
  refine bind_stays (tenant.free (Only.perform rfl)) fun store => ?_
  have cached : (isCached store h').Only fun op : Op => op.isFree = true := by
    unfold isCached
    split
    · exact Only.perform rfl
    · trivial
  refine bind_stays (tenant.free cached) fun hot => ?_
  split
  · exact bind_stays (tenant.free (Only.perform rfl)) fun _ => tenant.free (free_decompress P _)
  · unfold get_cold
    split
    · refine bind_stays (tenant.free (Only.perform rfl)) fun comp => ?_
      refine bind_stays (Stays.when tenant.stable ?_) fun _ => tenant.free (free_decompress P _)
      exact bind_stays (tenant.free (Only.perform rfl)) fun _ => write_file_stays tenant (covers_chunk h') comp
    · exact Stays.raise tenant.stable _

theorem write_chunks_stays {f : Nat} {p : Path} (tenant : Tenant P h t pid always K)
    (opened : ∀ w, K w → Handle Path.row p.row f w.fs) (covers : Covers t pid K p) (hashes : List Digest) (offset : Nat) :
    Stays (tenancy P (.http h)) t K (write_chunks P f offset hashes) := by
  induction hashes generalizing offset with
  | nil => exact Stays.ret tenant.stable ()
  | cons h' rest ih =>
    exact bind_stays (get_stays tenant h') fun chunk => bind_stays (tenant.write opened covers offset chunk) fun _ => ih _

theorem materialize_stays (tenant : Tenant P h t pid always K) {sid : Id} (covers : ∀ file, Covers t pid K (.snap sid file)) :
    Stays (tenancy P (.http h)) t K (materialize P sid) := by
  refine bind_stays (tenant.file (by simp) (by simp) (by simpa [FsOp.paths] using covers .manifest)) fun bytes => ?_
  refine bind_stays ?_ fun m => learn_stays (tenant.open (covers .memTmp)) fun f => ?_
  · unfold load_manifest
    split
    · exact Stays.ret tenant.stable _
    · exact Stays.raise tenant.stable _
  have more := tenant.and (endures_handle (Path.snap sid .memTmp).row f)
  have covers' : ∀ file, Covers t pid (fun w => K w ∧ Handle Path.row (Path.snap sid .memTmp).row f w.fs) (.snap sid file) :=
    fun file => (covers file).mono fun _ holds => holds.1
  refine bind_stays (write_chunks_stays more (fun _ holds => holds.2) (covers' .memTmp) m.hashes 0) fun _ => ?_
  refine more.file ?_ (by simp) ?_
  · rintro _ _ ⟨⟩
    rfl
  · intro p member
    simp only [FsOp.paths,List.mem_cons,List.not_mem_nil,or_false] at member
    rcases member with rfl | rfl
    · exact covers' .memTmp
    · exact covers' .mem

theorem reconstruct_mem_stays (tenant : Tenant P h t pid always K) {sid : Id}
    (covers : ∀ file, Covers t pid K (.snap sid file)) : Stays (tenancy P (.http h)) t K (reconstruct_mem P sid) := by
  have exists_ : ∀ file, Stays (tenancy P (.http h)) t K (fsCall (.exists (.snap sid file))) :=
    fun file => tenant.file (by simp) (by simp) (by simpa [FsOp.paths] using covers file)
  refine bind_stays (bind_stays (exists_ .mem) fun hot => ?_) fun cold => ?_
  · split
    · exact Stays.ret tenant.stable false
    · exact exists_ .manifest
  · exact bind_stays (Stays.when tenant.stable (materialize_stays tenant covers)) fun _ => Stays.ret tenant.stable _

/-- The instance is one that the thread may touch. -/
def CoversInstance (t : Nat) (pid : Id) (K : World → Prop) (iid : Id) : Prop :=
  ∀ w, Housed w → K w → Reaches t pid w (.instances,iid)

theorem CoversInstance.scratch {iid : Id} (covers : CoversInstance t pid K iid) : Covers t pid K (.scratch iid) := by
  rintro w housed holds _ ⟨⟩
  exact covers w housed holds

theorem Mine.instance {iid : Id} (known : ∀ w, K w → Mine t pid iid w) : CoversInstance t pid K iid :=
  fun w _ holds => (known w holds).reaches .instances

theorem Mine.snap {sid : Id} (known : ∀ w, K w → Mine t pid sid w) (file : SnapFile) : Covers t pid K (.snap sid file) := by
  rintro w _ holds _ ⟨⟩
  exact (known w holds).reaches .snapshots

theorem Ours.instance {iid : Id} (known : ∀ w, K w → Ours pid (.instances,iid) w) : CoversInstance t pid K iid :=
  fun w housed holds => (known w holds).reaches housed

theorem Ours.snap {sid : Id} (known : ∀ w, K w → Ours pid (.snapshots,sid) w) (file : SnapFile) :
    Covers t pid K (.snap sid file) := by
  rintro w housed holds _ ⟨⟩
  exact (known w holds).reaches housed

/-- What a thread sees of its project, it may touch. -/
theorem reaches_visible {w : World} {row : Table × Id} (housed : Housed w)
    (of : (w.db.visible t).projectOf row.1 row.2 = some pid) : Reaches t pid w row where
  own := .inl of
  apart _ of' := Option.some.inj (((housed.orderly.db.visible t).2.projectOf of').symm.trans of)

theorem Tenant.newId (tenant : Tenant P h t pid always K) :
    Learns (tenancy P (.http h)) t K (sysCall .newId) fun id w => Mine t pid id w := by
  refine tenant.learns (.sys .newId) trivial (fun _ _ _ _ => granted_free rfl) (fun id => (tenant.mine id).stable) ?_
  intro choice id w v housed _ ran
  obtain ⟨id',same,fresh,rfl⟩ := exec_newId ran
  cases same
  refine ⟨by simp [World.owner],?_⟩
  intro table q of
  have owned := housed.recorded table id q of
  simp [fresh] at owned

theorem Tenant.vm {o : VmOp} (tenant : Tenant P h t pid always K) (target : CoversInstance t pid K o.target)
    (covers : ∀ p ∈ o.paths, Covers t pid K p) : Stays (tenancy P (.http h)) t K (vmCall o) :=
  tenant.call trivial fun w housed holds _ =>
    granted_vm (target w housed holds) fun p member => covers p member w housed holds

/-- A call of `LIVE` about an instance. -/
theorem Tenant.live {o : MemOp} {iid : Id} (tenant : Tenant P h t pid always K)
    (about : o = .liveGet iid ∨ o = .liveSet iid ∨ o = .livePop iid)
    (target : CoversInstance t pid K iid) : Stays (tenancy P (.http h)) t K (memCall o) := by
  refine tenant.call trivial fun w housed holds _ => ?_
  refine ⟨?_,by simp,by simp,by simp⟩
  intro row names
  have same : row = (.instances,iid) := by
    rcases about with rfl | rfl | rfl <;> exact names
  exact same ▸ target w housed holds

/-- A free call, or an exchange with the process of the instance. -/
def Op.isNear (iid : Id) (op : Op) : Prop := op.isFree = true ∨ ∃ o : VmOp, op = .vm o ∧ o.target = iid ∧ o.paths = []

theorem Tenant.near {iid : Id} (tenant : Tenant P h t pid always K) (target : CoversInstance t pid K iid)
    {program : KProg α} (only : program.Only (Op.isNear iid)) : Stays (tenancy P (.http h)) t K program := by
  refine Stays.only tenant.stable ?_ only
  rintro op (free | ⟨o,rfl,rfl,paths⟩)
  · exact tenant.keeps trivial fun _ _ _ _ => granted_free free
  · refine tenant.keeps trivial fun w housed holds _ => granted_vm (target w housed holds) ?_
    simp [paths]

theorem near_sys {iid : Id} {o : SysOp} (free : (Op.sys o).isFree = true) : (sysCall o).Only (Op.isNear iid) :=
  Only.perform (.inl free)

theorem near_vsock_request (iid : Id) (payload : Json) : (vsock_request iid payload).Only (Op.isNear iid) :=
  Only.bind (Only.perform (.inr ⟨_,rfl,rfl,rfl⟩)) fun _ => Only.perform (.inr ⟨_,rfl,rfl,rfl⟩)

theorem near_status {iid : Id} (r : Json) : (status r).Only (Op.isNear iid) := by
  unfold status
  split <;> trivial

theorem near_wait_agent (iid : Id) (polls : Nat) : (wait_agent iid polls).Only (Op.isNear iid) := by
  induction polls with
  | zero => trivial
  | succ polls ih =>
    refine Only.bind (near_sys rfl) fun early => ?_
    split
    · trivial
    · refine Only.bind (Only.catching ?_ fun _ => trivial) fun pong => ?_
      · exact Only.bind (near_vsock_request _ _) fun _ => Only.bind (near_status _) fun _ => trivial
      · split
        · trivial
        · exact Only.bind (near_sys rfl) fun _ => ih

theorem near_quiesce (iid : Id) : (quiesce iid).Only (Op.isNear iid) :=
  Only.catching (Only.bind (near_vsock_request _ _) fun _ => near_sys rfl) fun _ => trivial

theorem near_handshake (P : Platform) (iid : Id) (i : Nat) (n : Int) : (handshake P iid i n).Only (Op.isNear iid) :=
  Only.catching (Only.bind (near_wait_agent _ _) fun _ => Only.bind (near_sys rfl) fun _ =>
    Only.bind (near_vsock_request _ _) fun _ => Only.bind (near_status _) fun _ => trivial) fun _ => trivial

theorem free_bindText (P : Platform) (value : Json) : (bindText P value).Only fun op : Op => op.isFree = true :=
  only_bindText P value

theorem connection_stays (tenant : Tenant P h t pid always K) {body : KProg α}
    (inside : Stays (tenancy P (.http h)) t K body) : Stays (tenancy P (.http h)) t K (connection body) :=
  Stays.catching tenancy_lawful inside fun e =>
    bind_stays (tenant.free (Only.perform rfl)) fun _ => Stays.raise tenant.stable e

theorem boot_vm_stays (tenant : Tenant P h t pid always K) {iid : Id} (target : CoversInstance t pid K iid)
    {load_from : Option (Path × Path)} (loads : ∀ snap mem, load_from = some (snap,mem) → Covers t pid K snap ∧ Covers t pid K mem)
    {scratch_src : Option Path} (source : ∀ src, scratch_src = some src → Covers t pid K src) :
    Stays (tenancy P (.http h)) t K (boot_vm iid load_from scratch_src) := by
  have fresh : Stays (tenancy P (.http h)) t K (fresh_scratch iid) := by
    refine bind_stays (tenant.file (by simp) (by simp) (by simpa [FsOp.paths] using target.scratch)) fun _ => ?_
    exact Stays.when tenant.stable (tenant.file (by simp) (by simp) (by simpa [FsOp.paths] using target.scratch))
  refine bind_stays (tenant.free (Only.perform rfl)) fun _ => bind_stays ?_ fun _ => ?_
  · cases scratch_src with
    | none => exact fresh
    | some src =>
      have covers := source src rfl
      refine bind_stays (tenant.file (by simp) (by simp) (by simpa [FsOp.paths] using covers)) fun there => ?_
      split
      · refine tenant.file (by simp) (by simp) ?_
        intro p member
        rcases List.mem_pair.mp member with rfl | rfl
        · exact covers
        · exact target.scratch
      · exact fresh
  refine bind_stays (tenant.vm target (by simp [VmOp.paths])) fun _ => bind_stays ?_ fun _ => ?_
  · cases load_from with
    | none => exact tenant.vm target (by simp [VmOp.paths])
    | some files =>
      obtain ⟨first,second⟩ := loads files.1 files.2 rfl
      refine tenant.vm target ?_
      intro p member
      rcases List.mem_pair.mp member with rfl | rfl
      · exact first
      · exact second
  · exact tenant.live (.inr (.inl rfl)) target

/-- A statement of a tenant. -/
theorem Tenant.execute {ok : Op → Prop} (tenant : Tenant P h t pid ok K) {stmt : Stmt} (allowed : ok (.db (.execute stmt)))
    (rows : ∀ w, Housed w → K w → stmt.Fits (w.db.visible t) → ∀ row ∈ stmt.names, Reaches t pid w row)
    (within : ∀ w, Housed w → K w → stmt.Within (w.db.visible t) pid)
    (fresh : ∀ w, K w → ∀ row, stmt.adds = some row → w.owner row.2 = some t)
    (filed : ∀ row, stmt = .insertSnapshot row → row.Filed) :
    Stays (tenancy P (.http h)) t K (dbCall (.execute stmt)) :=
  tenant.call allowed fun w housed holds permitted =>
    granted_execute (rows w housed holds permitted.1) (within w housed holds) (fresh w holds) filed

theorem Tenant.commit {ok : Op → Prop} (tenant : Tenant P h t pid ok K) (allowed : ok (.db .commit)) :
    Stays (tenancy P (.http h)) t K (dbCall .commit) := by
  refine tenant.call allowed fun w housed holds _ => ⟨?_,by simp,by simp,fun _ => (tenant.acting w holds).clean⟩
  exact fun row names => False.elim names

/-- What rows that are added leave true of the tables that a thread sees stays true until it rolls back. -/
theorem endures_seen (J : Tables → Prop) (grown : ∀ T T', Grows T T' → J T → J T') :
    Endures P h t (fun op => op ≠ .db .rollback) fun w => J (w.db.visible t) where
  relied _ _ _ _ onward holds := grown _ _ onward.relies.visible holds
  own op choice outcome w v allowed housed _ _ permitted ran holds := by
    by_cases db : op.kind = .db
    swap
    · exact (exec_db db ran).symm ▸ holds
    cases op with
    | fs o => rcases o.kind_cases with kind | kind <;> simp [Op.kind,kind] at db
    | mem o | vm o => cases o <;> cases db
    | s3 o | sys o => cases db
    | db o =>
      obtain ⟨db',acts,rfl⟩ := exec_dbActs ran
      cases acts with
      | fails | read | unchanged => exact holds
      | @wrote stmt T _ applied =>
        rw [Db.visible_own rfl]
        exact grown _ _ ((housed.orderly.db.visible t).1.apply permitted.1 applied).2 holds
      | refused =>
        rw [Db.visible_own rfl]
        exact holds
      | @committed T held =>
        rw [Db.visible_own held] at holds
        exact holds
      | rolled | idle => exact absurd rfl allowed

/-- A row that a thread sees stays until it rolls back. -/
theorem endures_visible (pid : Id) (table : Table) (id : Id) : Endures P h t (fun op => op ≠ .db .rollback)
    fun w => (w.db.visible t).projectOf table id = some pid :=
  endures_seen (fun T => T.projectOf table id = some pid) fun _ _ grows of => grows.projectOf of

/-- What an INSERT of a run leaves for its thread to see. -/
theorem Tenant.insertRun (tenant : Tenant P h t pid always K) {row : RunRow} (project : row.project_id = pid)
    (mine : ∀ w, K w → Mine t pid row.id w) : Learns (tenancy P (.http h)) t K (dbCall (.execute (.insertRun row)))
      fun _ w => (w.db.visible t).projectOf .runs row.id = some pid := by
  refine tenant.learns (.db (.execute (.insertRun row))) trivial ?_ ?_ ?_
  · intro w housed holds _
    refine granted_execute ?_ project ?_ (by simp)
    · intro row' member
      rw [List.mem_singleton.mp member]
      exact (mine w holds).reaches .runs
    · rintro _ ⟨⟩
      exact (mine w holds).1
  · intro r
    exact ((tenant.mono fun _ _ => trivial).and (endures_visible _ .runs row.id)).stable
  · intro choice r w v housed _ ran
    obtain ⟨db',acts,rfl⟩ := exec_dbActs ran
    cases acts with
    | @wrote stmt T _ applied =>
      rw [Db.visible_own rfl]
      exact (places_insertRun project applied).2

theorem create_run_stays (tenant : Tenant P h t pid always K) (image_label : Json) :
    Stays (tenancy P (.http h)) t K (create_run P pid image_label) := by
  refine learn_stays tenant.newId fun rid => learn_stays (tenant.mine rid).newId fun iid => ?_
  have both := (tenant.mine rid).mine iid
  have target : CoversInstance t pid (fun w => (K w ∧ Mine t pid rid w) ∧ Mine t pid iid w) iid :=
    Mine.instance fun _ holds => holds.2
  refine bind_stays (connection_stays both ?_) fun _ => ?_
  · refine bind_stays (both.free (Only.perform rfl)) fun now => bind_stays (both.free (free_bindText P _)) fun image => ?_
    refine learn_stays (both.insertRun rfl fun _ holds => holds.1.2) fun _ => ?_
    have seen := (both.mono fun _ _ => trivial).and (endures_visible pid .runs rid)
    refine bind_stays (seen.call (by simp) fun _ _ _ _ => granted_free rfl) fun now => ?_
    refine bind_stays (seen.execute (by simp) ?_ (fun w _ holds => holds.2) ?_ (by simp)) fun _ => seen.commit (by simp)
    · intro w housed holds _ row member
      rcases List.mem_pair.mp (by simpa [Stmt.names] using member) with rfl | rfl
      · exact holds.1.2.reaches .instances
      · exact holds.1.1.2.reaches .runs
    · rintro w holds _ ⟨⟩
      exact holds.1.2.1
  · refine bind_stays (boot_vm_stays both target (by simp) (by simp)) fun _ => ?_
    exact bind_stays (both.near target (near_wait_agent _ _)) fun _ => Stays.ret both.stable _

/-- The instance that was read is of a run of the project. -/
def RunOurs (pid iid : Id) (T : Tables) (w : World) : Prop := ∀ row, T.instance? iid = some row → Ours pid (.runs,row.run_id) w

theorem endures_runOurs (pid : Id) (iid : Id) (T : Tables) : Endures P h t always (RunOurs pid iid T) :=
  .each fun row => endures_ours pid (.runs,row.run_id)

/-- The run of an instance never changes, so the run that is read is the one of the committed row. -/
theorem Tenant.readInstance (tenant : Tenant P h t pid always K) {iid : Id} (ours : ∀ w, K w → Ours pid (.instances,iid) w) :
    Learns (tenancy P (.http h)) t K (dbCall .read) fun (T : Tables) => RunOurs pid iid T := by
  refine tenant.learns (.db .read) trivial (fun _ _ _ _ => granted_free rfl)
    (fun T => (tenant.and (endures_runOurs _ iid T)).stable) ?_
  intro choice T w v housed holds ran row found
  obtain ⟨db',acts,rfl⟩ := exec_dbActs ran
  cases acts with
  | read =>
    obtain ⟨rid,run,project⟩ := Option.bind_eq_some_iff.mp ((projectOf_eq _ _ _).symm.trans (ours w holds))
    have same := (housed.orderly.db.visible t).2.runOf run
    rw [show (w.db.visible t).runOf .instances iid = some row.run_id by simp [Tables.runOf,found]] at same
    cases same
    exact project

theorem snapshot_instance_stays (tenant : Tenant P h t pid always K) {iid : Id}
    (ours : ∀ w, K w → Ours pid (.instances,iid) w) (label : Json) :
    Stays (tenancy P (.http h)) t K (snapshot_instance P iid label) := by
  refine bind_stays (tenant.live (.inl rfl) (Ours.instance ours)) fun live => ?_
  split
  · exact Stays.raise tenant.stable _
  refine connection_stays tenant (learn_stays (tenant.readInstance ours) fun T => ?_)
  have its := tenant.and (endures_runOurs pid iid T)
  split
  · exact Stays.raise its.stable _
  rename_i row found
  refine learn_stays its.newId fun sid => ?_
  have known := its.mine sid
  have run : ∀ w, ((K w ∧ RunOurs pid iid T w) ∧ Mine t pid sid w) → Ours pid (.runs,row.run_id) w :=
    fun w holds => holds.1.2 row found
  have at_ : CoversInstance t pid (fun w => (K w ∧ RunOurs pid iid T w) ∧ Mine t pid sid w) iid :=
    Ours.instance fun w holds => ours w holds.1.1
  have files : ∀ file, Covers t pid (fun w => (K w ∧ RunOurs pid iid T w) ∧ Mine t pid sid w) (.snap sid file) :=
    Mine.snap fun _ holds => holds.2
  refine bind_stays (known.free (Only.perform rfl)) fun _ => bind_stays (known.free (Only.perform rfl)) fun _ => ?_
  refine bind_stays (known.near at_ (near_quiesce iid)) fun _ => ?_
  refine bind_stays (known.vm at_ (by simp [VmOp.paths])) fun _ => bind_stays (known.vm at_ ?_) fun _ => ?_
  · intro p member
    rcases List.mem_pair.mp member with rfl | rfl
    · exact files .vmstate
    · exact files .mem
  refine bind_stays (known.free (Only.perform rfl)) fun _ => bind_stays ?_ fun _ => ?_
  · refine bind_stays (known.file (by simp) (by simp) (by simpa [FsOp.paths] using at_.scratch)) fun there => ?_
    refine Stays.when known.stable (known.file (by simp) (by simp) ?_)
    intro p member
    rcases List.mem_pair.mp member with rfl | rfl
    · exact at_.scratch
    · exact files .scratch
  refine bind_stays (known.vm at_ (by simp [VmOp.paths])) fun _ => ?_
  refine bind_stays (chunk_mem_stays known files) fun logical => ?_
  refine bind_stays (known.file (by simp) (by simp) (by simpa [FsOp.paths] using files .vmstate)) fun state => ?_
  refine bind_stays (known.free (Only.perform rfl)) fun now => bind_stays (known.free (free_bindText P _)) fun text => ?_
  refine bind_stays (known.execute trivial ?_ ?_ ?_ ?_) fun _ => ?_
  · intro w housed holds fits row' member
    have visible := (housed.orderly.db.visible t).2.projectOf (run w holds)
    rcases List.mem_append.mp member with first | parent
    · rcases List.mem_pair.mp first with rfl | rfl
      · exact holds.2.reaches .snapshots
      · exact (run w holds).reaches housed
    · -- the parent is a snapshot of the same run
      obtain ⟨pid',listed,rfl⟩ := List.mem_map.mp parent
      obtain ⟨old,there,rfl,group⟩ := fits.2 pid' (by simpa using listed)
      refine reaches_visible housed ?_
      have same : old.run_id = row.run_id := group
      exact ((housed.orderly.db.visible t).1.projectOf_snapshot there).trans (same ▸ visible)
  · exact fun w housed holds => (housed.orderly.db.visible t).2.projectOf (run w holds)
  · rintro w holds _ ⟨⟩
    exact holds.2.1
  · rintro _ ⟨⟩
    exact ⟨rfl,rfl⟩
  refine bind_stays (known.execute trivial ?_ ?_ (by simp [Stmt.adds]) (by simp)) fun _ => ?_
  · intro w housed holds _ row' member
    rcases List.mem_pair.mp member with rfl | rfl
    · exact at_ w housed holds
    · exact holds.2.reaches .snapshots
  · exact fun w housed holds => (housed.orderly.db.visible t).2.projectOf (ours w holds.1.1)
  exact bind_stays (known.commit trivial) fun _ => Stays.ret known.stable _

/-- The snapshot that was read has its own files, and its run is the project's. -/
def SnapOurs (pid sid : Id) (T : Tables) (w : World) : Prop :=
  ∀ snap, T.snapshot? sid = some snap → snap.Filed ∧ Ours pid (.runs,snap.run_id) w

theorem endures_snapOurs (pid : Id) (sid : Id) (T : Tables) : Endures P h t always (SnapOurs pid sid T) := by
  refine .each fun snap => ⟨?_,?_⟩
  · exact fun w v housed housed' onward holds =>
      ⟨holds.1,(endures_ours (P := P) (h := h) _ _).relied w v housed housed' onward holds.2⟩
  · exact fun op choice outcome w v allowed housed housed' may permitted ran holds =>
      ⟨holds.1,(endures_ours _ _).own op choice outcome w v allowed housed housed' may permitted ran holds.2⟩

theorem Tenant.readSnapshot (tenant : Tenant P h t pid always K) {sid : Id} (ours : ∀ w, K w → Ours pid (.snapshots,sid) w) :
    Learns (tenancy P (.http h)) t K (dbCall .read) fun (T : Tables) => SnapOurs pid sid T := by
  refine tenant.learns (.db .read) trivial (fun _ _ _ _ => granted_free rfl)
    (fun T => (tenant.and (endures_snapOurs _ sid T)).stable) ?_
  intro choice T w v housed holds ran snap found
  obtain ⟨db',acts,rfl⟩ := exec_dbActs ran
  cases acts with
  | read =>
    refine ⟨housed.filed.visible t snap (List.mem_of_find?_eq_some found),?_⟩
    obtain ⟨rid,run,project⟩ := Option.bind_eq_some_iff.mp ((projectOf_eq _ _ _).symm.trans (ours w holds))
    have same := (housed.orderly.db.visible t).2.runOf run
    rw [show (w.db.visible t).runOf .snapshots sid = some snap.run_id by simp [Tables.runOf,found]] at same
    cases same
    exact project

theorem fork_child_stays (tenant : Tenant P h t pid always K) {snap : SnapshotRow} (filed : snap.Filed)
    (ours : ∀ w, K w → Ours pid (.snapshots,snap.id) w) (run : ∀ w, K w → Ours pid (.runs,snap.run_id) w) (n : Int) (i : Nat) :
    Stays (tenancy P (.http h)) t K (fork_child P snap n i) := by
  refine learn_stays tenant.newId fun iid => ?_
  have known := tenant.mine iid
  have target : CoversInstance t pid (fun w => K w ∧ Mine t pid iid w) iid := Mine.instance fun _ holds => holds.2
  have files : ∀ file, Covers t pid (fun w => K w ∧ Mine t pid iid w) (.snap snap.id file) :=
    Ours.snap fun w holds => ours w holds.1
  refine bind_stays (boot_vm_stays known target ?_ ?_) fun _ => ?_
  · rintro _ _ ⟨⟩
    exact ⟨filed.1 ▸ files .vmstate,filed.2 ▸ files .mem⟩
  · rintro _ ⟨⟩
    exact files .scratch
  refine bind_stays (known.near target (near_handshake P _ _ _)) fun branch => ?_
  refine bind_stays (known.free (Only.perform rfl)) fun now => ?_
  refine bind_stays (known.execute trivial ?_ ?_ ?_ (by simp)) fun _ => Stays.ret known.stable _
  · intro w housed holds _ row member
    have named : row = (.instances,iid) ∨ row = (.runs,snap.run_id) ∨ row = (.snapshots,snap.id) := by
      simpa [Stmt.names] using member
    rcases named with rfl | rfl | rfl
    · exact holds.2.reaches .instances
    · exact (run w holds.1).reaches housed
    · exact (ours w holds.1).reaches housed
  · exact fun w housed holds => (housed.orderly.db.visible t).2.projectOf (run w holds.1)
  · rintro w holds _ ⟨⟩
    exact holds.2.1

theorem fork_snapshot_stays (tenant : Tenant P h t pid always K) {sid : Id} (ours : ∀ w, K w → Ours pid (.snapshots,sid) w)
    (n : Int) : Stays (tenancy P (.http h)) t K (fork_snapshot P sid n) := by
  refine connection_stays tenant (learn_stays (tenant.readSnapshot ours) fun T => ?_)
  have its := tenant.and (endures_snapOurs pid sid T)
  split
  · exact Stays.raise its.stable _
  rename_i snap found
  have named : snap.id = sid := by simpa using List.find?_some found
  subst named
  intro w housed holds
  -- the row names its own files for good
  obtain ⟨filed,_⟩ := holds.2 snap found
  refine bind_stays (reconstruct_mem_stays its (Ours.snap fun w holds => ours w holds.1)) (fun _ => ?_) w housed holds
  refine bind_stays (Stays.each tenancy_lawful its.stable fun i _ => ?_) fun children => ?_
  · exact fork_child_stays its filed (fun w holds => ours w holds.1) (fun w holds => (holds.2 snap found).2) n i
  · exact bind_stays (its.commit trivial) fun _ => Stays.ret its.stable _

theorem destroy_instance_stays (tenant : Tenant P h t pid always K) {iid : Id}
    (ours : ∀ w, K w → Ours pid (.instances,iid) w) : Stays (tenancy P (.http h)) t K (destroy_instance iid) := by
  have target := Ours.instance (t := t) ours
  refine bind_stays (tenant.live (.inr (.inr rfl)) target) fun live => ?_
  refine bind_stays (Stays.when tenant.stable (tenant.vm target (by simp [VmOp.paths]))) fun _ => ?_
  refine bind_stays (connection_stays tenant (bind_stays (tenant.execute trivial ?_ ?_ (by simp [Stmt.adds]) (by simp)) fun _ =>
    tenant.commit trivial)) fun _ => Stays.ret tenant.stable _
  · intro w housed holds _ row member
    rw [List.mem_singleton.mp member]
    exact target w housed holds
  · exact fun w housed holds => (housed.orderly.db.visible t).2.projectOf (ours w holds)

/-! ## The routes -/

theorem create_project_stays (tenant : Tenant P h t pid always K) (name : Json) :
    Stays (tenancy P (.http h)) t K (create_project P name) := by
  refine bind_stays (tenant.free (Only.perform rfl)) fun secret => bind_stays (tenant.free (Only.perform rfl)) fun id => ?_
  refine bind_stays (connection_stays tenant ?_) fun _ => Stays.ret tenant.stable _
  refine bind_stays (tenant.free (Only.perform rfl)) fun now => bind_stays (tenant.free (free_bindText P _)) fun text => ?_
  refine bind_stays (tenant.execute trivial ?_ (fun _ _ _ => trivial) (by simp [Stmt.adds]) (by simp)) fun _ =>
    tenant.commit trivial
  exact fun _ _ _ _ _ member => by simp [Stmt.names] at member

theorem fs_diff_stays (tenant : Tenant P h t pid always K) (W : Web) {a b : Id}
    (first : ∀ w, K w → Ours pid (.snapshots,a) w) (second : ∀ w, K w → Ours pid (.snapshots,b) w) :
    Stays (tenancy P (.http h)) t K (fs_diff W a b) := by
  have file : ∀ {o : FsOp} {sid : Id}, (∀ w, K w → Ours pid (.snapshots,sid) w) →
      o = .exists (.snap sid .scratch) ∨ o = .readFile (.snap sid .scratch) → Stays (tenancy P (.http h)) t K (fsCall o) := by
    intro o sid ours which
    refine tenant.file ?_ ?_ ?_ <;> rcases which with rfl | rfl
    any_goals simp
    all_goals simpa [FsOp.paths] using Ours.snap ours .scratch
  refine bind_stays (bind_stays (file first (.inl rfl)) fun there => ?_) fun both => ?_
  · split
    · exact file second (.inl rfl)
    · exact Stays.ret tenant.stable false
  split
  · exact Stays.ret tenant.stable _
  have mounts : ∀ {sid : Id}, (∀ w, K w → Ours pid (.snapshots,sid) w) → Stays (tenancy P (.http h)) t K (mount_ro W sid) :=
    fun ours => bind_stays (file ours (.inr rfl)) fun _ => Stays.ofOutcome tenant.stable _
  refine bind_stays (mounts first) fun ma => bind_stays (mounts second) fun mb => ?_
  refine Stays.only tenant.stable (fun op looks => ?_) (Mounts.looks_compare W.text a b ma mb)
  refine tenant.keeps trivial fun w housed holds _ => ?_
  rcases looks with looks | looks
  · exact granted_looks looks ((first w holds).reaches housed)
  · exact granted_looks looks ((second w holds).reaches housed)

/-- A tenant that has no transaction, while it only reads. -/
structure Asking (P : Platform) (h : Http) (t : Nat) (pid : Id) (K : World → Prop) : Prop where
  tenant : Tenant P h t pid (fun op => op = .db .read) K
  idle : ∀ w, K w → Unborn t w

theorem endures_unborn : Endures P h t (fun op => op = .db .read) (Unborn t) where
  relied _ _ _ _ onward free := onward.relies.txn free
  own op choice outcome w v reads _ _ _ _ ran free := by
    subst reads
    obtain ⟨db',acts,rfl⟩ := exec_dbActs ran
    cases acts <;> exact free

theorem Asking.and {X : World → Prop} (asking : Asking P h t pid K) (more : Endures P h t always X) :
    Asking P h t pid fun w => K w ∧ X w :=
  ⟨asking.tenant.and (more.mono fun _ _ => trivial),fun w holds => asking.idle w holds.1⟩

/-- Who is past `_require_owner` was given a row of the project. -/
theorem Asking.require_owner (asking : Asking P h t pid K) (table : Table) (val : Id) :
    Learns (tenancy P (.http h)) t K (require_owner pid table val) fun _ w => Ours pid (table,val) w := by
  have stable : ∀ c : Prop, Stable (tenancy P (.http h)) t fun w => K w ∧ (c → Ours pid (table,val) w) := by
    rintro c w v housed housed' onward ⟨holds,ours⟩
    exact ⟨asking.tenant.stable w v housed housed' onward holds,fun given => onward.relies.committed.projectOf (ours given)⟩
  have read : Learns (tenancy P (.http h)) t K (dbCall .read)
      fun (T : Tables) w => T.projectOf table val = some pid → Ours pid (table,val) w := by
    refine asking.tenant.learns (.db .read) rfl (fun _ _ _ _ => granted_free rfl) (fun T => stable _) ?_
    intro choice T w v housed holds ran of
    obtain ⟨db',acts,rfl⟩ := exec_dbActs ran
    cases acts with
    | read =>
      rw [Db.visible_other (asking.idle w holds)] at of
      exact of
  have asked : Learns (tenancy P (.http h)) t K (project_of table val)
      fun owner w => owner = some pid → Ours pid (table,val) w :=
    Triple.bind tenancy_lawful read (fun T => Triple.ret (stable _) fun _ _ holds => holds) fun _ _ _ holds => holds
  refine Triple.bind tenancy_lawful asked (fun owner => ?_) fun _ _ _ holds => holds
  split
  · rename_i owned
    exact Triple.ret (stable _) fun _ _ holds => ⟨holds.1,holds.2 owned⟩
  · exact Triple.raise (stable _) fun _ _ holds => ⟨holds.1,trivial⟩

/-- What a request may come to. -/
abbrev Kept (P : Platform) (h : Http) (t : Nat) (K : World → Prop) (program : KProg α) : Prop :=
  Triple (tenancy P (.http h)) t K program fun _ _ => True

theorem kept_bind {program : KProg α} {rest : α → KProg β} {X : α → World → Prop}
    (first : Learns (tenancy P (.http h)) t K program X)
    (onward : ∀ value, Kept P h t (fun w => K w ∧ X value w) (rest value)) : Kept P h t K (program >>= rest) :=
  Triple.bind tenancy_lawful first onward fun _ _ _ _ => trivial

theorem kept_silent {program : KProg α} {rest : α → KProg β} (stable : Stable (tenancy P (.http h)) t K)
    (only : program.Only fun _ => False) (onward : ∀ value, Kept P h t K (rest value)) : Kept P h t K (program >>= rest) :=
  Triple.bind tenancy_lawful (Stays.silent stable only) onward fun _ _ _ _ => trivial

theorem kept_pure (stable : Stable (tenancy P (.http h)) t K) (value : α) : Kept P h t K (pure value) :=
  Triple.ret stable fun _ _ _ => trivial

theorem stable_any : Stable (tenancy P (.http h)) t fun _ => True := fun _ _ _ _ _ => id

/-- The handler itself, which need not know that the thread has no transaction. -/
theorem kept_send {K' : World → Prop} {program : KProg Json} (stays : Stays (tenancy P (.http h)) t K' program)
    (enough : ∀ w, K w → K' w) : Kept P h t K (send program) := by
  refine Triple.bind tenancy_lawful (M := fun _ _ => True) ?_ (fun _ => kept_pure stable_any _) fun _ _ _ _ => trivial
  exact stays.consequence (fun w _ holds => enough w holds) fun _ _ _ _ => trivial

theorem tenant_acting : Tenant P h t pid always (Acting P h t pid) := ⟨endures_acting,fun _ => id⟩

theorem asking_acting : Asking P h t pid fun w => Acting P h t pid w ∧ Unborn t w where
  tenant := ⟨(endures_acting.mono fun _ _ => trivial).and endures_unborn,fun _ holds => holds.1⟩
  idle _ holds := holds.2

theorem silent_bodyField (b : Json) (key : String) (default : Json) : (bodyField b key default).Only fun _ => False := by
  unfold bodyField
  split <;> trivial

theorem get_route_kept (W : Web) (p : List String) :
    Kept P h t (fun w => Acting P h t pid w ∧ Unborn t w) (get_route W pid p) := by
  have asking : Asking P h t pid _ := asking_acting
  have reading : ∀ {program : KProg Json}, Asks program → Stays (tenancy P (.http h)) t (Acting P h t pid) program :=
    fun asks => tenant_acting.free (Only.mono (by rintro op rfl; rfl) asks)
  unfold get_route
  split
  · exact kept_send (reading (asks_list_runs pid)) fun _ holds => holds.1
  · exact kept_send (reading (asks_usage _ pid)) fun _ holds => holds.1
  · exact kept_bind (asking.require_owner _ _) fun _ => kept_send (reading (asks_timeline _)) fun _ holds => holds.1.1
  · rename_i a b
    refine kept_bind (asking.require_owner .snapshots a) fun _ => ?_
    refine kept_bind ((asking.and (endures_ours _ _)).require_owner .snapshots b) fun _ => ?_
    have tenant : Tenant P h t pid always _ := tenant_acting
    have both := tenant.and
      ((endures_ours pid (.snapshots,a)).and (endures_ours pid (.snapshots,b)))
    exact kept_send (fs_diff_stays both W (fun _ holds => holds.2.1) fun _ holds => holds.2.2)
      fun _ holds => ⟨holds.1.1.1,holds.1.2,holds.2⟩
  · exact kept_pure asking.tenant.stable _

theorem post_route_kept (W : Web) (b : Json) (p : List String) :
    Kept W.platform h t (fun w => Acting W.platform h t pid w ∧ Unborn t w) (post_route W pid b p) := by
  have asking : Asking W.platform h t pid _ := asking_acting
  have owning : ∀ row, Tenant W.platform h t pid always fun w => Acting W.platform h t pid w ∧ Ours pid row w :=
    fun row => tenant_acting.and (endures_ours _ row)
  have stable : ∀ row, Stable (tenancy W.platform (.http h)) t
      fun w => (Acting W.platform h t pid w ∧ Unborn t w) ∧ Ours pid row w :=
    fun row => (asking.and (endures_ours _ row)).tenant.stable
  unfold post_route
  split
  · exact kept_silent asking.tenant.stable (silent_bodyField _ _ _) fun name =>
      kept_send (create_project_stays tenant_acting name) fun _ holds => holds.1
  · exact kept_silent asking.tenant.stable (silent_bodyField _ _ _) fun image =>
      kept_send (create_run_stays tenant_acting image) fun _ holds => holds.1
  · refine kept_bind (asking.require_owner .instances _) fun _ => ?_
    refine kept_silent (stable _) (silent_bodyField _ _ _) fun label => ?_
    exact kept_send (snapshot_instance_stays (owning _) (fun _ holds => holds.2) label) fun _ holds => ⟨holds.1.1,holds.2⟩
  · refine kept_bind (asking.require_owner .snapshots _) fun _ => ?_
    refine kept_silent (stable _) (silent_bodyField _ _ _) fun n => kept_silent (stable _) (Only.ofOutcome _) fun n => ?_
    exact kept_send (fork_snapshot_stays (owning _) (fun _ holds => holds.2) n) fun _ holds => ⟨holds.1.1,holds.2⟩
  · refine kept_bind (asking.require_owner .instances _) fun _ => ?_
    exact kept_send (destroy_instance_stays (owning _) fun _ holds => holds.2) fun _ holds => ⟨holds.1.1,holds.2⟩
  · exact kept_pure asking.tenant.stable _

/-- Any request may read the tables. -/
theorem may_read (P : Platform) (h : Http) {X : Except Exn Tables → World → Prop}
    (post : ∀ outcome w, K w → (∀ T, outcome = .ok T → T = w.db.visible t) → X outcome w) :
    Acts (tenancy P (.http h)) t K (.db .read) X where
  keeps := by
    rintro w outcome v housed holds ⟨⟨choice,ran⟩,permitted⟩
    have may : May P t (.http h) (.db .read) w := .inl rfl
    refine ⟨housed.exec may permitted ran,⟨may,choice,outcome,ran⟩,?_⟩
    obtain ⟨db',acts,rfl⟩ := exec_dbActs ran
    cases acts with
    | fails => exact post _ w holds (by simp)
    | read => exact post _ w holds (by simp)

/-- What `_authed` finds, the key opens. -/
theorem authed_learns (P : Platform) (h : Http) : Learns (tenancy P (.http h)) t (Unborn t) (authed P h.key)
    fun found w => ∀ pid, found = some pid → Acting P h t pid w := by
  have free : Stable (tenancy P (.http h)) t (Unborn t) := (endures_unborn (P := P) (h := h)).relied
  have stable : ∀ c : Id → Prop, Stable (tenancy P (.http h)) t fun w => Unborn t w ∧ ∀ pid, c pid → Acting P h t pid w := by
    rintro c w v housed housed' onward ⟨idle,acting⟩
    exact ⟨free w v housed housed' onward idle,fun pid known =>
      endures_acting.relied w v housed housed' onward (acting pid known)⟩
  unfold authed project_of_key
  split
  · exact Triple.ret free fun w _ idle => ⟨idle,by rintro pid ⟨⟩⟩
  rename_i given
  have read : Learns (tenancy P (.http h)) t (Unborn t) (dbCall .read) fun (T : Tables) w => ∀ pid,
      (T.projectOfKey (P.sha256 h.key)).filter (· ≠ "") = some pid → Acting P h t pid w := by
    refine Triple.perform free (may_read P h ?_) ?_
    · rintro outcome w idle seen
      refine ⟨idle,?_⟩
      cases outcome with
      | error e => trivial
      | ok T =>
        obtain rfl := seen T rfl
        intro pid opens
        rw [Db.visible_other idle] at opens
        exact ⟨by simpa [Tables.opens,given] using opens,fun q _ => by rw [Db.visible_other idle]⟩
    · intro outcome
      cases outcome with
      | ok T => exact stable _
      | error e => exact fun w v housed housed' onward holds => ⟨free w v housed housed' onward holds.1,trivial⟩
  refine Triple.bind tenancy_lawful (M := fun outcome w => Unborn t w ∧ Ends (fun (found : Option Id) w => ∀ pid,
    found.filter (· ≠ "") = some pid → Acting P h t pid w) outcome w) ?_ (fun found => ?_) fun _ _ _ holds => holds
  · exact Triple.bind tenancy_lawful read (fun T => Triple.ret (stable _) fun _ _ holds => holds) fun _ _ _ holds => holds
  · exact Triple.ret (stable _) fun _ _ holds => holds

theorem handle_kept (W : Web) (h : Http) : Kept W.platform h t (Unborn t) (handle W h) := by
  have free : Stable (tenancy W.platform (.http h)) t (Unborn t) := (endures_unborn (P := W.platform) (h := h)).relied
  have caught : ∀ {K : World → Prop} {program : KProg Response}, Kept W.platform h t K program →
      Kept W.platform h t K (tryCatch program refused) := by
    intro K program inside
    refine Triple.catching tenancy_lawful inside (fun _ _ _ _ => trivial) fun e => ?_
    unfold refused
    split <;> exact kept_pure stable_any _
  have refuses : ∀ {found : Option Id}, Stable (tenancy W.platform (.http h)) t
      fun w => Unborn t w ∧ ∀ pid, found = some pid → Acting W.platform h t pid w := by
    rintro found w v housed housed' onward ⟨idle,acting⟩
    exact ⟨free w v housed housed' onward idle,fun pid known =>
      endures_acting.relied w v housed housed' onward (acting pid known)⟩
  have enough : ∀ {found : Option Id} {pid : Id} {program : KProg Response}, found = some pid →
      Kept W.platform h t (fun w => Acting W.platform h t pid w ∧ Unborn t w) program →
      Kept W.platform h t (fun w => Unborn t w ∧ ∀ pid, found = some pid → Acting W.platform h t pid w) program :=
    fun same kept => kept.consequence (fun w _ holds => ⟨holds.2 _ same,holds.1⟩) fun _ _ _ holds => holds
  unfold handle
  split
  · unfold do_GET
    split
    · exact kept_pure free _
    refine kept_bind (authed_learns _ _) fun found => ?_
    split
    · exact kept_pure refuses _
    · exact caught (enough rfl (get_route_kept W _))
  · refine kept_bind (authed_learns _ _) fun found => ?_
    split
    · exact kept_pure refuses _
    · refine caught (enough rfl (kept_silent asking_acting.tenant.stable (Only.ofOutcome _) fun b => ?_))
      exact post_route_kept W b _

theorem meters_meter_rows (dt : Rat) (live : List Id) (accr : List (Id × Rat × Rat)) :
    (meter_rows dt live accr).Only fun op : Op => op.meters = true := by
  induction live generalizing accr with
  | nil => trivial
  | cons iid rest ih =>
    refine Only.bind (Only.perform rfl) fun T => ?_
    split
    · exact ih accr
    · exact ih _

theorem meters_meter_pass : meter_pass.Only fun op : Op => op.meters = true := by
  refine Only.catching (Only.bind (Only.catching ?_ fun _ => Only.bind (Only.perform rfl) fun _ => trivial) fun _ => trivial)
    fun _ => trivial
  refine Only.bind (Only.perform rfl) fun live => Only.bind (meters_meter_rows _ _ _) fun accr => ?_
  refine Only.bind (Only.perform rfl) fun now => Only.bind (Only.each fun _ => Only.perform rfl) fun _ => ?_
  exact Only.bind (Only.perform rfl) fun _ => trivial

/-- The transaction of a pass holds usage only. -/
theorem charged_stable : Stable (tenancy P .meter) t fun w => Charged w.db.committed (w.db.visible t) := by
  intro w v _ _ onward charged
  by_cases held : ∃ T, w.db.txn = some (t,T)
  · obtain ⟨T,held⟩ := held
    obtain ⟨held',same⟩ := onward.txn T held
    rw [Db.visible_own held] at charged
    rwa [Db.visible_own held',same]
  · rw [Db.visible_other (onward.relies.txn fun T same => held ⟨T,same⟩)]
    exact ⟨rfl,rfl,rfl,rfl⟩

theorem charged_exec {op : Op} {choice : Choice} {w v : World} {outcome : Except Exn op.Res} (meters : op.meters = true)
    (charged : Charged w.db.committed (w.db.visible t)) (ran : exec P t op choice w = some (outcome,v)) :
    Charged v.db.committed (v.db.visible t) := by
  by_cases db : op.kind = .db
  swap
  · rwa [exec_db db ran]
  cases op with
  | fs o => rcases o.kind_cases with kind | kind <;> simp [Op.kind,kind] at db
  | mem o | vm o => cases o <;> cases db
  | s3 o | sys o => cases db
  | db o =>
    obtain ⟨db',acts,rfl⟩ := exec_dbActs ran
    cases acts with
    | fails | read | unchanged | idle => exact charged
    | @wrote stmt T _ applied =>
      cases stmt with
      | accrue pid v g now =>
        cases applied
        refine (congrArg (Charged w.db.committed) (Db.visible_own rfl)).mpr ?_
        exact ⟨charged.projects,charged.runs,charged.snapshots,charged.instances⟩
      | insertProject | insertRun | insertSnapshot | insertInstance | setSnapshot | setDestroyed => cases meters
    | refused => exact (congrArg (Charged w.db.committed) (Db.visible_own rfl)).mpr charged
    | committed | rolled => exact ⟨rfl,rfl,rfl,rfl⟩

theorem meter_kept (W : Web) : Triple (tenancy P .meter) t (Unborn t) (Arrival.body W .meter) fun _ _ => True := by
  have meters : (Arrival.body W .meter).Only fun op : Op => op.meters = true :=
    Only.bind meters_meter_pass fun _ => trivial
  have keeps : ∀ op : Op, op.meters = true → Acts (tenancy P .meter) t (fun w => Charged w.db.committed (w.db.visible t)) op
      fun _ w => Charged w.db.committed (w.db.visible t) := by
    intro op metering
    refine ⟨?_⟩
    rintro w outcome v housed charged ⟨⟨choice,ran⟩,permitted⟩
    have may : May P t .meter op w := ⟨metering,charged⟩
    exact ⟨housed.exec may permitted ran,⟨may,choice,outcome,ran⟩,charged_exec metering charged ran⟩
  refine (Triple.only charged_stable keeps meters).consequence ?_ fun _ _ _ _ => trivial
  intro w _ unborn
  rw [Db.visible_other unborn]
  exact ⟨rfl,rfl,rfl,rfl⟩

/-- The rules of the tenants hold on top of the protocol. -/
theorem tenancy_roles (W : Web) : Roles (server W) (protocol W.platform) Unborn (tenancy W.platform) Housed fun _ _ _ => True where
  lawful _ := tenancy_lawful
  shared _ := rfl
  calls _ _ _ choice _ _ _ _ _ guaranteed ran := ⟨⟨choice,ran⟩,guaranteed.1⟩
  others _ _ _ _ _ _ _ other _ guaranteed housed _ := by
    rintro ⟨may,choice,outcome,ran⟩
    exact housed.onward may guaranteed.1 ran other
  envs move w v _ housed moved := by
    obtain ⟨kept,onward⟩ := housed.move (World.moved_of_move moved)
    exact ⟨kept,fun _ => onward⟩
  reboots _ _ housed := housed.reboot
  bodies arrival t := by
    cases arrival with
    | http h =>
      exact Triple.bind tenancy_lawful (handle_kept W h) (fun _ => kept_pure stable_any _) fun _ _ _ _ => trivial
    | meter => exact meter_kept W

end
end Klados
