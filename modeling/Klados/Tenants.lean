import Klados.Slices
import Klados.Roles
import Klados.Touches

/-!
Tenants. A request acts for the project of its key: it touches rows, files and processes of that
project and ids that its thread has made up, and nothing else (`Granted`). The invariant behind it
(`Housed`) is that rows which a transaction adds carry ids of its thread, and that snapshot rows name
their own files.
-/
namespace Klados
open Effects
open Files (Fs Handle)

/-- The row whose files have this path; chunks are shared. -/
def Path.row : Path → Option (Table × Id)
  | .snap sid _ => some (.snapshots,sid)
  | .scratch iid => some (.instances,iid)
  | .chunk _ => none

def Stmt.names : Stmt → List (Table × Id)
  | .insertRun row => [(.runs,row.id)]
  | .insertSnapshot row => [(.snapshots,row.id),(.runs,row.run_id)] ++ row.parent_id.toList.map (.snapshots,·)
  | .insertInstance row => [(.instances,row.id),(.runs,row.run_id)] ++ row.snapshot_id.toList.map (.snapshots,·)
  | .setSnapshot iid sid => [(.instances,iid),(.snapshots,sid)]
  | .setDestroyed iid => [(.instances,iid)]
  | .insertProject _ | .accrue _ _ _ _ => []

def FsOp.paths : FsOp → List Path
  | .exists p | .openTrunc p | .readFile p | .remove p | .getsize p | .makeDisk p => [p]
  | .replace src dst | .copy src dst => [src,dst]
  | .makedirs | .write _ _ _ => []

def VmOp.paths : VmOp → List Path
  | .load _ snap mem | .create _ snap mem => [snap,mem]
  | .spawn _ | .start _ | .pause _ | .resume _ | .kill _ | .connect _ _ | .receive _ _ => []

/-- The call reads or changes the row, its files, its process or its entry in `LIVE`. What a SELECT
    reads is not told apart. A look-up through a link names the snapshot whose layer has the link: what it
    leads to on the host is said nowhere, and need not belong to anyone in particular. -/
def Op.Names (fs : Fs Path) (row : Table × Id) : Op → Prop
  | .db (.execute stmt) => row ∈ stmt.names
  | .fs (.write inode _ _) => ∃ p, fs.names p = some inode ∧ p.row = some row
  | .fs o => ∃ p ∈ o.paths, p.row = some row
  | .vm o => row = (.instances,o.target) ∨ ∃ p ∈ o.paths, p.row = some row
  | .mem (.liveGet iid) | .mem (.liveSet iid) | .mem (.livePop iid) => row = (.instances,iid)
  | .mem .liveKeys => True
  | .sys (.isDir sid _) | .sys (.follow sid _) => row = (.snapshots,sid)
  | _ => False

/-- The project that the key of a request opens, as `_authed` finds it. -/
def Tables.opens (P : Platform) (T : Tables) (key : String) : Option Id :=
  if key = "" then none else (T.projectOfKey (P.sha256 key)).filter (· ≠ "")

/-- The row is the project's, or the thread has made up its id and no other project has such a row. -/
structure Reaches (t : Nat) (pid : Id) (w : World) (row : Table × Id) : Prop where
  own : (w.db.visible t).projectOf row.1 row.2 = some pid ∨ w.owner row.2 = some t
  apart : ∀ q, w.db.committed.projectOf row.1 row.2 = some q → q = pid

/-- The snapshot row names its own files. -/
def SnapshotRow.Filed (row : SnapshotRow) : Prop :=
  row.snap_path = .snap row.id .vmstate ∧ row.mem_path = .snap row.id .mem

/-- A thread that acts for the project may make this call. -/
structure Granted (t : Nat) (pid : Id) (op : Op) (w : World) : Prop where
  rows : ∀ row, op.Names w.fs row → Reaches t pid w row
  within : ∀ stmt, op = .db (.execute stmt) → stmt.Within (w.db.visible t) pid ∧
    (∀ row, stmt.adds = some row → w.owner row.2 = some t) ∧ ∀ row, stmt = .insertSnapshot row → row.Filed
  moves : ∀ src dst, op = .fs (.replace src dst) → src.row = dst.row
  commits : op = .db .commit → ∀ q, q ≠ pid → (w.db.visible t).slice q = w.db.committed.slice q

/-- What a pass of the meter calls. -/
def Op.meters : Op → Bool
  | .db .read | .db .commit | .db .rollback | .db (.execute (.accrue _ _ _ _)) => true
  | .mem .liveKeys | .sys .now => true
  | _ => false

/-- No row is other than it was, but for usage. -/
structure Charged (T T' : Tables) : Prop where
  projects : T'.projects = T.projects
  runs : T'.runs = T.runs
  snapshots : T'.snapshots = T.snapshots
  instances : T'.instances = T.instances

/-- What the thread of an arrival may call: without a project, a request only reads the tables, and
    a pass of the meter only commits usage. -/
def May (P : Platform) (t : Nat) : Arrival → Op → World → Prop
  | .http h, op, w => op = .db .read ∨ ∃ pid, w.db.committed.opens P h.key = some pid ∧ Granted t pid op w
  | .meter, op, w => op.meters = true ∧ Charged w.db.committed (w.db.visible t)

/-- What the tables and the files keep. -/
structure Housed (w : World) : Prop where
  orderly : Orderly w
  wf : w.fs.Wf
  filed : w.db.Every fun T => ∀ row ∈ T.snapshots, row.Filed
  projects : ∀ t T, w.db.txn = some (t,T) → w.db.committed.projects <+: T.projects
  recorded : ∀ table id q, w.db.committed.projectOf table id = some q → (w.owner id).isSome
  added : ∀ t T, w.db.txn = some (t,T) → ∀ table id q, T.projectOf table id = some q →
    w.db.committed.projectOf table id = some q ∨ w.owner id = some t

/-- What thread `t` relies on. -/
structure Onward (t : Nat) (w v : World) : Prop where
  relies : Relies t w v
  projects : w.db.committed.projects <+: v.db.committed.projects
  txn : ∀ T, w.db.txn = some (t,T) → v.db.txn = some (t,T) ∧ v.db.committed = w.db.committed
  rows : ∀ id, w.owner id = some t → ∀ table q, v.db.committed.projectOf table id = some q →
    w.db.committed.projectOf table id = some q
  handles : ∀ g inode, Handle Path.row g inode w.fs → Handle Path.row g inode v.fs

/-- The rules for the thread of an arrival. -/
def tenancy (P : Platform) (arrival : Arrival) : Rules sig Exn World where
  step t op w outcome v := (∃ choice, exec P t op choice w = some (outcome,v)) ∧ Permitted t op w
  inv := Housed
  rely := Onward
  guar t op w v := May P t arrival op w ∧ ∃ choice outcome, exec P t op choice w = some (outcome,v)

section
variable {P : Platform} {t : Nat} {arrival : Arrival} {op : Op} {choice : Choice} {w v : World} {outcome : Except Exn op.Res}

theorem May.execute {stmt : Stmt} (may : May P t arrival (.db (.execute stmt)) w) :
    (∀ row, stmt.adds = some row → w.owner row.2 = some t) ∧ ∀ row, stmt = .insertSnapshot row → row.Filed := by
  cases arrival with
  | http h =>
    rcases may with read | ⟨pid,_,granted⟩
    · cases read
    · exact (granted.within stmt rfl).2
  | meter =>
    cases stmt with
    | accrue pid v g now => exact ⟨fun row added => by simp [Stmt.adds] at added,fun row same => by simp at same⟩
    | insertProject | insertRun | insertSnapshot | insertInstance | setSnapshot | setDestroyed => cases may.1

theorem May.moves {src dst : Path} (may : May P t arrival (.fs (.replace src dst)) w) : src.row = dst.row := by
  cases arrival with
  | http h =>
    rcases may with read | ⟨pid,_,granted⟩
    · cases read
    · exact granted.moves src dst rfl
  | meter => cases may.1

theorem Stmt.apply_projects {T T' : Tables} {stmt : Stmt} (applied : stmt.apply T = .ok T') : T.projects <+: T'.projects := by
  cases stmt with
  | insertProject row =>
    simp only [Stmt.apply] at applied
    split at applied <;> cases applied
    exact List.prefix_append _ _
  | insertRun | insertSnapshot | insertInstance =>
    simp only [Stmt.apply] at applied
    split at applied <;> cases applied
    exact List.prefix_refl _
  | setSnapshot | setDestroyed | accrue =>
    cases applied
    exact List.prefix_refl _

/-- A row that thread `t` sees has a project in the committed tables, or its id is the thread's own. -/
theorem Housed.visible (housed : Housed w) {table : Table} {id q : Id} (of : (w.db.visible t).projectOf table id = some q) :
    w.db.committed.projectOf table id = some q ∨ w.owner id = some t := by
  by_cases held : ∃ T, w.db.txn = some (t,T)
  · obtain ⟨T,held⟩ := held
    rw [Db.visible_own held] at of
    exact housed.added t T held table id q of
  · rw [Db.visible_other fun T same => held ⟨T,same⟩] at of
    exact .inl of

theorem Housed.visible_projects (housed : Housed w) (t : Nat) :
    w.db.committed.projects <+: (w.db.visible t).projects := by
  by_cases held : ∃ T, w.db.txn = some (t,T)
  · obtain ⟨T,held⟩ := held
    rw [Db.visible_own held]
    exact housed.projects t T held
  · rw [Db.visible_other fun T same => held ⟨T,same⟩]

/-- What a call keeps, with the database aside. -/
theorem Housed.of_db (housed : Housed w) (orderly : Orderly v) (wf : v.fs.Wf) (db : v.db = w.db)
    (owner : ∀ id t', w.owner id = some t' → v.owner id = some t') : Housed v where
  orderly := orderly
  wf := wf
  filed := db ▸ housed.filed
  projects := db ▸ housed.projects
  recorded table id q of := by
    obtain ⟨t',owned⟩ := Option.isSome_iff_exists.mp (housed.recorded table id q (db ▸ of))
    exact Option.isSome_iff_exists.mpr ⟨t',owner id t' owned⟩
  added t T held table val q of := by
    rw [db] at held ⊢
    exact (housed.added t T held table val q of).imp id (owner val t)

theorem Housed.exec (housed : Housed w) (may : May P t arrival op w) (permitted : Permitted t op w)
    (ran : Klados.exec P t op choice w = some (outcome,v)) : Housed v := by
  have orderly := housed.orderly.exec permitted ran
  have wf := (exec_touches ran).wf housed.wf
  by_cases db : op.kind = .db
  swap
  · exact housed.of_db orderly wf (exec_db db ran) fun _ _ => exec_owner ran
  cases op with
  | fs o => rcases o.kind_cases with kind | kind <;> simp [Op.kind,kind] at db
  | mem o | vm o => cases o <;> cases db
  | s3 o | sys o => cases db
  | db o =>
    obtain ⟨db',acts,rfl⟩ := exec_dbActs ran
    have filed := acts.every housed.filed (by
      rintro stmt T T' rfl kept applied row member
      rcases Stmt.apply_snapshots applied member with old | new
      · exact kept row old
      · exact may.execute.2 row new)
    cases acts with
    | fails | read | unchanged | idle =>
      exact ⟨orderly,wf,filed,housed.projects,housed.recorded,housed.added⟩
    | @wrote stmt T _ applied =>
      refine ⟨orderly,wf,filed,?_,housed.recorded,?_⟩
      · rintro _ _ ⟨⟩
        exact (housed.visible_projects t).trans (Stmt.apply_projects applied)
      · rintro _ _ ⟨⟩ table id q of
        rcases (housed.orderly.db.visible t).1.apply_projectOf permitted.1 applied of with before | added
        · exact housed.visible before
        · exact .inr (may.execute.1 _ added)
    | refused =>
      refine ⟨orderly,wf,filed,?_,housed.recorded,?_⟩
      · rintro _ _ ⟨⟩
        exact housed.visible_projects t
      · rintro _ _ ⟨⟩ table id q of
        exact housed.visible of
    | @committed T held =>
      refine ⟨orderly,wf,filed,by rintro _ _ ⟨⟩,?_,by rintro _ _ ⟨⟩⟩
      intro table id q of
      rcases housed.added t T held table id q of with before | own
      · exact housed.recorded table id q before
      · exact Option.isSome_iff_exists.mpr ⟨t,own⟩
    | rolled => exact ⟨orderly,wf,filed,by rintro _ _ ⟨⟩,housed.recorded,by rintro _ _ ⟨⟩⟩

/-- What the thread of one arrival does, the others may rely on. -/
theorem Housed.onward (housed : Housed w) (may : May P t arrival op w) (permitted : Permitted t op w)
    (ran : Klados.exec P t op choice w = some (outcome,v)) {t' : Nat} (other : t' ≠ t) : Onward t' w v := by
  have relies := housed.orderly.relies permitted ran other
  have handles : ∀ g inode, Handle Path.row g inode w.fs → Handle Path.row g inode v.fs := by
    intro g inode
    refine (exec_touches ran).handle ?_
    rintro src dst rfl
    exact may.moves
  by_cases db : op.kind = .db
  swap
  · have same := exec_db db ran
    exact ⟨relies,same ▸ List.prefix_refl _,fun T held => by simp [same,held],fun _ _ _ _ of => same ▸ of,handles⟩
  cases op with
  | fs o => rcases o.kind_cases with kind | kind <;> simp [Op.kind,kind] at db
  | mem o | vm o => cases o <;> cases db
  | s3 o | sys o => cases db
  | db o =>
    obtain ⟨db',acts,rfl⟩ := exec_dbActs ran
    cases acts with
    | fails | read | unchanged | idle => exact ⟨relies,List.prefix_refl _,fun T held => ⟨held,rfl⟩,fun _ _ _ _ of => of,handles⟩
    | wrote free | refused free =>
      exact ⟨relies,List.prefix_refl _,fun T held => absurd (free t' T held) other,fun _ _ _ _ of => of,handles⟩
    | @committed T held =>
      refine ⟨relies,housed.projects t T held,?_,?_,handles⟩
      · intro T' held'
        exact absurd (congrArg Prod.fst (Option.some.inj (held'.symm.trans held))) other
      · intro id owned table q of
        rcases housed.added t T held table id q of with before | own
        · exact before
        · exact absurd (Option.some.inj (owned.symm.trans own)) other
    | @rolled T held =>
      refine ⟨relies,List.prefix_refl _,?_,fun _ _ _ _ of => of,handles⟩
      intro T' held'
      exact absurd (congrArg Prod.fst (Option.some.inj (held'.symm.trans held))) other

theorem Housed.move {move : Move} (housed : Housed w) (moved : w.Moved P move v) : Housed v ∧ ∀ t, Onward t w v := by
  have owner : ∀ id t', w.owner id = some t' → v.owner id = some t' := by
    intro id t' owned
    simpa only [World.owner,moved.used] using owned
  have fs : v.fs.Wf ∧ ∀ g inode, Handle Path.row g inode w.fs → Handle Path.row g inode v.fs := by
    have files := moved.fs
    generalize v.fs = after at files
    cases files with
    | none => exact ⟨housed.wf,fun _ _ => id⟩
    | disk => exact ⟨Fs.put_wf housed.wf _ _,fun _ _ handle => handle.put _ _⟩
    | chunk | mem => exact ⟨Fs.remove_wf housed.wf _,fun _ _ handle => handle.remove _⟩
  refine ⟨housed.of_db (housed.orderly.move moved) fs.1 moved.db owner,fun t => ?_⟩
  exact ⟨relies_move moved t,moved.db ▸ List.prefix_refl _,fun T held => by simp [moved.db,held],
    fun _ _ _ _ of => moved.db ▸ of,fs.2⟩

theorem Housed.reboot (housed : Housed w) : Housed w.reboot where
  orderly := housed.orderly.reboot
  wf := housed.wf
  filed := ⟨housed.filed.committed,by rintro _ _ ⟨⟩⟩
  projects := by rintro _ _ ⟨⟩
  recorded := housed.recorded
  added := by rintro _ _ ⟨⟩

theorem Onward.refl (t : Nat) (w : World) : Onward t w w :=
  ⟨Relies.refl t w,List.prefix_refl _,fun _ held => ⟨held,rfl⟩,fun _ _ _ _ of => of,fun _ _ => id⟩

theorem Onward.trans {u : World} (first : Onward t u w) (second : Onward t w v) : Onward t u v where
  relies := first.relies.trans second.relies
  projects := first.projects.trans second.projects
  txn T held := by
    obtain ⟨held',same⟩ := first.txn T held
    obtain ⟨held'',same'⟩ := second.txn T held'
    exact ⟨held'',same'.trans same⟩
  rows id owned table q of := first.rows id owned table q (second.rows id (first.relies.owner id t owned) table q of)
  handles g inode handle := second.handles g inode (first.handles g inode handle)

theorem tenancy_lawful : (tenancy P arrival).Lawful := ⟨Onward.refl,fun _ => Onward.trans⟩

end

end Klados
