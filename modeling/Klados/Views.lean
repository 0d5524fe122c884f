import Klados.Estates
import Klados.Listing
import Klados.Thread

/-!
What a project reads. A GET is told tables that hold the rows of all projects and asks for files that lie
beside those of others, while other requests go on. Its response depends on what its own project has, and, where
it compares two layers, on what their links lead to on the host (`reads_apart`). Programs that the project cannot
tell apart are twins (`Twins`), and the handlers are twins of themselves (`Blind`).
-/
namespace Klados
open Effects
open Files (Fs)

/-- The row is in the slice. -/
def Slice.lists (S : Slice) : Table × Id → Bool
  | (.runs,rid) => S.runs.any (·.id = rid)
  | row => S.holds row

/-- Run ids are primary keys. -/
def Tables.Keyed (T : Tables) : Prop := (T.runs.map (·.id)).Nodup

section
variable {T T' : Tables} {stmt : Stmt} {q rid : Id} {S : Slice}

theorem Tables.Keyed.apply (keyed : T.Keyed) (applied : stmt.apply T = .ok T') : T'.Keyed := by
  cases stmt with
  | insertRun row =>
    simp only [Stmt.apply] at applied
    split at applied
    · cases applied
    · rename_i fresh
      cases applied
      have new : row.id ∉ T.runs.map (·.id) := by simpa using fresh
      simp only [Tables.Keyed,List.map_append,List.map_cons,List.map_nil]
      refine List.nodup_append.mpr ⟨keyed,List.nodup_singleton _,?_⟩
      rintro id old _ last rfl
      exact new (List.mem_singleton.mp last ▸ old)
  | insertProject | insertSnapshot | insertInstance =>
    simp only [Stmt.apply] at applied
    split at applied <;> cases applied
    exact keyed
  | setSnapshot | setDestroyed | accrue =>
    cases applied
    exact keyed

theorem Tables.Keyed.run?_self (keyed : T.Keyed) {row : RunRow} (member : row ∈ T.runs) : T.run? row.id = some row :=
  find?_key keyed member

/-- The rows of a project are those of its slice. -/
theorem Tables.Keyed.lists_run (keyed : T.Keyed) : (T.slice q).lists (.runs,rid) = true ↔ T.projectOf .runs rid = some q := by
  constructor
  · intro listed
    obtain ⟨row,member,named⟩ := List.any_eq_true.mp listed
    obtain ⟨inside,owned⟩ := List.mem_filter.mp member
    obtain rfl : row.id = rid := by simpa using named
    have of : row.project_id = q := by simpa using owned
    simp [Tables.projectOf,keyed.run?_self inside,of]
  · intro of
    obtain ⟨row,found,owned⟩ := Option.map_eq_some_iff.mp of
    refine List.any_eq_true.mpr ⟨row,List.mem_filter.mpr ⟨List.mem_of_find?_eq_some found,by simpa using owned⟩,?_⟩
    simpa using List.find?_some found

theorem Sane.lists_iff (sane : Sane T) (keyed : T.Keyed) {row : Table × Id} :
    (T.slice q).lists row = true ↔ T.projectOf row.1 row.2 = some q := by
  obtain ⟨table,id⟩ := row
  cases table with
  | runs => exact keyed.lists_run
  | snapshots | instances =>
    refine ⟨fun listed => sane.holds listed,fun of => ?_⟩
    obtain ⟨run,found,owned⟩ := Option.map_eq_some_iff.mp of
    obtain ⟨row,there,joined⟩ := Option.bind_eq_some_iff.mp found
    refine List.any_eq_true.mpr ⟨row,List.mem_filter.mpr ⟨List.mem_of_find?_eq_some there,?_⟩,?_⟩
    · simp [Tables.projectOf,joined,owned]
    · simpa using List.find?_some there

/-- `list_runs` selects from the slice. -/
theorem runsOf_slice (T : Tables) (q : Id) :
    T.runsOf q = (T.slice q).runs.mergeSort fun row row' => row.created_at ≤ row'.created_at := rfl

theorem usageOf_slice (T : Tables) (q : Id) : usageOf T.usage q = usageOf (T.slice q).usage q := by
  simp [usageOf,Tables.slice,List.find?_filter]

/-- The SUM of `usage` is over the snapshots of the slice. -/
theorem Tables.Keyed.stored_slice (keyed : T.Keyed) : Charge.stored T q =
    ((T.slice q).snapshots.flatMap fun s => ((T.slice q).runs.filter (·.id = s.run_id)).map fun _ => s.size_bytes).sum := by
  have joined : ∀ s : SnapshotRow, (T.runs.filter fun r => r.id = s.run_id ∧ r.project_id = q) =
      (T.slice q).runs.filter (·.id = s.run_id) := by
    intro s
    simp [Tables.slice,List.filter_filter]
  have foreign : ∀ s : SnapshotRow, T.projectOf .runs s.run_id ≠ some q → (T.slice q).runs.filter (·.id = s.run_id) = [] := by
    intro s other
    rw [List.filter_eq_nil_iff]
    intro r member same
    exact other (keyed.lists_run.mp (List.any_eq_true.mpr ⟨r,member,same⟩))
  unfold Charge.stored
  simp only [joined]
  have rows : (T.slice q).snapshots = T.snapshots.filter fun row => T.projectOf .runs row.run_id = some q := rfl
  rw [rows]
  induction T.snapshots with
  | nil => rfl
  | cons s rest ih =>
    rw [List.flatMap_cons,List.sum_append,ih]
    by_cases own : T.projectOf .runs s.run_id = some q
    · simp [own]
    · simp [own,foreign s own]

theorem snapshotsOf_slice (of : T.projectOf .runs rid = some q) : T.snapshotsOf rid =
    ((T.slice q).snapshots.filter (·.run_id = rid)).mergeSort fun row row' => row.created_at ≤ row'.created_at := by
  unfold Tables.snapshotsOf
  congr 1
  simp only [Tables.slice,List.filter_filter]
  refine List.filter_congr fun row _ => ?_
  by_cases same : row.run_id = rid
  · simp [same,of]
  · simp [same]

theorem instancesOf_slice (of : T.projectOf .runs rid = some q) :
    T.instancesOf rid = (T.slice q).instances.filter (·.run_id = rid) := by
  simp only [Tables.instancesOf,Tables.slice,List.filter_filter]
  refine List.filter_congr fun row _ => ?_
  by_cases same : row.run_id = rid
  · simp [same,of]
  · simp [same]

/-- Tables in which the key opens the project, and which hold these rows of it. -/
structure Faced (P : Platform) (key : String) (q : Id) (S : Slice) (T : Tables) : Prop where
  sane : Sane T
  keyed : T.Keyed
  opens : T.opens P key = some q
  rows : T.slice q = S

variable {P : Platform} {key : String}

theorem Faced.lists (told : Faced P key q S T) (row : Table × Id) : T.projectOf row.1 row.2 = some q ↔ S.lists row = true := by
  rw [← told.rows]
  exact (told.sane.lists_iff told.keyed).symm

/-- Both are told the same bill. -/
theorem Faced.usage {U U' : Tables} (first : Faced P key q S T) (second : Faced P key q S T') (first' : Faced P key q S U)
    (second' : Faced P key q S U') (rounded : Rat → Nat → Rat) :
    Charge.usage rounded { T' with usage := T.usage } q = Charge.usage rounded { U' with usage := U.usage } q := by
  have bills : usageOf T.usage q = usageOf U.usage q := by
    rw [usageOf_slice T,usageOf_slice U,first.rows,first'.rows]
  have sizes : ∀ usage usage', Charge.stored { T' with usage := usage } q = Charge.stored { U' with usage := usage' } q := by
    intro usage usage'
    show Charge.stored T' q = Charge.stored U' q
    rw [second.keyed.stored_slice,second'.keyed.stored_slice,second.rows,second'.rows]
  simp only [Charge.usage,bills,sizes T.usage U.usage]

end

/-- What a GET of the project may call. -/
def Op.Peeks (S : Slice) : Op → Prop
  | .db .read => True
  | .fs (.exists p) | .fs (.readFile p) => p.row.any S.holds = true
  | .sys (.isDir sid _) | .sys (.follow sid _) => S.holds (.snapshots,sid) = true
  | _ => False

/-- How two results of such a call compare: tables need only look the same to the project. -/
def Sees (P : Platform) (key : String) (q : Id) (S : Slice) : (op : Op) → op.Res → op.Res → Prop
  | .db .read, T, T' => Faced P key q S T ∧ Faced P key q S T'
  | _, value, value' => value = value'

/-- Two programs that cannot be told apart through what the project sees. -/
abbrev Twins {α β : Type} (P : Platform) (key : String) (q : Id) (S : Slice) (V : α → β → Prop) (program : KProg α)
    (program' : KProg β) : Prop := Twin (Op.Peeks S) (Sees P key q S) V program program'

/-- What the program comes to depends on what the project sees. -/
def Blind {α : Type} (P : Platform) (key : String) (q : Id) (S : Slice) (program : KProg α) : Prop :=
  Twins P key q S Eq program program

section
variable {P : Platform} {key : String} {q : Id} {S : Slice} {α β : Type}

theorem twins_read : Twins P key q S (fun T T' => Faced P key q S T ∧ Faced P key q S T') (dbCall .read) (dbCall .read) := by
  show Twin _ (Sees P key q S) (Sees P key q S (.db .read)) (Prog.perform (S := sig) (.db .read)) _
  exact Twin.perform trivial

theorem blind_file {op : FsOp} (peeks : (Op.fs op).Peeks S) : Blind P key q S (fsCall op) := by
  show Twin _ (Sees P key q S) (Sees P key q S (.fs op)) (Prog.perform (S := sig) (.fs op)) _
  exact Twin.perform peeks

theorem Blind.pure (value : α) : Blind P key q S (pure value) := .ret rfl

theorem Blind.bind {program : KProg α} {rest : α → KProg β} (first : Blind P key q S program)
    (onward : ∀ value, Blind P key q S (rest value)) : Blind P key q S (program >>= rest) := by
  refine Twin.bind first ?_
  rintro value _ rfl
  exact onward value

/-- A program that calls nothing. -/
theorem Blind.silent {program : KProg α} (only : program.Only fun _ => False) : Blind P key q S program :=
  Twin.self (fun _ never => never.elim) only

theorem twins_authed (given : key ≠ "") :
    Twins P key q S (fun found found' => found = some q ∧ found' = some q) (authed P key) (authed P key) := by
  have opened : ∀ {T : Tables}, Faced P key q S T → (T.projectOfKey (P.sha256 key)).filter (· ≠ "") = some q := by
    intro T told
    simpa [Tables.opens,given] using told.opens
  unfold authed project_of_key
  rw [if_neg given]
  refine Twin.bind (V := fun found found' => found.filter (· ≠ "") = some q ∧ found'.filter (· ≠ "") = some q) ?_
    fun found found' both => .ret both
  exact Twin.bind twins_read fun T T' told => .ret ⟨opened told.1,opened told.2⟩

/-- Both pass, or both are refused in the same words. -/
theorem twins_require_owner (table : Table) (val : Id) : Twins P key q S (fun _ _ => S.lists (table,val) = true)
    (require_owner q table val) (require_owner q table val) := by
  have asked : Twins P key q S (fun owner owner' => (owner = some q ↔ S.lists (table,val) = true) ∧
      (owner' = some q ↔ S.lists (table,val) = true)) (project_of table val) (project_of table val) :=
    by
    refine Twin.bind twins_read ?_
    rintro T T' ⟨told,told'⟩
    exact .ret ⟨told.lists (table,val),told'.lists (table,val)⟩
  refine Twin.bind asked ?_
  rintro owner owner' ⟨owns,owns'⟩
  by_cases listed : S.lists (table,val) = true
  · rw [if_pos (owns.mpr listed),if_pos (owns'.mpr listed)]
    exact .ret listed
  · rw [if_neg fun own => listed (owns.mp own),if_neg fun own => listed (owns'.mp own)]
    exact .raise _

theorem Blind.owned {table : Table} {val : Id} {rest : Unit → KProg β}
    (onward : S.lists (table,val) = true → Blind P key q S (rest ())) :
    Blind P key q S (require_owner q table val >>= rest) :=
  Twin.bind (twins_require_owner table val) fun _ _ listed => onward listed

theorem blind_list_runs : Blind P key q S (list_runs q) := by
  refine Twin.bind twins_read ?_
  rintro T T' ⟨told,told'⟩
  refine .ret ?_
  rw [runsOf_slice T,runsOf_slice T',told.rows,told'.rows]

theorem blind_usage (rounded : Rat → Nat → Rat) : Blind P key q S (usage rounded q) := by
  refine Twin.bind twins_read ?_
  rintro T U ⟨told,told'⟩
  refine Twin.bind twins_read ?_
  rintro T' U' ⟨later,later'⟩
  refine .ret ?_
  rw [told.usage later told' later' rounded]

theorem blind_timeline {rid : Id} (listed : S.lists (.runs,rid) = true) : Blind P key q S (timeline rid) := by
  refine Twin.bind twins_read ?_
  rintro T U ⟨told,told'⟩
  refine Twin.bind twins_read ?_
  rintro T' U' ⟨later,later'⟩
  refine .ret ?_
  have of : ∀ {T : Tables}, Faced P key q S T → T.projectOf .runs rid = some q := fun told => (told.lists (.runs,rid)).mpr listed
  rw [snapshotsOf_slice (of told),snapshotsOf_slice (of told'),instancesOf_slice (of later),instancesOf_slice (of later'),
    told.rows,told'.rows,later.rows,later'.rows]

theorem blind_both_exist {a b : Path} (holds : a.row.any S.holds = true) (holds' : b.row.any S.holds = true) :
    Blind P key q S (both_exist a b) := by
  refine Blind.bind (blind_file holds) fun first => ?_
  split
  · exact blind_file holds'
  · exact .pure false

theorem blind_looks {sid : Id} {op : Op} (looks : Mounts.Looks sid op) (listed : S.lists (.snapshots,sid) = true) :
    op.Peeks S ∧ ∀ value value', Sees P key q S op value value' → value = value' := by
  obtain ⟨o,rfl⟩ := looks.sys
  cases o with
  | newId | token | now | sleep | beforeDeadline => exact looks.elim
  | isDir | follow =>
    obtain rfl := looks
    exact ⟨listed,fun _ _ same => same⟩

theorem blind_fs_diff (W : Web) {a b : Id} (listed : S.lists (.snapshots,a) = true) (listed' : S.lists (.snapshots,b) = true) :
    Blind P key q S (fs_diff W a b) := by
  have holds : ∀ {sid : Id}, S.lists (.snapshots,sid) = true → (Path.snap sid .scratch).row.any S.holds = true := id
  have mounts : ∀ {sid : Id}, S.lists (.snapshots,sid) = true → Blind P key q S (mount_ro W sid) :=
    fun own => Blind.bind (blind_file (holds own)) fun bytes => .silent (Prog.Only.ofOutcome _)
  refine Blind.bind (blind_both_exist (holds listed) (holds listed')) fun both => ?_
  split
  · exact .pure _
  refine Blind.bind (mounts listed) fun ma => Blind.bind (mounts listed') fun mb => ?_
  refine Twin.self ?_ (Mounts.looks_compare W.text a b ma mb)
  rintro op (looks | looks)
  · exact blind_looks looks listed
  · exact blind_looks looks listed'

theorem Blind.send {program : KProg Json} (blind : Blind P key q S program) : Blind P key q S (send program) :=
  blind.bind fun _ => .pure _

theorem blind_get_route (W : Web) (p : List String) : Blind P key q S (get_route W q p) := by
  unfold get_route
  split
  · exact blind_list_runs.send
  · exact (blind_usage _).send
  · exact .owned fun listed => (blind_timeline listed).send
  · exact .owned fun listed => .owned fun listed' => (blind_fs_diff W listed listed').send
  · exact .pure _

theorem blind_refused (error : Exn) : Blind P key q S (refused error) := by
  unfold refused
  split <;> exact .pure _

/-- The response of a GET depends on what the project of its key sees. -/
theorem blind_do_GET (W : Web) {h : Http} (given : h.key ≠ "") : Blind W.platform h.key q S (do_GET W h) := by
  unfold do_GET
  split
  · exact .pure _
  refine Twin.bind (twins_authed given) ?_
  rintro _ _ ⟨rfl,rfl⟩
  exact Twin.catching (blind_get_route W _) blind_refused

/-- The call changes nothing. -/
def Op.reads : Op → Prop
  | .db .read | .fs (.exists _) | .fs (.readFile _) | .sys (.isDir _ _) | .sys (.follow _ _) => True
  | _ => False

theorem exec_reads {t : Nat} {op : Op} {choice : Choice} {w v : World} {outcome : Except Exn op.Res} (reads : op.reads)
    (ran : exec P t op choice w = some (outcome,v)) : v = w := by
  cases op with
  | s3 o | mem o | vm o => exact reads.elim
  | sys o =>
    cases o with
    | newId | token | now | sleep | beforeDeadline => exact reads.elim
    | isDir sid path =>
      cases choice <;> cases ran
      rfl
    | follow sid path => exact (exec_follow ran).2
  | db o =>
    cases o with
    | execute | commit | rollback => exact reads.elim
    | read => cases choice <;> cases ran; all_goals rfl
  | fs o =>
    obtain ⟨⟨result,fs⟩,executed,same⟩ := Option.map_eq_some_iff.mp ran
    cases same
    have kept : fs = w.fs := by
      cases o with
      | makedirs | openTrunc | write | remove | replace | copy | getsize | makeDisk => exact reads.elim
      | «exists» p =>
        cases choice <;> cases executed
        rfl
      | readFile p =>
        cases choice <;> simp only [fsExec] at executed <;> first
          | cases executed <;> rfl
          | split at executed <;> cases executed <;> rfl
    rw [kept]

theorem reads_of_asks {program : KProg α} (asks : Asks program) : program.Only Op.reads :=
  asks.mono fun op same => by subst same; trivial

theorem reads_fs_diff (W : Web) (a b : Id) : (fs_diff W a b).Only Op.reads := by
  have file : ∀ {op : FsOp}, (Op.fs op).reads → (fsCall op).Only Op.reads := fun reads => Prog.Only.perform reads
  refine Prog.Only.bind (Prog.Only.bind (file trivial) fun first => ?_) fun both => ?_
  · split
    · exact file trivial
    · trivial
  split
  · trivial
  have mounts : ∀ sid, (mount_ro W sid).Only Op.reads := fun sid =>
    Prog.Only.bind (file trivial) fun bytes => Prog.Only.ofOutcome _
  refine Prog.Only.bind (mounts a) fun ma => Prog.Only.bind (mounts b) fun mb => ?_
  refine (Mounts.looks_compare W.text a b ma mb).mono fun op looks => ?_
  rcases looks with looks | looks <;> obtain ⟨o,rfl⟩ := looks.sys <;> cases o <;> first | exact looks.elim | trivial

theorem reads_do_GET (W : Web) (h : Http) : (do_GET W h).Only Op.reads := by
  have sent : ∀ {program : KProg Json}, program.Only Op.reads → (send program).Only Op.reads :=
    fun only => only.bind fun _ => trivial
  unfold do_GET
  split
  · trivial
  refine (reads_of_asks (asks_authed _ _)).bind fun found => ?_
  split
  · trivial
  refine Prog.Only.catching ?_ fun error => ?_
  · unfold get_route
    split
    · exact sent (reads_of_asks (asks_list_runs _))
    · exact sent (reads_of_asks (asks_usage _ _))
    · exact (reads_of_asks (asks_require_owner _ _ _)).bind fun _ => sent (reads_of_asks (asks_timeline _))
    · refine (reads_of_asks (asks_require_owner _ _ _)).bind fun _ => ?_
      exact (reads_of_asks (asks_require_owner _ _ _)).bind fun _ => sent (reads_fs_diff W _ _)
    · trivial
  · unfold refused
    split <;> trivial

end

/-! ## Where a GET stands -/

/-- The thread `t` has no transaction, and the project that the key opens has this estate. -/
structure Viewed (P : Platform) (t : Nat) (key : String) (q : Id) (e : Estate) (w : World) : Prop where
  idle : Unborn t w
  sane : Sane w.db.committed
  keyed : w.db.committed.Keyed
  opens : w.db.committed.opens P key = some q
  estate : w.estate q = e

section
variable {P : Platform} {t t' : Nat} {key : String} {q : Id} {e : Estate} {w v u : World} {op : Op}
  {outcome : Except Exn op.Res} {follow : Id → List Diff.Str → Diff.Followed}

theorem Viewed.told (viewed : Viewed P t key q e w) : Faced P key q e.rows w.db.committed :=
  ⟨viewed.sane,viewed.keyed,viewed.opens,congrArg Estate.rows viewed.estate⟩

theorem Viewed.content (viewed : Viewed P t key q e w) {p : Path} (holds : p.row.any e.rows.holds = true) :
    w.fs.content p = e.files p := by
  obtain rfl := viewed.estate
  exact (if_pos holds).symm

/-- What a call of a GET is told where others are about, it is told where the project has the same and its links
    lead to the same. -/
theorem Viewed.peeks (viewed : Viewed P t key q e w) (viewed' : Viewed P t' key q e v) (peeks : op.Peeks e.rows)
    (stepped : Mounts.Step P follow t op w outcome u) :
    u = w ∧ ∃ outcome', Mounts.Step P follow t' op v outcome' v ∧ Same (Sees P key q e.rows op) outcome outcome' := by
  obtain ⟨⟨choice,ran⟩,finds⟩ := stepped
  cases op with
  | s3 o | mem o | vm o => exact peeks.elim
  | sys o =>
    have same : Same (Sees P key q e.rows (.sys o)) outcome outcome := by
      cases outcome <;> cases o <;> rfl
    cases o with
    | newId | token | now | sleep | beforeDeadline => exact False.elim peeks
    | isDir sid path =>
      cases choice <;> cases ran
      exact ⟨rfl,_,⟨⟨.flag _,rfl⟩,finds⟩,same⟩
    | follow sid path =>
      obtain ⟨⟨what,rfl,ends,rfl⟩,rfl⟩ := exec_follow ran
      refine ⟨rfl,_,⟨⟨.found what,?_⟩,finds⟩,same⟩
      cases what with
      | never => exact absurd rfl ends
      | directory | bytes | fails => rfl
  | db o =>
    cases o with
    | execute | commit | rollback => exact peeks.elim
    | read =>
      cases choice with
      | ok =>
        cases ran
        refine ⟨rfl,_,⟨⟨.ok,rfl⟩,trivial⟩,?_⟩
        rw [Db.visible_other viewed.idle,Db.visible_other viewed'.idle]
        exact ⟨viewed.told,viewed'.told⟩
      | fail error =>
        cases ran
        exact ⟨rfl,_,⟨⟨.fail error,rfl⟩,trivial⟩,rfl⟩
      | torn | id | text | time | flag | boot | bootLost | lost | eof | puts | found => cases ran
  | fs o =>
    cases o with
    | makedirs | openTrunc | write | remove | replace | copy | getsize | makeDisk => exact peeks.elim
    | «exists» p =>
      have same : w.fs.content p = v.fs.content p := (viewed.content peeks).trans (viewed'.content peeks).symm
      have there : (w.fs.names p).isSome = (v.fs.names p).isSome := by
        simpa [Fs.content] using congrArg Option.isSome same
      cases choice with
      | ok =>
        cases ran
        exact ⟨rfl,_,⟨⟨.ok,rfl⟩,trivial⟩,there⟩
      | fail | torn | id | text | time | flag | boot | bootLost | lost | eof | puts | found => cases ran
    | readFile p =>
      have same : w.fs.content p = v.fs.content p := (viewed.content peeks).trans (viewed'.content peeks).symm
      cases choice with
      | ok =>
        have again : ∃ outcome', exec P t' (.fs (.readFile p)) .ok v = some (outcome',v) ∧ u = w ∧ outcome = outcome' := by
          simp only [exec,fsExec,same] at ran ⊢
          split at ran <;> cases ran
          · exact ⟨_,rfl,rfl,rfl⟩
          · exact ⟨_,rfl,rfl,rfl⟩
        obtain ⟨_,executed,rfl,rfl⟩ := again
        refine ⟨rfl,_,⟨⟨.ok,executed⟩,trivial⟩,?_⟩
        cases outcome <;> rfl
      | fail error =>
        cases ran
        exact ⟨rfl,_,⟨⟨.fail error,rfl⟩,trivial⟩,rfl⟩
      | torn | id | text | time | flag | boot | bootLost | lost | eof | puts | found => cases ran

/-- The one world stays as it is, and the other is one that the project may see. -/
def Mirrors (P : Platform) (t : Nat) (key : String) (q : Id) (e : Estate) (still v w : World) : Prop :=
  v = still ∧ Viewed P t key q e w

/-- A run among others is a run where nothing else happens. -/
theorem Blind.mirrored {α : Type} {program : KProg α} {result : Except Exn α} (blind : Blind P key q e.rows program)
    (viewed' : Viewed P t' key q e v) (ran : Runs (fun _ u => Viewed P t key q e u) (Mounts.Step P follow t) program w result u)
    (viewed : Viewed P t key q e w) : Does (Mounts.Step P follow t') program v result v := by
  have drifts : ∀ x y z, Mirrors P t key q e v x y → Viewed P t key q e z → Mirrors P t key q e v x z :=
    fun _ _ _ mirrors seen => ⟨mirrors.1,seen⟩
  have follows : ∀ op : Op, op.Peeks e.rows → ∀ x y (outcome : Except Exn op.Res) z, Mirrors P t key q e v x y →
      Mounts.Step P follow t op y outcome z → ∃ outcome' x', Mounts.Step P follow t' op x outcome' x' ∧
        Same (Sees P key q e.rows op) outcome outcome' ∧ Mirrors P t key q e v x' z := by
    rintro op peeks x y outcome z ⟨rfl,seen⟩ stepped
    obtain ⟨rfl,outcome',stepped',told⟩ := seen.peeks viewed' peeks stepped
    exact ⟨outcome',_,stepped',told,rfl,seen⟩
  obtain ⟨result',_,done,equal,rfl,_⟩ := Twin.runs drifts follows blind ⟨rfl,viewed⟩ ran
  obtain rfl := equal.of_eq
  exact done

end

/-- Run ids are unique in the tables, and in those of a transaction. -/
def World.Keyed (w : World) : Prop := w.db.Every Tables.Keyed

/-- The server, when the request has just come in. -/
def SPool.arrived (W : Web) (pool : SPool) (h : Http) : SPool :=
  ⟨pool.world,pool.threads ++ [⟨.http h,Arrival.body W (.http h)⟩]⟩

/-- The calls of thread `t`, and what does not concern the project. -/
def Alongside (P : Platform) (q : Id) (t : Nat) (pool : SPool) (action : Action Arrival Choice Move) : Prop :=
  (∃ choice, action = .call t choice) ∨ Spares P q false pool action

/-- A look-up of thread `t` through a link goes where the links lead. -/
def Finding (W : Web) (follow : Id → List Diff.Str → Diff.Followed) (t : Nat) (pool : SPool)
    (action : Action Arrival Choice Move) : Prop :=
  ∀ choice req op next outcome v, action = .call t choice → pool.threads[t]? = some ⟨req,.call op next⟩ →
    (server W).exec t op choice pool.world = some (outcome,v) → Mounts.Finds follow op outcome

section
variable {W : Web} {root : ProjectRow} {s3 : Bool} {pool later : SPool} {t : Nat} {h : Http} {q : Id} {e : Estate}

theorem keyed_reach (reached : (server W).Reach (fun _ _ => True) ⟨World.initial root s3,[]⟩ pool) : pool.world.Keyed := by
  refine Machine.reach_keeps (server W) ?_ ?_ ?_ ?_ reached
  · intro pool t choice op outcome world _ kept ran
    exact exec_every ran kept fun stmt T T' _ keyed applied => keyed.apply applied
  · intro pool move world _ kept moved
    show world.db.Every Tables.Keyed
    rw [(World.moved_of_move moved).db]
    exact kept
  · exact fun world kept => ⟨kept.committed,by rintro _ _ ⟨⟩⟩
  · exact ⟨List.nodup_nil,by rintro _ _ ⟨⟩⟩

/-- What the other threads and the environment do, a thread may rely on. -/
theorem onward_others (healthy : Healthy (protocol W.platform) Unborn (fun _ _ _ _ => True) pool)
    (cast : Cast (tenancy W.platform) Housed (fun _ _ _ => True) pool) {action : Action Arrival Choice Move}
    (others : ∀ choice, action ≠ .call t choice) (running : action ≠ .reboot)
    (acted : (server W).act pool action = some later) :
    Onward t pool.world later.world ∧
      ∀ thread, pool.threads[t]? = some thread → later.threads[t]? = some thread := by
  cases action with
  | request arrival =>
    cases Option.some.inj acted
    refine ⟨Onward.refl t _,fun thread found => ?_⟩
    obtain ⟨bound,_⟩ := List.getElem?_eq_some_iff.mp found
    rw [List.getElem?_append_left bound]
    exact found
  | call t' choice =>
    have other : t ≠ t' := by
      rintro rfl
      exact others choice rfl
    simp only [Machine.act] at acted
    split at acted
    · rename_i arrival op next found
      obtain ⟨⟨outcome,v⟩,executed,same⟩ := Option.map_eq_some_iff.mp acted
      subst same
      obtain ⟨_,guaranteed,may,_⟩ := (server_sound W).called (tenancy_roles W) healthy cast found trivial executed
      exact ⟨cast.kept.onward may guaranteed.1 executed other,
        fun thread found' => (List.getElem?_set_ne other.symm).trans found'⟩
    · cases acted
  | env move =>
    obtain ⟨v,moved,same⟩ := Option.map_eq_some_iff.mp acted
    subst same
    exact ⟨(cast.kept.move (World.moved_of_move moved)).2 t,fun _ => id⟩
  | reboot => exact absurd rfl running

theorem SPool.found_arrived (W : Web) (pool : SPool) (h : Http) :
    (pool.arrived W h).threads[pool.threads.length]? = some ⟨.http h,Arrival.body W (.http h)⟩ := by
  simp [SPool.arrived]

/-- A reachable state in which thread `t` answers a GET. -/
structure Consulting (W : Web) (root : ProjectRow) (s3 : Bool) (t : Nat) (h : Http) (pool : SPool) : Prop where
  reached : (server W).Reach (fun _ _ => True) ⟨World.initial root s3,[]⟩ pool
  reading : ∃ program, pool.threads[t]? = some ⟨.http h,program⟩ ∧ program.Only Op.reads
  idle : Unborn t pool.world

/-- Step: the thread itself changes nothing, and it may rely on the others. -/
theorem Consulting.act (consulting : Consulting W root s3 t h pool) {action : Action Arrival Choice Move}
    (running : action ≠ .reboot) (acted : (server W).act pool action = some later) :
    Consulting W root s3 t h later ∧ Onward t pool.world later.world ∧
      ((∃ choice, action = .call t choice) → later.world = pool.world) := by
  have reached := consulting.reached.tail ⟨action,trivial,acted⟩
  obtain ⟨program,found,only⟩ := consulting.reading
  by_cases own : ∃ choice, action = .call t choice
  · obtain ⟨choice,rfl⟩ := own
    simp only [Machine.act,found] at acted
    cases program with
    | ret value | raise error => cases acted
    | call op next =>
      obtain ⟨⟨outcome,v⟩,executed,same⟩ := Option.map_eq_some_iff.mp acted
      subst same
      obtain ⟨bound,_⟩ := List.getElem?_eq_some_iff.mp found
      obtain rfl := exec_reads only.1 executed
      exact ⟨⟨reached,⟨_,List.getElem?_set_self bound,only.2 _⟩,consulting.idle⟩,Onward.refl t _,fun _ => rfl⟩
  · obtain ⟨healthy,cast⟩ := server_reach consulting.reached
    obtain ⟨onward,stays⟩ := onward_others (t := t) healthy cast (fun choice same => own ⟨choice,same⟩) running acted
    exact ⟨⟨reached,⟨program,stays _ found,only⟩,onward.relies.txn consulting.idle⟩,onward,fun acts => absurd acts own⟩

/-- A state in which thread `t` answers a GET of the project. -/
structure Answering (W : Web) (root : ProjectRow) (s3 : Bool) (t : Nat) (h : Http) (q : Id) (e : Estate) (pool : SPool) : Prop
    extends Consulting W root s3 t h pool where
  opens : pool.world.db.committed.opens W.platform h.key = some q
  estate : pool.world.estate q = e

theorem Answering.viewed (answering : Answering W root s3 t h q e pool) : Viewed W.platform t h.key q e pool.world where
  idle := answering.idle
  sane := (server_reach answering.reached).2.kept.orderly.db.committed
  keyed := (keyed_reach answering.reached).committed
  opens := answering.opens
  estate := answering.estate

/-- Step: neither the thread nor what goes on beside it changes what the project has. -/
theorem Answering.act (answering : Answering W root s3 t h q e pool) {action : Action Arrival Choice Move}
    (alongside : Alongside W.platform q t pool action) (acted : (server W).act pool action = some later) :
    Answering W root s3 t h q e later := by
  have running : action ≠ .reboot := by
    rintro rfl
    rcases alongside with ⟨choice,other⟩ | spares
    · cases other
    · exact spares
  obtain ⟨consulting,onward,still⟩ := answering.toConsulting.act running acted
  refine ⟨consulting,opens_grows onward.projects answering.opens,?_⟩
  by_cases own : ∃ choice, action = .call t choice
  · exact still own ▸ answering.estate
  · obtain ⟨healthy,cast⟩ := server_reach answering.reached
    have kept : later.world.estate q = pool.world.estate q := estate_step healthy cast (alongside.resolve_left own) acted
    exact kept.trans answering.estate

theorem Answering.run {ok : SPool → Action Arrival Choice Move → Prop} (answering : Answering W root s3 t h q e pool)
    (alongside : ∀ pool action, ok pool action → Alongside W.platform q t pool action)
    (onward : (server W).Reach ok pool later) : Answering W root s3 t h q e later := by
  induction onward with
  | refl => exact answering
  | tail _ next ih =>
    obtain ⟨action,allowed,acted⟩ := next
    exact ih.act (alongside _ _ allowed) acted

theorem reads_body {W : Web} {h : Http} (get : h.verb = .GET) : (Arrival.body W (.http h)).Only Op.reads := by
  refine Prog.Only.bind ?_ fun _ => trivial
  unfold handle
  rw [get]
  exact reads_do_GET W h

theorem blind_body {W : Web} {h : Http} {S : Slice} (get : h.verb = .GET) (given : h.key ≠ "") :
    Blind W.platform h.key q S (Arrival.body W (.http h)) := by
  have blind : Blind W.platform h.key q S (handle W h) := by
    unfold handle
    rw [get]
    exact blind_do_GET W given
  exact blind.bind fun _ => .pure _

/-- A GET comes in. -/
theorem Consulting.start (get : h.verb = .GET) (reached : (server W).Reach (fun _ _ => True) ⟨World.initial root s3,[]⟩ pool) :
    Consulting W root s3 pool.threads.length h (pool.arrived W h) where
  reached := reached.tail ⟨.request (.http h),trivial,rfl⟩
  reading := ⟨_,pool.found_arrived W h,reads_body get⟩
  idle := (server_reach reached).1.next _ (Nat.le_refl _)

/-- A GET of the project comes in. -/
theorem Answering.start (get : h.verb = .GET) (reached : (server W).Reach (fun _ _ => True) ⟨World.initial root s3,[]⟩ pool)
    (opens : pool.world.db.committed.opens W.platform h.key = some q) :
    Answering W root s3 pool.threads.length h q (pool.world.estate q) (pool.arrived W h) :=
  ⟨.start get reached,opens,rfl⟩

/-- What a GET is answered depends on its project alone, and on where the links in its layers lead on the host:
    whatever others did before and do meanwhile, on any server where the project has the same and its links lead
    to the same, the same request alone may be answered the same, and nothing is changed by it. -/
theorem reads_apart (W : Web) (root root' : ProjectRow) (s3 s3' : Bool) (follow : Id → List Diff.Str → Diff.Followed)
    {pool later pool' : SPool} {h : Http} {q : Id} {outcome : Except Exn (Option Response)} (get : h.verb = .GET)
    (reached : (server W).Reach (fun _ _ => True) ⟨World.initial root s3,[]⟩ pool)
    (opens : pool.world.db.committed.opens W.platform h.key = some q)
    (onward : (server W).Reach (fun pool' action => Alongside W.platform q pool.threads.length pool' action ∧
      Finding W follow pool.threads.length pool' action) (pool.arrived W h) later)
    (answered : later.threads[pool.threads.length]? = some ⟨.http h,Prog.ofOutcome outcome⟩)
    (reached' : (server W).Reach (fun _ _ => True) ⟨World.initial root' s3',[]⟩ pool')
    (opens' : pool'.world.db.committed.opens W.platform h.key = some q)
    (same : pool'.world.estate q = pool.world.estate q) :
    ∃ last, (server W).Reach (fun pool action => (∃ choice, action = .call pool'.threads.length choice) ∧
        Finding W follow pool'.threads.length pool action) (pool'.arrived W h) last ∧
      last.world = pool'.world ∧ last.threads[pool'.threads.length]? = some ⟨.http h,Prog.ofOutcome outcome⟩ := by
  have given : h.key ≠ "" := by
    intro empty
    simp [Tables.opens,empty] at opens
  have start := Answering.start get reached opens
  have viewed' := (Answering.start get reached' opens').viewed
  rw [same] at viewed'
  have found := pool.found_arrived W h
  generalize pool.world.estate q = e at start viewed'
  generalize pool.threads.length = t at start onward answered found
  have stays : ∀ pool, ¬ (Alongside W.platform q t pool .reboot ∧ Finding W follow t pool .reboot) := by
    rintro _ ⟨⟨choice,other⟩ | spares,_⟩
    · cases other
    · exact spares
  have acts : ∀ pool action next, Answering W root s3 t h q e pool →
      Alongside W.platform q t pool action ∧ Finding W follow t pool action →
      (server W).act pool action = some next → Answering W root s3 t h q e next :=
    fun _ _ _ answering allowed acted => answering.act allowed.1 acted
  have ran : Runs (fun _ u => Viewed W.platform t h.key q e u) (Mounts.Step W.platform follow t) _ _ _ _ :=
    Machine.Reach.thread onward
    (fun _ choice _ _ _ _ allowed found executed => ⟨⟨choice,executed⟩,allowed.2 _ _ _ _ _ _ rfl found executed⟩)
    stays (fun _ _ _ _ seen => seen) (fun _ answering => answering.viewed)
    (fun pool action next answering allowed _ acted => (acts pool action next answering allowed acted).viewed) acts
    start found answered
  have alone := (blind_body get given).mirrored viewed' ran start.viewed
  refine Machine.alone (m := server W) ?_ alone (pool'.found_arrived W h)
  rintro pool op rest outcome v asked ⟨⟨choice,executed⟩,finds⟩
  refine ⟨choice,⟨⟨choice,rfl⟩,?_⟩,executed⟩
  rintro _ req op' next outcome' v' ⟨⟩ asked' executed'
  cases asked.symm.trans asked'
  cases executed.symm.trans executed'
  exact finds

end

/-- A server that finds a link "L" in every layer, and nothing else. -/
def Web.linked : Web :=
  { Web.plain with
    mount := fun _ => .ok (Diff.flat [([76],.symlink [])] (by simp) (by decide) fun _ => .fails).toLayer
    text := fun name => String.ofList (name.map Char.ofNat) }

/-- On the host the link in the layer of "s" leads to a file, and no other does. -/
def leads (sid : Id) (_ : List Diff.Str) : Diff.Followed := if sid = "s" then .bytes 1 [1] else .fails

/-- The first project takes two snapshots of its instance. -/
def twiceSnapshotted : List (Action Arrival Choice Move) :=
  twoProjects ++ .request (.http ⟨.POST,"/v1/instances/i/snapshot","key",.ok (.obj [])⟩) ::
    serves 2 ([.ok,.ok] ++ takeSnapshot "s" ++ recordSnapshot) ++
    .env (.guestMemory "i" [9] [8]) :: .request (.http ⟨.POST,"/v1/instances/i/snapshot","key",.ok (.obj [])⟩) ::
    serves 3 ([.ok,.ok] ++ takeSnapshot "s'" ++ recordSnapshot)

/-- Their difference is asked for. -/
def askDiff : Http := ⟨.GET,"/v1/snapshots/s/diff/s'","key",.ok .null⟩

/-- Before the layers are mounted the other project starts a run of its own. -/
def diffAround : List (Action Arrival Choice Move) :=
  serves 4 [.ok,.ok,.ok,.ok,.ok] ++ .request (.http ⟨.POST,"/v1/runs","klados_x",.ok (.obj [])⟩) ::
    serves 5 (.ok :: createRun "r2" "i2" [9] [9]) ++
    serves 4 [.ok,.ok,.flag false,.found (.bytes 1 [1]),.flag false,.found .fails]

/-- Whether a choice is what the links lead to, if it is for a look-up. -/
def finds (follow : Id → List Diff.Str → Diff.Followed) : Op → Choice → Bool
  | .sys (.isDir sid path), .flag value => value = (follow sid path).isDirectory
  | .sys (.follow sid path), .found what => what = follow sid path
  | .sys (.isDir _ _), _ | .sys (.follow _ _), _ => false
  | _, _ => true

/-- Whether an action is a request, a call of a request of another project, or a call of thread `t` that finds what
    the links lead to. -/
def abides (P : Platform) (q : Id) (follow : Id → List Diff.Str → Diff.Followed) (t : Nat) (pool : SPool) :
    Action Arrival Choice Move → Bool
  | .request _ => true
  | .call t' choice =>
    match pool.threads[t']? with
    | some ⟨.http h,.call op _⟩ =>
      if t' = t then finds follow op choice else pool.world.db.committed.opens P h.key ≠ some q
    | _ => false
  | .env _ | .reboot => false

section
variable {W : Web} {q : Id} {follow : Id → List Diff.Str → Diff.Followed} {t : Nat} {pool : SPool}
  {action : Action Arrival Choice Move}

theorem finds_exec {P : Platform} {op : Op} {choice : Choice} {w v : World} {outcome : Except Exn op.Res}
    (found : finds follow op choice = true) (ran : exec P t op choice w = some (outcome,v)) : Mounts.Finds follow op outcome := by
  cases op with
  | db | fs | s3 | mem | vm => trivial
  | sys o =>
    cases o with
    | newId | token | now | sleep | beforeDeadline => trivial
    | isDir sid path =>
      cases choice <;> cases ran
      exact congrArg Except.ok (of_decide_eq_true found)
    | follow sid path =>
      obtain ⟨⟨what,rfl,_,rfl⟩,_⟩ := exec_follow ran
      exact congrArg Except.ok (of_decide_eq_true found)

theorem alongside_of_abides (abides : abides W.platform q follow t pool action = true) :
    Alongside W.platform q t pool action ∧ Finding W follow t pool action := by
  cases action with
  | request =>
    refine ⟨.inr trivial,?_⟩
    rintro _ _ _ _ _ _ ⟨⟩
  | call t' choice =>
    simp only [Klados.abides] at abides
    split at abides
    · rename_i h op next found
      split at abides
      · rename_i own
        refine ⟨.inl ⟨choice,own ▸ rfl⟩,?_⟩
        rintro _ req op' next' outcome v ⟨⟩ found' ran
        cases found.symm.trans found'
        exact finds_exec abides ran
      · rename_i other
        refine ⟨.inr ⟨?_,?_⟩,?_⟩
        · intro h' prog found'
          cases found.symm.trans found'
          simpa using abides
        · intro _ next' found'
          cases found.symm.trans found'
        · rintro _ _ _ _ _ _ ⟨⟩
          exact absurd rfl other
    · cases abides
  | env | reboot => cases abides

end

/-- The texts of a list in a reply. -/
def Json.texts (reply : Json) (key : String) : List String :=
  match reply.get? key with
  | some (.arr items) => items.filterMap fun
    | .str text => some text
    | _ => none
  | _ => []

/-- The request of a thread that has ended, and its response. -/
def SPool.answer (pool : SPool) (t : Nat) : Option (Http × Response) :=
  match pool.threads[t]? with
  | some ⟨.http h,.ret (some response)⟩ => some (h,response)
  | _ => none

theorem SPool.answer_eq_some {pool : SPool} {t : Nat} {h : Http} {response : Response} :
    pool.answer t = some (h,response) ↔ pool.threads[t]? = some ⟨.http h,.ret (some response)⟩ := by
  unfold SPool.answer
  split
  · rename_i h' response' found
    simp [found]
  · rename_i none
    exact ⟨by simp,fun found => absurd found (none _ _)⟩

theorem reads_apart_diff : ∃ (pool later last : SPool) (response : Response),
    (server .linked).Reach (fun _ _ => True) ⟨World.initial defaultProject false,[]⟩ pool ∧
      (server .linked).Reach (fun pool' action => Alongside .plain "p" pool.threads.length pool' action ∧
        Finding .linked leads pool.threads.length pool' action) (pool.arrived .linked askDiff) later ∧
      later.world.db.committed.runs.map (·.id) = ["r","r2"] ∧ later.answer pool.threads.length = some (askDiff,response) ∧
      response.code = 200 ∧ response.obj.texts "removed" = ["L"] ∧
      (server .linked).Reach (fun pool action => (∃ choice, action = .call later.threads.length choice) ∧
        Finding .linked leads later.threads.length pool action) (later.arrived .linked askDiff) last ∧
      last.world = later.world ∧ last.answer later.threads.length = some (askDiff,response) := by
  have seen : ((server .linked).run (fun _ _ => true) twiceSnapshotted ⟨World.initial defaultProject false,[]⟩).bind
      (fun pool : SPool => ((server .linked).run (abides .plain "p" leads pool.threads.length) diffAround
        (pool.arrived .linked askDiff)).bind fun later : SPool => (later.answer pool.threads.length).map fun answer =>
          (pool.world.db.committed.opens .plain "key",later.world.db.committed.runs.map (·.id),answer.2.code,
            answer.2.obj.texts "removed")) = some (some "p",["r","r2"],200,["L"]) := by decide +kernel
  obtain ⟨pool,ran,onward⟩ := Option.bind_eq_some_iff.mp seen
  obtain ⟨later,ran',onward⟩ := Option.bind_eq_some_iff.mp onward
  obtain ⟨⟨h,response⟩,answer,same⟩ := Option.map_eq_some_iff.mp onward
  simp only [Prod.mk.injEq] at same
  obtain ⟨opens,runs,code,texts⟩ := same
  have reached : (server .linked).Reach (fun _ _ => True) ⟨World.initial defaultProject false,[]⟩ pool :=
    Machine.reach_of_run _ (fun _ _ _ => trivial) ran
  have spared := Machine.reach_of_run (server .linked) (fun (_ : SPool) _ => alongside_of_abides (W := .linked)) ran'
  have answering := (Answering.start (W := .linked) (h := askDiff) rfl reached opens).run
    (fun _ _ both => both.1) spared
  obtain ⟨program,found,_⟩ := answering.reading
  have answered : later.threads[pool.threads.length]? = some ⟨.http h,Prog.ofOutcome (.ok (some response))⟩ :=
    SPool.answer_eq_some.mp answer
  cases found.symm.trans answered
  obtain ⟨last,alone,world,again⟩ := reads_apart .linked defaultProject defaultProject false false leads (h := askDiff) rfl
    reached opens spared answered answering.reached answering.opens answering.estate
  exact ⟨pool,later,last,response,reached,spared,runs,answer,code,texts,alone,world,SPool.answer_eq_some.mpr again⟩

end Klados
