import Klados.Routes

/-!
The tables, project by project. A run names its project, snapshots and instances name their run,
and so every row has one project for good (`Grows.projectOf`). A statement that keeps to the rows of
one project (`Stmt.Within`) leaves the slices of all the others as they are (`Stmt.Within.slice`).
-/
namespace Klados
open Effects

/-- The run of the row with this id. -/
def Tables.runOf (T : Tables) : Table → Id → Option Id
  | .runs, id => some id
  | .snapshots, id => (T.snapshot? id).map (·.run_id)
  | .instances, id => (T.instance? id).map (·.run_id)

/-- What the tables hold of a project. -/
@[ext] structure Slice where
  runs : List RunRow
  snapshots : List SnapshotRow
  instances : List InstanceRow
  usage : List UsageRow

def Tables.slice (T : Tables) (pid : Id) : Slice where
  runs := T.runs.filter (·.project_id = pid)
  snapshots := T.snapshots.filter fun row => T.projectOf .runs row.run_id = some pid
  instances := T.instances.filter fun row => T.projectOf .runs row.run_id = some pid
  usage := T.usage.filter (·.project_id = pid)

/-- The row that a statement adds. -/
def Stmt.adds : Stmt → Option (Table × Id)
  | .insertRun row => some (.runs,row.id)
  | .insertSnapshot row => some (.snapshots,row.id)
  | .insertInstance row => some (.instances,row.id)
  | _ => none

/-- The statement writes rows of the project only, or a new project. -/
def Stmt.Within (T : Tables) (pid : Id) : Stmt → Prop
  | .insertProject _ => True
  | .insertRun row => row.project_id = pid
  | .insertSnapshot row => T.projectOf .runs row.run_id = some pid
  | .insertInstance row => T.projectOf .runs row.run_id = some pid
  | .setSnapshot iid _ => T.projectOf .instances iid = some pid
  | .setDestroyed iid => T.projectOf .instances iid = some pid
  | .accrue q _ _ _ => q = pid

section
variable {T T' : Tables} {table : Table} {id rid pid q : Id} {stmt : Stmt}

theorem projectOf_eq (T : Tables) (table : Table) (id : Id) :
    T.projectOf table id = (T.runOf table id).bind (T.projectOf .runs) := by
  cases table with
  | runs => rfl
  | snapshots => cases found : T.snapshot? id <;> simp [Tables.projectOf,Tables.runOf,found]
  | instances => cases found : T.instance? id <;> simp [Tables.projectOf,Tables.projectOfInstance,Tables.runOf,found]

/-- The run of an instance, from the columns that never change. -/
theorem runOf_instances (T : Tables) (id : Id) :
    T.runOf .instances id = ((T.instances.map InstanceRow.key).find? (·.1 = id)).map (·.2) := by
  simp only [Tables.runOf,Tables.instance?,List.find?_map,Function.comp_def,InstanceRow.key,Option.map_map]
  rfl

theorem Grows.runOf (grows : Grows T T') (of : T.runOf table id = some rid) : T'.runOf table id = some rid := by
  cases table with
  | runs => exact of
  | snapshots =>
    obtain ⟨row,found,run⟩ := Option.map_eq_some_iff.mp of
    exact Option.map_eq_some_iff.mpr ⟨row,grows.snapshots.find?_eq_some found,run⟩
  | instances =>
    rw [runOf_instances] at of ⊢
    obtain ⟨key,found,run⟩ := Option.map_eq_some_iff.mp of
    exact Option.map_eq_some_iff.mpr ⟨key,grows.instances.find?_eq_some found,run⟩

theorem Grows.projectOf (grows : Grows T T') (of : T.projectOf table id = some pid) : T'.projectOf table id = some pid := by
  rw [projectOf_eq] at of ⊢
  obtain ⟨rid,run,project⟩ := Option.bind_eq_some_iff.mp of
  obtain ⟨row,found,named⟩ := Option.map_eq_some_iff.mp project
  refine Option.bind_eq_some_iff.mpr ⟨rid,grows.runOf run,?_⟩
  exact Option.map_eq_some_iff.mpr ⟨row,grows.runs.find?_eq_some found,named⟩

theorem projectOf_hasRun (has : T.HasRun rid) : ∃ pid, T.projectOf .runs rid = some pid := by
  obtain ⟨run,member,named⟩ := has
  have there : (T.run? rid).isSome := List.find?_isSome.mpr ⟨run,member,by simpa using named⟩
  obtain ⟨row,found⟩ := Option.isSome_iff_exists.mp there
  exact ⟨row.project_id,by simp [Tables.projectOf,found]⟩

/-- The rows that are there belong to the same project later on. -/
theorem Grows.projectOf_run (grows : Grows T T') (has : T.HasRun rid) :
    T'.projectOf .runs rid = T.projectOf .runs rid := by
  obtain ⟨pid,of⟩ := projectOf_hasRun has
  rw [grows.projectOf of,of]

theorem Sane.runOf_hasRun (sane : Sane T) (of : T.runOf table id = some rid) : table = .runs ∨ T.HasRun rid := by
  cases table with
  | runs => exact .inl rfl
  | snapshots =>
    obtain ⟨row,found,run⟩ := Option.map_eq_some_iff.mp of
    exact .inr (run ▸ sane.snapshot_run row (List.mem_of_find?_eq_some found))
  | instances =>
    obtain ⟨row,found,run⟩ := Option.map_eq_some_iff.mp of
    exact .inr (run ▸ sane.instance_run row (List.mem_of_find?_eq_some found))

/-- A row is found by its primary key. -/
theorem find?_key {ρ : Type} {rows : List ρ} {key : ρ → Id} (distinct : (rows.map key).Nodup) {row : ρ} (member : row ∈ rows) :
    rows.find? (key · = key row) = some row := by
  have there : (rows.find? (key · = key row)).isSome := List.find?_isSome.mpr ⟨row,member,by simp⟩
  obtain ⟨found,seen⟩ := Option.isSome_iff_exists.mp there
  have named : key found = key row := by simpa using List.find?_some seen
  rw [seen,List.inj_on_of_nodup_map distinct (List.mem_of_find?_eq_some seen) member named]

theorem Sane.snapshot?_self (sane : Sane T) {row : SnapshotRow} (member : row ∈ T.snapshots) :
    T.snapshot? row.id = some row := find?_key sane.grown.nodup member

theorem Sane.instance?_self (sane : Sane T) {row : InstanceRow} (member : row ∈ T.instances) :
    T.instance? row.id = some row := find?_key sane.distinct member

theorem Sane.projectOf_snapshot (sane : Sane T) {row : SnapshotRow} (member : row ∈ T.snapshots) :
    T.projectOf .snapshots row.id = T.projectOf .runs row.run_id := by
  rw [projectOf_eq,Tables.runOf,sane.snapshot?_self member]
  rfl

theorem Sane.projectOf_instance (sane : Sane T) {row : InstanceRow} (member : row ∈ T.instances) :
    T.projectOf .instances row.id = T.projectOf .runs row.run_id := by
  rw [projectOf_eq,Tables.runOf,sane.instance?_self member]
  rfl

theorem Stmt.apply_runOf (applied : stmt.apply T = .ok T') (of : T'.runOf table id = some rid) :
    T.runOf table id = some rid ∨ stmt.adds = some (table,id) := by
  cases table with
  | runs => exact .inl of
  | snapshots =>
    obtain ⟨row,found,run⟩ := Option.map_eq_some_iff.mp of
    have named : row.id = id := by simpa using List.find?_some found
    cases stmt with
    | insertSnapshot new =>
      simp only [Stmt.apply] at applied
      split at applied
      · cases applied
      · cases applied
        simp only [Tables.snapshot?,List.find?_append] at found
        rcases Option.or_eq_some_iff.mp found with old | ⟨_,last⟩
        · exact .inl (Option.map_eq_some_iff.mpr ⟨row,old,run⟩)
        · have new' : row = new := by simpa using List.mem_of_find?_eq_some last
          exact .inr (by simp [Stmt.adds,← new',named])
    | insertProject | insertRun | insertInstance =>
      simp only [Stmt.apply] at applied
      split at applied
      · cases applied
      · cases applied
        exact .inl of
    | setSnapshot | setDestroyed | accrue =>
      cases applied
      exact .inl of
  | instances =>
    rw [runOf_instances] at of
    obtain ⟨key,found,run⟩ := Option.map_eq_some_iff.mp of
    have named : key.1 = id := by simpa using List.find?_some found
    cases stmt with
    | insertInstance new =>
      simp only [Stmt.apply] at applied
      split at applied
      · cases applied
      · cases applied
        simp only [List.map_append,List.find?_append] at found
        rcases Option.or_eq_some_iff.mp found with old | ⟨_,last⟩
        · rw [runOf_instances]
          exact .inl (Option.map_eq_some_iff.mpr ⟨key,old,run⟩)
        · have new' : key = new.key := by simpa using List.mem_of_find?_eq_some last
          exact .inr (by simp [Stmt.adds,← named,new',InstanceRow.key])
    | insertProject | insertRun | insertSnapshot =>
      simp only [Stmt.apply] at applied
      split at applied
      · cases applied
      · cases applied
        exact .inl (runOf_instances T id ▸ of)
    | setSnapshot iid sid =>
      cases applied
      have same := @updateInstance_keys T.instances iid (fun row => { row with snapshot_id := some sid }) fun _ => rfl
      rw [runOf_instances]
      exact .inl (Option.map_eq_some_iff.mpr ⟨key,same ▸ found,run⟩)
    | setDestroyed iid =>
      cases applied
      have same := @updateInstance_keys T.instances iid (fun row => { row with state := .DESTROYED }) fun _ => rfl
      rw [runOf_instances]
      exact .inl (Option.map_eq_some_iff.mpr ⟨key,same ▸ found,run⟩)
    | accrue =>
      cases applied
      exact .inl (runOf_instances T id ▸ of)

theorem Stmt.apply_run (applied : stmt.apply T = .ok T') (of : T'.projectOf .runs id = some q) :
    T.projectOf .runs id = some q ∨ stmt.adds = some (.runs,id) := by
  obtain ⟨row,found,project⟩ := Option.map_eq_some_iff.mp of
  have named : row.id = id := by simpa using List.find?_some found
  cases stmt with
  | insertRun new =>
    simp only [Stmt.apply] at applied
    split at applied
    · cases applied
    · cases applied
      simp only [Tables.run?,List.find?_append] at found
      rcases Option.or_eq_some_iff.mp found with old | ⟨_,last⟩
      · exact .inl (Option.map_eq_some_iff.mpr ⟨row,old,project⟩)
      · have new' : row = new := by simpa using List.mem_of_find?_eq_some last
        exact .inr (by simp [Stmt.adds,← new',named])
  | insertProject | insertSnapshot | insertInstance =>
    simp only [Stmt.apply] at applied
    split at applied
    · cases applied
    · cases applied
      exact .inl of
  | setSnapshot | setDestroyed | accrue =>
    cases applied
    exact .inl of

/-- A row belongs to a project since before the statement, or the statement adds it. -/
theorem Sane.apply_projectOf (sane : Sane T) (fits : stmt.Fits T) (applied : stmt.apply T = .ok T')
    (of : T'.projectOf table id = some q) : T.projectOf table id = some q ∨ stmt.adds = some (table,id) := by
  rw [projectOf_eq] at of
  obtain ⟨rid,run,project⟩ := Option.bind_eq_some_iff.mp of
  rcases Stmt.apply_runOf applied run with before | added
  · rcases sane.runOf_hasRun before with rfl | has
    · cases before
      exact Stmt.apply_run applied project
    · refine .inl ?_
      rw [projectOf_eq,before]
      exact ((sane.apply fits applied).2.projectOf_run has).symm.trans project
  · exact .inr added

/-! ## Slices -/

theorem Sane.slice_snapshot (sane : Sane T) {row : SnapshotRow} (member : row ∈ (T.slice q).snapshots) :
    T.projectOf .snapshots row.id = some q := by
  obtain ⟨inside,of⟩ := List.mem_filter.mp member
  rw [sane.projectOf_snapshot inside]
  simpa using of

theorem Sane.slice_instance (sane : Sane T) {row : InstanceRow} (member : row ∈ (T.slice q).instances) :
    T.projectOf .instances row.id = some q := by
  obtain ⟨inside,of⟩ := List.mem_filter.mp member
  rw [sane.projectOf_instance inside]
  simpa using of

/-- An update of a row of one project is not seen in the slice of another. -/
theorem updateInstance_slice (sane : Sane T) (of : T.projectOf .instances id = some pid) (other : q ≠ pid)
    {change : InstanceRow → InstanceRow} (same : ∀ row, (change row).key = row.key) :
    ({ T with instances := updateInstance T.instances id change } : Tables).slice q = T.slice q := by
  have kept : ∀ row : InstanceRow, (if row.id = id then change row else row).run_id = row.run_id := by
    intro row
    split
    · exact congrArg Prod.snd (same row)
    · rfl
  have rows : (updateInstance T.instances id change).filter (fun row => T.projectOf .runs row.run_id = some q) =
      T.instances.filter fun row => T.projectOf .runs row.run_id = some q := by
    rw [updateInstance,List.filter_map]
    simp only [Function.comp_def,kept]
    refine (List.map_congr_left ?_).trans (List.map_id _)
    intro row member
    have foreign : row.id ≠ id := by
      rintro rfl
      rw [sane.slice_instance member] at of
      exact other (Option.some.inj of)
    simp [foreign]
  exact congrArg (fun instances => ({ T.slice q with instances := instances } : Slice)) rows

/-- A statement about one project leaves the slice of every other as it was. -/
theorem Stmt.Within.slice (sane : Sane T) (within : stmt.Within T pid) (applied : stmt.apply T = .ok T') (other : q ≠ pid) :
    T'.slice q = T.slice q := by
  cases stmt with
  | insertProject row =>
    simp only [Stmt.apply] at applied
    split at applied
    · cases applied
    · cases applied
      rfl
  | insertRun row =>
    have grows := (sane.insertRun applied).2.1
    simp only [Stmt.apply] at applied
    split at applied
    · cases applied
    · cases applied
      have foreign : row.project_id ≠ q := fun same => other (same.symm.trans within)
      have run : ∀ rid, T.HasRun rid → _ := fun rid => grows.projectOf_run
      refine Slice.ext ?_ ?_ ?_ rfl
      · simp [Tables.slice,foreign]
      · exact List.filter_congr fun old member => by rw [run _ (sane.snapshot_run old member)]
      · exact List.filter_congr fun old member => by rw [run _ (sane.instance_run old member)]
  | insertSnapshot row =>
    simp only [Stmt.apply] at applied
    split at applied
    · cases applied
    · cases applied
      have project : T.projectOf .runs row.run_id = some pid := within
      refine Slice.ext rfl ?_ rfl rfl
      change (T.snapshots ++ [row]).filter (fun row => T.projectOf .runs row.run_id = some q) = _
      simp [List.filter_append,project,Ne.symm other,Tables.slice]
  | insertInstance row =>
    simp only [Stmt.apply] at applied
    split at applied
    · cases applied
    · cases applied
      have project : T.projectOf .runs row.run_id = some pid := within
      refine Slice.ext rfl rfl ?_ rfl
      change (T.instances ++ [row]).filter (fun row => T.projectOf .runs row.run_id = some q) = _
      simp [List.filter_append,project,Ne.symm other,Tables.slice]
  | setSnapshot iid sid =>
    cases applied
    exact updateInstance_slice sane within other fun _ => rfl
  | setDestroyed iid =>
    cases applied
    exact updateInstance_slice sane within other fun _ => rfl
  | accrue p v g now =>
    cases applied
    obtain rfl : p = pid := within
    have rows : (accrueUsage T.usage ⟨p,v,g,now⟩).filter (·.project_id = q) = T.usage.filter (·.project_id = q) := by
      unfold accrueUsage
      split
      · rw [List.filter_map]
        have kept : ∀ row : UsageRow, (if row.project_id = p then
            ({ row with vcpu_s := row.vcpu_s + v, ram_gib_s := row.ram_gib_s + g, updated_at := now } : UsageRow)
            else row).project_id = row.project_id := by
          intro row
          split <;> rfl
        simp only [Function.comp_def,kept]
        refine (List.map_congr_left ?_).trans (List.map_id _)
        intro row member
        have of : row.project_id = q := by simpa using (List.mem_filter.mp member).2
        simp [of,other]
      · simp [Ne.symm other]
    exact congrArg (fun usage => ({ T.slice q with usage := usage } : Slice)) rows

end

/-- The row is there, it is of this run, and the run is the project's. -/
def Tables.Places (T : Tables) (pid rid : Id) (row : Table × Id) : Prop :=
  T.runOf row.1 row.2 = some rid ∧ T.projectOf .runs rid = some pid

section
variable {T T' : Tables} {pid rid : Id} {row : Table × Id}

theorem Grows.places (grows : Grows T T') (places : T.Places pid rid row) : T'.Places pid rid row :=
  ⟨grows.runOf places.1,grows.projectOf places.2⟩

/-- A row that belongs to a project is of one of its runs. -/
theorem places_of_owned (row : Table × Id) (of : T.projectOf row.1 row.2 = some pid) : ∃ rid, T.Places pid rid row := by
  rw [projectOf_eq] at of
  obtain ⟨rid,run,project⟩ := Option.bind_eq_some_iff.mp of
  exact ⟨rid,run,project⟩

theorem places_insertRun {new : RunRow} (project : new.project_id = pid) (applied : (Stmt.insertRun new).apply T = .ok T') :
    T'.Places pid new.id (.runs,new.id) := by
  simp only [Stmt.apply] at applied
  split at applied
  · cases applied
  · rename_i fresh
    cases applied
    have absent : T.runs.find? (·.id = new.id) = none := by simpa using fresh
    exact ⟨rfl,by simp [Tables.projectOf,Tables.run?,List.find?_append,absent,project]⟩

theorem places_insertSnapshot {new : SnapshotRow} (run : T.projectOf .runs new.run_id = some pid)
    (applied : (Stmt.insertSnapshot new).apply T = .ok T') : T'.Places pid new.run_id (.snapshots,new.id) := by
  simp only [Stmt.apply] at applied
  split at applied
  · cases applied
  · rename_i fresh
    cases applied
    have absent : T.snapshots.find? (·.id = new.id) = none := by simpa using fresh
    exact ⟨by simp [Tables.runOf,Tables.snapshot?,List.find?_append,absent],run⟩

theorem places_insertInstance {new : InstanceRow} (run : T.projectOf .runs new.run_id = some pid)
    (applied : (Stmt.insertInstance new).apply T = .ok T') : T'.Places pid new.run_id (.instances,new.id) := by
  simp only [Stmt.apply] at applied
  split at applied
  · cases applied
  · rename_i fresh
    cases applied
    have absent : T.instances.find? (·.id = new.id) = none := by simpa using fresh
    exact ⟨by simp [Tables.runOf,Tables.instance?,List.find?_append,absent],run⟩

end

end Klados
