import Klados.World
import Klados.Forest
import Mathlib.Data.List.Nodup

/-!
The tables of the daemon. A statement that names rows which are there, of one run
(`Stmt.Fits`), keeps the timeline a forest inside each run (`Sane`) and only adds rows
(`Grows`); an open transaction is such an addition to the committed tables (`Db.Sound`).
-/
namespace Klados
open Effects
open Forest (Keys Holds Grown Rooted)

/-- Snapshots name themselves, their parent and their run. -/
def snapshotKeys : Keys SnapshotRow Id Id := ⟨(·.id),(·.parent_id),(·.run_id)⟩

def InstanceRow.key (row : InstanceRow) : Id × Id := (row.id,row.run_id)

/-- Some run has this id. -/
def Tables.HasRun (T : Tables) (rid : Id) : Prop := ∃ run ∈ T.runs, run.id = rid

/-- Some snapshot of the run has this id. -/
def Tables.HasSnapshot (T : Tables) (sid rid : Id) : Prop := Holds snapshotKeys T.snapshots sid rid

/-- The timeline is a forest inside each run. -/
structure Timeline (T : Tables) : Prop where
  instance_run : ∀ row ∈ T.instances, T.HasRun row.run_id
  snapshot_run : ∀ row ∈ T.snapshots, T.HasRun row.run_id
  snapshot_parent : ∀ row ∈ T.snapshots, ∀ sid, row.parent_id = some sid → T.HasSnapshot sid row.run_id
  instance_snapshot : ∀ row ∈ T.instances, ∀ sid, row.snapshot_id = some sid → T.HasSnapshot sid row.run_id
  rooted : ∀ row ∈ T.snapshots, Rooted snapshotKeys T.snapshots row.id

/-- What the statements preserve: parents are earlier rows, and ids are primary keys. -/
structure Sane (T : Tables) : Prop where
  grown : Grown snapshotKeys T.snapshots
  snapshot_run : ∀ row ∈ T.snapshots, T.HasRun row.run_id
  instance_run : ∀ row ∈ T.instances, T.HasRun row.run_id
  instance_snapshot : ∀ row ∈ T.instances, ∀ sid, row.snapshot_id = some sid → T.HasSnapshot sid row.run_id
  distinct : (T.instances.map (·.id)).Nodup

/-- Rows are only added; an instance keeps its run. -/
structure Grows (T T' : Tables) : Prop where
  runs : T.runs <+: T'.runs
  snapshots : T.snapshots <+: T'.snapshots
  instances : T.instances.map InstanceRow.key <+: T'.instances.map InstanceRow.key

theorem Sane.timeline {T : Tables} (sane : Sane T) : Timeline T :=
  ⟨sane.instance_run,sane.snapshot_run,fun _ member _ child => sane.grown.parent member child,
    sane.instance_snapshot,sane.grown.rooted⟩

theorem Grows.refl (T : Tables) : Grows T T :=
  ⟨List.prefix_refl _,List.prefix_refl _,List.prefix_refl _⟩

theorem Grows.trans {T T' T'' : Tables} (first : Grows T T') (second : Grows T' T'') : Grows T T'' :=
  ⟨first.runs.trans second.runs,first.snapshots.trans second.snapshots,first.instances.trans second.instances⟩

theorem Grows.hasRun {T T' : Tables} (grows : Grows T T') {rid : Id} (has : T.HasRun rid) : T'.HasRun rid := by
  obtain ⟨run,member,named⟩ := has
  exact ⟨run,grows.runs.subset member,named⟩

theorem Grows.hasSnapshot {T T' : Tables} (grows : Grows T T') {sid rid : Id} (has : T.HasSnapshot sid rid) :
    T'.HasSnapshot sid rid := has.mono grows.snapshots

/-- The rows that a statement names are there, and belong to one run. -/
def Stmt.Fits (T : Tables) : Stmt → Prop
  | .insertSnapshot row =>
    T.HasRun row.run_id ∧ ∀ sid, row.parent_id = some sid → T.HasSnapshot sid row.run_id
  | .insertInstance row =>
    T.HasRun row.run_id ∧ ∀ sid, row.snapshot_id = some sid → T.HasSnapshot sid row.run_id
  | .setSnapshot iid sid => ∃ rid, (iid,rid) ∈ T.instances.map InstanceRow.key ∧ T.HasSnapshot sid rid
  | _ => True

theorem updateInstance_keys (rows : List InstanceRow) (iid : Id) {change : InstanceRow → InstanceRow}
    (same : ∀ row, (change row).key = row.key) :
    (updateInstance rows iid change).map InstanceRow.key = rows.map InstanceRow.key := by
  unfold updateInstance
  rw [List.map_map]
  apply List.map_congr_left
  intro row _
  by_cases named : row.id = iid <;> simp [named,same]

theorem keys_ids (rows : List InstanceRow) : rows.map (·.id) = (rows.map InstanceRow.key).map Prod.fst := by
  simp [InstanceRow.key,Function.comp_def]

/-- Changing columns other than the key keeps the tables sane when the new rows name
    snapshots of their runs. -/
theorem Sane.update {T : Tables} (sane : Sane T) {iid : Id} {change : InstanceRow → InstanceRow}
    (same : ∀ row, (change row).key = row.key)
    (names : ∀ row ∈ T.instances, row.id = iid → ∀ sid, (change row).snapshot_id = some sid →
      T.HasSnapshot sid row.run_id) :
    Sane { T with instances := updateInstance T.instances iid change } ∧
      Grows T { T with instances := updateInstance T.instances iid change } := by
  have keys := updateInstance_keys T.instances iid same
  have updated : ∀ row ∈ updateInstance T.instances iid change, ∃ old ∈ T.instances, old.run_id = row.run_id ∧
      ∀ sid, row.snapshot_id = some sid → T.HasSnapshot sid old.run_id := by
    intro row member
    obtain ⟨old,inside,changed⟩ := List.mem_map.mp member
    refine ⟨old,inside,?_⟩
    by_cases named : old.id = iid
    · simp only [named,↓reduceIte] at changed
      subst changed
      have run : (change old).run_id = old.run_id := congrArg Prod.snd (same old)
      exact ⟨run.symm,names old inside named⟩
    · simp only [named,↓reduceIte] at changed
      subst changed
      exact ⟨rfl,sane.instance_snapshot old inside⟩
  refine ⟨⟨sane.grown,sane.snapshot_run,?_,?_,?_⟩,⟨List.prefix_refl _,List.prefix_refl _,?_⟩⟩
  · intro row member
    obtain ⟨old,inside,run,_⟩ := updated row member
    exact run ▸ sane.instance_run old inside
  · intro row member sid child
    obtain ⟨old,_,run,holds⟩ := updated row member
    exact run ▸ holds sid child
  · have ids := sane.distinct
    rw [keys_ids] at ids ⊢
    rw [keys]
    exact ids
  · exact keys ▸ List.prefix_refl _

theorem Sane.insertRun {T T' : Tables} {row : RunRow} (sane : Sane T)
    (applied : (Stmt.insertRun row).apply T = .ok T') : Sane T' ∧ Grows T T' ∧ T'.HasRun row.id := by
  simp only [Stmt.apply] at applied
  split at applied
  · cases applied
  · cases applied
    have grows : Grows T { T with runs := T.runs ++ [row] } :=
      ⟨List.prefix_append _ _,List.prefix_refl _,List.prefix_refl _⟩
    refine ⟨⟨sane.grown,?_,?_,sane.instance_snapshot,sane.distinct⟩,grows,⟨row,by simp,rfl⟩⟩
    · exact fun old member => grows.hasRun (sane.snapshot_run old member)
    · exact fun old member => grows.hasRun (sane.instance_run old member)

theorem Sane.insertSnapshot {T T' : Tables} {row : SnapshotRow} (sane : Sane T)
    (fits : (Stmt.insertSnapshot row).Fits T) (applied : (Stmt.insertSnapshot row).apply T = .ok T') :
    Sane T' ∧ Grows T T' ∧ T'.HasSnapshot row.id row.run_id := by
  simp only [Stmt.apply] at applied
  split at applied
  · cases applied
  · rename_i fresh
    cases applied
    have grows : Grows T { T with snapshots := T.snapshots ++ [row] } :=
      ⟨List.prefix_refl _,List.prefix_append _ _,List.prefix_refl _⟩
    refine ⟨⟨?_,?_,sane.instance_run,?_,sane.distinct⟩,grows,⟨row,by simp,rfl,rfl⟩⟩
    · refine sane.grown.append ?_ fits.2
      simpa [snapshotKeys] using fresh
    · intro old member
      rcases List.mem_append.mp member with earlier | new
      · exact sane.snapshot_run old earlier
      · rw [List.mem_singleton.mp new]
        exact fits.1
    · exact fun old member sid child => grows.hasSnapshot (sane.instance_snapshot old member sid child)

theorem Sane.insertInstance {T T' : Tables} {row : InstanceRow} (sane : Sane T)
    (fits : (Stmt.insertInstance row).Fits T) (applied : (Stmt.insertInstance row).apply T = .ok T') :
    Sane T' ∧ Grows T T' := by
  simp only [Stmt.apply] at applied
  split at applied
  · cases applied
  · rename_i fresh
    cases applied
    refine ⟨⟨sane.grown,sane.snapshot_run,?_,?_,?_⟩,⟨List.prefix_refl _,List.prefix_refl _,by simp⟩⟩
    · intro old member
      rcases List.mem_append.mp member with earlier | new
      · exact sane.instance_run old earlier
      · rw [List.mem_singleton.mp new]
        exact fits.1
    · intro old member sid child
      rcases List.mem_append.mp member with earlier | new
      · exact sane.instance_snapshot old earlier sid child
      · rw [List.mem_singleton.mp new] at child ⊢
        exact fits.2 sid child
    · rw [List.map_append,List.nodup_append]
      refine ⟨sane.distinct,by simp,?_⟩
      intro id old id' new equal
      obtain ⟨row',member,named⟩ := List.mem_map.mp old
      have taken : id' = row.id := by simpa using new
      exact fresh (List.any_eq_true.mpr ⟨row',member,by simp [named,equal,taken]⟩)

/-- A statement that fits keeps the tables sane and only adds rows. -/
theorem Sane.apply {T T' : Tables} {stmt : Stmt} (sane : Sane T) (fits : stmt.Fits T)
    (applied : stmt.apply T = .ok T') : Sane T' ∧ Grows T T' := by
  cases stmt with
  | insertProject row =>
    simp only [Stmt.apply] at applied
    split at applied
    · cases applied
    · cases applied
      exact ⟨⟨sane.grown,sane.snapshot_run,sane.instance_run,sane.instance_snapshot,sane.distinct⟩,
        ⟨List.prefix_refl _,List.prefix_refl _,List.prefix_refl _⟩⟩
  | insertRun row =>
    obtain ⟨kept,grows,_⟩ := sane.insertRun applied
    exact ⟨kept,grows⟩
  | insertSnapshot row =>
    obtain ⟨kept,grows,_⟩ := sane.insertSnapshot fits applied
    exact ⟨kept,grows⟩
  | insertInstance row => exact sane.insertInstance fits applied
  | setSnapshot iid sid =>
    cases applied
    obtain ⟨rid,member,there⟩ := fits
    refine sane.update (fun _ => rfl) ?_
    rintro row inside named sid' ⟨⟩
    -- ids are unique, so the row of `iid` is the one that was seen
    obtain ⟨seen,inside',key⟩ := List.mem_map.mp member
    have same : row = seen :=
      List.inj_on_of_nodup_map sane.distinct inside inside' (named.trans (congrArg Prod.fst key).symm)
    have run : row.run_id = rid := same ▸ congrArg Prod.snd key
    exact run ▸ there
  | setDestroyed iid =>
    cases applied
    exact sane.update (fun _ => rfl) fun row inside _ sid child => sane.instance_snapshot row inside sid child
  | accrue pid v g now =>
    cases applied
    exact ⟨⟨sane.grown,sane.snapshot_run,sane.instance_run,sane.instance_snapshot,sane.distinct⟩,
      ⟨List.prefix_refl _,List.prefix_refl _,List.prefix_refl _⟩⟩

/-! ## Transactions -/

/-- The committed tables are sane, and so is what an open transaction has written on top. -/
structure Db.Sound (db : Db) : Prop where
  committed : Sane db.committed
  written : ∀ t T, db.txn = some (t,T) → Sane T ∧ Grows db.committed T

theorem Db.Sound.visible {db : Db} (sound : db.Sound) (t : Nat) :
    Sane (db.visible t) ∧ Grows db.committed (db.visible t) := by
  unfold Db.visible
  split
  · rename_i holder written open_
    split
    · exact sound.written _ _ open_
    · exact ⟨sound.committed,Grows.refl _⟩
  · exact ⟨sound.committed,Grows.refl _⟩

/-- A thread sees its own transaction or the committed tables. -/
theorem Db.visible_other {db : Db} {t : Nat} (other : ∀ T, db.txn ≠ some (t,T)) : db.visible t = db.committed := by
  unfold Db.visible
  split
  · rename_i holder written open_
    split
    · rename_i same
      exact absurd (same ▸ open_) (other written)
    · rfl
  · rfl

theorem Db.visible_own {db : Db} {t : Nat} {T : Tables} (held : db.txn = some (t,T)) : db.visible t = T := by
  simp [Db.visible,held]

/-- Everything that a database call of thread `t` may do. -/
inductive Db.Acts (t : Nat) (db : Db) : (o : DbOp) → Except Exn o.Res → Db → Prop
  | fails {o : DbOp} {error : Exn} : Db.Acts t db o (.error error) db
  | read : Db.Acts t db .read (.ok (db.visible t)) db
  | wrote {stmt : Stmt} {T : Tables} : (∀ t' T', db.txn = some (t',T') → t' = t) →
      stmt.apply (db.visible t) = .ok T → Db.Acts t db (.execute stmt) (.ok ()) { db with txn := some (t,T) }
  | refused {stmt : Stmt} {error : Exn} : (∀ t' T', db.txn = some (t',T') → t' = t) →
      stmt.apply (db.visible t) = .error error →
      Db.Acts t db (.execute stmt) (.error error) { db with txn := some (t,db.visible t) }
  | committed {T : Tables} : db.txn = some (t,T) → Db.Acts t db .commit (.ok ()) ⟨T,none⟩
  | unchanged : (∀ T, db.txn ≠ some (t,T)) → Db.Acts t db .commit (.ok ()) db
  | rolled {T : Tables} : db.txn = some (t,T) → Db.Acts t db .rollback (.ok ()) { db with txn := none }
  | idle : (∀ T, db.txn ≠ some (t,T)) → Db.Acts t db .rollback (.ok ()) db

theorem Db.acts {t : Nat} {db db' : Db} {o : DbOp} {choice : Choice} {outcome : Except Exn o.Res}
    (executed : db.exec t o choice = some (outcome,db')) : db.Acts t o outcome db' := by
  cases o with
  | read =>
    cases choice <;> cases executed
    · exact .read
    · exact .fails
  | execute stmt =>
    cases choice with
    | ok =>
      simp only [Db.exec] at executed
      split at executed
      · rename_i free
        have mine : ∀ t' T', db.txn = some (t',T') → t' = t := fun t' T' held => by simpa [held] using free
        split at executed
        · rename_i T applied
          cases executed
          exact .wrote mine applied
        · rename_i error refused
          cases executed
          exact .refused mine refused
      · cases executed
    | fail error =>
      cases executed
      exact .fails
    | torn | id | text | time | flag | boot | bootLost | lost | eof | puts | found => cases executed
  | commit =>
    cases choice with
    | ok =>
      simp only [Db.exec] at executed
      split at executed
      · rename_i holder T held
        cases executed
        by_cases own : holder = t
        · subst own
          simp only [↓reduceIte]
          exact .committed held
        · simp only [own,↓reduceIte]
          exact .unchanged fun T' held' => own (congrArg Prod.fst (Option.some.inj (held.symm.trans held')))
      · rename_i none
        cases executed
        exact .unchanged fun T' held => by simp [none] at held
    | fail error =>
      cases executed
      exact .fails
    | torn | id | text | time | flag | boot | bootLost | lost | eof | puts | found => cases executed
  | rollback =>
    cases choice with
    | ok =>
      simp only [Db.exec,Option.some.injEq,Prod.mk.injEq] at executed
      obtain ⟨rfl,rfl⟩ := executed
      split
      · rename_i own
        cases held : db.txn with
        | none => simp [held] at own
        | some pair =>
          obtain ⟨holder,T⟩ := pair
          have same : holder = t := by simpa [held] using own
          exact .rolled (same ▸ held)
      · rename_i other
        exact .idle fun T held => other (by simp [held])
    | fail | torn | id | text | time | flag | boot | bootLost | lost | eof | puts | found => cases executed

/-- The committed tables and what an open transaction has written satisfy `J`. -/
structure Db.Every (J : Tables → Prop) (db : Db) : Prop where
  committed : J db.committed
  written : ∀ t T, db.txn = some (t,T) → J T

theorem Db.Every.visible {J : Tables → Prop} {db : Db} (every : db.Every J) (t : Nat) : J (db.visible t) := by
  unfold Db.visible
  split
  · rename_i holder written open_
    split
    · exact every.written _ _ open_
    · exact every.committed
  · exact every.committed

section
variable {t : Nat} {db db' : Db} {o : DbOp} {outcome : Except Exn o.Res}

/-- What the statement keeps, the call keeps. -/
theorem Db.Acts.every {J : Tables → Prop} (acts : db.Acts t o outcome db') (every : db.Every J)
    (keeps : ∀ stmt T T', o = .execute stmt → J T → stmt.apply T = .ok T' → J T') : db'.Every J := by
  cases acts with
  | fails | read | unchanged | idle => exact every
  | wrote _ applied =>
    refine ⟨every.committed,?_⟩
    rintro t' T' ⟨⟩
    exact keeps _ _ _ rfl (every.visible t) applied
  | refused =>
    refine ⟨every.committed,?_⟩
    rintro t' T' ⟨⟩
    exact every.visible t
  | committed held => exact ⟨every.written _ _ held,by rintro _ _ ⟨⟩⟩
  | rolled => exact ⟨every.committed,by rintro _ _ ⟨⟩⟩

/-- A statement that fits keeps the database sound, and nothing committed is ever lost. -/
theorem Db.Acts.sound (acts : db.Acts t o outcome db') (sound : db.Sound)
    (fits : ∀ stmt, o = .execute stmt → stmt.Fits (db.visible t)) : db'.Sound ∧ Grows db.committed db'.committed := by
  cases acts with
  | fails | read | unchanged | idle => exact ⟨sound,Grows.refl _⟩
  | wrote _ applied =>
    obtain ⟨sane,grown⟩ := sound.visible t
    obtain ⟨sane',grown'⟩ := sane.apply (fits _ rfl) applied
    refine ⟨⟨sound.committed,?_⟩,Grows.refl _⟩
    rintro t' T' ⟨⟩
    exact ⟨sane',grown.trans grown'⟩
  | refused =>
    refine ⟨⟨sound.committed,?_⟩,Grows.refl _⟩
    rintro t' T' ⟨⟩
    exact sound.visible t
  | committed held =>
    obtain ⟨sane,grown⟩ := sound.written _ _ held
    exact ⟨⟨sane,by rintro _ _ ⟨⟩⟩,grown⟩
  | rolled => exact ⟨⟨sound.committed,by rintro _ _ ⟨⟩⟩,Grows.refl _⟩

/-- What another thread sees while `t` calls: its own transaction, or the committed tables. -/
theorem Db.Acts.visible_other (acts : db.Acts t o outcome db') {t' : Nat} (other : t' ≠ t) :
    db'.visible t' = db.visible t' ∨
      (o = .commit ∧ db.txn = some (t,db'.committed) ∧ db.visible t' = db.committed ∧ db'.visible t' = db'.committed) := by
  have foreign : ∀ {T T' : Tables}, db.txn = some (t,T) → db.txn ≠ some (t',T') := by
    intro T T' held held'
    exact other (congrArg Prod.fst (Option.some.inj (held'.symm.trans held)))
  cases acts with
  | fails | read | unchanged | idle => exact .inl rfl
  | wrote free | refused free =>
    have before : db.visible t' = db.committed := Db.visible_other fun T held => other (free t' T held)
    refine .inl (Eq.trans ?_ before.symm)
    exact Db.visible_other fun T held => other (congrArg Prod.fst (Option.some.inj held)).symm
  | committed held =>
    exact .inr ⟨rfl,held,Db.visible_other fun T => foreign held,Db.visible_other fun T => by simp⟩
  | rolled held =>
    have before : db.visible t' = db.committed := Db.visible_other fun T => foreign held
    exact .inl (Eq.trans (Db.visible_other fun T => by simp) before.symm)

theorem Db.Acts.txn_other (acts : db.Acts t o outcome db') {t' : Nat} (other : t' ≠ t)
    (none : ∀ T, db.txn ≠ some (t',T)) : ∀ T, db'.txn ≠ some (t',T) := by
  intro T held
  cases acts with
  | fails | read | unchanged | idle => exact none T held
  | wrote | refused => exact other (congrArg Prod.fst (Option.some.inj held)).symm
  | committed | rolled => cases held

theorem Db.Acts.txn_held (acts : db.Acts t o outcome db') {t' : Nat} (other : t' ≠ t) {T : Tables}
    (held : db.txn = some (t',T)) : db'.txn = some (t',T) := by
  cases acts with
  | fails | read | unchanged | idle => exact held
  | wrote free | refused free => exact absurd (free t' T held) other
  | committed own | rolled own => exact absurd (congrArg Prod.fst (Option.some.inj (held.symm.trans own))) other

/-- Where an open transaction comes from. -/
theorem Db.Acts.txn_open (acts : db.Acts t o outcome db') {t' : Nat} {T : Tables} (held : db'.txn = some (t',T)) :
    db'.committed = db.committed ∧ (db.txn = some (t',T) ∨ (t' = t ∧
      (T = db.visible t ∨ ∃ stmt, o = .execute stmt ∧ (∃ value, outcome = .ok value) ∧ stmt.apply (db.visible t) = .ok T))) := by
  cases acts with
  | fails | read | unchanged | idle => exact ⟨rfl,.inl held⟩
  | wrote free applied =>
    cases held
    exact ⟨rfl,.inr ⟨rfl,.inr ⟨_,rfl,⟨_,rfl⟩,applied⟩⟩⟩
  | refused =>
    cases held
    exact ⟨rfl,.inr ⟨rfl,.inl rfl⟩⟩
  | committed | rolled => cases held

end

/-- Some instance has this id. -/
def Tables.HasInstance (T : Tables) (iid : Id) : Prop := ∃ row ∈ T.instances, row.id = iid

theorem Grows.hasInstance {T T' : Tables} (grows : Grows T T') {iid : Id} (has : T.HasInstance iid) :
    T'.HasInstance iid := by
  obtain ⟨row,member,named⟩ := has
  have key := grows.instances.subset (List.mem_map_of_mem (f := InstanceRow.key) member)
  obtain ⟨row',member',same⟩ := List.mem_map.mp key
  exact ⟨row',member',(congrArg Prod.fst same).trans named⟩

theorem hasInstance_update {T : Tables} {iid iid' : Id} {change : InstanceRow → InstanceRow}
    (same : ∀ row, (change row).key = row.key)
    (has : ({ T with instances := updateInstance T.instances iid change } : Tables).HasInstance iid') :
    T.HasInstance iid' := by
  obtain ⟨row,member,named⟩ := has
  obtain ⟨old,inside,changed⟩ := List.mem_map.mp member
  refine ⟨old,inside,?_⟩
  have key : row.key = old.key := by
    by_cases hit : old.id = iid
    · simp only [hit,↓reduceIte] at changed
      exact changed ▸ same old
    · simp only [hit,↓reduceIte] at changed
      exact changed ▸ rfl
  exact (congrArg Prod.fst key).symm.trans named

/-- A statement adds at most the instance that it inserts. -/
theorem Stmt.apply_hasInstance {T T' : Tables} {stmt : Stmt} (applied : stmt.apply T = .ok T') {iid : Id}
    (has : T'.HasInstance iid) : T.HasInstance iid ∨ ∃ row, stmt = .insertInstance row ∧ row.id = iid := by
  cases stmt with
  | insertInstance row =>
    simp only [Stmt.apply] at applied
    split at applied
    · cases applied
    · cases applied
      obtain ⟨new,member,named⟩ := has
      rcases List.mem_append.mp member with old | last
      · exact .inl ⟨new,old,named⟩
      · exact .inr ⟨row,rfl,List.mem_singleton.mp last ▸ named⟩
  | insertProject row | insertRun row | insertSnapshot row =>
    simp only [Stmt.apply] at applied
    split at applied
    · cases applied
    · cases applied
      exact .inl has
  | setSnapshot iid sid | setDestroyed iid =>
    cases applied
    exact .inl (hasInstance_update (by intro row; rfl) has)
  | accrue pid v g now =>
    cases applied
    exact .inl has

/-- Where an instance row of the tables comes from: it was there, and is at most destroyed since, or
    it is the one that the statement inserts. -/
theorem Stmt.apply_instances {T T' : Tables} {stmt : Stmt} (applied : stmt.apply T = .ok T') {row : InstanceRow}
    (member : row ∈ T'.instances) :
    (∃ old ∈ T.instances, old.id = row.id ∧ (row.state = old.state ∨ row.state = .DESTROYED)) ∨
      (stmt = .insertInstance row ∧ ¬ T.HasInstance row.id) := by
  have updated : ∀ {iid : Id} {change : InstanceRow → InstanceRow}, (∀ old, (change old).id = old.id) →
      (∀ old, (change old).state = old.state ∨ (change old).state = .DESTROYED) →
      row ∈ updateInstance T.instances iid change →
      ∃ old ∈ T.instances, old.id = row.id ∧ (row.state = old.state ∨ row.state = .DESTROYED) := by
    intro iid change same state inside
    obtain ⟨old,there,changed⟩ := List.mem_map.mp inside
    refine ⟨old,there,?_⟩
    by_cases named : old.id = iid
    · rw [if_pos named] at changed
      exact changed ▸ ⟨(same old).symm,state old⟩
    · rw [if_neg named] at changed
      exact changed ▸ ⟨rfl,.inl rfl⟩
  cases stmt with
  | insertInstance new =>
    simp only [Stmt.apply] at applied
    split at applied
    · cases applied
    · rename_i fresh
      cases applied
      rcases List.mem_append.mp member with old | last
      · exact .inl ⟨row,old,rfl,.inl rfl⟩
      · cases List.mem_singleton.mp last
        refine .inr ⟨rfl,?_⟩
        rintro ⟨old,there,named⟩
        exact fresh (List.any_eq_true.mpr ⟨old,there,by simp [named]⟩)
  | insertProject | insertRun | insertSnapshot =>
    simp only [Stmt.apply] at applied
    split at applied
    · cases applied
    · cases applied
      exact .inl ⟨row,member,rfl,.inl rfl⟩
  | setSnapshot iid sid =>
    cases applied
    exact .inl (updated (by intro _; rfl) (by intro _; exact .inl rfl) member)
  | setDestroyed iid =>
    cases applied
    exact .inl (updated (by intro _; rfl) (by intro _; exact .inr rfl) member)
  | accrue =>
    cases applied
    exact .inl ⟨row,member,rfl,.inl rfl⟩

/-- Instances stay in the tables. -/
theorem Stmt.apply_keeps {T T' : Tables} {stmt : Stmt} (applied : stmt.apply T = .ok T') {iid : Id}
    (has : T.HasInstance iid) : T'.HasInstance iid := by
  have updated : ∀ {iid' : Id} {change : InstanceRow → InstanceRow}, (∀ old, (change old).id = old.id) →
      ∃ row ∈ updateInstance T.instances iid' change, row.id = iid := by
    intro iid' change same
    obtain ⟨row,member,named⟩ := has
    refine ⟨_,List.mem_map_of_mem member,?_⟩
    split
    · exact (same row).trans named
    · exact named
  cases stmt with
  | insertInstance row =>
    simp only [Stmt.apply] at applied
    split at applied
    · cases applied
    · cases applied
      obtain ⟨old,member,named⟩ := has
      exact ⟨old,List.mem_append_left _ member,named⟩
  | insertProject | insertRun | insertSnapshot =>
    simp only [Stmt.apply] at applied
    split at applied
    · cases applied
    · cases applied
      exact has
  | setSnapshot | setDestroyed =>
    cases applied
    exact updated (by intro _; rfl)
  | accrue =>
    cases applied
    exact has

/-- A statement adds at most the snapshot that it inserts. -/
theorem Stmt.apply_snapshots {T T' : Tables} {stmt : Stmt} (applied : stmt.apply T = .ok T') {row : SnapshotRow}
    (member : row ∈ T'.snapshots) : row ∈ T.snapshots ∨ stmt = .insertSnapshot row := by
  cases stmt with
  | insertSnapshot new =>
    simp only [Stmt.apply] at applied
    split at applied
    · cases applied
    · cases applied
      rcases List.mem_append.mp member with old | last
      · exact .inl old
      · exact .inr (List.mem_singleton.mp last ▸ rfl)
  | insertProject | insertRun | insertInstance =>
    simp only [Stmt.apply] at applied
    split at applied
    · cases applied
    · cases applied
      exact .inl member
  | setSnapshot | setDestroyed | accrue =>
    cases applied
    exact .inl member

end Klados
