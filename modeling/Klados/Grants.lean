import Klados.Tenants

/-!
Every request keeps to its project. What a thread knows once it is authenticated (`Tenant`) grants
the calls of each function that it runs, one function after the other; a function that is given an
id is only called after its owner was asked for.
-/
namespace Klados
open Effects
open Prog (Only)
open Files (Fs Handle)

variable {P : Platform} {h : Http} {t : Nat} {pid : Id} {α β : Type}

/-- The key opens the project, and the transaction of the thread has changed no other project. -/
structure Acting (P : Platform) (h : Http) (t : Nat) (pid : Id) (w : World) : Prop where
  opens : w.db.committed.opens P h.key = some pid
  clean : ∀ q, q ≠ pid → (w.db.visible t).slice q = w.db.committed.slice q

/-- An assertion that the others keep, and so do the thread's own calls among `ok`. -/
structure Endures (P : Platform) (h : Http) (t : Nat) (ok : Op → Prop) (K : World → Prop) : Prop where
  relied : ∀ w v, Housed w → Housed v → Onward t w v → K w → K v
  own : ∀ op choice outcome w v, ok op → Housed w → Housed v → May P t (.http h) op w → Permitted t op w →
    exec P t op choice w = some (outcome,v) → K w → K v

/-- Any call. -/
abbrev always : Op → Prop := fun _ => True

/-- What an authenticated thread may know: at least for whom it acts. -/
structure Tenant (P : Platform) (h : Http) (t : Nat) (pid : Id) (ok : Op → Prop) (K : World → Prop) : Prop where
  endures : Endures P h t ok K
  acting : ∀ w, K w → Acting P h t pid w

/-- The id is the thread's own, and no other project has a row with it. -/
def Mine (t : Nat) (pid : Id) (id : Id) (w : World) : Prop :=
  w.owner id = some t ∧ ∀ table q, w.db.committed.projectOf table id = some q → q = pid

/-- The row is there, and it is the project's. -/
def Ours (pid : Id) (row : Table × Id) (w : World) : Prop := w.db.committed.projectOf row.1 row.2 = some pid

section
variable {w v : World} {ok : Op → Prop} {K : World → Prop}

theorem opens_grows {T T' : Tables} {key : String} (grown : T.projects <+: T'.projects)
    (opens : T.opens P key = some pid) : T'.opens P key = some pid := by
  unfold Tables.opens at opens ⊢
  split at opens
  · cases opens
  · rename_i given
    rw [if_neg given]
    obtain ⟨found,named⟩ := Option.filter_eq_some_iff.mp opens
    obtain ⟨row,seen,same⟩ := Option.map_eq_some_iff.mp found
    refine Option.filter_eq_some_iff.mpr ⟨Option.map_eq_some_iff.mpr ⟨row,grown.find?_eq_some seen,same⟩,named⟩

/-- A row of a project in the tables of a transaction that did not touch the project was there before. -/
theorem projectOf_of_slice {T T' : Tables} {table : Table} {id q : Id} (sane : Sane T) (grows : Grows T T')
    (same : T'.slice q = T.slice q) (of : T'.projectOf table id = some q) : T.projectOf table id = some q := by
  cases table with
  | runs =>
    obtain ⟨row,found,project⟩ := Option.map_eq_some_iff.mp of
    have named : row.id = id := by simpa using List.find?_some found
    have inside : row ∈ (T'.slice q).runs := List.mem_filter.mpr ⟨List.mem_of_find?_eq_some found,by simpa using project⟩
    rw [same] at inside
    obtain ⟨q',of'⟩ := projectOf_hasRun ⟨row,(List.mem_filter.mp inside).1,named⟩
    rw [of',← grows.projectOf of',of]
  | snapshots =>
    obtain ⟨run,found,project⟩ := Option.map_eq_some_iff.mp of
    obtain ⟨row,seen,its⟩ := Option.bind_eq_some_iff.mp found
    have named : row.id = id := by simpa using List.find?_some seen
    have inside : row ∈ (T'.slice q).snapshots :=
      List.mem_filter.mpr ⟨List.mem_of_find?_eq_some seen,by simp [Tables.projectOf,its,project]⟩
    rw [same] at inside
    exact named ▸ sane.slice_snapshot inside
  | instances =>
    obtain ⟨run,found,project⟩ := Option.map_eq_some_iff.mp of
    obtain ⟨row,seen,its⟩ := Option.bind_eq_some_iff.mp found
    have named : row.id = id := by simpa using List.find?_some seen
    have inside : row ∈ (T'.slice q).instances :=
      List.mem_filter.mpr ⟨List.mem_of_find?_eq_some seen,by simp [Tables.projectOf,its,project]⟩
    rw [same] at inside
    exact named ▸ sane.slice_instance inside

theorem Endures.and {X : World → Prop} (first : Endures P h t ok K) (second : Endures P h t ok X) :
    Endures P h t ok fun w => K w ∧ X w where
  relied w v housed housed' onward := And.imp (first.relied w v housed housed' onward) (second.relied w v housed housed' onward)
  own op choice outcome w v allowed housed housed' may permitted ran :=
    And.imp (first.own op choice outcome w v allowed housed housed' may permitted ran)
      (second.own op choice outcome w v allowed housed housed' may permitted ran)

theorem Endures.each {ι : Type} {c : ι → Prop} {X : ι → World → Prop} (one : ∀ i, Endures P h t ok (X i)) :
    Endures P h t ok fun w => ∀ i, c i → X i w where
  relied w v housed housed' onward holds i chosen := (one i).relied w v housed housed' onward (holds i chosen)
  own op choice outcome w v allowed housed housed' may permitted ran holds i chosen :=
    (one i).own op choice outcome w v allowed housed housed' may permitted ran (holds i chosen)

theorem Endures.mono {ok' : Op → Prop} (endures : Endures P h t ok K) (fewer : ∀ op, ok' op → ok op) : Endures P h t ok' K :=
  ⟨endures.relied,fun op choice outcome w v allowed => endures.own op choice outcome w v (fewer op allowed)⟩

theorem Tenant.and {X : World → Prop} (tenant : Tenant P h t pid ok K) (endures : Endures P h t ok X) :
    Tenant P h t pid ok fun w => K w ∧ X w := ⟨tenant.endures.and endures,fun w holds => tenant.acting w holds.1⟩

theorem Tenant.mono {ok' : Op → Prop} (tenant : Tenant P h t pid ok K) (fewer : ∀ op, ok' op → ok op) :
    Tenant P h t pid ok' K := ⟨tenant.endures.mono fewer,tenant.acting⟩

/-- What the call of a tenant was granted for. -/
theorem May.granted {op : Op} (may : May P t (.http h) op w) (opens : w.db.committed.opens P h.key = some pid)
    (other : op ≠ .db .read) : Granted t pid op w := by
  rcases may with read | ⟨pid',opens',granted⟩
  · exact absurd read other
  · cases opens'.symm.trans opens
    exact granted

theorem endures_acting : Endures P h t always (Acting P h t pid) where
  relied w v _ _ onward := by
    rintro ⟨opens,clean⟩
    refine ⟨opens_grows onward.projects opens,?_⟩
    intro q other
    by_cases held : ∃ T, w.db.txn = some (t,T)
    · obtain ⟨T,held⟩ := held
      obtain ⟨held',same⟩ := onward.txn T held
      rw [Db.visible_own held',same,← clean q other,Db.visible_own held]
    · rw [Db.visible_other (onward.relies.txn fun T same => held ⟨T,same⟩)]
  own op choice outcome w v _ housed _ may permitted ran := by
    rintro ⟨opens,clean⟩
    by_cases db : op.kind = .db
    swap
    · have same := exec_db db ran
      exact ⟨same ▸ opens,same ▸ clean⟩
    cases op with
    | fs o => rcases o.kind_cases with kind | kind <;> simp [Op.kind,kind] at db
    | mem o | vm o => cases o <;> cases db
    | s3 o | sys o => cases db
    | db o =>
      obtain ⟨db',acts,rfl⟩ := exec_dbActs ran
      have committed := fun (q : Id) (other : q ≠ pid) => clean q other
      cases acts with
      | fails | read | unchanged | idle => exact ⟨opens,clean⟩
      | @wrote stmt T _ applied =>
        refine ⟨opens,?_⟩
        intro q other
        rw [Db.visible_own rfl]
        have within := ((may.granted opens (by simp)).within stmt rfl).1
        exact (within.slice (housed.orderly.db.visible t).1 applied other).trans (clean q other)
      | refused =>
        refine ⟨opens,?_⟩
        intro q other
        rw [Db.visible_own rfl]
        exact clean q other
      | @committed T held => exact ⟨opens_grows (housed.projects t T held) opens,fun q _ => rfl⟩
      | rolled => exact ⟨opens,fun q _ => rfl⟩

/-- What rows that are added leave true of the committed tables. -/
theorem endures_committed (J : Tables → Prop) (grown : ∀ T T', Grows T T' → J T → J T') :
    Endures P h t always fun w => J w.db.committed where
  relied _ _ _ _ onward holds := grown _ _ onward.relies.committed holds
  own _ _ _ _ _ _ housed _ _ permitted ran holds := grown _ _ (committed_grows housed.orderly permitted ran) holds

theorem endures_ours (pid : Id) (row : Table × Id) : Endures P h t always (Ours pid row) :=
  endures_committed (fun T => T.projectOf row.1 row.2 = some pid) fun _ _ grows of => grows.projectOf of

/-- What a commit of a tenant adds belongs to its project. -/
theorem Acting.committed {op : Op} {choice : Choice} {outcome : Except Exn op.Res} {table : Table} {id q : Id}
    (acting : Acting P h t pid w) (housed : Housed w) (ran : exec P t op choice w = some (outcome,v))
    (of : v.db.committed.projectOf table id = some q) : w.db.committed.projectOf table id = some q ∨ q = pid := by
  by_cases own : q = pid
  · exact .inr own
  refine .inl ?_
  by_cases db : op.kind = .db
  swap
  · exact exec_db db ran ▸ of
  cases op with
  | fs o => rcases o.kind_cases with kind | kind <;> simp [Op.kind,kind] at db
  | mem o | vm o => cases o <;> cases db
  | s3 o | sys o => cases db
  | db o =>
    obtain ⟨db',acts,rfl⟩ := exec_dbActs ran
    cases acts with
    | fails | read | unchanged | idle | wrote | refused | rolled => exact of
    | @committed T held =>
      have same := acting.clean q own
      rw [Db.visible_own held] at same
      exact projectOf_of_slice housed.orderly.db.committed (housed.orderly.db.written t T held).2 same of

theorem endures_mine (tenant : Tenant P h t pid always K) (id : Id) : Endures P h t always fun w => K w ∧ Mine t pid id w where
  relied w v housed housed' onward := by
    rintro ⟨holds,owned,apart⟩
    refine ⟨tenant.endures.relied w v housed housed' onward holds,onward.relies.owner id t owned,?_⟩
    exact fun table q of => apart table q (onward.rows id owned table q of)
  own op choice outcome w v allowed housed housed' may permitted ran := by
    rintro ⟨holds,owned,apart⟩
    refine ⟨tenant.endures.own op choice outcome w v allowed housed housed' may permitted ran holds,exec_owner ran owned,?_⟩
    intro table q of
    rcases (tenant.acting w holds).committed housed ran of with before | own
    · exact apart table q before
    · exact own

theorem endures_handle (g : Option (Table × Id)) (inode : Nat) :
    Endures P h t always fun w => Handle Path.row g inode w.fs where
  relied _ _ _ _ onward handle := onward.handles g inode handle
  own _ _ _ _ _ _ _ _ may _ ran handle := by
    refine (exec_touches ran).handle ?_ handle
    rintro src dst rfl
    exact may.moves

/-- The id that a tenant has just been given. -/
theorem Tenant.mine (tenant : Tenant P h t pid always K) (id : Id) :
    Tenant P h t pid always fun w => K w ∧ Mine t pid id w :=
  ⟨endures_mine tenant id,fun w holds => tenant.acting w holds.1⟩

theorem Tenant.stable (tenant : Tenant P h t pid ok K) : Stable (tenancy P (.http h)) t K := tenant.endures.relied

/-! ## What may be called -/

theorem Mine.reaches {id : Id} (mine : Mine t pid id w) (table : Table) : Reaches t pid w (table,id) :=
  ⟨.inr mine.1,mine.2 table⟩

theorem Ours.reaches {row : Table × Id} (ours : Ours pid row w) (housed : Housed w) : Reaches t pid w row where
  own := .inl ((housed.orderly.db.visible t).2.projectOf ours)
  apart _ of := Option.some.inj (of.symm.trans ours)

/-- A call on the shared chunk store, on the database outside of statements, or on clocks and ids. -/
def Op.isFree : Op → Bool
  | .db .read | .db .rollback => true
  | .fs .makedirs => true
  | .fs (.exists p) | .fs (.openTrunc p) | .fs (.readFile p) | .fs (.remove p) | .fs (.getsize p) => p.row.isNone
  | .s3 _ | .sys .newId | .sys .token | .sys .now | .sys .sleep | .sys .beforeDeadline => true
  | .mem .store | .mem (.update _) | .mem .acquire | .mem .release => true
  | _ => false

theorem granted_free {op : Op} (free : op.isFree = true) : Granted t pid op w := by
  refine ⟨?_,?_,?_,?_⟩
  · intro row names
    cases op with
    | db o => cases o <;> first | exact False.elim names | cases free
    | s3 o => exact False.elim names
    | mem o | sys o => cases o <;> first | exact False.elim names | cases free
    | vm o => cases free
    | fs o =>
      cases o with
      | makedirs =>
        obtain ⟨p,member,_⟩ := names
        cases member
      | «exists» p | openTrunc p | readFile p | remove p | getsize p =>
        obtain ⟨p',member,named⟩ := names
        obtain rfl := List.mem_singleton.mp member
        simp [Op.isFree,named] at free
      | write | replace | copy | makeDisk => cases free
  · rintro stmt rfl
    cases free
  · rintro src dst rfl
    cases free
  · rintro rfl
    cases free

/-- A call on files with these names, apart from renaming and from what goes through a handle. -/
theorem granted_files {o : FsOp} (moves : ∀ src dst, o = .replace src dst → src.row = dst.row)
    (other : ∀ inode offset bytes, o ≠ .write inode offset bytes)
    (reaches : ∀ p ∈ o.paths, ∀ row, p.row = some row → Reaches t pid w row) : Granted t pid (.fs o) w where
  rows row names := by
    cases o with
    | write inode offset bytes => exact absurd rfl (other _ _ _)
    | «exists» | makedirs | openTrunc | readFile | remove | replace | copy | getsize | makeDisk =>
      obtain ⟨p,member,named⟩ := names
      exact reaches p member row named
  within _ same := by cases same
  moves src dst same := moves src dst (Op.fs.inj same)
  commits same := by cases same

theorem granted_write {g : Option (Table × Id)} {inode offset : Nat} {bytes : Bytes} (handle : Handle Path.row g inode w.fs)
    (reaches : ∀ row, g = some row → Reaches t pid w row) : Granted t pid (.fs (.write inode offset bytes)) w where
  rows row names := by
    obtain ⟨p,named,of⟩ := names
    exact reaches row ((handle.names p named).symm.trans of)
  within _ same := by cases same
  moves _ _ same := by cases same
  commits same := by cases same

/-- A look-up in a layer that the thread may read. -/
theorem granted_looks {sid : Id} {op : Op} (looks : Mounts.Looks sid op) (reaches : Reaches t pid w (.snapshots,sid)) :
    Granted t pid op w := by
  obtain ⟨o,rfl⟩ := looks.sys
  cases o with
  | newId | token | now | sleep | beforeDeadline => exact looks.elim
  | isDir | follow =>
    obtain rfl := looks
    refine ⟨?_,fun _ same => ?_,fun _ _ same => ?_,fun same => ?_⟩
    · rintro row rfl
      exact reaches
    · cases same
    · cases same
    · cases same

theorem granted_vm {o : VmOp} (target : Reaches t pid w (.instances,o.target))
    (reaches : ∀ p ∈ o.paths, ∀ row, p.row = some row → Reaches t pid w row) : Granted t pid (.vm o) w where
  rows row names := by
    rcases names with rfl | ⟨p,member,named⟩
    · exact target
    · exact reaches p member row named
  within _ same := by cases same
  moves _ _ same := by cases same
  commits same := by cases same

theorem granted_execute {stmt : Stmt} (rows : ∀ row ∈ stmt.names, Reaches t pid w row)
    (within : stmt.Within (w.db.visible t) pid) (fresh : ∀ row, stmt.adds = some row → w.owner row.2 = some t)
    (filed : ∀ row, stmt = .insertSnapshot row → row.Filed) : Granted t pid (.db (.execute stmt)) w where
  rows := rows
  within := by
    rintro _ ⟨⟩
    exact ⟨within,fresh,filed⟩
  moves _ _ same := by cases same
  commits same := by cases same

/-- A call that is granted keeps what the tenant knows. -/
theorem Tenant.acts {op : Op} (tenant : Tenant P h t pid ok K) (allowed : ok op)
    (granted : ∀ w, Housed w → K w → Permitted t op w → Granted t pid op w) {X : Except Exn op.Res → World → Prop}
    (post : ∀ choice outcome w v, Housed w → K w → exec P t op choice w = some (outcome,v) → X outcome v) :
    Acts (tenancy P (.http h)) t K op fun outcome w => K w ∧ X outcome w where
  keeps := by
    rintro w outcome v housed holds ⟨⟨choice,ran⟩,permitted⟩
    have may : May P t (.http h) op w := .inr ⟨pid,(tenant.acting w holds).opens,granted w housed holds permitted⟩
    have housed' := housed.exec may permitted ran
    refine ⟨housed',⟨may,choice,outcome,ran⟩,?_,post choice outcome w v housed holds ran⟩
    exact tenant.endures.own op choice outcome w v allowed housed housed' may permitted ran holds

theorem Tenant.keeps {op : Op} (tenant : Tenant P h t pid ok K) (allowed : ok op)
    (granted : ∀ w, Housed w → K w → Permitted t op w → Granted t pid op w) :
    Acts (tenancy P (.http h)) t K op fun _ => K := by
  have acts := tenant.acts allowed granted (X := fun _ _ => True) fun _ _ _ _ _ _ _ => trivial
  refine ⟨?_⟩
  intro w outcome v housed holds step
  obtain ⟨housed',guaranteed,holds',_⟩ := acts.keeps w outcome v housed holds step
  exact ⟨housed',guaranteed,holds'⟩

theorem Tenant.call {op : Op} (tenant : Tenant P h t pid ok K) (allowed : ok op)
    (granted : ∀ w, Housed w → K w → Permitted t op w → Granted t pid op w) :
    Stays (tenancy P (.http h)) t K (Prog.perform (S := sig) op) :=
  Triple.perform tenant.stable (tenant.keeps allowed granted) fun _ => tenant.stable

/-- A call that is granted, with what its result says for good. -/
theorem Tenant.learns (tenant : Tenant P h t pid ok K) (op : Op) {X : op.Res → World → Prop} (allowed : ok op)
    (granted : ∀ w, Housed w → K w → Permitted t op w → Granted t pid op w)
    (stable : ∀ r, Stable (tenancy P (.http h)) t fun w => K w ∧ X r w)
    (post : ∀ choice r w v, Housed w → K w → exec P t op choice w = some (.ok r,v) → X r v) :
    Learns (tenancy P (.http h)) t K (Prog.perform (S := sig) op) X := by
  refine Triple.perform tenant.stable (tenant.acts allowed granted ?_) ?_
  · intro choice outcome w v housed holds ran
    cases outcome with
    | ok r => exact post choice r w v housed holds ran
    | error e => trivial
  · intro outcome
    cases outcome with
    | ok r => exact stable r
    | error e => exact fun w v housed housed' onward ⟨holds,_⟩ => ⟨tenant.stable w v housed housed' onward holds,trivial⟩

theorem Tenant.free {program : KProg α} (tenant : Tenant P h t pid always K)
    (only : program.Only fun op : Op => op.isFree = true) : Stays (tenancy P (.http h)) t K program :=
  Stays.only tenant.stable (fun _ free => tenant.keeps trivial fun _ _ _ _ => granted_free free) only

end
end Klados
