import Klados.Moves
import Klados.Tables

/-!
What the requests of the daemon may do while any number of them run interleaved. `Permitted`
says it call by call: statements name rows that the thread has seen, new rows and new
processes carry ids of the thread's own, FORKED goes only to an own instance that is not yet
in the tables, and QUIESCE and snapshots go only to instances that are in the tables and
whose processes are started. `Orderly` is the invariant that these permissions keep, and
`protocol_sound` says that every request stays within its permissions, however calls fail.
-/
namespace Klados
open Effects
open Prog (Only)

variable {P : Platform}

/-- The instance is in the committed tables and its process is started. -/
def World.Published (w : World) (iid : Id) : Prop := w.db.committed.HasInstance iid ∧ w.hyp.Started iid

/-- What a thread may call. -/
def Permitted (t : Nat) : Op → World → Prop
  | .db (.execute stmt), w =>
    stmt.Fits (w.db.visible t) ∧ ∀ row, stmt = .insertInstance row → w.owner row.id = some t
  | .mem (.liveSet iid), w => w.hyp.Started iid
  | .vm (.spawn iid), w => w.owner iid = some t ∧ w.hyp.vm iid = none
  | .vm (.create iid _ _), w => w.Published iid
  | .vm (.connect iid line), w =>
    (line.hasType "FORKED" → w.owner iid = some t ∧ ¬ w.db.committed.HasInstance iid) ∧
      (line.hasType "QUIESCE" → w.Published iid)
  | _, _ => True

/-- The invariant. The instances that an open transaction adds are its thread's own. -/
structure Orderly (w : World) : Prop where
  db : w.db.Sound
  added : ∀ t T, w.db.txn = some (t,T) → ∀ iid, T.HasInstance iid →
    w.db.committed.HasInstance iid ∨ w.owner iid = some t
  rows : ∀ iid, w.db.committed.HasInstance iid → (w.owner iid).isSome
  known : ∀ iid, w.hyp.vm iid ≠ none → (w.owner iid).isSome
  live : ∀ iid ∈ w.mem.live, w.hyp.Started iid

/-- What thread `t` relies on: rows stay, ids keep their owners, started processes stay
    started, and nobody else adds rows, processes or transactions of its own. -/
structure Relies (t : Nat) (w v : World) : Prop where
  visible : Grows (w.db.visible t) (v.db.visible t)
  committed : Grows w.db.committed v.db.committed
  owner : ∀ id t', w.owner id = some t' → v.owner id = some t'
  started : ∀ iid, w.hyp.Started iid → v.hyp.Started iid
  rows : ∀ iid, w.owner iid = some t → (v.db.visible t).HasInstance iid → (w.db.visible t).HasInstance iid
  processes : ∀ iid, w.owner iid = some t → w.hyp.vm iid = none → v.hyp.vm iid = none
  txn : (∀ T, w.db.txn ≠ some (t,T)) → ∀ T, v.db.txn ≠ some (t,T)

def protocol (P : Platform) : Rules sig Exn World where
  step t op w outcome v := ∃ choice, exec P t op choice w = some (outcome,v)
  inv := Orderly
  rely := Relies
  guar t op w v := Permitted t op w ∧ ∃ choice outcome, exec P t op choice w = some (outcome,v)

theorem Relies.refl (t : Nat) (w : World) : Relies t w w :=
  ⟨Grows.refl _,Grows.refl _,fun _ _ => id,fun _ => id,fun _ _ => id,fun _ _ => id,id⟩

theorem Relies.trans {t : Nat} {u v w : World} (first : Relies t u v) (second : Relies t v w) : Relies t u w where
  visible := first.visible.trans second.visible
  committed := first.committed.trans second.committed
  owner id t' owned := second.owner id t' (first.owner id t' owned)
  started iid started := second.started iid (first.started iid started)
  rows iid owned has := first.rows iid owned (second.rows iid (first.owner iid t owned) has)
  processes iid owned absent := second.processes iid (first.owner iid t owned) (first.processes iid owned absent)
  txn none := second.txn (first.txn none)

theorem protocol_lawful : (protocol P).Lawful := ⟨Relies.refl,fun _ => Relies.trans⟩

section
variable {t : Nat} {op : Op} {choice : Choice} {w v : World} {outcome : Except Exn op.Res}

/-- A call on the database, as seen from the rest of the world. -/
theorem exec_dbActs {o : DbOp} {outcome : Except Exn o.Res} (ran : exec P t (.db o) choice w = some (outcome,v)) :
    ∃ db, w.db.Acts t o outcome db ∧ v = { w with db } := by
  obtain ⟨⟨result,db⟩,executed,same⟩ := Option.map_eq_some_iff.mp ran
  cases same
  exact ⟨db,Db.acts executed,rfl⟩

theorem exec_vmActs {o : VmOp} {outcome : Except Exn o.Res} (ran : exec P t (.vm o) choice w = some (outcome,v)) :
    ∃ fs hyp, o.Acts w.fs w.hyp outcome fs hyp ∧ v = { w with fs, hyp } := by
  obtain ⟨fs,hyp,executed,same⟩ := exec_vm ran
  exact ⟨fs,hyp,VmOp.acts executed,same⟩

/-- A rollback does not raise. -/
theorem rollback_returns {error : Exn} : exec P t (.db .rollback) choice w ≠ some (.error error,v) := by
  intro ran
  obtain ⟨⟨result,db⟩,executed,same⟩ := Option.map_eq_some_iff.mp ran
  cases choice <;> cases executed
  cases same

theorem started_exec (permitted : Permitted t op w) (ran : exec P t op choice w = some (outcome,v)) {iid : Id}
    (started : w.hyp.Started iid) : v.hyp.Started iid := by
  cases op with
  | vm o =>
    obtain ⟨fs,hyp,acts,rfl⟩ := exec_vmActs ran
    refine VmOp.acts_started acts started ?_
    rintro rfl
    exact permitted.2
  | mem o =>
    obtain ⟨_,_,same⟩ := Option.map_eq_some_iff.mp ran
    cases same
    exact started
  | db o | fs o | s3 o | sys o =>
    have same := exec_hyp rfl ran
    exact same ▸ started

theorem absent_exec (ran : exec P t op choice w = some (outcome,v)) {iid : Id} (absent : w.hyp.vm iid = none)
    (notSpawned : op ≠ .vm (.spawn iid)) : v.hyp.vm iid = none := by
  cases op with
  | vm o =>
    obtain ⟨fs,hyp,acts,rfl⟩ := exec_vmActs ran
    exact VmOp.acts_none acts absent fun same => notSpawned (congrArg Op.vm same)
  | mem o =>
    obtain ⟨_,_,same⟩ := Option.map_eq_some_iff.mp ran
    cases same
    exact absent
  | db o | fs o | s3 o | sys o =>
    have same := exec_hyp rfl ran
    exact same ▸ absent

/-- The instances that a thread sees have owners. -/
theorem Orderly.visible_owner (orderly : Orderly w) (t : Nat) {iid : Id} (has : (w.db.visible t).HasInstance iid) :
    (w.owner iid).isSome := by
  by_cases held : ∃ T, w.db.txn = some (t,T)
  · obtain ⟨T,held⟩ := held
    rw [Db.visible_own held] at has
    rcases orderly.added t T held iid has with old | own
    · exact orderly.rows iid old
    · simp [own]
  · rw [Db.visible_other fun T same => held ⟨T,same⟩] at has
    exact orderly.rows iid has

theorem owner_mono (ran : exec P t op choice w = some (outcome,v)) {id : Id} (owned : (w.owner id).isSome) :
    (v.owner id).isSome := by
  obtain ⟨t',owner⟩ := Option.isSome_iff_exists.mp owned
  exact Option.isSome_iff_exists.mpr ⟨t',exec_owner ran owner⟩

/-- Permitted calls keep the invariant. -/
theorem Orderly.exec (orderly : Orderly w) (permitted : Permitted t op w)
    (ran : exec P t op choice w = some (outcome,v)) : Orderly v := by
  have known : ∀ iid, v.hyp.vm iid ≠ none → (v.owner iid).isSome := by
    intro iid there
    by_cases spawned : op = .vm (.spawn iid)
    · subst spawned
      exact owner_mono ran (by simp [permitted.1])
    · exact owner_mono ran (orderly.known iid fun absent => there (absent_exec ran absent spawned))
  have live : ∀ iid ∈ v.mem.live, v.hyp.Started iid := by
    intro iid member
    rcases exec_live ran member with before | rfl
    · exact started_exec permitted ran (orderly.live iid before)
    · exact started_exec permitted ran permitted
  by_cases db : op.kind = .db
  · cases op with
    | db o =>
      obtain ⟨db',acts,rfl⟩ := exec_dbActs ran
      have fits : ∀ stmt, o = .execute stmt → stmt.Fits (w.db.visible t) := by
        rintro stmt rfl
        exact permitted.1
      have old : ∀ iid, (w.db.visible t).HasInstance iid → w.db.committed.HasInstance iid ∨ w.owner iid = some t := by
        intro iid has
        by_cases held : ∃ T, w.db.txn = some (t,T)
        · obtain ⟨T,held⟩ := held
          rw [Db.visible_own held] at has
          exact orderly.added t T held iid has
        · rw [Db.visible_other fun T same => held ⟨T,same⟩] at has
          exact .inl has
      refine ⟨(acts.sound orderly.db fits).1,?_,?_,known,live⟩
      · cases acts with
        | fails | read | unchanged | idle => exact orderly.added
        | @wrote stmt T _ applied =>
          rintro t' T' ⟨⟩ iid has
          rcases Stmt.apply_hasInstance applied has with before | ⟨row,inserted,named⟩
          · exact old iid before
          · exact .inr (named ▸ permitted.2 row inserted)
        | refused =>
          rintro t' T' ⟨⟩ iid has
          exact old iid has
        | committed | rolled => rintro t' T' ⟨⟩
      · cases acts with
        | fails | read | unchanged | idle | wrote | refused | rolled => exact orderly.rows
        | committed held =>
          intro iid has
          rcases orderly.added t _ held iid has with before | own
          · exact orderly.rows iid before
          · exact Option.isSome_iff_exists.mpr ⟨t,own⟩
    | mem o | vm o => cases o <;> cases db
    | fs o => rcases o.kind_cases with kind | kind <;> simp [Op.kind,kind] at db
    | s3 o | sys o => cases db
  · have same := exec_db db ran
    refine ⟨same ▸ orderly.db,?_,?_,known,live⟩
    · intro t' T held iid has
      rw [same] at held ⊢
      exact (orderly.added t' T held iid has).imp id (exec_owner ran)
    · intro iid has
      exact owner_mono ran (orderly.rows iid (same ▸ has))

/-- What one thread does within its permissions, the others may rely on. -/
theorem Orderly.relies (orderly : Orderly w) (permitted : Permitted t op w)
    (ran : Klados.exec P t op choice w = some (outcome,v)) {t' : Nat} (other : t' ≠ t) : Relies t' w v := by
  have owner : ∀ id t'', w.owner id = some t'' → v.owner id = some t'' := fun _ _ => exec_owner ran
  have started : ∀ iid, w.hyp.Started iid → v.hyp.Started iid := fun _ => started_exec permitted ran
  have processes : ∀ iid, w.owner iid = some t' → w.hyp.vm iid = none → v.hyp.vm iid = none := by
    intro iid owned absent
    refine absent_exec ran absent ?_
    rintro rfl
    have own := permitted.1
    rw [owned] at own
    exact other (Option.some.inj own)
  by_cases db : op.kind = .db
  · cases op with
    | db o =>
      obtain ⟨db',acts,rfl⟩ := exec_dbActs ran
      have grown : Grows w.db.committed db'.committed := by
        refine (acts.sound orderly.db ?_).2
        rintro stmt rfl
        exact permitted.1
      rcases acts.visible_other other with same | ⟨rfl,held,before,after⟩
      · refine ⟨?_,grown,owner,started,?_,processes,acts.txn_other other⟩
        · simp only [same]
          exact Grows.refl _
        · intro iid _ has
          exact same ▸ has
      · refine ⟨?_,grown,owner,started,?_,processes,acts.txn_other other⟩
        · simp only [before,after]
          exact grown
        · intro iid owned has
          simp only [before,after] at has ⊢
          -- what `t` commits are its own instances
          rcases orderly.added t _ held iid has with old | own
          · exact old
          · exact absurd (Option.some.inj (owned.symm.trans own)) other
    | mem o | vm o => cases o <;> cases db
    | fs o => rcases o.kind_cases with kind | kind <;> simp [Op.kind,kind] at db
    | s3 o | sys o => cases db
  · have same := exec_db db ran
    refine ⟨?_,?_,owner,started,?_,processes,?_⟩
    · rw [same]
      exact Grows.refl _
    · rw [same]
      exact Grows.refl _
    · intro iid _ has
      exact same ▸ has
    · intro none
      exact same ▸ none

end

theorem Orderly.move {w v : World} {move : Move} (orderly : Orderly w) (moved : w.Moved P move v) : Orderly v where
  db := moved.db ▸ orderly.db
  added t T held iid has := by
    rw [moved.db] at held ⊢
    exact (orderly.added t T held iid has).imp id fun own => by simpa only [World.owner,moved.used] using own
  rows iid has := by
    simpa only [World.owner,moved.used] using orderly.rows iid (moved.db ▸ has)
  known iid there := by
    simpa only [World.owner,moved.used] using orderly.known iid fun absent => there (moved.none absent)
  live iid member := moved.started (orderly.live iid (moved.mem ▸ member))

theorem relies_move {w v : World} {move : Move} (moved : w.Moved P move v) (t : Nat) : Relies t w v where
  visible := moved.db ▸ Grows.refl _
  committed := moved.db ▸ Grows.refl _
  owner id t' owned := by simpa only [World.owner,moved.used] using owned
  started _ := moved.started
  rows iid _ has := moved.db ▸ has
  processes _ _ := moved.none
  txn none := moved.db ▸ none

theorem Orderly.reboot {w : World} (orderly : Orderly w) : Orderly w.reboot where
  db := ⟨orderly.db.committed,by rintro _ _ ⟨⟩⟩
  added := by rintro _ _ ⟨⟩
  rows := orderly.rows
  known := orderly.known
  live _ member := by cases member

variable {t : Nat} {F : Tables → Prop} {B : World → Prop} {except : List Kind} {α β : Type}

/-- An assertion about tables that more rows cannot falsify. -/
def Lasting (F : Tables → Prop) : Prop := ∀ T T', Grows T T' → F T → F T'

/-- An assertion that the other threads keep, and so do the thread's own permitted calls of
    the other kinds. -/
structure Solid (P : Platform) (t : Nat) (except : List Kind) (B : World → Prop) : Prop where
  stable : ∀ w v, Orderly w → Relies t w v → B w → B v
  own : ∀ op choice outcome w v, op.kind ∉ except → Orderly w → Permitted t op w →
    exec P t op choice w = some (outcome,v) → B w → B v

/-- What thread `t` sees in the tables, and what it knows of the rest. -/
def Knows (t : Nat) (F : Tables → Prop) (B : World → Prop) (w : World) : Prop := F (w.db.visible t) ∧ B w

theorem solid_true : Solid P t [] fun _ => True := ⟨fun _ _ _ _ => id,fun _ _ _ _ _ _ _ _ _ => id⟩

theorem Solid.and {B' : World → Prop} (first : Solid P t except B) (second : Solid P t except B') :
    Solid P t except fun w => B w ∧ B' w where
  stable w v orderly relies := And.imp (first.stable w v orderly relies) (second.stable w v orderly relies)
  own op choice outcome w v apart orderly permitted ran :=
    And.imp (first.own op choice outcome w v apart orderly permitted ran)
      (second.own op choice outcome w v apart orderly permitted ran)

theorem Solid.mono {more : List Kind} (solid : Solid P t except B) (within : except ⊆ more) : Solid P t more B where
  stable := solid.stable
  own op choice outcome w v apart := solid.own op choice outcome w v fun inside => apart (within inside)

theorem solid_started (iid : Id) : Solid P t [] fun w => w.hyp.Started iid where
  stable _ _ _ relies := relies.started iid
  own _ _ _ _ _ _ _ permitted ran := started_exec permitted ran

/-- The instance is the thread's own and its process is not yet there. -/
def Unspawned (t : Nat) (iid : Id) (w : World) : Prop := w.owner iid = some t ∧ w.hyp.vm iid = none

/-- The instance is the thread's own and not yet in the tables. -/
def Unrecorded (t : Nat) (iid : Id) (w : World) : Prop :=
  w.owner iid = some t ∧ ¬ (w.db.visible t).HasInstance iid

/-- The tables that were read are committed. -/
def Shows (T : Tables) (w : World) : Prop := ∀ iid, T.HasInstance iid → w.db.committed.HasInstance iid

theorem solid_unspawned (iid : Id) : Solid P t [.vm] (Unspawned t iid) where
  stable _ _ _ relies := fun ⟨owned,absent⟩ => ⟨relies.owner iid t owned,relies.processes iid owned absent⟩
  own op _ _ _ _ apart _ _ ran := fun ⟨owned,absent⟩ =>
    ⟨exec_owner ran owned,absent_exec ran absent fun same => apart (by simp [same,Op.kind,VmOp.kind])⟩

theorem solid_unrecorded (iid : Id) : Solid P t [.db] (Unrecorded t iid) where
  stable _ _ _ relies := fun ⟨owned,absent⟩ =>
    ⟨relies.owner iid t owned,fun has => absent (relies.rows iid owned has)⟩
  own op _ _ w v apart _ _ ran := fun ⟨owned,absent⟩ => by
    have same := exec_db (by simpa using apart) ran
    exact ⟨exec_owner ran owned,same ▸ absent⟩

theorem committed_grows {op : Op} {choice : Choice} {outcome : Except Exn op.Res} {w v : World} (orderly : Orderly w)
    (permitted : Permitted t op w) (ran : exec P t op choice w = some (outcome,v)) :
    Grows w.db.committed v.db.committed :=
  (orderly.relies permitted ran (Nat.ne_of_gt (Nat.lt_succ_self t))).committed

theorem solid_shows (T : Tables) : Solid P t [] (Shows T) where
  stable _ _ _ relies := fun shows_ iid has => relies.committed.hasInstance (shows_ iid has)
  own _ _ _ _ _ _ orderly permitted ran := fun shows_ iid has =>
    (committed_grows orderly permitted ran).hasInstance (shows_ iid has)

theorem stable_knows (lasting : Lasting F) (solid : Solid P t except B) :
    Stable (protocol P) t (Knows t F B) :=
  fun w v orderly _ relies ⟨sees,knows⟩ => ⟨lasting _ _ relies.visible sees,solid.stable w v orderly relies knows⟩

theorem stable_true : Stable (protocol P) t (fun _ => True) := fun _ _ _ _ _ _ => trivial

theorem stable_ends {F : α → Tables → Prop} {B : α → World → Prop} (lasting : ∀ value, Lasting (F value))
    (solid : ∀ value, Solid P t except (B value)) (outcome : Except Exn α) :
    Stable (protocol P) t (Ends (fun value => Knows t (F value) (B value)) outcome) := by
  cases outcome with
  | ok value => exact stable_knows (lasting value) (solid value)
  | error error => exact stable_true

/-- A permitted call keeps the invariant; what remains is its postcondition. -/
theorem protocol_acts {pre : World → Prop} {op : Op} {Q : Except Exn op.Res → World → Prop}
    (permitted : ∀ w, Orderly w → pre w → Permitted t op w)
    (post : ∀ choice outcome w v, Orderly w → pre w → exec P t op choice w = some (outcome,v) → Q outcome v) :
    Acts (protocol P) t pre op Q where
  keeps := by
    rintro w outcome v orderly holds ⟨choice,ran⟩
    have may := permitted w orderly holds
    exact ⟨orderly.exec may ran,⟨may,choice,outcome,ran⟩,post choice outcome w v orderly holds ran⟩

/-- An operation outside the database that is permitted in every state. -/
structure Harmless (op : Op) : Prop where
  db : op.kind ≠ .db
  permitted : ∀ t w, Permitted t op w

theorem acts_harmless {op : Op} (harmless : Harmless op) (solid : Solid P t except B) (apart : op.kind ∉ except) :
    Acts (protocol P) t (Knows t F B) op (fun _ => Knows t F B) := by
  refine protocol_acts (fun w _ _ => harmless.permitted t w) ?_
  intro choice outcome w v orderly ⟨sees,knows⟩ ran
  have same := exec_db harmless.db ran
  refine ⟨?_,solid.own op choice outcome w v apart orderly (harmless.permitted t w) ran knows⟩
  rw [same]
  exact sees

theorem acts_read (solid : Solid P t except B) (apart : .db ∉ except) :
    Acts (protocol P) t (Knows t F B) (.db .read)
      (Ends fun T w => Sane T ∧ F T ∧ T = w.db.visible t ∧ Knows t (Grows T) B w) := by
  refine protocol_acts (fun _ _ _ => trivial) ?_
  intro choice outcome w v orderly ⟨sees,knows⟩ ran
  have kept := solid.own _ choice outcome w v apart orderly trivial ran knows
  obtain ⟨db,acts,rfl⟩ := exec_dbActs ran
  cases acts with
  | fails => trivial
  | read => exact ⟨(orderly.db.visible t).1,sees,rfl,Grows.refl _,kept⟩

/-- What a thread sees after a statement. -/
def After (F : Tables → Prop) (stmt : Stmt) (T : Tables) : Prop :=
  ∃ before after, Sane before ∧ F before ∧ stmt.apply before = .ok after ∧ Grows after T

theorem lasting_after {stmt : Stmt} : Lasting (After F stmt) := by
  rintro T T' grows ⟨before,after,sane,holds,applied,grown⟩
  exact ⟨before,after,sane,holds,applied,grown.trans grows⟩

theorem acts_execute {stmt : Stmt} {B' : World → Prop}
    (permitted : ∀ w, Orderly w → Knows t F B w → Permitted t (.db (.execute stmt)) w)
    (solid : Solid P t except B') (apart : .db ∉ except) (implies : ∀ w, B w → B' w) :
    Acts (protocol P) t (Knows t F B) (.db (.execute stmt)) (Ends fun _ => Knows t (After F stmt) B') := by
  refine protocol_acts permitted ?_
  intro choice outcome w v orderly ⟨sees,knows⟩ ran
  have kept := solid.own _ choice outcome w v apart orderly (permitted w orderly ⟨sees,knows⟩) ran (implies w knows)
  obtain ⟨db,acts,rfl⟩ := exec_dbActs ran
  cases acts with
  | fails | refused => trivial
  | @wrote _ T _ applied =>
    refine ⟨⟨_,T,(orderly.db.visible t).1,sees,applied,?_⟩,kept⟩
    rw [Db.visible_own rfl]
    exact Grows.refl T

theorem acts_commit (solid : Solid P t except B) (apart : .db ∉ except) :
    Acts (protocol P) t (Knows t F B) (.db .commit) (Ends fun _ => Knows t F B) := by
  refine protocol_acts (fun _ _ _ => trivial) ?_
  intro choice outcome w v orderly ⟨sees,knows⟩ ran
  have kept := solid.own _ choice outcome w v apart orderly trivial ran knows
  obtain ⟨db,acts,rfl⟩ := exec_dbActs ran
  cases acts with
  | fails => trivial
  | committed held =>
    rw [Db.visible_own held] at sees
    exact ⟨sees,kept⟩
  | unchanged => exact ⟨sees,kept⟩

/-- The program makes harmless calls of the other kinds only. -/
abbrev Quietly (except : List Kind) (program : KProg α) : Prop :=
  program.Only fun op : Op => Harmless op ∧ op.kind ∉ except

theorem Uses.quietly {kinds : List Kind} {program : KProg α} (uses : Uses kinds program)
    (safe : ∀ kind ∈ kinds, kind ∈ ([.fs,.disk,.s3,.store,.sys] : List Kind)) (apart : ∀ kind ∈ kinds, kind ∉ except) :
    Quietly except program := by
  refine Only.mono ?_ uses
  intro op listed
  refine ⟨?_,apart op.kind listed⟩
  have kind := safe op.kind listed
  cases op with
  | fs o => rcases o.kind_cases with own | own <;> exact ⟨by simp [Op.kind,own],fun _ _ => trivial⟩
  | s3 o | sys o => exact ⟨by simp [Op.kind],fun _ _ => trivial⟩
  | db o => simp [Op.kind] at kind
  | mem o => cases o <;> first | exact ⟨by simp [Op.kind,MemOp.kind],fun _ _ => trivial⟩ | simp [Op.kind,MemOp.kind] at kind
  | vm o => cases o <;> simp [Op.kind,VmOp.kind] at kind

theorem quietly_fs {o : FsOp} (own : o.kind = .fs) (apart : .fs ∉ except) : Quietly except (fsCall o) :=
  Only.perform ⟨⟨by simp [Op.kind,own],fun _ _ => trivial⟩,by simpa [Op.kind,own] using apart⟩

theorem quietly_sys (apart : .sys ∉ except) (o : SysOp) : Quietly except (sysCall o) :=
  Only.perform ⟨⟨by simp [Op.kind],fun _ _ => trivial⟩,apart⟩

theorem quietly_vm {o : VmOp} (harmless : Harmless (.vm o)) (apart : o.kind ∉ except) : Quietly except (vmCall o) :=
  Only.perform ⟨harmless,apart⟩

theorem harmless_pause (iid : Id) : Harmless (.vm (.pause iid)) := ⟨by simp [Op.kind,VmOp.kind],fun _ _ => trivial⟩
theorem harmless_resume (iid : Id) : Harmless (.vm (.resume iid)) := ⟨by simp [Op.kind,VmOp.kind],fun _ _ => trivial⟩
theorem harmless_kill (iid : Id) : Harmless (.vm (.kill iid)) := ⟨by simp [Op.kind,VmOp.kind],fun _ _ => trivial⟩
theorem harmless_receive (iid : Id) (conn : Nat) : Harmless (.vm (.receive iid conn)) :=
  ⟨by simp [Op.kind,VmOp.kind],fun _ _ => trivial⟩

/-- A message other than FORKED and QUIESCE may always be sent. -/
theorem harmless_connect (iid : Id) {line : Agent.Line} (notForked : line.hasType "FORKED" = false)
    (notQuiesce : line.hasType "QUIESCE" = false) : Harmless (.vm (.connect iid line)) :=
  ⟨by simp [Op.kind,VmOp.kind],fun _ _ => ⟨by simp [notForked],by simp [notQuiesce]⟩⟩

theorem quietly_wait_agent (iid : Id) (agent : .agent ∉ except) (sys : .sys ∉ except) (polls : Nat) :
    Quietly except (wait_agent iid polls) := by
  induction polls with
  | zero => trivial
  | succ polls ih =>
    refine Only.bind (quietly_sys sys _) fun early => ?_
    split
    · trivial
    · refine Only.bind (Only.catching ?_ fun _ => trivial) fun pong => ?_
      · refine Only.bind (Only.bind ?_ fun _ => quietly_vm (harmless_receive _ _) agent) fun r => ?_
        · exact quietly_vm (harmless_connect iid rfl rfl) agent
        · exact Only.bind ((uses_status r : Uses [] _).quietly (by simp) (by simp)) fun _ => trivial
      · split
        · trivial
        · exact Only.bind (quietly_sys sys _) fun _ => ih

theorem bind_triple {pre : World → Prop} {program : KProg α} {rest : α → KProg β} {M : α → World → Prop}
    {Q : β → World → Prop} (first : Triple (protocol P) t pre program (Ends M))
    (onward : ∀ value, Triple (protocol P) t (M value) (rest value) (Ends Q)) :
    Triple (protocol P) t pre (program >>= rest) (Ends Q) :=
  Triple.seq protocol_lawful first onward

theorem quiet_triple (lasting : Lasting F) (solid : Solid P t except B) {program : KProg α}
    (quiet : Quietly except program) : Triple (protocol P) t (Knows t F B) program (fun _ => Knows t F B) :=
  Triple.only (stable_knows lasting solid) (fun _ call => acts_harmless call.1 solid call.2) quiet

/-- A part of a program that makes harmless calls only keeps what the thread knows. -/
theorem quiet_bind (lasting : Lasting F) (solid : Solid P t except B) {program : KProg α}
    (quiet : Quietly except program) {rest : α → KProg β} {Q : β → World → Prop}
    (onward : ∀ value, Triple (protocol P) t (Knows t F B) (rest value) (Ends Q)) :
    Triple (protocol P) t (Knows t F B) (program >>= rest) (Ends Q) :=
  Triple.bind protocol_lawful (quiet_triple lasting solid quiet) onward fun _ _ _ _ => trivial

/-- A call whose postcondition is about its normal end. -/
theorem call_triple {op : Op} {G : op.Res → Tables → Prop} {C : op.Res → World → Prop} (lasting : Lasting F)
    (solid : Solid P t except B) (acts : Acts (protocol P) t (Knows t F B) op (Ends fun r => Knows t (G r) (C r)))
    {more : List Kind} (lasting' : ∀ r, Lasting (G r)) (solid' : ∀ r, Solid P t more (C r)) :
    Triple (protocol P) t (Knows t F B) (Prog.perform (S := sig) op) (Ends fun r => Knows t (G r) (C r)) :=
  Triple.perform (stable_knows lasting solid) acts (stable_ends lasting' solid')

theorem done_triple (lasting : Lasting F) (solid : Solid P t except B) (value : α) :
    Triple (protocol P) t (Knows t F B) (pure value) (Ends fun _ => Knows t F B) :=
  Triple.ret (stable_knows lasting solid) fun _ _ holds => holds

theorem raise_triple (lasting : Lasting F) (solid : Solid P t except B) (error : Exn) {Q : α → World → Prop} :
    Triple (protocol P) t (Knows t F B) (Prog.raise error) (Ends Q) :=
  Triple.raise (stable_knows lasting solid) fun _ _ _ => trivial

/-- Whatever is raised inside, the connection ends with a rollback. -/
theorem connection_triple {pre : World → Prop} {body : KProg α} {Q : α → World → Prop}
    (inside : Triple (protocol P) t pre body (Ends Q)) : Triple (protocol P) t pre (connection body) (Ends Q) := by
  refine Triple.catching protocol_lawful inside (fun _ _ _ holds => holds) ?_
  intro error
  refine Triple.bind protocol_lawful (M := fun _ _ => True) ?_ ?_ (fun _ _ _ _ => trivial)
  · exact Triple.perform stable_true (protocol_acts (fun _ _ _ => trivial) fun _ _ _ _ _ _ _ => trivial)
      fun _ => stable_true
  · exact fun _ => Triple.raise stable_true fun _ _ _ => trivial

/-- Nothing is known any more. -/
theorem forget_triple {program : KProg α} {pre : World → Prop} {Q : α → World → Prop}
    (triple : Triple (protocol P) t pre program (Ends Q)) :
    Triple (protocol P) t pre program (Ends fun _ => Knows t (fun _ => True) fun _ => True) :=
  triple.consequence (fun _ _ holds => holds) fun outcome _ _ _ => by
    cases outcome
    · trivial
    · exact ⟨trivial,trivial⟩

/-! ## The requests -/

/-- A fresh id belongs to the thread, and nothing has that id yet. -/
theorem newId_triple (lasting : Lasting F) (solid : Solid P t except B) (apart : .sys ∉ except) :
    Triple (protocol P) t (Knows t F B) (sysCall .newId)
      (Ends fun id => Knows t F fun w => B w ∧ Unrecorded t id w ∧ Unspawned t id w) := by
  refine call_triple lasting solid ?_ (fun _ => lasting) fun id => ((solid.mono ?_).and
    (((solid_unrecorded id).mono ?_).and ((solid_unspawned id).mono ?_)) : Solid P t (except ++ [.db,.vm]) _)
  · refine protocol_acts (fun _ _ _ => trivial) ?_
    intro choice outcome w v orderly ⟨sees,knows⟩ ran
    have kept := solid.own _ choice outcome w v apart orderly trivial ran knows
    obtain ⟨id,rfl,fresh,rfl⟩ := exec_newId ran
    have mine : ({ w with used := (id,t) :: w.used } : World).owner id = some t := by simp [World.owner]
    refine ⟨sees,kept,⟨mine,?_⟩,⟨mine,?_⟩⟩
    · intro has
      have owned := orderly.visible_owner t has
      simp [fresh] at owned
    · by_contra there
      have owned := orderly.known id there
      simp [fresh] at owned
  · simp
  · simp
  · simp

/-- Booting a VM for an own id; then its process is started. -/
theorem boot_vm_triple (lasting : Lasting F) {iid : Id} (solid : Solid P t except B) (vm : .vm ∉ except)
    (fs : .fs ∉ except) (disk : .disk ∉ except) (live : .live ∉ except) (load_from : Option (Path × Path))
      (scratch_src : Option Path) :
    Triple (protocol P) t (Knows t F fun w => B w ∧ Unspawned t iid w) (boot_vm iid load_from scratch_src)
      (Ends fun _ => Knows t F B) := by
  have unspawned : Solid P t (except ++ [.vm]) fun w => B w ∧ Unspawned t iid w :=
    (solid.mono (by simp)).and ((solid_unspawned iid).mono (by simp))
  refine quiet_bind lasting unspawned (quietly_fs rfl (by simp [fs])) fun _ => ?_
  refine quiet_bind lasting unspawned ((uses_provide_scratch _ _).quietly (by decide) (by simp [fs,disk])) fun _ => ?_
  refine bind_triple (M := fun _ => Knows t F B) ?_ fun _ => ?_
  · refine call_triple lasting unspawned ?_ (fun _ => lasting) fun _ => solid
    refine protocol_acts (fun w _ holds => holds.2.2) ?_
    rintro choice outcome w v orderly ⟨sees,knows,absent⟩ ran
    have kept := solid.own _ choice outcome w v vm orderly absent ran knows
    cases outcome with
    | ok value => exact ⟨exec_db (by simp [Op.kind,VmOp.kind]) ran ▸ sees,kept⟩
    | error error => trivial
  refine bind_triple (M := fun _ => Knows t F fun w => B w ∧ w.hyp.Started iid) ?_ fun _ => ?_
  · have started : ∀ o : VmOp, o = .start iid ∨ (∃ snap mem, o = .load iid snap mem) → Acts (protocol P) t (Knows t F B)
        (.vm o) (Ends fun _ => Knows t F fun w => B w ∧ w.hyp.Started iid) := by
      intro o which
      have may : ∀ w, Permitted t (.vm o) w := by
        intro w
        obtain rfl | ⟨snap,mem,rfl⟩ := which <;> trivial
      have kind : (Op.vm o).kind = .vm := by
        obtain rfl | ⟨snap,mem,rfl⟩ := which <;> rfl
      refine protocol_acts (fun w _ _ => may w) ?_
      rintro choice outcome w v orderly ⟨sees,knows⟩ ran
      have kept := solid.own _ choice outcome w v (kind ▸ vm) orderly (may w) ran knows
      cases outcome with
      | error error => trivial
      | ok value =>
        refine ⟨exec_db (by simp [kind]) ran ▸ sees,kept,?_⟩
        obtain ⟨fs,hyp,acts,rfl⟩ := exec_vmActs ran
        obtain rfl | ⟨snap,mem,rfl⟩ := which
        · cases acts with
          | start => exact ⟨_,Hypervisor.set_self _ _ _,by simp⟩
        · cases acts with
          | load => exact ⟨_,Hypervisor.set_self _ _ _,by simp⟩
    have solid' : Solid P t except fun w => B w ∧ w.hyp.Started iid := solid.and ((solid_started iid).mono (by simp))
    cases load_from with
    | none => exact call_triple lasting solid (started _ (.inl rfl)) (fun _ => lasting) fun _ => solid'
    | some files => exact call_triple lasting solid (started _ (.inr ⟨_,_,rfl⟩)) (fun _ => lasting) fun _ => solid'
  · have solid' : Solid P t except fun w => B w ∧ w.hyp.Started iid := solid.and ((solid_started iid).mono (by simp))
    refine call_triple lasting solid' ?_ (fun _ => lasting) fun _ => solid
    refine protocol_acts (fun w _ holds => holds.2.2) ?_
    rintro choice outcome w v orderly ⟨sees,knows,started⟩ ran
    have kept := solid.own _ choice outcome w v live orderly started ran knows
    cases outcome with
    | ok value => exact ⟨exec_db (by simp [Op.kind,MemOp.kind]) ran ▸ sees,kept⟩
    | error error => trivial

theorem lasting_true : Lasting fun _ => True := fun _ _ _ _ => trivial

/-- What a thread knows after it read the tables `T`. -/
def Read (T T' : Tables) : Prop := Sane T ∧ Grows T T'

theorem lasting_read (T : Tables) : Lasting (Read T) := fun _ _ grows ⟨sane,grown⟩ => ⟨sane,grown.trans grows⟩

theorem read_triple (lasting : Lasting F) (solid : Solid P t except B) (apart : .db ∉ except) :
    Triple (protocol P) t (Knows t F B) (dbCall .read) (Ends fun T => Knows t (Read T) B) := by
  refine call_triple lasting solid ?_ lasting_read fun _ => solid
  have acts : Acts (protocol P) t (Knows t F B) (.db .read) _ := acts_read solid apart
  refine ⟨?_⟩
  intro w outcome v orderly holds step
  obtain ⟨kept,guaranteed,post⟩ := acts.keeps w outcome v orderly holds step
  cases outcome with
  | ok T => exact ⟨kept,guaranteed,⟨post.1,post.2.2.2.1⟩,post.2.2.2.2⟩
  | error error => exact ⟨kept,guaranteed,trivial⟩

theorem execute_triple (lasting : Lasting F) (solid : Solid P t except B) {stmt : Stmt} {B' : World → Prop}
    (permitted : ∀ w, Orderly w → Knows t F B w → Permitted t (.db (.execute stmt)) w) {more : List Kind}
    (solid' : Solid P t more B') (apart : .db ∉ more) (implies : ∀ w, B w → B' w) :
    Triple (protocol P) t (Knows t F B) (dbCall (.execute stmt)) (Ends fun _ => Knows t (After F stmt) B') :=
  call_triple lasting solid (acts_execute permitted solid' apart implies) (fun _ => lasting_after) fun _ => solid'

theorem commit_triple (lasting : Lasting F) (solid : Solid P t except B) (apart : .db ∉ except) :
    Triple (protocol P) t (Knows t F B) (dbCall .commit) (Ends fun _ => Knows t F B) :=
  call_triple lasting solid (acts_commit solid apart) (fun _ => lasting) fun _ => solid

/-- A statement that always fits and inserts no instance. -/
theorem execute_always (lasting : Lasting F) (solid : Solid P t except B) (apart : .db ∉ except) {stmt : Stmt}
    (fits : ∀ T, stmt.Fits T) (other : ∀ row, stmt ≠ .insertInstance row) :
    Triple (protocol P) t (Knows t F B) (dbCall (.execute stmt)) (Ends fun _ => Knows t (After F stmt) B) :=
  execute_triple lasting solid (fun _ _ _ => ⟨fits _,fun row same => absurd same (other row)⟩) solid apart fun _ => id

theorem create_run_triple (project_id : Id) (image_label : Json) :
    Triple (protocol P) t (Knows t (fun _ => True) fun _ => True) (create_run P project_id image_label)
      (Ends fun _ => Knows t (fun _ => True) fun _ => True) := by
  refine quiet_bind lasting_true solid_true (quietly_sys (by simp) _) fun rid => ?_
  refine bind_triple (newId_triple lasting_true solid_true (by simp)) fun iid => ?_
  have solid : Solid P t [.vm] fun w => True ∧ Unspawned t iid w :=
    (solid_true.mono (by simp)).and (solid_unspawned iid)
  have onward : Triple (protocol P) t (Knows t (fun _ => True) fun w => True ∧ Unspawned t iid w)
      (connection (do
        let now ← sysCall .now
        let image ← bindText P image_label
        dbCall (.execute (.insertRun ⟨rid,project_id,image,now⟩))
        let now ← sysCall .now
        dbCall (.execute (.insertInstance ⟨iid,rid,none,.RUNNING,"genesis",now⟩))
        dbCall .commit)) (Ends fun _ => Knows t (fun _ => True) fun w => True ∧ Unspawned t iid w) := by
    refine connection_triple (quiet_bind lasting_true solid (quietly_sys (by simp) _) fun now => ?_)
    refine quiet_bind lasting_true solid ((uses_bindText P _).quietly (by simp) (by simp)) fun image => ?_
    refine bind_triple (execute_always lasting_true solid (by simp) (fun _ => trivial) (by simp)) fun _ => ?_
    refine quiet_bind lasting_after solid (quietly_sys (by simp) _) fun now => ?_
    refine bind_triple (execute_triple lasting_after solid ?_ solid (by simp) fun _ => id) fun _ => ?_
    · rintro w _ ⟨⟨before,after,sane,_,applied,grows⟩,_,owned,_⟩
      refine ⟨⟨grows.hasRun (sane.insertRun applied).2.2,by simp⟩,?_⟩
      rintro row ⟨⟩
      exact owned
    · refine (commit_triple lasting_after solid (by simp)).consequence (fun _ _ holds => holds) ?_
      intro outcome _ _ holds
      cases outcome with
      | ok value => exact ⟨trivial,holds.2⟩
      | error error => trivial
  refine bind_triple (onward.consequence (fun _ _ ⟨sees,_,_,own⟩ => ⟨sees,trivial,own⟩) fun _ _ _ holds => holds) fun _ => ?_
  refine bind_triple (boot_vm_triple lasting_true solid_true (by simp) (by simp) (by simp) (by simp) none none) fun _ => ?_
  refine quiet_bind lasting_true solid_true (quietly_wait_agent _ (by simp) (by simp) _) fun _ => ?_
  exact done_triple lasting_true solid_true _

/-- The parent is read long before the row is written, but it stays there; and what is
    snapshotted is published. -/
theorem snapshot_instance_triple (iid : Id) (label : Json) :
    Triple (protocol P) t (fun w => ∀ T, w.db.txn ≠ some (t,T)) (snapshot_instance P iid label)
      (Ends fun _ => Knows t (fun _ => True) fun _ => True) := by
  have idle : Stable (protocol P) t fun w => ∀ T, w.db.txn ≠ some (t,T) :=
    fun _ _ _ _ relies free => relies.txn free
  refine bind_triple (M := fun (live : Bool) w => (∀ T, w.db.txn ≠ some (t,T)) ∧ (live → w.hyp.Started iid)) ?_ fun live => ?_
  · refine Triple.perform idle (protocol_acts (fun _ _ _ => trivial) ?_) ?_
    · intro choice outcome w v orderly free ran
      obtain ⟨⟨result,mem⟩,executed,same⟩ := Option.map_eq_some_iff.mp ran
      cases same
      cases choice <;> cases executed
      exact ⟨free,fun live => orderly.live iid (by simpa using live)⟩
    · intro outcome
      cases outcome with
      | ok live => exact fun _ _ _ _ relies ⟨free,started⟩ => ⟨relies.txn free,fun yes => relies.started iid (started yes)⟩
      | error error => exact stable_true
  have idle' : Stable (protocol P) t fun w => (∀ T, w.db.txn ≠ some (t,T)) ∧ (live → w.hyp.Started iid) :=
    fun _ _ _ _ relies ⟨free,started⟩ => ⟨relies.txn free,fun yes => relies.started iid (started yes)⟩
  split
  · exact Triple.raise idle' fun _ _ _ => trivial
  rename_i present
  have live : live = true := by simpa using present
  refine connection_triple (bind_triple (M := fun T => Knows t (Read T) fun w => w.hyp.Started iid ∧ Shows T w) ?_
    fun T => ?_)
  · have solid : ∀ T, Solid P t [] fun w => w.hyp.Started iid ∧ Shows T w :=
      fun T => (solid_started iid).and (solid_shows T)
    refine Triple.perform idle' (protocol_acts (fun _ _ _ => trivial) ?_) (stable_ends lasting_read solid)
    rintro choice outcome w v orderly ⟨free,started⟩ ran
    obtain ⟨db,acts,rfl⟩ := exec_dbActs ran
    cases acts with
    | fails => trivial
    | read =>
      refine ⟨⟨(orderly.db.visible t).1,Grows.refl _⟩,started live,?_⟩
      intro iid' has
      rwa [Db.visible_other free] at has
  have lasting := lasting_read T
  have known : Solid P t [] fun w => w.hyp.Started iid ∧ Shows T w := (solid_started iid).and (solid_shows T)
  split
  · exact raise_triple lasting known _
  rename_i row found
  have member : row ∈ T.instances := List.mem_of_find?_eq_some found
  have named : row.id = iid := by simpa using List.find?_some found
  have published : ∀ w, Knows t (Read T) (fun w => w.hyp.Started iid ∧ Shows T w) w → w.Published iid :=
    fun w ⟨_,started,shows_⟩ => ⟨shows_ iid ⟨row,member,named⟩,started⟩
  refine quiet_bind lasting known (quietly_sys (by simp) _) fun sid => ?_
  refine quiet_bind lasting known (quietly_fs rfl (by simp)) fun _ => ?_
  refine quiet_bind lasting known (quietly_fs rfl (by simp)) fun _ => ?_
  refine bind_triple (M := fun _ => Knows t (Read T) fun w => w.hyp.Started iid ∧ Shows T w) ?_ fun _ => ?_
  · -- the QUIESCE
    refine Triple.catching protocol_lawful (M := fun _ => Knows t (Read T) fun w => w.hyp.Started iid ∧ Shows T w) ?_
      (fun _ _ _ holds => holds) fun _ => done_triple lasting known ()
    refine Triple.bind protocol_lawful (M := fun _ => Knows t (Read T) fun w => w.hyp.Started iid ∧ Shows T w) ?_
      (fun _ => quiet_triple lasting known (quietly_sys (by simp) _)) fun _ _ _ holds => holds
    refine Triple.bind protocol_lawful (M := fun _ => Knows t (Read T) fun w => w.hyp.Started iid ∧ Shows T w) ?_
      (fun _ => quiet_triple lasting known (quietly_vm (harmless_receive _ _) (by simp))) fun _ _ _ holds => holds
    refine Triple.perform (stable_knows lasting known) ?_ fun _ => stable_knows lasting known
    have permitted : ∀ w, Knows t (Read T) (fun w => w.hyp.Started iid ∧ Shows T w) w →
        Permitted t (.vm (.connect iid (.json (.obj [("type",.str "QUIESCE")])))) w :=
      fun w holds => ⟨fun forked => by simp [Agent.Line.hasType,Agent.field,Json.get?,Json.isStr] at forked,
        fun _ => published w holds⟩
    refine protocol_acts (fun w _ holds => permitted w holds) ?_
    intro choice outcome w v orderly holds ran
    exact ⟨exec_db (by simp [Op.kind,VmOp.kind]) ran ▸ holds.1,
      known.own _ choice outcome w v (by simp) orderly (permitted w holds) ran holds.2⟩
  refine quiet_bind lasting known (quietly_vm (harmless_pause iid) (by simp)) fun _ => ?_
  refine bind_triple (M := fun _ => Knows t (Read T) fun w => w.hyp.Started iid ∧ Shows T w) ?_ fun _ => ?_
  · have permitted : ∀ w, Knows t (Read T) (fun w => w.hyp.Started iid ∧ Shows T w) w →
        Permitted t (.vm (.create iid (.snap sid .vmstate) (.snap sid .mem))) w := published
    refine call_triple lasting known (protocol_acts (fun w _ holds => permitted w holds) ?_) (fun _ => lasting)
      fun _ => known
    intro choice outcome w v orderly holds ran
    cases outcome with
    | ok value =>
      exact ⟨exec_db (by simp [Op.kind,VmOp.kind]) ran ▸ holds.1,
        known.own _ choice _ w v (by simp) orderly (permitted w holds) ran holds.2⟩
    | error error => trivial
  refine quiet_bind lasting known (quietly_fs rfl (by simp)) fun _ => ?_
  refine quiet_bind lasting known ((uses_seal_scratch _ _).quietly (by decide) (by simp)) fun _ => ?_
  refine quiet_bind lasting known (quietly_vm (harmless_resume iid) (by simp)) fun _ => ?_
  refine quiet_bind lasting known ((uses_chunk_mem P _ _).quietly (by decide) (by simp)) fun logical => ?_
  refine quiet_bind lasting known (quietly_fs rfl (by simp)) fun state => ?_
  refine quiet_bind lasting known (quietly_sys (by simp) _) fun now => ?_
  refine quiet_bind lasting known ((uses_bindText P _).quietly (by simp) (by simp)) fun text => ?_
  refine bind_triple (execute_triple lasting known ?_ known (by simp) fun _ => id) fun _ => ?_
  · rintro w _ ⟨⟨sane,grows⟩,_⟩
    exact ⟨⟨grows.hasRun (sane.instance_run row member),
      fun parent child => grows.hasSnapshot (sane.instance_snapshot row member parent child)⟩,by simp⟩
  refine bind_triple (execute_triple lasting_after known ?_ known (by simp) fun _ => id) fun _ => ?_
  · rintro w _ ⟨⟨before,after,sane,⟨read,grown⟩,applied,grows⟩,_⟩
    have fits : (Stmt.insertSnapshot ⟨sid,row.run_id,row.snapshot_id,text,.snap sid .vmstate,.snap sid .mem,
        logical + state,now⟩).Fits before :=
      ⟨grown.hasRun (read.instance_run row member),
        fun parent child => grown.hasSnapshot (read.instance_snapshot row member parent child)⟩
    obtain ⟨_,grown',there⟩ := sane.insertSnapshot fits applied
    have key : (iid,row.run_id) ∈ T.instances.map InstanceRow.key := by
      rw [← named]
      exact List.mem_map_of_mem member
    exact ⟨⟨row.run_id,(grown.trans (grown'.trans grows)).instances.subset key,grows.hasSnapshot there⟩,by simp⟩
  exact forget_triple (bind_triple (commit_triple lasting_after known (by simp)) fun _ => done_triple lasting_after known _)

/-- The exchange with a forked guest: FORKED goes to an own instance that is not recorded. -/
theorem handshake_triple (lasting : Lasting F) (iid : Id) (i : Nat) (n : Int) :
    Triple (protocol P) t (Knows t F (Unrecorded t iid)) (handshake P iid i n)
      (Ends fun _ => Knows t F (Unrecorded t iid)) := by
  have solid : Solid P t [.db] (Unrecorded t iid) := solid_unrecorded iid
  refine Triple.catching protocol_lawful (M := fun _ => Knows t F (Unrecorded t iid)) ?_ (fun _ _ _ holds => holds)
    fun error => done_triple lasting solid _
  refine Triple.bind protocol_lawful (quiet_triple lasting solid (quietly_wait_agent _ (by simp) (by simp) _)) (fun _ => ?_)
    fun _ _ _ holds => holds
  refine Triple.bind protocol_lawful (quiet_triple lasting solid (quietly_sys (by simp) _)) (fun now => ?_)
    fun _ _ _ holds => holds
  refine Triple.bind protocol_lawful (M := fun _ => Knows t F (Unrecorded t iid)) ?_ (fun r => ?_)
    fun _ _ _ holds => holds
  · refine Triple.bind protocol_lawful (M := fun _ => Knows t F (Unrecorded t iid)) ?_
      (fun _ => quiet_triple lasting solid (quietly_vm (harmless_receive _ _) (by simp [VmOp.kind])))
      fun _ _ _ holds => holds
    refine Triple.perform (stable_knows lasting solid) ?_ fun _ => stable_knows lasting solid
    have permitted : ∀ w, Orderly w → Unrecorded t iid w → ∀ msg : Json,
        (Agent.Line.json msg).hasType "QUIESCE" = false → Permitted t (.vm (.connect iid (.json msg))) w := by
      rintro w orderly ⟨owned,absent⟩ msg notQuiesce
      exact ⟨fun _ => ⟨owned,fun has => absent ((orderly.db.visible t).2.hasInstance has)⟩,by simp [notQuiesce]⟩
    refine protocol_acts (fun w orderly holds => permitted w orderly holds.2 _ rfl) ?_
    intro choice outcome w v orderly holds ran
    exact ⟨exec_db (by simp [Op.kind,VmOp.kind]) ran ▸ holds.1,
      solid.own _ choice outcome w v (by simp [Op.kind,VmOp.kind]) orderly (permitted w orderly holds.2 _ rfl) ran holds.2⟩
  refine Triple.bind protocol_lawful (quiet_triple lasting solid ((uses_status r : Uses [] _).quietly (by simp) (by simp)))
    (fun _ => ?_) fun _ _ _ holds => holds
  exact Triple.ret (stable_knows lasting solid) fun _ _ holds => holds

theorem fork_child_triple {T : Tables} {snap : SnapshotRow} (member : snap ∈ T.snapshots) (n : Int) (i : Nat) :
    Triple (protocol P) t (Knows t (Read T) fun _ => True) (fork_child P snap n i)
      (Ends fun _ => Knows t (Read T) fun _ => True) := by
  have lasting := lasting_read T
  refine bind_triple (newId_triple lasting solid_true (by simp)) fun iid => ?_
  refine bind_triple ((boot_vm_triple lasting (solid_unrecorded iid) (by simp) (by simp) (by simp) (by simp) _ _).consequence
    (fun _ _ ⟨sees,_,fresh⟩ => ⟨sees,fresh⟩) fun _ _ _ holds => holds) fun _ => ?_
  refine bind_triple (handshake_triple lasting iid i n) fun branch => ?_
  refine quiet_bind lasting (solid_unrecorded iid) (quietly_sys (by simp) _) fun now => ?_
  have fits : ∀ T', Read T T' →
      (Stmt.insertInstance ⟨iid,snap.run_id,some snap.id,.RUNNING,branch,now⟩).Fits T' := by
    rintro T' ⟨sane,grows⟩
    refine ⟨grows.hasRun (sane.snapshot_run snap member),?_⟩
    rintro sid ⟨⟩
    exact grows.hasSnapshot ⟨snap,member,rfl,rfl⟩
  refine bind_triple (execute_triple lasting (solid_unrecorded iid) ?_ solid_true (by simp) fun _ _ => trivial) fun _ => ?_
  · rintro w _ ⟨read,owned,_⟩
    refine ⟨fits _ read,?_⟩
    rintro row ⟨⟩
    exact owned
  · refine Triple.ret (stable_knows lasting_after solid_true) ?_
    rintro w _ ⟨⟨before,after,sane,read,applied,grows⟩,_⟩
    exact ⟨lasting _ _ ((sane.apply (fits before read) applied).2.trans grows) read,trivial⟩

theorem fork_snapshot_triple (sid : Id) (n : Int) :
    Triple (protocol P) t (Knows t (fun _ => True) fun _ => True) (fork_snapshot P sid n)
      (Ends fun _ => Knows t (fun _ => True) fun _ => True) := by
  refine connection_triple (bind_triple (read_triple lasting_true solid_true (by simp)) fun T => ?_)
  have lasting := lasting_read T
  split
  · exact raise_triple lasting solid_true _
  rename_i snap found
  have turn : ∀ i : Nat, _ := fork_child_triple (P := P) (t := t) (List.mem_of_find?_eq_some found) n
  refine quiet_bind lasting solid_true ((uses_reconstruct_mem P _).quietly (by decide) (by simp)) fun _ => ?_
  refine bind_triple (M := fun _ => Knows t (Read T) fun _ => True) ?_ fun children =>
    forget_triple (bind_triple (commit_triple lasting solid_true (by simp)) fun _ => done_triple lasting solid_true _)
  refine (Triple.each protocol_lawful (P := fun _ _ => Knows t (Read T) fun _ => True) (E := fun _ _ => True)
    (fun _ _ => stable_knows lasting solid_true) ?_).consequence (fun _ _ holds => holds) ?_
  · intro _ i _ _ _
    exact (turn i).consequence (fun _ _ holds => holds) fun outcome _ _ holds => by
      cases outcome <;> exact holds
  · intro outcome _ _ holds
    cases outcome <;> exact holds

theorem quietly_live {o : MemOp} (harmless : Harmless (.mem o)) : Quietly [] (memCall o) :=
  Only.perform ⟨harmless,by simp⟩

theorem destroy_instance_triple (iid : Id) :
    Triple (protocol P) t (Knows t (fun _ => True) fun _ => True) (destroy_instance iid)
      (Ends fun _ => Knows t (fun _ => True) fun _ => True) := by
  have pop : Harmless (.mem (.livePop iid)) := ⟨by simp [Op.kind,MemOp.kind],fun _ _ => trivial⟩
  refine quiet_bind lasting_true solid_true (quietly_live pop) fun live => ?_
  refine quiet_bind lasting_true solid_true (Only.when (quietly_vm (harmless_kill iid) (by simp))) fun _ => ?_
  have marked : Triple (protocol P) t (Knows t (fun _ => True) fun _ => True) (do
      dbCall (.execute (.setDestroyed iid))
      dbCall .commit) (Ends fun _ => Knows t (After (fun _ => True) (.setDestroyed iid)) fun _ => True) :=
    bind_triple (execute_always lasting_true solid_true (by simp) (fun _ => trivial) (by simp)) fun _ =>
      commit_triple lasting_after solid_true (by simp)
  exact bind_triple (connection_triple (forget_triple marked)) fun _ => done_triple lasting_true solid_true _

theorem timeline_triple (run_id : Id) :
    Triple (protocol P) t (Knows t (fun _ => True) fun _ => True) (timeline run_id)
      (Ends fun _ => Knows t (fun _ => True) fun _ => True) := by
  refine bind_triple (read_triple lasting_true solid_true (by simp)) fun T => ?_
  refine bind_triple (read_triple (lasting_read T) solid_true (by simp)) fun T' => ?_
  exact forget_triple (done_triple (lasting_read T') solid_true _)

theorem meter_rows_triple (dt : Rat) (live : List Id) (accr : List (Id × Rat × Rat)) :
    Triple (protocol P) t (Knows t (fun _ => True) fun _ => True) (meter_rows dt live accr)
      (Ends fun _ => Knows t (fun _ => True) fun _ => True) := by
  induction live generalizing accr with
  | nil => exact done_triple lasting_true solid_true accr
  | cons iid rest ih =>
    refine bind_triple (read_triple lasting_true solid_true (by simp)) fun T => ?_
    split
    · exact (ih accr).consequence (fun _ _ _ => ⟨trivial,trivial⟩) fun _ _ _ holds => holds
    · exact (ih _).consequence (fun _ _ _ => ⟨trivial,trivial⟩) fun _ _ _ holds => holds

theorem meter_tick_triple (dt : Rat) :
    Triple (protocol P) t (Knows t (fun _ => True) fun _ => True) (meter_tick dt)
      (Ends fun _ => Knows t (fun _ => True) fun _ => True) := by
  have keys : Harmless (.mem .liveKeys) := ⟨by simp [Op.kind,MemOp.kind],fun _ _ => trivial⟩
  refine connection_triple (quiet_bind lasting_true solid_true (quietly_live keys) fun live => ?_)
  refine bind_triple (meter_rows_triple dt live []) fun accr => ?_
  refine quiet_bind lasting_true solid_true (quietly_sys (by simp) _) fun now => ?_
  refine bind_triple (M := fun _ => Knows t (fun _ => True) fun _ => True) ?_ fun _ =>
    bind_triple (commit_triple lasting_true solid_true (by simp)) fun _ => done_triple lasting_true solid_true _
  refine (Triple.each protocol_lawful (P := fun _ _ => Knows t (fun _ => True) fun _ => True) (E := fun _ _ => True)
    (fun _ _ => stable_knows lasting_true solid_true) ?_).consequence (fun _ _ holds => holds) ?_
  · rintro _ ⟨pid,v,g⟩ _ _ _
    have turn : Triple (protocol P) t (Knows t (fun _ => True) fun _ => True)
        (dbCall (.execute (.accrue pid v g now))) _ :=
      execute_always lasting_true solid_true (by simp) (fun _ => trivial) (by simp)
    exact (forget_triple turn).consequence (fun _ _ holds => holds) fun outcome _ _ holds => by
      cases outcome <;> exact holds
  · intro outcome _ _ holds
    cases outcome <;> exact holds

/-- What a new thread starts from: it has no transaction. -/
def Unborn (t : Nat) (w : World) : Prop := ∀ T, w.db.txn ≠ some (t,T)

theorem Req.triple (req : Req) : Triple (protocol P) t (Unborn t) (req.body P) (fun _ _ => True) := by
  cases req with
  | create_run project_id image_label =>
    exact (create_run_triple project_id image_label).consequence (fun _ _ _ => ⟨trivial,trivial⟩) fun _ _ _ _ => trivial
  | snapshot_instance iid label =>
    exact (snapshot_instance_triple iid label).consequence (fun _ _ holds => holds) fun _ _ _ _ => trivial
  | fork_snapshot sid n =>
    exact (fork_snapshot_triple sid n).consequence (fun _ _ _ => ⟨trivial,trivial⟩) fun _ _ _ _ => trivial
  | destroy_instance iid =>
    exact (destroy_instance_triple iid).consequence (fun _ _ _ => ⟨trivial,trivial⟩) fun _ _ _ _ => trivial
  | timeline run_id =>
    exact (timeline_triple run_id).consequence (fun _ _ _ => ⟨trivial,trivial⟩) fun _ _ _ _ => trivial
  | meter_tick dt =>
    exact (meter_tick_triple dt).consequence (fun _ _ _ => ⟨trivial,trivial⟩) fun _ _ _ _ => trivial

/-- The daemon stays within its permissions, whatever is requested, fails or is rebooted. -/
theorem protocol_sound : Sound (daemon P) (fun _ _ => True) (protocol P) Unborn (fun _ _ _ _ => True) where
  lawful := protocol_lawful
  calls _ _ choice _ _ _ _ _ _ _ _ ran := ⟨choice,ran⟩
  others t t' op w v other orderly _ guaranteed := by
    obtain ⟨permitted,choice,outcome,ran⟩ := guaranteed
    exact orderly.relies permitted ran other
  envs pool move world _ orderly moved := by
    have step := World.moved_of_move moved
    exact ⟨orderly.move step,relies_move step⟩
  reboots _ _ orderly := ⟨orderly.reboot,by rintro _ _ ⟨⟩⟩
  young _ _ _ _ _ relies free := relies.txn free
  bodies _ req _ := req.triple

/-- A world as `init_db` leaves it: no runs, no transaction, no processes. -/
structure World.Fresh (w : World) : Prop where
  idle : w.db.txn = none
  runs : w.db.committed.runs = []
  snapshots : w.db.committed.snapshots = []
  instances : w.db.committed.instances = []
  processes : ∀ iid, w.hyp.vm iid = none
  saved : ∀ p, w.hyp.saved p = none
  live : w.mem.live = []

theorem World.Fresh.orderly {w : World} (fresh : w.Fresh) : Orderly w := by
  refine ⟨⟨⟨?_,?_,?_,?_,?_⟩,?_⟩,?_,?_,?_,?_⟩
  · rw [fresh.snapshots]
    exact .nil
  · simp [fresh.snapshots]
  · simp [fresh.instances]
  · simp [fresh.instances]
  · simp [fresh.instances]
  · simp [fresh.idle]
  · simp [fresh.idle]
  · rintro iid ⟨row,member,_⟩
    simp [fresh.instances] at member
  · exact fun iid there => absurd (fresh.processes iid) there
  · simp [fresh.live]

theorem World.Fresh.healthy {w : World} (fresh : w.Fresh) :
    Healthy (protocol P) Unborn (fun _ _ _ _ => True) (⟨w,[]⟩ : KPool) :=
  ⟨fresh.orderly,fun t thread found => by simp at found,fun t _ T => by simp [fresh.idle]⟩

/-- The same of the watched daemon. -/
theorem World.Fresh.watched {w : World} (fresh : w.Fresh) {Γ : Type} (seen : Γ) :
    Healthy ((protocol P).watch Γ) (fun t w => Unborn t w.1) (fun _ _ _ _ => True)
      (⟨(w,seen),[]⟩ : Pool sig Exn Json Req (World × Γ)) :=
  ⟨fresh.orderly,fun t thread found => by simp at found,fresh.healthy (P := P) |>.next⟩

/-- Every state that the daemon reaches is orderly, and its threads keep to their permissions. -/
theorem protocol_reach {w : World} (fresh : w.Fresh) {pool : KPool}
    (reached : (daemon P).Reach (fun _ _ => True) ⟨w,[]⟩ pool) :
    Healthy (protocol P) Unborn (fun _ _ _ _ => True) pool :=
  protocol_sound.reach (fresh.healthy (P := P)) reached

theorem World.initial_fresh (root : ProjectRow) (s3 : Bool) : (World.initial root s3).Fresh :=
  ⟨rfl,rfl,rfl,rfl,fun _ => rfl,fun _ => rfl,rfl⟩

end Klados
