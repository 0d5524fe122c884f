import Klados.Follow
import Klados.Timeline

/-!
Lineage. `snapshot_instance` reads the parent of the new snapshot before the pause and moves the pointer of
the instance after the image is chunked, so of two requests that overlap the later one records a parent
that is not the latest snapshot. When each request finds the pointer at its commit as it read it, the
recorded snapshots of every instance are a chain in the order of their captures (`lineage_chain`).
-/
namespace Klados
open Effects
open Forest (Linked tip)
open Prog (Only)

variable {P : Platform}

/-- The snapshots captured so far, in order, each with its instance, and the snapshot that each instance
    was inserted with. -/
structure Lineage where
  captures : List (Id × Id)
  base : Id → Option Id

/-- The snapshot is recorded. -/
def Tables.records (T : Tables) (sid : Id) : Bool := T.snapshots.any (·.id = sid)

/-- The recorded snapshots of the instance, in the order of their captures. -/
def Tables.recorded (T : Tables) (captures : List (Id × Id)) (iid : Id) : List Id :=
  (captures.filter fun capture => capture.1 = iid && T.records capture.2).map Prod.snd

/-- The row of the snapshot names this parent. -/
def Tables.Parent (T : Tables) (sid : Id) (parent : Option Id) : Prop :=
  ∃ row ∈ T.snapshots, row.id = sid ∧ row.parent_id = parent

/-- The recorded snapshots of the instance are a chain, and the row of the instance points to the last one. -/
structure Chained (all : Lineage) (T : Tables) (row : InstanceRow) : Prop where
  linked : Linked T.Parent (all.base row.id) (T.recorded all.captures row.id)
  last : row.snapshot_id = tip (all.base row.id) (T.recorded all.captures row.id)

/-- How far the thread is with a snapshot: it has read the tables, made the new id, captured the image
    (of the instance, with the parent that it has read), inserted the row, moved the pointer. -/
inductive Snapping
  | idle
  | looked (T : Tables)
  | named (T : Tables) (sid : Id)
  | captured (iid : Id) (parent : Option Id) (sid : Id)
  | inserted (iid : Id) (parent : Option Id) (sid : Id)
  | moved (iid : Id) (parent : Option Id) (sid : Id)
  | wrote

namespace Snapping

/-- The thread has captured nothing that it has not committed. -/
def Apart : Snapping → Prop
  | .idle | .looked _ | .named _ _ | .wrote => True
  | _ => False

def read (T : Tables) : Snapping → Snapping
  | .idle | .looked _ | .named _ _ => .looked T
  | g => g

def newId (sid : Id) : Snapping → Snapping
  | .looked T | .named T _ => .named T sid
  | g => g

def capture (iid : Id) : Snapping → Snapping
  | .named T sid => .captured iid ((T.instance? iid).bind (·.snapshot_id)) sid
  | g => g

/-- A statement was executed, or refused. -/
def execute (stmt : Stmt) (done : Bool) : Snapping → Snapping
  | .idle | .looked _ | .named _ _ => .wrote
  | .captured iid parent sid =>
    match stmt, done with
    | .insertSnapshot _, true => .inserted iid parent sid
    | _, _ => .captured iid parent sid
  | .inserted iid parent sid =>
    match stmt, done with
    | .setSnapshot _ _, true => .moved iid parent sid
    | _, _ => .inserted iid parent sid
  | g => g

def sees (g : Snapping) (op : Op) (outcome : Except Exn op.Res) : Snapping :=
  match op, outcome with
  | .db .read, .ok T => g.read T
  | .sys .newId, .ok sid => g.newId sid
  | .vm (.create iid _ _), .ok _ => g.capture iid
  | .db (.execute stmt), .ok _ => g.execute stmt true
  | .db (.execute stmt), .error _ => g.execute stmt false
  | .db .commit, .ok _ => .wrote
  | .db .rollback, .ok _ => .wrote
  | _, _ => g

def may (g : Snapping) : Op → Prop
  | .vm (.create _ snap _) => ∃ T sid, g = .named T sid ∧ snap = .snap sid .vmstate
  | .db (.execute (.insertSnapshot row)) => ∃ iid, g = .captured iid row.parent_id row.id
  | .db (.execute (.setSnapshot iid sid)) => ∃ parent, g = .inserted iid parent sid
  | .db (.execute _) => g.Apart
  | .db .commit => g.Apart ∨ ∃ iid parent sid, g = .moved iid parent sid
  | _ => True

end Snapping

/-- An instance starts from the snapshot that it is inserted with. -/
def rebased (base : Id → Option Id) : Stmt → Id → Option Id
  | .insertInstance row => Function.update base row.id row.snapshot_id
  | _ => base

def Lineage.sees (all : Lineage) (op : Op) (outcome : Except Exn op.Res) : Lineage :=
  match op, outcome with
  | .vm (.create iid (.snap sid _) _), .ok _ => { all with captures := all.captures ++ [(iid,sid)] }
  | .db (.execute stmt), .ok _ => { all with base := rebased all.base stmt }
  | _, _ => all

def snapping : Track sig Exn World Move Snapping Lineage where
  first := .idle
  next _ op outcome _ _ g := g.sees op outcome
  notes _ op outcome _ _ seen := seen.all.sees op outcome
  moves _ _ all := all
  reboots all := all
  may _ g op := g.may op

/-- An operation that the lineage of a snapshot depends on. -/
def Op.isLineage : Op → Bool
  | .db _ | .sys .newId | .vm (.create _ _ _) => true
  | _ => false

section
variable {t : Nat} {α β : Type} {g : Snapping} {op : Op}

theorem Snapping.sees_aside (aside : op.isLineage = false) (outcome : Except Exn op.Res) : g.sees op outcome = g := by
  unfold Snapping.sees
  split <;> first | rfl | cases aside

theorem Lineage.sees_aside (all : Lineage) (aside : op.isLineage = false) (outcome : Except Exn op.Res) :
    all.sees op outcome = all := by
  unfold Lineage.sees
  split <;> first | rfl | cases aside

theorem aside_keeps (aside : op.isLineage = false) : snapping.Keeps t (· = g) op := by
  rintro _ rfl
  refine ⟨?_,fun outcome _ _ => Snapping.sees_aside aside outcome⟩
  change Snapping.may _ op
  unfold Snapping.may
  split <;> trivial

theorem lineage_call {program : KProg α} {rest : α → KProg β} {q : β → Snapping → Prop}
    (aside : program.Only fun op : Op => op.isLineage = false)
    (onward : ∀ value, Triple (snapping.rules (daemon P)) t (Track.At t (· = g)) (rest value) (Track.Leaves t (fun _ => True) q)) :
    Triple (snapping.rules (daemon P)) t (Track.At t (· = g)) (program >>= rest) (Track.Leaves t (fun _ => True) q) :=
  Track.keeps_bind (Only.mono (fun _ => aside_keeps) aside) (fun _ _ => trivial) onward

theorem Uses.outside {kinds : List Kind} {program : KProg α} (uses : Uses kinds program) (db : .db ∉ kinds)
    (sys : .sys ∉ kinds) (capture : .capture ∉ kinds) : program.Only fun op : Op => op.isLineage = false := by
  refine Only.mono ?_ uses
  intro op listed
  unfold Op.isLineage
  split
  · exact absurd listed db
  · exact absurd listed sys
  · exact absurd listed capture
  · rfl

theorem Talks.outside {program : KProg α} (talks : Talks program) : program.Only fun op : Op => op.isLineage = false := by
  refine Only.mono ?_ talks
  rintro op ⟨listed,other⟩
  unfold Op.isLineage
  split
  · simp [Op.kind] at listed
  · exact absurd rfl other
  · simp [Op.kind,VmOp.kind] at listed
  · rfl

end

section
variable {t : Nat}

/-- A call that leads from one value to the next. -/
theorem snapping_step {op : Op} {g : Snapping} {h : op.Res → Snapping} {β : Type} {rest : op.Res → KProg β}
    {q : β → Snapping → Prop} (may : g.may op) (next : ∀ value, g.sees op (.ok value) = h value)
    (onward : ∀ value, Triple (snapping.rules (daemon P)) t (Track.At t (· = h value)) (rest value)
      (Track.Leaves t (fun _ => True) q)) :
    Triple (snapping.rules (daemon P)) t (Track.At t (· = g)) (Prog.perform (S := sig) op >>= rest)
      (Track.Leaves t (fun _ => True) q) := by
  refine Track.call_bind (r := fun value => (· = h value)) ?_ ?_ (fun _ _ _ _ _ _ _ => trivial) onward
  · rintro _ rfl
    exact may
  · rintro _ value _ _ _ _ rfl
    exact next value

theorem connection_snapping {α : Type} {body : KProg α} {p : Snapping → Prop} {q : α → Snapping → Prop}
    (inside : Triple (snapping.rules (daemon P)) t (Track.At t p) body (Track.Leaves t (fun _ => True) q)) :
    Triple (snapping.rules (daemon P)) t (Track.At t p) (connection body) (Track.Leaves t (fun _ => True) q) := by
  refine Track.catching inside fun error => ?_
  refine Track.call_bind (r := fun _ _ => True) (fun _ _ => trivial) (fun _ _ _ _ _ _ _ => trivial)
    (fun _ _ _ _ _ _ _ => trivial) fun _ => Track.raise_triple fun _ _ => trivial

theorem snapshot_instance_snapping (iid : Id) (label : Json) :
    Triple (snapping.rules (daemon P)) t (Track.At t (· = Snapping.idle)) (snapshot_instance P iid label)
      (Track.Leaves t (fun _ => True) fun _ _ => True) := by
  refine lineage_call (Only.perform rfl) fun live => ?_
  split
  · exact Track.raise_triple fun _ _ => trivial
  refine connection_snapping (snapping_step (h := .looked) trivial (fun _ => rfl) fun T => ?_)
  split
  · exact Track.raise_triple fun _ _ => trivial
  rename_i row found
  refine snapping_step (h := .named T) trivial (fun _ => rfl) fun sid => ?_
  refine lineage_call (Only.perform rfl) fun _ => lineage_call (Only.perform rfl) fun _ => ?_
  refine lineage_call (talks_quiesce _).outside fun _ => lineage_call (Only.perform rfl) fun _ => ?_
  refine snapping_step (h := fun _ => .captured iid row.snapshot_id sid) ⟨T,sid,rfl,rfl⟩ ?_ fun _ => ?_
  · intro _
    simp only [Snapping.sees,Snapping.capture,found,Option.bind_some]
  refine lineage_call (Only.perform rfl) fun _ => ?_
  refine lineage_call ((uses_seal_scratch _ _).outside (by decide) (by decide) (by decide)) fun _ => ?_
  refine lineage_call (Only.perform rfl) fun _ => ?_
  refine lineage_call ((uses_chunk_mem P _ _).outside (by decide) (by decide) (by decide)) fun logical => ?_
  refine lineage_call (Only.perform rfl) fun state => lineage_call (Only.perform rfl) fun now => ?_
  refine lineage_call ((uses_bindText P _).outside (by decide) (by decide) (by decide)) fun text => ?_
  refine snapping_step (h := fun _ => .inserted iid row.snapshot_id sid) ⟨iid,rfl⟩ (fun _ => rfl) fun _ => ?_
  refine snapping_step (h := fun _ => .moved iid row.snapshot_id sid) ⟨_,rfl⟩ (fun _ => rfl) fun _ => ?_
  refine snapping_step (h := fun _ => .wrote) (.inr ⟨_,_,_,rfl⟩) (fun _ => rfl) fun _ => ?_
  exact Track.ret_triple fun _ _ => trivial

/-- An operation that records a snapshot. -/
def Op.isRecording : Op → Bool
  | .vm (.create _ _ _) | .db (.execute (.insertSnapshot _)) | .db (.execute (.setSnapshot _ _)) => true
  | _ => false

theorem apart_keeps {op : Op} (other : op.isRecording = false) : snapping.Keeps t Snapping.Apart op := by
  intro g apart
  constructor
  · change g.may op
    unfold Snapping.may
    split <;> first | exact apart | exact .inl apart | trivial
  · intro outcome _ _
    change (g.sees op outcome).Apart
    unfold Snapping.sees
    split <;> first | exact apart | trivial | (cases g <;> trivial)

theorem Req.snapping (req : Req) :
    Triple (snapping.rules (daemon P)) t (Track.At t (· = Snapping.idle)) (req.body P)
      (Track.Leaves t (fun _ => True) fun _ _ => True) := by
  by_cases snapshot : ∃ iid label, req = .snapshot_instance iid label
  · obtain ⟨iid,label,rfl⟩ := snapshot
    exact snapshot_instance_snapping iid label
  · have other : (req.body P).Only fun op : Op => op.isRecording = false := by
      refine Only.mono ?_ (part_body P req)
      intro op calls
      cases req with
      | snapshot_instance iid label => exact absurd ⟨iid,label,rfl⟩ snapshot
      | create_run | fork_snapshot | destroy_instance | timeline | meter_tick =>
        cases op with
        | fs | s3 | sys | mem => rfl
        | vm o => cases o <;> first | rfl | cases calls
        | db o =>
          cases o with
          | read | commit | rollback => rfl
          | execute stmt => cases stmt <;> first | rfl | cases calls
    refine (Track.keeps_triple (Only.mono (fun _ => apart_keeps) other)).consequence ?_ ?_
    · intro s _ idle
      have same : s.2.own t = .idle := idle
      exact show (s.2.own t).Apart from same ▸ trivial
    · intro outcome _ _ _
      cases outcome <;> trivial

end
/-- The snapshot that the thread has captured and not committed: of which instance, and with which parent. -/
def Snapping.pending : Snapping → Option (Id × Option Id × Id)
  | .captured iid parent sid | .inserted iid parent sid | .moved iid parent sid => some (iid,parent,sid)
  | _ => none

/-- What the thread has read of the tables, until it captures. -/
def Snapping.tables : Snapping → Option Tables
  | .looked T | .named T _ => some T
  | _ => none

/-- Rows have been added to the tables that record no snapshot and move no pointer. -/
structure Extends (base : Id → Option Id) (T T' : Tables) : Prop where
  snapshots : T'.snapshots = T.snapshots
  instances : ∀ row ∈ T'.instances, (∃ old ∈ T.instances, old.id = row.id ∧ old.snapshot_id = row.snapshot_id) ∨
    (¬ T.HasInstance row.id ∧ row.snapshot_id = base row.id)

/-- What the open transaction of the thread holds. -/
def Snapping.Writes (base : Id → Option Id) (T T' : Tables) : Snapping → Prop
  | .idle | .looked _ | .named _ _ => False
  | .wrote => Extends base T T'
  | .captured _ _ _ => T'.snapshots = T.snapshots ∧ T'.instances = T.instances
  | .inserted _ parent sid => ∃ row : SnapshotRow, row.id = sid ∧ row.parent_id = parent ∧
      T'.snapshots = T.snapshots ++ [row] ∧ T'.instances = T.instances
  | .moved iid parent sid => ∃ row : SnapshotRow, row.id = sid ∧ row.parent_id = parent ∧
      T'.snapshots = T.snapshots ++ [row] ∧
      T'.instances = updateInstance T.instances iid fun row => { row with snapshot_id := some sid }

/-- A snapshot that thread `t` has captured and not committed: its id is new, its parent is recorded, and as
    long as the pointer of the instance is where the thread has read it, no later capture is recorded. -/
structure Pending (w : World) (all : Lineage) (t : Nat) (iid : Id) (parent : Option Id) (sid : Id) : Prop where
  owned : w.owner sid = some t
  fresh : w.db.committed.records sid = false
  known : ∀ p, parent = some p → w.db.committed.records p = true
  later : ∃ before after, all.captures = before ++ (iid,sid) :: after ∧
    ((∃ row ∈ w.db.committed.instances, row.id = iid ∧ row.snapshot_id = parent) →
      ∀ sid', (iid,sid') ∈ after → w.db.committed.records sid' = false)

structure Traced (w : World) (own : Nat → Snapping) (all : Lineage) : Prop where
  chained : ∀ row ∈ w.db.committed.instances, Chained all w.db.committed row
  sources : ∀ snap ∈ w.db.committed.snapshots, ∃ iid, (iid,snap.id) ∈ all.captures
  instances : ∀ iid sid, (iid,sid) ∈ all.captures → w.db.committed.HasInstance iid
  distinct : (all.captures.map Prod.snd).Nodup
  owned : ∀ iid sid, (iid,sid) ∈ all.captures → (w.owner sid).isSome
  looked : ∀ t T, (own t).tables = some T → ∀ row ∈ T.instances, ∀ p, row.snapshot_id = some p →
    w.db.committed.records p = true
  named : ∀ t T sid, own t = .named T sid → w.owner sid = some t ∧ ∀ iid, (iid,sid) ∉ all.captures
  pending : ∀ t iid parent sid, (own t).pending = some (iid,parent,sid) → Pending w all t iid parent sid
  txn : ∀ t T, w.db.txn = some (t,T) → (own t).Writes all.base w.db.committed T
  open_ : ∀ t iid parent sid, own t = .inserted iid parent sid ∨ own t = .moved iid parent sid →
    ∃ T, w.db.txn = some (t,T)

section
variable {T T' : Tables} {captures more : List (Id × Id)} {iid sid : Id} {all : Lineage}

theorem records_iff : T.records sid = true ↔ ∃ row ∈ T.snapshots, row.id = sid := by
  simp [Tables.records]

theorem recorded_append : T.recorded (captures ++ more) iid = T.recorded captures iid ++ T.recorded more iid := by
  simp [Tables.recorded]

theorem recorded_congr (same : ∀ sid, (iid,sid) ∈ captures → T'.records sid = T.records sid) :
    T'.recorded captures iid = T.recorded captures iid := by
  unfold Tables.recorded
  refine congrArg (List.map Prod.snd) (List.filter_congr ?_)
  rintro ⟨iid',sid⟩ member
  by_cases own : iid' = iid
  · subst own
    rw [same sid member]
  · simp [own]

theorem recorded_nil (captures : List (Id × Id)) (nothing : ∀ sid, (iid,sid) ∈ captures → T.records sid = false) :
    T.recorded captures iid = [] := by
  unfold Tables.recorded
  rw [List.filter_eq_nil_iff.mpr,List.map_nil]
  rintro ⟨iid',sid⟩ member
  by_cases own : iid' = iid
  · subst own
    simp [nothing sid member]
  · simp [own]

/-- The chain of a row depends on the recorded snapshots, the captures and the base only. -/
theorem Chained.congr {row row' : InstanceRow} {all' : Lineage} (chained : Chained all T row) (id : row'.id = row.id)
    (pointer : row'.snapshot_id = row.snapshot_id) (base : all'.base row.id = all.base row.id)
    (recorded : T'.recorded all'.captures row.id = T.recorded all.captures row.id)
    (grown : ∀ snap ∈ T.snapshots, snap ∈ T'.snapshots) : Chained all' T' row' := by
  have weaker : ∀ sid parent, T.Parent sid parent → T'.Parent sid parent := by
    rintro sid parent ⟨snap,member,named⟩
    exact ⟨snap,grown snap member,named⟩
  constructor
  · rw [id,base,recorded]
    exact chained.linked.mono weaker
  · rw [pointer,id,base,recorded]
    exact chained.last

theorem Extends.refl (base : Id → Option Id) (T : Tables) : Extends base T T :=
  ⟨rfl,fun row member => .inl ⟨row,member,rfl,rfl⟩⟩

theorem Extends.records {base : Id → Option Id} (extends_ : Extends base T T') (sid : Id) : T'.records sid = T.records sid := by
  simp only [Tables.records,extends_.snapshots]

end
/-! ## What the calls keep -/

section
variable {t : Nat} {w v : World} {op : Op} {choice : Choice} {outcome : Except Exn op.Res} {own : Nat → Snapping}
  {all : Lineage} {T T' : Tables} {iid sid : Id} {parent : Option Id}

theorem Pending.frame (pending : Pending w all t iid parent sid) (db : v.db.committed = w.db.committed)
    (owner : ∀ id t, w.owner id = some t → v.owner id = some t) : Pending v all t iid parent sid :=
  ⟨owner _ _ pending.owned,db ▸ pending.fresh,db ▸ pending.known,db ▸ pending.later⟩

/-- A step that leaves the tables alone. -/
theorem Traced.frame (traced : Traced w own all) (db : v.db = w.db)
    (owner : ∀ id t, w.owner id = some t → v.owner id = some t) : Traced v own all := by
  constructor
  · exact db ▸ traced.chained
  · exact db ▸ traced.sources
  · exact db ▸ traced.instances
  · exact traced.distinct
  · intro iid sid member
    obtain ⟨t,owned⟩ := Option.isSome_iff_exists.mp (traced.owned iid sid member)
    rw [owner sid t owned]
    rfl
  · exact db ▸ traced.looked
  · exact fun t T sid own => ⟨owner _ _ (traced.named t T sid own).1,(traced.named t T sid own).2⟩
  · exact fun t iid parent sid own => (traced.pending t iid parent sid own).frame (congrArg Db.committed db) owner
  · exact db ▸ traced.txn
  · exact db ▸ traced.open_

/-- The thread gets another value, which the tables support. -/
theorem Traced.update (traced : Traced w own all) {g : Snapping}
    (looked : ∀ T, g.tables = some T → ∀ row ∈ T.instances, ∀ p, row.snapshot_id = some p → w.db.committed.records p = true)
    (named : ∀ T sid, g = .named T sid → w.owner sid = some t ∧ ∀ iid, (iid,sid) ∉ all.captures)
    (pending : ∀ iid parent sid, g.pending = some (iid,parent,sid) → Pending w all t iid parent sid)
    (txn : ∀ T, w.db.txn = some (t,T) → g.Writes all.base w.db.committed T)
    (open_ : ∀ iid parent sid, g = .inserted iid parent sid ∨ g = .moved iid parent sid → ∃ T, w.db.txn = some (t,T)) :
    Traced w (Function.update own t g) all := by
  constructor
  · exact traced.chained
  · exact traced.sources
  · exact traced.instances
  · exact traced.distinct
  · exact traced.owned
  all_goals intro t'
  all_goals by_cases same : t' = t
  · subst same
    rw [Function.update_self]
    exact looked
  · rw [Function.update_of_ne same]
    exact traced.looked t'
  · subst same
    rw [Function.update_self]
    exact named
  · rw [Function.update_of_ne same]
    exact traced.named t'
  · subst same
    rw [Function.update_self]
    exact pending
  · rw [Function.update_of_ne same]
    exact traced.pending t'
  · subst same
    rw [Function.update_self]
    exact txn
  · rw [Function.update_of_ne same]
    exact traced.txn t'
  · subst same
    rw [Function.update_self]
    exact open_
  · rw [Function.update_of_ne same]
    exact traced.open_ t'

/-- A thread that has nothing open sees what is committed. -/
theorem Traced.visible (traced : Traced w own all) (idle : (own t).tables.isSome ∨ own t = .idle) :
    (∀ T, w.db.txn ≠ some (t,T)) ∧ w.db.visible t = w.db.committed := by
  have none : ∀ T, w.db.txn ≠ some (t,T) := by
    intro T held
    have writes := traced.txn t T held
    rcases idle with tables | idle
    · cases own_ : own t <;> simp [own_,Snapping.tables,Snapping.Writes] at tables writes
    · simp [idle,Snapping.Writes] at writes
  exact ⟨none,Db.visible_other none⟩

theorem Traced.read (traced : Traced w own all) (sane : Sane w.db.committed) :
    Traced w (Function.update own t ((own t).read (w.db.visible t))) all := by
  by_cases idle : (own t).tables.isSome ∨ own t = .idle
  swap
  · have same : (own t).read (w.db.visible t) = own t := by
      cases own_ : own t <;> simp [own_,Snapping.tables,Snapping.read] at idle ⊢
    rw [same,Function.update_eq_self]
    exact traced
  obtain ⟨none,seen⟩ := traced.visible idle
  have looks : (own t).read (w.db.visible t) = .looked w.db.committed := by
    rw [seen]
    cases own_ : own t <;> simp [own_,Snapping.tables,Snapping.read] at idle ⊢
  rw [looks]
  refine traced.update ?_ (by rintro _ _ ⟨⟩) (by rintro _ _ _ ⟨⟩) (fun T held => absurd held (none T)) (by simp)
  rintro _ ⟨⟩ row member p points
  obtain ⟨snap,there,same,_⟩ := sane.instance_snapshot row member p points
  exact records_iff.mpr ⟨snap,there,same⟩

theorem Traced.newId (traced : Traced w own all) (fresh : w.owner sid = none) :
    Traced { w with used := (sid,t) :: w.used } (Function.update own t ((own t).newId sid)) all := by
  have capturedWhole : Traced { w with used := (sid,t) :: w.used } own all := traced.frame rfl fun id t' => owner_cons fresh
  by_cases looks : (own t).tables.isSome
  swap
  · have same : (own t).newId sid = own t := by
      cases own_ : own t <;> simp [own_,Snapping.tables,Snapping.newId] at looks ⊢
    rw [same,Function.update_eq_self]
    exact capturedWhole
  obtain ⟨T,tables⟩ := Option.isSome_iff_exists.mp looks
  have names : (own t).newId sid = .named T sid := by
    cases own_ : own t <;> simp_all [Snapping.tables,Snapping.newId]
  obtain ⟨none,_⟩ := traced.visible (.inl looks)
  rw [names]
  refine capturedWhole.update ?_ ?_ (by rintro _ _ _ ⟨⟩) (fun T held => absurd held (none T)) (by simp)
  · rintro _ ⟨⟩
    exact traced.looked t T tables
  · rintro _ _ ⟨⟩
    refine ⟨by simp [World.owner],?_⟩
    intro iid member
    have owned := traced.owned iid sid member
    simp [fresh] at owned

/-- A capture is the last one. -/
theorem Traced.capture (traced : Traced w own all) (named : own t = .named T sid) (there : w.db.committed.HasInstance iid) :
    Traced w (Function.update own t ((own t).capture iid)) { all with captures := all.captures ++ [(iid,sid)] } := by
  obtain ⟨owned,new⟩ := traced.named t T sid named
  obtain ⟨none,_⟩ := traced.visible (t := t) (.inl (by rw [named]; rfl))
  have fresh : w.db.committed.records sid = false := by
    by_contra recorded
    obtain ⟨row,member,rfl⟩ := records_iff.mp (by simpa using recorded)
    obtain ⟨iid',captured⟩ := traced.sources row member
    exact new iid' captured
  have captured : (own t).capture iid = .captured iid ((T.instance? iid).bind (·.snapshot_id)) sid := by
    rw [named]
    rfl
  have after : ∀ t', t' ≠ t → Function.update own t ((own t).capture iid) t' = own t' :=
    fun t' other => Function.update_of_ne other _ _
  constructor
  · intro row member
    refine (traced.chained row member).congr rfl rfl rfl ?_ fun _ => id
    rw [recorded_append,recorded_nil [(iid,sid)],List.append_nil]
    intro sid' listed
    cases List.mem_singleton.mp listed
    exact fresh
  · intro snap member
    obtain ⟨iid',captured⟩ := traced.sources snap member
    exact ⟨iid',List.mem_append_left _ captured⟩
  · intro iid' sid' member
    rcases List.mem_append.mp member with old | new
    · exact traced.instances iid' sid' old
    · cases List.mem_singleton.mp new
      exact there
  · rw [List.map_append,List.nodup_append]
    refine ⟨traced.distinct,List.nodup_singleton _,?_⟩
    rintro sid' old _ last rfl
    obtain ⟨⟨iid',_⟩,member,rfl⟩ := List.mem_map.mp old
    cases List.mem_singleton.mp last
    exact new iid' member
  · intro iid' sid' member
    rcases List.mem_append.mp member with old | last
    · exact traced.owned iid' sid' old
    · cases List.mem_singleton.mp last
      rw [owned]
      rfl
  · intro t' T' tables
    by_cases same : t' = t
    · subst same
      rw [Function.update_self,captured] at tables
      cases tables
    · rw [after t' same] at tables
      exact traced.looked t' T' tables
  · intro t' T' sid' named'
    by_cases same : t' = t
    · subst same
      rw [Function.update_self,captured] at named'
      cases named'
    · rw [after t' same] at named'
      obtain ⟨owned',new'⟩ := traced.named t' T' sid' named'
      refine ⟨owned',?_⟩
      intro iid' member
      rcases List.mem_append.mp member with old | last
      · exact new' iid' old
      · cases List.mem_singleton.mp last
        exact same (Option.some.inj (owned'.symm.trans owned))
  · intro t' iid' parent' sid' pending
    by_cases same : t' = t
    · subst same
      rw [Function.update_self,captured] at pending
      cases pending
      refine ⟨owned,fresh,?_,⟨all.captures,[],rfl,fun _ _ member => by cases member⟩⟩
      intro p points
      obtain ⟨row,found,named_⟩ := Option.bind_eq_some_iff.mp points
      exact traced.looked t' T (by rw [named]; rfl) row (List.mem_of_find?_eq_some found) p named_
    · rw [after t' same] at pending
      obtain ⟨owned',fresh',known,before,later,split,unrecorded⟩ := traced.pending t' iid' parent' sid' pending
      refine ⟨owned',fresh',known,before,later ++ [(iid,sid)],by simp [split],?_⟩
      intro points sid'' member
      rcases List.mem_append.mp member with old | last
      · exact unrecorded points sid'' old
      · cases List.mem_singleton.mp last
        exact fresh
  · intro t' T' held
    by_cases same : t' = t
    · subst same
      exact absurd held (none T')
    · rw [after t' same]
      exact traced.txn t' T' held
  · intro t' iid' parent' sid' open_
    by_cases same : t' = t
    · subst same
      rw [Function.update_self,captured] at open_
      rcases open_ with open_ | open_ <;> cases open_
    · rw [after t' same] at open_
      exact traced.open_ t' iid' parent' sid' open_

/-- Thread `t` writes. The base of an instance that has a committed row stays. -/
theorem Traced.write (traced : Traced w own all) (free : ∀ t' T, w.db.txn = some (t',T) → t' = t) {g : Snapping}
    {all' : Lineage} (captures : all'.captures = all.captures)
    (base : ∀ iid, w.db.committed.HasInstance iid → all'.base iid = all.base iid) (tables : g.tables = none)
    (pending : g.pending = (own t).pending) (writes : g.Writes all'.base w.db.committed T') :
    Traced { w with db := { w.db with txn := some (t,T') } } (Function.update own t g) all' := by
  have after : ∀ t', t' ≠ t → Function.update own t g t' = own t' := fun t' other => Function.update_of_ne other _ _
  have waits : ∀ {t' iid parent sid}, Pending w all t' iid parent sid →
      Pending { w with db := { w.db with txn := some (t,T') } } all' t' iid parent sid :=
    fun pending => ⟨pending.owned,pending.fresh,pending.known,captures ▸ pending.later⟩
  constructor
  · intro row member
    refine (traced.chained row member).congr rfl rfl (base row.id ⟨row,member,rfl⟩) ?_ fun _ => id
    rw [captures]
  · exact captures ▸ traced.sources
  · exact captures ▸ traced.instances
  · exact captures ▸ traced.distinct
  · exact captures ▸ traced.owned
  · intro t' T tables'
    by_cases same : t' = t
    · subst same
      rw [Function.update_self,tables] at tables'
      cases tables'
    · rw [after t' same] at tables'
      exact traced.looked t' T tables'
  · intro t' T sid named
    by_cases same : t' = t
    · subst same
      rw [Function.update_self] at named
      subst named
      cases tables
    · rw [after t' same] at named
      exact captures ▸ traced.named t' T sid named
  · intro t' iid parent sid pending'
    by_cases same : t' = t
    · subst same
      rw [Function.update_self,pending] at pending'
      exact waits (traced.pending t' iid parent sid pending')
    · rw [after t' same] at pending'
      exact waits (traced.pending t' iid parent sid pending')
  · rintro t' T ⟨⟩
    rw [Function.update_self]
    exact writes
  · intro t' iid parent sid open_
    by_cases same : t' = t
    · exact same ▸ ⟨T',rfl⟩
    · rw [after t' same] at open_
      obtain ⟨T,held⟩ := traced.open_ t' iid parent sid open_
      exact absurd (free t' T held) same

/-- What a thread that has captured nothing sees extends what is committed. -/
theorem Traced.extends (traced : Traced w own all) (apart : (own t).Apart) :
    Extends all.base w.db.committed (w.db.visible t) := by
  by_cases holds : ∃ T, w.db.txn = some (t,T)
  · obtain ⟨T,held⟩ := holds
    have writes := traced.txn t T held
    rw [Db.visible_own held]
    cases own_ : own t <;> simp only [own_,Snapping.Apart,Snapping.Writes] at apart writes
    exact writes
  · rw [Db.visible_other fun T held => holds ⟨T,held⟩]
    exact Extends.refl _ _

theorem Extends.apply {base : Id → Option Id} {stmt : Stmt} (extends_ : Extends base T T')
    (includes : ∀ iid, T.HasInstance iid → T'.HasInstance iid)
    (apart : ∀ row, stmt ≠ .insertSnapshot row) (still : ∀ iid sid, stmt ≠ .setSnapshot iid sid) {T'' : Tables}
    (applied : stmt.apply T' = .ok T'') :
    Extends (rebased base stmt) T T'' := by
  cases stmt with
  | insertProject | insertRun =>
    simp only [Stmt.apply] at applied
    split at applied
    · cases applied
    · cases applied
      exact ⟨extends_.snapshots,extends_.instances⟩
  | insertSnapshot row => exact absurd rfl (apart row)
  | setSnapshot iid sid => exact absurd rfl (still iid sid)
  | accrue =>
    cases applied
    exact ⟨extends_.snapshots,extends_.instances⟩
  | setDestroyed iid =>
    cases applied
    refine ⟨extends_.snapshots,?_⟩
    intro row member
    obtain ⟨old,inside,changed⟩ := List.mem_map.mp member
    have kept : row.id = old.id ∧ row.snapshot_id = old.snapshot_id := by
      by_cases named : old.id = iid
      · rw [if_pos named] at changed
        exact changed ▸ ⟨rfl,rfl⟩
      · rw [if_neg named] at changed
        exact changed ▸ ⟨rfl,rfl⟩
    rw [kept.1,kept.2]
    exact extends_.instances old inside
  | insertInstance new =>
    simp only [Stmt.apply] at applied
    split at applied
    · cases applied
    rename_i fresh
    cases applied
    have absent : ¬ T'.HasInstance new.id := by
      rintro ⟨old,inside,named⟩
      exact fresh (List.any_eq_true.mpr ⟨old,inside,by simp [named]⟩)
    refine ⟨extends_.snapshots,?_⟩
    intro row member
    rcases List.mem_append.mp member with old | last
    · have other : row.id ≠ new.id := fun same => absent ⟨row,old,same⟩
      rw [show rebased base (.insertInstance new) row.id = base row.id from Function.update_of_ne other _ _]
      exact extends_.instances row old
    · cases List.mem_singleton.mp last
      exact .inr ⟨fun has => absent (includes _ has),by simp [rebased]⟩

theorem Snapping.execute_failed (g : Snapping) (stmt : Stmt) :
    (g.execute stmt false).tables = none ∧ (g.execute stmt false).pending = g.pending ∧
      (g.execute stmt false = g ∨ (g.execute stmt false = .wrote ∧ (g.tables.isSome ∨ g = .idle))) := by
  cases g <;> simp [Snapping.execute,Snapping.tables,Snapping.pending]

/-- What a thread that has captured and not inserted sees. -/
theorem Traced.captured (traced : Traced w own all) (captured : own t = .captured iid parent sid) :
    (w.db.visible t).snapshots = w.db.committed.snapshots ∧ (w.db.visible t).instances = w.db.committed.instances := by
  by_cases holds : ∃ T, w.db.txn = some (t,T)
  · obtain ⟨T,held⟩ := holds
    have writes := traced.txn t T held
    rw [captured] at writes
    rw [Db.visible_own held]
    exact writes
  · rw [Db.visible_other fun T held => holds ⟨T,held⟩]
    exact ⟨rfl,rfl⟩

/-- A refused statement leaves the thread with what it sees. -/
theorem Traced.refused (traced : Traced w own all) {stmt : Stmt} {error : Exn} (may : (own t).may (.db (.execute stmt)))
    (refused : stmt.apply (w.db.visible t) = .error error) :
    ((own t).execute stmt false).Writes all.base w.db.committed (w.db.visible t) := by
  cases own_ : own t with
  | idle | looked | named =>
    obtain ⟨_,seen⟩ := traced.visible (t := t) (by simp [own_,Snapping.tables])
    rw [seen]
    exact Extends.refl _ _
  | wrote => exact traced.extends (by rw [own_]; trivial)
  | captured iid parent sid =>
    have same : Snapping.execute stmt false (.captured iid parent sid) = .captured iid parent sid := by
      cases stmt <;> rfl
    rw [same]
    exact traced.captured own_
  | inserted | moved =>
    rw [own_] at may
    cases stmt with
    | setSnapshot => cases refused
    | insertSnapshot =>
      obtain ⟨_,same⟩ := may
      cases same
    | insertProject | insertRun | insertInstance | setDestroyed | accrue => cases may

theorem Traced.execute (traced : Traced w own all) (orderly : Orderly w) {stmt : Stmt} {outcome : Except Exn Unit}
    (may : (own t).may (.db (.execute stmt))) (ran : exec P t (.db (.execute stmt)) choice w = some (outcome,v)) :
    Traced v (Function.update own t ((own t).sees (.db (.execute stmt)) outcome)) (all.sees (.db (.execute stmt)) outcome) := by
  have unseen : ∀ error, all.sees (.db (.execute stmt)) (.error error) = all := fun _ => rfl
  obtain ⟨after,acts,rfl⟩ := exec_dbActs ran
  cases acts with
  | @fails _ error =>
    rw [unseen]
    obtain ⟨tables,pending,same | ⟨wrote,idle⟩⟩ := (own t).execute_failed stmt
    · have unchanged : Function.update own t ((own t).execute stmt false) = own := by rw [same,Function.update_eq_self]
      exact unchanged.symm ▸ traced
    · obtain ⟨none,_⟩ := traced.visible idle
      have wrote' : (own t).sees (.db (.execute stmt)) (.error error) = .wrote := wrote
      rw [wrote']
      exact traced.update (by rintro _ ⟨⟩) (by rintro _ _ ⟨⟩) (by rintro _ _ _ ⟨⟩) (fun T held => absurd held (none T)) (by simp)
  | refused free refused =>
    rw [unseen]
    obtain ⟨tables,pending,_⟩ := (own t).execute_failed stmt
    exact traced.write free rfl (fun _ _ => rfl) tables pending (traced.refused may refused)
  | @wrote _ T' free applied =>
    by_cases apart : (own t).Apart
    · -- rows are added that record no snapshot and move no pointer
      have wrote : (own t).execute stmt true = .wrote ∧ (own t).pending = none := by
        cases own_ : own t <;> simp [own_,Snapping.Apart,Snapping.execute,Snapping.pending] at apart ⊢
      have notInsert : ∀ row, stmt ≠ .insertSnapshot row := by
        rintro row rfl
        obtain ⟨iid,same⟩ := may
        rw [same] at apart
        exact apart
      have notSet : ∀ iid sid, stmt ≠ .setSnapshot iid sid := by
        rintro iid sid rfl
        obtain ⟨parent,same⟩ := may
        rw [same] at apart
        exact apart
      have includes : ∀ iid, w.db.committed.HasInstance iid → (w.db.visible t).HasInstance iid :=
        fun iid has => (orderly.db.visible t).2.hasInstance has
      have extends_ := (traced.extends apart).apply includes notInsert notSet applied
      have sees : (own t).sees (.db (.execute stmt)) (.ok ()) = .wrote := wrote.1
      rw [sees]
      refine traced.write free rfl ?_ rfl wrote.2.symm extends_
      intro iid has
      change rebased all.base stmt iid = all.base iid
      cases stmt with
      | insertInstance row =>
        have other : iid ≠ row.id := by
          rintro rfl
          obtain ⟨old,member,named⟩ := includes _ has
          simp only [Stmt.apply] at applied
          split at applied
          · cases applied
          · rename_i fresh
            exact fresh (List.any_eq_true.mpr ⟨old,member,by simp [named]⟩)
        exact Function.update_of_ne other _ _
      | insertProject | insertRun | insertSnapshot | setSnapshot | setDestroyed | accrue => rfl
    · cases stmt with
      | insertSnapshot row =>
        obtain ⟨iid,captured⟩ := may
        obtain ⟨snapshots,instances⟩ := traced.captured captured
        simp only [Stmt.apply] at applied
        split at applied
        · cases applied
        · cases applied
          refine traced.write free rfl (fun _ _ => rfl) ?_ ?_ ?_
          · simp [captured,Snapping.sees,Snapping.execute,Snapping.tables]
          · simp [captured,Snapping.sees,Snapping.execute,Snapping.pending]
          · rw [captured]
            exact ⟨row,rfl,rfl,by rw [snapshots],instances⟩
      | setSnapshot iid sid =>
        obtain ⟨parent,inserted⟩ := may
        obtain ⟨T,held⟩ := traced.open_ t iid parent sid (.inl inserted)
        have writes := traced.txn t T held
        rw [inserted] at writes
        obtain ⟨row,id,parent_,snapshots,instances⟩ := writes
        cases applied
        refine traced.write free rfl (fun _ _ => rfl) ?_ ?_ ?_
        · simp [inserted,Snapping.sees,Snapping.execute,Snapping.tables]
        · simp [inserted,Snapping.sees,Snapping.execute,Snapping.pending]
        · rw [inserted,Db.visible_own held]
          exact ⟨row,id,parent_,snapshots,by rw [instances]⟩
      | insertProject | insertRun | insertInstance | setDestroyed | accrue => exact absurd may apart

/-- The transaction of the thread has ended, and nothing became committed. -/
theorem Traced.close (traced : Traced w own all) (committed : v.db.committed = w.db.committed) (used : v.used = w.used)
    (none : ∀ T, v.db.txn ≠ some (t,T)) (others : ∀ t' T, t' ≠ t → (v.db.txn = some (t',T) ↔ w.db.txn = some (t',T))) :
    Traced v (Function.update own t .wrote) all := by
  have owner : ∀ id, v.owner id = w.owner id := fun id => by rw [World.owner,used,World.owner]
  have after : ∀ t', t' ≠ t → Function.update own t .wrote t' = own t' := fun t' other => Function.update_of_ne other _ _
  constructor
  · exact committed ▸ traced.chained
  · exact committed ▸ traced.sources
  · exact committed ▸ traced.instances
  · exact traced.distinct
  · exact fun iid sid member => owner sid ▸ traced.owned iid sid member
  · intro t' T tables
    by_cases same : t' = t
    · subst same
      rw [Function.update_self] at tables
      cases tables
    · rw [after t' same] at tables
      exact committed ▸ traced.looked t' T tables
  · intro t' T sid named
    by_cases same : t' = t
    · subst same
      rw [Function.update_self] at named
      cases named
    · rw [after t' same] at named
      exact owner sid ▸ traced.named t' T sid named
  · intro t' iid parent sid pending
    by_cases same : t' = t
    · subst same
      rw [Function.update_self] at pending
      cases pending
    · rw [after t' same] at pending
      exact (traced.pending t' iid parent sid pending).frame committed fun id t owned => (owner id).trans owned
  · intro t' T held
    by_cases same : t' = t
    · exact absurd (same ▸ held) (none T)
    · rw [after t' same,committed]
      exact traced.txn t' T ((others t' T same).mp held)
  · intro t' iid parent sid open_
    by_cases same : t' = t
    · subst same
      rw [Function.update_self] at open_
      rcases open_ with open_ | open_ <;> cases open_
    · rw [after t' same] at open_
      obtain ⟨T,held⟩ := traced.open_ t' iid parent sid open_
      exact ⟨T,(others t' T same).mpr held⟩

/-- A snapshot is captured once. -/
theorem Traced.captured_once (traced : Traced w own all) {iid' : Id} (first : (iid,sid) ∈ all.captures)
    (second : (iid',sid) ∈ all.captures) : iid = iid' :=
  congrArg Prod.fst (List.inj_on_of_nodup_map traced.distinct first second rfl)

/-- What a commit must keep about the snapshots that other threads have captured. -/
theorem Traced.commit (traced : Traced w own all) (held : w.db.txn = some (t,T)) (grows : Grows w.db.committed T)
    (chained : ∀ row ∈ T.instances, Chained all T row) (sources : ∀ snap ∈ T.snapshots, ∃ iid, (iid,snap.id) ∈ all.captures)
    (records : ∀ sid, w.db.committed.records sid = true → T.records sid = true)
    (pending : ∀ t' iid parent sid, t' ≠ t → Pending w all t' iid parent sid →
      T.records sid = false ∧ ((∃ row ∈ T.instances, row.id = iid ∧ row.snapshot_id = parent) →
        ∀ sid', (iid,sid') ∈ all.captures → T.records sid' = true →
          (∃ row ∈ w.db.committed.instances, row.id = iid ∧ row.snapshot_id = parent) ∧
            w.db.committed.records sid' = true)) :
    Traced { w with db := ⟨T,none⟩ } (Function.update own t .wrote) all := by
  have after : ∀ t', t' ≠ t → Function.update own t .wrote t' = own t' := fun t' other => Function.update_of_ne other _ _
  constructor
  · exact chained
  · exact sources
  · exact fun iid sid member => grows.hasInstance (traced.instances iid sid member)
  · exact traced.distinct
  · exact traced.owned
  · intro t' T' tables row member p points
    by_cases same : t' = t
    · subst same
      rw [Function.update_self] at tables
      cases tables
    · rw [after t' same] at tables
      exact records p (traced.looked t' T' tables row member p points)
  · intro t' T' sid named
    by_cases same : t' = t
    · subst same
      rw [Function.update_self] at named
      cases named
    · rw [after t' same] at named
      exact traced.named t' T' sid named
  · intro t' iid parent sid waits
    by_cases same : t' = t
    · subst same
      rw [Function.update_self] at waits
      cases waits
    · rw [after t' same] at waits
      have before := traced.pending t' iid parent sid waits
      obtain ⟨fresh,points⟩ := pending t' iid parent sid same before
      obtain ⟨earlier,later,split,unrecorded⟩ := before.later
      refine ⟨before.owned,fresh,fun p named => records p (before.known p named),earlier,later,split,?_⟩
      intro there sid' member
      by_contra recorded
      have captured : (iid,sid') ∈ all.captures := by
        rw [split]
        exact List.mem_append_right _ (List.mem_cons_of_mem _ member)
      obtain ⟨pointed,old⟩ := points there sid' captured (by simpa using recorded)
      exact absurd old (by simp [unrecorded pointed sid' member])
  · rintro t' T' ⟨⟩
  · intro t' iid parent sid open_
    by_cases same : t' = t
    · subst same
      rw [Function.update_self] at open_
      rcases open_ with open_ | open_ <;> cases open_
    · rw [after t' same] at open_
      obtain ⟨T',held'⟩ := traced.open_ t' iid parent sid open_
      exact absurd (congrArg Prod.fst (Option.some.inj (held'.symm.trans held))) same

theorem Traced.commit_apart (traced : Traced w own all) (held : w.db.txn = some (t,T)) (grows : Grows w.db.committed T)
    (extends_ : Extends all.base w.db.committed T) : Traced { w with db := ⟨T,none⟩ } (Function.update own t .wrote) all := by
  refine traced.commit held grows ?_ (extends_.snapshots ▸ traced.sources) (fun sid => (extends_.records sid).trans) ?_
  · intro row member
    rcases extends_.instances row member with ⟨old,there,id,pointer⟩ | ⟨new,pointer⟩
    · refine (traced.chained old there).congr id.symm pointer.symm rfl (recorded_congr fun sid _ => extends_.records sid) ?_
      rw [extends_.snapshots]
      exact fun _ there => there
    · have nothing : T.recorded all.captures row.id = [] :=
        recorded_nil _ fun sid captured => absurd (traced.instances _ _ captured) new
      constructor
      · rw [nothing]
        exact Linked.nil
      · rw [nothing]
        exact pointer
  · intro t' iid parent sid _ pending
    refine ⟨(extends_.records sid).trans pending.fresh,?_⟩
    rintro ⟨row,member,rfl,points⟩ sid' captured recorded
    rcases extends_.instances row member with ⟨old,there,id,pointer⟩ | ⟨new,_⟩
    · exact ⟨⟨old,there,id,pointer.trans points⟩,(extends_.records sid') ▸ recorded⟩
    · exact absurd (traced.instances _ _ captured) new

/-- The commit of a snapshot whose request finds the pointer of the instance as it read it. -/
theorem Traced.commit_moved (traced : Traced w own all) (sane : Sane w.db.committed) (held : w.db.txn = some (t,T))
    (grows : Grows w.db.committed T) (moved : own t = .moved iid parent sid)
    (unchanged : ∃ row ∈ w.db.committed.instances, row.id = iid ∧ row.snapshot_id = parent) :
    Traced { w with db := ⟨T,none⟩ } (Function.update own t .wrote) all := by
  have writes := traced.txn t T held
  rw [moved] at writes
  obtain ⟨snap,id,parent_,snapshots,instances⟩ := writes
  have mine := traced.pending t iid parent sid (by rw [moved]; rfl)
  obtain ⟨before,after,split,unrecorded⟩ := mine.later
  have there : (iid,sid) ∈ all.captures := by
    rw [split]
    exact List.mem_append_right _ List.mem_cons_self
  have records : ∀ s, T.records s = (w.db.committed.records s || decide (sid = s)) := by
    intro s
    simp only [Tables.records,snapshots,List.any_append,List.any_cons,List.any_nil,Bool.or_false,id]
  have others : ∀ iid' s, iid' ≠ iid → (iid',s) ∈ all.captures → T.records s = w.db.committed.records s := by
    intro iid' s other captured
    have apart : sid ≠ s := by
      rintro rfl
      exact other (traced.captured_once captured there)
    simp [records,apart]
  have grown : ∀ row ∈ w.db.committed.snapshots, row ∈ T.snapshots := by
    rw [snapshots]
    exact fun row member => List.mem_append_left _ member
  have rows : ∀ row ∈ T.instances, ∃ old ∈ w.db.committed.instances, old.id = row.id ∧
      ((row.id ≠ iid ∧ row.snapshot_id = old.snapshot_id) ∨
        (row.id = iid ∧ row.snapshot_id = some sid ∧ old.snapshot_id = parent)) := by
    intro row member
    rw [instances] at member
    obtain ⟨old,inside,changed⟩ := List.mem_map.mp member
    refine ⟨old,inside,?_⟩
    by_cases named : old.id = iid
    · rw [if_pos named] at changed
      subst changed
      obtain ⟨row,pointed,same,points⟩ := unchanged
      have equal : old = row := List.inj_on_of_nodup_map sane.distinct inside pointed (named.trans same.symm)
      exact ⟨rfl,.inr ⟨named,rfl,equal ▸ points⟩⟩
    · rw [if_neg named] at changed
      subst changed
      exact ⟨rfl,.inl ⟨named,rfl⟩⟩
  refine traced.commit held grows ?_ ?_ (fun s old => by simp [records,old]) ?_
  · intro row member
    obtain ⟨old,inside,same,⟨other,pointer⟩ | ⟨own_,pointer,points⟩⟩ := rows row member
    · refine (traced.chained old inside).congr same.symm pointer rfl (recorded_congr fun s captured => ?_) grown
      exact others old.id s (same ▸ other) captured
    · -- the new snapshot comes after all that are recorded
      have linked := (traced.chained old inside).linked
      have last := (traced.chained old inside).last
      rw [same,own_] at linked last
      have distinct := traced.distinct
      rw [split,List.map_append,List.map_cons,List.nodup_append] at distinct
      have earlier : ∀ s, (iid,s) ∈ before → sid ≠ s := by
        rintro s member rfl
        exact distinct.2.2 _ (List.mem_map_of_mem member) _ List.mem_cons_self rfl
      have later : ∀ s, (iid,s) ∈ after → sid ≠ s := by
        rintro s member rfl
        exact (List.nodup_cons.mp distinct.2.1).1 (List.mem_map_of_mem member)
      have old_ : w.db.committed.recorded all.captures iid = w.db.committed.recorded before iid := by
        rw [split,List.append_cons,recorded_append,recorded_nil after (unrecorded unchanged),List.append_nil,
          recorded_append,recorded_nil [(iid,sid)],List.append_nil]
        intro s listed
        cases List.mem_singleton.mp listed
        exact mine.fresh
      have single : T.recorded [(iid,sid)] iid = [sid] := by simp [Tables.recorded,records]
      have new : T.recorded all.captures iid = w.db.committed.recorded all.captures iid ++ [sid] := by
        rw [old_,split,List.append_cons,recorded_append,recorded_append,single]
        rw [recorded_nil after fun s member => by simp [records,later s member,unrecorded unchanged s member]]
        rw [List.append_nil,recorded_congr (T := w.db.committed) fun s member => by simp [records,earlier s member]]
      constructor
      · rw [own_,new]
        refine (linked.mono ?_).append ⟨snap,by simp [snapshots],id,?_⟩
        · rintro s p ⟨row,member,named⟩
          exact ⟨row,grown row member,named⟩
        · rw [parent_,← points]
          exact last
      · rw [own_,new,Forest.tip_append]
        exact pointer
  · intro row member
    rw [snapshots] at member
    rcases List.mem_append.mp member with old | last
    · exact traced.sources row old
    · rw [List.mem_singleton.mp last,id]
      exact ⟨iid,there⟩
  · intro t' iid' parent' sid' other pending
    have apart : sid ≠ sid' := by
      rintro rfl
      exact other (Option.some.inj (pending.owned.symm.trans mine.owned))
    refine ⟨by simp [records,apart,pending.fresh],?_⟩
    rintro ⟨row,member,rfl,points⟩ s captured recorded
    obtain ⟨old,inside,same,⟨foreign,pointer⟩ | ⟨own_,pointer,_⟩⟩ := rows row member
    · exact ⟨⟨old,inside,same,pointer.symm.trans points⟩,(others row.id s foreign captured) ▸ recorded⟩
    · have known := pending.known sid (points.symm.trans pointer)
      simp [mine.fresh] at known

end
/-! ## Runs -/

abbrev LineagePool := FollowedPool Snapping Lineage

/-- A request that commits a snapshot finds the pointer of the instance as it read it at its start: no other
    snapshot of the instance has been committed in between. -/
def unmoved (pool : LineagePool) : Action Req Choice Move → Bool
  | .call t .ok =>
    match pool.about t, pool.world.2.own t with
    | some (.db .commit), .moved iid parent _ =>
      decide ((pool.world.1.db.committed.instance? iid).map (·.snapshot_id) = some parent)
    | _, _ => true
  | _ => true

section
variable {t : Nat} {w v : World} {op : Op} {choice : Choice} {outcome : Except Exn op.Res} {own : Nat → Snapping}
  {all : Lineage}

theorem Traced.call (traced : Traced w own all) (orderly : Orderly w) (permitted : Permitted t op w) (may : (own t).may op)
    (unmoved : op = .db .commit → (∃ value, outcome = .ok value) → ∀ iid parent sid, own t = .moved iid parent sid →
      ∃ row ∈ w.db.committed.instances, row.id = iid ∧ row.snapshot_id = parent)
    (ran : exec P t op choice w = some (outcome,v)) :
    Traced v (Function.update own t ((own t).sees op outcome)) (all.sees op outcome) := by
  by_cases aside : op.isLineage = false
  · rw [Snapping.sees_aside aside,Lineage.sees_aside all aside,Function.update_eq_self]
    have db : op.kind ≠ .db := by
      intro db
      obtain ⟨o,rfl⟩ := db_of_kind db
      cases aside
    exact traced.frame (exec_db db ran) fun id t' => exec_owner ran
  cases op with
  | fs | s3 | mem => exact absurd rfl aside
  | sys o =>
    cases o with
    | newId =>
      obtain ⟨sid,rfl,fresh,rfl⟩ := exec_newId ran
      exact traced.newId fresh
    | token | now | sleep | beforeDeadline | isDir | follow => exact absurd rfl aside
  | vm o =>
    cases o with
    | create iid snap mem =>
      obtain ⟨T,sid,named,rfl⟩ := may
      have capturedWhole : Traced v own all := traced.frame (exec_db (by simp [Op.kind,VmOp.kind]) ran) fun id t' => exec_owner ran
      cases outcome with
      | ok value =>
        have there : v.db.committed.HasInstance iid := by
          rw [exec_db (by simp [Op.kind,VmOp.kind]) ran]
          exact permitted.1
        exact capturedWhole.capture named there
      | error error =>
        have unchanged : Function.update own t ((own t).sees (.vm (.create iid (.snap sid .vmstate) mem)) (.error error)) = own :=
          Function.update_eq_self _ _
        rw [unchanged]
        exact capturedWhole
    | spawn | start | load | pause | resume | kill | connect | receive => exact absurd rfl aside
  | db o =>
    cases o with
    | execute stmt => exact traced.execute orderly may ran
    | read =>
      obtain ⟨after,acts,rfl⟩ := exec_dbActs ran
      cases acts with
      | fails =>
        rw [show Function.update own t ((own t).sees (.db .read) (.error _)) = own from Function.update_eq_self _ _]
        exact traced
      | read => exact traced.read orderly.db.committed
    | rollback =>
      obtain ⟨after,acts,rfl⟩ := exec_dbActs ran
      cases acts with
      | fails =>
        rw [show Function.update own t ((own t).sees (.db .rollback) (.error _)) = own from Function.update_eq_self _ _]
        exact traced
      | rolled held =>
        refine traced.close rfl rfl (by rintro T ⟨⟩) ?_
        intro t' T other
        refine ⟨by rintro ⟨⟩,?_⟩
        intro held'
        exact absurd (congrArg Prod.fst (Option.some.inj (held'.symm.trans held))) other
      | idle none => exact traced.close rfl rfl none fun _ _ _ => Iff.rfl
    | commit =>
      obtain ⟨after,acts,rfl⟩ := exec_dbActs ran
      cases acts with
      | fails =>
        rw [show Function.update own t ((own t).sees (.db .commit) (.error _)) = own from Function.update_eq_self _ _]
        exact traced
      | unchanged none => exact traced.close rfl rfl none fun _ _ _ => Iff.rfl
      | committed held =>
        have grows := (orderly.db.written _ _ held).2
        rcases may with apart | ⟨iid,parent,sid,moved⟩
        · refine traced.commit_apart held grows ?_
          have seen := traced.extends apart
          rwa [Db.visible_own held] at seen
        · exact traced.commit_moved orderly.db.committed held grows moved (unmoved rfl ⟨_,rfl⟩ iid parent sid moved)

theorem Traced.reboot (traced : Traced w own all) : Traced w.reboot (fun _ => .idle) all where
  chained := traced.chained
  sources := traced.sources
  instances := traced.instances
  distinct := traced.distinct
  owned := traced.owned
  looked := by rintro t T ⟨⟩
  named := by rintro t T sid ⟨⟩
  pending := by rintro t iid parent sid ⟨⟩
  txn := by rintro t T ⟨⟩
  open_ := by simp

theorem Traced.start {w : World} (fresh : w.Fresh) : Traced w (fun _ => .idle) ⟨[],fun _ => none⟩ where
  chained := by simp [fresh.instances]
  sources := by simp [fresh.snapshots]
  instances := by simp
  distinct := List.nodup_nil
  owned := by simp
  looked := by rintro t T ⟨⟩
  named := by rintro t T sid ⟨⟩
  pending := by rintro t iid parent sid ⟨⟩
  txn := by simp [fresh.idle]
  open_ := by simp

end

/-- In every run in which each snapshot request finds the pointer of its instance at its commit as it read it
    at its start, the recorded snapshots of every instance are a chain in the order in which their images
    were captured, from the snapshot that the instance was inserted with, and the instance points to the last
    of them; and every recorded snapshot was captured. -/
theorem lineage_chain (P : Platform) {w : World} (fresh : w.Fresh) {pool : LineagePool}
    (reached : (snapping.machine (daemon P)).Reach (fun pool action => unmoved pool action)
      ⟨(w,snapping.start ⟨[],fun _ => none⟩),[]⟩ pool) :
    (∀ row ∈ pool.world.1.db.committed.instances, Chained pool.world.2.all pool.world.1.db.committed row) ∧
      ∀ snap ∈ pool.world.1.db.committed.snapshots, ∃ iid, (iid,snap.id) ∈ pool.world.2.all.captures := by
  have kept : Traced pool.world.1 pool.world.2.own pool.world.2.all := by
    refine (follow (P := P) (k := snapping) (Q := fun _ _ _ _ => True)
      (J := fun pool => Traced pool.world.1 pool.world.2.own pool.world.2.all) ?_ ?_ ?_ ?_ ?_
      (fresh.follows _) (Traced.start fresh) reached).2
    · intro pool req _
      exact req.snapping.consequence (fun _ _ first => first) fun _ _ _ _ => trivial
    · exact fun _ _ _ _ traced => traced
    · intro pool t choice req op next outcome v allowed found follows _ permitted may ran traced
      refine traced.call follows.inv.1 permitted may ?_ ran
      rintro rfl ⟨value,rfl⟩ iid parent sid moved
      have returned : choice = .ok := by cases choice <;> first | rfl | cases ran
      subst returned
      have about : pool.about t = some (.db .commit) := by simp [Pool.about,found]
      simp only [unmoved,about,moved,decide_eq_true_eq,Option.map_eq_some_iff] at allowed
      obtain ⟨row,found,points⟩ := allowed
      exact ⟨row,List.mem_of_find?_eq_some found,by simpa using List.find?_some found,points⟩
    · intro pool move v _ _ moved traced
      exact traced.frame moved.db fun id t owned => by rw [World.owner,moved.used]; exact owned
    · exact fun pool _ _ traced => traced.reboot
  exact ⟨kept.chained,kept.sources⟩

/-- A run of two snapshots of one instance, one after the other. -/
def snapshotTwice : List (Action Req Choice Move) :=
  oneSnapshot ++ .env (.guestMemory "i" [9] [8]) ::
    .request (.snapshot_instance "i" .null) :: calls 2 (takeSnapshot "s'" ++ recordSnapshot)

theorem lineage_chain_two : ∃ pool : LineagePool,
    (snapping.machine (daemon .plain)).run unmoved snapshotTwice
      ⟨(World.initial defaultProject false,snapping.start ⟨[],fun _ => none⟩),[]⟩ = some pool ∧
    pool.world.2.all.captures = [("i","s"),("i","s'")] ∧
    ∃ row ∈ pool.world.1.db.committed.instances, Chained pool.world.2.all pool.world.1.db.committed row := by
  have seen : ((snapping.machine (daemon .plain)).run unmoved snapshotTwice
      ⟨(World.initial defaultProject false,snapping.start ⟨[],fun _ => none⟩),[]⟩).map (fun pool : LineagePool =>
        (pool.world.2.all.captures,pool.world.1.db.committed.instances)) =
      some ([("i","s"),("i","s'")],[⟨"i","r",some "s'",.RUNNING,"genesis",0⟩]) := by decide +kernel
  obtain ⟨pool,ran,same⟩ := Option.map_eq_some_iff.mp seen
  simp only [Prod.mk.injEq] at same
  obtain ⟨captures,instances⟩ := same
  have reached := Machine.reach_of_run (snapping.machine (daemon .plain))
    (fun (pool : LineagePool) action (passes : unmoved pool action) => passes) ran
  have listed : (⟨"i","r",some "s'",.RUNNING,"genesis",0⟩ : InstanceRow) ∈ pool.world.1.db.committed.instances := by
    simp [instances]
  exact ⟨pool,ran,captures,_,listed,
    (lineage_chain .plain (World.initial_fresh defaultProject false) reached).1 _ listed⟩

/-- Every request has returned. -/
def LineagePool.returned (pool : LineagePool) : Bool :=
  pool.threads.all fun thread => match thread.prog with
    | .ret _ => true
    | _ => false

/-- Two snapshots of one instance overlap: both read the row before the first is committed, and the one that
    is captured first commits last. -/
def overlappingSnapshots : List (Action Req Choice Move) :=
  .request (.create_run "p" .null) :: calls 0 (createRun "r" "i" [7] [8]) ++
    .request (.snapshot_instance "i" .null) :: calls 1 (takeSnapshot "s") ++ .env (.guestMemory "i" [9] [8]) ::
    .request (.snapshot_instance "i" .null) :: calls 2 (takeSnapshot "s'" ++ recordSnapshot) ++ calls 1 recordSnapshot

/-- Both requests succeed, neither snapshot is the parent of the other, and the instance points to the one that
    was captured first. -/
theorem lineage_lost : ∃ pool : LineagePool,
    (snapping.machine (daemon .plain)).Reach (fun _ _ => True)
      ⟨(World.initial defaultProject false,snapping.start ⟨[],fun _ => none⟩),[]⟩ pool ∧
    pool.returned = true ∧ pool.world.2.all.captures = [("i","s"),("i","s'")] ∧
    pool.world.1.db.committed.snapshots.map (fun row => (row.id,row.parent_id)) = [("s'",none),("s",none)] ∧
    pool.world.1.db.committed.instances.map (fun row => (row.id,row.snapshot_id)) = [("i",some "s")] := by
  have seen : ((snapping.machine (daemon .plain)).run (fun _ _ => true) overlappingSnapshots
      ⟨(World.initial defaultProject false,snapping.start ⟨[],fun _ => none⟩),[]⟩).map (fun pool : LineagePool =>
        decide (pool.returned = true ∧ pool.world.2.all.captures = [("i","s"),("i","s'")] ∧
          pool.world.1.db.committed.snapshots.map (fun row => (row.id,row.parent_id)) = [("s'",none),("s",none)] ∧
          pool.world.1.db.committed.instances.map (fun row => (row.id,row.snapshot_id)) = [("i",some "s")])) =
      some true := by decide +kernel
  obtain ⟨pool,ran,same⟩ := Option.map_eq_some_iff.mp seen
  exact ⟨pool,Machine.reach_of_run _ (fun _ _ _ => trivial) ran,of_decide_eq_true same⟩

end Klados
