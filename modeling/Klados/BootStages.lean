import Klados.Follow

/-!
How far each request has got with the instance that it boots or destroys: `BootStage` follows
`create_run`, `fork_snapshot` and `destroy_instance` from the new id to the entry in `LIVE`, and
from the removed entry to the committed row. `Req.manned` says that every request keeps to that
order, however its calls fail.
-/
namespace Klados
open Effects
open Prog (Only)

variable {P : Platform}

/-- A new id: just made, named by a row that is written, or named by a committed row. -/
inductive Birth
  | made
  | written
  | recorded
  deriving DecidableEq

/-- An instance that is not yet in `LIVE`. -/
structure Booting where
  iid : Id
  birth : Birth
  deriving DecidableEq

/-- An instance that was taken out of `LIVE`: its VM is killed, its row is marked. -/
structure Closing where
  iid : Id
  halted : Bool
  marked : Bool
  deriving DecidableEq

/-- What a request is doing. `children` are in `LIVE` and have no committed row yet; `gone` has been
    destroyed. -/
structure BootStage where
  booting : Option Booting
  children : List Id
  closing : Option Closing
  gone : Option Id
  deriving DecidableEq

namespace BootStage

/-- A call that fails ends a boot behind a committed row, and a removal. -/
def fail (g : BootStage) : BootStage :=
  { g with booting := g.booting.filter (·.birth ≠ .recorded), closing := none }

def sees : (op : Op) → Except Exn op.Res → BootStage → BootStage
  | .sys .newId, .ok id, g => { g with booting := some ⟨id,.made⟩ }
  | .mem (.liveSet iid), .ok _, g =>
    { g with booting := none, children := if g.booting = some ⟨iid,.made⟩ then g.children ++ [iid] else g.children }
  | .mem (.livePop iid), .ok live, g => { g with closing := some ⟨iid,!live,false⟩ }
  | .vm (.kill iid), .ok _, g =>
    { g with closing := g.closing.map fun c => if c.iid = iid then { c with halted := true } else c }
  | .db (.execute (.insertInstance row)), .ok _, g =>
    { g with booting := g.booting.map fun b => if b.iid = row.id then { b with birth := .written } else b }
  | .db (.execute (.setDestroyed iid)), .ok _, g =>
    { g with closing := g.closing.map fun c => if c.iid = iid then { c with marked := true } else c }
  | .db .commit, .ok _, g =>
    { booting := g.booting.map fun b => if b.birth = .written then { b with birth := .recorded } else b,
      children := [], closing := none, gone := (g.closing.filter fun c => c.halted && c.marked).map (·.iid) }
  | .db .rollback, .ok _, g => { g with booting := none, children := [], closing := none }
  | _, .error _, g => g.fail
  | _, _, g => g

/-- Nothing is begun that a row shows. -/
structure Clear (g : BootStage) : Prop where
  booting : ∀ b, g.booting = some b → b.birth = .made
  closing : g.closing = none

/-- Nothing is begun behind a committed row. -/
structure Free (g : BootStage) : Prop where
  booting : ∀ b, g.booting = some b → b.birth ≠ .recorded
  closing : g.closing = none

def may (g : BootStage) : Op → Prop
  | .vm (.spawn iid) | .vm (.start iid) | .vm (.load iid _ _) => ∃ b, g.booting = some b ∧ b.iid = iid
  | .mem (.liveSet iid) => ∃ b, g.booting = some b ∧ b.iid = iid ∧ b.birth ≠ .written
  | .mem (.livePop _) => g = ⟨none,[],none,none⟩
  | .sys .newId => g.Clear
  | .db (.execute (.insertInstance row)) =>
    g.closing = none ∧ (g.booting = some ⟨row.id,.made⟩ ∨ (g.booting = none ∧ row.id ∈ g.children))
  | .db .commit => ∀ c, g.closing = some c → c.marked = true
  | .db .rollback => g.Free
  | _ => True

end BootStage

def manning : Track sig Exn World Move BootStage Unit where
  first := ⟨none,[],none,none⟩
  next _ op outcome _ _ g := g.sees op outcome
  notes _ _ _ _ _ _ := ()
  moves _ _ _ := ()
  reboots _ := ()
  may _ g op := g.may op

abbrev ManningPool := FollowedPool BootStage Unit

theorem manning_self {t : Nat} {op : Op} {outcome : Except Exn op.Res} {w v : World} {seen : Watched BootStage Unit} :
    (manning.sees t op outcome w v seen).own t = (seen.own t).sees op outcome := Track.sees_self

/-- An operation that takes part in a boot or a removal. -/
def Op.isManning : Op → Bool
  | .sys .newId | .mem (.liveSet _) | .mem (.livePop _) | .vm (.kill _) | .vm (.spawn _) | .vm (.start _)
  | .vm (.load _ _ _) | .db (.execute (.insertInstance _)) | .db (.execute (.setDestroyed _)) | .db .commit
  | .db .rollback => true
  | _ => false

/-- The program takes no part in a boot or a removal. -/
abbrev Unmanned {α : Type} (program : KProg α) : Prop := program.Only fun op : Op => op.isManning = false

section
variable {t : Nat} {g g₀ : BootStage} {α β : Type} {op : Op}

theorem BootStage.Clear.free (clear : g.Clear) : g.Free :=
  ⟨fun b some same => by simp [clear.booting b some] at same,clear.closing⟩

theorem BootStage.Free.fail (free : g.Free) : g.fail = g := by
  obtain ⟨booting,children,closing,gone⟩ := g
  have none : closing = none := free.closing
  subst none
  cases booting with
  | none => rfl
  | some b =>
    have kept : b.birth ≠ .recorded := free.booting b rfl
    simp [BootStage.fail,kept]

theorem BootStage.sees_error (error : Exn) : g.sees op (.error error) = g.fail := by
  unfold BootStage.sees
  split <;> first | rfl | simp_all

theorem BootStage.sees_unmanned {value : op.Res} (other : op.isManning = false) : g.sees op (.ok value) = g := by
  unfold BootStage.sees
  split <;> simp_all [Op.isManning]

/-- A boot that is under way after a call was so before, unless the call made the id. -/
theorem BootStage.sees_booting {outcome : Except Exn op.Res} (notNew : op ≠ .sys .newId) {b : Booting}
    (after : (g.sees op outcome).booting = some b) : ∃ b', g.booting = some b' ∧ b'.iid = b.iid := by
  have mapped : ∀ {change : Booting → Booting}, (∀ b', (change b').iid = b'.iid) → g.booting.map change = some b →
      ∃ b', g.booting = some b' ∧ b'.iid = b.iid := by
    intro change same some
    obtain ⟨b',before,rfl⟩ := Option.map_eq_some_iff.mp some
    exact ⟨b',before,(same b').symm⟩
  unfold BootStage.sees at after
  split at after
  · exact absurd rfl notNew
  · cases after
  · exact ⟨b,after,rfl⟩
  · exact ⟨b,after,rfl⟩
  · refine mapped (fun b' => ?_) after
    split <;> rfl
  · exact ⟨b,after,rfl⟩
  · refine mapped (fun b' => ?_) after
    split <;> rfl
  · cases after
  · exact ⟨b,(Option.filter_eq_some_iff.mp after).1,rfl⟩
  · exact ⟨b,after,rfl⟩

/-- A removal that is under way after a call was so before, unless the call is the removal. -/
theorem BootStage.sees_closing {outcome : Except Exn op.Res} (notPop : ∀ iid, op ≠ .mem (.livePop iid)) {c : Closing}
    (after : (g.sees op outcome).closing = some c) : (∃ value, outcome = .ok value) ∧ op ≠ .db .commit ∧ op ≠ .db .rollback ∧
      ∃ c', g.closing = some c' ∧ c'.iid = c.iid ∧ (c.halted → c'.halted ∨ op = .vm (.kill c.iid)) ∧
        (c.marked → c'.marked ∨ op = .db (.execute (.setDestroyed c.iid))) := by
  unfold BootStage.sees at after
  split at after
  · exact ⟨⟨_,rfl⟩,by simp,by simp,c,after,rfl,.inl,.inl⟩
  · exact ⟨⟨_,rfl⟩,by simp,by simp,c,after,rfl,.inl,.inl⟩
  · exact absurd rfl (notPop _)
  · obtain ⟨c',before,rfl⟩ := Option.map_eq_some_iff.mp after
    refine ⟨⟨_,rfl⟩,by simp,by simp,c',before,?_⟩
    split
    · rename_i same
      exact ⟨rfl,fun _ => .inr (same ▸ rfl),.inl⟩
    · exact ⟨rfl,.inl,.inl⟩
  · exact ⟨⟨_,rfl⟩,by simp,by simp,c,after,rfl,.inl,.inl⟩
  · obtain ⟨c',before,rfl⟩ := Option.map_eq_some_iff.mp after
    refine ⟨⟨_,rfl⟩,by simp,by simp,c',before,?_⟩
    split
    · rename_i same
      exact ⟨rfl,.inl,fun _ => .inr (same ▸ rfl)⟩
    · exact ⟨rfl,.inl,.inl⟩
  · cases after
  · cases after
  · cases after
  · rename_i notCommit notRollback notError
    cases outcome with
    | error error => exact (notError error rfl).elim
    | ok value =>
      refine ⟨⟨value,rfl⟩,?_,?_,c,after,rfl,.inl,.inl⟩
      · rintro rfl
        exact notCommit value rfl .rfl
      · rintro rfl
        exact notRollback value rfl .rfl

/-- What is gone after a call was gone before, or the call committed the mark of a killed VM. -/
theorem BootStage.sees_gone {outcome : Except Exn op.Res} {iid : Id} (after : (g.sees op outcome).gone = some iid) :
    g.gone = some iid ∨ (op = .db .commit ∧ (∃ value, outcome = .ok value) ∧
      ∃ c, g.closing = some c ∧ c.iid = iid ∧ c.halted = true ∧ c.marked = true) := by
  unfold BootStage.sees at after
  split at after
  case h_7 =>
    obtain ⟨c,kept,named⟩ := Option.map_eq_some_iff.mp after
    obtain ⟨before,both⟩ := Option.filter_eq_some_iff.mp kept
    simp only [Bool.and_eq_true] at both
    exact .inr ⟨rfl,⟨_,rfl⟩,c,before,named,both.1,both.2⟩
  all_goals exact .inl after

theorem BootStage.may_unmanned (other : op.isManning = false) : g.may op := by
  unfold BootStage.may
  split <;> first | cases other | trivial

/-- A part that boots and removes nothing changes nothing, unless something is begun. -/
theorem unmanned_keeps (free : g₀.Free) (other : op.isManning = false) : manning.Keeps t (· = g₀) op := by
  rintro g rfl
  refine ⟨BootStage.may_unmanned other,?_⟩
  intro outcome w v
  have same : g.sees op outcome = g := by
    cases outcome with
    | ok value => exact BootStage.sees_unmanned other
    | error error => exact (BootStage.sees_error error).trans free.fail
  exact same

theorem unmanned_bind {program : KProg α} {rest : α → KProg β} {e : BootStage → Prop} {q : β → BootStage → Prop} (free : g₀.Free)
    (raised : e g₀) (other : Unmanned program)
    (onward : ∀ value, Triple (manning.rules (daemon P)) t (Track.At t (· = g₀)) (rest value) (Track.Leaves t e q)) :
    Triple (manning.rules (daemon P)) t (Track.At t (· = g₀)) (program >>= rest) (Track.Leaves t e q) :=
  Track.keeps_bind (Only.mono (fun _ => unmanned_keeps free) other) (by rintro g rfl; exact raised) onward

/-- One call, which fails or leaves the given value. -/
theorem manned_call {op : Op} {h : op.Res → BootStage} (may : g₀.may op) (sees : ∀ value, g₀.sees op (.ok value) = h value) :
    Triple (manning.rules (daemon P)) t (Track.At t (· = g₀)) (Prog.perform (S := sig) op)
      (Track.Leaves t (· = g₀.fail) fun value => (· = h value)) := by
  refine Track.call_triple (k := manning) (p := (· = g₀)) (r := fun (value : op.Res) g => g = h value) ?_ ?_ ?_
  · rintro g rfl
    exact may
  · rintro _ value w v g _ rfl
    exact sees value
  · rintro _ error w v g _ rfl
    exact BootStage.sees_error error

theorem manned_bind {op : Op} {h : op.Res → BootStage} {rest : op.Res → KProg β} {e : BootStage → Prop} {q : β → BootStage → Prop}
    (may : g₀.may op) (sees : ∀ value, g₀.sees op (.ok value) = h value) (raised : e g₀.fail)
    (onward : ∀ value, Triple (manning.rules (daemon P)) t (Track.At t (· = h value)) (rest value) (Track.Leaves t e q)) :
    Triple (manning.rules (daemon P)) t (Track.At t (· = g₀)) (Prog.perform (S := sig) op >>= rest) (Track.Leaves t e q) :=
  Track.seq (Track.Leaves.mono (manned_call may sees) (fun _ same => same) (fun _ _ same => same)
    (by rintro _ rfl; exact raised)) onward

/-- The part changes nothing and fails as its calls do. -/
def Steady (P : Platform) (t : Nat) (g₀ : BootStage) (program : KProg α) : Prop :=
  Triple (manning.rules (daemon P)) t (Track.At t (· = g₀)) program (Track.Leaves t (· = g₀.fail) fun _ => (· = g₀))

theorem Steady.call {op : Op} (other : op.isManning = false) : Steady P t g₀ (Prog.perform (S := sig) op) :=
  manned_call (BootStage.may_unmanned other) fun _ => BootStage.sees_unmanned other

theorem Steady.bind {program : KProg α} {rest : α → KProg β} (first : Steady P t g₀ program)
    (onward : ∀ value, Steady P t g₀ (rest value)) : Steady P t g₀ (program >>= rest) := Track.seq first onward

theorem Steady.ret (value : α) : Steady P t g₀ (.ret value) := Track.ret_triple fun _ same => same

theorem Steady.when {condition : Bool} {body : KProg Unit} (runs : Steady P t g₀ body) :
    Steady P t g₀ (Prog.when condition body) := by
  cases condition
  · exact Steady.ret ()
  · exact runs

theorem Steady.seq {program : KProg α} {rest : α → KProg β} {e : BootStage → Prop} {q : β → BootStage → Prop}
    (steady : Steady P t g₀ program) (raised : e g₀.fail)
    (onward : ∀ value, Triple (manning.rules (daemon P)) t (Track.At t (· = g₀)) (rest value) (Track.Leaves t e q)) :
    Triple (manning.rules (daemon P)) t (Track.At t (· = g₀)) (program >>= rest) (Track.Leaves t e q) :=
  Track.seq (Track.Leaves.mono steady (fun _ same => same) (fun _ _ same => same) (by rintro _ rfl; exact raised)) onward

/-- Whatever is raised inside, the rollback leaves nothing begun. -/
theorem connection_manned {body : KProg α} {p : BootStage → Prop} {q : α → BootStage → Prop}
    (inside : Triple (manning.rules (daemon P)) t (Track.At t p) body (Track.Leaves t BootStage.Free q)) :
    Triple (manning.rules (daemon P)) t (Track.At t p) (connection body) (Track.Leaves t BootStage.Clear q) := by
  refine Track.catching inside fun error => ?_
  refine Track.call_bind (r := fun _ => BootStage.Clear) (fun _ free => free) ?_ ?_ fun _ => ?_
  · intro _ _ w v g _ free
    exact ⟨by rintro b ⟨⟩,rfl⟩
  · exact fun _ _ w v g ran _ => absurd ran (rollback_returns (P := P))
  · exact Track.raise_triple fun _ clear => clear

/-! ## The requests -/

theorem Uses.unmanned {kinds : List Kind} {program : KProg α} (uses : Uses kinds program)
    (apart : ∀ kind ∈ kinds, kind ∈ ([.fs,.disk,.s3,.store,.agent,.capture] : List Kind)) : Unmanned program := by
  refine Only.mono ?_ uses
  intro op listed
  have kind := apart op.kind listed
  cases op with
  | db o => simp [Op.kind] at kind
  | sys o => simp [Op.kind] at kind
  | mem o => cases o <;> first | rfl | simp [Op.kind,MemOp.kind] at kind
  | vm o => cases o <;> first | rfl | simp [Op.kind,VmOp.kind] at kind
  | fs o | s3 o => rfl

theorem Talks.unmanned {program : KProg α} (talks : Talks program) : Unmanned program := by
  refine Only.mono ?_ talks
  rintro op ⟨listed,notNew⟩
  cases op with
  | db o => simp [Op.kind] at listed
  | sys o => cases o <;> first | rfl | exact absurd rfl notNew
  | mem o => cases o <;> simp [Op.kind,MemOp.kind] at listed
  | vm o => cases o <;> first | rfl | simp [Op.kind,VmOp.kind] at listed
  | fs o | s3 o => rfl

theorem unmanned_call {op : Op} (other : op.isManning = false) : Unmanned (Prog.perform (S := sig) op : KProg op.Res) :=
  Only.perform other

theorem steady_provide_scratch (iid : Id) (scratch_src : Option Path) : Steady P t g₀ (provide_scratch iid scratch_src) := by
  have fresh : Steady P t g₀ (fresh_scratch iid) := (Steady.call rfl).bind fun _ => Steady.when (Steady.call rfl)
  cases scratch_src with
  | none => exact fresh
  | some src =>
    refine (Steady.call rfl).bind fun there => ?_
    split
    · exact Steady.call rfl
    · exact fresh

/-- Booting puts the instance into `LIVE`. -/
theorem boot_vm_manned {b : Booting} (known : b.birth ≠ .written) (children : List Id) (load_from : Option (Path × Path))
    (scratch_src : Option Path) :
    Triple (manning.rules (daemon P)) t (Track.At t (· = ⟨some b,children,none,none⟩)) (boot_vm b.iid load_from scratch_src)
      (Track.Leaves t (· = BootStage.fail ⟨some b,children,none,none⟩) fun _ =>
        (· = ⟨none,if b.birth = .made then children ++ [b.iid] else children,none,none⟩)) := by
  refine Steady.seq (Steady.call rfl) rfl fun _ => ?_
  refine Steady.seq (steady_provide_scratch _ _) rfl fun _ => ?_
  refine manned_bind (h := fun _ => ⟨some b,children,none,none⟩) ⟨b,rfl,rfl⟩ (fun _ => rfl) rfl fun _ => ?_
  have started : Steady P t ⟨some b,children,none,none⟩ (start_vm b.iid load_from) := by
    cases load_from with
    | none => exact manned_call ⟨b,rfl,rfl⟩ fun _ => rfl
    | some files => exact manned_call ⟨b,rfl,rfl⟩ fun _ => rfl
  refine Steady.seq started rfl fun _ => ?_
  refine manned_call ⟨b,rfl,rfl,known⟩ fun _ => ?_
  obtain ⟨iid,birth⟩ := b
  cases birth <;> simp [BootStage.sees]

theorem create_run_manned (project_id : Id) (image_label : Json) :
    Triple (manning.rules (daemon P)) t (Track.At t (· = manning.first)) (create_run P project_id image_label)
      (Track.Leaves t BootStage.Clear fun _ => BootStage.Clear) := by
  have clear : ∀ {children : List Id} {gone : Option Id}, BootStage.Clear ⟨none,children,none,gone⟩ :=
    ⟨by rintro b ⟨⟩,rfl⟩
  have made : ∀ id : Id, BootStage.Clear ⟨some ⟨id,.made⟩,[],none,none⟩ := fun id => ⟨by rintro b ⟨⟩; rfl,rfl⟩
  refine manned_bind (h := fun rid => ⟨some ⟨rid,.made⟩,[],none,none⟩) clear (fun _ => rfl) clear fun rid => ?_
  refine manned_bind (h := fun iid => ⟨some ⟨iid,.made⟩,[],none,none⟩) (made rid) (fun _ => rfl) (made rid) fun iid => ?_
  have free := (made iid).free
  have written : BootStage.Free ⟨some ⟨iid,.written⟩,[],none,none⟩ := ⟨by rintro b ⟨⟩; simp,rfl⟩
  refine Track.seq (r := fun _ => (· = ⟨some ⟨iid,.recorded⟩,[],none,none⟩)) (connection_manned ?_) fun _ => ?_
  · refine unmanned_bind free free (unmanned_call rfl) fun _ => ?_
    refine unmanned_bind free free ((uses_bindText P _).unmanned (by simp)) fun _ => ?_
    refine unmanned_bind free free (unmanned_call rfl) fun _ => ?_
    refine unmanned_bind free free (unmanned_call rfl) fun _ => ?_
    refine manned_bind (h := fun _ => ⟨some ⟨iid,.written⟩,[],none,none⟩) ⟨rfl,.inl rfl⟩ ?_ free fun _ => ?_
    · intro _
      simp [BootStage.sees]
    · refine Track.Leaves.mono (manned_call (h := fun _ => ⟨some ⟨iid,.recorded⟩,[],none,none⟩) ?_ fun _ => rfl)
        (fun _ same => same) (fun _ _ same => same) (by rintro _ rfl; exact written)
      rintro c ⟨⟩
  refine Track.seq (r := fun _ => (· = ⟨none,[],none,none⟩)) (Track.Leaves.mono
    (boot_vm_manned (b := ⟨iid,.recorded⟩) (by simp) [] none none) (fun _ same => same) (fun _ _ same => same)
    (by rintro _ rfl; exact clear)) fun _ => ?_
  refine unmanned_bind clear.free clear (talks_wait_agent _ _).unmanned fun _ => ?_
  exact Track.ret_triple (by rintro _ rfl; exact clear)

/-- The children of a fork are in `LIVE`, and nothing else is begun. -/
def BootStage.Forking (g : BootStage) : Prop := ∃ children, g = ⟨none,children,none,none⟩

theorem forking_triple {program : KProg α} {Q : Except Exn α → World × Watched BootStage Unit → Prop}
    (each : ∀ children, Triple (manning.rules (daemon P)) t (Track.At t (· = ⟨none,children,none,none⟩)) program Q) :
    Triple (manning.rules (daemon P)) t (Track.At t BootStage.Forking) program Q := by
  rintro s inv ⟨children,same⟩
  exact each children s inv same

theorem fork_child_manned (snap : SnapshotRow) (n : Int) (i : Nat) :
    Triple (manning.rules (daemon P)) t (Track.At t BootStage.Forking) (fork_child P snap n i)
      (Track.Leaves t BootStage.Free fun _ => BootStage.Forking) := by
  refine forking_triple fun children => ?_
  have clear : ∀ children, BootStage.Clear ⟨none,children,none,none⟩ := fun _ => ⟨by rintro b ⟨⟩,rfl⟩
  have made : ∀ id : Id, BootStage.Clear ⟨some ⟨id,.made⟩,children,none,none⟩ := fun id => ⟨by rintro b ⟨⟩; rfl,rfl⟩
  refine manned_bind (h := fun iid => ⟨some ⟨iid,.made⟩,children,none,none⟩) (clear _) (fun _ => rfl) (clear _).free fun iid => ?_
  refine Track.seq (r := fun _ => (· = ⟨none,children ++ [iid],none,none⟩)) (Track.Leaves.mono
    (boot_vm_manned (b := ⟨iid,.made⟩) (by simp) children _ _) (fun _ same => same) (fun _ _ same => same)
    (by rintro _ rfl; exact (made iid).free)) fun _ => ?_
  have free := (clear (children ++ [iid])).free
  refine unmanned_bind free free (talks_handshake P _ _ _).unmanned fun branch => ?_
  refine unmanned_bind free free (unmanned_call rfl) fun now => ?_
  refine manned_bind (h := fun _ => ⟨none,children ++ [iid],none,none⟩) ⟨rfl,.inr ⟨rfl,by simp⟩⟩ (fun _ => rfl) free fun _ => ?_
  refine Track.ret_triple ?_
  rintro _ rfl
  exact ⟨_,rfl⟩

theorem fork_snapshot_manned (sid : Id) (n : Int) :
    Triple (manning.rules (daemon P)) t (Track.At t (· = manning.first)) (fork_snapshot P sid n)
      (Track.Leaves t BootStage.Clear fun _ => BootStage.Clear) := by
  have clear : ∀ children, BootStage.Clear ⟨none,children,none,none⟩ := fun _ => ⟨by rintro b ⟨⟩,rfl⟩
  have free := (clear []).free
  refine connection_manned (unmanned_bind free free (unmanned_call rfl) fun T => ?_)
  split
  · exact Track.raise_triple (by rintro _ rfl; exact free)
  rename_i snap _
  refine unmanned_bind free free ((uses_reconstruct_mem P _).unmanned (by decide)) fun _ => ?_
  refine Track.seq (r := fun _ => BootStage.Forking) ?_ fun children => forking_triple fun made => ?_
  · refine Track.Leaves.mono (Track.each (p := fun _ _ => BootStage.Forking) fun _ i _ _ _ => fork_child_manned snap n i)
      ?_ (fun _ _ holds => holds) fun _ holds => holds
    rintro _ rfl
    exact ⟨[],rfl⟩
  refine manned_bind (h := fun _ => ⟨none,[],none,none⟩) ?_ (fun _ => rfl) (clear made).free fun _ => ?_
  · rintro c ⟨⟩
  · exact Track.ret_triple (by rintro _ rfl; exact clear [])

theorem snapshot_instance_manned (iid : Id) (label : Json) :
    Triple (manning.rules (daemon P)) t (Track.At t (· = manning.first)) (snapshot_instance P iid label)
      (Track.Leaves t BootStage.Clear fun _ => BootStage.Clear) := by
  have clear : BootStage.Clear ⟨none,[],none,none⟩ := ⟨by rintro b ⟨⟩,rfl⟩
  refine unmanned_bind clear.free clear (unmanned_call rfl) fun live => ?_
  split
  · exact Track.raise_triple (by rintro _ rfl; exact clear)
  refine connection_manned (unmanned_bind clear.free clear.free (unmanned_call rfl) fun T => ?_)
  split
  · exact Track.raise_triple (by rintro _ rfl; exact clear.free)
  refine manned_bind (h := fun sid => ⟨some ⟨sid,.made⟩,[],none,none⟩) clear (fun _ => rfl) clear.free fun sid => ?_
  have made : BootStage.Clear ⟨some ⟨sid,.made⟩,[],none,none⟩ := ⟨by rintro b ⟨⟩; rfl,rfl⟩
  have free := made.free
  refine unmanned_bind free free (unmanned_call rfl) fun _ => ?_
  refine unmanned_bind free free (unmanned_call rfl) fun _ => ?_
  refine unmanned_bind free free (talks_quiesce _).unmanned fun _ => ?_
  refine unmanned_bind free free (unmanned_call rfl) fun _ => ?_
  refine unmanned_bind free free (unmanned_call rfl) fun _ => ?_
  refine unmanned_bind free free (unmanned_call rfl) fun _ => ?_
  refine unmanned_bind free free ((uses_seal_scratch _ _).unmanned (by decide)) fun _ => ?_
  refine unmanned_bind free free (unmanned_call rfl) fun _ => ?_
  refine unmanned_bind free free ((uses_chunk_mem P _ _).unmanned (by decide)) fun _ => ?_
  refine unmanned_bind free free (unmanned_call rfl) fun _ => ?_
  refine unmanned_bind free free (unmanned_call rfl) fun _ => ?_
  refine unmanned_bind free free ((uses_bindText P _).unmanned (by simp)) fun _ => ?_
  refine unmanned_bind free free (unmanned_call rfl) fun _ => ?_
  refine unmanned_bind free free (unmanned_call rfl) fun _ => ?_
  refine manned_bind (h := fun _ => ⟨some ⟨sid,.made⟩,[],none,none⟩) ?_ (fun _ => rfl) free fun _ => ?_
  · rintro c ⟨⟩
  · exact Track.ret_triple (by rintro _ rfl; exact made)

/-- Destroying takes the instance out of `LIVE`, kills its VM and commits its row. -/
theorem destroy_instance_manned (iid : Id) :
    Triple (manning.rules (daemon P)) t (Track.At t (· = manning.first)) (destroy_instance iid)
      (Track.Leaves t BootStage.Clear fun _ => (· = ⟨none,[],none,some iid⟩)) := by
  have clear : ∀ gone, BootStage.Clear ⟨none,[],none,gone⟩ := fun _ => ⟨by rintro b ⟨⟩,rfl⟩
  refine manned_bind (h := fun live => ⟨none,[],some ⟨iid,!live,false⟩,none⟩) rfl (fun _ => rfl) (clear none) fun live => ?_
  refine Track.seq (r := fun _ => (· = ⟨none,[],some ⟨iid,true,false⟩,none⟩)) ?_ fun _ => ?_
  · cases live with
    | false => exact Track.ret_triple fun _ same => same
    | true =>
      refine Track.Leaves.mono (manned_call (h := fun _ => ⟨none,[],some ⟨iid,true,false⟩,none⟩) trivial ?_)
        (fun _ same => same) (fun _ _ same => same) (by rintro _ rfl; exact clear none)
      exact fun _ => by simp [BootStage.sees]
  refine Track.seq (r := fun _ => (· = ⟨none,[],none,some iid⟩)) (connection_manned ?_) fun _ => Track.ret_triple fun _ same => same
  refine manned_bind (h := fun _ => ⟨none,[],some ⟨iid,true,true⟩,none⟩) trivial ?_ (clear none).free fun _ => ?_
  · exact fun _ => by simp [BootStage.sees]
  refine Track.Leaves.mono (manned_call (h := fun _ => ⟨none,[],none,some iid⟩) ?_ ?_)
    (fun _ same => same) (fun _ _ same => same) (by rintro _ rfl; exact (clear none).free)
  · rintro c ⟨⟩
    rfl
  · exact fun _ => by simp [BootStage.sees]

theorem unmanned_meter_rows (dt : Rat) (live : List Id) (accr : List (Id × Rat × Rat)) :
    Unmanned (meter_rows dt live accr) := by
  induction live generalizing accr with
  | nil => trivial
  | cons iid rest ih =>
    refine Only.bind (unmanned_call rfl) fun T => ?_
    split
    · exact ih accr
    · exact ih _

theorem meter_tick_manned (dt : Rat) :
    Triple (manning.rules (daemon P)) t (Track.At t (· = manning.first)) (meter_tick dt)
      (Track.Leaves t BootStage.Clear fun _ => BootStage.Clear) := by
  have clear : BootStage.Clear ⟨none,[],none,none⟩ := ⟨by rintro b ⟨⟩,rfl⟩
  have free := clear.free
  refine connection_manned (unmanned_bind free free (unmanned_call rfl) fun live => ?_)
  refine unmanned_bind free free (unmanned_meter_rows dt live []) fun accr => ?_
  refine unmanned_bind free free (unmanned_call rfl) fun now => ?_
  refine unmanned_bind free free (Only.each fun _ => unmanned_call rfl) fun _ => ?_
  refine manned_bind (h := fun _ => ⟨none,[],none,none⟩) ?_ (fun _ => rfl) free fun _ => ?_
  · rintro c ⟨⟩
  · exact Track.ret_triple (by rintro _ rfl; exact clear)

/-- How a request ends: nothing is begun, and what it destroyed is gone. -/
structure BootStage.Ended (req : Req) (outcome : Except Exn Json) (g : BootStage) : Prop where
  clear : g.Clear
  gone : ∀ iid reply, req = .destroy_instance iid → outcome = .ok reply → g.gone = some iid

theorem Req.manned (req : Req) :
    Triple (manning.rules (daemon P)) t (Track.At t (· = manning.first)) (req.body P)
      (fun outcome => Track.At t (BootStage.Ended req outcome)) := by
  have plain : ∀ {program : KProg Json}, (∀ iid, req ≠ .destroy_instance iid) →
      Triple (manning.rules (daemon P)) t (Track.At t (· = manning.first)) program
        (Track.Leaves t BootStage.Clear fun _ => BootStage.Clear) →
      Triple (manning.rules (daemon P)) t (Track.At t (· = manning.first)) program
        (fun outcome => Track.At t (BootStage.Ended req outcome)) := by
    intro program other triple
    refine triple.consequence (fun _ _ holds => holds) fun outcome _ _ holds => ?_
    cases outcome <;> exact ⟨holds,fun iid _ same => absurd same (other iid)⟩
  cases req with
  | create_run project_id image_label => exact plain (by simp) (create_run_manned project_id image_label)
  | snapshot_instance iid label => exact plain (by simp) (snapshot_instance_manned iid label)
  | fork_snapshot sid n => exact plain (by simp) (fork_snapshot_manned sid n)
  | destroy_instance iid =>
    refine (destroy_instance_manned iid).consequence (fun _ _ holds => holds) fun outcome s _ holds => ?_
    cases outcome with
    | ok reply =>
      have same : s.2.own t = ⟨none,[],none,some iid⟩ := holds
      refine show BootStage.Ended _ _ (s.2.own t) from same ▸ ⟨⟨by rintro b ⟨⟩,rfl⟩,?_⟩
      rintro _ _ ⟨⟩ _
      rfl
    | error error => exact ⟨holds,by rintro _ _ _ ⟨⟩⟩
  | timeline run_id =>
    have clear : BootStage.Clear ⟨none,[],none,none⟩ := ⟨by rintro b ⟨⟩,rfl⟩
    refine plain (by simp) (unmanned_bind clear.free clear (unmanned_call rfl) fun _ => ?_)
    refine unmanned_bind clear.free clear (unmanned_call rfl) fun _ => ?_
    exact Track.ret_triple (by rintro _ rfl; exact clear)
  | meter_tick dt => exact plain (by simp) (meter_tick_manned dt)

end
end Klados
