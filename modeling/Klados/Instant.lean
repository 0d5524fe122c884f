import Klados.Gate

/-!
One instant. The memory and device state of a snapshot are captured by one call and its disk is
copied by another, while other requests may resume the VM in between. The captures of each
thread are watched, and so is how far each VM has got; when nobody resumes a VM that another
request has captured and not yet copied, every recorded snapshot is of one instant
(`snapshot_one_instant`).
-/
namespace Klados
open Effects
open Prog (Only)

variable {P : Platform}

/-- What a thread has captured: the beat of the VM at which memory and device state were taken,
    and the one at which the disk was copied (or found missing). -/
structure Shot where
  sid : Id
  iid : Id
  taken : Nat
  sealed : Option Nat
  deriving DecidableEq

/-- Memory and device state are taken and the disk is not. -/
def Shot.exposed (shot : Shot) : Bool := shot.sealed.isNone

/-- `beats` counts the resumes of a VM and the steps of its guest: between two equal beats the VM
    was paused and nothing happened in it. `recorded` lists the captures behind the rows. -/
structure Capture where
  beats : Id → Nat
  shots : Nat → Option Shot
  recorded : List Shot

def Capture.start : Capture := ⟨fun _ => 0,fun _ => none,[]⟩

def Capture.beat (seen : Capture) (iid : Id) : Capture :=
  { seen with beats := Function.update seen.beats iid (seen.beats iid + 1) }

def Capture.put (seen : Capture) (t : Nat) (shot : Shot) : Capture :=
  { seen with shots := Function.update seen.shots t (some shot) }

/-- The thread has copied the disk of the instance, or found that there is none. -/
def Capture.seal (seen : Capture) (t : Nat) (iid : Id) : Capture :=
  match seen.shots t with
  | some shot => if shot.iid = iid then seen.put t { shot with sealed := some (seen.beats iid) } else seen
  | none => seen

def Capture.sees (t : Nat) : (op : Op) → Except Exn op.Res → World → World → Capture → Capture
  | .vm (.create iid (.snap sid _) _), .ok _, _, _, seen => seen.put t ⟨sid,iid,seen.beats iid,none⟩
  | .vm (.resume iid), _, _, after, seen => if after.isPhase iid .running then seen.beat iid else seen
  | .fs (.exists (.scratch iid)), .ok there, _, _, seen => if there then seen else seen.seal t iid
  | .fs (.copy (.scratch iid) (.snap sid .scratch)), .ok _, _, _, seen =>
    if (seen.shots t).any (·.sid = sid) then seen.seal t iid else seen
  | .db (.execute (.insertSnapshot _)), .ok _, _, _, seen =>
    { seen with recorded := (seen.shots t).toList ++ seen.recorded }
  | _, _, _, _, seen => seen

/-- Every step of a guest is a beat. -/
def Capture.moves (move : Move) (_ : World) (seen : Capture) : Capture :=
  match move with
  | .guestMemory iid _ _ | .guestDisk iid _ | .agentUp iid | .agent iid _ | .workload iid _ => seen.beat iid
  | .vmDies _ | .delete _ => seen

def Capture.reboots (seen : Capture) : Capture := { seen with shots := fun _ => none }

def capturing (P : Platform) : Machine sig Exn Json Req (World × Capture) Choice Move :=
  (daemon P).watch Capture.sees Capture.moves Capture.reboots

abbrev CapturePool := Pool sig Exn Json Req (World × Capture)

/-- Nobody resumes a VM that another request has captured and whose disk it has yet to copy. -/
def apart (pool : CapturePool) : Action Req Choice Move → Bool
  | .call t _ =>
    match pool.about t with
    | some (.vm (.resume iid)) => (List.range pool.threads.length).all fun t' =>
        t' = t || !((pool.world.2.shots t').any fun shot => shot.iid = iid && shot.exposed)
    | _ => true
  | _ => true

/-- What a thread may call, given what it has captured. -/
def Ordered (t : Nat) (seen : Capture) : Op → Prop
  | .vm (.resume _) => ∀ shot, seen.shots t = some shot → shot.exposed = false
  | .fs (.copy _ _) | .fs (.exists (.scratch _)) => ∀ shot, seen.shots t = some shot → shot.exposed = true
  | .db (.execute (.insertSnapshot row)) => ∃ shot, seen.shots t = some shot ∧ shot.exposed = false ∧ shot.sid = row.id
  | _ => True

def ordering (P : Platform) : Rules sig Exn (World × Capture) where
  step := (capturing P).step
  inv _ := True
  rely t s s' := s'.2.shots t = s.2.shots t
  guar t op s s' := Ordered t s.2 op ∧ ∀ t', t' ≠ t → s'.2.shots t' = s.2.shots t'

theorem ordering_lawful : (ordering P).Lawful := ⟨fun _ _ => rfl,fun _ {_ _ _} first second => second.trans first⟩

section
variable {t : Nat} {w v : World} {seen : Capture} {α β : Type}

@[simp] theorem Capture.put_self (seen : Capture) (t : Nat) (shot : Shot) : (seen.put t shot).shots t = some shot :=
  Function.update_self _ _ _

theorem Capture.put_other {t' : Nat} (other : t' ≠ t) (shot : Shot) : (seen.put t shot).shots t' = seen.shots t' :=
  Function.update_of_ne other _ _

@[simp] theorem Capture.put_beats (seen : Capture) (t : Nat) (shot : Shot) : (seen.put t shot).beats = seen.beats := rfl

@[simp] theorem Capture.put_recorded (seen : Capture) (t : Nat) (shot : Shot) :
    (seen.put t shot).recorded = seen.recorded := rfl

theorem seal_other {t' : Nat} (other : t' ≠ t) (iid : Id) : (seen.seal t iid).shots t' = seen.shots t' := by
  unfold Capture.seal
  split
  · split
    · exact Capture.put_other other _
    · rfl
  · rfl

theorem sees_shots_other {op : Op} {outcome : Except Exn op.Res} {t' : Nat} (other : t' ≠ t) :
    (Capture.sees t op outcome w v seen).shots t' = seen.shots t' := by
  unfold Capture.sees
  split
  · exact Capture.put_other other _
  · split <;> rfl
  · split
    · rfl
    · exact seal_other other _
  · split
    · exact seal_other other _
    · rfl
  · rfl
  · rfl

/-- Only a capture of memory and the calls on disks change what a thread has captured. -/
theorem sees_shots {op : Op} {outcome : Except Exn op.Res} (notCreate : ∀ iid snap mem, op ≠ .vm (.create iid snap mem))
    (notDisk : op.kind ≠ .disk) : (Capture.sees t op outcome w v seen).shots = seen.shots := by
  unfold Capture.sees
  split
  · exact absurd rfl (notCreate _ _ _)
  · split <;> rfl
  · exact absurd rfl notDisk
  · exact absurd rfl notDisk
  · rfl
  · rfl

/-- A thread that has captured nothing has nothing to seal. -/
theorem sees_shots_none {op : Op} {outcome : Except Exn op.Res} (notCreate : ∀ iid snap mem, op ≠ .vm (.create iid snap mem))
    (nothing : seen.shots t = none) : (Capture.sees t op outcome w v seen).shots t = none := by
  have sealed : ∀ iid, (seen.seal t iid).shots t = none := by
    intro iid
    unfold Capture.seal
    rw [nothing]
    exact nothing
  unfold Capture.sees
  split
  · exact absurd rfl (notCreate _ _ _)
  · split <;> exact nothing
  · split
    · exact nothing
    · exact sealed _
  · split
    · exact sealed _
    · exact nothing
  · exact nothing
  · exact nothing

/-- What thread `t` has captured satisfies `p`. -/
def Has (t : Nat) (p : Option Shot → Prop) (s : World × Capture) : Prop := p (s.2.shots t)

variable {p q : Option Shot → Prop}

theorem stable_has : Stable (ordering P) t (Has t p) := by
  intro s s' _ _ same holds
  have equal : s'.2.shots t = s.2.shots t := same
  exact show p (s'.2.shots t) from equal ▸ holds

theorem stable_ends_has (outcome : Except Exn α) : Stable (ordering P) t (Ends (fun _ => Has t p) outcome) := by
  cases outcome with
  | ok value => exact stable_has
  | error error => exact fun _ _ _ _ _ _ => trivial

/-- The order of the calls, and the postcondition, are to be shown. -/
theorem ordering_acts {pre : World × Capture → Prop} {op : Op} {Q : Except Exn op.Res → World × Capture → Prop}
    (ordered : ∀ w seen, pre (w,seen) → Ordered t seen op)
    (post : ∀ choice outcome w v seen, pre (w,seen) → exec P t op choice w = some (outcome,v) →
      Q outcome (v,Capture.sees t op outcome w v seen)) : Acts (ordering P) t pre op Q where
  keeps := by
    rintro ⟨w,seen⟩ outcome s _ holds ⟨choice,ran⟩
    obtain ⟨⟨outcome',v⟩,ran',same⟩ := Option.map_eq_some_iff.mp ran
    cases same
    exact ⟨trivial,⟨ordered w seen holds,fun t' other => sees_shots_other other⟩,post choice outcome _ v seen holds ran'⟩

/-- An operation that leaves alone what is captured and may be called at any time. -/
def Op.isAside (op : Op) : Bool :=
  op.kind ≠ .disk && !op.isCapture

/-- The program does not touch what is captured. -/
abbrev Aside (program : KProg α) : Prop := program.Only fun op : Op => op.isAside = true

theorem Uses.aside {kinds : List Kind} {program : KProg α} (uses : Uses kinds program) (db : .db ∉ kinds)
    (capture : .capture ∉ kinds) (disk : .disk ∉ kinds) : Aside program := by
  refine Only.mono ?_ uses
  intro op listed
  have notDisk : op.kind ≠ .disk := fun same => disk (same ▸ listed)
  have notCapture := isCapture_of_kind (fun same => db (same ▸ listed)) fun same => capture (same ▸ listed)
  simp [Op.isAside,notDisk,notCapture]

theorem not_create_of_isCapture {op : Op} (other : op.isCapture = false) (iid : Id) (snap mem : Path) :
    op ≠ .vm (.create iid snap mem) := by
  rintro rfl
  cases other

theorem ordered_of_isAside {op : Op} (aside : op.isAside = true) : Ordered t seen op := by
  simp only [Op.isAside,Bool.and_eq_true,decide_eq_true_eq,Bool.not_eq_true'] at aside
  obtain ⟨notDisk,notCapture⟩ := aside
  unfold Ordered
  split
  · cases notCapture
  · exact absurd rfl notDisk
  · exact absurd rfl notDisk
  · cases notCapture
  · trivial

theorem aside_triple {program : KProg α} (aside : Aside program) :
    Triple (ordering P) t (Has t p) program (fun _ => Has t p) := by
  refine Triple.only stable_has ?_ aside
  intro op free
  refine ordering_acts (fun _ _ _ => ordered_of_isAside free) ?_
  intro choice outcome w v seen holds _
  simp only [Op.isAside,Bool.and_eq_true,decide_eq_true_eq,Bool.not_eq_true'] at free
  have same : (Capture.sees t op outcome w v seen).shots = seen.shots :=
    sees_shots (not_create_of_isCapture free.2) free.1
  exact show p _ from same ▸ holds

theorem nothing_triple {program : KProg α} (plain : Plain program) :
    Triple (ordering P) t (Has t (· = none)) program (fun _ => Has t (· = none)) := by
  refine Triple.only stable_has ?_ plain
  intro op other
  refine ordering_acts ?_ ?_
  · intro w seen nothing
    have vacuous : ∀ {r : Shot → Prop} shot, seen.shots t = some shot → r shot := by
      intro r shot some
      exact absurd (nothing.symm.trans some) (by simp)
    unfold Ordered
    split
    · cases other
    · exact vacuous
    · exact vacuous
    · cases other
    · trivial
  · exact fun choice outcome w v seen nothing _ => sees_shots_none (not_create_of_isCapture other) nothing

theorem nothing_bind {program : KProg α} (plain : Plain program) {rest : α → KProg β} {Q : β → World × Capture → Prop}
    (onward : ∀ value, Triple (ordering P) t (Has t (· = none)) (rest value) (Ends Q)) :
    Triple (ordering P) t (Has t (· = none)) (program >>= rest) (Ends Q) :=
  Triple.bind ordering_lawful (nothing_triple plain) onward fun _ _ _ _ => trivial

theorem aside_bind {program : KProg α} (aside : Aside program) {rest : α → KProg β} {Q : β → World × Capture → Prop}
    (onward : ∀ value, Triple (ordering P) t (Has t p) (rest value) (Ends Q)) :
    Triple (ordering P) t (Has t p) (program >>= rest) (Ends Q) :=
  Triple.bind ordering_lawful (aside_triple aside) onward fun _ _ _ _ => trivial

/-- A call after which what is captured satisfies `q`. -/
theorem has_bind {op : Op} (ordered : ∀ seen, p (seen.shots t) → Ordered t seen op)
    {q : op.Res → Option Shot → Prop}
    (post : ∀ value w v seen, p (seen.shots t) → q value ((Capture.sees t op (.ok value) w v seen).shots t))
    {rest : op.Res → KProg β} {Q : β → World × Capture → Prop}
    (onward : ∀ value, Triple (ordering P) t (Has t (q value)) (rest value) (Ends Q)) :
    Triple (ordering P) t (Has t p) (Prog.perform (S := sig) op >>= rest) (Ends Q) := by
  refine Triple.seq ordering_lawful (M := fun value => Has t (q value)) ?_ onward
  refine Triple.perform stable_has (ordering_acts (fun _ seen => ordered seen) ?_) fun outcome => ?_
  · intro choice outcome w v seen holds _
    cases outcome with
    | ok value => exact post value w v seen holds
    | error error => trivial
  · cases outcome with
    | ok value => exact stable_has
    | error error => exact fun _ _ _ _ _ _ => trivial

/-- Memory and device state of the snapshot are taken; its disk is not. -/
def Taken (sid iid : Id) (shot : Option Shot) : Prop := ∃ taken, shot = some ⟨sid,iid,taken,none⟩

/-- All of the snapshot is captured. -/
def Sealed (sid iid : Id) (shot : Option Shot) : Prop := ∃ taken beat, shot = some ⟨sid,iid,taken,some beat⟩

theorem seal_taken {sid iid : Id} (taken : Taken sid iid (seen.shots t)) : Sealed sid iid ((seen.seal t iid).shots t) := by
  obtain ⟨beat,same⟩ := taken
  exact ⟨beat,seen.beats iid,by simp [Capture.seal,same]⟩

theorem seal_scratch_bind {sid iid : Id} {rest : Unit → KProg β} {Q : β → World × Capture → Prop}
    (onward : ∀ value, Triple (ordering P) t (Has t (Sealed sid iid)) (rest value) (Ends Q)) :
    Triple (ordering P) t (Has t (Taken sid iid)) (seal_scratch iid sid >>= rest) (Ends Q) := by
  have exposed : ∀ seen : Capture, Taken sid iid (seen.shots t) → ∀ shot, seen.shots t = some shot → shot.exposed = true := by
    rintro seen ⟨taken,same⟩ shot some
    cases same.symm.trans some
    rfl
  refine Triple.seq ordering_lawful (M := fun _ => Has t (Sealed sid iid)) ?_ onward
  refine has_bind (q := fun there => if there then Taken sid iid else Sealed sid iid) exposed ?_ fun there => ?_
  · intro there w v seen taken
    cases there
    · exact seal_taken taken
    · exact taken
  cases there with
  | false => exact Triple.ret stable_has fun _ _ holds => holds
  | true =>
    refine Triple.perform stable_has (ordering_acts (fun _ => exposed) ?_) stable_ends_has
    intro choice outcome w v seen taken _
    cases outcome with
    | error error => trivial
    | ok value =>
      have holds : Taken sid iid (seen.shots t) := taken
      have own : (seen.shots t).any (·.sid = sid) = true := by
        obtain ⟨beat,same⟩ := holds
        rw [same]
        simp
      have same : Capture.sees t (.fs (.copy (.scratch iid) (.snap sid .scratch))) (.ok value) w v seen = seen.seal t iid :=
        if_pos own
      exact show Sealed sid iid _ from same ▸ seal_taken holds

theorem snapshot_instance_ordered (iid : Id) (label : Json) :
    Triple (ordering P) t (Has t (· = none)) (snapshot_instance P iid label) (Ends fun _ _ => True) := by
  refine nothing_bind (plain_mem _) fun live => ?_
  split
  · exact Triple.raise stable_has fun _ _ _ => trivial
  refine Triple.catching ordering_lawful (M := Ends fun _ _ => True) ?_ (fun _ _ _ _ => trivial) ?_
  swap
  · intro error
    refine Triple.bind ordering_lawful (M := fun _ _ => True) ?_ ?_ (fun _ _ _ _ => trivial)
    · exact Triple.perform (fun _ _ _ _ _ _ => trivial) (ordering_acts (fun _ _ _ => trivial) fun _ _ _ _ _ _ _ => trivial)
        fun _ _ _ _ _ _ _ => trivial
    · exact fun _ => Triple.raise (fun _ _ _ _ _ _ => trivial) fun _ _ _ => trivial
  refine nothing_bind (plain_db rfl) fun T => ?_
  split
  · exact Triple.raise stable_has fun _ _ _ => trivial
  rename_i row _
  refine nothing_bind (plain_sys _) fun sid => ?_
  refine nothing_bind (plain_fs _) fun _ => ?_
  refine nothing_bind (plain_fs _) fun _ => ?_
  refine nothing_bind ((uses_quiesce iid).plain (by decide) (by decide)) fun _ => ?_
  refine has_bind (q := fun _ => (· = none)) (fun _ _ => by trivial) (fun _ _ _ _ nothing => nothing) fun _ => ?_
  refine has_bind (q := fun _ => Taken sid iid) (fun _ _ => by trivial) ?_ fun _ => ?_
  · intro _ w v seen _
    exact ⟨seen.beats iid,Capture.put_self _ _ _⟩
  refine aside_bind (Only.perform rfl) fun _ => ?_
  refine seal_scratch_bind fun _ => ?_
  have whole : ∀ {shot : Option Shot} {s : Shot}, Sealed sid iid shot → shot = some s → s.exposed = false ∧ s.sid = sid := by
    rintro shot s ⟨taken,beat,same⟩ some
    cases same.symm.trans some
    exact ⟨rfl,rfl⟩
  refine has_bind (q := fun _ => Sealed sid iid) ?_ ?_ fun _ => ?_
  · exact fun seen holds shot some => (whole holds some).1
  · intro _ w v seen holds
    have same : (Capture.sees t (.vm (.resume iid)) (.ok ()) w v seen).shots = seen.shots :=
      sees_shots (by simp) (by simp [Op.kind,VmOp.kind])
    exact same ▸ holds
  refine aside_bind ((uses_chunk_mem P _ _).aside (by decide) (by decide) (by decide)) fun logical => ?_
  refine aside_bind (Only.perform rfl) fun state => ?_
  refine aside_bind (Only.perform rfl) fun now => ?_
  refine aside_bind ((uses_bindText P _).aside (by decide) (by decide) (by decide)) fun text => ?_
  refine has_bind (q := fun _ => Sealed sid iid) ?_ (fun _ _ _ _ holds => holds) fun _ => ?_
  · rintro seen ⟨taken,beat,same⟩
    exact ⟨_,same,rfl,rfl⟩
  exact aside_bind (Only.perform rfl) fun _ => aside_bind (Only.perform rfl) fun _ =>
    Triple.ret stable_has fun _ _ _ => trivial

theorem Req.ordered (req : Req) : Triple (ordering P) t (Has t (· = none)) (req.body P) (fun _ _ => True) := by
  by_cases snapshot : ∃ iid label, req = .snapshot_instance iid label
  · obtain ⟨iid,label,rfl⟩ := snapshot
    exact (snapshot_instance_ordered iid label).consequence (fun _ _ holds => holds) fun _ _ _ _ => trivial
  · have plain := plain_body P fun iid label same => snapshot ⟨iid,label,same⟩
    exact (nothing_triple plain).consequence (fun _ _ holds => holds) fun _ _ _ _ => trivial

end

theorem moves_shots (move : Move) (w : World) (seen : Capture) : (Capture.moves move w seen).shots = seen.shots := by
  cases move <;> rfl

theorem ordering_sound :
    Sound (capturing P) (fun pool action => apart pool action) (ordering P) (fun t => Has t (· = none)) (fun _ _ _ _ => True) where
  lawful := ordering_lawful
  calls _ _ choice _ _ _ _ _ _ _ _ ran := ⟨choice,ran⟩
  others t t' op w v other _ _ guaranteed := guaranteed.2 t other
  envs pool move world _ _ moved := by
    obtain ⟨v,_,same⟩ := Option.map_eq_some_iff.mp moved
    subst same
    exact ⟨trivial,fun t => congrFun (moves_shots move pool.world.1 pool.world.2) t⟩
  reboots _ _ _ := ⟨trivial,fun _ => rfl⟩
  young _ := stable_has
  bodies _ req _ := req.ordered

/-! ## Captures of one instant -/

/-- The VM exists, and its guest does not run. -/
def Still (w : World) (iid : Id) : Prop := ∃ vm, w.hyp.vm iid = some vm ∧ (vm.phase = .paused ∨ vm.phase = .dead)

/-- The invariant: a captured VM whose disk is not copied stands still, what is captured is of
    one instant, and so is what stands behind the rows. -/
structure Capture.Keeps (w : World) (seen : Capture) : Prop where
  one : ∀ t shot beat, seen.shots t = some shot → shot.sealed = some beat → beat = shot.taken
  still : ∀ t shot, seen.shots t = some shot → shot.exposed = true →
    Still w shot.iid ∧ seen.beats shot.iid = shot.taken
  recorded : ∀ shot ∈ seen.recorded, shot.sealed = some shot.taken
  committed : ∀ row ∈ w.db.committed.snapshots, ∃ shot ∈ seen.recorded, shot.sid = row.id
  written : ∀ t T, w.db.txn = some (t,T) → ∀ row ∈ T.snapshots, ∃ shot ∈ seen.recorded, shot.sid = row.id

section
variable {w v : World} {seen : Capture} {t : Nat} {iid : Id}

theorem Capture.Keeps.frame (keeps : seen.Keeps w) (still : ∀ iid, Still w iid → Still v iid) (db : v.db = w.db) :
    seen.Keeps v := by
  refine ⟨keeps.one,?_,keeps.recorded,?_,?_⟩
  · intro t shot some exposed
    exact (keeps.still t shot some exposed).imp (still shot.iid) id
  · rw [db]
    exact keeps.committed
  · rw [db]
    exact keeps.written

/-- The disk of a VM that stands still is copied: it is of the same instant. -/
theorem Capture.Keeps.sealed (keeps : seen.Keeps w) (exposed : ∀ shot, seen.shots t = some shot → shot.exposed = true)
    (iid : Id) : (seen.seal t iid).Keeps w := by
  unfold Capture.seal
  split
  · rename_i shot captured
    split
    · rename_i same
      have now := (keeps.still t shot captured (exposed shot captured)).2
      rw [same] at now
      refine ⟨?_,?_,keeps.recorded,keeps.committed,keeps.written⟩
      · intro t' shot' beat some sealed
        by_cases own : t' = t
        · subst own
          rw [Capture.put_self] at some
          cases some
          exact (Option.some.inj sealed).symm.trans now
        · rw [Capture.put_other own] at some
          exact keeps.one t' shot' beat some sealed
      · intro t' shot' some open_
        by_cases own : t' = t
        · subst own
          rw [Capture.put_self] at some
          cases some
          cases open_
        · rw [Capture.put_other own] at some
          exact keeps.still t' shot' some open_
    · exact keeps
  · exact keeps

/-- A VM moves on when nobody has captured it without copying its disk. -/
theorem Capture.Keeps.beats (keeps : seen.Keeps w)
    (free : ∀ t shot, seen.shots t = some shot → shot.exposed = true → shot.iid ≠ iid) : (seen.beat iid).Keeps w := by
  refine ⟨keeps.one,?_,keeps.recorded,keeps.committed,keeps.written⟩
  intro t shot some exposed
  obtain ⟨still,now⟩ := keeps.still t shot some exposed
  refine ⟨still,?_⟩
  have other := free t shot some exposed
  exact (Function.update_of_ne other _ _).trans now

/-- Memory and device state of a paused VM are captured. -/
theorem Capture.Keeps.taken (keeps : seen.Keeps w) (still : Still w iid) (sid : Id) :
    (seen.put t ⟨sid,iid,seen.beats iid,none⟩).Keeps w := by
  refine ⟨?_,?_,keeps.recorded,keeps.committed,keeps.written⟩
  · intro t' shot beat some sealed
    by_cases own : t' = t
    · subst own
      rw [Capture.put_self] at some
      cases some
      cases sealed
    · rw [Capture.put_other own] at some
      exact keeps.one t' shot beat some sealed
  · intro t' shot some exposed
    by_cases own : t' = t
    · subst own
      rw [Capture.put_self] at some
      cases some
      exact ⟨still,rfl⟩
    · rw [Capture.put_other own] at some
      exact keeps.still t' shot some exposed

/-- A VM that stands still is moved on by a resume only. -/
theorem Still.call {op : Op} {choice : Choice} {outcome : Except Exn op.Res} (still : Still w iid)
    (permitted : Permitted t op w) (notResume : op ≠ .vm (.resume iid)) (ran : exec P t op choice w = some (outcome,v)) :
    Still v iid := by
  obtain ⟨vm,there,phase⟩ := still
  by_cases address : op.isVm
  swap
  · have same := exec_hyp (by simpa using address) ran
    exact ⟨vm,same ▸ there,phase⟩
  cases op with
  | db | fs | s3 | mem | sys => cases address
  | vm o =>
    obtain ⟨fs,hyp,acts,rfl⟩ := exec_vmActs ran
    by_cases target : iid = o.target
    swap
    · exact ⟨vm,(VmOp.acts_other acts target).trans there,phase⟩
    subst target
    cases acts with
    | fails | create | torn | killNone | receive | eof => exact ⟨vm,there,phase⟩
    | spawn => exact absurd (there.symm.trans permitted.2) (by simp)
    | start here spawned | load here spawned =>
      cases there.symm.trans here
      rcases phase with paused | dead <;> simp_all
    | connect here running =>
      cases there.symm.trans here
      rcases phase with paused | dead <;> simp_all
    | resume => exact absurd rfl notResume
    | pause => exact ⟨_,Hypervisor.set_self _ _ _,.inl rfl⟩
    | kill => exact ⟨_,Hypervisor.set_self _ _ _,.inr rfl⟩
    | lost here =>
      cases there.symm.trans here
      exact ⟨_,Hypervisor.set_self _ _ _,phase⟩

/-- The statements of a thread, when the snapshot that it inserts is recorded. -/
theorem Capture.Keeps.dbCall {o : DbOp} {outcome : Except Exn o.Res} {db : Db} (keeps : seen.Keeps w)
    (ordered : Ordered t seen (.db o)) (acts : w.db.Acts t o outcome db) :
    (Capture.sees t (.db o) outcome w { w with db } seen).Keeps { w with db } := by
  have visible : ∀ row ∈ (w.db.visible t).snapshots, ∃ shot ∈ seen.recorded, shot.sid = row.id := by
    unfold Db.visible
    split
    · rename_i holder written held
      split
      · exact keeps.written holder written held
      · exact keeps.committed
    · exact keeps.committed
  cases acts with
  | @fails _ error =>
    have same : Capture.sees t (.db o) (.error error) w w seen = seen := by
      cases o with
      | execute stmt => cases stmt <;> rfl
      | read | commit | rollback => rfl
    rw [same]
    exact keeps
  | read => exact keeps
  | @wrote stmt T _ applied =>
    by_cases inserts : ∃ row, stmt = .insertSnapshot row
    · obtain ⟨row,rfl⟩ := inserts
      obtain ⟨shot,captured,whole,named⟩ := ordered
      obtain ⟨beat,sealed⟩ : ∃ beat, shot.sealed = some beat := by
        cases known : shot.sealed with
        | none => simp [Shot.exposed,known] at whole
        | some beat => exact ⟨beat,rfl⟩
      have recorded : Capture.sees t (.db (.execute (.insertSnapshot row))) (.ok ()) w
          { w with db := { w.db with txn := some (t,T) } } seen = { seen with recorded := shot :: seen.recorded } := by
        simp [Capture.sees,captured]
      rw [recorded]
      refine ⟨keeps.one,keeps.still,?_,?_,?_⟩
      · intro shot' member
        rcases List.mem_cons.mp member with new | old
        · subst new
          rw [sealed,keeps.one t shot' beat captured sealed]
        · exact keeps.recorded shot' old
      · intro row' member
        obtain ⟨shot',old,same⟩ := keeps.committed row' member
        exact ⟨shot',List.mem_cons_of_mem _ old,same⟩
      · rintro t' T' ⟨⟩ row' member
        rcases Stmt.apply_snapshots applied member with before | new
        · obtain ⟨shot',old,same⟩ := visible row' before
          exact ⟨shot',List.mem_cons_of_mem _ old,same⟩
        · cases new
          exact ⟨shot,List.mem_cons_self,named⟩
    · have same : Capture.sees t (.db (.execute stmt)) (.ok ()) w { w with db := { w.db with txn := some (t,T) } } seen =
          seen := by
        cases stmt with
        | insertSnapshot row => exact absurd ⟨row,rfl⟩ inserts
        | insertProject | insertRun | insertInstance | setSnapshot | setDestroyed | accrue => rfl
      rw [same]
      refine ⟨keeps.one,keeps.still,keeps.recorded,keeps.committed,?_⟩
      rintro t' T' ⟨⟩ row member
      rcases Stmt.apply_snapshots applied member with before | new
      · exact visible row before
      · exact absurd ⟨row,new⟩ inserts
  | @refused stmt error =>
    have same : Capture.sees t (.db (.execute stmt)) (.error error) w { w with db := { w.db with txn := some (t,w.db.visible t) } }
        seen = seen := by
      cases stmt <;> rfl
    rw [same]
    refine ⟨keeps.one,keeps.still,keeps.recorded,keeps.committed,?_⟩
    rintro t' T' ⟨⟩
    exact visible
  | committed held => exact ⟨keeps.one,keeps.still,keeps.recorded,keeps.written t _ held,by rintro _ _ ⟨⟩⟩
  | unchanged | idle => exact keeps
  | rolled => exact ⟨keeps.one,keeps.still,keeps.recorded,keeps.committed,by rintro _ _ ⟨⟩⟩

/-- Of the calls on files only a copy of a disk, or the answer that there is none, seals. -/
theorem sees_fs {o : FsOp} (v : World) (outcome : Except Exn o.Res) (ordered : Ordered t seen (.fs o)) :
    Capture.sees t (.fs o) outcome w v seen = seen ∨ ∃ iid, Capture.sees t (.fs o) outcome w v seen = seen.seal t iid ∧
      ∀ shot, seen.shots t = some shot → shot.exposed = true := by
  cases outcome with
  | error error =>
    left
    cases o with
    | «exists» p => cases p <;> rfl
    | copy src dst =>
      cases src with
      | scratch iid =>
        cases dst with
        | snap sid file => cases file <;> rfl
        | scratch | chunk => rfl
      | snap | chunk => rfl
    | makedirs | openTrunc | write | readFile | remove | replace | getsize | makeDisk => rfl
  | ok value =>
    cases o with
    | «exists» p =>
      cases p with
      | scratch iid =>
        by_cases there : value = true
        · exact .inl (if_pos there)
        · exact .inr ⟨iid,if_neg there,ordered⟩
      | snap | chunk => exact .inl rfl
    | copy src dst =>
      cases src with
      | scratch iid =>
        cases dst with
        | snap sid file =>
          cases file with
          | scratch =>
            by_cases own : (seen.shots t).any (·.sid = sid) = true
            · exact .inr ⟨iid,if_pos own,ordered⟩
            · exact .inl (if_neg own)
          | vmstate | mem | memTmp | manifest => exact .inl rfl
        | scratch | chunk => exact .inl rfl
      | snap | chunk => exact .inl rfl
    | makedirs | openTrunc | write | readFile | remove | replace | getsize | makeDisk => exact .inl rfl

/-- A permitted call in order keeps the captures of one instant, if it resumes no VM that another
    request has captured and not yet copied. -/
theorem Capture.Keeps.call {op : Op} {outcome : Except Exn op.Res} {choice : Choice} (keeps : seen.Keeps w)
    (permitted : Permitted t op w) (ordered : Ordered t seen op)
    (spared : ∀ iid, op = .vm (.resume iid) → ∀ t' shot, t' ≠ t → seen.shots t' = some shot → shot.exposed = true →
      shot.iid ≠ iid)
    (ran : exec P t op choice w = some (outcome,v)) : (Capture.sees t op outcome w v seen).Keeps v := by
  have still : (∀ iid, op ≠ .vm (.resume iid)) → ∀ iid, Still w iid → Still v iid :=
    fun notResume iid stands => stands.call permitted (notResume iid) ran
  cases op with
  | db o =>
    obtain ⟨db,acts,rfl⟩ := exec_dbActs ran
    exact keeps.dbCall ordered acts
  | s3 o | mem o | sys o =>
    have kept : seen.Keeps v := keeps.frame (still (by simp)) (exec_db (by cases o <;> simp [Op.kind,MemOp.kind]) ran)
    exact kept
  | fs o =>
    have kept : seen.Keeps v := keeps.frame (still (by simp))
      (exec_db (by rcases o.kind_cases with own | own <;> simp [Op.kind,own]) ran)
    rcases sees_fs v outcome ordered with same | ⟨iid,same,exposed⟩
    · rw [same]
      exact kept
    · rw [same]
      exact kept.sealed exposed iid
  | vm o =>
    have db : v.db = w.db := by
      obtain ⟨fs,hyp,_,rfl⟩ := exec_vmActs ran
      rfl
    cases o with
    | resume iid =>
      have free : ∀ t' shot, seen.shots t' = some shot → shot.exposed = true → shot.iid ≠ iid := by
        intro t' shot some exposed
        by_cases own : t' = t
        · subst own
          exact absurd (ordered shot some) (by simp [exposed])
        · exact spared iid rfl t' shot own some exposed
      have kept : seen.Keeps v := by
        refine ⟨keeps.one,?_,keeps.recorded,?_,?_⟩
        · intro t' shot some exposed
          have other := free t' shot some exposed
          refine (keeps.still t' shot some exposed).imp (fun stands => ?_) id
          exact stands.call permitted (by simpa using Ne.symm other) ran
        · rw [db]
          exact keeps.committed
        · rw [db]
          exact keeps.written
      simp only [Capture.sees]
      split
      · exact kept.beats free
      · exact kept
    | create iid snap mem =>
      have kept : seen.Keeps v := keeps.frame (still (by simp)) db
      obtain ⟨fs,hyp,acts,rfl⟩ := exec_vmActs ran
      cases acts with
      | fails | torn =>
        cases snap <;> exact kept
      | create there paused =>
        cases snap with
        | snap sid file => exact kept.taken ⟨_,there,.inl paused⟩ sid
        | scratch | chunk => exact kept
    | spawn | start | load | pause | kill | connect | receive => exact keeps.frame (still (by simp)) db

theorem Still.moved {move : Move} (still : Still w iid) (step : w.Moved P move v) : Still v iid := by
  obtain ⟨vm,there,phase⟩ := still
  rcases step.vm iid with ⟨same,_⟩ | ⟨vm₀,vm',here,there',moves⟩
  · exact ⟨vm,same.trans there,phase⟩
  · cases there.symm.trans here
    refine ⟨vm',there',?_⟩
    cases moves with
    | dies => exact .inr rfl
    | memory running | up running | agent running | workload running => rcases phase with paused | dead <;> simp_all

/-- The guest of a VM that stands still makes no step. -/
theorem Still.idle {move : Move} (still : Still w iid) (step : w.Moved P move v) (seen : Capture) :
    Capture.moves move w seen = seen ∨ ∃ iid', iid' ≠ iid ∧ Capture.moves move w seen = seen.beat iid' := by
  obtain ⟨vm,there,phase⟩ := still
  -- a step of the guest itself needs a running VM
  have stopped : ∀ vm', Vm.Moves P iid move vm vm' → move = .vmDies iid := by
    intro vm' moves
    cases moves with
    | dies => rfl
    | memory running | up running | agent running | workload running => rcases phase with paused | dead <;> simp_all
  have steps : move.target = some iid → move = .vmDies iid := by
    intro target
    rcases step.vm iid with ⟨_,other⟩ | ⟨vm₀,vm',here,_,moves⟩
    · exact absurd target other
    · cases there.symm.trans here
      exact stopped vm' moves
  cases move with
  | vmDies | delete => exact .inl rfl
  | guestDisk iid' bytes =>
    refine .inr ⟨iid',?_,rfl⟩
    rintro rfl
    have disk := step.fs
    generalize v.fs = after at disk
    cases disk with
    | none other => exact other _ _ rfl
    | disk here running =>
      cases there.symm.trans here
      rcases phase with paused | dead <;> simp_all
  | guestMemory iid' | agentUp iid' | agent iid' | workload iid' =>
    refine .inr ⟨iid',?_,rfl⟩
    rintro rfl
    cases steps rfl

theorem Capture.Keeps.moved {move : Move} (keeps : seen.Keeps w) (step : w.Moved P move v) :
    (Capture.moves move w seen).Keeps v := by
  have kept : seen.Keeps v := keeps.frame (fun _ stands => stands.moved step) step.db
  have free : ∀ iid, Capture.moves move w seen = seen.beat iid → (seen.beat iid).Keeps v := by
    intro iid moves
    refine kept.beats ?_
    rintro t shot some exposed rfl
    obtain ⟨stands,_⟩ := keeps.still t shot some exposed
    rcases stands.idle step seen with same | ⟨iid',other,same⟩
    · have beats := congrArg (Capture.beats · shot.iid) (moves.symm.trans same)
      simp [Capture.beat] at beats
    · have beats := congrArg (Capture.beats · shot.iid) (moves.symm.trans same)
      simp [Capture.beat,Ne.symm other] at beats
  cases move with
  | vmDies | delete => exact kept
  | guestMemory | guestDisk | agentUp | agent | workload => exact free _ rfl

end

/-- In every run in which nobody resumes a VM that another request has captured and whose disk it
    has yet to copy, each recorded snapshot has its memory, device state and disk of one instant. -/
theorem snapshot_one_instant (P : Platform) {w : World} (fresh : w.Fresh) {pool : CapturePool}
    (reached : (capturing P).Reach (fun pool action => apart pool action) ⟨(w,Capture.start),[]⟩ pool) :
    (∀ row ∈ pool.world.1.db.committed.snapshots, ∃ shot ∈ pool.world.2.recorded, shot.sid = row.id) ∧
      ∀ shot ∈ pool.world.2.recorded, shot.sealed = some shot.taken := by
  have start : Healthy (((protocol P).watch Capture).and (ordering P)) (fun t s => Unborn t s.1 ∧ Has t (· = none) s)
      (fun _ _ _ _ => True ∧ True) (⟨(w,Capture.start),[]⟩ : CapturePool) :=
    ⟨⟨fresh.orderly,trivial⟩,fun t thread found => by simp at found,
      fun t _ => ⟨fresh.healthy (P := P) |>.next t (Nat.zero_le t),rfl⟩⟩
  have sound := (protocol_sound (P := P)).watch.and (ordering_sound (P := P))
  have keeps : pool.world.2.Keeps pool.world.1 := by
    refine (sound.keeps (J := fun s => s.2.Keeps s.1) ?_ ?_ ?_ start ?_ reached).2
    · intro pool t choice op outcome s allowed about healthy _ guaranteed ran keeps
      obtain ⟨⟨outcome',v⟩,ran',same⟩ := Option.map_eq_some_iff.mp ran
      cases same
      refine keeps.call guaranteed.1.1 guaranteed.2.1 ?_ ran'
      rintro iid rfl t' shot other some exposed same
      by_cases born : t' < pool.threads.length
      · simp only [apart,about,List.all_eq_true,List.mem_range] at allowed
        have spared := allowed t' born
        simp [other,some,exposed,same] at spared
      · have nothing : pool.world.2.shots t' = none := (healthy.next t' (Nat.le_of_not_lt born)).2
        exact absurd (nothing.symm.trans some) (by simp)
    · intro pool move s _ _ _ moved keeps
      obtain ⟨v,moved',same⟩ := Option.map_eq_some_iff.mp moved
      subst same
      exact keeps.moved (World.moved_of_move moved')
    · intro pool _ _ keeps
      exact ⟨by rintro _ _ _ ⟨⟩,by rintro _ _ ⟨⟩,keeps.recorded,keeps.committed,by rintro _ _ ⟨⟩⟩
    · refine ⟨by rintro _ _ _ ⟨⟩,by rintro _ _ ⟨⟩,by rintro _ ⟨⟩,?_,?_⟩
      · simp [fresh.snapshots]
      · simp [fresh.idle]
  exact ⟨keeps.committed,keeps.recorded⟩

/-- Two requests snapshot `i`: the second captures the VM and copies its disk between two calls of the first, the
    guest goes on, and then the first captures it. The second is recorded last. -/
def apartSnapshots : List (Action Req Choice Move) :=
  .request (.create_run "p" .null) :: calls 0 (createRun "r" "i" [7] [8]) ++
    .request (.snapshot_instance "i" .null) :: calls 1 ((takeSnapshot "s").take 5) ++
    .request (.snapshot_instance "i" .null) :: calls 2 (takeSnapshot "t") ++
    .env (.guestMemory "i" [9] [8]) :: .env (.guestDisk "i" [1,2,3]) ::
    calls 1 ((takeSnapshot "s").drop 5 ++ recordSnapshot) ++ calls 2 recordSnapshot

theorem snapshot_one_instant_apart : ∃ pool : CapturePool,
    (capturing .plain).run apart apartSnapshots ⟨(World.initial defaultProject false,Capture.start),[]⟩ = some pool ∧
      pool.world.1.db.committed.snapshots.map (·.id) = ["s","t"] ∧
      pool.world.2.recorded.map (fun shot => (shot.sid,shot.taken)) = [("t",0),("s",3)] ∧
      ∀ shot ∈ pool.world.2.recorded, shot.sealed = some shot.taken := by
  have seen : ((capturing .plain).run apart apartSnapshots ⟨(World.initial defaultProject false,Capture.start),[]⟩).map
      (fun pool => (pool.world.1.db.committed.snapshots.map (·.id),
        pool.world.2.recorded.map fun shot => (shot.sid,shot.taken))) = some (["s","t"],[("t",0),("s",3)]) := by
    decide +kernel
  obtain ⟨pool,ran,same⟩ := Option.map_eq_some_iff.mp seen
  simp only [Prod.mk.injEq] at same
  have reached := Machine.reach_of_run (capturing .plain)
    (fun (pool : CapturePool) action (passes : apart pool action) => passes) ran
  exact ⟨pool,ran,same.1,same.2,(snapshot_one_instant .plain (World.initial_fresh defaultProject false) reached).2⟩

/-- Two requests snapshot `i`: while the first has captured the memory and not yet copied the
    disk, the second resumes the VM, and the guest writes. -/
def twoSnapshots : List (Action Req Choice Move) :=
  .request (.create_run "p" .null) :: calls 0 (createRun "r" "i" [7] [8]) ++
    .request (.snapshot_instance "i" .null) :: calls 1 ((takeSnapshot "s").take 10) ++
    .request (.snapshot_instance "i" .null) :: calls 2 (takeSnapshot "t") ++
    .env (.guestDisk "i" [1,2,3]) :: calls 1 ((takeSnapshot "s").drop 10 ++ recordSnapshot)

/-- The disk of a recorded snapshot was written after its memory was captured. -/
theorem snapshot_not_one_instant : ∃ pool : CapturePool,
    (capturing .plain).Reach (fun _ _ => True) ⟨(World.initial defaultProject false,Capture.start),[]⟩ pool ∧
      pool.world.1.db.committed.snapshots.map (·.id) = ["s"] ∧ pool.world.2.recorded = [⟨"s","i",0,some 2⟩] ∧
      pool.world.1.fs.content (.snap "s" .scratch) = some [1,2,3] := by
  have seen : ((capturing .plain).run (fun _ _ => true) twoSnapshots
      ⟨(World.initial defaultProject false,Capture.start),[]⟩).map (fun pool =>
        (pool.world.1.db.committed.snapshots.map (·.id),pool.world.2.recorded,
          pool.world.1.fs.content (.snap "s" .scratch))) = some (["s"],[⟨"s","i",0,some 2⟩],some [1,2,3]) := by
    decide +kernel
  obtain ⟨pool,ran,same⟩ := Option.map_eq_some_iff.mp seen
  simp only [Prod.mk.injEq] at same
  exact ⟨pool,Machine.reach_of_run _ (fun _ _ _ => trivial) ran,same⟩

end Klados
