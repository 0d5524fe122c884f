import Klados.Drift
import Klados.Hidden
import Klados.Hot
import Klados.Tenants

/-!
A log beside the daemon: what each instance was when it was paused last, what each snapshot was taken of, and
what each load of a snapshot showed. The daemon serves one request after the other; the guests go on meanwhile.
What a guest does while it runs, and most calls, leave the world beside what it was (`Beside`): the tables
have the same snapshots, the store and all files but disks are the same. An instance that rests is what it was.
-/
namespace Klados
open Effects
open Files (Fs)

/-- What there is of an instance. -/
structure Picture where
  mem : Bytes
  dev : Bytes
  disk : Bytes
  deriving DecidableEq

def World.picture (w : World) (iid : Id) : Option Picture :=
  (w.hyp.vm iid).bind fun vm => (w.fs.content (.scratch iid)).map fun disk => ⟨vm.mem,vm.dev,disk⟩

structure CaptureLog where
  atPause : Id → Option Picture
  taken : Id → Option Picture
  shown : List (Id × Option Picture)

def CaptureLog.empty : CaptureLog := ⟨fun _ => none,fun _ => none,[]⟩

def CaptureLog.sees (log : CaptureLog) : (op : Op) → Except Exn op.Res → World → CaptureLog
  | .vm (.pause iid), .ok _, after => { log with atPause := Function.update log.atPause iid (after.picture iid) }
  | .vm (.create iid (.snap sid _) _), .ok _, _ =>
    { log with taken := Function.update log.taken sid (log.atPause iid) }
  | .vm (.load iid (.snap sid _) _), .ok _, after => { log with shown := log.shown ++ [(sid,after.picture iid)] }
  | _, _, _ => log

@[simp] theorem CaptureLog.sees_error (log : CaptureLog) (op : Op) (error : Exn) (w : World) :
    log.sees op (.error error) w = log := by
  cases op with
  | vm o =>
    cases o with
    | create iid snap mem => cases snap <;> rfl
    | load iid snap mem => cases snap <;> rfl
    | spawn | start | pause | resume | kill | connect | receive => rfl
  | db | fs | s3 | mem | sys => rfl

/-- A call that no picture is taken at. -/
def Op.isBlind : Op → Bool
  | .vm (.pause _) | .vm (.create _ _ _) | .vm (.load _ _ _) => false
  | _ => true

theorem CaptureLog.sees_blind {op : Op} (blind : op.isBlind = true) (log : CaptureLog) (outcome : Except Exn op.Res) (w : World) :
    log.sees op outcome w = log := by
  cases op with
  | vm o => cases o <;> first | rfl | cases blind
  | db | fs | s3 | mem | sys => rfl

/-- A move of a guest or of its process. -/
def Move.isGuests : Move → Bool
  | .delete _ => false
  | _ => true

/-- The guests go on. -/
def drifts (P : Platform) (s s' : World × CaptureLog) : Prop :=
  s'.2 = s.2 ∧ Relation.ReflTransGen (fun w v => ∃ move : Move, move.isGuests = true ∧ w.move P move = some v) s.1 s'.1

/-- The chunks of an image that is captured are among those considered. -/
def Op.Considers (P : Platform) (K : Bytes → Prop) (w : World) : Op → Prop
  | .vm (.create iid _ _) => ∀ vm, w.hyp.vm iid = some vm → ∀ blk ∈ pages P vm.mem, K blk
  | _ => True

/-- A call of the daemon, where nothing fails to be made. -/
def loggedCall (P : Platform) (K : Bytes → Prop) (op : Op) (s : World × CaptureLog) (outcome : Except Exn op.Res)
    (s' : World × CaptureLog) :
    Prop :=
  sure P op s.1 outcome s'.1 ∧ op.Considers P K s.1 ∧ s'.2 = s.2.sees op outcome s'.1

/-- The id was given out. -/
def World.Known (w : World) (id : Id) : Prop := (w.owner id).isSome = true

/-- The VM of the instance does not run. -/
def World.Rests (w : World) (iid : Id) : Prop := ∀ vm, w.hyp.vm iid = some vm → vm.phase ≠ .running

/-- The disk of an instance. -/
def Path.isDisk : Path → Bool
  | .scratch _ => true
  | _ => false

structure Beside (w v : World) : Prop where
  rows : ∀ φ : SnapshotRow → Prop, (w.db.Every fun T => ∀ row ∈ T.snapshots, φ row) →
    v.db.Every fun T => ∀ row ∈ T.snapshots, φ row
  store : v.mem.store = w.mem.store
  live : ∀ iid ∈ v.mem.live, iid ∈ w.mem.live
  bucket : v.bucket = w.bucket
  known : ∀ id, w.Known id → v.Known id
  fs : Fs.Alike (fun p => p.isDisk = true) w.fs v.fs
  vm : ∀ iid, w.hyp.vm iid = none → v.hyp.vm iid = none

/-- Moreover `LIVE` is the same, and an instance that rests. -/
structure Resting (w v : World) : Prop extends Beside w v where
  mem : v.mem = w.mem
  rests : ∀ iid, w.Rests iid → v.Rests iid ∧ v.fs.content (.scratch iid) = w.fs.content (.scratch iid) ∧
    v.picture iid = w.picture iid

section
variable {P : Platform} {K : Bytes → Prop} {w v u : World} {op : Op} {choice : Choice} {outcome : Except Exn op.Res}

theorem Beside.refl (w : World) : Beside w w :=
  ⟨fun _ => id,rfl,fun _ => id,rfl,fun _ => id,.refl _,fun _ => id⟩

theorem Beside.trans (first : Beside w u) (second : Beside u v) : Beside w v where
  rows φ every := second.rows φ (first.rows φ every)
  store := second.store.trans first.store
  live iid member := first.live iid (second.live iid member)
  bucket := second.bucket.trans first.bucket
  known id known := second.known id (first.known id known)
  fs := first.fs.trans second.fs
  vm iid absent := second.vm iid (first.vm iid absent)

theorem Beside.content (beside : Beside w v) (wf : w.fs.Wf) {p : Path} (file : ¬ p.isDisk = true) :
    v.fs.content p = w.fs.content p := beside.fs.content wf file

theorem Resting.refl (w : World) : Resting w w := ⟨.refl w,rfl,fun _ rests => ⟨rests,rfl,rfl⟩⟩

theorem Resting.trans (first : Resting w u) (second : Resting u v) : Resting w v where
  toBeside := first.toBeside.trans second.toBeside
  mem := second.mem.trans first.mem
  rests iid rests := by
    obtain ⟨rests',disk,same⟩ := first.rests iid rests
    obtain ⟨rests'',disk',same'⟩ := second.rests iid rests'
    exact ⟨rests'',disk'.trans disk,same'.trans same⟩

/-- A guest that runs moves. -/
theorem World.Moved.resting {move : Move} (moved : w.Moved P move v) (guests : move.isGuests = true) (wf : w.fs.Wf) :
    Resting w v := by
  have fs : Fs.Alike (fun p => p.isDisk = true) w.fs v.fs ∧
      ∀ iid, w.Rests iid → v.fs.content (.scratch iid) = w.fs.content (.scratch iid) := by
    have files := moved.fs
    generalize v.fs = fs at files ⊢
    cases move with
    | delete p => cases guests
    | guestDisk iid bytes =>
      cases files with
      | none other => exact absurd rfl (other iid bytes)
      | disk there running named =>
        refine ⟨Fs.alike_put (by rfl) named bytes,fun iid' rests => ?_⟩
        refine (Fs.content_put wf _ _ _).trans (if_neg ?_)
        rintro ⟨⟩
        exact rests _ there running
    | guestMemory | agentUp | agent | workload | vmDies =>
      cases files
      exact ⟨.refl _,fun _ _ => rfl⟩
  have known : ∀ id, w.Known id → v.Known id := fun id known => by
    unfold World.Known World.owner at known ⊢
    rw [moved.used]
    exact known
  refine ⟨⟨?_,by rw [moved.mem],?_,moved.bucket,known,fs.1,fun iid => moved.none⟩,moved.mem,fun iid rests => ?_⟩
  · rw [moved.db]
    exact fun _ => id
  · rw [moved.mem]
    exact fun _ => id
  · unfold World.Rests World.picture
    rw [fs.2 iid rests]
    rcases moved.vm iid with ⟨same,_⟩ | ⟨vm,vm',there,there',moves⟩
    · rw [same]
      exact ⟨rests,rfl,rfl⟩
    · rw [there,there']
      cases moves with
      | memory running | up running | agent running | workload running => exact absurd running (rests vm there)
      | dies => exact ⟨fun _ same => Option.some.inj same ▸ by simp,rfl,rfl⟩

/-- However the guests go on. -/
theorem resting_moves (moves : Relation.ReflTransGen (fun w v => ∃ move : Move, move.isGuests = true ∧ w.move P move = some v) w v)
    (wf : w.fs.Wf) : Resting w v ∧ v.fs.Wf := by
  induction moves with
  | refl => exact ⟨.refl _,wf⟩
  | tail _ next ih =>
    obtain ⟨move,guests,moved⟩ := next
    have rested := (World.moved_of_move moved).resting guests ih.2
    exact ⟨ih.1.trans rested,rested.fs.wf ih.2⟩

/-! ## What calls leave -/

/-- A call that leaves the world beside what it was. -/
def Op.isMild : Op → Bool
  | .db (.execute (.insertSnapshot _)) => false
  | .db _ | .sys _ => true
  | .fs .makedirs | .fs (.exists _) | .fs (.getsize _) => true
  | .mem (.liveGet _) | .mem .liveKeys | .mem (.livePop _) => true
  | .vm (.start _) | .vm (.pause _) | .vm (.resume _) | .vm (.kill _) | .vm (.connect _ _) | .vm (.receive _ _) => true
  | _ => false

/-- A call that no instance can tell that rests. -/
def Op.isGentle : Op → Bool
  | .db (.execute (.insertSnapshot _)) => false
  | .db _ | .sys _ => true
  | .fs .makedirs | .fs (.exists _) | .fs (.getsize _) => true
  | .mem (.liveGet _) | .mem .liveKeys => true
  | .vm (.pause _) | .vm (.connect _ _) | .vm (.receive _ _) => true
  | _ => false

/-- Only one statement adds a row to the snapshots. -/
theorem exec_rows (ran : exec P 0 op choice w = some (outcome,v)) {φ : SnapshotRow → Prop}
    (every : w.db.Every fun T => ∀ row ∈ T.snapshots, φ row)
    (new : ∀ row, op = .db (.execute (.insertSnapshot row)) → φ row) : v.db.Every fun T => ∀ row ∈ T.snapshots, φ row := by
  refine exec_every ran every fun stmt T T' same holds applied row member => ?_
  rcases Stmt.apply_snapshots applied member with old | rfl
  · exact holds row old
  · exact new row same

theorem exec_known (ran : exec P 0 op choice w = some (outcome,v)) {id : Id} (known : w.Known id) : v.Known id := by
  obtain ⟨t,owned⟩ := Option.isSome_iff_exists.mp known
  exact Option.isSome_iff_exists.mpr ⟨t,exec_owner ran owned⟩

/-- What a call of Firecracker leaves that neither starts nor captures a VM. -/
theorem exec_vm_mild {o : VmOp} (mild : (Op.vm o).isMild = true) {outcome : Except Exn o.Res}
    (ran : exec P 0 (.vm o) choice w = some (outcome,v)) : v.fs = w.fs ∧ ∀ iid, w.hyp.vm iid = none → v.hyp.vm iid = none := by
  obtain ⟨fs,hyp,acts,rfl⟩ := exec_vmActs ran
  refine ⟨?_,fun iid absent => VmOp.acts_none acts absent ?_⟩
  · cases o with
    | spawn | load | create => cases mild
    | start | pause | resume | kill | connect | receive => cases acts <;> rfl
  · rintro rfl
    cases mild

theorem exec_beside (mild : op.isMild = true) (ran : exec P 0 op choice w = some (outcome,v)) : Beside w v := by
  have rows : ∀ φ : SnapshotRow → Prop, (w.db.Every fun T => ∀ row ∈ T.snapshots, φ row) →
      v.db.Every fun T => ∀ row ∈ T.snapshots, φ row := by
    refine fun φ every => exec_rows ran every ?_
    rintro row rfl
    cases mild
  have known : ∀ id, w.Known id → v.Known id := fun id => exec_known ran
  cases op with
  | s3 o => cases mild
  | vm o =>
    obtain ⟨fs,vm⟩ := exec_vm_mild mild ran
    obtain ⟨fs',hyp,acts,rfl⟩ := exec_vmActs ran
    obtain rfl := fs
    exact ⟨rows,rfl,fun _ => id,rfl,known,.refl _,vm⟩
  | fs o =>
    obtain ⟨⟨r,fs⟩,executed,same⟩ := Option.map_eq_some_iff.mp ran
    cases same
    have same : fs = w.fs := by
      cases fsExec_touches executed with
      | none => rfl
      | opened | wrote | removed | replaced | copied | made => cases mild
    obtain rfl := same
    exact ⟨rows,rfl,fun _ => id,rfl,known,.refl _,fun _ => id⟩
  | mem o =>
    have live : ∀ iid ∈ v.mem.live, iid ∈ w.mem.live := by
      intro iid member
      rcases exec_live ran member with old | same
      · exact old
      · cases same
        cases mild
    obtain ⟨⟨r,mem⟩,executed,same⟩ := Option.map_eq_some_iff.mp ran
    cases same
    refine ⟨rows,?_,live,rfl,known,.refl _,fun _ => id⟩
    cases o with
    | liveGet | liveKeys | livePop =>
      cases choice <;> cases executed
      rfl
    | liveSet | store | update | acquire | release => cases mild
  | db o | sys o =>
    obtain ⟨_,_,same⟩ := Option.map_eq_some_iff.mp ran
    cases same
    exact ⟨rows,rfl,fun _ => id,rfl,known,.refl _,fun _ => id⟩

theorem Op.isGentle.mild (gentle : op.isGentle = true) : op.isMild = true := by
  cases op with
  | db o =>
    cases o with
    | execute stmt => cases stmt <;> first | rfl | cases gentle
    | read | commit | rollback => rfl
  | sys o => rfl
  | fs o | mem o | vm o => cases o <;> first | rfl | cases gentle
  | s3 o => cases gentle

/-- An exchange with a VM leaves one that rests as it is; so does a pause. -/
theorem exec_vm_gentle {o : VmOp} (gentle : (Op.vm o).isGentle = true) {outcome : Except Exn o.Res}
    (ran : exec P 0 (.vm o) choice w = some (outcome,v)) {iid : Id} (rests : w.Rests iid) :
    v.Rests iid ∧ v.picture iid = w.picture iid := by
  have files := (exec_vm_mild (Op.isGentle.mild gentle) ran).1
  obtain ⟨fs,hyp,acts,rfl⟩ := exec_vmActs ran
  obtain rfl : fs = w.fs := files
  by_cases own : iid = o.target
  swap
  · have same := VmOp.acts_other acts own
    unfold World.Rests World.picture
    rw [same]
    exact ⟨rests,rfl⟩
  subst own
  have set : ∀ vm vm' : Vm, w.hyp.vm o.target = some vm → vm'.mem = vm.mem → vm'.dev = vm.dev → vm'.phase ≠ .running →
      ({ w with hyp := w.hyp.set o.target vm' } : World).Rests o.target ∧
        ({ w with hyp := w.hyp.set o.target vm' } : World).picture o.target = w.picture o.target := by
    intro vm vm' there mem dev phase
    refine ⟨fun vm'' found => ?_,?_⟩
    · rw [Hypervisor.set_self] at found
      exact Option.some.inj found ▸ phase
    · unfold World.picture
      rw [Hypervisor.set_self,there]
      simp [mem,dev]
  cases o with
  | spawn | start | load | create | resume | kill => cases gentle
  | pause iid =>
    cases acts with
    | fails => exact ⟨rests,rfl⟩
    | @pause _ vm _ there alive => exact set vm _ there rfl rfl (by simp)
  | connect iid line =>
    cases acts with
    | fails => exact ⟨rests,rfl⟩
    | connect there running => exact absurd running (rests _ there)
    | @lost _ _ vm there => exact set vm _ there rfl rfl (rests vm there)
  | receive iid conn => cases acts <;> exact ⟨rests,rfl⟩

theorem exec_resting (gentle : op.isGentle = true) (ran : exec P 0 op choice w = some (outcome,v)) : Resting w v := by
  have beside := exec_beside (Op.isGentle.mild gentle) ran
  cases op with
  | s3 o => cases gentle
  | vm o =>
    refine ⟨beside,exec_mem rfl ran,fun iid rests => ?_⟩
    obtain ⟨rests',same⟩ := exec_vm_gentle gentle ran rests
    exact ⟨rests',by rw [(exec_vm_mild (Op.isGentle.mild gentle) ran).1],same⟩
  | mem o =>
    obtain ⟨⟨r,mem⟩,executed,same⟩ := Option.map_eq_some_iff.mp ran
    cases same
    refine ⟨beside,?_,fun _ rests => ⟨rests,rfl,rfl⟩⟩
    cases o with
    | liveGet | liveKeys =>
      cases choice <;> cases executed
      rfl
    | liveSet | livePop | store | update | acquire | release => cases gentle
  | fs o =>
    obtain ⟨⟨r,fs⟩,executed,same⟩ := Option.map_eq_some_iff.mp ran
    cases same
    have same : fs = w.fs := by
      cases fsExec_touches executed with
      | none => rfl
      | opened | wrote | removed | replaced | copied | made => cases gentle
    obtain rfl := same
    exact ⟨beside,rfl,fun _ rests => ⟨rests,rfl,rfl⟩⟩
  | db o | sys o =>
    obtain ⟨_,_,same⟩ := Option.map_eq_some_iff.mp ran
    cases same
    exact ⟨beside,rfl,fun _ rests => ⟨rests,rfl,rfl⟩⟩

/-- What holds on while the guests go on. -/
def Patient (A : World × CaptureLog → Prop) : Prop := ∀ w v log, w.fs.Wf → Resting w v → A (w,log) → A (v,log)

/-- What holds of every world beside. -/
def Abiding (A : World × CaptureLog → Prop) : Prop := ∀ w v log, w.fs.Wf → Beside w v → A (w,log) → A (v,log)

/-- The rules of a daemon that serves one request at a time. -/
abbrev captureRules (P : Platform) (K : Bytes → Prop) : Rules sig Exn (World × CaptureLog) :=
  single (drifts P) (loggedCall P K) fun s => s.1.fs.Wf

/-- From a state with `A` the program returns in `B` or raises in `E`. -/
abbrev Attains {α : Type} (P : Platform) (K : Bytes → Prop) (A : World × CaptureLog → Prop) (program : KProg α)
    (E : World × CaptureLog → Prop) (B : α → World × CaptureLog → Prop) : Prop := Lands (captureRules P K) 0 A program E B

theorem captureRules_lawful : (captureRules P K).Lawful :=
  single_lawful (fun _ => ⟨rfl,.refl⟩) fun first second => ⟨second.1.trans first.1,first.2.trans second.2⟩

section
variable {A E : World × CaptureLog → Prop} {α : Type}

theorem Abiding.patient (abiding : Abiding A) : Patient A :=
  fun w v log wf rested => abiding w v log wf rested.toBeside

theorem Patient.stable (patient : Patient A) : Stable (captureRules P K) 0 A := by
  rintro ⟨w,log⟩ ⟨v,log'⟩ wf _ ⟨same,moves⟩ holds
  obtain rfl : log' = log := same
  exact patient w v log' wf (resting_moves moves wf).1 holds

/-- One call, by what it does to the world and to the log. -/
theorem attains_call {op : Op} {B : op.Res → World × CaptureLog → Prop} (patient : Patient A) (failed : Patient E)
    (returned : ∀ value, Patient (B value))
    (post : ∀ choice value w log v, w.fs.Wf → A (w,log) → op.Considers P K w →
      exec P 0 op choice w = some (.ok value,v) → B value (v,log.sees op (.ok value) v))
    (raised : ∀ choice error w log v, w.fs.Wf → A (w,log) → exec P 0 op choice w = some (.error error,v) → E (v,log)) :
    Attains P K A (Prog.perform (S := sig) op) E B := by
  refine Triple.perform patient.stable (single_acts ?_) fun outcome => ?_
  · rintro ⟨w,log⟩ outcome ⟨v,log'⟩ wf holds ⟨⟨⟨choice,ran⟩,_⟩,considered,seen⟩
    obtain rfl : log' = log.sees op outcome v := seen
    refine ⟨(exec_touches ran).wf wf,?_⟩
    cases outcome with
    | ok value => exact post choice value w log v wf holds considered ran
    | error error =>
      rw [CaptureLog.sees_error]
      exact raised choice error w log v wf holds ran
  · cases outcome with
    | ok value => exact (returned value).stable
    | error error => exact failed.stable

/-- Calls that keep an assertion, whatever becomes of them. -/
theorem attains_keeps {p : Op → Prop} {program : KProg α} (only : program.Only fun op : Op => p op) (patient : Patient A)
    (keeps : ∀ op, p op → ∀ choice outcome w log v, w.fs.Wf → A (w,log) → exec P 0 op choice w = some (outcome,v) →
      A (v,log.sees op outcome v)) : Attains P K A program A fun _ => A := by
  refine Lands.only patient.stable (fun op allowed => single_acts ?_) only
  rintro ⟨w,log⟩ outcome ⟨v,log'⟩ wf holds ⟨⟨⟨choice,ran⟩,_⟩,_,seen⟩
  obtain rfl : log' = log.sees op outcome v := seen
  exact ⟨(exec_touches ran).wf wf,keeps op allowed choice outcome w log v wf holds ran⟩

/-- Calls that nobody can tell. -/
theorem attains_gentle {program : KProg α} (patient : Patient A)
    (only : program.Only fun op : Op => op.isGentle = true ∧ op.isBlind = true) : Attains P K A program A fun _ => A := by
  refine attains_keeps only patient ?_
  rintro op ⟨gentle,blind⟩ choice outcome w log v wf holds ran
  rw [CaptureLog.sees_blind blind]
  exact patient w v log wf (exec_resting gentle ran) holds

theorem attains_mild {program : KProg α} (abiding : Abiding A)
    (only : program.Only fun op : Op => op.isMild = true ∧ op.isBlind = true) : Attains P K A program A fun _ => A := by
  refine attains_keeps only abiding.patient ?_
  rintro op ⟨mild,blind⟩ choice outcome w log v wf holds ran
  rw [CaptureLog.sees_blind blind]
  exact abiding w v log wf (exec_beside mild ran) holds

theorem attains_raise {error : Exn} {B : α → World × CaptureLog → Prop} (patient : Patient A) (given : ∀ s, A s → E s) :
    Attains P K A (Prog.raise error) E B := Lands.raise patient.stable fun _ _ => given _

theorem attains_ret {value : α} {B : α → World × CaptureLog → Prop} (patient : Patient A) (given : ∀ s, A s → B value s) :
    Attains P K A (.ret value) E B := Lands.ret patient.stable fun _ _ => given _

/-- What is raised inside is raised after a rollback. -/
theorem attains_connection {body : KProg α} {B : α → World × CaptureLog → Prop} (abiding : Abiding E)
    (inside : Attains P K A body E B) : Attains P K A (connection body) E B := by
  refine Lands.catching captureRules_lawful inside fun error => ?_
  refine Lands.bind captureRules_lawful (B := fun _ => E) (attains_mild abiding (Prog.Only.perform ⟨rfl,rfl⟩)) fun _ => ?_
  exact attains_raise abiding.patient fun _ holds => holds

theorem Talks.gentle {program : KProg α} (talks : Talks program) :
    program.Only fun op : Op => op.isGentle = true ∧ op.isBlind = true := by
  refine Prog.Only.mono ?_ talks
  rintro op ⟨listed,_⟩
  cases op with
  | sys o => exact ⟨rfl,rfl⟩
  | db | s3 => simp [Op.kind] at listed
  | fs o => rcases o.kind_cases with kind | kind <;> simp [Op.kind,kind] at listed
  | mem o => cases o <;> simp [Op.kind,MemOp.kind] at listed
  | vm o => cases o <;> first | exact ⟨rfl,rfl⟩ | simp [Op.kind,VmOp.kind] at listed

end
end
end Klados
