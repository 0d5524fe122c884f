import Klados.Protocol
import Klados.Solo

/-!
A request of the daemon that runs alone while the guests go on. What is seen of it is the scene: the
database, the memory of the daemon, who was given each id and the phase of each process; and an auxiliary
value that sees its calls. The lemmas say for each call what it does to the scene.
-/
namespace Klados
open Effects
open Prog (Only)

/-- The phase of the Firecracker process of an instance. -/
def World.phase (w : World) (iid : Id) : Option Phase := (w.hyp.vm iid).map (·.phase)

structure Scene where
  db : Db
  mem : Memory
  owner : Id → Option Nat
  phase : Id → Option Phase

def World.scene (w : World) : Scene := ⟨w.db,w.mem,w.owner,w.phase⟩

section
variable {P : Platform} {Γ : Type} {see : (op : Op) → Except Exn op.Res → World → Γ → Γ} {t : Nat}

/-- The daemon with an auxiliary value that sees every call and the world after it. -/
abbrev observed (P : Platform) (see : (op : Op) → Except Exn op.Res → World → Γ → Γ) :
    Machine sig Exn Json Req (World × Γ) Choice Move :=
  (daemon P).watch (fun _ op outcome _ v => see op outcome v) (fun _ _ seen => seen) fun seen => seen

/-- No Firecracker process dies by itself. -/
def nobodyDies (_ : World × Γ) (move : Move) : Prop := ∀ iid, move ≠ .vmDies iid

/-- A move of a guest keeps the phase of its process. -/
theorem scene_moved {w v : World} {move : Move} (moved : w.Moved P move v) (lives : ∀ iid, move ≠ .vmDies iid) :
    v.scene = w.scene := by
  have phase : v.phase = w.phase := by
    funext iid
    unfold World.phase
    rcases moved.vm iid with ⟨same,_⟩ | ⟨vm,vm',there,there',moves⟩
    · rw [same]
    · rw [there,there']
      cases moves with
      | memory | up | agent | workload => rfl
      | dies => exact absurd rfl (lives iid)
  have owner : v.owner = w.owner := by
    funext id
    rw [World.owner,World.owner,moved.used]
  unfold World.scene
  rw [moved.db,moved.mem,owner,phase]

/-- Thread `t` runs alone. -/
def alone (P : Platform) (see : (op : Op) → Except Exn op.Res → World → Γ → Γ) (t : Nat) :
    Solo sig Exn (World × Γ) (Scene × Γ) where
  step := (observed P see).step t
  drift := (observed P see).drift nobodyDies
  view s := (s.1.scene,s.2)
  refl _ := .refl
  trans _ _ _ := Relation.ReflTransGen.trans
  still w v drifted := by
    induction drifted with
    | refl => rfl
    | tail _ next ih =>
      obtain ⟨move,lives,moved⟩ := next
      obtain ⟨after,moved',rfl⟩ := Option.map_eq_some_iff.mp moved
      rw [← ih,scene_moved (World.moved_of_move moved') lives]

/-- One call, by what it does to the world. -/
theorem alone_call {op : Op} {A e : Scene × Γ → Prop} {r : op.Res → Scene × Γ → Prop}
    (post : ∀ choice value w v seen, exec P t op choice w = some (.ok value,v) → A (w.scene,seen) →
      r value (v.scene,see op (.ok value) v seen))
    (raised : ∀ choice error w v seen, exec P t op choice w = some (.error error,v) → A (w.scene,seen) →
      e (v.scene,see op (.error error) v seen)) :
    (alone P see t).Proves A (Prog.perform (S := sig) op) e r := by
  refine Solo.call (k := alone P see t) ?_ ?_
  · rintro ⟨w,seen⟩ value ⟨v,seen'⟩ ⟨choice,ran⟩ holds
    obtain ⟨⟨outcome,after⟩,ran',same⟩ := Option.map_eq_some_iff.mp ran
    cases same
    exact post choice value w v seen ran' holds
  · rintro ⟨w,seen⟩ error ⟨v,seen'⟩ ⟨choice,ran⟩ holds
    obtain ⟨⟨outcome,after⟩,ran',same⟩ := Option.map_eq_some_iff.mp ran
    cases same
    exact raised choice error w v seen ran' holds

/-- Calls that keep an assertion, whatever becomes of them. -/
theorem alone_keeps {p : Op → Prop} {A : Scene × Γ → Prop}
    (acts : ∀ op, p op → ∀ choice outcome w v seen, exec P t op choice w = some (outcome,v) → A (w.scene,seen) →
      A (v.scene,see op outcome v seen)) {α : Type} {program : KProg α} (only : program.Only fun op : Op => p op) :
    (alone P see t).Proves A program A fun _ => A := by
  refine Solo.keeps (k := alone P see t) ?_ only
  rintro op allowed ⟨w,seen⟩ outcome ⟨v,seen'⟩ ⟨choice,ran⟩ holds
  obtain ⟨⟨outcome',after⟩,ran',same⟩ := Option.map_eq_some_iff.mp ran
  cases same
  exact acts op allowed choice outcome w v seen ran' holds

/-- A part that raises what its calls raise. -/
theorem alone_straight {p : Op → Prop} {A e : Scene × Γ → Prop} {α : Type} {program : KProg α}
    (only : program.Only fun op : Op => p op) (straight : program.Straight)
    (post : ∀ op, p op → ∀ choice value w v seen, exec P t op choice w = some (.ok value,v) → A (w.scene,seen) →
      A (v.scene,see op (.ok value) v seen))
    (raised : ∀ op, p op → ∀ choice error w v seen, exec P t op choice w = some (.error error,v) → A (w.scene,seen) →
      e (v.scene,see op (.error error) v seen)) :
    (alone P see t).Proves A program e fun _ => A := by
  refine Solo.straight (k := alone P see t) only straight ?_ ?_
  · rintro op allowed ⟨w,seen⟩ value ⟨v,seen'⟩ ⟨choice,ran⟩ holds
    obtain ⟨⟨outcome',after⟩,ran',same⟩ := Option.map_eq_some_iff.mp ran
    cases same
    exact post op allowed choice value w v seen ran' holds
  · rintro op allowed ⟨w,seen⟩ error ⟨v,seen'⟩ ⟨choice,ran⟩ holds
    obtain ⟨⟨outcome',after⟩,ran',same⟩ := Option.map_eq_some_iff.mp ran
    cases same
    exact raised op allowed choice error w v seen ran' holds

end

section
variable {P : Platform} {t : Nat} {op : Op} {choice : Choice} {w v : World}

/-- A call that leaves the scene as it is: on files, on the bucket, a look at the tables or at the store, or an
    exchange with a guest agent. -/
def Op.isQuiet : Op → Bool
  | .fs _ | .s3 _ | .db .read | .mem .store | .vm (.connect _ _) | .vm (.receive _ _) => true
  | .sys .newId => false
  | .sys _ => true
  | _ => false

theorem scene_quiet (quiet : op.isQuiet = true) {outcome : Except Exn op.Res}
    (ran : exec P t op choice w = some (outcome,v)) : v.scene = w.scene := by
  cases op with
  | fs o | s3 o =>
    obtain ⟨_,_,same⟩ := Option.map_eq_some_iff.mp ran
    cases same
    rfl
  | db o =>
    cases o with
    | read =>
      obtain ⟨db,acts,rfl⟩ := exec_dbActs ran
      cases acts <;> rfl
    | execute | commit | rollback => cases quiet
  | mem o =>
    cases o with
    | store =>
      obtain ⟨_,executed,same⟩ := Option.map_eq_some_iff.mp ran
      cases choice <;> cases executed
      cases same
      rfl
    | liveGet | liveSet | livePop | liveKeys | update | acquire | release => cases quiet
  | sys o =>
    cases o with
    | newId => cases quiet
    | token | now | sleep | beforeDeadline | isDir =>
      obtain ⟨_,executed,same⟩ := Option.map_eq_some_iff.mp ran
      cases choice <;> cases executed
      cases same
      rfl
    | follow sid path =>
      obtain ⟨_,rfl⟩ := exec_follow ran
      rfl
  | vm o =>
    obtain ⟨fs,hyp,acts,rfl⟩ := exec_vmActs ran
    have phase : ∀ {iid : Id} {vm vm' : Vm}, w.hyp.vm iid = some vm → vm'.phase = vm.phase →
        ({ w with fs, hyp := w.hyp.set iid vm' } : World).scene = w.scene := by
      intro iid vm vm' there same
      unfold World.scene
      congr 1
      funext iid'
      unfold World.phase
      by_cases own : iid' = iid
      · rw [own,Hypervisor.set_self,there,Option.map_some,Option.map_some,same]
      · rw [Hypervisor.set_other _ own]
    cases o with
    | connect iid line =>
      cases acts with
      | fails => rfl
      | connect there _ _ | lost there => exact phase there rfl
    | receive iid conn => cases acts <;> rfl
    | spawn | start | load | pause | create | resume | kill => cases quiet

/-- The clock, the waiting and the new ids do not fail. -/
theorem sys_returns (sys : op.kind = .sys) {error : Exn} : exec P t op choice w ≠ some (.error error,v) := by
  intro ran
  cases op with
  | sys o =>
    cases o with
    | newId =>
      obtain ⟨⟨result,used⟩,executed,same⟩ := Option.map_eq_some_iff.mp ran
      cases same
      cases choice with
      | id value =>
        simp only [sysExec] at executed
        split at executed <;> cases executed
      | ok | fail | torn | text | time | flag | boot | bootLost | lost | eof | puts | found => cases executed
    | token | now | sleep | beforeDeadline | isDir =>
      obtain ⟨⟨result,used⟩,executed,same⟩ := Option.map_eq_some_iff.mp ran
      cases same
      cases choice <;> cases executed
    | follow sid path =>
      obtain ⟨⟨_,_,_,same⟩,_⟩ := exec_follow ran
      cases same
  | mem o | vm o => cases o <;> cases sys
  | fs o => rcases o.kind_cases with kind | kind <;> simp [Op.kind,kind] at sys
  | db o | s3 o => cases sys

/-- The call failed; what the exchange with a guest raises is swallowed. -/
def Op.fails (op : Op) : Except Exn op.Res → Bool
  | .ok _ => false
  | .error _ => op.kind ≠ .agent

section
variable {α : Type}

/-- The part leaves the scene as it is and speaks to no guest. -/
abbrev Silent (program : KProg α) : Prop := program.Only fun op : Op => op.isQuiet = true ∧ op.kind ≠ .agent

theorem quiet_fs {o : FsOp} : Silent (fsCall o) :=
  Only.perform ⟨rfl,by rcases o.kind_cases with kind | kind <;> simp [Op.kind,kind]⟩

theorem Talks.quiet {program : KProg α} (talks : Talks program) :
    program.Only fun op : Op => op.isQuiet = true ∧ (op.kind = .agent ∨ op.kind = .sys) := by
  refine Only.mono ?_ talks
  rintro op ⟨listed,notNew⟩
  cases op with
  | db o => simp [Op.kind] at listed
  | fs o => rcases o.kind_cases with kind | kind <;> simp [Op.kind,kind] at listed
  | s3 o => simp [Op.kind] at listed
  | mem o => cases o <;> simp [Op.kind,MemOp.kind] at listed
  | vm o => cases o <;> first | exact ⟨rfl,.inl rfl⟩ | simp [Op.kind,VmOp.kind] at listed
  | sys o => cases o <;> first | exact ⟨rfl,.inr rfl⟩ | exact absurd rfl notNew

end

/-- The scene with the phase of one process set. -/
def Scene.setPhase (u : Scene) (iid : Id) (phase : Phase) : Scene :=
  { u with phase := Function.update u.phase iid (some phase) }

theorem scene_set (fs : Files.Fs Path) (iid : Id) (vm : Vm) :
    ({ w with fs, hyp := w.hyp.set iid vm } : World).scene = w.scene.setPhase iid vm.phase := by
  unfold World.scene Scene.setPhase
  congr 1
  funext iid'
  unfold World.phase
  by_cases own : iid' = iid
  · rw [own,Hypervisor.set_self,Function.update_self,Option.map_some]
  · rw [Hypervisor.set_other _ own,Function.update_of_ne own]

theorem scene_newId {outcome : Except Exn Id} (ran : exec P t (.sys .newId) choice w = some (outcome,v)) :
    ∃ id, outcome = .ok id ∧ w.scene.owner id = none ∧
      v.scene = { w.scene with owner := Function.update w.scene.owner id (some t) } := by
  obtain ⟨id,made,unowned,rfl⟩ := exec_newId ran
  refine ⟨id,made,unowned,?_⟩
  unfold World.scene
  congr 1
  funext id'
  by_cases own : id' = id
  · rw [own,Function.update_self]
    simp [World.owner]
  · rw [Function.update_of_ne own]
    simp [World.owner,Ne.symm own]

theorem scene_liveSet {iid : Id} {outcome : Except Exn Unit}
    (ran : exec P t (.mem (.liveSet iid)) choice w = some (outcome,v)) (new : iid ∉ w.mem.live) :
    outcome = .ok () ∧ v.scene = { w.scene with mem := { w.scene.mem with live := w.scene.mem.live ++ [iid] } } := by
  obtain ⟨_,executed,same⟩ := Option.map_eq_some_iff.mp ran
  cases choice <;> cases executed
  cases same
  refine ⟨rfl,?_⟩
  have absent : ¬ w.mem.live.contains iid = true := by simpa using new
  unfold World.scene
  rw [if_neg absent]
  rfl

/-- Thread `t` may write: no other thread has a transaction. -/
def Db.FreeFor (db : Db) (t : Nat) : Prop := ∀ t' T, db.txn = some (t',T) → t' = t

theorem Db.FreeFor.idle {db : Db} {t : Nat} (free : db.FreeFor t) (unborn : ∀ T, db.txn ≠ some (t,T)) : db.txn = none := by
  cases pending : db.txn with
  | none => rfl
  | some pair => exact absurd (free pair.1 pair.2 pending ▸ pending) (unborn pair.2)

theorem Db.same {db db' : Db} (committed : db.committed = db'.committed) (txn : db.txn = db'.txn) : db = db' := by
  cases db
  cases db'
  cases committed
  cases txn
  rfl

/-- The tables as they were, with at most a transaction of thread `t` on them. -/
structure Db.Drafted (t : Nat) (db db' : Db) : Prop where
  committed : db'.committed = db.committed
  txn : db'.txn = db.txn ∨ (db.FreeFor t ∧ ∃ T, db'.txn = some (t,T))

theorem Db.Drafted.of_eq {db db' : Db} (same : db' = db) : db.Drafted t db' :=
  ⟨congrArg Db.committed same,.inl (congrArg Db.txn same)⟩

/-- The rollback of a thread that had no transaction restores the database. -/
theorem Db.Drafted.rolled {db : Db} (drafted : db.Drafted t w.db) (unborn : ∀ T, db.txn ≠ some (t,T)) {value : Unit}
    (ran : Klados.exec P t (.db .rollback) choice w = some (.ok value,v)) : v.scene = { w.scene with db } := by
  obtain ⟨after,acts,rfl⟩ := exec_dbActs ran
  have same : after = db := by
    cases acts with
    | rolled held =>
      rcases drafted.txn with open_ | ⟨free,_⟩
      · exact absurd (open_.symm.trans held) (unborn _)
      · exact Db.same drafted.committed (free.idle unborn).symm
    | idle idle =>
      rcases drafted.txn with open_ | ⟨_,T,held⟩
      · exact Db.same drafted.committed open_
      · exact absurd held (idle T)
  rw [same]
  rfl

/-- Reading shows what is committed to a thread that has no transaction. -/
theorem scene_read (unborn : ∀ T, w.db.txn ≠ some (t,T)) {T : Tables}
    (ran : exec P t (.db .read) choice w = some (.ok T,v)) : T = w.db.committed := by
  obtain ⟨after,acts,rfl⟩ := exec_dbActs ran
  cases acts with
  | read => exact Db.visible_other unborn

/-- Whatever is raised inside, what the thread has written is rolled back. -/
theorem connection_proves {Γ : Type} {see : (op : Op) → Except Exn op.Res → World → Γ → Γ} {α : Type} {body : KProg α}
    {A r e : Scene × Γ → Prop} {q : α → Scene × Γ → Prop} {u : Scene} (unborn : ∀ T, u.db.txn ≠ some (t,T))
    (drafted : ∀ x, r x → u.db.Drafted t x.1.db)
    (undone : ∀ (v : World) (x : Scene) seen, r (x,seen) → e ({ x with db := u.db },see (.db .rollback) (.ok ()) v seen))
    (inside : (alone P see t).Proves A body r q) : (alone P see t).Proves A (connection body) e q := by
  refine Solo.catching inside fun error => ?_
  refine Solo.seq (r := fun _ => e) (alone_call ?_ ?_) fun _ => Solo.raise fun _ holds => holds
  · intro choice value w v seen ran holds
    rw [(drafted _ holds).rolled unborn ran]
    exact undone v _ seen holds
  · exact fun choice error w v seen ran _ => absurd ran rollback_returns

end
end Klados
