import Klados.Fork
import Klados.AgentLog

/-!
What the daemon's record of a branch means. Each child that a fork reports as a branch, and not as an error, has
been through the fork protocol once, in order (`reported_completed`): any number of requests may run at the same
time, messages may be lost or delayed, and the guests' writes may fail. It is asked of the run only that no clock is
refused, no generation but 0 stays unread, and no guest is captured while its agent handles a FORKED.
-/
namespace Klados
open Effects
open Prog (Only)
open Agent (Guest Line)

variable {P : Platform}

/-- For each child its log since the restore, the FORKED sent to it with its connection, and whether a READY was
    received on that connection. -/
structure ForkedLog where
  log : Id → Option AgentLog
  sent : Id → Option (Line × Nat)
  ready : Id → Bool

def ForkedLog.start : ForkedLog := ⟨fun _ => none,fun _ => none,fun _ => false⟩

def ForkedLog.sees (_ : Nat) : (op : Op) → Except Exn op.Res → World → World → ForkedLog → ForkedLog
  | .vm (.load iid _ _), _, before, after, seen =>
    if before.isPhase iid .spawned && after.isPhase iid .running then
      { seen with log := Function.update seen.log iid ((after.hyp.vm iid).map fun vm => ⟨vm.guest,[],[]⟩) }
    else seen
  | .vm (.connect iid line), .ok conn, _, _, seen =>
    if line.hasType "FORKED" then { seen with sent := Function.update seen.sent iid (some (line,conn)) } else seen
  | .vm (.receive iid conn), .ok reply, _, _, seen =>
    if (seen.sent iid).any (·.2 = conn) && isReady reply then { seen with ready := Function.update seen.ready iid true }
    else seen
  | _, _, _, _, seen => seen

def ForkedLog.moves (move : Move) (w : World) (seen : ForkedLog) : ForkedLog :=
  match move with
  | .agent iid choice =>
    match w.hyp.vm iid with
    | some vm => { seen with log := Function.update seen.log iid ((seen.log iid).map (AgentLog.turn vm.guest choice)) }
    | none => seen
  | _ => seen

def forkLogged (P : Platform) : Machine sig Exn Json Req (World × ForkedLog) Choice Move :=
  (daemon P).watch ForkedLog.sees ForkedLog.moves id

abbrev ForkLoggedPool := Pool sig Exn Json Req (World × ForkedLog)

/-- No clock is refused, no generation but 0 stays unread, and no guest is captured while its agent has settling
    calls of a FORKED to make. -/
def Undisturbed (pool : ForkLoggedPool) : Action Req Choice Move → Prop
  | .env (.agent iid choice) => ∀ vm, pool.world.1.hyp.vm iid = some vm →
      ∀ conn op next, vm.guest.current = some (conn,.call op next) → op.goes vm.guest.forkgen choice = true
  | .call t _ => ∀ iid snap mem, pool.about t = some (.vm (.create iid snap mem)) →
      ∀ vm, pool.world.1.hyp.vm iid = some vm → Unsettling vm.guest
  | _ => True

/-- The child has been through the fork protocol, once and in order. -/
structure Completed (i : Nat) (n : Int) (now : Time) (log : AgentLog) (g : Guest) : Prop where
  heard : log.heard = [.json (forkedMessage i n now)]
  order : log.took = settling i n now log.base.forkgen
  branch : g.branch = some (branchFile i n)
  clock : g.clock = some now
  forkgen : g.forkgen = log.base.forkgen + 1

section
variable {t : Nat} {op : Op} {outcome : Except Exn op.Res} {w v : World} {seen : ForkedLog} {iid : Id}

theorem sees_sent (iid : Id) : (ForkedLog.sees t op outcome w v seen).sent iid = seen.sent iid ∨
    ∃ line, op = .vm (.connect iid line) ∧ line.hasType "FORKED" = true := by
  cases op with
  | db | fs | s3 | mem | sys => exact .inl rfl
  | vm o =>
    cases o with
    | spawn | start | pause | create | resume | kill => exact .inl rfl
    | load iid' snap mem =>
      simp only [ForkedLog.sees]
      split <;> exact .inl rfl
    | receive iid' conn =>
      cases outcome with
      | error error => exact .inl rfl
      | ok reply =>
        simp only [ForkedLog.sees]
        split <;> exact .inl rfl
    | connect iid' line =>
      cases outcome with
      | error error => exact .inl rfl
      | ok conn =>
        simp only [ForkedLog.sees]
        split
        · rename_i forked
          by_cases same : iid = iid'
          · subst same
            exact .inr ⟨line,rfl,forked⟩
          · exact .inl (Function.update_of_ne same _ _)
        · exact .inl rfl

theorem sees_log (there : (seen.log iid).isSome) : ((ForkedLog.sees t op outcome w v seen).log iid).isSome := by
  cases op with
  | db | fs | s3 | mem | sys => exact there
  | vm o =>
    cases o with
    | spawn | start | pause | create | resume | kill => exact there
    | load iid' snap mem =>
      simp only [ForkedLog.sees]
      split
      · rename_i resumed
        by_cases same : iid = iid'
        · subst same
          simp only [World.isPhase,Bool.and_eq_true,Option.any_eq_true] at resumed
          obtain ⟨_,vm,found,_⟩ := resumed
          simp [found]
        · simpa [Function.update_of_ne same] using there
      · exact there
    | receive iid' conn =>
      cases outcome with
      | error error => exact there
      | ok reply =>
        simp only [ForkedLog.sees]
        split <;> exact there
    | connect iid' line =>
      cases outcome with
      | error error => exact there
      | ok conn =>
        simp only [ForkedLog.sees]
        split <;> exact there

theorem sees_ready (received : seen.ready iid = true) : (ForkedLog.sees t op outcome w v seen).ready iid = true := by
  cases op with
  | db | fs | s3 | mem | sys => exact received
  | vm o =>
    cases o with
    | spawn | start | pause | create | resume | kill => exact received
    | load iid' snap mem =>
      simp only [ForkedLog.sees]
      split <;> exact received
    | receive iid' conn =>
      cases outcome with
      | error error => exact received
      | ok reply =>
        simp only [ForkedLog.sees]
        split
        · by_cases same : iid = iid'
          · simp [same]
          · simpa [Function.update_of_ne same] using received
        · exact received
    | connect iid' line =>
      cases outcome with
      | error error => exact received
      | ok conn =>
        simp only [ForkedLog.sees]
        split <;> exact received

end

/-- FORKED goes once to each child of the thread's own, after its restore. -/
def Sends (t : Nat) : Op → World × ForkedLog → Prop
  | .vm (.connect iid line),(w,seen) =>
      line.hasType "FORKED" → w.owner iid = some t ∧ seen.sent iid = none ∧ (seen.log iid).isSome
  | _,_ => True

/-- What every step keeps. -/
structure Lasts (w v : World × ForkedLog) : Prop where
  owner : ∀ iid t, w.1.owner iid = some t → v.1.owner iid = some t
  sent : ∀ iid message, w.2.sent iid = some message → v.2.sent iid = some message
  log : ∀ iid, (w.2.log iid).isSome → (v.2.log iid).isSome
  ready : ∀ iid, w.2.ready iid = true → v.2.ready iid = true

/-- What thread `t` relies on: nobody else sends FORKED to its children. -/
structure Relied (t : Nat) (w v : World × ForkedLog) : Prop extends Lasts w v where
  own : ∀ iid, w.1.owner iid = some t → v.2.sent iid = w.2.sent iid

def telling (P : Platform) : Rules sig Exn (World × ForkedLog) where
  step := (forkLogged P).step
  inv w := ∀ iid, w.2.sent iid ≠ none → (w.1.owner iid).isSome
  rely := Relied
  guar t op w v := Sends t op w ∧ ∃ outcome, (forkLogged P).step t op w outcome v

theorem telling_lawful : (telling P).Lawful where
  refl _ _ := ⟨⟨fun _ _ => id,fun _ _ => id,fun _ => id,fun _ => id⟩,fun _ _ => rfl⟩
  trans t {_ _ _} first second := by
    refine ⟨⟨?_,?_,?_,?_⟩,?_⟩
    · exact fun iid t' owned => second.owner iid t' (first.owner iid t' owned)
    · exact fun iid message sent => second.sent iid message (first.sent iid message sent)
    · exact fun iid there => second.log iid (first.log iid there)
    · exact fun iid received => second.ready iid (first.ready iid received)
    · exact fun iid owned => (second.own iid (first.owner iid t owned)).trans (first.own iid owned)

section
variable {t : Nat} {op : Op} {outcome : Except Exn op.Res} {w v : World × ForkedLog}

theorem step_exec (step : (forkLogged P).step t op w outcome v) :
    ∃ choice, exec P t op choice w.1 = some (outcome,v.1) ∧ v.2 = ForkedLog.sees t op outcome w.1 v.1 w.2 := by
  obtain ⟨choice,ran⟩ := step
  obtain ⟨⟨outcome',u⟩,ran',same⟩ := Option.map_eq_some_iff.mp ran
  cases same
  exact ⟨choice,ran',rfl⟩

theorem step_sent (step : (forkLogged P).step t op w outcome v) (iid : Id) :
    v.2.sent iid = w.2.sent iid ∨ ∃ line, op = .vm (.connect iid line) ∧ line.hasType "FORKED" = true := by
  obtain ⟨choice,ran,same⟩ := step_exec step
  rw [same]
  exact sees_sent iid

theorem Lasts.step (sends : Sends t op w) (step : (forkLogged P).step t op w outcome v) : Lasts w v := by
  obtain ⟨choice,ran,same⟩ := step_exec step
  refine ⟨fun iid t' => exec_owner ran,?_,?_,?_⟩
  · intro iid message sent
    rcases step_sent step iid with kept | ⟨line,rfl,forked⟩
    · exact kept.trans sent
    · exact absurd ((sends forked).2.1.symm.trans sent) (by simp)
  · intro iid there
    rw [same]
    exact sees_log there
  · intro iid received
    rw [same]
    exact sees_ready received

/-- A step that does not send FORKED to a child of the thread's. -/
theorem Relied.step {t' : Nat} (sends : Sends t' op w) (step : (forkLogged P).step t' op w outcome v)
    (apart : ∀ iid line, op = .vm (.connect iid line) → line.hasType "FORKED" = true → w.1.owner iid ≠ some t) :
    Relied t w v := by
  refine ⟨Lasts.step sends step,?_⟩
  intro iid owned
  rcases step_sent step iid with kept | ⟨line,rfl,forked⟩
  · exact kept
  · exact absurd owned (apart iid line rfl forked)

theorem telling_inv (inv : (telling P).inv w) (sends : Sends t op w) (step : (forkLogged P).step t op w outcome v) :
    (telling P).inv v := by
  intro iid sent
  obtain ⟨choice,ran,_⟩ := step_exec step
  rcases step_sent step iid with kept | ⟨line,rfl,forked⟩
  · exact owner_mono ran (inv iid (kept ▸ sent))
  · exact owner_mono ran (by simp [(sends forked).1])

/-- A call that the thread may make. -/
theorem telling_acts {pre : World × ForkedLog → Prop} {Q : Except Exn op.Res → World × ForkedLog → Prop}
    (permitted : ∀ w, (telling P).inv w → pre w → Sends t op w)
    (post : ∀ choice outcome w v, (telling P).inv w → pre w → exec P t op choice w.1 = some (outcome,v) →
      Q outcome (v,ForkedLog.sees t op outcome w.1 v w.2)) : Acts (telling P) t pre op Q where
  keeps := by
    intro w outcome v inv holds step
    have may := permitted w inv holds
    obtain ⟨choice,ran,same⟩ := step_exec step
    refine ⟨telling_inv inv may step,⟨may,outcome,step⟩,?_⟩
    have after := post choice outcome w v.1 inv holds ran
    rwa [← same] at after

end

/-- The call does not send FORKED. -/
def Mute (op : Op) : Prop := ∀ iid line, op = .vm (.connect iid line) → line.hasType "FORKED" = false

theorem Mute.sends {op : Op} (mute : Mute op) (t : Nat) (w : World × ForkedLog) : Sends t op w := by
  cases op with
  | db | fs | s3 | mem | sys => trivial
  | vm o =>
    cases o with
    | connect iid line => exact fun forked => absurd ((mute iid line rfl).symm.trans forked) (by simp)
    | spawn | start | load | pause | create | resume | kill | receive => trivial

section
variable {t : Nat} {α β : Type} {kinds : List Kind} {B : World × ForkedLog → Prop}

theorem mute_triple (stable : Stable (telling P) t B) {program : KProg α} (mute : program.Only Mute) :
    Triple (telling P) t B program fun _ => B := by
  refine Triple.only stable ?_ mute
  intro op silent
  refine ⟨?_⟩
  intro w outcome v inv holds step
  have may := silent.sends t w
  have inv' := telling_inv inv may step
  refine ⟨inv',⟨may,outcome,step⟩,stable w v inv inv' (Relied.step may step ?_) holds⟩
  intro iid line same forked
  exact absurd ((silent iid line same).symm.trans forked) (by simp)

/-- A part of a program that sends no FORKED keeps what the thread knows. -/
theorem mute_bind (stable : Stable (telling P) t B) {program : KProg α} (mute : program.Only Mute) {rest : α → KProg β}
    {Q : β → World × ForkedLog → Prop} (onward : ∀ value, Triple (telling P) t B (rest value) (Ends Q)) :
    Triple (telling P) t B (program >>= rest) (Ends Q) :=
  Triple.bind telling_lawful (mute_triple stable mute) onward fun _ _ _ _ => trivial

theorem mute_perform {op : Op} (other : op.kind ≠ .agent) : (Prog.perform (S := sig) op : KProg op.Res).Only Mute := by
  refine Only.perform ?_
  rintro iid line rfl
  exact absurd rfl other

theorem Uses.mute {program : KProg α} (uses : Uses kinds program) (silent : .agent ∉ kinds) : program.Only Mute := by
  refine Only.mono ?_ uses
  rintro _ listed iid line rfl
  exact absurd listed silent

theorem mute_vsock_request (iid : Id) {payload : Json} (other : (Line.json payload).hasType "FORKED" = false) :
    (vsock_request iid payload).Only Mute := by
  refine Only.bind (Only.perform ?_) fun conn => Only.perform ?_
  · rintro _ _ ⟨⟩
    exact other
  · rintro _ _ ⟨⟩

theorem mute_status (r : Json) : (status r).Only Mute := (uses_status r : Uses [] _).mute (by simp)

theorem mute_wait_agent (iid : Id) (polls : Nat) : (wait_agent iid polls).Only Mute := by
  induction polls with
  | zero => trivial
  | succ polls ih =>
    refine Only.bind (mute_perform (by simp [Op.kind])) fun early => ?_
    split
    · trivial
    refine Only.bind (Only.catching ?_ fun _ => trivial) fun pong => ?_
    · exact Only.bind (mute_vsock_request iid rfl) fun r => Only.bind (mute_status r) fun _ => trivial
    · split
      · trivial
      · exact Only.bind (mute_perform (by simp [Op.kind])) fun _ => ih

theorem mute_connection {body : KProg α} (mute : body.Only Mute) : (connection body).Only Mute :=
  Only.catching mute fun _ => Only.bind (mute_perform (by simp [Op.kind])) fun _ => trivial

end

/-! ## The fork -/

/-- The child is the thread's own and was not sent FORKED. -/
def Unsent (t : Nat) (iid : Id) (w : World × ForkedLog) : Prop := w.1.owner iid = some t ∧ w.2.sent iid = none

/-- It is restored, too. -/
def Awaiting (t : Nat) (iid : Id) (w : World × ForkedLog) : Prop := Unsent t iid w ∧ (w.2.log iid).isSome

/-- FORKED was sent to the child. -/
def Addressed (i : Nat) (n : Int) (now : Time) (iid : Id) (conn : Nat) (w : World × ForkedLog) : Prop :=
  w.2.sent iid = some (.json (forkedMessage i n now),conn)

/-- The branch says that READY was received, or it is an error. -/
def Reports (i : Nat) (n : Int) (kid : Id × String) (w : World × ForkedLog) : Prop :=
  (kid.2 = branchOf i n ∧ w.2.ready kid.1 = true ∧ ∃ now conn, Addressed i n now kid.1 conn w) ∨ ∃ text, kid.2 = "ERR:" ++ text

section
variable {t : Nat} {iid : Id} {i : Nat} {n : Int}

theorem stable_unsent : Stable (telling P) t (Unsent t iid) :=
  fun _ _ _ _ relied ⟨owned,fresh⟩ => ⟨relied.owner iid t owned,(relied.own iid owned).trans fresh⟩

theorem stable_awaiting : Stable (telling P) t (Awaiting t iid) :=
  fun w v inv inv' relied ⟨unsent,there⟩ => ⟨stable_unsent w v inv inv' relied unsent,relied.log iid there⟩

theorem stable_addressed {now : Time} {conn : Nat} : Stable (telling P) t (Addressed i n now iid conn) :=
  fun _ _ _ _ relied sent => relied.sent iid _ sent

theorem Lasts.reports {w v : World × ForkedLog} {kid : Id × String} (lasts : Lasts w v) (reports : Reports i n kid w) :
    Reports i n kid v := by
  rcases reports with ⟨branch,received,now,conn,sent⟩ | error
  · exact .inl ⟨branch,lasts.ready kid.1 received,now,conn,lasts.sent kid.1 _ sent⟩
  · exact .inr error

theorem stable_reports {kid : Id × String} : Stable (telling P) t (Reports i n kid) :=
  fun _ _ _ _ relied => relied.toLasts.reports

theorem stable_anything : Stable (telling P) t fun _ => True := fun _ _ _ _ _ _ => trivial

/-- A new child is the thread's own. -/
theorem newId_unsent : Triple (telling P) t (fun _ => True) (sysCall .newId) (Ends fun iid => Unsent t iid) := by
  refine Triple.perform stable_anything (telling_acts (fun _ _ _ => trivial) ?_) ?_
  · intro choice outcome w v inv _ ran
    obtain ⟨iid,rfl,free,rfl⟩ := exec_newId ran
    refine ⟨by simp [World.owner],?_⟩
    by_contra sent
    have owned := inv iid sent
    simp [free] at owned
  · intro outcome
    cases outcome with
    | ok iid => exact stable_unsent
    | error error => exact stable_anything

/-- When it is booted from a snapshot, its log begins. -/
theorem boot_vm_awaiting (snap mem : Path) (scratch : Option Path) :
    Triple (telling P) t (Unsent t iid) (boot_vm iid (some (snap,mem)) scratch) (Ends fun _ => Awaiting t iid) := by
  refine mute_bind stable_unsent (mute_perform (by simp [Op.kind,FsOp.kind])) fun _ => ?_
  refine mute_bind stable_unsent ((uses_provide_scratch _ _).mute (by decide)) fun _ => ?_
  refine mute_bind stable_unsent (mute_perform (by simp [Op.kind,VmOp.kind])) fun _ => ?_
  refine Triple.seq telling_lawful (M := fun _ => Awaiting t iid) ?_ fun _ => ?_
  · refine Triple.perform stable_unsent (telling_acts (fun _ _ _ => trivial) ?_) ?_
    · rintro choice outcome w v inv ⟨owned,fresh⟩ ran
      cases outcome with
      | error error => trivial
      | ok value =>
        refine ⟨⟨exec_owner ran owned,?_⟩,?_⟩
        · rcases sees_sent iid with kept | ⟨line,connects,_⟩
          · exact kept.trans fresh
          · cases connects
        · obtain ⟨fs,hyp,acts,rfl⟩ := exec_vmActs ran
          cases acts with
          | load there spawned =>
            simp [ForkedLog.sees,World.isPhase,there,spawned]
    · intro outcome
      cases outcome with
      | ok value => exact stable_awaiting
      | error error => exact stable_anything
  · exact (mute_triple stable_awaiting (mute_perform (by simp [Op.kind,MemOp.kind]))).consequence (fun _ _ holds => holds)
      fun outcome _ _ holds => by
        cases outcome <;> first | exact holds | trivial

/-- FORKED is sent, once. -/
theorem connect_addressed (now : Time) :
    Triple (telling P) t (Awaiting t iid) (vmCall (.connect iid (.json (forkedMessage i n now))))
      (Ends fun conn => Addressed i n now iid conn) := by
  refine Triple.perform stable_awaiting (telling_acts ?_ ?_) ?_
  · exact fun w _ ⟨⟨owned,fresh⟩,there⟩ _ => ⟨owned,fresh,there⟩
  · intro choice outcome w v _ _ ran
    cases outcome with
    | error error => trivial
    | ok conn =>
      have forked : (Line.json (forkedMessage i n now)).hasType "FORKED" = true := rfl
      simp [Addressed,Ends,ForkedLog.sees,forked]
  · intro outcome
    cases outcome with
    | ok conn => exact stable_addressed
    | error error => exact stable_anything

/-- A READY that comes back on its connection is noted. -/
theorem receive_noted {now : Time} {conn : Nat} :
    Triple (telling P) t (Addressed i n now iid conn) (vmCall (.receive iid conn))
      (Ends fun reply w => Addressed i n now iid conn w ∧ (isReady reply = true → w.2.ready iid = true)) := by
  refine Triple.perform stable_addressed (telling_acts (fun _ _ _ => trivial) ?_) ?_
  · intro choice outcome w v _ sent ran
    cases outcome with
    | error error => trivial
    | ok reply =>
      refine ⟨?_,fun ready => ?_⟩
      · rcases sees_sent iid with kept | ⟨line,connects,_⟩
        · exact kept.trans sent
        · cases connects
      · have here : w.2.sent iid = some (.json (forkedMessage i n now),conn) := sent
        simp [ForkedLog.sees,here,ready]
  · intro outcome
    cases outcome with
    | ok reply =>
      exact fun w v inv inv' relied ⟨sent,noted⟩ =>
        ⟨stable_addressed w v inv inv' relied sent,fun ready => relied.ready iid (noted ready)⟩
    | error error => exact stable_anything

/-- The branch of a child is recorded as such only when it answered READY. -/
theorem handshake_reports :
    Triple (telling P) t (Awaiting t iid) (handshake P iid i n) (Ends fun branch => Reports i n (iid,branch)) := by
  refine Triple.catching telling_lawful (M := Ends fun branch => Reports i n (iid,branch)) ?_ (fun _ _ _ holds => holds) ?_
  · refine mute_bind stable_awaiting (mute_wait_agent iid polls) fun _ => ?_
    refine mute_bind stable_awaiting (mute_perform (by simp [Op.kind])) fun now => ?_
    refine Triple.seq telling_lawful (M := fun reply w => ∃ conn, Addressed i n now iid conn w ∧
      (isReady reply = true → w.2.ready iid = true)) ?_ fun reply => ?_
    · refine Triple.seq telling_lawful (connect_addressed now) fun conn => ?_
      refine receive_noted.consequence (fun _ _ holds => holds) fun outcome _ _ holds => ?_
      cases outcome with
      | ok reply => exact ⟨conn,holds⟩
      | error error => trivial
    · have stable : Stable (telling P) t fun w => ∃ conn, Addressed i n now iid conn w ∧
          (isReady reply = true → w.2.ready iid = true) := by
        rintro w v inv inv' relied ⟨conn,sent,noted⟩
        exact ⟨conn,stable_addressed w v inv inv' relied sent,fun ready => relied.ready iid (noted ready)⟩
      unfold status
      split
      · rename_i dict
        refine Triple.ret stable ?_
        rintro w _ ⟨conn,sent,noted⟩
        by_cases ready : isReady reply = true
        · have answers : ((reply.get? "status").getD .null).isStr "READY" = true := by
            simpa [isReady,dict,Agent.field] using ready
          refine .inl ⟨?_,noted ready,now,conn,sent⟩
          simp only [answers,if_true]
          rfl
        · have other : ((reply.get? "status").getD .null).isStr "READY" = false := by
            simpa [isReady,dict,Agent.field] using ready
          refine .inr ⟨P.pyRepr reply,?_⟩
          simp [other]
      · exact Triple.raise stable fun _ _ _ => trivial
  · exact fun error => Triple.ret stable_anything fun _ _ _ => .inr ⟨_,rfl⟩

theorem fork_child_reports (snap : SnapshotRow) :
    Triple (telling P) t (fun _ => True) (fork_child P snap n i) (Ends (Reports i n)) := by
  refine Triple.seq telling_lawful newId_unsent fun iid => ?_
  refine Triple.seq telling_lawful (boot_vm_awaiting _ _ _) fun _ => ?_
  refine Triple.seq telling_lawful handshake_reports fun branch => ?_
  refine mute_bind stable_reports (mute_perform (by simp [Op.kind])) fun now => ?_
  refine mute_bind stable_reports (mute_perform (by simp [Op.kind])) fun _ => ?_
  exact Triple.ret stable_reports fun _ _ reports => reports

/-- What is asked of a reply of `fork_snapshot`. -/
def Answers (n : Int) (reply : Json) (w : World × ForkedLog) : Prop :=
  ∃ kids, reply = childrenReply kids ∧ kids.length = n.toNat ∧ ∀ i kid, kids[i]? = some kid → Reports i n kid w

/-- The children reported so far. -/
def Reported (n : Int) (done : List Nat) (kids : List (Id × String)) (w : World × ForkedLog) : Prop :=
  kids.length = done.length ∧ ∀ i kid, kids[i]? = some kid → Reports i n kid w

theorem Lasts.reported {w v : World × ForkedLog} {done : List Nat} {kids : List (Id × String)} (lasts : Lasts w v)
    (reported : Reported n done kids w) : Reported n done kids v :=
  ⟨reported.1,fun i kid found => lasts.reports (reported.2 i kid found)⟩

/-- One pass of the loop reports one child more. -/
theorem fork_child_reported (snap : SnapshotRow) (done : List Nat) (kids : List (Id × String)) :
    Triple (telling P) t (Reported n done kids) (fork_child P snap n done.length) (fun outcome w =>
      match outcome with
      | .ok kid => Reported n (done ++ [done.length]) (kids ++ [kid]) w
      | .error _ => True) := by
  have capturedWhole : Triple (telling P) t (fun w => True ∧ Reported n done kids w) (fork_child P snap n done.length)
    fun outcome w =>
      Ends (Reports done.length n) outcome w ∧ Reported n done kids w :=
    (fork_child_reports snap).frame (fun _ _ _ _ relied => relied.toLasts.reported)
      fun _ _ _ _ _ ⟨sends,_,step⟩ => (Lasts.step sends step).reported
  refine capturedWhole.consequence (fun _ _ reported => ⟨trivial,reported⟩) ?_
  intro outcome w _ ⟨reports,reported⟩
  cases outcome with
  | error error => trivial
  | ok kid =>
    refine ⟨by simp [reported.1],?_⟩
    intro j kid' found
    rcases Nat.lt_or_ge j kids.length with old | new
    · rw [List.getElem?_append_left old] at found
      exact reported.2 j kid' found
    · rw [List.getElem?_append_right new] at found
      obtain ⟨inside,same⟩ := List.getElem?_eq_some_iff.mp found
      have place : j = done.length := by
        have count := reported.1
        simp at inside
        omega
      subst place
      simp at same
      exact same ▸ reports

theorem fork_snapshot_answers (sid : Id) (n : Int) :
    Triple (telling P) t (fun _ => True) (fork_snapshot P sid n) (Ends (Answers n)) := by
  refine Triple.catching telling_lawful (M := Ends (Answers n)) ?_ (fun _ _ _ holds => holds) ?_
  · refine mute_bind stable_anything (mute_perform (by simp [Op.kind])) fun T => ?_
    split
    · exact Triple.raise stable_anything fun _ _ _ => trivial
    rename_i snap _
    refine mute_bind stable_anything ((uses_reconstruct_mem P sid).mute (by decide)) fun _ => ?_
    have stable : ∀ done kids, Stable (telling P) t (Reported n done kids) :=
      fun done kids w v _ _ relied => relied.toLasts.reported
    refine Triple.seq telling_lawful (M := Reported n (List.range n.toNat)) ?_ fun kids => ?_
    · refine (Triple.each (P := Reported n) (E := fun _ _ => True) telling_lawful stable ?_).consequence ?_ ?_
      · intro done i rest kids split
        have place : i = done.length := by
          have here : (List.range n.toNat)[done.length]? = some i := by simp [split]
          obtain ⟨_,same⟩ := List.getElem?_eq_some_iff.mp here
          simpa using same.symm
        rw [place]
        refine (fork_child_reported snap done kids).consequence (fun _ _ holds => holds) ?_
        intro outcome _ _ holds
        cases outcome <;> exact holds
      · exact fun _ _ _ => ⟨rfl,by simp⟩
      · intro outcome _ _ holds
        cases outcome <;> exact holds
    · refine mute_bind (stable _ _) (mute_perform (by simp [Op.kind])) fun _ => ?_
      refine Triple.ret (stable _ _) ?_
      rintro _ _ ⟨count,reports⟩
      exact ⟨kids,rfl,by simpa using count,reports⟩
  · intro error
    refine mute_bind stable_anything (mute_perform (by simp [Op.kind])) fun _ => ?_
    exact Triple.raise stable_anything fun _ _ _ => trivial

theorem mute_create_run (project_id : Id) (image_label : Json) : (create_run P project_id image_label).Only Mute := by
  refine Only.bind (mute_perform (by simp [Op.kind])) fun rid => Only.bind (mute_perform (by simp [Op.kind])) fun iid => ?_
  refine Only.bind (mute_connection ?_) fun _ => ?_
  · refine Only.bind (mute_perform (by simp [Op.kind])) fun now => ?_
    refine Only.bind ((uses_bindText P image_label).mute (by simp)) fun image => ?_
    refine Only.bind (mute_perform (by simp [Op.kind])) fun _ => Only.bind (mute_perform (by simp [Op.kind])) fun now => ?_
    exact Only.bind (mute_perform (by simp [Op.kind])) fun _ => mute_perform (by simp [Op.kind])
  · refine Only.bind ((uses_boot_vm iid none none).mute (by decide)) fun _ => ?_
    exact Only.bind (mute_wait_agent iid polls) fun _ => trivial

theorem mute_snapshot_instance (iid : Id) (label : Json) : (snapshot_instance P iid label).Only Mute := by
  refine Only.bind (mute_perform (by simp [Op.kind,MemOp.kind])) fun live => ?_
  split
  · trivial
  refine mute_connection (Only.bind (mute_perform (by simp [Op.kind])) fun T => ?_)
  split
  · trivial
  have files : ∀ o : FsOp, (fsCall o).Only Mute := by
    intro o
    refine mute_perform ?_
    rcases o.kind_cases with kind | kind <;> simp [Op.kind,kind]
  refine Only.bind (mute_perform (by simp [Op.kind])) fun sid => Only.bind (files _) fun _ => Only.bind (files _) fun _ => ?_
  refine Only.bind (Only.catching ?_ fun _ => trivial) fun _ => ?_
  · exact Only.bind (mute_vsock_request iid rfl) fun _ => mute_perform (by simp [Op.kind])
  refine Only.bind (mute_perform (by simp [Op.kind,VmOp.kind])) fun _ => ?_
  refine Only.bind (mute_perform (by simp [Op.kind,VmOp.kind])) fun _ => Only.bind (files _) fun _ => ?_
  refine Only.bind ((uses_seal_scratch iid sid).mute (by decide)) fun _ => ?_
  refine Only.bind (mute_perform (by simp [Op.kind,VmOp.kind])) fun _ => ?_
  refine Only.bind ((uses_chunk_mem P sid _).mute (by decide)) fun logical => Only.bind (files _) fun state => ?_
  refine Only.bind (mute_perform (by simp [Op.kind])) fun now => Only.bind ((uses_bindText P label).mute (by simp)) fun text => ?_
  refine Only.bind (mute_perform (by simp [Op.kind])) fun _ => Only.bind (mute_perform (by simp [Op.kind])) fun _ => ?_
  exact Only.bind (mute_perform (by simp [Op.kind])) fun _ => trivial

/-- A request that talks to no guest. -/
theorem mute_part {req : Req} {program : KProg α} (part : PartOf req program)
    (silent : ∀ iid line, req.calls (.vm (.connect iid line)) = false) : program.Only Mute := by
  refine Only.mono ?_ part
  rintro _ calls iid line rfl
  exact absurd ((silent iid line).symm.trans calls) (by simp)

/-- What the reply of a request says. -/
def Req.Says (w : World × ForkedLog) : Req → Except Exn Json → Prop
  | .fork_snapshot _ n,.ok reply => Answers n reply w
  | _,_ => True

theorem body_says (req : Req) : Triple (telling P) t (fun _ => True) (req.body P) fun outcome w => req.Says w outcome := by
  have quiet : ∀ {program : KProg Json}, program.Only Mute → Triple (telling P) t (fun _ => True) program fun _ _ => True :=
    mute_triple stable_anything
  cases req with
  | fork_snapshot sid n =>
    refine (fork_snapshot_answers sid n).consequence (fun _ _ holds => holds) fun outcome _ _ holds => ?_
    cases outcome with
    | ok reply => exact holds
    | error error => trivial
  | create_run project_id image_label => exact quiet (mute_create_run project_id image_label)
  | snapshot_instance iid label => exact quiet (mute_snapshot_instance iid label)
  | destroy_instance iid => exact quiet (mute_part (part_body P (.destroy_instance iid)) fun _ _ => rfl)
  | timeline run_id => exact quiet (mute_part (part_body P (.timeline run_id)) fun _ _ => rfl)
  | meter_tick dt => exact quiet (mute_part (part_body P (.meter_tick dt)) fun _ _ => rfl)

end

theorem moves_sent (move : Move) (w : World) (seen : ForkedLog) : (ForkedLog.moves move w seen).sent = seen.sent := by
  cases move with
  | agent iid choice =>
    simp only [ForkedLog.moves]
    split <;> rfl
  | guestMemory | guestDisk | agentUp | workload | vmDies | delete => rfl

theorem moves_ready (move : Move) (w : World) (seen : ForkedLog) : (ForkedLog.moves move w seen).ready = seen.ready := by
  cases move with
  | agent iid choice =>
    simp only [ForkedLog.moves]
    split <;> rfl
  | guestMemory | guestDisk | agentUp | workload | vmDies | delete => rfl

/-- A turn of the agent goes on with its log. -/
theorem moves_turn {w : World} {seen : ForkedLog} {iid : Id} {choice : Agent.Choice} {vm : Vm} (here : w.hyp.vm iid = some vm) :
    (ForkedLog.moves (.agent iid choice) w seen).log iid = (seen.log iid).map (AgentLog.turn vm.guest choice) := by
  simp [ForkedLog.moves,here]

theorem moves_still {move : Move} {w : World} {seen : ForkedLog} {iid : Id}
    (other : (∀ choice, move ≠ .agent iid choice) ∨ w.hyp.vm iid = none) :
    (ForkedLog.moves move w seen).log iid = seen.log iid := by
  cases move with
  | agent iid' choice =>
    by_cases same : iid = iid'
    · subst same
      rcases other with other | absent
      · exact absurd rfl (other choice)
      · simp [ForkedLog.moves,absent]
    · simp only [ForkedLog.moves]
      split
      · exact Function.update_of_ne same _ _
      · rfl
  | guestMemory | guestDisk | agentUp | workload | vmDies | delete => rfl

/-- A move changes only the log of the guest that moves. -/
theorem moves_log (move : Move) (w : World) (seen : ForkedLog) (iid : Id) :
    (ForkedLog.moves move w seen).log iid = seen.log iid ∨ ∃ choice vm, move = .agent iid choice ∧
      w.hyp.vm iid = some vm := by
  by_cases turn : ∃ choice vm, move = .agent iid choice ∧ w.hyp.vm iid = some vm
  · exact .inr turn
  · refine .inl (moves_still ?_)
    cases here : w.hyp.vm iid with
    | none => exact .inr rfl
    | some vm => exact .inl fun choice same => turn ⟨choice,vm,same,here⟩

theorem moves_lasts {move : Move} {w v : World} (moved : w.Moved P move v) (seen : ForkedLog) (t : Nat) :
    Relied t (w,seen) (v,ForkedLog.moves move w seen) := by
  refine ⟨⟨?_,?_,?_,?_⟩,?_⟩
  · intro iid t' owned
    simpa only [World.owner,moved.used] using owned
  · intro iid message sent
    rw [moves_sent]
    exact sent
  · intro iid there
    rcases moves_log move w seen iid with same | ⟨choice,vm,rfl,here⟩
    · exact same ▸ there
    · rw [moves_turn here]
      simpa using there
  · intro iid received
    rw [moves_ready]
    exact received
  · intro iid _
    rw [moves_sent]

theorem telling_sound : Sound (forkLogged P) Undisturbed (telling P) (fun _ _ => True) (fun _ req outcome w =>
    req.Says w outcome) where
  lawful := telling_lawful
  calls _ _ choice _ _ _ _ _ _ _ _ ran := ⟨choice,ran⟩
  others t t' op w v other inv inv' := by
    rintro ⟨sends,outcome,step⟩
    refine Relied.step sends step ?_
    rintro iid line rfl forked owned
    exact other (Option.some.inj (owned.symm.trans (sends forked).1))
  envs pool move world _ inv moved := by
    obtain ⟨v,moved',same⟩ := Option.map_eq_some_iff.mp moved
    subst same
    have relied := moves_lasts (World.moved_of_move moved') pool.world.2
    refine ⟨?_,relied⟩
    intro iid sent
    rw [moves_sent] at sent
    obtain ⟨t,owned⟩ := Option.isSome_iff_exists.mp (inv iid sent)
    exact Option.isSome_iff_exists.mpr ⟨t,(relied 0).owner iid t owned⟩
  reboots pool _ inv := ⟨inv,fun _ => trivial⟩
  young _ := stable_anything
  bodies _ req _ := body_says req

/-! ## What the record tells -/

/-- The log is told of the guest of the instance. -/
def Recounts (hyp : Hypervisor) (iid : Id) (log : AgentLog) (sent : Option (Line × Nat)) (ready : Bool) : Prop :=
  ∃ vm, hyp.vm iid = some vm ∧ vm.phase ≠ .spawned ∧ Tells log vm.guest ∧ Told log vm.guest sent ready

/-- The stories are told of the guests that are there, and a guest that is captured settles nothing when it is
    restored. -/
structure ForkedLog.Keeps (w : World) (seen : ForkedLog) : Prop where
  guests : ∀ iid vm, w.hyp.vm iid = some vm → Grounded vm.guest ∧ Numbered vm.guest
  saved : ∀ p g, w.hyp.saved p = some g → (Grounded g ∧ Numbered g) ∧ Unsettling g
  told : ∀ iid log, seen.log iid = some log → Recounts w.hyp iid log (seen.sent iid) (seen.ready iid)
  sent : ∀ iid, seen.sent iid ≠ none → (seen.log iid).isSome
  ready : ∀ iid, seen.ready iid = true → (seen.log iid).isSome

theorem sees_quiet {t : Nat} {w v : World} {seen : ForkedLog} {op : Op} (other : op.isVm = false)
    (outcome : Except Exn op.Res) : ForkedLog.sees t op outcome w v seen = seen := by
  cases op with
  | vm o => cases other
  | db | fs | s3 | mem | sys => rfl

section
variable {fs fs' : Files.Fs Path} {hyp hyp' : Hypervisor} {o : VmOp} {outcome : Except Exn o.Res} {iid : Id} {log : AgentLog}
  {sent : Option (Line × Nat)} {ready : Bool}

/-- A Firecracker call that does not send FORKED to the instance. -/
theorem Recounts.call (recounts : Recounts hyp iid log sent ready) (acts : o.Acts fs hyp outcome fs' hyp')
    (new : o = .spawn iid → hyp.vm iid = none) (other : ∀ line, o = .connect iid line → line.hasType "FORKED" = false) :
    Recounts hyp' iid log sent ready := by
  obtain ⟨vm,here,past,tells,told⟩ := recounts
  obtain ⟨vm',here',past',called⟩ := VmOp.acts_guest acts here past new
  refine ⟨vm',here',past',?_⟩
  generalize vm'.guest = after at called ⊢
  cases called with
  | same => exact ⟨tells,told⟩
  | push sends => exact ⟨⟨tells.forkgen,tells.branch,tells.clock⟩,told.push (other _ sends)⟩
  | skip => exact ⟨⟨tells.forkgen,tells.branch,tells.clock⟩,told.skip⟩

/-- FORKED is sent to it, or gets lost. -/
theorem Recounts.connect {line : Line} {conn : Nat} (recounts : Recounts hyp iid log none ready)
    (numbered : ∀ vm, hyp.vm iid = some vm → Numbered vm.guest) (forked : line.hasType "FORKED" = true)
    (acts : VmOp.Acts fs hyp (.connect iid line) (.ok conn) fs' hyp') : Recounts hyp' iid log (some (line,conn)) ready := by
  obtain ⟨vm,here,past,tells,told⟩ := recounts
  cases acts with
  | connect there =>
    cases here.symm.trans there
    exact ⟨_,Hypervisor.set_self _ _ _,past,⟨tells.forkgen,tells.branch,tells.clock⟩,told.send forked (numbered _ here)⟩
  | lost there =>
    cases here.symm.trans there
    exact ⟨_,Hypervisor.set_self _ _ _,past,⟨tells.forkgen,tells.branch,tells.clock⟩,told.lose (numbered _ here)⟩

/-- Its READY is received. -/
theorem Recounts.receive {line : Line} {conn : Nat} {reply : Json} (recounts : Recounts hyp iid log (some (line,conn)) ready)
    (answers : isReady reply = true) (acts : VmOp.Acts fs hyp (.receive iid conn) (.ok reply) fs' hyp') :
    Recounts hyp' iid log (some (line,conn)) true := by
  obtain ⟨vm,here,past,tells,told⟩ := recounts
  cases acts with
  | receive there found =>
    cases here.symm.trans there
    exact ⟨vm,here,past,tells,told.answered (List.mem_of_find?_eq_some found) answers⟩
  | eof => simp [isReady,Json.isDict,Agent.field,Json.get?,Json.isStr] at answers

/-- Its VM is restored. -/
theorem recounts_load {snap mem : Path} (saved : ∀ p g, hyp.saved p = some g → Unsettling g)
    {before : Vm} (here : hyp.vm iid = some before) (spawned : before.phase = .spawned) {after : Vm}
    (here' : hyp'.vm iid = some after) (running : after.phase = .running)
    {outcome : Except Exn Unit} (acts : VmOp.Acts fs hyp (.load iid snap mem) outcome fs' hyp') :
    Recounts hyp' iid ⟨after.guest,[],[]⟩ none false := by
  cases acts with
  | fails =>
    cases here.symm.trans here'
    exact absurd (spawned.symm.trans running) (by simp)
  | load _ _ _ _ frozen =>
    obtain rfl : _ = after := Option.some.inj ((Hypervisor.set_self _ _ _).symm.trans here')
    obtain ⟨told,tells⟩ := told_restored (saved _ _ frozen)
    exact ⟨_,here',by simp,tells,told⟩

end

section
variable {w v : World} {seen : ForkedLog} {t : Nat} {iid : Id} {log : AgentLog}

/-- A READY is received only where FORKED was sent. -/
theorem sees_received {op : Op} {outcome : Except Exn op.Res}
    (received : (ForkedLog.sees t op outcome w v seen).ready iid = true) : seen.ready iid = true ∨ seen.sent iid ≠ none := by
  cases op with
  | db | fs | s3 | mem | sys => exact .inl received
  | vm o =>
    cases o with
    | spawn | start | pause | create | resume | kill => exact .inl received
    | load iid' snap mem =>
      simp only [ForkedLog.sees] at received
      split at received <;> exact .inl received
    | connect iid' line =>
      cases outcome with
      | error error => exact .inl received
      | ok conn =>
        simp only [ForkedLog.sees] at received
        split at received <;> exact .inl received
    | receive iid' conn =>
      cases outcome with
      | error error => exact .inl received
      | ok reply =>
        simp only [ForkedLog.sees] at received
        split at received
        · rename_i answers
          by_cases same : iid = iid'
          · subst same
            refine .inr fun unsent => ?_
            simp [unsent] at answers
          · exact .inl (by simpa [Function.update_of_ne same] using received)
        · exact .inl received

/-- An instance whose VM is not restored yet was not sent FORKED. -/
theorem ForkedLog.Keeps.blank (keeps : seen.Keeps w) {vm : Vm} (here : w.hyp.vm iid = some vm) (spawned : vm.phase = .spawned) :
    seen.sent iid = none ∧ seen.ready iid = false := by
  have unborn : ¬ (seen.log iid).isSome := by
    intro there
    obtain ⟨log,there⟩ := Option.isSome_iff_exists.mp there
    obtain ⟨vm',here',past,_⟩ := keeps.told iid log there
    cases here.symm.trans here'
    exact past spawned
  refine ⟨?_,?_⟩
  · by_contra sent
    exact unborn (keeps.sent iid sent)
  · by_contra ready
    exact unborn (keeps.ready iid (by simpa using ready))

/-- The stories after a Firecracker call. -/
theorem ForkedLog.Keeps.recounts {o : VmOp} {outcome : Except Exn o.Res} (keeps : seen.Keeps w)
    (permitted : Permitted t (.vm o) w) (sends : Sends t (.vm o) (w,seen)) (acts : o.Acts w.fs w.hyp outcome v.fs v.hyp)
    (there : (ForkedLog.sees t (.vm o) outcome w v seen).log iid = some log) :
    Recounts v.hyp iid log ((ForkedLog.sees t (.vm o) outcome w v seen).sent iid)
      ((ForkedLog.sees t (.vm o) outcome w v seen).ready iid) := by
  have new : ∀ iid, o = .spawn iid → w.hyp.vm iid = none := by
    rintro iid rfl
    exact permitted.2
  cases o with
  | spawn | start | pause | create | resume | kill => exact (keeps.told iid log there).call acts (new iid) (by simp)
  | load iid' snap mem =>
    simp only [ForkedLog.sees] at there ⊢
    split at there
    · rename_i resumed
      rw [if_pos resumed]
      by_cases same : iid = iid'
      · subst same
        simp only [World.isPhase,Bool.and_eq_true,Option.any_eq_true,decide_eq_true_eq] at resumed
        obtain ⟨⟨before,here,spawned⟩,after,here',running⟩ := resumed
        simp only [Function.update_self,here',Option.map_some,Option.some.injEq] at there
        subst there
        obtain ⟨unsent,unready⟩ := keeps.blank here spawned
        simp only [unsent,unready]
        exact recounts_load (fun p g frozen => (keeps.saved p g frozen).2) here spawned here' running acts
      · simp only [Function.update_of_ne same] at there
        exact (keeps.told iid log there).call acts (new iid) (by simp)
    · rename_i still
      rw [if_neg still]
      exact (keeps.told iid log there).call acts (new iid) (by simp)
  | connect iid' line =>
    cases outcome with
    | error error =>
      have same : v.hyp = w.hyp := by
        generalize v.fs = fs,v.hyp = hyp at acts
        cases acts
        rfl
      rw [same]
      exact keeps.told iid log there
    | ok conn =>
      by_cases forked : line.hasType "FORKED" = true
      · simp only [ForkedLog.sees,forked,if_true] at there ⊢
        by_cases same : iid = iid'
        · subst same
          have recounts := keeps.told iid log there
          rw [(sends forked).2.1] at recounts
          simpa using recounts.connect (fun vm here => (keeps.guests iid vm here).2) forked acts
        · simp only [Function.update_of_ne same]
          exact (keeps.told iid log there).call acts (new iid) fun line sends => absurd (by cases sends; rfl) same
      · simp only [ForkedLog.sees,forked] at there ⊢
        refine (keeps.told iid log there).call acts (new iid) ?_
        rintro _ ⟨⟩
        simpa using forked
  | receive iid' conn =>
    cases outcome with
    | error error => exact (keeps.told iid log there).call acts (new iid) (by simp)
    | ok reply =>
      simp only [ForkedLog.sees] at there ⊢
      split at there
      · rename_i answers
        rw [if_pos answers]
        by_cases same : iid = iid'
        · subst same
          simp only [Bool.and_eq_true,Option.any_eq_true,decide_eq_true_eq] at answers
          obtain ⟨⟨⟨line,conn'⟩,sent,rfl⟩,ready⟩ := answers
          have recounts := keeps.told iid log there
          rw [sent] at recounts
          simpa [sent] using recounts.receive ready acts
        · simp only [Function.update_of_ne same]
          exact (keeps.told iid log there).call acts (new iid) (by simp)
      · rename_i still
        rw [if_neg still]
        exact (keeps.told iid log there).call acts (new iid) (by simp)

theorem ForkedLog.Keeps.call {op : Op} {outcome : Except Exn op.Res} {choice : Choice} (keeps : seen.Keeps w)
    (permitted : Permitted t op w) (sends : Sends t op (w,seen)) (ran : exec P t op choice w = some (outcome,v))
    (captured : ∀ iid snap mem, op = .vm (.create iid snap mem) → ∀ vm, w.hyp.vm iid = some vm → Unsettling vm.guest) :
    (ForkedLog.sees t op outcome w v seen).Keeps v := by
  have sent : ∀ iid, (ForkedLog.sees t op outcome w v seen).sent iid ≠ none →
      ((ForkedLog.sees t op outcome w v seen).log iid).isSome := by
    intro iid sent
    obtain same | ⟨line,rfl,forked⟩ : (ForkedLog.sees t op outcome w v seen).sent iid = seen.sent iid ∨ _ := sees_sent iid
    · exact sees_log (keeps.sent iid (same ▸ sent))
    · exact sees_log (sends forked).2.2
  have ready : ∀ iid, (ForkedLog.sees t op outcome w v seen).ready iid = true →
      ((ForkedLog.sees t op outcome w v seen).log iid).isSome := by
    intro iid received
    rcases sees_received received with before | sent
    · exact sees_log (keeps.ready iid before)
    · exact sees_log (keeps.sent iid sent)
  cases op with
  | db | fs | s3 | sys | mem =>
    have same := exec_hyp rfl ran
    refine ⟨?_,?_,?_,sent,ready⟩
    · rw [same]
      exact keeps.guests
    · rw [same]
      exact keeps.saved
    · rw [sees_quiet rfl,same]
      exact keeps.told
  | vm o =>
    obtain ⟨fs,hyp,acts,rfl⟩ := exec_vmActs ran
    refine ⟨?_,?_,fun iid log there => keeps.recounts permitted sends acts there,sent,ready⟩
    · refine VmOp.acts_guests (G := fun g => Grounded g ∧ Numbered g) acts ⟨booting_grounded,booting_numbered⟩ ?_
        (fun g line good => ⟨good.1,good.2.push⟩) (fun g good => ⟨good.1,good.2.skip⟩) keeps.guests
      exact fun p g frozen => ⟨(keeps.saved p g frozen).1.1,(keeps.saved p g frozen).1.2.restored⟩
    · rcases acts_saved acts with same | ⟨iid,snap,mem,vm,rfl,here,same⟩
      · intro p g frozen
        exact keeps.saved p g (same ▸ frozen)
      · intro p g frozen
        simp only [same,Function.update_apply] at frozen
        split at frozen
        · cases frozen
          exact ⟨keeps.guests iid vm here,captured iid snap mem rfl vm here⟩
        · exact keeps.saved p g frozen

/-- A turn of the agent takes the log a step further. -/
theorem Recounts.turn {hyp hyp' : Hypervisor} {sent : Option (Line × Nat)} {ready : Bool} {choice : Agent.Choice} {vm vm' : Vm}
    (recounts : Recounts hyp iid log sent ready) (here : hyp.vm iid = some vm) (here' : hyp'.vm iid = some vm')
    (started : vm'.phase ≠ .spawned) (moves : Vm.Moves P iid (.agent iid choice) vm vm')
    (goes : ∀ conn op next, vm.guest.current = some (conn,.call op next) → op.goes vm.guest.forkgen choice = true) :
    Recounts hyp' iid (log.turn vm.guest choice) sent ready := by
  obtain ⟨vm₀,here₀,_,tells,told⟩ := recounts
  cases here.symm.trans here₀
  cases moves with
  | agent _ turned =>
    have turns := Guest.turns_of_turn turned
    exact ⟨_,here',started,tells.turn turns goes,told.turn tells turns goes⟩

/-- Other moves leave it as it is. -/
theorem Recounts.moves {hyp hyp' : Hypervisor} {sent : Option (Line × Nat)} {ready : Bool} {move : Move} {vm vm' : Vm}
    (recounts : Recounts hyp iid log sent ready) (here : hyp.vm iid = some vm) (here' : hyp'.vm iid = some vm')
    (started : vm'.phase ≠ .spawned) (grounded : Grounded vm.guest) (moves : Vm.Moves P iid move vm vm')
    (other : ∀ choice, move ≠ .agent iid choice) : Recounts hyp' iid log sent ready := by
  obtain ⟨vm₀,here₀,_,tells,told⟩ := recounts
  cases here.symm.trans here₀
  refine ⟨vm',here',started,?_⟩
  cases moves with
  | memory | dies => exact ⟨tells,told⟩
  | up _ down => exact ⟨tells.same (grounded down).1.symm rfl rfl,told.same rfl rfl rfl rfl⟩
  | agent => exact absurd rfl (other _)
  | workload _ worked =>
    rw [workload_frame worked]
    exact ⟨tells.same rfl rfl rfl,told.same rfl rfl rfl rfl⟩

theorem Grounded.moves {move : Move} {vm vm' : Vm} (grounded : Grounded vm.guest) (moves : Vm.Moves P iid move vm vm') :
    Grounded vm'.guest := by
  cases moves with
  | memory | dies => exact grounded
  | up => exact .init _
  | agent _ turned => exact grounded.turn (Guest.turns_of_turn turned)
  | workload _ worked =>
    rw [workload_frame worked]
    exact grounded

theorem ForkedLog.Keeps.moved {move : Move} (keeps : seen.Keeps w) (moved : w.Moved P move v)
    (goes : ∀ iid choice, move = .agent iid choice → ∀ vm, w.hyp.vm iid = some vm →
      ∀ conn op next, vm.guest.current = some (conn,.call op next) → op.goes vm.guest.forkgen choice = true) :
    (ForkedLog.moves move w seen).Keeps v := by
  have kept : ∀ iid, (seen.log iid).isSome → ((ForkedLog.moves move w seen).log iid).isSome :=
    fun iid => (moves_lasts moved seen 0).log iid
  refine ⟨?_,?_,?_,?_,?_⟩
  · intro iid vm' here'
    rcases moved.vm iid with ⟨same,_⟩ | ⟨vm,vm₁,here,here₁,moves⟩
    · exact keeps.guests iid vm' (same.symm.trans here')
    · cases here'.symm.trans here₁
      obtain ⟨grounded,numbered⟩ := keeps.guests iid vm here
      exact ⟨grounded.moves moves,numbered.moves moves⟩
  · rw [moved.saved]
    exact keeps.saved
  · intro iid log there
    rw [moves_sent,moves_ready]
    rcases moved.vm iid with ⟨unchanged,elsewhere⟩ | ⟨vm,vm',here,here',moves⟩
    · have other : ∀ choice, move ≠ .agent iid choice := by
        rintro choice rfl
        exact elsewhere rfl
      rw [moves_still (.inl other)] at there
      obtain ⟨vm,here,rest⟩ := keeps.told iid log there
      exact ⟨vm,unchanged.trans here,rest⟩
    have started : (∃ log, seen.log iid = some log) → vm'.phase ≠ .spawned := by
      rintro ⟨log,before⟩
      obtain ⟨vm₀,here₀,past,_⟩ := keeps.told iid log before
      obtain ⟨vm₁,here₁,past'⟩ := moved.started ⟨vm₀,here₀,past⟩
      cases here'.symm.trans here₁
      exact past'
    by_cases turn : ∃ choice, move = .agent iid choice
    · obtain ⟨choice,rfl⟩ := turn
      rw [moves_turn here] at there
      obtain ⟨before,known,rfl⟩ := Option.map_eq_some_iff.mp there
      exact (keeps.told iid before known).turn here here' (started ⟨before,known⟩) moves (goes iid choice rfl vm here)
    · have other : ∀ choice, move ≠ .agent iid choice := fun choice same => turn ⟨choice,same⟩
      rw [moves_still (.inl other)] at there
      exact (keeps.told iid log there).moves here here' (started ⟨log,there⟩) (keeps.guests iid vm here).1 moves other
  · intro iid sent
    rw [moves_sent] at sent
    exact kept iid (keeps.sent iid sent)
  · intro iid ready
    rw [moves_ready] at ready
    exact kept iid (keeps.ready iid ready)

theorem chronicle_start (fresh : w.Fresh) : ForkedLog.start.Keeps w where
  guests iid vm here := by simp [fresh.processes] at here
  saved p g frozen := by simp [fresh.saved] at frozen
  told := by rintro _ _ ⟨⟩
  sent iid sent := absurd rfl sent
  ready := by rintro _ ⟨⟩

/-- A child whose READY was received has been through the whole protocol. -/
theorem ForkedLog.Keeps.completed (keeps : seen.Keeps w) {i : Nat} {n : Int} {now : Time} {conn : Nat}
    (sent : seen.sent iid = some (.json (forkedMessage i n now),conn)) (ready : seen.ready iid = true) :
    ∃ log vm, seen.log iid = some log ∧ w.hyp.vm iid = some vm ∧ Completed i n now log vm.guest := by
  obtain ⟨log,there⟩ := Option.isSome_iff_exists.mp (keeps.ready iid ready)
  obtain ⟨vm,here,_,tells,told⟩ := keeps.told iid log there
  rw [sent,ready] at told
  refine ⟨log,vm,there,here,?_⟩
  cases told with
  | told heard _ _ _ _ received =>
    have order := received rfl i n now rfl
    refine ⟨heard,order,?_,?_,?_⟩
    · rw [tells.branch,order]
      rfl
    · rw [tells.clock,order]
      rfl
    · rw [tells.forkgen,order]
      rfl

end

/-- In every run in which no clock is refused, no generation but 0 stays unread and no guest is captured while its
    agent handles a FORKED: each child that a fork returned is reported as an error, or has been through the fork
    protocol once and in order. -/
theorem reported_completed (P : Platform) {w : World} (fresh : w.Fresh) {pool : ForkLoggedPool}
    (reached : (forkLogged P).Reach Undisturbed ⟨(w,ForkedLog.start),[]⟩ pool) {t : Nat} {sid : Id} {n : Int} {reply : Json}
    (returned : pool.threads[t]? = some ⟨.fork_snapshot sid n,.ret reply⟩) :
    ∃ kids, reply = childrenReply kids ∧ kids.length = n.toNat ∧ ∀ i kid, kids[i]? = some kid →
      (∃ text, kid.2 = "ERR:" ++ text) ∨ kid.2 = branchOf i n ∧ ∃ now log vm, pool.world.2.log kid.1 = some log ∧
        pool.world.1.hyp.vm kid.1 = some vm ∧ Completed i n now log vm.guest := by
  have sound := (protocol_sound (P := P)).watch.and telling_sound
  have watched := fresh.watched (P := P) ForkedLog.start
  have start : Healthy (((protocol P).watch ForkedLog).and (telling P)) (fun t w => Unborn t w.1 ∧ True)
      (fun _ req outcome w => True ∧ req.Says w outcome) (⟨(w,ForkedLog.start),[]⟩ : ForkLoggedPool) :=
    ⟨⟨watched.inv,fun _ sent => absurd rfl sent⟩,fun t thread found => by simp at found,
      fun t new => ⟨watched.next t new,trivial⟩⟩
  have reboot : ∀ {w : World} {seen : ForkedLog}, seen.Keeps w → seen.Keeps w.reboot :=
    fun ⟨guests,saved,told,sent,ready⟩ => ⟨guests,saved,told,sent,ready⟩
  have keeps : pool.world.2.Keeps pool.world.1 := by
    refine (sound.keeps (J := fun w => w.2.Keeps w.1) ?_ ?_ (fun _ _ _ => reboot) start (chronicle_start fresh) reached).2
    · intro pool t choice op outcome v allowed about well _ guaranteed ran keeps
      obtain ⟨⟨permitted,_⟩,sends,_⟩ := guaranteed
      obtain ⟨choice,ran,same⟩ := step_exec ⟨choice,ran⟩
      rw [same]
      refine keeps.call permitted sends ran ?_
      rintro iid snap mem rfl
      exact allowed iid snap mem about
    · intro pool move v allowed _ _ moved keeps
      obtain ⟨world,moved',same⟩ := Option.map_eq_some_iff.mp moved
      subst same
      refine keeps.moved (World.moved_of_move moved') ?_
      rintro iid choice rfl
      exact allowed
  have post : True ∧ (Req.fork_snapshot sid n).Says pool.world (.ok reply) :=
    (sound.reach start reached).ended sound.lawful returned
  obtain ⟨_,kids,same,count,reports⟩ := post
  refine ⟨kids,same,count,fun i kid found => ?_⟩
  rcases reports i kid found with ⟨branch,ready,now,conn,sent⟩ | error
  · obtain ⟨log,vm,there,here,completed⟩ := keeps.completed sent ready
    exact .inr ⟨branch,now,log,vm,there,here,completed⟩
  · exact .inl error

/-- A turn of the agent for each of its calls in FORKED, from the accept to the reply. -/
def answerForked (iid : Id) (clock : List Agent.Choice) : List (Action Req Choice Move) :=
  let turns : List Agent.Choice := List.replicate 3 .ok ++ clock ++ List.replicate 5 .ok
  turns.map fun choice => .env (.agent iid choice)

/-- A snapshot and a fork of it, whose child is sent FORKED and answers. -/
def forkAnswered (clock : List Agent.Choice) : List (Action Req Choice Move) :=
  .request (.create_run "p" .null) :: calls 0 (createRun "r" "i" [7] [8]) ++ .env (.agentUp "i") ::
    .request (.snapshot_instance "i" .null) :: calls 1 (takeSnapshot "s" ++ recordSnapshot) ++
    .request (.fork_snapshot "s" 1) :: calls 2 (forkOne "c" ++ [.ok,.flag false,.time 2,.ok]) ++ answerForked "c" clock ++
    calls 2 [.ok,.time 3,.ok,.ok]

/-- No clock is refused, every generation is read, and agents are idle when their guests are captured. -/
def smooth (pool : ForkLoggedPool) : Action Req Choice Move → Bool
  | .env (.agent iid choice) => (pool.world.1.hyp.vm iid).all fun vm =>
      match vm.guest.current with
      | some (_,.call op _) => op.goes vm.guest.forkgen choice
      | _ => true
  | .call t _ =>
      match pool.about t with
      | some (.vm (.create iid _ _)) => (pool.world.1.hyp.vm iid).all (·.guest.current.isNone)
      | _ => true
  | _ => true

theorem smooth_undisturbed {pool : ForkLoggedPool} {action : Action Req Choice Move} (passes : smooth pool action = true) :
    Undisturbed pool action := by
  cases action with
  | request | reboot => trivial
  | env move =>
    cases move with
    | agent iid choice =>
      intro vm here conn op next busy
      simpa [smooth,here,busy] using passes
    | guestMemory | guestDisk | agentUp | workload | vmDies | delete => trivial
  | call t choice =>
    intro iid snap mem about vm here conn program busy
    simp [smooth,about,here,busy] at passes

theorem childrenReply_injective {kids kids' : List (Id × String)} (same : childrenReply kids = childrenReply kids') :
    kids = kids' := by
  simp only [childrenReply,Json.obj.injEq,List.cons.injEq,Prod.mk.injEq,Json.arr.injEq,true_and,and_true] at same
  refine (List.map_injective_iff.mpr ?_) same
  rintro ⟨iid,branch⟩ ⟨iid',branch'⟩ equal
  simp at equal
  simp [equal]

/-- The only child of a fork that has returned. -/
def onlyChild (pool : ForkLoggedPool) (t : Nat) : Option (Id × Int × Id × String) :=
  match pool.threads[t]? with
  | some ⟨.fork_snapshot sid n,.ret (.obj [("children",.arr [.obj [("instance_id",.str iid),("branch",.str branch)]])])⟩ =>
    some (sid,n,iid,branch)
  | _ => none

theorem returned_onlyChild {pool : ForkLoggedPool} {t : Nat} {sid iid : Id} {n : Int} {branch : String}
    (only : onlyChild pool t = some (sid,n,iid,branch)) :
    pool.threads[t]? = some ⟨.fork_snapshot sid n,.ret (childrenReply [(iid,branch)])⟩ := by
  unfold onlyChild at only
  split at only
  · rename_i found
    cases only
    exact found
  · cases only

theorem reported_completed_one : ∃ pool, (forkLogged .plain).run smooth (forkAnswered [.ok,.time 5])
    ⟨(World.initial defaultProject false,ForkedLog.start),[]⟩ = some pool ∧
      pool.threads[2]? = some ⟨.fork_snapshot "s" 1,.ret (childrenReply [("c",branchOf 0 1)])⟩ ∧
      ∃ now log vm, pool.world.1.hyp.vm "c" = some vm ∧ Completed 0 1 now log vm.guest := by
  have seen : ((forkLogged .plain).run smooth (forkAnswered [.ok,.time 5])
      ⟨(World.initial defaultProject false,ForkedLog.start),[]⟩).map (fun pool => onlyChild pool 2) =
      some (some ("s",1,"c",branchOf 0 1)) := by decide +kernel
  obtain ⟨pool,ran,only⟩ := Option.map_eq_some_iff.mp seen
  have returned := returned_onlyChild only
  have reached := Machine.reach_of_run (forkLogged .plain) (fun _ _ => smooth_undisturbed) ran
  refine ⟨pool,ran,returned,?_⟩
  obtain ⟨kids,same,_,reports⟩ := reported_completed .plain (World.initial_fresh defaultProject false) reached returned
  obtain rfl := childrenReply_injective same
  rcases reports 0 ("c",branchOf 0 1) rfl with ⟨text,error⟩ | ⟨_,now,log,vm,_,here,completed⟩
  · exact absurd error (branchOf_ne 0 1 text)
  · exact ⟨now,log,vm,here,completed⟩

/-- The clock is refused, and the child is reported as a branch all the same. -/
theorem reported_not_completed : ∃ pool vm, (forkLogged .plain).Reach (fun _ _ => True)
    ⟨(World.initial defaultProject false,ForkedLog.start),[]⟩ pool ∧
      pool.threads[2]? = some ⟨.fork_snapshot "s" 1,.ret (childrenReply [("c",branchOf 0 1)])⟩ ∧
      pool.world.1.hyp.vm "c" = some vm ∧ vm.guest.clock = none ∧ ∀ now log, ¬ Completed 0 1 now log vm.guest := by
  have seen : ((forkLogged .plain).run (fun _ _ => true) (forkAnswered [.refused])
      ⟨(World.initial defaultProject false,ForkedLog.start),[]⟩).map (fun pool =>
        (onlyChild pool 2,(pool.world.1.hyp.vm "c").map (·.guest.clock))) =
      some (some ("s",1,"c",branchOf 0 1),some none) := by decide +kernel
  obtain ⟨pool,ran,same⟩ := Option.map_eq_some_iff.mp seen
  obtain ⟨only,clock⟩ := Prod.mk.inj same
  obtain ⟨vm,here,unset⟩ := Option.map_eq_some_iff.mp clock
  refine ⟨pool,vm,Machine.reach_of_run _ (fun _ _ _ => trivial) ran,returned_onlyChild only,here,unset,?_⟩
  intro now log completed
  exact absurd (unset.symm.trans completed.clock) (by simp)

end Klados
