import Klados.Isolation
import Klados.Timeline

/-!
What a project has: its rows, the processes and files of its instances and snapshots, and their
entries in `LIVE`. Over whole runs of the server the requests of others leave it as it is
(`tenants_apart`), and every call of a request is about rows of its own project (`calls_granted`).
-/
namespace Klados
open Effects
open Files (Fs)
open Agent (Guest)

/-- The row has files or a process, and it is in the slice. -/
def Slice.holds (S : Slice) : Table × Id → Bool
  | (.runs,_) => false
  | (.snapshots,sid) => S.snapshots.any (·.id = sid)
  | (.instances,iid) => S.instances.any (·.id = iid)

/-- What a project has. -/
@[ext] structure Estate where
  rows : Slice
  vm : Id → Option Vm
  live : Id → Bool
  files : Path → Option Bytes
  saved : Path → Option Guest

def World.estate (w : World) (q : Id) : Estate where
  rows := w.db.committed.slice q
  vm iid := if (w.db.committed.slice q).holds (.instances,iid) then w.hyp.vm iid else none
  live iid := (w.db.committed.slice q).holds (.instances,iid) && w.mem.live.contains iid
  files p := if p.row.any (w.db.committed.slice q).holds then w.fs.content p else none
  saved p := if p.row.any (w.db.committed.slice q).holds then w.hyp.saved p else none

section
variable {P : Platform} {t : Nat} {pid q : Id} {op : Op} {choice : Choice} {w v : World} {outcome : Except Exn op.Res}

theorem Sane.holds {T : Tables} (sane : Sane T) {row : Table × Id} (held : (T.slice q).holds row = true) :
    T.projectOf row.1 row.2 = some q := by
  obtain ⟨table,id⟩ := row
  cases table with
  | runs => cases held
  | snapshots =>
    obtain ⟨row,member,named⟩ := List.any_eq_true.mp held
    obtain rfl : row.id = id := by simpa using named
    exact sane.slice_snapshot member
  | instances =>
    obtain ⟨row,member,named⟩ := List.any_eq_true.mp held
    obtain rfl : row.id = id := by simpa using named
    exact sane.slice_instance member

/-- What is in the estate and does not change with the tables does not change. -/
theorem estate_eq (rows : v.db.committed.slice q = w.db.committed.slice q)
    (vm : ∀ iid, (w.db.committed.slice q).holds (.instances,iid) = true → v.hyp.vm iid = w.hyp.vm iid)
    (live : ∀ iid, (w.db.committed.slice q).holds (.instances,iid) = true → v.mem.live.contains iid = w.mem.live.contains iid)
    (files : ∀ p row, p.row = some row → (w.db.committed.slice q).holds row = true → v.fs.content p = w.fs.content p)
    (saved : ∀ p row, p.row = some row → (w.db.committed.slice q).holds row = true → v.hyp.saved p = w.hyp.saved p) :
    v.estate q = w.estate q := by
  refine Estate.ext rows ?_ ?_ ?_ ?_ <;> simp only [World.estate,rows] <;> funext key
  · split
    · exact vm key ‹_›
    · rfl
  · cases held : (w.db.committed.slice q).holds (.instances,key) with
    | true => simpa using live key held
    | false => rfl
  · split
    · rename_i any
      obtain ⟨row,named,held⟩ := (Option.any_eq_true _ _).mp any
      exact files key row named held
    · rfl
  · split
    · rename_i any
      obtain ⟨row,named,held⟩ := (Option.any_eq_true _ _).mp any
      exact saved key row named held
    · rfl

/-- Who writes a file names its row. -/
theorem Op.Writes.names {fs : Fs Path} {p : Path} {row : Table × Id} (writes : op.Writes fs p) (of : p.row = some row) :
    op.Names fs row := by
  cases op with
  | db | s3 | mem | sys => exact False.elim writes
  | fs o =>
    cases o with
    | «exists» | makedirs | readFile | getsize => exact False.elim writes
    | openTrunc p' | remove p' | makeDisk p' =>
      obtain rfl : p = p' := writes
      exact ⟨p,by simp [FsOp.paths],of⟩
    | write inode offset bytes => exact ⟨p,writes,of⟩
    | replace src dst =>
      have which : p = src ∨ p = dst := writes
      exact ⟨p,by simpa [FsOp.paths] using which,of⟩
    | copy src dst =>
      obtain rfl : p = dst := writes
      exact ⟨p,by simp [FsOp.paths],of⟩
  | vm o =>
    cases o with
    | create iid snap image =>
      have which : p = snap ∨ p = image := writes
      exact .inr ⟨p,by simpa [VmOp.paths] using which,of⟩
    | spawn | start | load | pause | resume | kill | connect | receive => exact False.elim writes

theorem exec_saved (ran : exec P t op choice w = some (outcome,v)) (p : Path) :
    v.hyp.saved p = w.hyp.saved p ∨ ∃ iid mem, op = .vm (.create iid p mem) := by
  by_cases vm : op.isVm
  swap
  · exact .inl (congrArg (fun hyp => hyp.saved p) (exec_hyp (by simpa using vm) ran))
  cases op with
  | db | fs | s3 | mem | sys => cases vm
  | vm o =>
    obtain ⟨fs,hyp,acts,rfl⟩ := exec_vmActs ran
    cases acts with
    | @create iid snap mem vm =>
      by_cases same : p = snap
      · exact .inr ⟨iid,mem,same ▸ rfl⟩
      · exact .inl (by simp [same])
    | fails | spawn | start | load | pause | resume | torn | kill | killNone | connect | lost | receive | eof => exact .inl rfl

/-- A call that is granted for one project leaves the estate of every other. -/
theorem Granted.estate (housed : Housed w) (granted : Granted t pid op w) (ran : exec P t op choice w = some (outcome,v))
    (other : q ≠ pid) : v.estate q = w.estate q := by
  have foreign : ∀ row, (w.db.committed.slice q).holds row = true → ¬ op.Names w.fs row := by
    intro row held names
    exact other ((granted.rows row names).apart q (housed.orderly.db.committed.holds held))
  refine estate_eq ?_ ?_ ?_ ?_ ?_
  · by_cases db : op.kind = .db
    swap
    · rw [exec_db db ran]
    cases op with
    | fs o => rcases o.kind_cases with kind | kind <;> simp [Op.kind,kind] at db
    | mem o | vm o => cases o <;> cases db
    | s3 o | sys o => cases db
    | db o =>
      obtain ⟨db',acts,rfl⟩ := exec_dbActs ran
      cases acts with
      | fails | read | unchanged | idle | wrote | refused | rolled => rfl
      | committed held =>
        have same := granted.commits rfl q other
        rwa [Db.visible_own held] at same
  · intro iid held
    by_cases vm : op.isVm
    swap
    · rw [exec_hyp (by simpa using vm) ran]
    cases op with
    | db | fs | s3 | mem | sys => cases vm
    | vm o =>
      obtain ⟨fs,hyp,acts,rfl⟩ := exec_vmActs ran
      refine VmOp.acts_other acts ?_
      rintro rfl
      exact foreign _ held (.inl rfl)
  · intro iid held
    have same : iid ∈ v.mem.live ↔ iid ∈ w.mem.live := by
      constructor
      · intro member
        rcases exec_live ran member with before | rfl
        · exact before
        · exact absurd rfl (foreign _ held)
      · intro member
        rcases exec_live_stays ran member with after | rfl
        · exact after
        · exact absurd rfl (foreign _ held)
    simpa using same
  · intro p row of held
    exact (exec_touches ran).content housed.wf fun writes => foreign row held (writes.names of)
  · intro p row of held
    rcases exec_saved ran p with same | ⟨iid,mem,rfl⟩
    · exact same
    · exact absurd (.inr ⟨p,by simp [VmOp.paths],of⟩) (foreign row held)

/-- A move of the guests of a project, or the deletion of one of its files. -/
def Move.concerns (S : Slice) : Move → Bool
  | .guestMemory iid _ _ | .guestDisk iid _ | .agentUp iid | .agent iid _ | .workload iid _ | .vmDies iid =>
    S.holds (.instances,iid)
  | .delete p => p.row.any S.holds

theorem World.Moved.estate {move : Move} (wf : w.fs.Wf) (moved : w.Moved P move v)
    (apart : move.concerns (w.db.committed.slice q) = false) : v.estate q = w.estate q := by
  refine estate_eq (by rw [moved.db]) ?_ (fun _ _ => by rw [moved.mem]) ?_ (fun _ _ _ _ => by rw [moved.saved])
  · intro iid held
    rcases moved.vm iid with ⟨same,_⟩ | ⟨vm,vm',_,_,moves⟩
    · exact same
    · have target := moves.target
      cases move with
      | guestMemory | agentUp | agent | workload | vmDies =>
        cases target
        exact absurd held (by simp [Move.concerns] at apart; simp [apart])
      | guestDisk | delete => cases target
  · intro p row of held
    have files := moved.fs
    generalize v.fs = after at files
    cases files with
    | none => rfl
    | disk =>
      rw [Fs.content_put wf,if_neg]
      rintro rfl
      cases of
      exact absurd held (by simp [Move.concerns] at apart; simp [apart])
    | chunk =>
      rw [Fs.content_remove,if_neg]
      rintro rfl
      cases of
    | mem =>
      rw [Fs.content_remove,if_neg]
      rintro rfl
      cases of
      simp [Move.concerns,Path.row,held] at apart

end

/-! ## Whole runs -/

section
variable {W : Web} {root : ProjectRow} {s3 : Bool} {pool later : SPool} {q : Id}

theorem World.initial_housed (root : ProjectRow) (s3 : Bool) : Housed (World.initial root s3) where
  orderly := (World.initial_fresh root s3).orderly
  wf := Fs.empty_wf
  filed := ⟨fun row member => by simp [World.initial] at member,fun t T held => by simp [World.initial] at held⟩
  projects t T held := by simp [World.initial] at held
  recorded table id q of := by
    cases table <;> simp [World.initial,Tables.projectOf,Tables.run?,Tables.snapshot?,Tables.projectOfInstance,
      Tables.instance?] at of
  added t T held := by simp [World.initial] at held

/-- In every state that the server reaches, each thread is within the rules of its request. -/
theorem server_reach (reached : (server W).Reach (fun _ _ => True) ⟨World.initial root s3,[]⟩ pool) :
    Healthy (protocol W.platform) Unborn (fun _ _ _ _ => True) pool ∧
      Cast (tenancy W.platform) Housed (fun _ _ _ => True) pool :=
  (server_sound W).roles (tenancy_roles W) ((World.initial_fresh root s3).served W.platform)
    (.idle (World.initial_housed root s3) rfl) reached

/-- The project of the caller is the only one whose rows a call is about; a call of a request whose key
    opens no project reads the tables. -/
theorem calls_granted (W : Web) (root : ProjectRow) (s3 : Bool) {pool later : SPool}
    (reached : (server W).Reach (fun _ _ => True) ⟨World.initial root s3,[]⟩ pool) {t : Nat} {choice : Choice} {h : Http}
    {op : Op} {next : Except Exn op.Res → KProg (Option Response)}
    (found : pool.threads[t]? = some ⟨.http h,.call op next⟩) (acted : (server W).act pool (.call t choice) = some later) :
    op = .db .read ∨ ∃ pid, pool.world.db.committed.opens W.platform h.key = some pid ∧ Granted t pid op pool.world := by
  obtain ⟨healthy,cast⟩ := server_reach reached
  simp only [Machine.act,found] at acted
  obtain ⟨⟨outcome,v⟩,executed,_⟩ := Option.map_eq_some_iff.mp acted
  exact ((server_sound W).called (tenancy_roles W) healthy cast found trivial executed).2.2.1

/-- A server with the plain platform; nothing here is rounded, parsed or mounted. -/
def Web.plain : Web := ⟨.plain,fun x _ => x,fun _ => none,fun _ => .error (.OSError "mount"),fun _ => [],fun _ => ""⟩

/-- The calls of a thread of the server, one choice after the other. -/
def serves (t : Nat) (choices : List Choice) : List (Action Arrival Choice Move) := choices.map (.call t)

/-- The first project starts a run, and then makes the project "b". -/
def twoProjects : List (Action Arrival Choice Move) :=
  .request (.http ⟨.POST,"/v1/runs","key",.ok (.obj [])⟩) :: serves 0 (.ok :: createRun "r" "i" [7] [8]) ++
    .request (.http ⟨.POST,"/v1/projects/","key",.ok (.obj [])⟩) ::
    serves 1 [.ok,.text "x",.id "b",.time 1,.ok,.ok]

/-- The request of a thread, and its next call. -/
def SPool.asks (pool : SPool) (t : Nat) : Option (Http × Op) :=
  match pool.threads[t]? with
  | some ⟨.http h,.call op _⟩ => some (h,op)
  | _ => none

theorem SPool.found_of_asks {pool : SPool} {t : Nat} {h : Http} {op : Op} (asks : pool.asks t = some (h,op)) :
    ∃ next, pool.threads[t]? = some ⟨.http h,.call op next⟩ := by
  unfold SPool.asks at asks
  split at asks
  · rename_i h' op' next found
    simp only [Option.some.injEq,Prod.mk.injEq] at asks
    obtain ⟨rfl,rfl⟩ := asks
    exact ⟨next,found⟩
  · cases asks

/-- The first project has a run, and asks for a snapshot of its instance. -/
def askedSnapshot : List (Action Arrival Choice Move) :=
  twoProjects ++ .request (.http ⟨.POST,"/v1/instances/i/snapshot","key",.ok (.obj [])⟩) :: serves 2 [.ok,.ok]

/-- The instance that is looked up in `LIVE`. -/
def Op.looksUp : Op → Option Id
  | .mem (.liveGet iid) => some iid
  | _ => none

theorem looksUp_eq_some {op : Op} {iid : Id} (same : op.looksUp = some iid) : op = .mem (.liveGet iid) := by
  unfold Op.looksUp at same
  split at same <;> cases same
  rfl

theorem calls_granted_snapshot : ∃ (pool : SPool) (h : Http) (op : Op),
    (server .plain).Reach (fun _ _ => True) ⟨World.initial defaultProject false,[]⟩ pool ∧
      pool.asks 2 = some (h,op) ∧ op.Names pool.world.fs (.instances,"i") ∧
      (op = .db .read ∨ ∃ pid, pool.world.db.committed.opens .plain h.key = some pid ∧ Granted 2 pid op pool.world) := by
  have seen : ((server .plain).run (fun _ _ => true) askedSnapshot ⟨World.initial defaultProject false,[]⟩).bind
      (fun pool : SPool => (pool.asks 2).bind fun asked => ((server .plain).act pool (.call 2 .ok)).map fun _ =>
        asked.2.looksUp) = some (some "i") := by decide +kernel
  obtain ⟨pool,ran,onward⟩ := Option.bind_eq_some_iff.mp seen
  obtain ⟨⟨h,op⟩,asks,onward⟩ := Option.bind_eq_some_iff.mp onward
  obtain ⟨later,acted,same⟩ := Option.map_eq_some_iff.mp onward
  obtain ⟨next,found⟩ := SPool.found_of_asks asks
  have reached : (server .plain).Reach (fun _ _ => True) ⟨World.initial defaultProject false,[]⟩ pool :=
    Machine.reach_of_run _ (fun _ _ _ => trivial) ran
  refine ⟨pool,h,op,reached,asks,?_,calls_granted .plain defaultProject false reached found acted⟩
  cases looksUp_eq_some same
  rfl

/-- The estate with other usage. -/
def Estate.billed (e : Estate) (usage : List UsageRow) : Estate := { e with rows := { e.rows with usage } }

/-- What does not concern the project: requests under other keys, passes of the meter, which may
    charge it only if `billing`, and what happens to other guests. -/
def Spares (P : Platform) (q : Id) (billing : Bool) (pool : SPool) : Action Arrival Choice Move → Prop
  | .request _ => True
  | .call t _ =>
    (∀ h prog, pool.threads[t]? = some ⟨.http h,prog⟩ → pool.world.db.committed.opens P h.key ≠ some q) ∧
    (billing = false → ∀ next, pool.threads[t]? = some ⟨.meter,.call (.db .commit) next⟩ →
      ((pool.world.db.visible t).slice q).usage = (pool.world.db.committed.slice q).usage)
  | .env move => move.concerns (pool.world.db.committed.slice q) = false
  | .reboot => False

/-- The estate stays, but for the bills of the meter where it may charge. -/
def Keeps (billing : Bool) (e e' : Estate) : Prop := e' = if billing then e.billed e'.rows.usage else e

theorem Keeps.of_eq {e e' : Estate} {billing : Bool} (same : e' = e) : Keeps billing e e' := by
  subst same
  cases billing <;> rfl

theorem Keeps.trans {e e' e'' : Estate} {billing : Bool} (first : Keeps billing e e') (second : Keeps billing e' e'') :
    Keeps billing e e'' := by
  cases billing with
  | false => exact Eq.trans second first
  | true =>
    have charged : e' = e.billed e'.rows.usage := first
    have again : e'' = e'.billed e''.rows.usage := second
    rw [charged] at again
    exact again

theorem Charged.slice {T T' : Tables} (charged : Charged T T') (q : Id) :
    T'.slice q = { T.slice q with usage := (T'.slice q).usage } := by
  have same : T'.projectOf .runs = T.projectOf .runs := by
    funext rid
    simp [Tables.projectOf,Tables.run?,charged.runs]
  simp [Tables.slice,charged.runs,charged.snapshots,charged.instances,same]

/-- A call of the meter leaves the estate but for what it commits. -/
theorem meter_estate {billing : Bool} {t : Nat} {op : Op} {choice : Choice} {w v : World} {outcome : Except Exn op.Res}
    (wf : w.fs.Wf) (may : May W.platform t .meter op w) (ran : exec W.platform t op choice w = some (outcome,v))
    (spares : billing = false → op = .db .commit →
      ((w.db.visible t).slice q).usage = (w.db.committed.slice q).usage) : Keeps billing (w.estate q) (v.estate q) := by
  obtain ⟨meters,charged⟩ := may
  by_cases db : op.kind = .db
  swap
  · have other : op.isVm = false := by cases op <;> first | rfl | cases meters
    refine .of_eq (estate_eq (by rw [exec_db db ran]) (fun _ _ => by rw [exec_hyp other ran]) ?_ ?_
      fun _ _ _ _ => by rw [exec_hyp other ran])
    · intro iid _
      have same : iid ∈ v.mem.live ↔ iid ∈ w.mem.live := by
        constructor
        · intro member
          rcases exec_live ran member with before | rfl
          · exact before
          · cases meters
        · intro member
          rcases exec_live_stays ran member with after | rfl
          · exact after
          · cases meters
      simpa using same
    · intro p row _ _
      refine (exec_touches ran).content wf fun writes => ?_
      cases op with
      | fs | vm => cases meters
      | db | s3 | mem | sys => exact writes
  cases op with
  | fs | s3 | vm => cases meters
  | mem o => cases o <;> cases db
  | sys o => cases db
  | db o =>
    obtain ⟨db',acts,rfl⟩ := exec_dbActs ran
    cases acts with
    | fails | read | unchanged | idle | wrote | refused | rolled => exact .of_eq rfl
    | @committed T held =>
      rw [Db.visible_own held] at charged spares
      have rows := charged.slice q
      cases billing with
      | true =>
        simp only [Keeps,World.estate,Estate.billed,if_true]
        rw [rows]
        rfl
      | false =>
        have same : T.slice q = w.db.committed.slice q := by rw [rows,spares rfl rfl]
        simp [Keeps,World.estate,same]

/-- One action that does not concern the project leaves its estate. -/
theorem estate_step {billing : Bool} (healthy : Healthy (protocol W.platform) Unborn (fun _ _ _ _ => True) pool)
    (cast : Cast (tenancy W.platform) Housed (fun _ _ _ => True) pool) {action : Action Arrival Choice Move}
    (spares : Spares W.platform q billing pool action) (acted : (server W).act pool action = some later) :
    Keeps billing (pool.world.estate q) (later.world.estate q) := by
  cases action with
  | request arrival =>
    cases Option.some.inj acted
    exact .of_eq rfl
  | call t choice =>
    simp only [Machine.act] at acted
    split at acted
    · rename_i arrival op next found
      obtain ⟨⟨outcome,v⟩,executed,same⟩ := Option.map_eq_some_iff.mp acted
      subst same
      obtain ⟨_,_,may,_⟩ := (server_sound W).called (tenancy_roles W) healthy cast found trivial executed
      cases arrival with
      | http h =>
        rcases may with rfl | ⟨pid,opens,granted⟩
        · obtain ⟨db,acts,rfl⟩ := exec_dbActs (P := W.platform) executed
          cases acts <;> exact .of_eq rfl
        · refine .of_eq (granted.estate cast.kept executed ?_)
          rintro rfl
          exact spares.1 h _ found opens
      | meter =>
        refine meter_estate cast.kept.wf may executed fun unbilled commits => ?_
        subst commits
        exact spares.2 unbilled _ found
    · cases acted
  | env move =>
    obtain ⟨v,moved,same⟩ := Option.map_eq_some_iff.mp acted
    subst same
    exact .of_eq ((World.moved_of_move moved).estate cast.kept.wf spares)
  | reboot => exact spares.elim

/-- Whatever the requests of others do, in any order and however their calls fail, a project keeps
    what it has, and only the meter bills it. -/
theorem tenants_apart (W : Web) (root : ProjectRow) (s3 : Bool) {pool later : SPool} {q : Id} {billing : Bool}
    (reached : (server W).Reach (fun _ _ => True) ⟨World.initial root s3,[]⟩ pool)
    (onward : (server W).Reach (Spares W.platform q billing) pool later) :
    Keeps billing (pool.world.estate q) (later.world.estate q) := by
  induction onward with
  | refl => exact .of_eq rfl
  | tail before next ih =>
    obtain ⟨healthy,cast⟩ := server_reach (reached.trans (Machine.Reach.weaken (fun _ _ _ => trivial) before))
    obtain ⟨action,spares,acted⟩ := next
    exact ih.trans (estate_step healthy cast spares acted)

end

/-- The other project starts a run of its own and asks for a snapshot of the first one's; a pass of
    the meter bills them both. -/
def otherRun : List (Action Arrival Choice Move) :=
  .request (.http ⟨.POST,"/v1/runs","klados_x",.ok (.obj [])⟩) :: serves 2 (.ok :: createRun "r2" "i2" [9] [9]) ++
    .request (.http ⟨.POST,"/v1/instances/i/snapshot","klados_x",.ok (.obj [])⟩) :: serves 3 [.ok,.ok] ++
    .request .meter :: serves 4 [.ok,.ok,.ok,.time 2,.ok,.ok,.ok]

/-- Whether a request or a call spares the project. -/
def sparing (P : Platform) (q : Id) (pool : SPool) : Action Arrival Choice Move → Bool
  | .request _ => true
  | .call t _ =>
    match pool.threads[t]? with
    | some ⟨.http h,_⟩ => pool.world.db.committed.opens P h.key ≠ some q
    | _ => true
  | .env _ | .reboot => false

theorem spares_of_sparing {P : Platform} {q : Id} {pool : SPool} {action : Action Arrival Choice Move}
    (sparing : sparing P q pool action = true) : Spares P q true pool action := by
  cases action with
  | request => trivial
  | call t choice =>
    refine ⟨?_,by simp⟩
    intro h prog found
    simpa [Klados.sparing,found] using sparing
  | env | reboot => cases sparing

theorem tenants_apart_otherRun : ∃ pool later : SPool,
    (server .plain).Reach (fun _ _ => True) ⟨World.initial defaultProject false,[]⟩ pool ∧
      (server .plain).Reach (Spares .plain "p" true) pool later ∧
      (pool.world.estate "p").rows.instances.map (·.id) = ["i"] ∧
      later.world.db.committed.instances.map (·.id) = ["i","i2"] ∧
      Keeps true (pool.world.estate "p") (later.world.estate "p") := by
  have seen : (((server .plain).run (fun _ _ => true) twoProjects ⟨World.initial defaultProject false,[]⟩).bind
      fun pool : SPool => ((server .plain).run (sparing .plain "p") otherRun pool).map fun later : SPool =>
        ((pool.world.estate "p").rows.instances.map (·.id),later.world.db.committed.instances.map (·.id))) =
      some (["i"],["i","i2"]) := by decide +kernel
  obtain ⟨pool,ran,onward⟩ := Option.bind_eq_some_iff.mp seen
  obtain ⟨later,ran',same⟩ := Option.map_eq_some_iff.mp onward
  have reached : (server .plain).Reach (fun _ _ => True) ⟨World.initial defaultProject false,[]⟩ pool :=
    Machine.reach_of_run _ (fun _ _ _ => trivial) ran
  have spared := Machine.reach_of_run (server .plain) (fun (_ : SPool) _ => spares_of_sparing) ran'
  simp only [Prod.mk.injEq] at same
  exact ⟨pool,later,reached,spared,same.1,same.2,tenants_apart .plain defaultProject false reached spared⟩

end Klados
