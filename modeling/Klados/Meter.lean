import Klados.Usage
import Klados.Follow
import Klados.Gate
import Klados.Timeline

/-!
Metering. A tick reads `LIVE` once, looks the instances up one by one among the committed rows, and
adds `dt` for each row it finds to the project of its run; an instance without a committed row is passed
over. Between the reads and the commit other requests boot, commit and destroy: what a tick adds is exact
for what it has read (`metering_exact`).
-/
namespace Klados
open Effects
open Prog (Only)

variable {P : Platform}

/-- What `LIVE` held when the tick read it; of each of these instances looked up so far the project by its
    committed row, and the answer of the SELECT; whether a statement was executed; and what it has
    added to the usage table in its transaction. -/
structure Ticking where
  live : List Id
  read : List (Id × Option Id)
  rows : List (Option Id)
  wrote : Bool
  accrued : List UsageRow

def Ticking.first : Ticking := ⟨[],[],[],false,[]⟩

/-- The usage row that a statement has added. -/
def accruedBy : Stmt → Except Exn Unit → List UsageRow
  | .accrue pid v g now, .ok _ => [⟨pid,v,g,now⟩]
  | _, _ => []

def Ticking.sees (g : Ticking) (op : Op) (outcome : Except Exn op.Res) (w : World) : Ticking :=
  match op, outcome with
  | .mem .liveKeys, _ => { g with live := w.mem.live }
  | .db .read, .ok T =>
    match g.live[g.rows.length]? with
    | some iid => { g with read := g.read ++ [(iid,w.db.committed.projectOfInstance iid)],
                           rows := g.rows ++ [T.projectOfInstance iid] }
    | none => g
  | .db (.execute stmt), outcome => { g with wrote := true, accrued := g.accrued ++ accruedBy stmt outcome }
  | .db .commit, .ok _ => { g with accrued := [] }
  | .db .rollback, .ok _ => { g with accrued := [] }
  | _, _ => g

/-- A tick looks up each instance before its first statement, and commits when what it has added is
    what the rows cost. -/
def Ticking.may (dt : Rat) (g : Ticking) : Op → Prop
  | .mem .liveKeys => g = .first
  | .db .read => g.wrote = false ∧ g.rows.length < g.live.length
  | .db .commit => g.rows.length = g.live.length ∧
      ∀ pid, (g.accrued.map (·.share pid)).sum = charge dt g.rows pid
  | _ => True

def ticking : Track sig Exn World Move Ticking Unit where
  first := .first
  next _ op outcome w _ g := g.sees op outcome w
  notes _ _ _ _ _ _ := ()
  moves _ _ all := all
  reboots all := all
  may _ _ _ := True

/-- The order of a tick of `dt` seconds. -/
def metering (dt : Rat) : Track sig Exn World Move Ticking Unit := { ticking with may := fun _ g op => g.may dt op }

section
variable {dt : Rat} {t : Nat}

/-- The instances that `rest` lists are still to be looked up, and `accr` is what the others cost. -/
structure Ticking.Looking (dt : Rat) (rest : List Id) (accr : List (Id × Rat × Rat)) (g : Ticking) : Prop where
  wrote : g.wrote = false
  accrued : g.accrued = []
  most : g.rows.length ≤ g.live.length
  rest : g.live.drop g.rows.length = rest
  accr : accrOf dt g.rows = accr

/-- All are looked up, and the entries `done` are in the usage table. -/
structure Ticking.Adding (dt : Rat) (accr done : List (Id × Rat × Rat)) (g : Ticking) : Prop where
  all : g.rows.length = g.live.length
  accr : accrOf dt g.rows = accr
  accrued : g.accrued.map (fun row => (row.project_id,row.vcpu_s,row.ram_gib_s)) = done

theorem Ticking.Looking.looked {iid : Id} {rest : List Id} {accr : List (Id × Rat × Rat)} {g : Ticking}
    (looking : g.Looking dt (iid :: rest) accr) (T : Tables) (w : World) :
    g.sees (.db .read) (.ok T) w = { g with read := g.read ++ [(iid,w.db.committed.projectOfInstance iid)],
                                            rows := g.rows ++ [T.projectOfInstance iid] } ∧
      (g.sees (.db .read) (.ok T) w).Looking dt rest (accrOf dt (g.rows ++ [T.projectOfInstance iid])) := by
  have next : g.live[g.rows.length]? = some iid := by
    rw [← List.head?_drop,looking.rest]
    rfl
  have inside : g.rows.length < g.live.length := (List.getElem?_eq_some_iff.mp next).1
  have seen : g.sees (.db .read) (.ok T) w = { g with read := g.read ++ [(iid,w.db.committed.projectOfInstance iid)],
                                                      rows := g.rows ++ [T.projectOfInstance iid] } := by
    simp only [Ticking.sees,next]
  refine ⟨seen,?_⟩
  rw [seen]
  refine ⟨looking.wrote,looking.accrued,?_,?_,rfl⟩
  · rw [List.length_append,List.length_singleton]
    exact inside
  · have tail := congrArg List.tail looking.rest
    rw [List.tail_drop,List.tail_cons] at tail
    simpa using tail

theorem meter_rows_tracked (rest : List Id) (accr : List (Id × Rat × Rat)) :
    Triple ((metering dt).rules (daemon P)) t (Track.At t (Ticking.Looking dt rest accr)) (meter_rows dt rest accr)
      (Track.Leaves t (fun _ => True) fun accr g => g.Adding dt accr []) := by
  induction rest generalizing accr with
  | nil =>
    refine Track.ret_triple ?_
    intro g looking
    have all : g.live.length ≤ g.rows.length := List.drop_eq_nil_iff.mp looking.rest
    exact ⟨Nat.le_antisymm looking.most all,looking.accr,by rw [looking.accrued]; rfl⟩
  | cons iid rest ih =>
    refine Track.call_bind (r := fun (T : Tables) g =>
      g.Looking dt rest ((T.projectOfInstance iid).elim accr fun pid =>
        accumulate accr pid dt (mem_mib / 1024 * dt))) ?_ ?_ (fun _ _ _ _ _ _ _ => trivial) ?_
    · intro g looking
      refine ⟨looking.wrote,?_⟩
      have more := congrArg List.length looking.rest
      rw [List.length_drop,List.length_cons] at more
      omega
    · intro choice T w v g _ looking
      have after := (looking.looked T w).2
      have same : accrOf dt (g.rows ++ [T.projectOfInstance iid]) = (T.projectOfInstance iid).elim accr fun pid =>
          accumulate accr pid dt (mem_mib / 1024 * dt) := by
        have before := looking.accr
        unfold accrOf at before ⊢
        rw [List.foldl_append,before]
        cases T.projectOfInstance iid <;> rfl
      exact same ▸ after
    · intro T
      cases row : T.projectOfInstance iid with
      | none => simpa only [row,Option.elim_none] using ih accr
      | some pid => simpa only [row,Option.elim_some] using ih (accumulate accr pid dt (mem_mib / 1024 * dt))

theorem shareOf_rows (rows : List UsageRow) (pid : Id) :
    shareOf (rows.map fun row => (row.project_id,row.vcpu_s,row.ram_gib_s)) pid = (rows.map (·.share pid)).sum := by
  rw [shareOf,List.map_map]
  rfl

theorem Ticking.Adding.may {accr : List (Id × Rat × Rat)} {g : Ticking} (adding : g.Adding dt accr accr) :
    g.may dt (.db .commit) := by
  refine ⟨adding.all,?_⟩
  intro pid
  rw [← shareOf_rows,adding.accrued,← adding.accr]
  exact (accrOf_share dt g.rows).2 pid

theorem Ticking.Adding.added {accr done : List (Id × Rat × Rat)} {g : Ticking} {pid : Id} {v r : Rat}
    (adding : g.Adding dt accr done) (now : Time) (w : World) :
    (g.sees (.db (.execute (.accrue pid v r now))) (.ok ()) w).Adding dt accr (done ++ [(pid,v,r)]) := by
  refine ⟨adding.all,adding.accr,?_⟩
  have before := adding.accrued
  simp only [Ticking.sees,accruedBy,List.map_append,before]
  rfl

/-- A tick looks up every instance before it writes, and commits exactly what the rows cost. -/
theorem meter_tick_tracked :
    Triple ((metering dt).rules (daemon P)) t (Track.At t (· = Ticking.first)) (meter_tick dt)
      (Track.Leaves t (fun _ => True) fun _ _ => True) := by
  refine Track.catching (e := fun _ => True) ?_ fun error => ?_
  swap
  · refine Track.keeps_bind ⟨?_,?_⟩ (fun _ _ => trivial) fun _ => Track.raise_triple fun _ _ => trivial
    · exact fun g _ => ⟨trivial,fun _ _ _ => trivial⟩
    · intro outcome
      cases outcome <;> trivial
  refine Track.call_bind (r := fun (live : List Id) g => g.Looking dt live []) ?_ ?_ (fun _ _ _ _ _ _ _ => trivial) fun live => ?_
  · exact fun g first => first
  · rintro choice live w v g ran rfl
    obtain ⟨⟨result,after⟩,executed,same⟩ := Option.map_eq_some_iff.mp ran
    cases same
    cases choice <;> cases executed
    exact ⟨rfl,rfl,Nat.zero_le _,rfl,rfl⟩
  refine Track.seq (meter_rows_tracked live []) fun accr => ?_
  refine Track.keeps_bind ⟨?_,?_⟩ (fun _ _ => trivial) fun now => ?_
  · exact fun g adding => ⟨trivial,fun _ _ _ => adding⟩
  · intro outcome
    cases outcome <;> trivial
  refine Track.seq (r := fun _ g => g.Adding dt accr accr) (Track.each (p := fun done _ => Ticking.Adding dt accr done)
    ?_) fun _ => ?_
  · rintro done ⟨pid,v,r⟩ rest values _
    exact Track.call_triple (fun _ _ => trivial) (fun _ _ w _ g _ adding => adding.added now w) (fun _ _ _ _ _ _ _ => trivial)
  · refine Track.call_bind (r := fun _ _ => True) ?_ ?_ ?_ fun _ => Track.ret_triple fun _ _ => trivial
    · exact fun g adding => adding.may
    · exact fun _ _ _ _ _ _ _ => trivial
    · exact fun _ _ _ _ _ _ _ => trivial

end

/-- An operation that only a tick calls: `LIVE` is read as a whole, and usage is added. -/
def Op.isMetering : Op → Bool
  | .mem .liveKeys => true
  | .db (.execute (.accrue _ _ _ _)) => true
  | _ => false

/-- The program takes no part in metering. -/
abbrev Unmetered {α : Type} (program : KProg α) : Prop := program.Only fun op : Op => op.isMetering = false

theorem unmetered_body {req : Req} (other : ∀ dt, req ≠ .meter_tick dt) : Unmetered (req.body P) := by
  refine Only.mono ?_ (part_body P req)
  intro op calls
  cases req with
  | meter_tick dt => exact absurd rfl (other dt)
  | create_run | snapshot_instance | fork_snapshot | destroy_instance | timeline =>
    cases op with
    | fs | s3 | sys | vm => rfl
    | mem o => cases o <;> first | rfl | cases calls
    | db o =>
      cases o with
      | read | commit | rollback => rfl
      | execute stmt => cases stmt <;> first | rfl | cases calls

/-- What the ticks have read is what is committed, and an open transaction holds what its thread has
    added. -/
structure Billed (w : World) (own : Nat → Ticking) : Prop where
  held : ∀ t T, w.db.txn = some (t,T) → T.usage = (own t).accrued.foldl accrueUsage w.db.committed.usage
  shut : ∀ t, (∀ T, w.db.txn ≠ some (t,T)) → (own t).accrued = []
  reading : ∀ t, (own t).wrote = false → ∀ T, w.db.txn ≠ some (t,T)
  answers : ∀ t, (own t).rows = (own t).read.map Prod.snd
  order : ∀ t, (own t).read.map Prod.fst = (own t).live.take (own t).rows.length

section
variable {t : Nat} {op : Op} {choice : Choice} {outcome : Except Exn op.Res} {w v : World} {own : Nat → Ticking}

theorem apply_usage {T T' : Tables} {stmt : Stmt} (applied : stmt.apply T = .ok T') :
    T'.usage = (accruedBy stmt (.ok ())).foldl accrueUsage T.usage := by
  cases stmt with
  | insertProject | insertRun | insertSnapshot | insertInstance =>
    simp only [Stmt.apply] at applied
    split at applied
    · cases applied
    · cases applied
      rfl
  | setSnapshot | setDestroyed | accrue =>
    cases applied
    rfl

/-- What thread `t` sees of the usage table. -/
theorem Billed.visible (billed : Billed w own) (t : Nat) :
    (w.db.visible t).usage = (own t).accrued.foldl accrueUsage w.db.committed.usage := by
  by_cases holds : ∃ T, w.db.txn = some (t,T)
  · obtain ⟨T,held⟩ := holds
    rw [Db.visible_own held]
    exact billed.held t T held
  · have idle : ∀ T, w.db.txn ≠ some (t,T) := fun T held => holds ⟨T,held⟩
    rw [Db.visible_other idle,billed.shut t idle]
    rfl

/-- A commit that returns adds to the usage table what its thread has added, and nothing else changes
    what is committed there. -/
theorem Billed.usage (billed : Billed w own) (ran : exec P t op choice w = some (outcome,v)) :
    (op = .db .commit ∧ (∃ value, outcome = .ok value) ∧
      v.db.committed.usage = (own t).accrued.foldl accrueUsage w.db.committed.usage) ∨
    ((op = .db .commit → ∀ value, outcome ≠ .ok value) ∧ v.db.committed.usage = w.db.committed.usage) := by
  by_cases db : op.kind = .db
  swap
  · refine .inr ⟨?_,by rw [exec_db db ran]⟩
    rintro rfl
    exact absurd rfl db
  obtain ⟨o,rfl⟩ := db_of_kind db
  obtain ⟨after,acts,rfl⟩ := exec_dbActs ran
  cases acts with
  | fails => exact .inr ⟨by simp,rfl⟩
  | read | wrote | refused | rolled | idle => exact .inr ⟨by simp,rfl⟩
  | committed held => exact .inl ⟨rfl,⟨_,rfl⟩,billed.held t _ held⟩
  | unchanged idle =>
    refine .inl ⟨rfl,⟨_,rfl⟩,?_⟩
    rw [billed.shut t idle]
    rfl

/-- The transactions after a call of thread `t`. -/
theorem Billed.txn (billed : Billed w own) (ran : exec P t op choice w = some (outcome,v)) :
    (∀ T, v.db.txn = some (t,T) → T.usage = ((own t).sees op outcome w).accrued.foldl accrueUsage v.db.committed.usage) ∧
      ((∀ T, v.db.txn ≠ some (t,T)) → ((own t).sees op outcome w).accrued = []) ∧
      (((own t).sees op outcome w).wrote = false → ∀ T, v.db.txn ≠ some (t,T)) := by
  by_cases db : op.kind = .db
  swap
  · have same : ((own t).sees op outcome w).accrued = (own t).accrued ∧
        ((own t).sees op outcome w).wrote = (own t).wrote := by
      unfold Ticking.sees
      split <;> first | exact ⟨rfl,rfl⟩ | exact absurd rfl db
    rw [exec_db db ran,same.1,same.2]
    exact ⟨billed.held t,billed.shut t,billed.reading t⟩
  obtain ⟨o,rfl⟩ := db_of_kind db
  obtain ⟨after,acts,rfl⟩ := exec_dbActs ran
  cases acts with
  | read =>
    have same : ((own t).sees (.db .read) (.ok (w.db.visible t)) w).accrued = (own t).accrued ∧
        ((own t).sees (.db .read) (.ok (w.db.visible t)) w).wrote = (own t).wrote := by
      simp only [Ticking.sees]
      split <;> exact ⟨rfl,rfl⟩
    rw [same.1,same.2]
    exact ⟨billed.held t,billed.shut t,billed.reading t⟩
  | fails =>
    cases o with
    | read | commit | rollback => exact ⟨billed.held t,billed.shut t,billed.reading t⟩
    | execute stmt =>
      have nothing : ∀ error, accruedBy stmt (.error error) = [] := by
        intro error
        cases stmt <;> rfl
      simp only [Ticking.sees,nothing,List.append_nil]
      exact ⟨billed.held t,billed.shut t,by simp⟩
  | @wrote stmt T _ applied =>
    refine ⟨?_,fun none => absurd rfl (none T),by simp [Ticking.sees]⟩
    rintro _ ⟨⟩
    simp only [Ticking.sees]
    rw [apply_usage applied,billed.visible t,List.foldl_append]
  | @refused stmt error =>
    have nothing : accruedBy stmt (.error error) = [] := by cases stmt <;> rfl
    simp only [Ticking.sees,nothing,List.append_nil]
    refine ⟨?_,fun none => absurd rfl (none _),by simp⟩
    rintro _ ⟨⟩
    exact billed.visible t
  | committed | rolled =>
    refine ⟨?_,fun _ => rfl,?_⟩
    · rintro T ⟨⟩
    · rintro _ T ⟨⟩
  | unchanged idle | idle idle => exact ⟨fun T held => absurd held (idle T),fun _ => rfl,fun _ => idle⟩

/-- What a call keeps, when `LIVE` is read first and rows are looked up before anything is written. -/
theorem Billed.call (billed : Billed w own) (ran : exec P t op choice w = some (outcome,v))
    (keys : op = .mem .liveKeys → own t = .first)
    (looks : op = .db .read → (own t).wrote = false ∨ (own t).live.length ≤ (own t).rows.length) :
    Billed v (Function.update own t ((own t).sees op outcome w)) := by
  obtain ⟨held,shut,reading⟩ := billed.txn ran
  have read : ((own t).sees op outcome w).rows = ((own t).sees op outcome w).read.map Prod.snd ∧
      ((own t).sees op outcome w).read.map Prod.fst =
        ((own t).sees op outcome w).live.take ((own t).sees op outcome w).rows.length := by
    unfold Ticking.sees
    split
    case h_1 =>
      rw [keys rfl]
      exact ⟨rfl,rfl⟩
    case h_2 T =>
      split
      case h_2 => exact ⟨billed.answers t,billed.order t⟩
      case h_1 iid next =>
      have inside := (List.getElem?_eq_some_iff.mp next).1
      have wrote : (own t).wrote = false := (looks rfl).resolve_right (by omega)
      obtain ⟨after,acts,_⟩ := exec_dbActs ran
      have seen : T = w.db.committed := by
        cases acts
        exact Db.visible_other (billed.reading t wrote)
      constructor
      · rw [List.map_append,← billed.answers t,seen]
        rfl
      · rw [List.map_append,billed.order t,List.length_append,List.length_singleton,List.take_add_one,next]
        rfl
    all_goals exact ⟨billed.answers t,billed.order t⟩
  have foreign : ∀ t', t' ≠ t → ∀ T, v.db.txn = some (t',T) → w.db.txn = some (t',T) ∧ v.db.committed = w.db.committed := by
    intro t' other T there
    obtain ⟨same,before | ⟨mine,_⟩⟩ := exec_txn_open ran there
    · exact ⟨before,same⟩
    · exact absurd mine other
  have after : ∀ t', t' ≠ t → Function.update own t ((own t).sees op outcome w) t' = own t' :=
    fun t' other => Function.update_of_ne other _ _
  constructor
  · intro t' T there
    by_cases same : t' = t
    · subst same
      rw [Function.update_self]
      exact held T there
    · obtain ⟨before,unchanged⟩ := foreign t' same T there
      rw [after t' same,unchanged]
      exact billed.held t' T before
  · intro t' idle
    by_cases same : t' = t
    · subst same
      rw [Function.update_self]
      exact shut idle
    · rw [after t' same]
      exact billed.shut t' fun T before => idle T (exec_txn_held ran same before)
  · intro t' wrote T there
    by_cases same : t' = t
    · subst same
      rw [Function.update_self] at wrote
      exact reading wrote T there
    · rw [after t' same] at wrote
      exact billed.reading t' wrote T (foreign t' same T there).1
  · intro t'
    by_cases same : t' = t
    · subst same
      rw [Function.update_self]
      exact read.1
    · rw [after t' same]
      exact billed.answers t'
  · intro t'
    by_cases same : t' = t
    · subst same
      rw [Function.update_self]
      exact read.2
    · rw [after t' same]
      exact billed.order t'

end
/-! ## Runs -/

abbrev MeterPool := FollowedPool Ticking Unit

/-- What a tick of `dt` seconds has read when it commits: `LIVE`, and of each instance the project by its
    committed row. -/
structure Bill where
  dt : Rat
  live : List Id
  read : List (Id × Option Id)
  deriving DecidableEq

/-- `dt` for each instance of the project. -/
def Bill.charge (bill : Bill) (pid : Id) : Rat × Rat := Klados.charge bill.dt (bill.read.map Prod.snd) pid

/-- A tick that commits leaves a bill. -/
def billOf (pool : MeterPool) : Action Req Choice Move → List Bill
  | .call t .ok =>
    match pool.threads[t]? with
    | some ⟨.meter_tick dt,.call (.db .commit) _⟩ => [⟨dt,(pool.world.2.own t).live,(pool.world.2.own t).read⟩]
    | _ => []
  | _ => []

/-- What every run keeps: ticks keep to their order, and the other requests do not meter. -/
structure Metered (P : Platform) (pool : MeterPool) : Prop where
  billed : Billed pool.world.1 pool.world.2.own
  ticks : ∀ t dt prog, pool.threads[t]? = some ⟨.meter_tick dt,prog⟩ →
    Safe ((metering dt).rules (daemon P)) t prog (Track.Leaves t (fun _ => True) fun _ _ => True) pool.world
  others : ∀ t req prog, pool.threads[t]? = some ⟨req,prog⟩ → (∀ dt, req ≠ .meter_tick dt) →
    Unmetered prog ∧ (pool.world.2.own t).live = [] ∧ (pool.world.2.own t).accrued = []
  young : ∀ t, pool.threads.length ≤ t → pool.world.2.own t = .first

theorem Billed.of_db {w v : World} {own : Nat → Ticking} (billed : Billed w own) (same : v.db = w.db) : Billed v own := by
  refine ⟨?_,?_,?_,billed.answers,billed.order⟩
  · rw [same]
    exact billed.held
  · rw [same]
    exact billed.shut
  · rw [same]
    exact billed.reading

theorem Ticking.sees_unmetered {g : Ticking} {op : Op} (outcome : Except Exn op.Res) (w : World)
    (other : op.isMetering = false) (empty : g.accrued = []) :
    (g.sees op outcome w).live = g.live ∧ (g.sees op outcome w).accrued = [] := by
  unfold Ticking.sees
  split
  case h_1 => cases other
  case h_2 =>
    split
    · exact ⟨rfl,empty⟩
    · exact ⟨rfl,empty⟩
  case h_3 stmt _ =>
    refine ⟨rfl,?_⟩
    rw [empty]
    cases stmt with
    | accrue => cases other
    | insertProject | insertRun | insertSnapshot | insertInstance | setSnapshot | setDestroyed => rfl
  case h_4 => exact ⟨rfl,rfl⟩
  case h_5 => exact ⟨rfl,rfl⟩
  case h_6 => exact ⟨rfl,empty⟩

theorem Metered.start {w : World} (idle : w.db.txn = none) :
    Metered P (⟨(w,ticking.start ()),[]⟩ : MeterPool) where
  billed := by
    refine ⟨?_,fun _ _ => rfl,?_,fun _ => rfl,fun _ => rfl⟩
    · intro t T held
      simp [idle] at held
    · intro t _ T held
      simp [idle] at held
  ticks t dt prog found := by simp at found
  others t req prog found := by simp at found
  young _ _ := rfl

section
variable {pool : MeterPool} {t : Nat} {req : Req} {op : Op} {next : Except Exn op.Res → KProg Json} {choice : Choice}
  {outcome : Except Exn op.Res} {v : World} {dt : Rat}

/-- A call of a tick is one that its order allows, and the rest of the tick keeps to the order. -/
theorem Metered.tick (metered : Metered P pool) (found : pool.threads[t]? = some ⟨.meter_tick dt,.call op next⟩)
    (ran : exec P t op choice pool.world.1 = some (outcome,v)) :
    (pool.world.2.own t).may dt op ∧
      Safe ((metering dt).rules (daemon P)) t (next outcome) (Track.Leaves t (fun _ => True) fun _ _ => True)
        (v,ticking.sees t op outcome pool.world.1 v pool.world.2) := by
  have safe := metered.ticks t dt _ found pool.world rfl trivial
  obtain ⟨_,guaranteed,rest⟩ := safe outcome (v,ticking.sees t op outcome pool.world.1 v pool.world.2)
    ⟨choice,Option.map_eq_some_iff.mpr ⟨(outcome,v),ran,rfl⟩⟩
  exact ⟨guaranteed.1,rest⟩

theorem Metered.fine (metered : Metered P pool) (found : pool.threads[t]? = some ⟨req,.call op next⟩)
    (ran : exec P t op choice pool.world.1 = some (outcome,v)) :
    (op = .mem .liveKeys → pool.world.2.own t = .first) ∧
      (op = .db .read → (pool.world.2.own t).wrote = false ∨
        (pool.world.2.own t).live.length ≤ (pool.world.2.own t).rows.length) := by
  by_cases tick : ∃ dt, req = .meter_tick dt
  · obtain ⟨dt,rfl⟩ := tick
    have may := (metered.tick found ran).1
    refine ⟨?_,?_⟩
    · rintro rfl
      exact may
    · rintro rfl
      exact .inl may.1
  · have other : ∀ dt, req ≠ .meter_tick dt := fun dt same => tick ⟨dt,same⟩
    obtain ⟨unmetered,live,_⟩ := metered.others t req _ found other
    refine ⟨?_,?_⟩
    · rintro rfl
      cases unmetered.1
    · rintro rfl
      rw [live]
      exact .inr (Nat.zero_le _)

/-- What a call adds to the usage of a project is on the bill. -/
theorem Metered.charged (metered : Metered P pool) (found : pool.threads[t]? = some ⟨req,.call op next⟩)
    (ran : exec P t op choice pool.world.1 = some (outcome,v)) :
    (∀ bill ∈ billOf pool (.call t choice), bill.read.map Prod.fst = bill.live) ∧
      ∀ pid, usageOf v.db.committed.usage pid =
        usageOf pool.world.1.db.committed.usage pid + ((billOf pool (.call t choice)).map (·.charge pid)).sum := by
  by_cases commits : op = .db .commit ∧ choice = .ok
  swap
  · have none : billOf pool (.call t choice) = [] := by
      cases choice with
      | ok =>
        simp only [billOf,found]
        split
        · rename_i same
          cases same
          exact absurd ⟨rfl,rfl⟩ commits
        · rfl
      | fail | torn | id | text | time | flag | boot | bootLost | lost | eof | puts | found => rfl
    have same : v.db.committed.usage = pool.world.1.db.committed.usage := by
      rcases metered.billed.usage ran with ⟨rfl,⟨value,rfl⟩,_⟩ | ⟨_,same⟩
      · cases choice with
        | ok => exact absurd ⟨rfl,rfl⟩ commits
        | fail | torn | id | text | time | flag | boot | bootLost | lost | eof | puts | found => cases ran
      · exact same
    rw [none,same]
    exact ⟨by simp,fun pid => by simp⟩
  obtain ⟨rfl,rfl⟩ := commits
  have written : v.db.committed.usage =
      (pool.world.2.own t).accrued.foldl accrueUsage pool.world.1.db.committed.usage := by
    rcases metered.billed.usage ran with ⟨_,_,written⟩ | ⟨fails,_⟩
    · exact written
    · obtain ⟨⟨result,after⟩,executed,same⟩ := Option.map_eq_some_iff.mp ran
      cases same
      simp only [Db.exec] at executed
      split at executed <;> cases executed <;> exact absurd rfl (fails rfl ())
  by_cases tick : ∃ dt, req = .meter_tick dt
  · obtain ⟨dt,rfl⟩ := tick
    obtain ⟨all,shares⟩ := (metered.tick found ran).1
    have bill : billOf pool (.call t .ok) = [⟨dt,(pool.world.2.own t).live,(pool.world.2.own t).read⟩] := by
      simp only [billOf,found]
    rw [bill]
    refine ⟨?_,?_⟩
    · intro bill' member
      cases List.mem_singleton.mp member
      rw [metered.billed.order t,all,List.take_length]
    · intro pid
      rw [written,usageOf_foldl,shares,metered.billed.answers t]
      simp [Bill.charge]
  · have other : ∀ dt, req ≠ .meter_tick dt := fun dt same => tick ⟨dt,same⟩
    obtain ⟨_,_,accrued⟩ := metered.others t req _ found other
    have none : billOf pool (.call t .ok) = [] := by
      simp only [billOf,found]
      split
      · rename_i same
        cases same
        exact absurd rfl (other _)
      · rfl
    rw [none,written,accrued]
    exact ⟨by simp,fun pid => by simp⟩

theorem Metered.call (metered : Metered P pool) (found : pool.threads[t]? = some ⟨req,.call op next⟩)
    (ran : exec P t op choice pool.world.1 = some (outcome,v)) :
    Metered P (⟨(v,ticking.sees t op outcome pool.world.1 v pool.world.2),pool.threads.set t ⟨req,next outcome⟩⟩ : MeterPool) := by
  obtain ⟨keys,looks⟩ := metered.fine found ran
  have inside : t < pool.threads.length := (List.getElem?_eq_some_iff.mp found).1
  constructor
  · exact metered.billed.call ran keys looks
  · intro t' dt prog there
    by_cases same : t' = t
    · subst same
      rw [List.getElem?_set_self inside] at there
      cases there
      exact (metered.tick found ran).2
    · rw [List.getElem?_set_ne (Ne.symm same)] at there
      exact (metered.ticks t' dt prog there).later Track.lawful (Track.sees_other same)
  · intro t' req' prog there other
    by_cases same : t' = t
    · subst same
      rw [List.getElem?_set_self inside] at there
      cases there
      obtain ⟨unmetered,live,accrued⟩ := metered.others t' _ _ found other
      obtain ⟨live',accrued'⟩ := Ticking.sees_unmetered outcome pool.world.1 unmetered.1 accrued
      rw [Track.sees_self]
      exact ⟨unmetered.2 outcome,live'.trans live,accrued'⟩
    · rw [List.getElem?_set_ne (Ne.symm same)] at there
      rw [show (ticking.sees t op outcome pool.world.1 v pool.world.2).own t' = pool.world.2.own t' from Track.sees_other same]
      exact metered.others t' req' prog there other
  · intro t' new
    rw [List.length_set] at new
    rw [show (ticking.sees t op outcome pool.world.1 v pool.world.2).own t' = pool.world.2.own t' from
      Track.sees_other (by omega)]
    exact metered.young t' new

end

theorem Metered.request {pool : MeterPool} (metered : Metered P pool) (req : Req) :
    Metered P (⟨pool.world,pool.threads ++ [⟨req,req.body P⟩]⟩ : MeterPool) := by
  have last : ∀ {t thread}, (pool.threads ++ [⟨req,req.body P⟩])[t]? = some thread →
      pool.threads[t]? = some thread ∨ (t = pool.threads.length ∧ thread = ⟨req,req.body P⟩) := by
    intro t thread there
    rcases Nat.lt_or_ge t pool.threads.length with old | new
    · exact .inl (by rwa [List.getElem?_append_left old] at there)
    · rw [List.getElem?_append_right new] at there
      obtain ⟨inside,same⟩ := List.getElem?_eq_some_iff.mp there
      have first : t - pool.threads.length = 0 := by simpa using inside
      exact .inr ⟨by omega,by simpa [first] using same.symm⟩
  have unborn := metered.young pool.threads.length le_rfl
  constructor
  · exact metered.billed
  · intro t dt prog there
    rcases last there with old | ⟨rfl,same⟩
    · exact metered.ticks t dt prog old
    · cases same
      exact meter_tick_tracked pool.world trivial unborn
  · intro t req' prog there other
    rcases last there with old | ⟨rfl,same⟩
    · exact metered.others t req' prog old other
    · cases same
      exact ⟨unmetered_body other,by rw [unborn]; exact ⟨rfl,rfl⟩⟩
  · intro t new
    rw [List.length_append] at new
    exact metered.young t (by omega)

theorem Metered.act {pool later : MeterPool} (metered : Metered P pool) {action : Action Req Choice Move}
    (acted : (ticking.machine (daemon P)).act pool action = some later) :
    Metered P later ∧ (∀ bill ∈ billOf pool action, bill.read.map Prod.fst = bill.live) ∧
      ∀ pid, usageOf later.world.1.db.committed.usage pid =
        usageOf pool.world.1.db.committed.usage pid + ((billOf pool action).map (·.charge pid)).sum := by
  cases action with
  | request req =>
    cases Option.some.inj acted
    exact ⟨metered.request req,by simp [billOf],by simp [billOf]⟩
  | call t choice =>
    simp only [Machine.act] at acted
    split at acted
    · rename_i req op next found
      obtain ⟨⟨outcome,s⟩,ran,same⟩ := Option.map_eq_some_iff.mp acted
      subst same
      obtain ⟨⟨outcome',v⟩,ran',same⟩ := Option.map_eq_some_iff.mp ran
      cases same
      exact ⟨metered.call found ran',metered.charged found ran'⟩
    · cases acted
  | env move =>
    obtain ⟨s,moved,same⟩ := Option.map_eq_some_iff.mp acted
    subst same
    obtain ⟨v,moved',same⟩ := Option.map_eq_some_iff.mp moved
    subst same
    have unchanged : v.db = pool.world.1.db := (World.moved_of_move moved').db
    refine ⟨⟨metered.billed.of_db unchanged,?_,metered.others,metered.young⟩,by simp [billOf],by simp [billOf,unchanged]⟩
    · exact fun t dt prog found => (metered.ticks t dt prog found).later Track.lawful rfl
  | reboot =>
    cases Option.some.inj acted
    refine ⟨Metered.start rfl,by simp [billOf],?_⟩
    intro pid
    simp only [billOf,List.map_nil,List.sum_nil,add_zero]
    rfl

/-- Every committed tick of `dt` seconds has looked up every instance that was in `LIVE` when it read it,
    and adds to the usage of each project exactly `dt` for each of them whose committed row was of a
    run of that project; nothing else changes the usage of any project. -/
theorem metering_exact (P : Platform) {w : World} (fresh : w.Fresh) {bills : List Bill} {pool : MeterPool}
    (ran : (ticking.machine (daemon P)).Recorded (fun _ _ => True) billOf ⟨(w,ticking.start ()),[]⟩ bills pool) :
    (∀ bill ∈ bills, bill.read.map Prod.fst = bill.live) ∧
      (∀ pid, usageOf pool.world.1.db.committed.usage pid =
        usageOf w.db.committed.usage pid + (bills.map (·.charge pid)).sum) ∧
      ∀ action later, (ticking.machine (daemon P)).act pool action = some later → ∀ pid,
        usageOf later.world.1.db.committed.usage pid =
          usageOf pool.world.1.db.committed.usage pid + ((billOf pool action).map (·.charge pid)).sum := by
  have kept : Metered P pool ∧ (∀ bill ∈ bills, bill.read.map Prod.fst = bill.live) ∧
      ∀ pid, usageOf pool.world.1.db.committed.usage pid =
        usageOf w.db.committed.usage pid + (bills.map (·.charge pid)).sum := by
    induction ran with
    | refl => exact ⟨Metered.start fresh.idle,by simp,by simp⟩
    | step _ _ acted ih =>
      obtain ⟨metered,complete,total⟩ := ih
      obtain ⟨metered',complete',added⟩ := metered.act acted
      refine ⟨metered',?_,?_⟩
      · intro bill member
        exact (List.mem_append.mp member).elim (complete bill) (complete' bill)
      · intro pid
        rw [added,total,List.map_append,List.sum_append,add_assoc]
  exact ⟨kept.2.1,kept.2.2,fun action later acted => (kept.1.act acted).2.2⟩

/-- An instance of `p` and one of `q` run; a tick of 5 seconds reads `LIVE` before a fork puts its child there, and
    commits after that fork. Then `i` is destroyed, and there is another tick. -/
def ticksOfTwo : List (Action Req Choice Move) :=
  oneSnapshot ++ .request (.create_run "q" .null) :: calls 2 (createRun "r'" "j" [9] [9]) ++
    .request (.fork_snapshot "s" 1) :: calls 3 (forkOne "c") ++ .request (.meter_tick 5) :: calls 4 [.ok,.ok] ++
    calls 3 (recordChild ++ [.ok]) ++ calls 4 [.ok,.time 9,.ok,.ok,.ok] ++
    .request (.destroy_instance "i") :: calls 5 (List.replicate 4 .ok) ++
    .request (.meter_tick 5) :: calls 6 [.ok,.ok,.ok,.time 14,.ok,.ok,.ok]

def twoBills : List Bill :=
  [⟨5,["i","j"],[("i",some "p"),("j",some "q")]⟩,⟨5,["j","c"],[("j",some "q"),("c",some "p")]⟩]

theorem metering_exact_two : ∃ pool : MeterPool,
    (ticking.machine (daemon .plain)).record billOf ticksOfTwo ⟨(World.initial defaultProject false,ticking.start ()),[]⟩ =
      some (twoBills,pool) ∧ ∀ pid, usageOf pool.world.1.db.committed.usage pid = 0 + (twoBills.map (·.charge pid)).sum := by
  have bills : ((ticking.machine (daemon .plain)).record billOf ticksOfTwo
      ⟨(World.initial defaultProject false,ticking.start ()),[]⟩).map (·.1) = some twoBills := by decide +kernel
  obtain ⟨⟨_,pool⟩,ran,rfl⟩ := Option.map_eq_some_iff.mp bills
  exact ⟨pool,ran,(metering_exact .plain (World.initial_fresh defaultProject false) (Machine.recorded_of_record _ ran)).2.1⟩

/-- A fork has put its child into `LIVE` and has not committed its row, when a tick of 5 seconds runs. -/
def tickDuringFork : List (Action Req Choice Move) :=
  oneSnapshot ++ .request (.fork_snapshot "s" 1) :: calls 2 (forkOne "c" ++ [.ok]) ++
    .request (.meter_tick 5) :: calls 3 [.ok,.ok,.ok,.time 2,.ok,.ok]

/-- The rest of the fork. -/
def forkRest : List (Action Req Choice Move) :=
  calls 2 [.flag false,.time 3,.lost,.eof,.time 3,.ok,.ok]

/-- Two VMs of project `p` run when the tick reads `LIVE` and commits, and it charges for one. -/
theorem metering_not_exact : ∃ pool later : MeterPool,
    (ticking.machine (daemon .plain)).Reach (fun _ _ => True) ⟨(World.initial defaultProject false,ticking.start ()),[]⟩ pool ∧
      pool.world.1.mem.live = ["i","c"] ∧
      (["i","c"].all fun iid => (pool.world.1.hyp.vm iid).any (·.phase = .running)) = true ∧
      usageOf pool.world.1.db.committed.usage "p" = (5,5 / 2) ∧
      (ticking.machine (daemon .plain)).Reach (fun _ _ => True) pool later ∧
      ["i","c"].map later.world.1.db.committed.projectOfInstance = [some "p",some "p"] := by
  have seen : ((ticking.machine (daemon .plain)).run (fun _ _ => true) tickDuringFork
      ⟨(World.initial defaultProject false,ticking.start ()),[]⟩).map (fun pool : MeterPool =>
        (pool.world.1.mem.live,["i","c"].all fun iid => (pool.world.1.hyp.vm iid).any (·.phase = .running),
          decide (usageOf pool.world.1.db.committed.usage "p" = (5,5 / 2)),
          ((ticking.machine (daemon .plain)).run (fun _ _ => true) forkRest pool).map fun later : MeterPool =>
            ["i","c"].map later.world.1.db.committed.projectOfInstance)) =
      some (["i","c"],true,true,some [some "p",some "p"]) := by decide +kernel
  obtain ⟨pool,ran,same⟩ := Option.map_eq_some_iff.mp seen
  simp only [Prod.mk.injEq] at same
  obtain ⟨live,running,usage,rows⟩ := same
  obtain ⟨later,ran',projects⟩ := Option.map_eq_some_iff.mp rows
  exact ⟨pool,later,Machine.reach_of_run _ (fun _ _ _ => trivial) ran,live,running,of_decide_eq_true usage,
    Machine.reach_of_run _ (fun _ _ _ => trivial) ran',projects⟩

end Klados
