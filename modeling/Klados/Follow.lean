import Klados.Protocol
import Klados.Tracks

/-!
The daemon followed by tracks: an order that every request keeps to is kept by every run, and
what the calls keep under the permissions and the order holds in every state reached.
-/
namespace Klados
open Effects
open Prog (Only)

variable {P : Platform} {G Λ : Type} {k : Track sig Exn World Move G Λ}

abbrev FollowedPool (G Λ : Type) := Pool sig Exn Json Req (World × Watched G Λ)

/-- Every thread keeps to its permissions and to the order, and ends as `Q` says. -/
abbrev Follows (P : Platform) (k : Track sig Exn World Move G Λ) (Q : Nat → Req → Except Exn Json → G → Prop)
    (pool : FollowedPool G Λ) : Prop :=
  Healthy (((protocol P).watch (Watched G Λ)).and (k.rules (daemon P))) (fun t s => Unborn t s.1 ∧ Track.At t (· = k.first) s)
    (fun t req outcome s => True ∧ Track.At t (Q t req outcome) s) pool

section
variable {t : Nat} {w v : World} {op : Op} {choice : Choice} {outcome : Except Exn op.Res}

theorem db_of_kind (db : op.kind = .db) : ∃ o, op = .db o := by
  cases op with
  | db o => exact ⟨o,rfl⟩
  | fs o => rcases o.kind_cases with kind | kind <;> simp [Op.kind,kind] at db
  | mem o | vm o => cases o <;> cases db
  | s3 o | sys o => cases db

/-- What the statement keeps about the tables, the call keeps. -/
theorem exec_every {J : Tables → Prop} (ran : exec P t op choice w = some (outcome,v)) (every : w.db.Every J)
    (keeps : ∀ stmt T T', op = .db (.execute stmt) → J T → stmt.apply T = .ok T' → J T') : v.db.Every J := by
  by_cases db : op.kind = .db
  swap
  · rw [exec_db db ran]
    exact every
  obtain ⟨o,rfl⟩ := db_of_kind db
  obtain ⟨after,acts,rfl⟩ := exec_dbActs ran
  exact acts.every every fun stmt T T' same => keeps stmt T T' (congrArg Op.db same)

/-- Rows become committed by a commit of the thread that wrote them only. -/
theorem exec_committed (ran : exec P t op choice w = some (outcome,v)) :
    v.db.committed = w.db.committed ∨
      (op = .db .commit ∧ (∃ value, outcome = .ok value) ∧ w.db.txn = some (t,v.db.committed)) := by
  by_cases db : op.kind = .db
  swap
  · exact .inl (congrArg Db.committed (exec_db db ran))
  obtain ⟨o,rfl⟩ := db_of_kind db
  obtain ⟨after,acts,rfl⟩ := exec_dbActs ran
  cases acts with
  | fails | read | wrote | refused | unchanged | rolled | idle => exact .inl rfl
  | committed held => exact .inr ⟨rfl,⟨_,rfl⟩,held⟩

/-- A thread gets a transaction by executing a statement only. -/
theorem exec_txn (ran : exec P t op choice w = some (outcome,v)) {t' : Nat}
    (notWrites : t' = t → ∀ stmt, op ≠ .db (.execute stmt)) (idle : ∀ T, w.db.txn ≠ some (t',T)) :
    ∀ T, v.db.txn ≠ some (t',T) := by
  by_cases db : op.kind = .db
  swap
  · rw [exec_db db ran]
    exact idle
  obtain ⟨o,rfl⟩ := db_of_kind db
  obtain ⟨after,acts,rfl⟩ := exec_dbActs ran
  by_cases own : t' = t
  · subst own
    cases acts with
    | fails | read | unchanged | idle => exact idle
    | wrote | refused => exact absurd rfl (notWrites rfl _)
    | committed | rolled => exact fun _ held => by cases held
  · exact acts.txn_other own idle

theorem exec_txn_held (ran : exec P t op choice w = some (outcome,v)) {t' : Nat} (other : t' ≠ t) {T : Tables}
    (held : w.db.txn = some (t',T)) : v.db.txn = some (t',T) := by
  by_cases db : op.kind = .db
  swap
  · rw [exec_db db ran]
    exact held
  obtain ⟨o,rfl⟩ := db_of_kind db
  obtain ⟨after,acts,rfl⟩ := exec_dbActs ran
  exact acts.txn_held other held

/-- An open transaction was open, or is what the thread has just written on what it sees. -/
theorem exec_txn_open (ran : exec P t op choice w = some (outcome,v)) {t' : Nat} {T : Tables}
    (held : v.db.txn = some (t',T)) : v.db.committed = w.db.committed ∧ (w.db.txn = some (t',T) ∨ (t' = t ∧
      (T = w.db.visible t ∨
        ∃ stmt, op = .db (.execute stmt) ∧ (∃ value, outcome = .ok value) ∧ stmt.apply (w.db.visible t) = .ok T))) := by
  by_cases db : op.kind = .db
  swap
  · rw [exec_db db ran] at held ⊢
    exact ⟨rfl,.inl held⟩
  obtain ⟨o,rfl⟩ := db_of_kind db
  obtain ⟨after,acts,rfl⟩ := exec_dbActs ran
  obtain ⟨same,cases_⟩ := acts.txn_open held
  refine ⟨same,cases_.imp id ?_⟩
  rintro ⟨own,seen | ⟨stmt,rfl,returned,applied⟩⟩
  · exact ⟨own,.inl seen⟩
  · exact ⟨own,.inr ⟨stmt,rfl,returned,applied⟩⟩

/-- Between its first statement and its end a transaction only grows by statements. -/
theorem exec_txn_own {value : op.Res} (ran : exec P t op choice w = some (.ok value,v)) (notCommit : op ≠ .db .commit)
    (notRollback : op ≠ .db .rollback) {T : Tables} (held : w.db.txn = some (t,T)) :
    v.db.txn = some (t,T) ∨ ∃ stmt T', op = .db (.execute stmt) ∧ stmt.apply T = .ok T' ∧ v.db.txn = some (t,T') := by
  by_cases db : op.kind = .db
  swap
  · rw [exec_db db ran]
    exact .inl held
  obtain ⟨o,rfl⟩ := db_of_kind db
  obtain ⟨after,acts,rfl⟩ := exec_dbActs ran
  cases acts with
  | read => exact .inl held
  | wrote _ applied =>
    rw [Db.visible_own held] at applied
    exact .inr ⟨_,_,rfl,applied,rfl⟩
  | committed | unchanged => exact absurd rfl notCommit
  | rolled | idle => exact absurd rfl notRollback

/-- A commit or a rollback ends the transaction of the thread. -/
theorem exec_txn_ended {value : op.Res} (ran : exec P t op choice w = some (.ok value,v))
    (ends : op = .db .commit ∨ op = .db .rollback) : ∀ T, v.db.txn ≠ some (t,T) := by
  intro T held
  rcases ends with rfl | rfl
  · obtain ⟨after,acts,rfl⟩ := exec_dbActs ran
    cases acts with
    | committed => cases held
    | unchanged idle => exact idle T held
  · obtain ⟨after,acts,rfl⟩ := exec_dbActs ran
    cases acts with
    | rolled => cases held
    | idle idle => exact idle T held

/-- A statement that returned has been written. -/
theorem exec_written {stmt : Stmt} {value : Unit} (ran : exec P t (.db (.execute stmt)) choice w = some (.ok value,v)) :
    ∃ T, stmt.apply (w.db.visible t) = .ok T ∧ v = { w with db := { w.db with txn := some (t,T) } } := by
  obtain ⟨after,acts,rfl⟩ := exec_dbActs ran
  cases acts with
  | wrote _ applied => exact ⟨_,applied,rfl⟩

end

section
variable {ok : FollowedPool G Λ → Action Req Choice Move → Prop} {Q : Nat → Req → Except Exn Json → G → Prop}

theorem World.Fresh.follows {w : World} (fresh : w.Fresh) (all : Λ) :
    Follows P k Q (⟨(w,k.start all),[]⟩ : FollowedPool G Λ) :=
  ⟨⟨fresh.orderly,trivial⟩,fun t thread found => by simp at found,
    fun t _ => ⟨fresh.healthy (P := P) |>.next t (Nat.zero_le t),rfl⟩⟩

theorem follow_sound
    (bodies : ∀ (pool : FollowedPool G Λ) req, ok pool (.request req) →
      Triple (k.rules (daemon P)) pool.threads.length (Track.At pool.threads.length (· = k.first)) (req.body P)
        (fun outcome => Track.At pool.threads.length (Q pool.threads.length req outcome))) :
    Sound (k.machine (daemon P)) ok (((protocol P).watch (Watched G Λ)).and (k.rules (daemon P)))
      (fun t s => Unborn t s.1 ∧ Track.At t (· = k.first) s) (fun t req outcome s => True ∧ Track.At t (Q t req outcome) s) :=
  (protocol_sound (P := P)).watch.and (k.sound bodies)

/-- How a request that has ended has ended. -/
theorem Follows.ended {pool : FollowedPool G Λ} (follows : Follows P k Q pool) {t : Nat} {req : Req}
    {outcome : Except Exn Json} (found : pool.threads[t]? = some ⟨req,Prog.ofOutcome outcome⟩) :
    Q t req outcome (pool.world.2.own t) := by
  have lawful := (protocol_lawful (P := P)).watch (Watched G Λ)
  exact (Healthy.ended follows (lawful.and Track.lawful) found).2

/-- What requests, calls, moves and reboots keep holds in every state reached. -/
theorem follow
    (bodies : ∀ (pool : FollowedPool G Λ) req, ok pool (.request req) →
      Triple (k.rules (daemon P)) pool.threads.length (Track.At pool.threads.length (· = k.first)) (req.body P)
        (fun outcome => Track.At pool.threads.length (Q pool.threads.length req outcome)))
    {J : FollowedPool G Λ → Prop}
    (requests : ∀ (pool : FollowedPool G Λ) req, ok pool (.request req) → Follows P k Q pool → J pool →
      J ⟨pool.world,pool.threads ++ [⟨req,req.body P⟩]⟩)
    (calls : ∀ (pool : FollowedPool G Λ) t choice req op next outcome v, ok pool (.call t choice) →
      pool.threads[t]? = some ⟨req,.call op next⟩ → Follows P k Q pool → Orderly v → Permitted t op pool.world.1 →
      k.may t (pool.world.2.own t) op → exec P t op choice pool.world.1 = some (outcome,v) → J pool →
      J ⟨(v,k.sees t op outcome pool.world.1 v pool.world.2),pool.threads.set t ⟨req,next outcome⟩⟩)
    (envs : ∀ (pool : FollowedPool G Λ) move v, ok pool (.env move) → Follows P k Q pool →
      pool.world.1.Moved P move v → J pool →
      J ⟨(v,⟨pool.world.2.own,k.moves move pool.world.1 pool.world.2.all⟩),pool.threads⟩)
    (reboots : ∀ pool : FollowedPool G Λ, ok pool .reboot → Follows P k Q pool → J pool →
      J ⟨(pool.world.1.reboot,⟨fun _ => k.first,k.reboots pool.world.2.all⟩),[]⟩)
    {pool later : FollowedPool G Λ} (follows : Follows P k Q pool) (start : J pool)
    (reached : (k.machine (daemon P)).Reach ok pool later) : Follows P k Q later ∧ J later := by
  refine (follow_sound bodies).induct ?_ follows start reached
  intro pool action later allowed acted well well' guaranteed kept
  cases action with
  | request req =>
    cases Option.some.inj acted
    exact requests pool req allowed well kept
  | call t choice =>
    have full := acted
    simp only [Machine.act] at acted
    split at acted
    · rename_i req op next found
      obtain ⟨⟨outcome,s⟩,ran,same⟩ := Option.map_eq_some_iff.mp acted
      subst same
      obtain ⟨⟨outcome',v⟩,ran',same⟩ := Option.map_eq_some_iff.mp ran
      cases same
      have about : pool.about t = some op := by simp [Pool.about,found]
      obtain ⟨⟨permitted,_⟩,may,_⟩ := guaranteed t choice op rfl about
      exact calls pool t choice req op next outcome v allowed found well well'.inv.1 permitted may ran' kept
    · cases acted
  | env move =>
    obtain ⟨s,moved,same⟩ := Option.map_eq_some_iff.mp acted
    subst same
    obtain ⟨v,moved',same⟩ := Option.map_eq_some_iff.mp moved
    subst same
    exact envs pool move v allowed well (World.moved_of_move moved') kept
  | reboot =>
    cases Option.some.inj acted
    exact reboots pool allowed well kept

end
end Klados
