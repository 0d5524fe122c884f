import Klados.Alone
import Klados.Possible
import Klados.Timeline
import Mathlib.Data.Fintype.EquivFin

/-!
A snapshot that raises leaves the instance as it was, unless a call fails while the snapshot holds the VM
paused: nothing resumes the VM then. The rows, `LIVE` and the lock of the store are as before in each case,
and a later snapshot can succeed, since a paused VM can be paused again.
-/
namespace Klados
open Effects
open Prog (Only)

variable {P : Platform} {t : Nat} {α : Type}

/-- Only files, the bucket and the store object differ, and no file has gone. -/
structure Stored (w v : World) : Prop where
  db : v.db = w.db
  hyp : v.hyp = w.hyp
  live : v.mem.live = w.mem.live
  lock : v.mem.lock = w.mem.lock
  names : ∀ p, (w.fs.names p).isSome → (v.fs.names p).isSome

section
variable {w₀ w : World}

theorem Stored.refl (w : World) : Stored w w := ⟨rfl,rfl,rfl,rfl,fun _ => id⟩

theorem Stored.fs {fs : Files.Fs Path} (stored : Stored w₀ w) (names : ∀ p, (w.fs.names p).isSome → (fs.names p).isSome) :
    Stored w₀ { w with fs } :=
  ⟨stored.db,stored.hyp,stored.live,stored.lock,fun p there => names p (stored.names p there)⟩

theorem names_openTrunc (fs : Files.Fs Path) (p q : Path) (there : (fs.names q).isSome) :
    ((fs.openTrunc p).2.names q).isSome := by
  rw [Files.Fs.openTrunc_names]
  by_cases same : q = p
  · simp [same]
  · rw [Function.update_of_ne same]
    exact there

theorem names_put (fs : Files.Fs Path) (p : Path) (bytes : Bytes) (q : Path) (there : (fs.names q).isSome) :
    ((fs.put p bytes).names q).isSome := names_openTrunc fs p q there

theorem names_put_self (fs : Files.Fs Path) (p : Path) (bytes : Bytes) : ((fs.put p bytes).names p).isSome := by
  change ((fs.openTrunc p).2.names p).isSome
  rw [Files.Fs.openTrunc_names,Function.update_self]
  rfl

theorem content_some {fs : Files.Fs Path} {p : Path} (there : (fs.names p).isSome) : ∃ bytes, fs.content p = some bytes :=
  Option.isSome_iff_exists.mp ((Files.Fs.content_isSome fs p).trans there)

abbrev CanRun (P : Platform) (t : Nat) (program : KProg α) (w : World) (Q : α → World → Prop) : Prop :=
  Can ((daemon P).step t) program w Q

theorem can_makedirs (stored : Stored w₀ w) : CanRun P t (fsCall .makedirs) w fun _ => Stored w₀ :=
  Can.perform () w ⟨.ok,rfl⟩ stored

theorem can_exists (p : Path) (stored : Stored w₀ w) :
    CanRun P t (fsCall (.exists p)) w fun there v => Stored w₀ v ∧ there = (v.fs.names p).isSome :=
  Can.perform _ w ⟨.ok,rfl⟩ ⟨stored,rfl⟩

theorem can_write_file (p : Path) (bytes : Bytes) (stored : Stored w₀ w) :
    CanRun P t (write_file p bytes) w fun _ => Stored w₀ := by
  refine Can.call_bind (w.fs.openTrunc p).1 { w with fs := (w.fs.openTrunc p).2 } ⟨.ok,rfl⟩ ?_
  exact Can.perform () { w with fs := w.fs.put p bytes } ⟨.ok,rfl⟩ (stored.fs (names_put w.fs p bytes))

theorem can_store (stored : Stored w₀ w) : CanRun P t (memCall .store) w fun _ => Stored w₀ :=
  Can.perform w.mem.store w ⟨.ok,rfl⟩ stored

theorem can_update (f : Cas → Cas) (stored : Stored w₀ w) : CanRun P t (memCall (.update f)) w fun _ => Stored w₀ :=
  Can.perform () { w with mem := { w.mem with store := f w.mem.store } } ⟨.ok,rfl⟩
    ⟨stored.db,stored.hyp,stored.live,stored.lock,stored.names⟩

theorem can_put_block (blk : Bytes) (stored : Stored w₀ w) : CanRun P t (put_block P blk) w fun _ => Stored w₀ := by
  refine Can.bind (can_update _ stored) fun _ _ stored => Can.bind (can_store stored) fun store _ stored => ?_
  refine Can.bind (M := fun _ => Stored w₀) (Can.when (fun _ => stored) fun _ => ?_) fun _ _ stored => stored
  refine Can.bind (can_update _ stored) fun _ _ stored => ?_
  refine Can.bind (M := fun _ => Stored w₀) (Can.when (fun _ => stored) fun _ => ?_) fun _ _ stored =>
    Can.when (fun _ => stored) fun _ => can_update _ stored
  refine Can.bind (can_makedirs stored) fun _ _ stored => Can.bind (can_exists _ stored) fun there _ stored => ?_
  exact Can.when (fun _ => stored.1) fun _ => can_write_file _ _ stored.1

theorem can_put_bytes (data : Bytes) (stored : Stored w₀ w) : CanRun P t (put_bytes P data) w fun _ => Stored w₀ :=
  Can.bind (can_store stored) fun _ _ stored => Can.each (fun blk _ => can_put_block blk) _ stored

theorem can_put_file (path : Path) (stored : Stored w₀ w) (there : (w.fs.names path).isSome) :
    CanRun P t (put_file P path) w fun _ => Stored w₀ := by
  obtain ⟨data,content⟩ := content_some there
  refine Can.call_bind data w ⟨.ok,?_⟩ ?_
  · change (fsExec P w.fs (.readFile path) .ok).map _ = _
    simp [fsExec,content]
  · exact Can.bind (Can.each (fun bytes _ => can_put_bytes bytes) _ stored) fun _ _ stored => stored

theorem can_flush_s3 (stored : Stored w₀ w) : CanRun P t flush_s3 w fun _ => Stored w₀ := by
  refine Can.bind (can_store stored) fun store _ stored => ?_
  split
  · exact stored
  refine Can.bind (can_update _ stored) fun _ v stored => ?_
  let outcomes : List PutOutcome := store.pending.map fun _ => ⟨true,none⟩
  refine Can.call_bind () { v with bucket := v.bucket.putAll store.pending outcomes } ⟨.puts outcomes,?_⟩
    ⟨stored.db,stored.hyp,stored.live,stored.lock,stored.names⟩
  change (s3Exec v.bucket (.put store.pending) (.puts outcomes)).map _ = _
  simp [s3Exec,outcomes]

/-- The lock is free, so a body that only stores can run under it. -/
theorem can_locked {body : KProg α} (unlocked : w.mem.lock = none)
    (inside : ∀ w', Stored { w with mem := { w.mem with lock := some t } } w' →
      CanRun P t body w' fun _ => Stored { w with mem := { w.mem with lock := some t } }) :
    CanRun P t (locked body) w fun _ => Stored w := by
  refine Can.call_bind () { w with mem := { w.mem with lock := some t } } ⟨.ok,?_⟩ ?_
  · change (memExec t w.mem .acquire .ok).map _ = _
    simp [memExec,unlocked]
  refine Can.bind (Can.catching (inside _ (Stored.refl _))) fun value v stored => ?_
  refine Can.call_bind () { v with mem := { v.mem with lock := none } } ⟨.ok,rfl⟩ ?_
  exact ⟨stored.db,stored.hyp,stored.live,unlocked.symm,stored.names⟩

theorem can_getsize {p : Path} (there : (w.fs.names p).isSome) :
    CanRun P t (fsCall (.getsize p)) w fun _ v => v = w := by
  obtain ⟨bytes,content⟩ := content_some there
  refine Can.perform bytes.length w ⟨.ok,?_⟩ rfl
  change (fsExec P w.fs (.getsize p) .ok).map _ = _
  simp [fsExec,content]

/-- The image is there, so it can be stored and dropped. -/
theorem can_chunk_mem (sid : Id) (unlocked : w.mem.lock = none) (mem : (w.fs.names (.snap sid .mem)).isSome)
    (vmstate : (w.fs.names (.snap sid .vmstate)).isSome) :
    CanRun P t (chunk_mem P sid (.snap sid .mem)) w fun _ v =>
      v.db = w.db ∧ (v.fs.names (.snap sid .vmstate)).isSome := by
  refine Can.bind (can_locked unlocked fun w' stored => ?_) fun hashes v stored => ?_
  · refine Can.bind (can_put_file _ stored (stored.names _ mem)) fun hashes _ stored => ?_
    exact Can.bind (can_flush_s3 stored) fun _ _ stored => stored
  refine Can.bind (can_write_file _ _ stored) fun _ v stored => ?_
  refine Can.bind (can_getsize (stored.names _ mem)) fun logical v' same => ?_
  subst same
  refine Can.call_bind () { v' with fs := v'.fs.remove (.snap sid .mem) } ⟨.ok,?_⟩ ⟨stored.db,?_⟩
  · change (fsExec P v'.fs (.remove (.snap sid .mem)) .ok).map _ = _
    simp [fsExec,stored.names _ mem]
  · change (Function.update v'.fs.names _ none _).isSome = true
    rw [Function.update_of_ne (by simp)]
    exact stored.names _ vmstate

/-- The disk of an instance can be sealed, when there is one. -/
theorem can_seal_scratch (iid sid : Id) (stored : Stored w₀ w) :
    CanRun P t (seal_scratch iid sid) w fun _ => Stored w₀ := by
  refine Can.bind (can_exists _ stored) fun there v ⟨stored,same⟩ => Can.when (fun _ => stored) fun asked => ?_
  obtain ⟨bytes,content⟩ := content_some (same.symm.trans asked)
  refine Can.perform () { v with fs := v.fs.put (.snap sid .scratch) bytes } ⟨.ok,?_⟩ (stored.fs (names_put _ _ _))
  change (fsExec P v.fs (.copy (.scratch iid) (.snap sid .scratch)) .ok).map _ = _
  simp [fsExec,content]

/-- The guest need not answer. -/
theorem can_quiesce (iid : Id) (stored : Stored w₀ w) : CanRun P t (quiesce iid) w fun _ => Stored w₀ :=
  ⟨.error apiError,w,⟨.fail apiError,rfl⟩,stored⟩

theorem can_pause {iid : Id} {vm : Vm} (there : w.hyp.vm iid = some vm) (alive : vm.phase = .running ∨ vm.phase = .paused) :
    CanRun P t (vmCall (.pause iid)) w fun _ v => v = { w with hyp := w.hyp.set iid { vm with phase := .paused } } := by
  refine Can.perform () _ ⟨.ok,?_⟩ rfl
  show exec P t (.vm (.pause iid)) .ok w = _
  simp [exec,vmExec,answered,setPhase,there,alive]

theorem can_resume {iid : Id} {vm : Vm} (there : w.hyp.vm iid = some vm) (paused : vm.phase = .paused) :
    CanRun P t (vmCall (.resume iid)) w fun _ v => v = { w with hyp := w.hyp.set iid { vm with phase := .running } } := by
  refine Can.perform () _ ⟨.ok,?_⟩ rfl
  show exec P t (.vm (.resume iid)) .ok w = _
  simp [exec,vmExec,answered,setPhase,there,paused]

theorem can_create {iid : Id} {snap mem : Path} {vm : Vm} (there : w.hyp.vm iid = some vm) (paused : vm.phase = .paused) :
    CanRun P t (vmCall (.create iid snap mem)) w fun _ v => v = { w with
      fs := (w.fs.put snap vm.dev).put mem vm.mem,
      hyp := { w.hyp with saved := Function.update w.hyp.saved snap (some vm.guest) } } := by
  refine Can.perform () _ ⟨.ok,?_⟩ rfl
  show exec P t (.vm (.create iid snap mem)) .ok w = _
  simp [exec,vmExec,there,paused]

/-- A statement that applies can be executed when no transaction is open, or the thread's own. -/
theorem can_execute {stmt : Stmt} (free : w.db.txn.all (·.1 = t)) (applies : ∃ T, stmt.apply (w.db.visible t) = .ok T) :
    CanRun P t (dbCall (.execute stmt)) w fun _ v => ∃ T, v.db.txn = some (t,T) := by
  obtain ⟨T,applied⟩ := applies
  refine Can.perform () { w with db := { w.db with txn := some (t,T) } } ⟨.ok,?_⟩ ⟨T,rfl⟩
  show exec P t (.db (.execute stmt)) .ok w = _
  simp [exec,Db.exec,free,applied]

/-- An id that nobody has and that names no snapshot. -/
theorem fresh_snapshot_id (w : World) : ∃ sid : Id, (∀ entry ∈ w.used, entry.1 ≠ sid) ∧
    ∀ row ∈ w.db.committed.snapshots, row.id ≠ sid := by
  classical
  obtain ⟨sid,fresh⟩ := Infinite.exists_notMem_finset
    ((w.used.map (·.1)).toFinset ∪ (w.db.committed.snapshots.map (·.id)).toFinset)
  simp only [Finset.mem_union,List.mem_toFinset,List.mem_map,not_or] at fresh
  exact ⟨sid,fun entry member same => fresh.1 ⟨entry,member,same⟩,fun row member same => fresh.2 ⟨row,member,same⟩⟩

/-- A snapshot can succeed when the VM lives, the instance is recorded and nothing is locked. -/
theorem can_snapshot {iid : Id} {row : InstanceRow} {vm : Vm} (live : iid ∈ w.mem.live) (unlocked : w.mem.lock = none)
    (idle : w.db.txn = none) (recorded : w.db.committed.instance? iid = some row) (there : w.hyp.vm iid = some vm)
    (alive : vm.phase = .running ∨ vm.phase = .paused) :
    CanRun P t (snapshot_instance P iid .null) w fun _ _ => True := by
  obtain ⟨sid,unused,unnamed⟩ := fresh_snapshot_id w
  have visible : w.db.visible t = w.db.committed := Db.visible_other fun T held => by simp [idle] at held
  refine Can.call_bind true w ⟨.ok,?_⟩ (Can.catching ?_)
  · show exec P t (.mem (.liveGet iid)) .ok w = some (.ok true,w)
    simp [exec,memExec,live]
  refine Can.call_bind w.db.committed w ⟨.ok,?_⟩ ?_
  · show exec P t (.db .read) .ok w = some (.ok w.db.committed,w)
    simp [exec,Db.exec,visible]
  rw [recorded]
  let w₁ : World := { w with used := (sid,t) :: w.used }
  refine Can.call_bind sid w₁ ⟨.id sid,?_⟩ ?_
  · change (sysExec t w.used .newId (.id sid)).map _ = _
    have fresh : w.used.any (·.1 = sid) = false := by
      rw [List.any_eq_false]
      intro entry member
      simpa using unused entry member
    simp [sysExec,fresh,w₁]
  refine Can.bind (can_makedirs (Stored.refl w₁)) fun _ _ stored => Can.bind (can_makedirs stored) fun _ _ stored => ?_
  refine Can.bind (can_quiesce iid stored) fun _ w₂ stored => ?_
  have there₂ : w₂.hyp.vm iid = some vm := by rw [stored.hyp]; exact there
  refine Can.bind (can_pause there₂ alive) fun _ w₃ paused => ?_
  have there₃ : w₃.hyp.vm iid = some { vm with phase := .paused } := by
    rw [paused]
    exact Hypervisor.set_self _ _ _
  refine Can.bind (can_create there₃ rfl) fun _ w₄ created => ?_
  refine Can.bind (can_makedirs (Stored.refl w₄)) fun _ _ sealed => ?_
  refine Can.bind (can_seal_scratch iid sid sealed) fun _ w₅ sealed => ?_
  have there₅ : w₅.hyp.vm iid = some { vm with phase := .paused } := by
    rw [sealed.hyp,created]
    exact there₃
  have mem : (w₅.fs.names (.snap sid .mem)).isSome := by
    refine sealed.names _ ?_
    rw [created]
    exact names_put_self _ _ _
  have vmstate : (w₅.fs.names (.snap sid .vmstate)).isSome := by
    refine sealed.names _ ?_
    rw [created]
    exact names_put _ _ _ _ (names_put_self _ _ _)
  have unlocked₅ : w₅.mem.lock = none := by
    rw [sealed.lock,created,paused,stored.lock]
    exact unlocked
  have db₅ : w₅.db = w.db := by
    rw [sealed.db,created,paused,stored.db]
  refine Can.bind (can_resume there₅ rfl) fun _ w₆ resumed => ?_
  subst resumed
  refine Can.bind (can_chunk_mem sid unlocked₅ mem vmstate) fun logical w₇ stored₇ => ?_
  obtain ⟨db,vmstate⟩ := stored₇
  refine Can.bind (can_getsize vmstate) fun state w₈ same => ?_
  subst same
  refine Can.call_bind 0 w₈ ⟨.time 0,rfl⟩ ?_
  have db₈ : w₈.db = w.db := db.trans db₅
  have free : w₈.db.txn.all (·.1 = t) = true := by
    rw [db₈,idle]
    rfl
  have unnamed₈ : ∀ row ∈ (w₈.db.visible t).snapshots, row.id ≠ sid := by
    rw [db₈,visible]
    exact unnamed
  refine Can.bind (M := fun _ v => v = w₈) rfl fun text _ same => ?_
  subst same
  refine Can.bind (can_execute free ⟨_,if_neg (by simpa using unnamed₈)⟩) fun _ w₉ executed => ?_
  obtain ⟨T,inserted⟩ := executed
  refine Can.bind (can_execute (by simp [inserted]) ⟨_,rfl⟩) fun _ w₁₀ executed => ?_
  obtain ⟨T',pointed⟩ := executed
  refine Can.call_bind () { w₁₀ with db := ⟨T',none⟩ } ⟨.ok,?_⟩ trivial
  show exec P t (.db .commit) .ok w₁₀ = _
  simp [exec,Db.exec,pointed]

end

/-- Other requests have let go of the lock of the store and of the database. -/
def World.released (w : World) : World := { w with db := { w.db with txn := none }, mem := { w.mem with lock := none } }

/-- A snapshot of the instance can succeed. -/
def CanSnapshot (P : Platform) (w : World) (iid : Id) : Prop := ∀ t, ∃ label reply v,
  Runs ((daemon P).drift fun _ _ => True) ((daemon P).step t) (snapshot_instance P iid label) w (.ok reply) v

/-- The instance is as it was: its VM runs if it ran, its row names the same snapshot, there is no new snapshot,
    nothing more is locked, and it can be snapshotted once others have let go of their locks. -/
structure Unharmed (P : Platform) (u v : World) (iid : Id) : Prop where
  running : u.phase iid = some .running → v.phase iid = some .running
  snapshot : (v.db.committed.instance? iid).map (·.snapshot_id) = (u.db.committed.instance? iid).map (·.snapshot_id)
  rows : v.db.committed.snapshots = u.db.committed.snapshots
  txn : v.db.txn = u.db.txn
  lock : v.mem.lock = u.mem.lock
  again : CanSnapshot P v.released iid

/-- Whether the snapshot holds the VM paused, whether a call failed while it did, and whether a resume failed. -/
structure Window where
  held : Bool
  hit : Bool
  refused : Bool
  deriving DecidableEq

/-- The VM is held from the pause that takes effect to the resume that returns. -/
def Window.holds (op : Op) (outcome : Except Exn op.Res) (w : World) (held : Bool) : Bool :=
  match op, outcome with
  | .vm (.pause iid), _ => w.phase iid = some .paused
  | .vm (.resume _), .ok _ => false
  | _, _ => held

def Op.isResume : Op → Bool
  | .vm (.resume _) => true
  | _ => false

def Window.sees (op : Op) (outcome : Except Exn op.Res) (w : World) (seen : Window) : Window :=
  let held := Window.holds op outcome w seen.held
  ⟨held,seen.hit || (op.fails outcome && held),seen.refused || (op.isResume && op.fails outcome)⟩

/-! ## The snapshot, step by step -/

/-- The snapshot is under way: the tables are as they were but for its own transaction, the VM is paused while it
    is held and else as it was, and nothing has failed. -/
structure During (t : Nat) (u : Scene) (iid : Id) (held : Bool) (x : Scene × Window) : Prop where
  db : u.db.Drafted t x.1.db
  live : x.1.mem.live = u.mem.live
  alive : x.1.phase iid = some .running ∨ x.1.phase iid = some .paused
  running : u.phase iid = some .running → held = false → x.1.phase iid = some .running
  paused : held = true → x.1.phase iid = some .paused
  window : x.2 = ⟨held,false,false⟩

/-- The snapshot has raised. -/
structure Mishap (t : Nat) (u : Scene) (iid : Id) (x : Scene × Window) : Prop where
  db : u.db.Drafted t x.1.db
  live : x.1.mem.live = u.mem.live
  alive : x.1.phase iid = some .running ∨ x.1.phase iid = some .paused
  running : x.2.refused = false → x.2.hit = false → u.phase iid = some .running → x.1.phase iid = some .running
  paused : x.2.refused = false → x.2.hit = true → x.1.phase iid = some .paused

section
variable {u : Scene} {iid : Id} {held : Bool} {x : Scene × Window}

theorem During.mishap (during : During t u iid false x) : Mishap t u iid x where
  db := during.db
  live := during.live
  alive := during.alive
  running _ _ ran := during.running ran rfl
  paused _ hit := by simp [during.window] at hit

/-- A call of which the snapshot sees nothing but a failure. -/
theorem Window.sees_other {op : Op} {outcome : Except Exn op.Res} {w : World} {seen : Window}
    (holds : Window.holds op outcome w seen.held = seen.held) (other : op.isResume = false) :
    Window.sees op outcome w seen = if op.fails outcome then ⟨seen.held,seen.hit || seen.held,seen.refused⟩ else seen := by
  simp only [Window.sees,holds,other,Bool.false_and,Bool.or_false]
  cases op.fails outcome with
  | true => simp
  | false => simp

/-- A call that keeps the tables, `LIVE` and the processes keeps what is going on, and a failure of it is a mishap. -/
theorem During.call {w v : World} {seen : Window} (during : During t u iid held (w.scene,seen)) (op : Op)
    (outcome : Except Exn op.Res) (db : u.db.Drafted t v.db) (live : v.mem.live = w.mem.live)
    (phase : v.phase = w.phase) (holds : Window.holds op outcome v seen.held = seen.held) (other : op.isResume = false) :
    (op.fails outcome = false ∨ held = false → During t u iid held (v.scene,Window.sees op outcome v seen)) ∧
      (op.fails outcome = true → Mishap t u iid (v.scene,Window.sees op outcome v seen)) := by
  have before : w.scene.phase = v.scene.phase := phase.symm
  have kept : v.scene.mem.live = u.mem.live := live.trans during.live
  have window : seen = ⟨held,false,false⟩ := during.window
  subst window
  rw [Window.sees_other holds other]
  refine ⟨fun calm => ?_,fun fails => ?_⟩
  · refine ⟨db,kept,before ▸ during.alive,before ▸ during.running,before ▸ during.paused,?_⟩
    rcases calm with fine | free
    · rw [if_neg (by simp [fine])]
    · simp [free]
  · rw [if_pos fails]
    refine ⟨db,kept,before ▸ during.alive,fun _ safe ran => ?_,fun _ hit => ?_⟩
    · exact before ▸ during.running ran (by simpa using safe)
    · exact before ▸ during.paused (by simpa using hit)

/-- Nothing is held, and the lock of the store is as before. -/
def Idle (t : Nat) (u : Scene) (iid : Id) (x : Scene × Window) : Prop := During t u iid false x ∧ x.1.mem.lock = u.mem.lock

/-- The VM is held. -/
def HeldUp (t : Nat) (u : Scene) (iid : Id) (x : Scene × Window) : Prop := During t u iid true x ∧ x.1.mem.lock = u.mem.lock

def Raised (t : Nat) (u : Scene) (iid : Id) (x : Scene × Window) : Prop := Mishap t u iid x ∧ x.1.mem.lock = u.mem.lock

theorem Idle.raised (idle : Idle t u iid x) : Raised t u iid x := ⟨idle.1.mishap,idle.2⟩

theorem holds_quiet {op : Op} (quiet : op.isQuiet = true) (outcome : Except Exn op.Res) (w : World) (held : Bool) :
    Window.holds op outcome w held = held ∧ op.isResume = false := by
  cases op with
  | vm o => cases o <;> first | exact ⟨rfl,rfl⟩ | cases quiet
  | db | fs | s3 | mem | sys => exact ⟨rfl,rfl⟩

/-- A quiet call is one of which nothing is seen but a failure. -/
theorem During.quiet {op : Op} {choice : Choice} {outcome : Except Exn op.Res} {w v : World} {seen : Window}
    (during : During t u iid held (w.scene,seen)) (quiet : op.isQuiet = true)
    (ran : Klados.exec P t op choice w = some (outcome,v)) :
    (op.fails outcome = false ∨ held = false → During t u iid held (v.scene,Window.sees op outcome v seen)) ∧
      (op.fails outcome = true → Mishap t u iid (v.scene,Window.sees op outcome v seen)) ∧ v.mem = w.mem := by
  have same := scene_quiet quiet ran
  have db : v.db = w.db := congrArg Scene.db same
  have mem : v.mem = w.mem := congrArg Scene.mem same
  obtain ⟨holds,other⟩ := holds_quiet quiet outcome v seen.held
  obtain ⟨first,second⟩ :=
    during.call (v := v) op outcome (db ▸ during.db) (congrArg Memory.live mem) (congrArg Scene.phase same) holds other
  exact ⟨first,second,mem⟩

/-- A part that is quiet, while nothing is held. -/
theorem idle_quiet {program : KProg α} (quiet : program.Only fun op : Op => op.isQuiet = true) :
    (alone P Window.sees t).Proves (Idle t u iid) program (Raised t u iid) fun _ => Idle t u iid := by
  refine (alone_keeps (A := Idle t u iid) ?_ quiet).mono (fun _ idle => idle) (fun _ _ idle => idle) fun _ idle => idle.raised
  rintro op still choice outcome w v seen ran ⟨during,lock⟩
  obtain ⟨kept,_,mem⟩ := during.quiet still ran
  exact ⟨kept (.inr rfl),(congrArg Memory.lock mem).trans lock⟩

/-- A part that is quiet, while the VM is held. -/
theorem held_quiet {program : KProg α} (quiet : Silent program) (straight : program.Straight) :
    (alone P Window.sees t).Proves (HeldUp t u iid) program (Raised t u iid) fun _ => HeldUp t u iid := by
  refine alone_straight quiet straight ?_ ?_
  · rintro op ⟨still,_⟩ choice value w v seen ran ⟨during,lock⟩
    obtain ⟨kept,_,mem⟩ := during.quiet still ran
    exact ⟨kept (.inl rfl),(congrArg Memory.lock mem).trans lock⟩
  · rintro op ⟨still,foreign⟩ choice error w v seen ran ⟨during,lock⟩
    obtain ⟨_,raised,mem⟩ := during.quiet still ran
    exact ⟨raised (decide_eq_true foreign),(congrArg Memory.lock mem).trans lock⟩

/-- The store leaves `LIVE` as it is. -/
theorem live_storage {op : Op} {choice : Choice} {outcome : Except Exn op.Res} {w v : World} (listed : op.kind ∈ storage)
    (ran : exec P t op choice w = some (outcome,v)) : v.mem.live = w.mem.live := by
  by_cases mem : op.isMem
  swap
  · exact congrArg Memory.live (exec_mem (by simpa using mem) ran)
  cases op with
  | db | fs | s3 | vm | sys => cases mem
  | mem o =>
    obtain ⟨⟨result,after⟩,executed,same⟩ := Option.map_eq_some_iff.mp ran
    cases same
    cases o with
    | acquire =>
      cases choice with
      | ok =>
        simp only [memExec] at executed
        split at executed <;> cases executed
        rfl
      | fail | torn | id | text | time | flag | boot | bootLost | lost | eof | puts | found => cases executed
    | store | update | release =>
      cases choice <;> cases executed
      rfl
    | liveGet | liveSet | livePop | liveKeys => simp [Op.kind,MemOp.kind] at listed

/-- The store works, under its lock or not, while nothing is held. -/
theorem During.storage {op : Op} {choice : Choice} {outcome : Except Exn op.Res} {w v : World} {seen : Window}
    (during : During t u iid false (w.scene,seen)) (listed : op.kind ∈ Klados.storage)
    (ran : exec P t op choice w = some (outcome,v)) : During t u iid false (v.scene,Window.sees op outcome v seen) := by
  have db : v.db = w.db := exec_db (fun same => by simp [same] at listed) ran
  have other : op.isVm = false ∧ Window.holds op outcome v seen.held = seen.held ∧ op.isResume = false := by
    cases op with
    | vm o => cases o <;> simp [Op.kind,VmOp.kind] at listed
    | db | fs | s3 | mem | sys => exact ⟨rfl,rfl,rfl⟩
  have phase : v.phase = w.phase := by
    funext iid'
    rw [World.phase,World.phase,exec_hyp other.1 ran]
  exact (during.call op outcome (db ▸ during.db) (live_storage listed ran) phase other.2.1 other.2.2).1 (.inr rfl)

theorem during_storage {program : KProg α} (uses : Uses storage program) :
    (alone P Window.sees t).Proves (During t u iid false) program (During t u iid false) fun _ => During t u iid false :=
  alone_keeps (fun _ listed _ _ _ _ _ ran during => during.storage listed ran) uses

/-- A call that does not touch the processes, while nothing is held. -/
theorem idle_call {op : Op} (effect : ∀ choice outcome w v, exec P t op choice w = some (outcome,v) →
      u.db.Drafted t w.db → u.db.Drafted t v.db ∧ v.mem = w.mem) (notVm : op.isVm = false) :
    (alone P Window.sees t).Proves (Idle t u iid) (Prog.perform (S := sig) op) (Raised t u iid) fun _ => Idle t u iid := by
  have keeps : ∀ choice outcome w v seen, exec P t op choice w = some (outcome,v) → Idle t u iid (w.scene,seen) →
      Idle t u iid (v.scene,Window.sees op outcome v seen) := by
    rintro choice outcome w v seen ran ⟨during,lock⟩
    obtain ⟨db,mem⟩ := effect choice outcome w v ran during.db
    have phase : v.phase = w.phase := by
      funext iid'
      rw [World.phase,World.phase,exec_hyp notVm ran]
    have holds : Window.holds op outcome v seen.held = seen.held ∧ op.isResume = false := by
      cases op with
      | vm o => cases notVm
      | db | fs | s3 | mem | sys => exact ⟨rfl,rfl⟩
    exact ⟨(during.call op outcome db (congrArg Memory.live mem) phase holds.1 holds.2).1 (.inr rfl),
      (congrArg Memory.lock mem).trans lock⟩
  exact alone_call (fun choice value w v seen => keeps choice _ w v seen)
    fun choice error w v seen ran idle => (keeps choice _ w v seen ran idle).raised

theorem newId_idle : (alone P Window.sees t).Proves (Idle t u iid) (sysCall .newId) (Raised t u iid) fun _ => Idle t u iid := by
  refine idle_call ?_ rfl
  intro choice outcome w v ran drafted
  obtain ⟨id,_,_,rfl⟩ := exec_newId ran
  exact ⟨drafted,rfl⟩

/-- A statement is written on the tables as they were, or refused. -/
theorem execute_idle (stmt : Stmt) :
    (alone P Window.sees t).Proves (Idle t u iid) (dbCall (.execute stmt)) (Raised t u iid) fun _ => Idle t u iid := by
  refine idle_call ?_ rfl
  intro choice outcome w v ran drafted
  have free : w.db.FreeFor t → u.db.FreeFor t := by
    intro free t' T held
    rcases drafted.txn with same | ⟨free',_⟩
    · exact free t' T (same.trans held)
    · exact free' t' T held
  obtain ⟨db,acts,rfl⟩ := exec_dbActs ran
  cases acts with
  | fails => exact ⟨drafted,rfl⟩
  | wrote mine | refused mine => exact ⟨⟨drafted.committed,.inr ⟨free mine,_,rfl⟩⟩,rfl⟩

/-- A commit that raises has committed nothing. -/
theorem commit_raised :
    (alone P Window.sees t).Proves (Idle t u iid) (dbCall .commit) (Raised t u iid) fun _ _ => True := by
  refine alone_call (fun _ _ _ _ _ _ _ => trivial) ?_
  rintro choice error w v seen ran ⟨during,lock⟩
  obtain ⟨db,acts,rfl⟩ := exec_dbActs ran
  cases acts with
  | fails => exact Idle.raised ⟨(during.call (v := w) (.db .commit) (.error error) during.db rfl rfl rfl rfl).1 (.inr rfl),lock⟩

/-- The pause holds the VM, or fails; when it took effect all the same, that is a call that failed. -/
theorem pause_held : (alone P Window.sees t).Proves (Idle t u iid) (vmCall (.pause iid))
    (Raised t u iid) fun _ => HeldUp t u iid := by
  have after : ∀ {w : World} {fs : Files.Fs Path} {vm : Vm},
      let v : World := { w with fs, hyp := w.hyp.set iid { vm with phase := .paused } }
      v.phase iid = some .paused := by
    intro w fs vm
    simp [World.phase]
  refine alone_call ?_ ?_
  · rintro choice value w v seen ran ⟨during,lock⟩
    have window : seen = ⟨false,false,false⟩ := during.window
    subst window
    obtain ⟨fs,hyp,acts,rfl⟩ := exec_vmActs ran
    cases acts with
    | pause there alive =>
      refine ⟨⟨during.db,during.live,.inr after,by rintro _ ⟨⟩,fun _ => after,?_⟩,lock⟩
      simp [Window.sees,Window.holds,Op.fails,Op.isResume,after]
  · rintro choice error w v seen ran ⟨during,lock⟩
    have window : seen = ⟨false,false,false⟩ := during.window
    subst window
    have logged : Window.sees (.vm (.pause iid)) (.error error) v ⟨false,false,false⟩ =
        ⟨decide (v.phase iid = some .paused),decide (v.phase iid = some .paused),false⟩ := by
      simp [Window.sees,Window.holds,Op.fails,Op.isResume,Op.kind,VmOp.kind]
    rw [logged]
    obtain ⟨fs,hyp,acts,rfl⟩ := exec_vmActs ran
    cases acts with
    | fails =>
      refine ⟨⟨during.db,during.live,during.alive,fun _ _ ran => during.running ran rfl,?_⟩,lock⟩
      exact fun _ hit => of_decide_eq_true hit
    | pause there alive =>
      refine ⟨⟨during.db,during.live,.inr after,?_,fun _ _ => after⟩,lock⟩
      intro _ safe _
      exact absurd after (of_decide_eq_false safe)

/-- The files of the snapshot are written, or a call failed while the VM is held. -/
theorem create_held (snap mem : Path) :
    (alone P Window.sees t).Proves (HeldUp t u iid) (vmCall (.create iid snap mem)) (Raised t u iid) fun _ => HeldUp t u iid := by
  have effect : ∀ {choice : Choice} {outcome : Except Exn Unit} {w v : World},
      exec P t (.vm (.create iid snap mem)) choice w = some (outcome,v) →
      v.db = w.db ∧ v.mem = w.mem ∧ v.phase = w.phase := by
    intro choice outcome w v ran
    obtain ⟨fs,hyp,acts,rfl⟩ := exec_vmActs ran
    cases acts <;> exact ⟨rfl,rfl,rfl⟩
  refine alone_call ?_ ?_
  · rintro choice value w v seen ran ⟨during,lock⟩
    obtain ⟨db,memory,phase⟩ := effect ran
    have kept := during.call (v := v) (.vm (.create iid snap mem)) (.ok value)
      (db ▸ during.db) (congrArg Memory.live memory) phase rfl rfl
    exact ⟨kept.1 (.inl rfl),(congrArg Memory.lock memory).trans lock⟩
  · rintro choice error w v seen ran ⟨during,lock⟩
    obtain ⟨db,memory,phase⟩ := effect ran
    have kept := during.call (v := v) (.vm (.create iid snap mem)) (.error error)
      (db ▸ during.db) (congrArg Memory.live memory) phase rfl rfl
    exact ⟨kept.2 rfl,(congrArg Memory.lock memory).trans lock⟩

/-- The VM runs again, or the resume itself failed. -/
theorem resume_idle : (alone P Window.sees t).Proves (HeldUp t u iid) (vmCall (.resume iid))
    (Raised t u iid) fun _ => Idle t u iid := by
  have after : ∀ {w : World} {fs : Files.Fs Path} {vm : Vm},
      let v : World := { w with fs, hyp := w.hyp.set iid { vm with phase := .running } }
      v.phase iid = some .running := by
    intro w fs vm
    simp [World.phase]
  refine alone_call ?_ ?_
  · rintro choice value w v seen ran ⟨during,lock⟩
    have window : seen = ⟨true,false,false⟩ := during.window
    subst window
    obtain ⟨fs,hyp,acts,rfl⟩ := exec_vmActs ran
    cases acts with
    | resume there alive => exact ⟨⟨during.db,during.live,.inl after,fun _ _ => after,by rintro ⟨⟩,rfl⟩,lock⟩
  · rintro choice error w v seen ran ⟨during,lock⟩
    have refused : (Window.sees (.vm (.resume iid)) (.error error) v seen).refused = true := by
      simp [Window.sees,Op.isResume,Op.fails,Op.kind,VmOp.kind]
    obtain ⟨fs,hyp,acts,rfl⟩ := exec_vmActs ran
    have given : ∀ {A : Prop}, (Window.sees (.vm (.resume iid)) (.error error) { w with fs, hyp } seen).refused = false → A :=
      fun safe => absurd (refused.symm.trans safe) (by simp)
    cases acts with
    | fails => exact ⟨⟨during.db,during.live,during.alive,given,given⟩,lock⟩
    | resume there alive => exact ⟨⟨during.db,during.live,.inl after,given,given⟩,lock⟩

/-- Under the lock of the store, which is let go whatever is raised. -/
theorem locked_idle {body : KProg α} (uses : Uses storage body) :
    (alone P Window.sees t).Proves (Idle t u iid) (locked body) (Raised t u iid) fun _ => Idle t u iid := by
  have release : u.mem.lock = none → (alone P Window.sees t).Proves (During t u iid false) (memCall .release) (Raised t u iid)
      fun _ => Idle t u iid := by
    intro free
    refine alone_call ?_ ?_
    · intro choice value w v seen ran during
      refine ⟨during.storage (by decide) ran,?_⟩
      obtain ⟨⟨result,after⟩,executed,same⟩ := Option.map_eq_some_iff.mp ran
      cases choice <;> cases executed
      cases same
      exact free.symm
    · intro choice error w v seen ran during
      obtain ⟨⟨result,after⟩,executed,same⟩ := Option.map_eq_some_iff.mp ran
      cases choice <;> cases executed
      cases same
  refine Solo.seq (r := fun _ x => u.mem.lock = none ∧ During t u iid false x) (alone_call ?_ ?_) fun _ =>
    Solo.Proves.given fun free => ?_
  · rintro choice value w v seen ran ⟨during,lock⟩
    refine ⟨?_,during.storage (by decide) ran⟩
    obtain ⟨⟨result,after⟩,executed,same⟩ := Option.map_eq_some_iff.mp ran
    cases choice with
    | ok =>
      simp only [memExec] at executed
      split at executed
      · rename_i unlocked
        have free : w.mem.lock = none := by simpa using unlocked
        exact lock.symm.trans free
      · cases executed
    | fail | torn | id | text | time | flag | boot | bootLost | lost | eof | puts | found => cases executed
  · rintro choice error w v seen ran ⟨during,lock⟩
    obtain ⟨⟨result,after⟩,executed,same⟩ := Option.map_eq_some_iff.mp ran
    cases choice with
    | ok =>
      simp only [memExec] at executed
      split at executed <;> cases executed
      cases same
    | fail | torn | id | text | time | flag | boot | bootLost | lost | eof | puts | found => cases executed
  refine Solo.seq (Solo.catching (during_storage uses) fun error => ?_) fun value => ?_
  · exact Solo.seq (release free) fun _ => Solo.raise fun _ idle => idle.raised
  · exact Solo.seq (release free) fun _ => Solo.ret fun _ idle => idle

theorem idle_fs (o : FsOp) : (alone P Window.sees t).Proves (Idle t u iid) (fsCall o) (Raised t u iid) fun _ => Idle t u iid :=
  idle_quiet (Only.perform rfl)

theorem chunk_mem_idle (sid : Id) (mem : Path) :
    (alone P Window.sees t).Proves (Idle t u iid) (chunk_mem P sid mem) (Raised t u iid) fun _ => Idle t u iid := by
  refine Solo.seq (locked_idle ?_) fun hashes => ?_
  · exact Only.bind (uses_put_file P mem) fun _ => Only.bind uses_flush_s3 fun _ => trivial
  refine Solo.seq (Solo.seq (idle_fs _) fun f => idle_fs _) fun _ => ?_
  refine Solo.seq (idle_fs _) fun logical => ?_
  exact Solo.seq (idle_fs _) fun _ => Solo.ret fun _ idle => idle

theorem straight_seal_scratch (iid sid : Id) : (seal_scratch iid sid).Straight :=
  Prog.Straight.bind (Prog.Straight.perform _) fun _ => Prog.Straight.when (Prog.Straight.perform _)

/-- The captured part, from the pause to the resume. -/
theorem capture_held {β : Type} (sid : Id) {rest : KProg β} {q : β → Scene × Window → Prop}
    (onward : (alone P Window.sees t).Proves (Idle t u iid) rest (Raised t u iid) q) :
    (alone P Window.sees t).Proves (Idle t u iid) (do
      vmCall (.pause iid)
      vmCall (.create iid (.snap sid .vmstate) (.snap sid .mem))
      fsCall .makedirs
      seal_scratch iid sid
      vmCall (.resume iid)
      rest) (Raised t u iid) q := by
  refine Solo.seq pause_held fun _ => Solo.seq (create_held _ _) fun _ => ?_
  refine Solo.seq (held_quiet quiet_fs (Prog.Straight.perform _)) fun _ => ?_
  refine Solo.seq (held_quiet ?_ (straight_seal_scratch iid sid)) fun _ => ?_
  · exact Only.bind quiet_fs fun _ => Only.when quiet_fs
  · exact Solo.seq resume_idle fun _ => onward

/-- The body of the connection raises as `Raised` says. -/
theorem snapshot_body_raises (label : Json) {row : InstanceRow} :
    (alone P Window.sees t).Proves (Idle t u iid) (do
      let sid ← sysCall .newId
      fsCall .makedirs
      fsCall .makedirs
      quiesce iid
      vmCall (.pause iid)
      vmCall (.create iid (.snap sid .vmstate) (.snap sid .mem))
      fsCall .makedirs
      seal_scratch iid sid
      vmCall (.resume iid)
      let logical ← chunk_mem P sid (.snap sid .mem)
      let state ← fsCall (.getsize (.snap sid .vmstate))
      let size := logical + state
      let now ← sysCall .now
      let label ← bindText P label
      dbCall (.execute (.insertSnapshot
        ⟨sid,row.run_id,row.snapshot_id,label,.snap sid .vmstate,.snap sid .mem,size,now⟩))
      dbCall (.execute (.setSnapshot iid sid))
      dbCall .commit
      pure (.obj [("snapshot_id",.str sid),("size_bytes",.int size),("parent",Json.ofText row.snapshot_id)]) : KProg Json)
      (Raised t u iid) fun _ _ => True := by
  refine Solo.seq newId_idle fun sid => Solo.seq (idle_fs _) fun _ => Solo.seq (idle_fs _) fun _ => ?_
  refine Solo.seq (idle_quiet (Only.mono (fun _ own => own.1) (talks_quiesce iid).quiet)) fun _ => capture_held sid ?_
  refine Solo.seq (chunk_mem_idle sid _) fun logical => Solo.seq (idle_fs _) fun state => ?_
  refine Solo.seq (idle_quiet (Only.perform rfl)) fun now => Solo.seq (idle_quiet ?_) fun label => ?_
  · exact Only.mono (fun _ listed => by simp at listed) (uses_bindText P label)
  refine Solo.seq (execute_idle _) fun _ => Solo.seq (execute_idle _) fun _ => ?_
  exact Solo.seq commit_raised fun _ => Solo.ret fun _ _ => trivial

theorem snapshot_instance_raises (unborn : ∀ T, u.db.txn ≠ some (t,T)) (label : Json) :
    (alone P Window.sees t).Proves (fun x => Idle t u iid x ∧ x.1.db = u.db) (snapshot_instance P iid label)
      (fun x => Raised t u iid x ∧ x.1.db = u.db) fun _ _ => True := by
  refine Solo.seq (r := fun _ x => Idle t u iid x ∧ x.1.db = u.db) (alone_call ?_ ?_) fun live => ?_
  · rintro choice value w v seen ran ⟨⟨during,lock⟩,same⟩
    obtain ⟨⟨result,after⟩,executed,equal⟩ := Option.map_eq_some_iff.mp ran
    cases choice <;> cases executed
    cases equal
    exact ⟨⟨(during.call (.mem (.liveGet iid)) (.ok _) during.db rfl rfl rfl rfl).1 (.inr rfl),lock⟩,same⟩
  · intro choice error w v seen ran _
    obtain ⟨⟨result,after⟩,executed,equal⟩ := Option.map_eq_some_iff.mp ran
    cases choice <;> cases executed
    cases equal
  split
  · exact Solo.raise fun _ ⟨idle,same⟩ => ⟨idle.raised,same⟩
  refine connection_proves unborn (fun _ (raised : Raised t u iid _) => raised.1.db) ?_ ?_
  · rintro v x seen ⟨mishap,lock⟩
    rw [Window.sees_other rfl rfl]
    exact ⟨⟨⟨.of_eq rfl,mishap.live,mishap.alive,mishap.running,mishap.paused⟩,lock⟩,rfl⟩
  refine Solo.Proves.mono (Solo.seq (idle_quiet (Only.perform rfl)) fun T => ?_) (fun _ holds => holds.1) (fun _ _ holds => holds)
    fun _ holds => holds
  split
  · exact Solo.raise fun _ idle => idle.raised
  · exact snapshot_body_raises label

end

/-- A snapshot, started in any state that the daemon reaches and run alone while the guests go on, that raises though
    its resume does not fail leaves a recorded instance in `LIVE`, whose VM lives, as it was, exactly when no call
    fails while the snapshot holds a VM that ran. -/
theorem failed_snapshot_unharmed (P : Platform) {w : World} (fresh : w.Fresh) {pool : KPool}
    (reached : (daemon P).Reach (fun _ _ => True) ⟨w,[]⟩ pool) {iid : Id} (live : iid ∈ pool.world.mem.live)
    (recorded : pool.world.db.committed.HasInstance iid)
    (alive : pool.world.phase iid = some .running ∨ pool.world.phase iid = some .paused) (label : Json) {error : Exn} {v : World}
    {seen : Window} (ran : Runs ((observed P Window.sees).drift nobodyDies) ((observed P Window.sees).step pool.threads.length)
      (snapshot_instance P iid label) (pool.world,⟨false,false,false⟩) (.error error) (v,seen)) (resumes : seen.refused = false) :
    Unharmed P pool.world v iid ↔ (pool.world.phase iid = some .running → seen.hit = false) := by
  have healthy := protocol_reach fresh reached
  have unborn := healthy.next _ (Nat.le_refl _)
  have start : Idle pool.threads.length pool.world.scene iid (pool.world.scene,⟨false,false,false⟩) :=
    ⟨⟨.of_eq rfl,rfl,alive,fun running _ => running,by rintro ⟨⟩,rfl⟩,rfl⟩
  have post := (snapshot_instance_raises (P := P) (u := pool.world.scene) unborn label).runs ⟨start,rfl⟩ ran
  obtain ⟨⟨mishap,lock⟩,db⟩ : Raised pool.threads.length pool.world.scene iid (v.scene,seen) ∧
    v.scene.db = pool.world.scene.db := post
  have tables : v.db = pool.world.db := db
  constructor
  · intro unharmed running
    by_contra hit
    have paused : v.phase iid = some .paused := mishap.paused resumes (by simpa using hit)
    exact absurd ((unharmed.running running).symm.trans paused) (by simp)
  · intro calm
    refine ⟨fun running => mishap.running resumes (calm running) running,by rw [tables],by rw [tables],by rw [tables],lock,?_⟩
    intro t
    obtain ⟨row,found⟩ : ∃ row, v.db.committed.instance? iid = some row := by
      obtain ⟨row,member,named⟩ := recorded
      rw [tables]
      exact Option.isSome_iff_exists.mp (List.find?_isSome.mpr ⟨row,member,by simp [named]⟩)
    obtain ⟨vm,there,phase⟩ : ∃ vm, v.hyp.vm iid = some vm ∧ (vm.phase = .running ∨ vm.phase = .paused) := by
      rcases mishap.alive with phase | phase
      all_goals
        obtain ⟨vm,there,same⟩ := Option.map_eq_some_iff.mp phase
        exact ⟨vm,there,by simp [same]⟩
    have can : CanRun P t (snapshot_instance P iid .null) v.released fun _ _ => True :=
      can_snapshot (show iid ∈ v.mem.live from mishap.live ▸ live) rfl rfl found there phase
    obtain ⟨reply,v',succeeds,_⟩ := can.runs fun _ => Relation.ReflTransGen.refl
    exact ⟨.null,reply,v',succeeds⟩

def diskFull : Exn := .OSError "No space left on device"

/-- A snapshot that fails at reading the image, after the resume. -/
def failsLate : List Choice := takeSnapshot "s" ++ [.ok,.fail diskFull,.ok,.ok]

/-- A snapshot that fails at `snapshot/create`, while the VM is paused. -/
def failsHeld : List Choice := (takeSnapshot "s").take 9 ++ [.fail diskFull,.ok]

/-- Make a run, whose VM is left alone, and snapshot its instance alone. -/
def snapshotAlone (script : List Choice) : Option (KPool × Except Exn Json × World × Window) :=
  ((daemon .plain).run (fun _ _ => true) (.request (.create_run "p" .null) :: calls 0 (createRun "r" "i" [7] [8]))
    ⟨World.initial defaultProject false,[]⟩).bind fun pool =>
    (replay ((observed .plain Window.sees).exec pool.threads.length) (fun (_ : Move) _ => none) (script.map .inr)
      (snapshot_instance .plain "i" .null) (pool.world,⟨false,false,false⟩)).map fun outcome => (pool,outcome)

theorem snapshotAlone_runs {script : List Choice} {pool : KPool} {result : Except Exn Json} {v : World} {seen : Window}
    (taken : snapshotAlone script = some (pool,result,v,seen)) :
    (daemon .plain).Reach (fun _ _ => True) ⟨World.initial defaultProject false,[]⟩ pool ∧
      Runs ((observed .plain Window.sees).drift nobodyDies) ((observed .plain Window.sees).step pool.threads.length)
        (snapshot_instance .plain "i" .null) (pool.world,⟨false,false,false⟩) result (v,seen) := by
  obtain ⟨pool',ran,replayed⟩ := Option.bind_eq_some_iff.mp taken
  obtain ⟨outcome,replayed,same⟩ := Option.map_eq_some_iff.mp replayed
  cases same
  refine ⟨Machine.reach_of_run _ (fun _ _ _ => trivial) ran,?_⟩
  exact Runs.of_replay (fun _ => .refl) (fun first second => first.trans second) (by rintro _ _ _ ⟨⟩)
    (fun op choice s outcome s' executed => ⟨choice,executed⟩) replayed

theorem failed_snapshot_unharmed_late : ∃ pool error v seen, snapshotAlone failsLate = some (pool,.error error,v,seen) ∧
    v.phase "i" = some .running ∧ Unharmed .plain pool.world v "i" := by
  have found : (snapshotAlone failsLate).map (fun (pool,result,v,seen) => decide (result.toOption.isNone = true ∧
      ("i" ∈ pool.world.mem.live ∧ pool.world.db.committed.instances.any (·.id = "i") = true ∧
        pool.world.phase "i" = some .running) ∧ v.phase "i" = some .running ∧ seen = ⟨false,false,false⟩)) = some true := by
    decide +kernel
  obtain ⟨⟨pool,result,v,seen⟩,taken,good⟩ := Option.map_eq_some_iff.mp found
  obtain ⟨raised,⟨live,recorded,running⟩,after,calm⟩ := of_decide_eq_true good
  obtain ⟨row,member,named⟩ := List.any_eq_true.mp recorded
  cases result with
  | ok reply => cases raised
  | error error =>
    obtain ⟨reached,ran⟩ := snapshotAlone_runs taken
    exact ⟨pool,error,v,seen,taken,after,(failed_snapshot_unharmed .plain (World.initial_fresh defaultProject false) reached
      live ⟨row,member,by simpa using named⟩ (.inl running) .null ran (congrArg Window.refused calm)).mpr
        fun _ => congrArg Window.hit calm⟩

/-- The VM ran before, and is paused after the error. -/
theorem failed_snapshot_harms : ∃ pool error v seen, snapshotAlone failsHeld = some (pool,.error error,v,seen) ∧
    (daemon .plain).Reach (fun _ _ => True) ⟨World.initial defaultProject false,[]⟩ pool ∧ seen.refused = false ∧
    pool.world.phase "i" = some .running ∧ v.phase "i" = some .paused ∧ ¬ Unharmed .plain pool.world v "i" := by
  have found : (snapshotAlone failsHeld).map (fun (pool,result,v,seen) => decide (result.toOption.isNone = true ∧
      seen.refused = false ∧ pool.world.phase "i" = some .running ∧ v.phase "i" = some .paused)) = some true := by
    decide +kernel
  obtain ⟨⟨pool,result,v,seen⟩,taken,good⟩ := Option.map_eq_some_iff.mp found
  obtain ⟨raised,resumes,running,paused⟩ := of_decide_eq_true good
  cases result with
  | ok reply => cases raised
  | error error =>
    refine ⟨pool,error,v,seen,taken,(snapshotAlone_runs taken).1,resumes,running,paused,fun unharmed => ?_⟩
    exact absurd ((unharmed.running running).symm.trans paused) (by simp)

end Klados
