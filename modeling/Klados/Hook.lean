import Klados.Basics

/-!
The hook that every Python process of the guest imports, in event mode. The application's wrapped draws
and the backup poller run the same `_maybe_reseed` on one record, and nothing keeps the one from acting
between the other's check and what it does upon it.
-/
namespace Klados.Hook
open Files (Bytes)

/-- What the hook calls of `random` and `ssl`. A value stands for the exception where the call raises,
    and `RAND_add` for nothing where it raises. -/
structure Libraries where
  Twister : Type
  Pool : Type
  Seed : Type
  Value : Type
  bytes : Bytes → Seed
  seed : Seed → Twister
  RAND_add : Bytes → Pool → Pool
  getrandbits : Int → Twister → Value × Twister
  random : Twister → Value × Twister
  RAND_bytes : Int → Pool → Value × Pool

variable {L : Libraries}

/-- The generators that the draws use. -/
structure Generators (L : Libraries) where
  twister : L.Twister
  pool : L.Pool

/-- The wrapped draws. -/
inductive Draw
  | getrandbits (k : Int)
  | random
  | RAND_bytes (n : Int)
  deriving DecidableEq

/-- `_orig_gr`, `_orig_rr` and `_orig_rb`. -/
def Draw.orig (g : Generators L) : Draw → L.Value × Generators L
  | .getrandbits k => let (value,twister) := L.getrandbits k g.twister; (value,{ g with twister })
  | .random => let (value,twister) := L.random g.twister; (value,{ g with twister })
  | .RAND_bytes n => let (value,pool) := L.RAND_bytes n g.pool; (value,{ g with pool })

/-- What the two threads share: the file `forkgen`, which need not be readable, `_state["gen"]`
    and the generators. -/
structure Memory (L : Libraries) where
  forkgen : Option String
  gen : Option String
  generators : Generators L

/-- `_read_gen`. -/
def _read_gen (forkgen : Option String) : Option String := forkgen.map strip

/-- `_reseed`, with the two results of `os.urandom(32)`. -/
def _reseed (urandom : Bytes × Bytes) (g : Generators L) : Generators L :=
  ⟨L.seed (L.bytes urandom.1),L.RAND_add urandom.2 g.pool⟩

/-- Where a thread is in `_maybe_reseed`, with the local `g`. -/
inductive Point
  | read
  | compare (g : Option String)
  | recorded (g : String)
  | reseed (g : String)
  | record (g : String)
  | done
  deriving DecidableEq

/-- One step of `_maybe_reseed`. -/
def _maybe_reseed (urandom : Bytes × Bytes) (m : Memory L) : Point → Point × Memory L
  | .read => (.compare (_read_gen m.forkgen),m)
  | .compare none => (.done,m)
  | .compare (some g) => (if some g ≠ m.gen then .recorded g else .done,m)
  | .recorded g => (if m.gen ≠ none then .reseed g else .record g,m)
  | .reseed g => (.record g,{ m with generators := _reseed urandom m.generators })
  | .record g => (.done,{ m with gen := some g })
  | .done => (.done,m)

/-- The process: the application thread runs its own code, or is in a wrapped draw. -/
structure Process (L : Libraries) where
  mem : Memory L
  app : Option (Draw × Point)
  poller : Point

/-- What may happen next. -/
inductive Action (L : Libraries)
  | write (forkgen : Option String)
  | call (draw : Draw)
  | app (urandom : Bytes × Bytes)
  | draw (draw : Draw)
  | seed (a : L.Seed)
  | poller (urandom : Bytes × Bytes)

/-- A step of the process or of what surrounds it. -/
def next (s : Process L) : Action L → Option (Process L)
  | .write forkgen => some { s with mem := { s.mem with forkgen } }
  | .call d => if s.app = none then some { s with app := some (d,.read) } else none
  | .app urandom =>
    match s.app with
    | some (d,p) =>
      if p = .done then none
      else let (p,mem) := _maybe_reseed urandom s.mem p; some { s with app := some (d,p), mem }
    | none => none
  | .draw d =>
    -- The wrapper is past `_maybe_reseed`: the original draws, and its value is returned.
    if s.app = some (d,.done) then
      some { s with app := none, mem := { s.mem with generators := (d.orig s.mem.generators).2 } }
    else none
  | .seed a =>
    if s.app = none then
      some { s with mem := { s.mem with generators := { s.mem.generators with twister := L.seed a } } }
    else none
  | .poller urandom =>
    -- `while True`: after `time.sleep(0.002)` the poller reads again.
    if s.poller = .done then some { s with poller := .read }
    else let (poller,mem) := _maybe_reseed urandom s.mem s.poller; some { s with poller, mem }

/-- Several steps, in this order. -/
def run (s : Process L) (actions : List (Action L)) : Option (Process L) := actions.foldlM next s

/-- `_start`: the generation is recorded, the poller starts, and the application runs. -/
def _start (forkgen : Option String) (g : Generators L) : Process L := ⟨⟨forkgen,_read_gen forkgen,g⟩,none,.read⟩

def Point.reseeds : Point → Bool
  | .reseed _ => true
  | _ => false

/-- A step that reseeds. -/
def reseeding (s : Process L) : Action L → Bool
  | .app _ => s.app.any (·.2.reseeds)
  | .poller _ => s.poller.reseeds
  | _ => false

/-- Some step of the run reseeds. -/
def reseeds (s : Process L) : List (Action L) → Bool
  | [] => false
  | a :: rest => reseeding s a || (next s a).any fun u => reseeds u rest

/-- What an action of the application returns. -/
def drawn (g : Generators L) : Action L → List L.Value
  | .draw d => [(d.orig g).1]
  | _ => []

/-- What an action of the application does to the generators. -/
def used (g : Generators L) : Action L → Generators L
  | .draw d => (d.orig g).2
  | .seed a => { g with twister := L.seed a }
  | _ => g

/-- The values that the draws of the run return. -/
def values (s : Process L) : List (Action L) → List L.Value
  | [] => []
  | a :: rest => drawn s.mem.generators a ++ ((next s a).map fun u => values u rest).getD []

/-- The values that the same draws return where there is no hook. -/
def plain (g : Generators L) : List (Action L) → List L.Value
  | [] => []
  | a :: rest => drawn g a ++ plain (used g a) rest

/-- The reading of `forkgen` stays what it is. -/
def Unchanged (s : Process L) (actions : List (Action L)) : Prop :=
  ∀ forkgen, .write forkgen ∈ actions → _read_gen forkgen = _read_gen s.mem.forkgen

/-- A wrapped draw that was called since `forkgen` has changed for the last time has returned. -/
def AfterDraw (w s : Process L) : Prop :=
  ∃ before forkgen u v middle d, run w before = some u ∧ _read_gen forkgen ≠ _read_gen u.mem.forkgen ∧
    next u (.write forkgen) = some v ∧ (∃ d', .call d' ∈ middle) ∧ Unchanged v middle ∧ run v (middle ++ [.draw d]) = some s

/-- A check that has got so far will not reseed, and will not record another generation. -/
def Harmless (m : Memory L) : Point → Prop
  | .compare (some g) => m.gen = some g
  | .recorded _ | .reseed _ => False
  | .record g => _read_gen m.forkgen = none ∨ _read_gen m.forkgen = some g
  | _ => True

/-- The generation that is recorded is the one that is read, and the check of the poller is harmless. -/
structure Settled (s : Process L) : Prop where
  recorded : _read_gen s.mem.forkgen = none ∨ s.mem.gen = _read_gen s.mem.forkgen
  poller : Harmless s.mem s.poller

/-- The application holds a reading only if it is the present one, and finds it recorded. -/
def Fresh (m : Memory L) : Point → Prop
  | .compare g => g = _read_gen m.forkgen
  | .recorded _ | .reseed _ | .record _ => False
  | _ => True

/-- Settled, also while the application is in a draw. -/
structure Calm (s : Process L) : Prop extends Settled s where
  app : ∀ d p, s.app = some (d,p) → Fresh s.mem p

section
variable {s v w : Process L} {a : Action L}

theorem run_cons {rest : List (Action L)} : run s (a :: rest) = some v ↔ ∃ u, next s a = some u ∧ run u rest = some v := by
  rw [run,List.foldlM_cons]
  exact Option.bind_eq_some_iff

theorem run_append {first rest : List (Action L)} :
    run s (first ++ rest) = some v ↔ ∃ u, run s first = some u ∧ run u rest = some v := by
  rw [run,List.foldlM_append]
  exact Option.bind_eq_some_iff

theorem Harmless.spec {m : Memory L} {p : Point} (harmless : Harmless m p) (urandom : Bytes × Bytes)
    (recorded : _read_gen m.forkgen = none ∨ m.gen = _read_gen m.forkgen) :
    p.reseeds = false ∧ Harmless (_maybe_reseed urandom m p).2 (_maybe_reseed urandom m p).1 ∧
      (_maybe_reseed urandom m p).2.forkgen = m.forkgen ∧ (_maybe_reseed urandom m p).2.generators = m.generators ∧
      (_read_gen m.forkgen = none ∨ (_maybe_reseed urandom m p).2.gen = _read_gen m.forkgen) := by
  cases p with
  | read =>
    refine ⟨rfl,?_,rfl,rfl,recorded⟩
    cases read : _read_gen m.forkgen with
    | none => simp [_maybe_reseed,read,Harmless]
    | some g =>
      have same : m.gen = some g := by simpa [read] using recorded
      simpa [_maybe_reseed,read,Harmless] using same
  | compare g =>
    cases g with
    | none => exact ⟨rfl,trivial,rfl,rfl,recorded⟩
    | some g =>
      have same : m.gen = some g := harmless
      have equal : _maybe_reseed urandom m (.compare (some g)) = (.done,m) := by simp [_maybe_reseed,same]
      rw [equal]
      exact ⟨rfl,trivial,rfl,rfl,recorded⟩
  | recorded g => exact harmless.elim
  | reseed g => exact harmless.elim
  | record g =>
    refine ⟨rfl,trivial,rfl,rfl,?_⟩
    exact harmless.imp_right fun same => same.symm
  | done => exact ⟨rfl,trivial,rfl,rfl,recorded⟩

theorem Fresh.spec {m : Memory L} {p : Point} (fresh : Fresh m p) (urandom : Bytes × Bytes)
    (recorded : _read_gen m.forkgen = none ∨ m.gen = _read_gen m.forkgen) :
    p.reseeds = false ∧ Fresh m (_maybe_reseed urandom m p).1 ∧ (_maybe_reseed urandom m p).2 = m := by
  cases p with
  | read => exact ⟨rfl,rfl,rfl⟩
  | compare g =>
    cases g with
    | none => exact ⟨rfl,trivial,rfl⟩
    | some g =>
      have read : some g = _read_gen m.forkgen := fresh
      have same : m.gen = some g := by simpa [← read] using recorded
      have equal : _maybe_reseed urandom m (.compare (some g)) = (.done,m) := by simp [_maybe_reseed,same]
      rw [equal]
      exact ⟨rfl,trivial,rfl⟩
  | recorded g | reseed g | record g => exact fresh.elim
  | done => exact ⟨rfl,trivial,rfl⟩

/-- Step: while the reading stays the same, a calm process stays calm, and only the application
    changes the generators. -/
theorem Calm.step (calm : Calm s) (same : ∀ forkgen, a = .write forkgen → _read_gen forkgen = _read_gen s.mem.forkgen)
    (stepped : next s a = some v) :
    Calm v ∧ reseeding s a = false ∧ _read_gen v.mem.forkgen = _read_gen s.mem.forkgen ∧
      v.mem.generators = used s.mem.generators a := by
  cases a with
  | write forkgen =>
    cases stepped
    have read := same forkgen rfl
    refine ⟨⟨⟨?_,?_⟩,?_⟩,rfl,read,rfl⟩
    · simpa [read] using calm.recorded
    · have harmless := calm.poller
      show Harmless { s.mem with forkgen } s.poller
      cases point : s.poller with
      | compare g =>
        rw [point] at harmless
        cases g <;> exact harmless
      | record g =>
        rw [point] at harmless
        simp only [Harmless,read]
        exact harmless
      | read | done => trivial
      | recorded | reseed =>
        rw [point] at harmless
        exact harmless.elim
    · intro d p inside
      have fresh := calm.app d p inside
      cases p with
      | compare g => exact (show g = _ from fresh).trans read.symm
      | read | done => trivial
      | recorded | reseed | record => exact fresh.elim
  | call d =>
    simp only [next] at stepped
    split at stepped <;> cases stepped
    refine ⟨⟨⟨calm.recorded,calm.poller⟩,?_⟩,rfl,rfl,rfl⟩
    rintro d p ⟨⟩
    trivial
  | app urandom =>
    simp only [next] at stepped
    split at stepped
    · rename_i d p inside
      split at stepped <;> cases stepped
      obtain ⟨quiet,fresh,unchanged⟩ := (calm.app d p inside).spec urandom calm.recorded
      rw [unchanged]
      refine ⟨⟨⟨calm.recorded,calm.poller⟩,?_⟩,?_,rfl,rfl⟩
      · rintro d p ⟨⟩
        exact fresh
      · simp [reseeding,inside,quiet]
    · cases stepped
  | draw d =>
    simp only [next] at stepped
    split at stepped <;> cases stepped
    refine ⟨⟨⟨calm.recorded,calm.poller⟩,?_⟩,rfl,rfl,rfl⟩
    rintro d p ⟨⟩
  | seed a =>
    simp only [next] at stepped
    split at stepped <;> cases stepped
    exact ⟨⟨⟨calm.recorded,calm.poller⟩,calm.app⟩,rfl,rfl,rfl⟩
  | poller urandom =>
    simp only [next] at stepped
    split at stepped
    · rename_i finished
      cases stepped
      exact ⟨⟨⟨calm.recorded,trivial⟩,calm.app⟩,by simp [reseeding,finished,Point.reseeds],rfl,rfl⟩
    · cases stepped
      obtain ⟨quiet,harmless,read,generators,recorded⟩ := calm.poller.spec urandom calm.recorded
      refine ⟨⟨⟨?_,harmless⟩,?_⟩,quiet,?_,generators⟩
      · rw [read]
        exact recorded
      · intro d p inside
        have fresh := calm.app d p inside
        cases p with
        | compare g => exact (show g = _ from fresh).trans (by rw [read])
        | read | done => trivial
        | recorded | reseed | record => exact fresh.elim
      · rw [read]

/-- Run: nothing reseeds, and the draws return what they return without the hook. -/
theorem Calm.run {actions : List (Action L)} (calm : Calm s) (same : Unchanged s actions) (ran : run s actions = some v) :
    reseeds s actions = false ∧ values s actions = plain s.mem.generators actions := by
  induction actions generalizing s with
  | nil => exact ⟨rfl,rfl⟩
  | cons a rest ih =>
    obtain ⟨u,stepped,later⟩ := run_cons.mp ran
    obtain ⟨calm',quiet,read,generators⟩ := calm.step (fun forkgen first => same forkgen (first ▸ List.mem_cons_self ..)) stepped
    obtain ⟨quiet',returned⟩ := ih calm' (fun forkgen inside =>
      (same forkgen (List.mem_cons_of_mem _ inside)).trans read.symm) later
    constructor
    · simp [reseeds,quiet,stepped,quiet']
    · simp [values,plain,stepped,returned,generators]

/-! ## When something is left -/

/-- A step of `_maybe_reseed` never takes the recorded generation away. -/
theorem maybe_reseed_gen {m : Memory L} (known : m.gen ≠ none) (urandom : Bytes × Bytes) (p : Point) :
    (_maybe_reseed urandom m p).2.gen ≠ none := by
  cases p with
  | read | recorded | reseed | done => exact known
  | compare g => cases g <;> exact known
  | record g => exact Option.some_ne_none g

/-- Step: a generation is recorded. -/
theorem gen_step (known : s.mem.gen ≠ none) (stepped : next s a = some v) : v.mem.gen ≠ none := by
  cases a with
  | write forkgen =>
    cases stepped
    exact known
  | call d | draw d | seed a =>
    simp only [next] at stepped
    split at stepped <;> cases stepped
    exact known
  | app urandom =>
    simp only [next] at stepped
    split at stepped
    · split at stepped <;> cases stepped
      exact maybe_reseed_gen known urandom _
    · cases stepped
  | poller urandom =>
    simp only [next] at stepped
    split at stepped <;> cases stepped
    · exact known
    · exact maybe_reseed_gen known urandom _

/-- Run: a generation is recorded. -/
theorem gen_run {actions : List (Action L)} (known : s.mem.gen ≠ none) (ran : run s actions = some v) : v.mem.gen ≠ none := by
  induction actions generalizing s with
  | nil =>
    cases ran
    exact known
  | cons a rest ih =>
    obtain ⟨u,stepped,later⟩ := run_cons.mp ran
    exact ih (gen_step known stepped) later

/-- The poller goes on `n` steps. -/
def polls (n : Nat) : List (Action L) := List.replicate n (.poller ([],[]))

theorem run_polls (n : Nat) (s : Process L) : ∃ v, run s (polls n) = some v := by
  induction n generalizing s with
  | zero => exact ⟨s,rfl⟩
  | succ n ih =>
    have steps : ∃ u, next s (.poller ([],[])) = some u := by
      simp only [next]
      split <;> exact ⟨_,rfl⟩
    obtain ⟨u,stepped⟩ := steps
    obtain ⟨v,ran⟩ := ih u
    exact ⟨v,run_cons.mpr ⟨u,stepped,ran⟩⟩

theorem unchanged_polls (n : Nat) : Unchanged s (polls n) := by
  intro forkgen inside
  cases List.eq_of_mem_replicate inside

/-- Where the process is not settled, it can get to a reseed without another change. -/
theorem unsettled_reseeds (known : s.mem.gen ≠ none) (idle : s.app = none) (unsettled : ¬ Settled s) :
    ∃ actions v, Unchanged s actions ∧ run s actions = some v ∧ reseeds s actions = true := by
  obtain ⟨⟨forkgen,gen,g⟩,app,poller⟩ := s
  simp only at known idle
  subst idle
  obtain ⟨old,rfl⟩ := Option.ne_none_iff_exists'.mp known
  by_cases recorded : _read_gen forkgen = none ∨ some old = _read_gen forkgen
  · have harmful : ¬ Harmless ⟨forkgen,some old,g⟩ poller := fun harmless => unsettled ⟨recorded,harmless⟩
    cases poller with
    | read | done => exact absurd trivial harmful
    | compare read =>
      cases read with
      | none => exact absurd trivial harmful
      | some read =>
        -- An old reading: it is compared, and it is not what is recorded now.
        have differs : read ≠ old := fun same => harmful (congrArg some same.symm)
        obtain ⟨v,ran⟩ := run_polls 3 _
        refine ⟨polls 3,v,unchanged_polls 3,ran,?_⟩
        simp [polls,List.replicate,reseeds,reseeding,next,_maybe_reseed,differs,Point.reseeds]
    | recorded read =>
      obtain ⟨v,ran⟩ := run_polls 2 _
      refine ⟨polls 2,v,unchanged_polls 2,ran,?_⟩
      simp [polls,List.replicate,reseeds,reseeding,next,_maybe_reseed,Point.reseeds]
    | reseed read => exact ⟨polls 1,_,unchanged_polls 1,rfl,rfl⟩
    | record read =>
      -- An old generation is recorded, and the next check of the poller finds the present one.
      simp only [Harmless,not_or] at harmful
      obtain ⟨present,reads⟩ := Option.ne_none_iff_exists'.mp harmful.1
      have differs : present ≠ read := fun same => harmful.2 (reads.trans (congrArg some same))
      obtain ⟨v,ran⟩ := run_polls 6 _
      refine ⟨polls 6,v,unchanged_polls 6,ran,?_⟩
      simp [polls,List.replicate,reseeds,reseeding,next,_maybe_reseed,Point.reseeds,reads,differs]
  · -- The next draw of the application finds another generation than the one recorded.
    obtain ⟨present,reads⟩ := Option.ne_none_iff_exists'.mp (not_or.mp recorded).1
    have differs : present ≠ old := fun same => (not_or.mp recorded).2 (same ▸ reads.symm)
    refine ⟨[.call .random,.app ([],[]),.app ([],[]),.app ([],[]),.app ([],[])],?_⟩
    simp [Unchanged,run,List.foldlM_cons,reseeds,reseeding,next,_maybe_reseed,Point.reseeds,reads,differs]

theorem AfterDraw.idle (drawn : AfterDraw w s) : s.app = none := by
  obtain ⟨_,_,_,_,_,d,_,_,_,_,_,ran⟩ := drawn
  obtain ⟨u,_,later⟩ := run_append.mp ran
  obtain ⟨v,stepped,last⟩ := run_cons.mp later
  cases last
  simp only [next] at stepped
  split at stepped <;> cases stepped
  rfl

theorem AfterDraw.known (drawn : AfterDraw w s) (known : w.mem.gen ≠ none) : s.mem.gen ≠ none := by
  obtain ⟨_,_,_,_,_,_,first,_,stepped,_,_,ran⟩ := drawn
  exact gen_run (gen_step (gen_run known first) stepped) ran

end

/-- Once a wrapped draw that was called since the last change of `forkgen` has returned, nothing reseeds
    and the draws return what they return without the hook, however the threads go on and until
    `forkgen` changes again, if and only if the process is settled. -/
theorem event_keeps_seeding {text : String} {g : Generators L} {s : Process L} (drawn : AfterDraw (_start (some text) g) s) :
    (∀ actions v, Unchanged s actions → run s actions = some v →
      reseeds s actions = false ∧ values s actions = plain s.mem.generators actions) ↔ Settled s := by
  constructor
  · intro keeps
    by_contra unsettled
    obtain ⟨actions,v,same,ran,reseeded⟩ := unsettled_reseeds (drawn.known (by simp [_start,_read_gen])) drawn.idle unsettled
    rw [(keeps actions v same ran).1] at reseeded
    cases reseeded
  · intro settled actions v same ran
    have calm : Calm s := ⟨settled,fun d p inside => by simp [drawn.idle] at inside⟩
    exact calm.run same ran

/-- Generators that count their draws from what they were seeded with. -/
def counting : Libraries where
  Twister := Nat
  Pool := Nat
  Seed := Nat
  Value := Nat
  bytes := List.length
  seed := id
  RAND_add _ pool := pool + 1
  getrandbits _ twister := (twister,twister + 1)
  random twister := (twister,twister + 1)
  RAND_bytes _ pool := (pool,pool + 1)

/-- The hook after a start, with the generation 0. -/
def started : Process counting := _start (some "0") ⟨(0 : Nat),(0 : Nat)⟩

/-- A draw with a reseed: the wrapper reads, compares, finds that a generation is recorded, reseeds and records. -/
def wholeDraw : List (Action counting) := .call .random :: List.replicate 5 (.app ([1],[]))

/-- The generation 1 is recorded, and the poller is here. -/
def forked (poller : Point) : Process counting := ⟨⟨some "1",some "1",⟨(2 : Nat),(1 : Nat)⟩⟩,none,poller⟩

/-- After the first fork, where the poller gets so far before the draw. -/
theorem afterDraw_forked {n : Nat} {poller : Point}
    (ran : run started (.write (some "1") :: (polls n ++ wholeDraw) ++ [.draw .random]) = some (forked poller)) :
    AfterDraw started (forked poller) := by
  obtain ⟨v,stepped,later⟩ := run_cons.mp ran
  refine ⟨[],some "1",started,v,polls n ++ wholeDraw,.random,rfl,by decide,stepped,⟨.random,by simp [wholeDraw]⟩,?_,later⟩
  intro forkgen inside
  simp [wholeDraw,polls] at inside

theorem event_keeps_seeding_first : AfterDraw started (forked .read) ∧ Settled (forked .read) ∧
    ∀ actions v, Unchanged (forked .read) actions → run (forked .read) actions = some v →
      reseeds (forked .read) actions = false ∧ values (forked .read) actions = plain (forked .read).mem.generators actions := by
  have drawn : AfterDraw started (forked .read) := afterDraw_forked (n := 0) rfl
  have settled : Settled (forked .read) := ⟨.inr rfl,trivial⟩
  exact ⟨drawn,settled,(event_keeps_seeding drawn).mpr settled⟩

/-- The poller has compared and is about to reseed, and the application draws. When the application has seeded
    its generator, the poller reseeds it, and the next draw does not return what the seed gives. -/
theorem event_loses_seeding : ∃ (s v : Process counting) (actions : List (Action counting)), AfterDraw started s ∧
    Unchanged s actions ∧ run s actions = some v ∧ reseeds s actions = true ∧
    values s actions ≠ plain s.mem.generators actions := by
  refine ⟨forked (.reseed "1"),_,[.seed (42 : Nat),.poller ([1],[]),.call .random,.app ([],[]),.app ([],[]),.draw .random],
    afterDraw_forked (n := 3) rfl,?_,rfl,rfl,?_⟩
  · simp [Unchanged]
  · show ([1] : List Nat) ≠ [42]
    decide

end Klados.Hook
