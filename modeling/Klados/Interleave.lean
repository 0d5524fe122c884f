import Klados.Effects

/-!
Any number of programs over one state, interleaved call by call. Requests start new
threads at any time, the environment moves the state between calls, and a reboot ends
every thread. `Sound` collects what makes the rules of `Klados.Effects` hold for such a
system; then the invariant holds in every state it reaches and every thread stays safe
(`Sound.reach`). A system can be watched (`Machine.watch`): an auxiliary value follows
the run without changing it.
-/
namespace Klados.Effects

structure Thread (S : Sig) (ε α Req : Type) where
  req : Req
  prog : Prog S ε α

structure Pool (S : Sig) (ε α Req W : Type) where
  world : W
  threads : List (Thread S ε α Req)

/-- What thread `t` is about to call. -/
def Pool.about {S : Sig} {ε α Req W : Type} (pool : Pool S ε α Req W) (t : Nat) : Option S.Op :=
  match pool.threads[t]? with
  | some ⟨_,.call op _⟩ => some op
  | _ => none

/-- Every thread has ended. -/
def Pool.Idle {S : Sig} {ε α Req W : Type} (pool : Pool S ε α Req W) : Prop :=
  ∀ thread ∈ pool.threads, ∃ outcome, thread.prog = Prog.ofOutcome outcome

/-- One move of the system. `C` resolves what a call leaves open, `E` names the moves of
    the environment. -/
inductive Action (Req C E : Type)
  | request (req : Req)
  | call (t : Nat) (choice : C)
  | env (move : E)
  | reboot

/-- How a system runs: `exec` is `none` when the choice does not fit the call. -/
structure Machine (S : Sig) (ε α Req W C E : Type) where
  exec : Nat → (op : S.Op) → C → W → Option (Except ε (S.Res op) × W)
  body : Req → Prog S ε α
  env : E → W → Option W
  reboot : W → W

section
variable {S : Sig} {ε α Req W C E : Type}

namespace Machine

def act (m : Machine S ε α Req W C E) (pool : Pool S ε α Req W) : Action Req C E → Option (Pool S ε α Req W)
  | .request req => some ⟨pool.world,pool.threads ++ [⟨req,m.body req⟩]⟩
  | .call t choice =>
    match pool.threads[t]? with
    | some ⟨req,.call op next⟩ =>
      (m.exec t op choice pool.world).map fun (outcome,world) => ⟨world,pool.threads.set t ⟨req,next outcome⟩⟩
    | _ => none
  | .env move => (m.env move pool.world).map fun world => ⟨world,pool.threads⟩
  | .reboot => some ⟨m.reboot pool.world,[]⟩

/-- One allowed action leads from the first state to the second. -/
def Next (m : Machine S ε α Req W C E) (ok : Pool S ε α Req W → Action Req C E → Prop)
    (pool later : Pool S ε α Req W) : Prop :=
  ∃ action, ok pool action ∧ m.act pool action = some later

/-- A run of allowed actions. -/
def Reach (m : Machine S ε α Req W C E) (ok : Pool S ε α Req W → Action Req C E → Prop) :
    Pool S ε α Req W → Pool S ε α Req W → Prop :=
  Relation.ReflTransGen (m.Next ok)

/-- Perform actions in order, as long as they are allowed. -/
def run (m : Machine S ε α Req W C E) (ok : Pool S ε α Req W → Action Req C E → Bool) :
    List (Action Req C E) → Pool S ε α Req W → Option (Pool S ε α Req W)
  | [], pool => some pool
  | action :: rest, pool => if ok pool action then (m.act pool action).bind (m.run ok rest) else none

theorem reach_of_run (m : Machine S ε α Req W C E) {ok : Pool S ε α Req W → Action Req C E → Bool}
    {ok' : Pool S ε α Req W → Action Req C E → Prop} (allows : ∀ pool action, ok pool action → ok' pool action)
    {actions : List (Action Req C E)} {pool later : Pool S ε α Req W} (ran : m.run ok actions pool = some later) :
    m.Reach ok' pool later := by
  induction actions generalizing pool with
  | nil =>
    cases Option.some.inj ran
    exact .refl
  | cons action rest ih =>
    simp only [run] at ran
    split at ran
    · rename_i allowed
      obtain ⟨middle,acted,ran'⟩ := Option.bind_eq_some_iff.mp ran
      exact .head ⟨action,allows pool action allowed,acted⟩ (ih ran')
    · cases ran

theorem Reach.weaken {m : Machine S ε α Req W C E} {ok ok' : Pool S ε α Req W → Action Req C E → Prop}
    (weaker : ∀ pool action, ok pool action → ok' pool action) {pool later : Pool S ε α Req W}
    (reached : m.Reach ok pool later) : m.Reach ok' pool later := by
  refine Relation.ReflTransGen.mono ?_ pool later reached
  rintro middle last ⟨action,allowed,acted⟩
  exact ⟨action,weaker middle action allowed,acted⟩

/-- A run of allowed actions, with the record of what its actions contribute. -/
inductive Recorded {L : Type} (m : Machine S ε α Req W C E) (ok : Pool S ε α Req W → Action Req C E → Prop)
    (label : Pool S ε α Req W → Action Req C E → List L) (pool : Pool S ε α Req W) : List L → Pool S ε α Req W → Prop
  | refl : Recorded m ok label pool [] pool
  | step {labels : List L} {middle later : Pool S ε α Req W} {action : Action Req C E} :
      Recorded m ok label pool labels middle → ok middle action → m.act middle action = some later →
      Recorded m ok label pool (labels ++ label middle action) later

/-- Perform actions in order and record what they contribute. -/
def record {L : Type} (m : Machine S ε α Req W C E) (label : Pool S ε α Req W → Action Req C E → List L) :
    List (Action Req C E) → Pool S ε α Req W → Option (List L × Pool S ε α Req W)
  | [], pool => some ([],pool)
  | action :: rest, pool => (m.act pool action).bind fun middle =>
      (m.record label rest middle).map fun (labels,later) => (label pool action ++ labels,later)

theorem recorded_of_record {L : Type} (m : Machine S ε α Req W C E) {label : Pool S ε α Req W → Action Req C E → List L}
    {actions : List (Action Req C E)} {labels : List L} {pool later : Pool S ε α Req W}
    (ran : m.record label actions pool = some (labels,later)) : m.Recorded (fun _ _ => True) label pool labels later := by
  have onward : ∀ (actions : List (Action Req C E)) {before after : List L} {middle : Pool S ε α Req W},
      m.Recorded (fun _ _ => True) label pool before middle → m.record label actions middle = some (after,later) →
      m.Recorded (fun _ _ => True) label pool (before ++ after) later := by
    intro actions
    induction actions with
    | nil =>
      rintro before after middle so_far ⟨⟩
      rw [List.append_nil]
      exact so_far
    | cons action rest ih =>
      intro before after middle so_far ran
      obtain ⟨next,acted,ran'⟩ := Option.bind_eq_some_iff.mp ran
      obtain ⟨⟨more,last⟩,recorded,same⟩ := Option.map_eq_some_iff.mp ran'
      cases same
      rw [← List.append_assoc]
      exact ih (.step so_far trivial acted) recorded
  exact onward actions .refl ran

/-- A call of thread `t`, however it turns out. -/
def step (m : Machine S ε α Req W C E) (t : Nat) (op : S.Op) (w : W) (outcome : Except ε (S.Res op)) (v : W) : Prop :=
  ∃ choice, m.exec t op choice w = some (outcome,v)

/-- Allowed moves of the environment, any number of them. -/
def drift (m : Machine S ε α Req W C E) (ok : W → E → Prop) : W → W → Prop :=
  Relation.ReflTransGen fun w v => ∃ move, ok w move ∧ m.env move w = some v

/-- What every call, every move and every reboot keeps holds in every state reached. -/
theorem reach_keeps (m : Machine S ε α Req W C E) {ok : Pool S ε α Req W → Action Req C E → Prop} {inv : W → Prop}
    (calls : ∀ (pool : Pool S ε α Req W) t choice op outcome world, ok pool (.call t choice) → inv pool.world →
      m.exec t op choice pool.world = some (outcome,world) → inv world)
    (envs : ∀ (pool : Pool S ε α Req W) move world, ok pool (.env move) → inv pool.world →
      m.env move pool.world = some world → inv world)
    (reboots : ∀ world, inv world → inv (m.reboot world)) {pool later : Pool S ε α Req W} (start : inv pool.world)
    (reached : m.Reach ok pool later) : inv later.world := by
  induction reached with
  | refl => exact start
  | @tail middle last _ next kept =>
    obtain ⟨action,allowed,acted⟩ := next
    cases action with
    | request req =>
      cases Option.some.inj acted
      exact kept
    | call t choice =>
      simp only [Machine.act] at acted
      split at acted
      · obtain ⟨⟨outcome,world⟩,executed,same⟩ := Option.map_eq_some_iff.mp acted
        subst same
        exact calls middle t choice _ outcome world allowed kept executed
      · cases acted
    | env move =>
      obtain ⟨world,moved,same⟩ := Option.map_eq_some_iff.mp acted
      subst same
      exact envs middle move world allowed kept moved
    | reboot =>
      cases Option.some.inj acted
      exact reboots _ kept

/-- The system with an auxiliary value that sees every call, with the states before and after
    it, and every move. -/
def watch {Γ : Type} (m : Machine S ε α Req W C E)
    (sees : Nat → (op : S.Op) → Except ε (S.Res op) → W → W → Γ → Γ) (moves : E → W → Γ → Γ) (reboots : Γ → Γ) :
    Machine S ε α Req (W × Γ) C E where
  exec t op choice := fun (world,seen) =>
    (m.exec t op choice world).map fun (outcome,after) => (outcome,(after,sees t op outcome world after seen))
  body := m.body
  env move := fun (world,seen) => (m.env move world).map fun after => (after,moves move world seen)
  reboot := fun (world,seen) => (m.reboot world,reboots seen)

end Machine

/-- What makes the rules hold for the system under the allowed actions. `unborn t` is
    what thread `t` starts from. -/
structure Sound (m : Machine S ε α Req W C E) (ok : Pool S ε α Req W → Action Req C E → Prop) (R : Rules S ε W)
    (unborn : Nat → W → Prop) (Q : Nat → Req → Except ε α → W → Prop) : Prop where
  lawful : R.Lawful
  calls : ∀ (pool : Pool S ε α Req W) t choice req op next outcome world,
    pool.threads[t]? = some ⟨req,.call op next⟩ → ok pool (.call t choice) → R.inv pool.world →
    m.exec t op choice pool.world = some (outcome,world) → R.step t op pool.world outcome world
  others : ∀ t t' op w v, t ≠ t' → R.inv w → R.inv v → R.guar t' op w v → R.rely t w v
  envs : ∀ (pool : Pool S ε α Req W) move world, ok pool (.env move) → R.inv pool.world →
    m.env move pool.world = some world → R.inv world ∧ ∀ t, R.rely t pool.world world
  reboots : ∀ pool : Pool S ε α Req W, ok pool .reboot → R.inv pool.world →
    R.inv (m.reboot pool.world) ∧ ∀ t, unborn t (m.reboot pool.world)
  young : ∀ t, Stable R t (unborn t)
  bodies : ∀ (pool : Pool S ε α Req W) req, ok pool (.request req) →
    Triple R pool.threads.length (unborn pool.threads.length) (m.body req) (Q pool.threads.length req)

/-- A state in which the invariant holds, every thread is safe and the next threads
    find what they start from. -/
structure Healthy (R : Rules S ε W) (unborn : Nat → W → Prop) (Q : Nat → Req → Except ε α → W → Prop)
    (pool : Pool S ε α Req W) : Prop where
  inv : R.inv pool.world
  safe : ∀ t thread, pool.threads[t]? = some thread → Safe R t thread.prog (Q t thread.req) pool.world
  next : ∀ t, pool.threads.length ≤ t → unborn t pool.world

variable {m : Machine S ε α Req W C E} {ok : Pool S ε α Req W → Action Req C E → Prop} {R : Rules S ε W}
  {unborn : Nat → W → Prop} {Q : Nat → Req → Except ε α → W → Prop} {pool : Pool S ε α Req W}

/-- A thread that has ended has established its postcondition. -/
theorem Healthy.ended (healthy : Healthy R unborn Q pool) (lawful : R.Lawful) {t : Nat} {req : Req}
    {outcome : Except ε α} (found : pool.threads[t]? = some ⟨req,Prog.ofOutcome outcome⟩) :
    Q t req outcome pool.world := by
  have safe := healthy.safe t _ found
  cases outcome with
  | ok value => exact safe _ (lawful.refl t _) healthy.inv
  | error error => exact safe _ (lawful.refl t _) healthy.inv

theorem Healthy.request (sound : Sound m ok R unborn Q) {pool : Pool S ε α Req W}
    (healthy : Healthy R unborn Q pool) {req : Req} (allowed : ok pool (.request req)) :
    Healthy R unborn Q ⟨pool.world,pool.threads ++ [⟨req,m.body req⟩]⟩ := by
  refine ⟨healthy.inv,?_,?_⟩
  · intro t thread found
    rcases Nat.lt_or_ge t pool.threads.length with old | new
    · exact healthy.safe t thread (by simpa [List.getElem?_append_left old] using found)
    · rw [List.getElem?_append_right new] at found
      obtain ⟨inside,same⟩ := List.getElem?_eq_some_iff.mp found
      have first : t - pool.threads.length = 0 := by simpa using inside
      have started : thread = ⟨req,m.body req⟩ := by simpa [first] using same.symm
      obtain rfl : t = pool.threads.length := by omega
      subst started
      exact sound.bodies pool req allowed pool.world healthy.inv (healthy.next _ new)
  · intro t new
    exact healthy.next t (by simp at new; omega)

theorem Healthy.call (sound : Sound m ok R unborn Q) {pool : Pool S ε α Req W} (healthy : Healthy R unborn Q pool)
    {t : Nat} {choice : C} {req : Req} {op : S.Op} {next : Except ε (S.Res op) → Prog S ε α}
    {outcome : Except ε (S.Res op)} {world : W} (found : pool.threads[t]? = some ⟨req,.call op next⟩)
    (allowed : ok pool (.call t choice)) (executed : m.exec t op choice pool.world = some (outcome,world)) :
    Healthy R unborn Q ⟨world,pool.threads.set t ⟨req,next outcome⟩⟩ := by
  have step := sound.calls pool t choice req op next outcome world found allowed healthy.inv executed
  have before := healthy.safe t _ found pool.world (sound.lawful.refl t pool.world) healthy.inv
  obtain ⟨kept,guaranteed,rest⟩ := before outcome world step
  have relied : ∀ t', t' ≠ t → R.rely t' pool.world world :=
    fun t' other => sound.others t' t op pool.world world other healthy.inv kept guaranteed
  have inside : t < pool.threads.length := (List.getElem?_eq_some_iff.mp found).1
  refine ⟨kept,?_,?_⟩
  · intro t' thread found'
    by_cases same : t' = t
    · subst same
      simp only [List.getElem?_set_self inside] at found'
      cases Option.some.inj found'
      exact rest
    · simp only [List.getElem?_set_ne (Ne.symm same)] at found'
      exact (healthy.safe t' thread found').later sound.lawful (relied t' same)
  · intro t' new
    simp only [List.length_set] at new
    exact sound.young t' pool.world world healthy.inv kept (relied t' (by omega)) (healthy.next t' new)

theorem Healthy.env (sound : Sound m ok R unborn Q) {pool : Pool S ε α Req W} (healthy : Healthy R unborn Q pool)
    {move : E} {world : W} (allowed : ok pool (.env move)) (moved : m.env move pool.world = some world) :
    Healthy R unborn Q ⟨world,pool.threads⟩ := by
  obtain ⟨kept,relied⟩ := sound.envs pool move world allowed healthy.inv moved
  refine ⟨kept,?_,?_⟩
  · intro t thread found
    exact (healthy.safe t thread found).later sound.lawful (relied t)
  · intro t new
    exact sound.young t pool.world world healthy.inv kept (relied t) (healthy.next t new)

theorem Healthy.act (sound : Sound m ok R unborn Q) {pool later : Pool S ε α Req W} (healthy : Healthy R unborn Q pool)
    {action : Action Req C E} (allowed : ok pool action) (acted : m.act pool action = some later) :
    Healthy R unborn Q later := by
  cases action with
  | request req =>
    cases Option.some.inj acted
    exact healthy.request sound allowed
  | call t choice =>
    simp only [Machine.act] at acted
    split at acted
    · rename_i req op next found
      obtain ⟨⟨outcome,world⟩,executed,same⟩ := Option.map_eq_some_iff.mp acted
      subst same
      exact healthy.call sound found allowed executed
    · cases acted
  | env move =>
    obtain ⟨world,moved,same⟩ := Option.map_eq_some_iff.mp acted
    subst same
    exact healthy.env sound allowed moved
  | reboot =>
    cases Option.some.inj acted
    obtain ⟨kept,fresh⟩ := sound.reboots pool allowed healthy.inv
    refine ⟨kept,?_,fun t _ => fresh t⟩
    intro t thread found
    simp at found

/-- Every state that a sound system reaches by allowed actions is healthy. -/
theorem Sound.reach (sound : Sound m ok R unborn Q) {pool later : Pool S ε α Req W}
    (healthy : Healthy R unborn Q pool) (reached : m.Reach ok pool later) : Healthy R unborn Q later := by
  induction reached with
  | refl => exact healthy
  | tail _ next ih =>
    obtain ⟨action,allowed,acted⟩ := next
    exact ih.act sound allowed acted

theorem Sound.and {R' : Rules S ε W} {unborn' : Nat → W → Prop} {Q' : Nat → Req → Except ε α → W → Prop}
    (sound : Sound m ok R unborn Q) (sound' : Sound m ok R' unborn' Q') :
    Sound m ok (R.and R') (fun t w => unborn t w ∧ unborn' t w)
      (fun t req outcome w => Q t req outcome w ∧ Q' t req outcome w) where
  lawful := sound.lawful.and sound'.lawful
  calls pool t choice req op next outcome world found allowed inv ran :=
    ⟨sound.calls pool t choice req op next outcome world found allowed inv.1 ran,
      sound'.calls pool t choice req op next outcome world found allowed inv.2 ran⟩
  others t t' op w v other inv inv' guaranteed :=
    ⟨sound.others t t' op w v other inv.1 inv'.1 guaranteed.1,sound'.others t t' op w v other inv.2 inv'.2 guaranteed.2⟩
  envs pool move world allowed inv moved := by
    obtain ⟨kept,relied⟩ := sound.envs pool move world allowed inv.1 moved
    obtain ⟨kept',relied'⟩ := sound'.envs pool move world allowed inv.2 moved
    exact ⟨⟨kept,kept'⟩,fun t => ⟨relied t,relied' t⟩⟩
  reboots pool allowed inv := by
    obtain ⟨kept,fresh⟩ := sound.reboots pool allowed inv.1
    obtain ⟨kept',fresh'⟩ := sound'.reboots pool allowed inv.2
    exact ⟨⟨kept,kept'⟩,fun t => ⟨fresh t,fresh' t⟩⟩
  young t w v inv inv' relied young :=
    ⟨sound.young t w v inv.1 inv'.1 relied.1 young.1,sound'.young t w v inv.2 inv'.2 relied.2 young.2⟩
  bodies pool req allowed w inv young :=
    (sound.bodies pool req allowed w inv.1 young.1).and (sound'.bodies pool req allowed w inv.2 young.2)

/-- What every allowed step keeps, where the rules may be used for each step. -/
theorem Sound.keeps (sound : Sound m ok R unborn Q) {J : W → Prop}
    (calls : ∀ (pool : Pool S ε α Req W) t choice op outcome v, ok pool (.call t choice) → pool.about t = some op →
      Healthy R unborn Q pool → R.inv v → R.guar t op pool.world v → m.exec t op choice pool.world = some (outcome,v) →
      J pool.world → J v)
    (envs : ∀ (pool : Pool S ε α Req W) move v, ok pool (.env move) → Healthy R unborn Q pool →
      (∀ t, R.rely t pool.world v) → m.env move pool.world = some v → J pool.world → J v)
    (reboots : ∀ pool : Pool S ε α Req W, ok pool .reboot → Healthy R unborn Q pool → J pool.world →
      J (m.reboot pool.world))
    {pool later : Pool S ε α Req W} (healthy : Healthy R unborn Q pool) (start : J pool.world)
    (reached : m.Reach ok pool later) : Healthy R unborn Q later ∧ J later.world := by
  induction reached with
  | refl => exact ⟨healthy,start⟩
  | @tail middle last _ next ih =>
    obtain ⟨well,kept⟩ := ih
    obtain ⟨action,allowed,acted⟩ := next
    refine ⟨well.act sound allowed acted,?_⟩
    cases action with
    | request req =>
      cases Option.some.inj acted
      exact kept
    | call t choice =>
      simp only [Machine.act] at acted
      split at acted
      · rename_i req op next found
        obtain ⟨⟨outcome,v⟩,executed,same⟩ := Option.map_eq_some_iff.mp acted
        subst same
        have step := sound.calls middle t choice req op next outcome v found allowed well.inv executed
        have before := well.safe t _ found middle.world (sound.lawful.refl t middle.world) well.inv
        obtain ⟨inv,guaranteed,_⟩ := before outcome v step
        exact calls middle t choice op outcome v allowed (by simp [Pool.about,found]) well inv guaranteed executed kept
      · cases acted
    | env move =>
      obtain ⟨v,moved,same⟩ := Option.map_eq_some_iff.mp acted
      subst same
      exact envs middle move v allowed well (sound.envs middle move v allowed well.inv moved).2 moved kept
    | reboot =>
      cases Option.some.inj acted
      exact reboots middle allowed well kept

/-- What every allowed step keeps about the state and the threads. -/
theorem Sound.induct (sound : Sound m ok R unborn Q) {J : Pool S ε α Req W → Prop}
    (step : ∀ (pool : Pool S ε α Req W) action later, ok pool action → m.act pool action = some later →
      Healthy R unborn Q pool → Healthy R unborn Q later →
      (∀ t choice op, action = .call t choice → pool.about t = some op → R.guar t op pool.world later.world) →
      J pool → J later)
    {pool later : Pool S ε α Req W} (healthy : Healthy R unborn Q pool) (start : J pool)
    (reached : m.Reach ok pool later) : Healthy R unborn Q later ∧ J later := by
  induction reached with
  | refl => exact ⟨healthy,start⟩
  | @tail middle last _ next ih =>
    obtain ⟨well,kept⟩ := ih
    obtain ⟨action,allowed,acted⟩ := next
    have well' := well.act sound allowed acted
    refine ⟨well',step middle action last allowed acted well well' ?_ kept⟩
    rintro t choice op rfl about
    simp only [Machine.act] at acted
    split at acted
    · rename_i req op' next found
      obtain ⟨⟨outcome,v⟩,executed,same⟩ := Option.map_eq_some_iff.mp acted
      subst same
      obtain rfl : op' = op := by simpa [Pool.about,found] using about
      have called := sound.calls middle t choice req op' next outcome v found allowed well.inv executed
      have before := well.safe t _ found middle.world (sound.lawful.refl t middle.world) well.inv
      exact (before outcome v called).2.1
    · cases acted

/-- What every call, every move and every reboot does to the state, a run does. -/
theorem Sound.tracks (sound : Sound m ok R unborn Q) {G : W → W → Prop} (refl : ∀ w, G w w)
    (trans : ∀ u v w, G u v → G v w → G u w) (calls : ∀ t op w v, R.inv w → R.inv v → R.guar t op w v → G w v)
    (envs : ∀ t w v, R.inv w → R.rely t w v → G w v) (reboots : ∀ w, R.inv w → G w (m.reboot w))
    {pool later : Pool S ε α Req W} (healthy : Healthy R unborn Q pool) (reached : m.Reach ok pool later) :
    G pool.world later.world := by
  refine (sound.keeps (J := G pool.world) ?_ ?_ ?_ healthy (refl _) reached).2
  · intro middle t choice op outcome v _ _ well inv' guaranteed _ before
    exact trans _ _ _ before (calls t op _ _ well.inv inv' guaranteed)
  · intro middle move v _ well relied _ before
    exact trans _ _ _ before (envs 0 _ _ well.inv (relied 0))
  · exact fun middle _ well before => trans _ _ _ before (reboots _ well.inv)

/-- Rules that only say what is called. -/
def Rules.calling (step : Nat → (op : S.Op) → W → Except ε (S.Res op) → W → Prop) (p : S.Op → Prop) : Rules S ε W where
  step := step
  inv _ := True
  rely _ _ _ := True
  guar _ op _ _ := p op

/-- When every request calls such operations only, every thread of every run does. -/
theorem Sound.calling {p : S.Op → Prop} (bodies : ∀ req, (m.body req).Only p) :
    Sound m ok (Rules.calling m.step p) (fun _ _ => True) (fun _ _ _ _ => True) where
  lawful := ⟨fun _ _ => trivial,fun _ {_ _ _} _ _ => trivial⟩
  calls _ _ choice _ _ _ _ _ _ _ _ ran := ⟨choice,ran⟩
  others _ _ _ _ _ _ _ _ _ := trivial
  envs _ _ _ _ _ _ := ⟨trivial,fun _ => trivial⟩
  reboots _ _ _ := ⟨trivial,fun _ => trivial⟩
  young _ := fun _ _ _ _ _ _ => trivial
  bodies _ req _ := by
    refine Triple.only (fun _ _ _ _ _ _ => trivial) ?_ (bodies req)
    intro op called
    exact ⟨fun _ _ _ _ _ _ => ⟨trivial,called,trivial⟩⟩

/-! ## Watched systems -/

/-- A watched state without the auxiliary value. -/
def Pool.unwatched {Γ : Type} (pool : Pool S ε α Req (W × Γ)) : Pool S ε α Req W := ⟨pool.world.1,pool.threads⟩

/-- The rules about the state, for the watched system. -/
def Rules.watch (R : Rules S ε W) (Γ : Type) : Rules S ε (W × Γ) where
  step t op w outcome v := R.step t op w.1 outcome v.1
  inv w := R.inv w.1
  rely t w v := R.rely t w.1 v.1
  guar t op w v := R.guar t op w.1 v.1

theorem Rules.Lawful.watch (lawful : R.Lawful) (Γ : Type) : (R.watch Γ).Lawful :=
  ⟨fun t w => lawful.refl t w.1,fun t {_ _ _} => lawful.trans t⟩

theorem Safe.watch {Γ : Type} {t : Nat} {program : Prog S ε α} {Q : Except ε α → W → Prop} {w : W × Γ}
    (safe : Safe R t program Q w.1) : Safe (R.watch Γ) t program (fun outcome w => Q outcome w.1) w := by
  induction program generalizing w with
  | ret value => exact fun v relied inv => safe v.1 relied inv
  | raise error => exact fun v relied inv => safe v.1 relied inv
  | call op next ih =>
    intro v relied inv outcome v' step
    obtain ⟨kept,guaranteed,rest⟩ := safe v.1 relied inv outcome v'.1 step
    exact ⟨kept,guaranteed,ih outcome rest⟩

/-- Watching changes nothing. -/
theorem Sound.watch (sound : Sound m (fun _ _ => True) R unborn Q) {Γ : Type}
    {sees : Nat → (op : S.Op) → Except ε (S.Res op) → W → W → Γ → Γ} {moves : E → W → Γ → Γ} {reboots : Γ → Γ}
    {ok : Pool S ε α Req (W × Γ) → Action Req C E → Prop} :
    Sound (m.watch sees moves reboots) ok (R.watch Γ) (fun t w => unborn t w.1) (fun t req outcome w => Q t req outcome w.1) where
  lawful := sound.lawful.watch Γ
  calls pool t choice req op next outcome world found _ inv ran := by
    obtain ⟨⟨outcome',v⟩,ran',same⟩ := Option.map_eq_some_iff.mp ran
    cases same
    exact sound.calls pool.unwatched t choice req op next outcome v found trivial inv ran'
  others t t' op w v := sound.others t t' op w.1 v.1
  envs pool move world _ inv moved := by
    obtain ⟨v,moved',same⟩ := Option.map_eq_some_iff.mp moved
    subst same
    exact sound.envs pool.unwatched move v trivial inv moved'
  reboots pool _ inv := sound.reboots pool.unwatched trivial inv
  young t w v := sound.young t w.1 v.1
  bodies pool req _ w inv young := (sound.bodies pool.unwatched req trivial w.1 inv young).watch

/-- What every allowed step keeps about the state and the auxiliary value, where the rules of
    the system itself may be used for each step. -/
theorem Sound.watched (sound : Sound m (fun _ _ => True) R unborn Q) {Γ : Type}
    {sees : Nat → (op : S.Op) → Except ε (S.Res op) → W → W → Γ → Γ} {moves : E → W → Γ → Γ} {reboots : Γ → Γ}
    {ok : Pool S ε α Req (W × Γ) → Action Req C E → Prop} {J : W → Γ → Prop}
    (calls : ∀ (pool : Pool S ε α Req (W × Γ)) t choice op outcome v, ok pool (.call t choice) →
      pool.about t = some op → R.inv pool.world.1 →
      R.guar t op pool.world.1 v → m.exec t op choice pool.world.1 = some (outcome,v) → J pool.world.1 pool.world.2 →
      J v (sees t op outcome pool.world.1 v pool.world.2))
    (envs : ∀ (pool : Pool S ε α Req (W × Γ)) move v, ok pool (.env move) → R.inv pool.world.1 →
      m.env move pool.world.1 = some v → J pool.world.1 pool.world.2 → J v (moves move pool.world.1 pool.world.2))
    (restarts : ∀ pool : Pool S ε α Req (W × Γ), ok pool .reboot → R.inv pool.world.1 → J pool.world.1 pool.world.2 →
      J (m.reboot pool.world.1) (reboots pool.world.2))
    {pool later : Pool S ε α Req (W × Γ)}
    (healthy : Healthy (R.watch Γ) (fun t w => unborn t w.1) (fun t req outcome w => Q t req outcome w.1) pool)
    (start : J pool.world.1 pool.world.2) (reached : (m.watch sees moves reboots).Reach ok pool later) :
    J later.world.1 later.world.2 := by
  refine (sound.watch.keeps (J := fun w => J w.1 w.2) ?_ ?_ ?_ healthy start reached).2
  · intro pool t choice op outcome v allowed about well _ guaranteed ran kept
    obtain ⟨⟨outcome',u⟩,ran',same⟩ := Option.map_eq_some_iff.mp ran
    cases same
    exact calls pool t choice op outcome u allowed about well.inv guaranteed ran' kept
  · intro pool move v allowed well _ moved kept
    obtain ⟨u,moved',same⟩ := Option.map_eq_some_iff.mp moved
    subst same
    exact envs pool move u allowed well.inv moved' kept
  · exact fun pool allowed well kept => restarts pool allowed well.inv kept

end
end Klados.Effects
