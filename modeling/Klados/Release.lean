import Klados.Gate

/-!
The release of the workload. Whatever arrives at the agent, and whichever of its writes fail,
the generation is bumped between two releases of the workload, so it is strictly greater at a
release than at every stop and every release before (`release_safe`). The stops, the releases
and the bumps are recorded beside the guest; what the agent has yet to do for the current
connection is held to the same order (`Rising`).
-/
namespace Klados.Agent
open Klados.Effects
open Prog (Only)

variable {α β : Type} {P : Platform}

/-- A stop or a release of the workload, with the generation at that moment, or a bump, with
    the new generation. -/
inductive Event
  | stop (gen : Nat)
  | release (gen : Nat)
  | bump (gen : Nat)
  deriving DecidableEq

def Event.gen : Event → Nat
  | .stop gen | .release gen | .bump gen => gen

def Event.isBump : Event → Bool
  | .bump _ => true
  | _ => false

def Event.isRelease : Event → Bool
  | .release _ => true
  | _ => false

/-- The latest event comes first. -/
abbrev History := List Event

/-- What a call adds to the history. -/
def events (g : Guest) : (op : Op) → Except Exn op.Res → History
  | .sigstop, .ok _ => [.stop g.forkgen]
  | .sigcont, .ok _ => [.release g.forkgen]
  | .writeGen gen, .ok _ => [.bump gen]
  | _, _ => []

/-- What a turn of the agent adds to the history. -/
def Guest.events (g : Guest) (choice : Choice) : History :=
  match g.current with
  | some (_,.call op _) =>
    match exec g op choice with
    | some (outcome,_) => Agent.events g op outcome
    | none => []
  | _ => []

/-- The turn is not a read of the generation that fails. -/
def Guest.reads (g : Guest) : Choice → Bool
  | .fail _ =>
    match g.current with
    | some (_,.call .readGen _) => false
    | _ => true
  | _ => true

/-- A connection arrives, the agent makes a turn, or the workload moves. -/
inductive Serves (P : Platform) : Guest × History → Guest × History → Prop
  | arrive {g : Guest} {log : History} (line : Line) : Serves P (g,log) (push g line,log)
  | turn {g g' : Guest} {log : History} {choice : Choice} : g.turn P choice = some g' → g.reads choice = true →
      Serves P (g,log) (g',g.events choice ++ log)
  | workload {g g' : Guest} {log : History} {move : WorkMove} : g.workload move = some g' → Serves P (g,log) (g',log)

/-- Behind a release there is a bump, with no other release in between. -/
def Bumped (log : History) : Prop :=
  ∃ since gen before, log = since ++ .bump gen :: before ∧ ∀ event ∈ since, event.isRelease = false

/-- The generation at every release is greater than at every earlier stop or release, and was
    bumped since the previous release; a bump makes it greater than it ever was. -/
structure Released (log : History) : Prop where
  rises : ∀ later gen earlier, log = later ++ .release gen :: earlier →
    ∀ event ∈ earlier, event.isBump = false → event.gen < gen
  bumped : ∀ later gen earlier, log = later ++ .release gen :: earlier → Bumped earlier
  grows : ∀ later gen earlier, log = later ++ .bump gen :: earlier → ∀ event ∈ earlier, event.gen < gen

/-- The generation that a call leaves, and whether the workload may be released after it. -/
def afterwards : (op : Op) → Except Exn op.Res → Nat → Bool → Nat × Bool
  | .writeGen new, .ok _, _, _ => (new,true)
  | .sigcont, .ok _, gen, _ => (gen,false)
  | .sigstop, .ok _, gen, _ => (gen,false)
  | _, _, gen, fresh => (gen,fresh)

/-- A read of the generation succeeds. -/
def Answers (gen : Nat) : (op : Op) → Except Exn op.Res → Prop
  | .readGen, outcome => outcome = .ok gen
  | _, _ => True

/-- The program releases the workload only after a bump that comes after the last stop or
    release, and every bump raises the generation. -/
def Rising : AProg α → Nat → Bool → Prop
  | .ret _, _, _ => True
  | .raise _, _, _ => True
  | .call op next, gen, fresh =>
    (op = Op.sigcont → fresh = true) ∧ (∀ new, op = Op.writeGen new → gen < new) ∧
      ∀ outcome, Answers gen op outcome →
        Rising (next outcome) (afterwards op outcome gen fresh).1 (afterwards op outcome gen fresh).2

/-- The program neither bumps the generation nor releases the workload. -/
abbrev Quiet (program : AProg α) : Prop := program.Only fun op : Op => op.isSigcont = false ∧ op.isBump = false

theorem Quiet.rising {program : AProg α} (quiet : Quiet program) (gen : Nat) (fresh : Bool) : Rising program gen fresh := by
  induction program generalizing gen fresh with
  | ret value => trivial
  | raise error => trivial
  | call op next ih =>
    obtain ⟨⟨notCont,notBump⟩,rest⟩ := quiet
    refine ⟨?_,?_,fun outcome _ => ih outcome (rest outcome) _ _⟩
    · rintro rfl
      cases notCont
    · rintro new rfl
      cases notBump

theorem Rising.bind {program : AProg α} {rest : α → AProg β} (quiet : Quiet program)
    (onward : ∀ value gen fresh, Rising (rest value) gen fresh) (gen : Nat) (fresh : Bool) :
    Rising (program >>= rest) gen fresh := by
  induction program generalizing gen fresh with
  | ret value => exact onward value gen fresh
  | raise error => trivial
  | call op next ih =>
    obtain ⟨⟨notCont,notBump⟩,rest'⟩ := quiet
    refine ⟨?_,?_,fun outcome _ => ih outcome (rest' outcome) _ _⟩
    · rintro rfl
      cases notCont
    · rintro new rfl
      cases notBump

theorem Rising.catching {program : AProg α} {handler : Exn → AProg α} {gen : Nat} {fresh : Bool}
    (rising : Rising program gen fresh) (handled : ∀ error gen fresh, Rising (handler error) gen fresh) :
    Rising (tryCatch program handler) gen fresh := by
  induction program generalizing gen fresh with
  | ret value => trivial
  | raise error => exact handled error gen fresh
  | call op next ih => exact ⟨rising.1,rising.2.1,fun outcome answers => ih outcome (rising.2.2 outcome answers)⟩

theorem Spares.quiet {program : AProg α} (spares : Spares program) : Quiet program := by
  refine Only.mono ?_ spares
  intro op other
  cases op <;> first | exact ⟨rfl,rfl⟩ | cases other

theorem quiet_perform {op : Op} (notCont : op.isSigcont = false) (notBump : op.isBump = false) : Quiet (perform op) :=
  Only.perform ⟨notCont,notBump⟩

theorem quiet_write_branch (msg ctx : Json) : Quiet (write_branch msg ctx) :=
  Only.bind (quiet_perform rfl rfl) fun _ => Only.catching (quiet_perform rfl rfl) fun _ => trivial

theorem quiet_set_clock (msg : Json) : Quiet (set_clock P msg) := by
  unfold set_clock
  split
  · trivial
  · refine Only.bind (Only.ofOutcome _) fun epoch => Only.bind (quiet_perform rfl rfl) fun done => ?_
    split
    · exact Only.bind (quiet_perform rfl rfl) fun _ => trivial
    · trivial

/-- The generation is read, raised by one, and the workload released. -/
theorem rising_release (reply : Nat → Json) (gen : Nat) (fresh : Bool) :
    Rising (do
      let gen ← bump_gen
      perform .sigcont
      perform .print
      pure (reply gen)) gen fresh := by
  refine ⟨by simp,by simp,?_⟩
  rintro outcome rfl
  refine ⟨by simp,?_,?_⟩
  · rintro new ⟨⟩
    exact Nat.lt_succ_self gen
  intro outcome _
  cases outcome with
  | error error => trivial
  | ok value =>
    refine ⟨fun _ => rfl,by simp,?_⟩
    intro outcome _
    cases outcome with
    | error error => trivial
    | ok value =>
      have printing : Quiet (perform .print >>= fun _ => pure (reply (gen + 1))) :=
        Only.bind (quiet_perform rfl rfl) fun _ => trivial
      exact printing.rising _ _

theorem rising_forked (msg : Json) (gen : Nat) (fresh : Bool) : Rising (forked P msg) gen fresh :=
  Rising.bind (Only.when (quiet_write_branch _ _)) (fun _ =>
    Rising.bind (quiet_set_clock msg) fun _ => rising_release _) gen fresh

theorem rising_serve (line : Line) (gen : Nat) (fresh : Bool) : Rising (serve P line) gen fresh := by
  refine Rising.catching ?_ fun _ _ _ => trivial
  cases line with
  | empty => trivial
  | malformed error => trivial
  | json msg =>
    by_cases other : (Line.json msg).hasType "FORKED" = false
    · exact (tame_handle other).spares.quiet.rising gen fresh
    · have asked : msg.isDict && (field msg "type").isStr "FORKED" := by simpa [Line.hasType] using other
      simp only [Bool.and_eq_true] at asked
      have type := isStr_eq asked.2
      have same : handle P msg = forked P msg := by simp [handle,asked.1,type,Json.isStr]
      show Rising (handle P msg) gen fresh
      rw [same]
      exact rising_forked msg gen fresh

/-! ## What every turn keeps -/

/-- The workload may be released: there is a bump behind the last stop and the last release. -/
structure Fresh (log : History) (gen : Nat) : Prop where
  below : ∀ event ∈ log, event.isBump = false → event.gen < gen
  bumped : Bumped log

/-- The invariant of the agent. -/
structure Keeps (g : Guest) (log : History) : Prop where
  gens : ∀ event ∈ log, event.gen ≤ g.forkgen
  released : Released log
  current : ∀ conn program, g.current = some (conn,program) →
    ∃ fresh, Rising program g.forkgen fresh ∧ (fresh = true → Fresh log g.forkgen)

theorem Released.cons {log : History} {event : Event} (released : Released log)
    (fresh : ∀ gen, event = .release gen → Fresh log gen)
    (greater : ∀ gen, event = .bump gen → ∀ earlier ∈ log, earlier.gen < gen) : Released (event :: log) := by
  refine ⟨?_,?_,?_⟩
  · intro later gen earlier split
    cases later with
    | nil =>
      cases split
      exact (fresh gen rfl).below
    | cons first rest => exact released.rises rest gen earlier (List.cons.inj split).2
  · intro later gen earlier split
    cases later with
    | nil =>
      cases split
      exact (fresh gen rfl).bumped
    | cons first rest => exact released.bumped rest gen earlier (List.cons.inj split).2
  · intro later gen earlier split
    cases later with
    | nil =>
      cases split
      exact greater gen rfl
    | cons first rest => exact released.grows rest gen earlier (List.cons.inj split).2

section
variable {g g' : Guest} {log : History} {choice : Choice} {op : Op} {outcome : Except Exn op.Res}

/-- A call of a rising program keeps the history in order. -/
theorem Keeps.call {next : Except Exn op.Res → AProg Json} {fresh : Bool} (conn : Nat) (keeps : Keeps g log)
    (ran : exec g op choice = some (outcome,g')) (rising : Rising (.call op next : AProg Json) g.forkgen fresh)
    (free : fresh = true → Fresh log g.forkgen) (answers : Answers g.forkgen op outcome) :
    g.forkgen ≤ g'.forkgen ∧ Keeps { g' with current := some (conn,next outcome) } (events g op outcome ++ log) := by
  obtain ⟨mayRelease,raises,rest⟩ := rising
  have onward := rest outcome answers
  -- a call that is not recorded leaves the generation and the history
  have unrecorded : g'.forkgen = g.forkgen → events g op outcome = [] → afterwards op outcome g.forkgen fresh = (g.forkgen,fresh) →
      g.forkgen ≤ g'.forkgen ∧ Keeps { g' with current := some (conn,next outcome) } (events g op outcome ++ log) := by
    intro same silent unchanged
    rw [unchanged] at onward
    rw [silent,List.nil_append]
    refine ⟨same ▸ Nat.le_refl _,?_,keeps.released,?_⟩
    · simpa only [same] using keeps.gens
    · rintro _ _ ⟨⟩
      exact ⟨fresh,by simpa only [same] using onward,by simpa only [same] using free⟩
  cases op with
  | sigstop =>
    cases choice <;> cases ran
    refine ⟨Nat.le_refl _,?_,keeps.released.cons (by simp) (by simp),?_⟩
    · intro event member
      rcases List.mem_cons.mp member with first | old
      · exact first ▸ Nat.le_refl _
      · exact keeps.gens event old
    · rintro _ _ ⟨⟩
      exact ⟨false,onward,by simp⟩
  | sigcont =>
    cases choice <;> cases ran
    refine ⟨Nat.le_refl _,?_,keeps.released.cons ?_ (by simp),?_⟩
    · intro event member
      rcases List.mem_cons.mp member with first | old
      · exact first ▸ Nat.le_refl _
      · exact keeps.gens event old
    · rintro _ ⟨⟩
      exact free (mayRelease rfl)
    · rintro _ _ ⟨⟩
      exact ⟨false,onward,by simp⟩
  | writeGen new =>
    cases choice <;> cases ran
    · have greater : g.forkgen < new := raises new rfl
      have above : ∀ event ∈ log, event.gen < new := fun event old => Nat.lt_of_le_of_lt (keeps.gens event old) greater
      refine ⟨Nat.le_of_lt greater,?_,keeps.released.cons (by simp) ?_,?_⟩
      · intro event member
        rcases List.mem_cons.mp member with first | old
        · exact first ▸ Nat.le_refl _
        · exact Nat.le_of_lt (above event old)
      · rintro _ ⟨⟩
        exact above
      · rintro _ _ ⟨⟩
        refine ⟨true,onward,fun _ => ⟨?_,⟨[],new,log,rfl,by simp⟩⟩⟩
        intro event member mark
        rcases List.mem_cons.mp member with first | old
        · subst first
          cases mark
        · exact above event old
    · exact unrecorded rfl rfl rfl
  | writeBranch | writeDataBranch | setRealtime | time | readGen | sync | print | workPid | inspect =>
    refine unrecorded ?_ rfl rfl
    cases choice <;> cases ran <;> rfl

theorem Keeps.turn (keeps : Keeps g log) (turned : g.turn P choice = some g') (reads : g.reads choice = true) :
    g.forkgen ≤ g'.forkgen ∧ Keeps g' (g.events choice ++ log) := by
  have silent : ∀ {program : Option (Nat × AProg Json)}, g.current = program →
      (∀ conn op next, program ≠ some (conn,.call op next)) → g.events choice = [] := by
    intro program same other
    unfold Guest.events
    split
    · rename_i conn op next busy
      exact absurd (same.symm.trans busy) (other conn op next)
    · rfl
  have turns := Guest.turns_of_turn turned
  cases turns with
  | @accept conn line rest up idle waiting =>
    rw [silent idle (by simp)]
    refine ⟨Nat.le_refl _,keeps.gens,keeps.released,?_⟩
    rintro _ _ ⟨⟩
    exact ⟨false,rising_serve line _ _,by simp⟩
  | reply busy =>
    rw [silent busy (by simp)]
    exact ⟨Nat.le_refl _,keeps.gens,keeps.released,by simp⟩
  | drop busy =>
    rw [silent busy (by simp)]
    exact ⟨Nat.le_refl _,keeps.gens,keeps.released,by simp⟩
  | @call conn op next outcome after busy ran =>
    obtain ⟨fresh,rising,free⟩ := keeps.current conn _ busy
    have logged : g.events choice = events g op outcome := by simp [Guest.events,busy,ran]
    rw [logged]
    have answers : Answers g.forkgen op outcome := by
      cases op with
      | readGen =>
        cases choice with
        | ok =>
          cases ran
          rfl
        | fail error => simp [Guest.reads,busy] at reads
        | refused | time | pid | answer => cases ran
      | writeBranch | writeDataBranch | setRealtime | time | writeGen | sigstop | sync | sigcont | print | workPid
      | inspect => trivial
    have kept := Keeps.call conn keeps ran rising free answers
    exact kept

theorem workload_forkgen {move : WorkMove} (moved : g.workload move = some g') : g'.forkgen = g.forkgen := by
  unfold Guest.workload at moved
  split at moved
  · cases move with
    | run | fork | exitDescendant =>
      cases moved
      rfl
    | exitMain =>
      dsimp only at moved
      split at moved <;> cases moved
      rfl
  · cases moved

/-- Whatever happens next, the history stays in order and the generation does not fall. -/
theorem Keeps.serves (keeps : Keeps g log) {log' : History} (serves : Serves P (g,log) (g',log')) :
    g.forkgen ≤ g'.forkgen ∧ Keeps g' log' := by
  cases serves with
  | arrive line => exact ⟨Nat.le_refl _,keeps.gens,keeps.released,keeps.current⟩
  | turn turned reads => exact keeps.turn turned reads
  | workload moved =>
    have same := workload_forkgen moved
    obtain ⟨_,_,_,current,_,_,_⟩ := workload_same moved
    refine ⟨same ▸ Nat.le_refl _,?_,keeps.released,?_⟩
    · simpa only [same] using keeps.gens
    · simpa only [same,current] using keeps.current

theorem Keeps.run (keeps : Keeps g log) {s : Guest × History}
    (run : Relation.ReflTransGen (Serves P) (g,log) s) : g.forkgen ≤ s.1.forkgen ∧ Keeps s.1 s.2 := by
  induction run with
  | refl => exact ⟨Nat.le_refl _,keeps⟩
  | @tail middle last _ serves ih =>
    obtain ⟨grown,kept⟩ := ih
    obtain ⟨more,kept'⟩ := kept.serves serves
    exact ⟨Nat.le_trans grown more,kept'⟩

end

/-- One call of the agent while it handles a message. -/
def handling (op : Op) (s : Guest × History) (outcome : Except Exn op.Res) (s' : Guest × History) : Prop :=
  ∃ choice after, exec s.1 op choice = some (outcome,after) ∧ s' = (after,events s.1 op outcome ++ s.2)

/-- What happens in the guest beside the agent. -/
def beside (s s' : Guest × History) : Prop :=
  s'.1.forkgen = s.1.forkgen ∧ s'.1.work.stopped = s.1.work.stopped ∧ s'.2 = s.2

/-- A program that has bumped the generation does not raise before it has released the workload. -/
def Backed : AProg α → Bool → Prop
  | .ret _, _ => True
  | .raise _, bumped => bumped = false
  | .call op next, bumped => op ≠ Op.sigstop ∧
      (op = Op.sigcont ∨ ∀ outcome, Backed (next outcome) (bumped || (Op.isBump op && outcome.toBool)))

theorem Backed.bind {program : AProg α} {rest : α → AProg β}
    (first : program.Only fun op : Op => op.isBump = false ∧ op ≠ .sigstop ∧ op ≠ .sigcont)
    (onward : ∀ value, Backed (rest value) false) : Backed (program >>= rest) false := by
  induction program with
  | ret value => exact onward value
  | raise error => rfl
  | call op next ih =>
    obtain ⟨⟨notBump,notStop,_⟩,rest'⟩ := first
    refine ⟨notStop,.inr fun outcome => ?_⟩
    have still : (false || (Op.isBump op && outcome.toBool)) = false := by simp [notBump]
    rw [still]
    exact ih outcome (rest' outcome)

theorem backed_forked (msg : Json) : Backed (forked P msg) false := by
  refine Backed.bind (Only.when ?_) fun _ => Backed.bind ?_ fun clock_set => ?_
  · exact Only.bind (Only.perform (by simp [Op.isBump])) fun _ =>
      Only.catching (Only.perform (by simp [Op.isBump])) fun _ => trivial
  · unfold set_clock
    split
    · trivial
    · refine Only.bind (Only.ofOutcome _) fun epoch => Only.bind (Only.perform (by simp [Op.isBump])) fun done => ?_
      split
      · exact Only.bind (Only.perform (by simp [Op.isBump])) fun _ => trivial
      · trivial
  · -- the read, the write, and then the release
    refine ⟨by simp,.inr fun outcome => ?_⟩
    have write : ∀ cur : Nat, Backed (do
        let gen ← (do
          perform (.writeGen (cur + 1))
          pure (cur + 1))
        perform .sigcont
        perform .print
        pure (Json.obj [("status",.str "READY"),("index",field msg "index"),("gen",.int gen),("clock",clock_set)])) false := by
      intro cur
      refine ⟨by simp,.inr fun outcome => ?_⟩
      cases outcome with
      | ok value => exact ⟨by simp,.inl rfl⟩
      | error error => rfl
    cases outcome with
    | ok cur => exact write cur
    | error error => exact write 0

/-- The history only grows. -/
theorem history_grows {program : AProg α} {s s' : Guest × History} {result : Except Exn α}
    (runs : Runs beside handling program s result s') : s.2 <:+ s'.2 := by
  induction runs with
  | ret moved | raise moved => exact moved.2.2 ▸ List.suffix_refl _
  | call moved step _ ih =>
    obtain ⟨choice,after,_,same⟩ := step
    rw [← moved.2.2]
    refine List.IsSuffix.trans ?_ ih
    rw [same]
    exact List.suffix_append _ _

/-- A handler that is backed and raises without a release has changed neither the generation
    nor the workload. -/
theorem Backed.raised {program : AProg α} {bumped : Bool} {s s' : Guest × History} {result : Except Exn α}
    (backed : Backed program bumped) (runs : Runs beside handling program s result s') {error : Exn}
    (raised : result = .error error) (held : ∀ event ∈ s'.2, event.isRelease = false) {gen : Nat} {stopped : Bool}
    (before : bumped = false → s.1.forkgen = gen) (still : s.1.work.stopped = stopped) :
    s'.1.forkgen = gen ∧ s'.1.work.stopped = stopped := by
  induction runs generalizing bumped with
  | ret moved => cases raised
  | raise moved => exact ⟨moved.1.trans (before backed),moved.2.1.trans still⟩
  | @call w u v x op next outcome result moved step rest ih =>
    obtain ⟨choice,after,ran,same⟩ := step
    obtain ⟨notStop,allowed⟩ := backed
    by_cases cont : op = .sigcont
    · -- the release would be in the history
      subst cont
      have logged : Event.release u.1.forkgen ∈ v.2 := by
        cases choice <;> cases ran
        simp [same,events]
      have clear := held _ ((history_grows rest).subset logged)
      cases clear
    have onward := allowed.resolve_left cont
    refine ih (onward outcome) raised held ?_ ?_
    · intro clear
      rw [Bool.or_eq_false_iff] at clear
      have kept : after.forkgen = u.1.forkgen := by
        cases op with
        | writeGen new =>
          cases choice <;> cases ran
          · cases clear.2
          · rfl
        | writeBranch | writeDataBranch | setRealtime | time | readGen | sigstop | sync | sigcont | print | workPid
        | inspect => cases choice <;> cases ran <;> rfl
      rw [same]
      exact kept.trans (moved.1.trans (before clear.1))
    · have kept : after.work.stopped = u.1.work.stopped := by
        obtain ⟨_,_,_,_,_,_,stopped'⟩ := exec_work ran
        have noStop : op.isSigstop = false := by cases op <;> first | rfl | exact absurd rfl notStop
        have noCont : op.isSigcont = false := by cases op <;> first | rfl | exact absurd rfl cont
        simpa [noStop] using stopped' noCont
      rw [same]
      exact kept.trans (moved.2.1.trans still)

/-- Whatever arrives and whichever writes fail, when reads of the generation succeed: the
    generation is greater at each release than at every earlier stop or release and is bumped
    since the release before, and it never falls. A FORKED that raises before it has released
    the workload leaves the workload and the generation as they were. -/
theorem release_safe (P : Platform) :
    (∀ (g : Guest) (s s' : Guest × History), g.current = none → Relation.ReflTransGen (Serves P) (g,[]) s →
      Relation.ReflTransGen (Serves P) s s' →
      Released s'.2 ∧ (∀ event ∈ s'.2, event.gen ≤ s'.1.forkgen) ∧ s.1.forkgen ≤ s'.1.forkgen) ∧
    ∀ (msg : Json) (g : Guest) (s : Guest × History) (error : Exn), (Line.json msg).hasType "FORKED" →
      Runs beside handling (handle P msg) (g,[]) (.error error) s → (∀ event ∈ s.2, event.isRelease = false) →
      s.1.forkgen = g.forkgen ∧ s.1.work.stopped = g.work.stopped := by
  constructor
  · intro g s s' idle first second
    have start : Keeps g [] := by
      refine ⟨by simp,⟨by simp,by simp,by simp⟩,?_⟩
      intro conn program busy
      rw [idle] at busy
      cases busy
    obtain ⟨_,kept⟩ := start.run first
    obtain ⟨grown,kept'⟩ := kept.run second
    exact ⟨kept'.released,kept'.gens,grown⟩
  · intro msg g s error forked runs held
    simp only [Line.hasType,Bool.and_eq_true] at forked
    have type := isStr_eq forked.2
    have same : handle P msg = Agent.forked P msg := by simp [handle,forked.1,type,Json.isStr]
    rw [same] at runs
    exact (backed_forked msg).raised runs rfl held (fun _ => rfl) rfl

/-- Connections and turns in order, as long as every read of the generation succeeds. -/
def serving (P : Platform) : List (Line ⊕ Choice) → Guest × History → Option (Guest × History)
  | [], s => some s
  | .inl line :: rest, s => serving P rest (push s.1 line,s.2)
  | .inr choice :: rest, s =>
    if s.1.reads choice then (s.1.turn P choice).bind fun g => serving P rest (g,s.1.events choice ++ s.2) else none

theorem serves_of_serving {script : List (Line ⊕ Choice)} {s s' : Guest × History}
    (served : serving P script s = some s') : Relation.ReflTransGen (Serves P) s s' := by
  induction script generalizing s with
  | nil =>
    cases served
    exact .refl
  | cons entry rest ih =>
    cases entry with
    | inl line => exact .head (.arrive line) (ih served)
    | inr choice =>
      simp only [serving] at served
      split at served
      · rename_i reads
        obtain ⟨g,turned,onward⟩ := Option.bind_eq_some_iff.mp served
        exact .head (.turn turned reads) (ih onward)
      · cases served

/-- A QUIESCE and then a FORKED. -/
def quiesceThenFork : List (Line ⊕ Choice) :=
  .inl (.json (.obj [("type",.str "QUIESCE")])) :: [.ok,.ok,.ok,.pid 7,.ok].map .inr ++
    .inl (.json (.obj [("type",.str "FORKED")])) :: [.ok,.ok,.ok,.ok].map .inr

/-- A FORKED whose `true_time` is no number. -/
def timeless : Json := .obj [("type",.str "FORKED"),("true_time",.str "soon")]

theorem release_safe_quiesceThenFork :
    (∃ s, serving .plain quiesceThenFork (Guest.booting.init,[]) = some s ∧ s.2 = [.release 1,.bump 1,.stop 0] ∧
      Released s.2) ∧
    ∃ s error, Runs beside handling (handle .plain timeless) (Guest.booting.init,[]) (.error error) s ∧ s.1.forkgen = 0 := by
  constructor
  · have history : (serving .plain quiesceThenFork (Guest.booting.init,[])).map (·.2) =
        some [.release 1,.bump 1,.stop 0] := by decide +kernel
    obtain ⟨s,served,same⟩ := Option.map_eq_some_iff.mp history
    exact ⟨s,served,same,((release_safe .plain).1 _ s s rfl (serves_of_serving served) .refl).1⟩
  · have raised : Runs beside handling (handle .plain timeless) (Guest.booting.init,[])
        (.error (.ValueError "could not convert string to float")) (Guest.booting.init,[]) := .raise ⟨rfl,rfl,rfl⟩
    exact ⟨_,_,raised,((release_safe .plain).2 timeless _ _ _ rfl raised (by simp)).1⟩

end Klados.Agent
