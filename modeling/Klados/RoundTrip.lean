import Klados.PreservedSteps

/-!
From a snapshot to its forks. However the daemon goes on after a snapshot, one request after the other, with
guests that go on, files that are evicted and restarts, a fork that returns has loaded the picture of the
snapshot for every child.
-/
namespace Klados
open Effects
open Files (Fs)

/-- What comes next: a request, whatever becomes of it, guests that go on, a hot image that is evicted, or a
    chunk if there is a bucket, or a restart of the daemon. -/
inductive Turn (P : Platform) (K : Bytes → Prop) (s3 : Bool) : World × CaptureLog → World × CaptureLog → Prop
  | request {s s' : World × CaptureLog} {req : Req} {result : Except Exn Json} :
      Runs (drifts P) (loggedCall P K) (req.body P) s result s' → Turn P K s3 s s'
  | guests {s s' : World × CaptureLog} : drifts P s s' → Turn P K s3 s s'
  | evict {w v : World} {log : CaptureLog} {p : Path} : (∀ h, p = .chunk h → s3 = true) → w.move P (.delete p) = some v →
      Turn P K s3 (w,log) (v,log)
  | reboot {w : World} {log : CaptureLog} : Turn P K s3 (w,log) (w.reboot,log)

/-- Any number of turns. -/
abbrev Turns (P : Platform) (K : Bytes → Prop) (s3 : Bool) : World × CaptureLog → World × CaptureLog → Prop :=
  Relation.ReflTransGen (Turn P K s3)

section
variable {P : Platform} {K : Bytes → Prop} {s3 : Bool} {pinned pinned' : Id → Picture → Prop} {w v : World} {log : CaptureLog}
  {s s' : World × CaptureLog}

theorem preserved_initial (root : ProjectRow) (s3 : Bool) : Preserved P K s3 (fun _ _ => False)
    (World.initial root s3,CaptureLog.empty) := by
  refine ⟨⟨Fs.empty_wf,rfl,rfl,rfl,rfl,?_,nofun,?_⟩,⟨nofun,nofun⟩,nofun,fun _ => .inr rfl,nofun,nofun⟩
  · exact fun _ _ _ found => nomatch found
  · exact fun _ _ known => nomatch known

/-- Other pictures may be pinned that are in the log. -/
theorem Preserved.pin (preserved : Preserved P K s3 pinned s)
    (there : ∀ sid picture, pinned' sid picture → s.1.Known sid ∧ s.2.taken sid = some picture) : Preserved P K s3 pinned' s :=
  ⟨preserved.shelf,preserved.rows,preserved.disks,preserved.vms,preserved.shown,there⟩

/-- What a program has come to that has run among the guests. -/
def Ended {α : Type} (E : World × CaptureLog → Prop) (B : α → World × CaptureLog → Prop) (s : World × CaptureLog)
    : Except Exn α → Prop
  | .ok value => B value s
  | .error _ => E s

theorem Ended.of_attains {α : Type} {program : KProg α} {A E : World × CaptureLog → Prop} {B : α → World × CaptureLog → Prop}
    (attains : Attains P K A program E B) {result : Except Exn α} (wf : s.1.fs.Wf) (start : A s)
    (ran : Runs (drifts P) (loggedCall P K) program s result s') : Ended E B s' result := by
  have post := ((attains s wf start).runs (fun u x wf moved => ⟨(resting_moves moved.2 wf).2,moved⟩) wf ran).2
  cases result <;> exact post

/-- A chunk may go that is in the bucket as well, and any other file that holds no chunk. -/
theorem Shelf.evicted {p : Path} (shelf : Shelf P K s3 w) (cached : ∀ h, p = .chunk h → s3 = true) :
    Worked P K s3 (· = p) w { w with fs := w.fs.remove p } := by
  have files := Fs.content_remove w.fs p
  have persists : ∀ blk, Persists P s3 w blk → Persists P s3 { w with fs := w.fs.remove p } blk := by
    intro blk there
    cases s3 with
    | true => exact there
    | false =>
      refine (files _).trans ((if_neg fun same => ?_).trans there)
      cases cached _ same.symm
  refine ⟨⟨Fs.remove_wf shelf.wf p,shelf.root,shelf.block,shelf.cdc,shelf.tier,?_,shelf.queued,?_⟩,fun blk _ => persists blk,?_⟩
  · intro blk considered bytes found
    rw [files] at found
    split at found
    · cases found
    · exact shelf.clean blk considered bytes found
  · exact fun blk considered knows => (shelf.indexed blk considered knows).imp_left (persists blk)
  · exact fun q other _ => (files q).trans (if_neg other)

theorem Preserved.evicted {p : Path} (preserved : Preserved P K s3 pinned (w,log)) (cached : ∀ h, p = .chunk h → s3 = true)
    (moved : w.move P (.delete p) = some v) : Preserved P K s3 pinned (v,log) := by
  have allowed : ((∃ h, p = .chunk h) ∨ ∃ sid, p = .snap sid .mem) ∧ v = { w with fs := w.fs.remove p } := by
    simp only [World.move] at moved
    split at moved <;> cases moved
    · exact ⟨.inl ⟨_,rfl⟩,rfl⟩
    · exact ⟨.inr ⟨_,rfl⟩,rfl⟩
  obtain ⟨kind,rfl⟩ := allowed
  have worked := preserved.shelf.evicted cached
  have unmoved : Unmoved w { w with fs := w.fs.remove p } := ⟨rfl,rfl,fun _ => id,rfl⟩
  refine preserved.onward (fun _ => False) unmoved (fun _ no => no.elim) worked.shelf ?_ ?_ (fun _ _ => rfl) rfl
  · intro iid there
    have other : Path.scratch iid ≠ p := by rcases kind with ⟨h,rfl⟩ | ⟨sid,rfl⟩ <;> simp
    rw [worked.files _ other (by simp)]
    exact there
  · intro sid picture _ archived
    refine archived.worked worked unmoved rfl ?_ (by rcases kind with ⟨h,rfl⟩ | ⟨sid,rfl⟩ <;> simp)
    -- The image is what it was, unless it is the file that goes.
    intro bytes found
    by_cases gone : Path.snap sid .mem = p
    · rw [Fs.content_remove,if_pos gone] at found
      cases found
    · rw [worked.files _ gone (by simp)] at found
      exact archived.hot bytes found

theorem Preserved.rebooted (preserved : Preserved P K s3 pinned (w,log)) : Preserved P K s3 pinned (w.reboot,log) := by
  refine ⟨preserved.shelf.reboot,⟨?_,nofun⟩,nofun,preserved.vms,preserved.shown,preserved.pinned⟩
  intro row member
  obtain ⟨filed,picture,archived⟩ := preserved.rows.committed row member
  exact ⟨filed,picture,archived.of_same (fun _ => id) rfl rfl rfl⟩

/-- One turn keeps the snapshots. -/
theorem Preserved.turn (lossless : P.Lossless) (apart : P.Distinguishes K) (preserved : Preserved P K s3 pinned s)
    (turn : Turn P K s3 s s') : Preserved P K s3 pinned s' := by
  cases turn with
  | @request _ _ req result ran =>
    have kept := Ended.of_attains (attains_request lossless apart req) preserved.shelf.wf preserved ran
    cases result with
    | ok reply => exact kept
    | error error => exact kept
  | guests moved =>
    obtain ⟨same,moves⟩ := moved
    obtain ⟨w,log⟩ := s
    obtain ⟨v,log'⟩ := s'
    obtain rfl : log' = log := same
    exact abiding_preserved.patient w v log' preserved.shelf.wf (resting_moves moves preserved.shelf.wf).1 preserved
  | evict cached moved => exact preserved.evicted cached moved
  | reboot => exact preserved.rebooted

theorem Preserved.turns (lossless : P.Lossless) (apart : P.Distinguishes K) (preserved : Preserved P K s3 pinned s)
    (turns : Turns P K s3 s s') : Preserved P K s3 pinned s' := by
  induction turns with
  | refl => exact preserved
  | tail _ turn ih => exact ih.turn lossless apart turn

/-- A fork that returns, at any time after a snapshot, has loaded for each child the picture of the
    snapshot: the memory, the device state and the disk of the instance when it was paused for it. -/
theorem snapshot_round_trip (lossless : P.Lossless) (apart : P.Distinguishes K) (root : ProjectRow)
    {s s₁ s₂ s₃ : World × CaptureLog}
    {iid sid : Id} {label reply children : Json} {n : Int} (before : Turns P K s3 (World.initial root s3,CaptureLog.empty) s)
    (taken : Runs (drifts P) (loggedCall P K) (snapshot_instance P iid label) s (.ok reply) s₁)
    (named : reply.get? "snapshot_id" = some (.str sid)) (later : Turns P K s3 s₁ s₂)
    (forked : Runs (drifts P) (loggedCall P K) (fork_snapshot P sid n) s₂ (.ok children) s₃) :
    ∃ picture, s₁.2.atPause iid = some picture ∧ s₁.2.taken sid = some picture ∧
      s₃.2.shown = s₂.2.shown ++ List.replicate n.toNat (sid,some picture) := by
  have preserved := (preserved_initial root s3).turns lossless apart before
  obtain ⟨preserved₁,sid',picture,named',archived,atPause⟩ :=
    Ended.of_attains (attains_snapshot_instance apart iid label) preserved.shelf.wf preserved taken
  obtain rfl : sid' = sid := by
    rw [named] at named'
    cases named'
    rfl
  have pinned₁ : Preserved P K s3 (fun other picture' => other = sid' ∧ picture' = picture) s₁ := by
    refine preserved₁.pin ?_
    rintro _ _ ⟨rfl,rfl⟩
    exact ⟨archived.known,archived.taken⟩
  have preserved₂ := pinned₁.turns lossless apart later
  obtain ⟨preserved₃,picture',same,shows⟩ :=
    Ended.of_attains (attains_fork_snapshot lossless apart sid' n) preserved₂.shelf.wf ⟨preserved₂,rfl⟩ forked
  have still := (preserved₃.pinned sid' picture ⟨rfl,rfl⟩).2
  cases still.symm.trans same
  exact ⟨picture,atPause,archived.taken,shows⟩

/-! A visit: the guest goes on until the snapshot pauses it, and while a fork of two goes on. -/

/-- A call that returns. -/
def loggedExec (op : Op) (choice : Choice) (s : World × CaptureLog) : Option (Except Exn op.Res × World × CaptureLog) :=
  match exec .plain 0 op choice s.1 with
  | some (.ok value,v) => some (.ok value,v,s.2.sees op (.ok value) v)
  | _ => none

def loggedMove (move : Move) (s : World × CaptureLog) : Option (World × CaptureLog) :=
  if move.isGuests then (s.1.move .plain move).map fun v => (v,s.2) else none

/-- The guests go on, and then the program runs. -/
def replayLogged {α : Type} (program : KProg α) (moves : List Move) (script : List Choice) (s : World × CaptureLog) :
    Option (Except Exn α × World × CaptureLog) := replay loggedExec loggedMove (moves.map .inl ++ script.map .inr) program s

theorem replayLogged_runs {α : Type} {program : KProg α} {moves : List Move} {script : List Choice} {result : Except Exn α}
    (filmed : replayLogged program moves script s = some (result,s')) :
    Runs (drifts .plain) (loggedCall .plain fun _ => True) program s result s' := by
  refine Runs.of_replay (fun _ => ⟨rfl,.refl⟩) ?_ ?_ ?_ filmed
  · exact fun first second => ⟨second.1.trans first.1,first.2.trans second.2⟩
  · intro move s s' moved
    unfold loggedMove at moved
    split at moved
    · obtain ⟨v,moved',rfl⟩ := Option.map_eq_some_iff.mp moved
      exact ⟨rfl,.single ⟨move,‹_›,moved'⟩⟩
    · cases moved
  · intro op choice s outcome s' shown
    unfold loggedExec at shown
    split at shown <;> cases shown
    refine ⟨⟨⟨choice,‹_›⟩,fun _ => ⟨_,rfl⟩⟩,?_,rfl⟩
    unfold Op.Considers
    split <;> simp

/-- The snapshot, and its chunk in the bucket. -/
def visitSnapshot : List Choice :=
  takeSnapshot "s" ++ List.replicate 13 .ok ++ [.puts [⟨true,none⟩]] ++ List.replicate 6 .ok ++ [.time 1,.ok,.ok,.ok]

def visitChild (iid : Id) : List Choice := [.id iid,.ok,.ok,.ok,.ok,.ok,.ok,.flag false,.time 2,.lost,.eof,.time 3,.ok]

/-- The fork, which finds no image and no chunk. -/
def visitFork : List Choice := List.replicate 13 .ok ++ visitChild "c" ++ visitChild "d" ++ [.ok]

/-- The cached chunk is evicted, and the daemon is restarted. -/
def visitRestart (s : World × CaptureLog) : World × CaptureLog := (World.reboot { s.1 with fs := s.1.fs.remove (.chunk [9]) },s.2)

def visitStart : World × CaptureLog := (World.initial ⟨"p",some "default","key",0⟩ true,CaptureLog.empty)

def visitPicture : Picture := ⟨[9],[8],[5]⟩

/-- The snapshot that a reply names. -/
def names (reply : Except Exn Json) : Option Id :=
  match reply with
  | .ok body =>
    match body.get? "snapshot_id" with
    | some (.str sid) => some sid
    | _ => none
  | .error _ => none

theorem ok_of_names {reply : Except Exn Json} {sid : Id} (named : names reply = some sid) :
    ∃ body, reply = .ok body ∧ body.get? "snapshot_id" = some (.str sid) := by
  cases reply with
  | error error => cases named
  | ok body =>
    refine ⟨body,rfl,?_⟩
    simp only [names] at named
    split at named <;> cases named
    assumption

theorem snapshot_round_trip_two : ∃ s₁ s₃ : World × CaptureLog, s₁.2.atPause "i" = some visitPicture ∧
    s₃.2.shown = [("s",some visitPicture),("s",some visitPicture)] ∧
    ∃ picture, s₁.2.atPause "i" = some picture ∧ s₁.2.taken "s" = some picture ∧
      s₃.2.shown = (visitRestart s₁).2.shown ++ List.replicate (Int.toNat 2) ("s",some picture) := by
  have found : ((replayLogged (Req.body .plain (.create_run "p" .null)) [] (createRun "r" "i" [7] [8]) visitStart).bind fun (_,s) =>
      (replayLogged (snapshot_instance .plain "i" .null) [.guestMemory "i" [9] [8],.guestDisk "i" [5]]
        visitSnapshot s).bind fun (reply,s₁) =>
      (replayLogged (fork_snapshot .plain "s" 2) [.guestMemory "i" [1] [1]] visitFork (visitRestart s₁)).map fun (children,s₃) =>
        decide (names reply = some "s" ∧ children.toOption.isSome = true ∧
          s₁.2.atPause "i" = some visitPicture ∧ s₃.2.shown = [("s",some visitPicture),("s",some visitPicture)])) = some true := by
    decide +kernel
  obtain ⟨⟨_,s⟩,created,rest⟩ := Option.bind_eq_some_iff.mp found
  obtain ⟨⟨reply,s₁⟩,taken,rest⟩ := Option.bind_eq_some_iff.mp rest
  obtain ⟨⟨children,s₃⟩,forked,good⟩ := Option.map_eq_some_iff.mp rest
  obtain ⟨named,returned,atPause,shown⟩ := of_decide_eq_true good
  obtain ⟨body,rfl,told⟩ := ok_of_names named
  cases children with
  | error error => cases returned
  | ok children =>
    have later : Turns .plain (fun _ => True) true s₁ (visitRestart s₁) :=
      .tail (.single (.evict (p := .chunk [9]) (fun _ _ => rfl) rfl)) .reboot
    exact ⟨s₁,s₃,atPause,shown,snapshot_round_trip Platform.plain_lossless (fun _ _ _ _ same => same) ⟨"p",some "default","key",0⟩
      (.single (.request (replayLogged_runs created))) (replayLogged_runs taken) told later (replayLogged_runs forked)⟩

/-- Whatever becomes of the requests, what was shown of a snapshot is its picture. -/
theorem shown_as_taken (lossless : P.Lossless) (apart : P.Distinguishes K) (root : ProjectRow) {s : World × CaptureLog}
    (reached : Turns P K s3 (World.initial root s3,CaptureLog.empty) s) :
    ∀ entry ∈ s.2.shown, ∃ picture, entry.2 = some picture ∧ s.2.taken entry.1 = some picture :=
  fun entry member => (((preserved_initial root s3).turns lossless apart reached).shown entry member).2

theorem shown_as_taken_two : ∃ s : World × CaptureLog, s.2.shown = [("s",some visitPicture),("s",some visitPicture)] ∧
    ∀ entry ∈ s.2.shown, ∃ picture, entry.2 = some picture ∧ s.2.taken entry.1 = some picture := by
  have found : ((replayLogged (Req.body .plain (.create_run "p" .null)) [] (createRun "r" "i" [7] [8]) visitStart).bind fun (_,s) =>
      (replayLogged (Req.body .plain (.snapshot_instance "i" .null)) [.guestMemory "i" [9] [8],.guestDisk "i" [5]]
        visitSnapshot s).bind fun (_,s₁) =>
      (replayLogged (Req.body .plain (.fork_snapshot "s" 2)) [.guestMemory "i" [1] [1]] visitFork
        (visitRestart s₁)).map fun (_,s₃) =>
        decide (s₃.2.shown = [("s",some visitPicture),("s",some visitPicture)])) = some true := by
    decide +kernel
  obtain ⟨⟨_,s⟩,created,rest⟩ := Option.bind_eq_some_iff.mp found
  obtain ⟨⟨_,s₁⟩,taken,rest⟩ := Option.bind_eq_some_iff.mp rest
  obtain ⟨⟨_,s₃⟩,forked,good⟩ := Option.map_eq_some_iff.mp rest
  have shown := of_decide_eq_true good
  have turns : Turns .plain (fun _ => True) true visitStart s₃ :=
    .tail (.tail (.tail (.tail (.single (.request (replayLogged_runs created))) (.request (replayLogged_runs taken)))
      (.evict (p := .chunk [9]) (fun _ _ => rfl) rfl)) .reboot) (.request (replayLogged_runs forked))
  exact ⟨s₃,shown,shown_as_taken Platform.plain_lossless (fun _ _ _ _ same => same) ⟨"p",some "default","key",0⟩ turns⟩

end
end Klados
