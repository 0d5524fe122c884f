import Klados.Preserved

/-!
Every request keeps the snapshots (`Preserved`), whether it returns or raises. `snapshot_instance` adds a picture:
what the instance was when it was paused. `fork_snapshot` shows the picture of the snapshot once for each child.
-/
namespace Klados
open Effects
open Files (Fs)
open Prog (Only)

section
variable {P : Platform} {K : Bytes → Prop} {s3 : Bool} {pinned : Id → Picture → Prop} {w v : World} {log : CaptureLog}
  {sid iid : Id} {picture : Picture} {choice : Choice} {shown : List (Id × Option Picture)}

/-- A process of an instance whose id was given out. -/
theorem Preserved.booted (preserved : Preserved P K s3 pinned (w,log)) (known : w.Known iid) (vm : Vm) :
    Preserved P K s3 pinned ({ w with hyp := w.hyp.set iid vm },log) := by
  refine ⟨preserved.shelf.of_same preserved.shelf.wf rfl rfl fun _ => rfl,?_,preserved.disks,
    fun iid' => ?_,preserved.shown,preserved.pinned⟩
  · refine preserved.rows.mono fun T rows row member => ?_
    obtain ⟨filed,picture,archived⟩ := rows row member
    exact ⟨filed,picture,archived.of_same (fun _ => id) rfl rfl rfl⟩
  · by_cases own : iid' = iid
    · exact .inl (own ▸ known)
    · exact (preserved.vms iid').imp_right fun absent => (Hypervisor.set_other _ own _).trans absent

/-- The picture of a snapshot is shown once more. -/
theorem Preserved.loaded (preserved : Preserved P K s3 pinned (w,log)) (archived : Archived P K s3 sid picture (w,log)) :
    Preserved P K s3 pinned (w,{ log with shown := log.shown ++ [(sid,some picture)] }) := by
  refine ⟨preserved.shelf,?_,preserved.disks,preserved.vms,?_,preserved.pinned⟩
  · refine preserved.rows.mono fun T rows row member => ?_
    obtain ⟨filed,picture,archived⟩ := rows row member
    exact ⟨filed,picture,archived.of_same (fun _ => id) rfl rfl rfl⟩
  · intro entry member
    rcases List.mem_append.mp member with old | new
    · exact preserved.shown entry old
    · obtain rfl := List.mem_singleton.mp new
      exact ⟨archived.known,picture,rfl,archived.taken⟩

/-- An instance with a disk is put into `LIVE`. -/
theorem Preserved.enlisted {outcome : Except Exn Unit} (preserved : Preserved P K s3 pinned (w,log))
    (disk : (w.fs.content (.scratch iid)).isSome = true) (ran : exec P 0 (.mem (.liveSet iid)) choice w = some (outcome,v)) :
    outcome = .ok () ∧ Preserved P K s3 pinned (v,log) ∧ ∃ live, v = { w with mem := { w.mem with live } } := by
  refine ⟨(exec_liveSet ran).1,?_⟩
  have live : ∀ iid' ∈ v.mem.live, iid' ∈ w.mem.live ∨ iid' = iid := by
    intro iid' member
    exact (exec_live ran member).imp_right fun same => by cases same; rfl
  obtain ⟨⟨r,mem⟩,executed,same⟩ := Option.map_eq_some_iff.mp ran
  cases same
  cases choice <;> cases executed
  refine ⟨⟨preserved.shelf.of_same preserved.shelf.wf rfl rfl fun _ => rfl,?_,?_,
    preserved.vms,preserved.shown,preserved.pinned⟩,_,rfl⟩
  · refine preserved.rows.mono fun T rows row member => ?_
    obtain ⟨filed,picture,archived⟩ := rows row member
    exact ⟨filed,picture,archived.of_same (fun _ => id) rfl rfl rfl⟩
  · intro iid' member
    rcases live iid' member with old | new
    · exact preserved.disks iid' old
    · cases new
      exact disk

theorem exec_fs_unmoved {o : FsOp} {outcome : Except Exn o.Res} (ran : exec P 0 (.fs o) choice w = some (outcome,v)) :
    Unmoved w v ∧ v.mem = w.mem ∧ v.bucket = w.bucket := by
  obtain ⟨_,_,same⟩ := Option.map_eq_some_iff.mp ran
  cases same
  exact ⟨⟨rfl,rfl,fun _ => id,rfl⟩,rfl,rfl⟩

theorem exec_copy {src dst : Path} {value : Unit} (ran : exec P 0 (.fs (.copy src dst)) choice w = some (.ok value,v)) :
    ∃ bytes, w.fs.content src = some bytes ∧ v = { w with fs := w.fs.put dst bytes } := by
  obtain ⟨⟨r,fs⟩,executed,same⟩ := Option.map_eq_some_iff.mp ran
  cases same
  cases choice with
  | ok =>
    simp only [fsExec] at executed
    split at executed <;> cases executed
    exact ⟨_,‹_›,rfl⟩
  | torn =>
    simp only [fsExec] at executed
    split at executed <;> cases executed
  | fail => cases executed
  | id | text | time | flag | boot | bootLost | lost | eof | puts | found => cases executed

/-- A disk of the instance is made or copied, as a whole or in part. -/
theorem Preserved.diskReady {o : FsOp} {outcome : Except Exn o.Res} (preserved : Preserved P K s3 pinned (w,log))
    (furnishes : (∃ src, o = .copy src (.scratch iid)) ∨ o = .makeDisk (.scratch iid))
    (ran : exec P 0 (.fs o) choice w = some (outcome,v)) :
    Unmoved w v ∧ Worked P K s3 (· = .scratch iid) w v ∧ Preserved P K s3 pinned (v,log) := by
  obtain ⟨unmoved,mem,bucket⟩ := exec_fs_unmoved ran
  have wf := preserved.shelf.wf
  have worked : Worked P K s3 (· = .scratch iid) w v := by
    refine preserved.shelf.touched ran mem bucket fun p writing => ?_
    have own : p = .scratch iid := by rcases furnishes with ⟨src,rfl⟩ | rfl <;> exact writing
    exact ⟨own,by simp [own]⟩
  have disk : (w.fs.content (.scratch iid)).isSome = true → (v.fs.content (.scratch iid)).isSome = true := by
    intro there
    have touches := exec_touches ran
    generalize v.fs = fs at touches ⊢
    rcases furnishes with ⟨src,rfl⟩ | rfl
    all_goals
      cases touches
      · exact there
      · rw [Fs.content_put wf,if_pos rfl]
        rfl
  refine ⟨unmoved,worked,preserved.onward (fun _ => False) unmoved (fun _ no => no.elim) worked.shelf ?_ ?_ (fun _ _ => rfl) rfl⟩
  · intro iid' there
    by_cases own : iid' = iid
    · exact own ▸ disk (own ▸ there)
    · rw [worked.files _ (fun same => own (Path.scratch.inj same)) (by simp)]
      exact there
  · intro sid picture _ archived
    exact archived.worked worked unmoved rfl (worked.hot (by simp) archived.hot) (by simp)

/-- Another picture of an instance in the log. -/
theorem Preserved.paused (preserved : Preserved P K s3 pinned (w,log)) (atPause : Id → Option Picture) :
    Preserved P K s3 pinned (w,{ log with atPause }) := by
  refine ⟨preserved.shelf,?_,preserved.disks,preserved.vms,preserved.shown,preserved.pinned⟩
  refine preserved.rows.mono fun T rows row member => ?_
  obtain ⟨filed,picture,archived⟩ := rows row member
  exact ⟨filed,picture,archived.of_same (fun _ => id) rfl rfl rfl⟩

/-- The row of a snapshot that is archived, whether the statement succeeds or not. -/
theorem Preserved.recorded {row : SnapshotRow} {outcome : Except Exn Unit} (preserved : Preserved P K s3 pinned (w,log))
    (archived : Archived P K s3 row.id picture (w,log)) (filed : row.Filed)
    (ran : exec P 0 (.db (.execute (.insertSnapshot row))) choice w = some (outcome,v)) :
    Preserved P K s3 pinned (v,log) ∧ Archived P K s3 row.id picture (v,log) := by
  have moved : ∀ {sid picture}, Archived P K s3 sid picture (w,log) → Archived P K s3 sid picture (v,log) := by
    intro sid picture archived
    obtain ⟨db,acts,rfl⟩ := exec_dbActs ran
    exact archived.of_same (fun _ => id) rfl rfl rfl
  refine ⟨⟨?_,?_,?_,?_,?_,?_⟩,moved archived⟩
  · obtain ⟨db,acts,rfl⟩ := exec_dbActs ran
    exact preserved.shelf.of_same preserved.shelf.wf rfl rfl fun _ => rfl
  · refine exec_rows ran ?_ ?_
    · refine preserved.rows.mono fun T rows row member => ?_
      obtain ⟨filed,picture,archived⟩ := rows row member
      exact ⟨filed,picture,moved archived⟩
    · rintro row' ⟨⟩
      exact ⟨filed,picture,moved archived⟩
  all_goals obtain ⟨db,acts,rfl⟩ := exec_dbActs ran
  · exact preserved.disks
  · exact preserved.vms
  · exact preserved.shown
  · exact preserved.pinned

/-- A new id is one under which nothing is recorded and no process was started. -/
theorem Preserved.fresh {outcome : Except Exn Id} (preserved : Preserved P K s3 pinned (w,log))
    (ran : exec P 0 (.sys .newId) choice w = some (outcome,v)) : Preserved P K s3 pinned (v,log) ∧
      ∃ id, outcome = .ok id ∧ Unfiled pinned id (v,log) ∧ v.hyp.vm id = none := by
  have wf := preserved.shelf.wf
  refine ⟨abiding_preserved w v log wf (exec_beside (by rfl) ran) preserved,?_⟩
  obtain ⟨id,rfl,unowned,rfl⟩ := exec_newId ran
  have unknown : ∀ {other : Id}, w.Known other → other ≠ id := by
    rintro other known rfl
    rw [World.Known,unowned] at known
    cases known
  refine ⟨id,rfl,⟨?_,?_,?_,?_⟩,?_⟩
  · simp [World.Known,World.owner]
  · refine preserved.rows.mono fun T rows row member => ?_
    obtain ⟨_,picture,archived⟩ := rows row member
    exact unknown archived.known
  · exact fun entry member => unknown (preserved.shown entry member).1
  · exact fun picture pin => unknown (preserved.pinned id picture pin).1 rfl
  · exact (preserved.vms id).resolve_left fun known => unknown known rfl

/-- Whether there is such a file. -/
def Seen (p : Path) (found : Bool) (s : World × CaptureLog) : Prop := found = (s.1.fs.content p).isSome

theorem abiding_seen {p : Path} {found : Bool} : Abiding (Seen p found) := by
  intro w v _ _ beside seen
  show found = (v.fs.content p).isSome
  rw [Fs.content_isSome,beside.fs.names,← Fs.content_isSome]
  exact seen

/-- A look whether a file is there. -/
theorem attains_exists {A : World × CaptureLog → Prop} (patient : Patient A) (p : Path) : Attains P K A (fsCall (.exists p)) A
    fun found s => A s ∧ Seen p found s := by
  refine attains_call patient patient (fun found => patient.and abiding_seen.patient) ?_ ?_
  · intro choice found w log v wf holds _ ran
    obtain ⟨same,rfl⟩ := acts_exists.mp ⟨choice,ran⟩
    exact ⟨holds,(Except.ok.inj same).trans (Fs.content_isSome _ _).symm⟩
  · intro choice error w log v wf holds ran
    cases (acts_exists.mp ⟨choice,ran⟩).1

/-- The instance rests as it was when it was paused. -/
structure PausedAs (iid : Id) (picture : Picture) (s : World × CaptureLog) : Prop where
  rests : s.1.Rests iid
  same : s.1.picture iid = some picture
  atPause : s.2.atPause iid = some picture

theorem patient_pausedAs : Patient (PausedAs iid picture) := by
  intro w v log _ rested pausedAs
  obtain ⟨rests,_,same⟩ := rested.rests iid pausedAs.rests
  exact ⟨rests,same.trans pausedAs.same,pausedAs.atPause⟩

theorem World.picture_disk (same : w.picture iid = some picture) : w.fs.content (.scratch iid) = some picture.disk := by
  obtain ⟨vm,_,found⟩ := Option.bind_eq_some_iff.mp same
  obtain ⟨disk,there,rfl⟩ := Option.map_eq_some_iff.mp found
  exact there

/-- A pause of an instance of `LIVE`. -/
theorem attains_pause (sid iid : Id) : Attains P K
    (fun s => Preserved P K s3 pinned s ∧ Unfiled pinned sid s ∧ iid ∈ s.1.mem.live) (vmCall (.pause iid)) (Preserved P K s3 pinned)
    fun _ s => ∃ picture, Preserved P K s3 pinned s ∧ Unfiled pinned sid s ∧ PausedAs iid picture s := by
  have patient : Patient fun s : World × CaptureLog => Preserved P K s3 pinned s ∧ Unfiled pinned sid s ∧ iid ∈ s.1.mem.live :=
    abiding_preserved.patient.and (abiding_unfiled.patient.and fun w v _ _ rested live => by
      show iid ∈ v.mem.live
      rw [rested.mem]
      exact live)
  refine attains_call patient abiding_preserved.patient (fun _ => ?_) ?_ ?_
  · rintro w v log wf rested ⟨picture,holds⟩
    exact ⟨picture,(abiding_preserved.patient.and (abiding_unfiled.patient.and patient_pausedAs)) w v log wf rested holds⟩
  · rintro choice value w log v wf ⟨preserved,unfiled,live⟩ _ ran
    have beside := exec_beside (by rfl) ran
    have preserved' := abiding_preserved w v log wf beside preserved
    have unfiled' := abiding_unfiled w v log wf beside unfiled
    obtain ⟨disk,there⟩ := Option.isSome_iff_exists.mp (preserved.disks iid live)
    obtain ⟨fs,hyp,acts,rfl⟩ := exec_vmActs ran
    cases acts with
    | @pause _ vm _ found _ =>
      have same : ({ w with hyp := w.hyp.set iid { vm with phase := .paused } } : World).picture iid =
          some ⟨vm.mem,vm.dev,disk⟩ := by
        unfold World.picture
        rw [Hypervisor.set_self,there]
        rfl
      refine ⟨⟨vm.mem,vm.dev,disk⟩,preserved'.paused _,⟨unfiled'.known,unfiled'.rows,unfiled'.shown,unfiled'.pinned⟩,?_,same,?_⟩
      · intro vm' found'
        rw [Hypervisor.set_self] at found'
        exact Option.some.inj found' ▸ by simp
      · exact (Function.update_self ..).trans same
  · rintro choice error w log v wf ⟨preserved,_⟩ ran
    exact abiding_preserved w v log wf (exec_beside (by rfl) ran) preserved

theorem Shelf.captured {outcome : Except Exn Unit} (shelf : Shelf P K s3 w)
    (ran : exec P 0 (.vm (.create iid (.snap sid .vmstate) (.snap sid .mem))) choice w = some (outcome,v)) :
    Worked P K s3 (fun p => ∃ file, p = .snap sid file) w v := by
  refine shelf.touched ran (exec_mem rfl ran) ?_ ?_
  · obtain ⟨fs,hyp,_,rfl⟩ := exec_vmActs ran
    rfl
  · rintro p (rfl | rfl)
    · exact ⟨⟨_,rfl⟩,by simp⟩
    · exact ⟨⟨_,rfl⟩,by simp⟩

/-- Firecracker writes the memory and the device state of an instance that rests. -/
theorem attains_create (sid iid : Id) (picture : Picture) : Attains P K
    (fun s => Preserved P K s3 pinned s ∧ Unfiled pinned sid s ∧ PausedAs iid picture s)
    (vmCall (.create iid (.snap sid .vmstate) (.snap sid .mem))) (Preserved P K s3 pinned)
    fun _ s => Preserved P K s3 pinned s ∧ Unfiled pinned sid s ∧ PausedAs iid picture s ∧ Captured P K sid picture s := by
  refine attains_call (abiding_preserved.patient.and (abiding_unfiled.patient.and patient_pausedAs)) abiding_preserved.patient
    (fun _ => abiding_preserved.patient.and (abiding_unfiled.patient.and (patient_pausedAs.and abiding_captured.patient))) ?_ ?_
  all_goals
    rintro choice outcome w log v wf ⟨preserved,unfiled,pausedAs⟩
  · intro considered ran
    have worked := preserved.shelf.captured ran
    obtain ⟨fs,hyp,acts,rfl⟩ := exec_vmActs ran
    cases acts with
    | @create _ _ _ vm found paused =>
      have unmoved : Unmoved w { w with fs := (w.fs.put (.snap sid .vmstate) vm.dev).put (.snap sid .mem) vm.mem, hyp :=
          { w.hyp with saved := Function.update w.hyp.saved (.snap sid .vmstate) (some vm.guest) } } := ⟨rfl,rfl,fun _ => id,rfl⟩
      have disk := World.picture_disk pausedAs.same
      have picture' : picture = ⟨vm.mem,vm.dev,picture.disk⟩ := by
        have same := pausedAs.same
        unfold World.picture at same
        rw [found,disk] at same
        exact (Option.some.inj same).symm
      have files := fun p => Fs.content_put (Fs.put_wf wf (.snap sid .vmstate) vm.dev) (.snap sid .mem) vm.mem p
      refine ⟨?_,unfiled.unmoved unmoved rfl,⟨pausedAs.rests,?_,pausedAs.atPause⟩,?_⟩
      · exact preserved.filing unfiled unmoved worked (fun _ => id) (fun _ other => Function.update_of_ne other _ _) rfl
      · refine Eq.trans ?_ pausedAs.same
        unfold World.picture
        rw [worked.files (.scratch iid) (by simp) (by simp)]
      · refine ⟨?_,?_,?_,?_⟩
        · exact (Function.update_self ..).trans pausedAs.atPause
        · rw [files,if_neg (by simp),Fs.content_put wf,if_pos rfl,picture']
        · rw [files,if_pos rfl,picture']
        · rw [picture']
          exact considered vm found
  · intro ran
    have worked := preserved.shelf.captured ran
    have unmoved : Unmoved w v := by
      obtain ⟨fs,hyp,acts,rfl⟩ := exec_vmActs ran
      cases acts with
      | fails | torn => exact ⟨rfl,rfl,fun _ => id,rfl⟩
    exact preserved.filing unfiled unmoved worked (fun _ => id) (fun _ _ => rfl) rfl

theorem Shelf.sealed {outcome : Except Exn Unit} (shelf : Shelf P K s3 w)
    (ran : exec P 0 (.fs (.copy (.scratch iid) (.snap sid .scratch))) choice w = some (outcome,v)) :
    Worked P K s3 (· = .snap sid .scratch) w v := by
  obtain ⟨_,mem,bucket⟩ := exec_fs_unmoved ran
  refine shelf.touched ran mem bucket ?_
  rintro p rfl
  exact ⟨rfl,by simp⟩

/-- The disk of an instance that rests is sealed into the snapshot. -/
theorem attains_seal_scratch (sid iid : Id) (picture : Picture) : Attains P K
    (fun s => Preserved P K s3 pinned s ∧ Unfiled pinned sid s ∧ PausedAs iid picture s ∧ Captured P K sid picture s)
    (seal_scratch iid sid) (Preserved P K s3 pinned)
    fun _ s => Preserved P K s3 pinned s ∧ Unfiled pinned sid s ∧ CapturedWhole P K sid picture s ∧ AtPause iid picture s := by
  have patient : Patient fun s : World × CaptureLog => Preserved P K s3 pinned s ∧ Unfiled pinned sid s ∧ PausedAs iid picture s ∧
      Captured P K sid picture s :=
    abiding_preserved.patient.and (abiding_unfiled.patient.and (patient_pausedAs.and abiding_captured.patient))
  refine Lands.bind captureRules_lawful ((attains_exists patient (.scratch iid)).mono (fun _ _ => id) (fun _ _ holds => holds.1)
    fun _ _ _ => id) fun found => ?_
  refine Lands.when (patient.and abiding_seen.patient).stable (fun there => ?_) ?_
  · refine attains_call (patient.and abiding_seen.patient) abiding_preserved.patient (fun _ => (abiding_preserved.and
      (abiding_unfiled.and (abiding_capturedWhole.and abiding_atPause))).patient) ?_ ?_
    all_goals
      rintro choice outcome w log v wf ⟨⟨preserved,unfiled,pausedAs,captured⟩,_⟩
    · intro _ ran
      have worked := preserved.shelf.sealed ran
      obtain ⟨unmoved,_⟩ := exec_fs_unmoved ran
      refine ⟨preserved.filing unfiled unmoved worked (by rintro p rfl; exact ⟨_,rfl⟩) (fun _ _ => rfl) rfl,
        unfiled.unmoved unmoved rfl,⟨⟨captured.taken,?_,?_,captured.considered⟩,?_⟩,pausedAs.atPause⟩
      · exact (worked.files _ (by simp) (by simp)).trans captured.state
      · exact (worked.files _ (by simp) (by simp)).trans captured.image
      · obtain ⟨bytes,given,rfl⟩ := exec_copy ran
        cases given.symm.trans (World.picture_disk pausedAs.same)
        exact (Fs.content_put wf _ _ _).trans (if_pos rfl)
    · intro ran
      obtain ⟨unmoved,_⟩ := exec_fs_unmoved ran
      exact preserved.filing unfiled unmoved (preserved.shelf.sealed ran) (by rintro p rfl; exact ⟨_,rfl⟩) (fun _ _ => rfl) rfl
  · rintro rfl ⟨w,log⟩ _ ⟨⟨_,_,pausedAs,_⟩,missing⟩
    rw [Seen,World.picture_disk pausedAs.same] at missing
    cases missing

section
variable {α β : Type} {A E : World × CaptureLog → Prop} {C : β → World × CaptureLog → Prop} {program : KProg α} {rest : α → KProg β}

/-- Calls that nobody can tell, and what follows them. -/
theorem attains_aside (patient : Patient A) (failed : ∀ s, A s → E s)
    (only : program.Only fun op : Op => op.isGentle = true ∧ op.isBlind = true)
    (onward : ∀ value, Attains P K A (rest value) E C) : Attains P K A (program >>= rest) E C :=
  Lands.bind captureRules_lawful ((attains_gentle patient only).mono (fun _ _ => id) (fun _ _ => failed _) fun _ _ _ => id) onward

/-- Calls that leave the world beside, and what follows them. -/
theorem attains_besides (abiding : Abiding A) (failed : ∀ s, A s → E s)
    (only : program.Only fun op : Op => op.isMild = true ∧ op.isBlind = true)
    (onward : ∀ value, Attains P K A (rest value) E C) : Attains P K A (program >>= rest) E C :=
  Lands.bind captureRules_lawful ((attains_mild abiding only).mono (fun _ _ => id) (fun _ _ => failed _) fun _ _ _ => id) onward

end

theorem gentle_bindText (value : Json) : (bindText P value).Only fun op : Op => op.isGentle = true ∧ op.isBlind = true :=
  only_bindText P value

theorem exec_liveGet {live : Bool} (ran : exec P 0 (.mem (.liveGet iid)) choice w = some (.ok live,v)) :
    (live = true → iid ∈ w.mem.live) ∧ v = w := by
  obtain ⟨⟨r,mem⟩,executed,same⟩ := Option.map_eq_some_iff.mp ran
  cases same
  cases choice <;> cases executed
  exact ⟨fun there => by simpa using there,rfl⟩

/-- A snapshot of the picture of the instance is archived. -/
def Filing (P : Platform) (K : Bytes → Prop) (s3 : Bool) (pinned : Id → Picture → Prop) (iid : Id) (reply : Json)
    (s : World × CaptureLog) :
    Prop :=
  Preserved P K s3 pinned s ∧ ∃ sid picture, reply.get? "snapshot_id" = some (.str sid) ∧ Archived P K s3 sid picture s ∧
    AtPause iid picture s

theorem attains_snapshot_instance (apart : P.Distinguishes K) (iid : Id) (label : Json) :
    Attains P K (Preserved P K s3 pinned) (snapshot_instance P iid label) (Preserved P K s3 pinned) (Filing P K s3 pinned iid) := by
  have alive : Patient fun s : World × CaptureLog => iid ∈ s.1.mem.live := fun w v _ _ rested live => by
    show iid ∈ v.mem.live
    rw [rested.mem]
    exact live
  have preserved : Patient (Preserved P K s3 pinned) := abiding_preserved.patient
  refine Lands.bind captureRules_lawful (B := fun live s => Preserved P K s3 pinned s ∧ (live = true → iid ∈ s.1.mem.live)) ?_ ?_
  · refine attains_call preserved preserved (fun live => preserved.and ?_) ?_ ?_
    · exact fun w v log wf rested held live => alive w v log wf rested (held live)
    · rintro choice live w log v wf holds _ ran
      obtain ⟨there,rfl⟩ := exec_liveGet ran
      exact ⟨holds,there⟩
    · rintro choice error w log v wf holds ran
      exact abiding_preserved w v log wf (exec_beside (by rfl) ran) holds
  intro live
  cases live with
  | false =>
    refine (attains_raise (A := Preserved P K s3 pinned) preserved fun _ => id).mono (fun _ _ holds => holds.1) (fun _ _ => id)
      fun _ _ _ => id
  | true =>
    refine Lands.mono (A := fun s => Preserved P K s3 pinned s ∧ iid ∈ s.1.mem.live) ?_ (fun _ _ holds => ⟨holds.1,holds.2 rfl⟩)
      (fun _ _ => id) fun _ _ _ => id
    have known := preserved.and alive
    refine attains_connection abiding_preserved (attains_aside known (fun _ => And.left) (Only.perform ⟨rfl,rfl⟩) fun T => ?_)
    cases T.instance? iid with
    | none => exact attains_raise known fun _ => And.left
    | some row =>
      refine Lands.bind captureRules_lawful
        (B := fun sid s => Preserved P K s3 pinned s ∧ Unfiled pinned sid s ∧ iid ∈ s.1.mem.live) ?_ fun sid => ?_
      · refine attains_call known preserved (fun sid => preserved.and (abiding_unfiled.patient.and alive)) ?_ ?_
        · rintro choice sid w log v wf ⟨holds,there⟩ _ ran
          obtain ⟨holds',id,same,unfiled,_⟩ := holds.fresh ran
          cases same
          exact ⟨holds',unfiled,(exec_live_stays ran there).resolve_right nofun⟩
        · rintro choice error w log v wf ⟨holds,_⟩ ran
          exact (holds.fresh ran).1
      have named : Patient fun s : World × CaptureLog => Preserved P K s3 pinned s ∧ Unfiled pinned sid s ∧ iid ∈ s.1.mem.live :=
        preserved.and (abiding_unfiled.patient.and alive)
      refine attains_aside named (fun _ => And.left) (Only.perform ⟨rfl,rfl⟩) fun _ => ?_
      refine attains_aside named (fun _ => And.left) (Only.perform ⟨rfl,rfl⟩) fun _ => ?_
      refine attains_aside named (fun _ => And.left) (talks_quiesce iid).gentle fun _ => ?_
      refine Lands.bind captureRules_lawful (attains_pause sid iid) fun _ => Lands.some fun picture => ?_
      refine Lands.bind captureRules_lawful (attains_create sid iid picture) fun _ => ?_
      have captured : Patient fun s : World × CaptureLog => Preserved P K s3 pinned s ∧ Unfiled pinned sid s ∧
        PausedAs iid picture s ∧
          Captured P K sid picture s :=
        preserved.and (abiding_unfiled.patient.and (patient_pausedAs.and abiding_captured.patient))
      refine attains_aside captured (fun _ => And.left) (Only.perform ⟨rfl,rfl⟩) fun _ => ?_
      refine Lands.bind captureRules_lawful (attains_seal_scratch sid iid picture) fun _ => ?_
      have sealed : Abiding fun s : World × CaptureLog => Preserved P K s3 pinned s ∧ Unfiled pinned sid s ∧
        CapturedWhole P K sid picture s ∧
          AtPause iid picture s := abiding_preserved.and (abiding_unfiled.and (abiding_capturedWhole.and abiding_atPause))
      refine attains_besides sealed (fun _ => And.left) (Only.perform ⟨rfl,rfl⟩) fun _ => ?_
      refine Lands.bind captureRules_lawful (attains_chunk_mem apart sid iid picture) fun logical => ?_
      have stored : Abiding fun s : World × CaptureLog => Preserved P K s3 pinned s ∧ Archived P K s3 sid picture s ∧
          AtPause iid picture s := abiding_preserved.and (abiding_archived.and abiding_atPause)
      refine attains_besides stored (fun _ => And.left) (Only.perform ⟨rfl,rfl⟩) fun state => ?_
      refine attains_besides stored (fun _ => And.left) (Only.perform ⟨rfl,rfl⟩) fun now => ?_
      refine attains_aside stored.patient (fun _ => And.left) (gentle_bindText label) fun label => ?_
      refine Lands.bind captureRules_lawful (B := fun _ s => Preserved P K s3 pinned s ∧ Archived P K s3 sid picture s ∧
        AtPause iid picture s) ?_ fun _ => ?_
      · refine attains_call stored.patient preserved (fun _ => stored.patient) ?_ ?_
        · rintro choice _ w log v wf ⟨holds,archived,atPause⟩ _ ran
          obtain ⟨holds',archived'⟩ := holds.recorded archived ⟨rfl,rfl⟩ ran
          exact ⟨holds',archived',atPause⟩
        · rintro choice error w log v wf ⟨holds,archived,_⟩ ran
          exact (holds.recorded archived ⟨rfl,rfl⟩ ran).1
      refine attains_besides stored (fun _ => And.left) (Only.perform ⟨rfl,rfl⟩) fun _ => ?_
      refine attains_besides stored (fun _ => And.left) (Only.perform ⟨rfl,rfl⟩) fun _ => ?_
      refine attains_ret stored.patient fun s ⟨holds,archived,atPause⟩ => ⟨holds,sid,picture,?_,archived,atPause⟩
      simp [Json.get?]

/-! ## A fork -/

/-- The id was given out, and no process has it. -/
def Vacant (iid : Id) (s : World × CaptureLog) : Prop := s.1.Known iid ∧ s.1.hyp.vm iid = none

theorem abiding_vacant : Abiding (Vacant iid) := fun _ _ _ _ beside vacant => ⟨beside.known iid vacant.1,beside.vm iid vacant.2⟩

/-- The instance rests, and this is its disk. -/
structure DiskReady (iid : Id) (disk : Bytes) (s : World × CaptureLog) : Prop where
  known : s.1.Known iid
  rests : s.1.Rests iid
  disk : s.1.fs.content (.scratch iid) = some disk

theorem patient_diskReady {disk : Bytes} : Patient (DiskReady iid disk) := by
  intro w v _ _ rested diskReady
  obtain ⟨rests,same,_⟩ := rested.rests iid diskReady.rests
  exact ⟨rested.known iid diskReady.known,rests,same.trans diskReady.disk⟩

/-- The snapshot is archived with its image in place, and these pictures were shown. -/
def Loading (P : Platform) (K : Bytes → Prop) (s3 : Bool) (pinned : Id → Picture → Prop) (sid : Id) (picture : Picture)
    (shown : List (Id × Option Picture)) (s : World × CaptureLog) : Prop :=
  Preserved P K s3 pinned s ∧ Showing P K s3 sid picture shown s ∧ Warm sid picture s

theorem abiding_loading : Abiding (Loading P K s3 pinned sid picture shown) :=
  abiding_preserved.and (abiding_showing.and abiding_warm)

/-- The disk of a child is a copy of that of the snapshot. -/
theorem attains_copy_disk (iid : Id) : Attains P K
    (fun s => Loading P K s3 pinned sid picture shown s ∧ Vacant iid s) (provide_scratch iid (some (.snap sid .scratch)))
    (Preserved P K s3 pinned) fun _ s => Loading P K s3 pinned sid picture shown s ∧ DiskReady iid picture.disk s := by
  have before : Abiding fun s : World × CaptureLog => Loading P K s3 pinned sid picture shown s ∧ Vacant iid s :=
    abiding_loading.and abiding_vacant
  refine Lands.bind captureRules_lawful ((attains_exists before.patient (.snap sid .scratch)).mono (fun _ _ => id)
    (fun _ _ holds => holds.1.1) fun _ _ _ => id) fun found => ?_
  have seen := before.and (@abiding_seen (.snap sid .scratch) found)
  cases found with
  | false =>
    intro s _ ⟨⟨⟨_,showing,_⟩,_⟩,missing⟩
    rw [Seen,showing.archived.disk] at missing
    cases missing
  | true =>
    refine attains_call seen.patient abiding_preserved.patient (fun _ => abiding_loading.patient.and patient_diskReady) ?_ ?_
    all_goals rintro choice outcome w log v wf ⟨⟨⟨preserved,showing,warm⟩,known,vacant⟩,_⟩
    · intro _ ran
      obtain ⟨unmoved,worked,preserved'⟩ := preserved.diskReady (.inl ⟨_,rfl⟩) ran
      refine ⟨⟨preserved',⟨?_,showing.shown⟩,?_⟩,unmoved.known iid known,?_,?_⟩
      · exact showing.archived.worked worked unmoved rfl (worked.hot (by simp) showing.archived.hot) (by simp)
      · exact (worked.files _ (by simp) (by simp)).trans warm
      · intro vm there
        rw [unmoved.vm,vacant] at there
        cases there
      · obtain ⟨bytes,given,rfl⟩ := exec_copy ran
        cases given.symm.trans showing.archived.disk
        exact (Fs.content_put wf _ _ _).trans (if_pos rfl)
    · exact fun ran => (preserved.diskReady (.inl ⟨_,rfl⟩) ran).2.2

/-- A VM that is set for an instance whose id was given out leaves the snapshot in place. -/
theorem Loading.booted (loading : Loading P K s3 pinned sid picture shown (w,log)) (known : w.Known iid) (vm : Vm) :
    Loading P K s3 pinned sid picture shown ({ w with hyp := w.hyp.set iid vm },log) :=
  ⟨loading.1.booted known vm,⟨loading.2.1.archived.of_same (fun _ => id) rfl rfl rfl,loading.2.1.shown⟩,loading.2.2⟩

theorem attains_spawn {disk : Bytes} (iid : Id) : Attains P K
    (fun s => Loading P K s3 pinned sid picture shown s ∧ DiskReady iid disk s) (vmCall (.spawn iid)) (Preserved P K s3 pinned)
    fun _ s => Loading P K s3 pinned sid picture shown s ∧ DiskReady iid disk s := by
  have patient : Patient fun s : World × CaptureLog => Loading P K s3 pinned sid picture shown s ∧ DiskReady iid disk s :=
    abiding_loading.patient.and patient_diskReady
  refine attains_call patient abiding_preserved.patient (fun _ => patient) ?_ ?_
  all_goals rintro choice outcome w log v wf ⟨loading,diskReady⟩
  · intro _ ran
    obtain ⟨fs,hyp,acts,rfl⟩ := exec_vmActs ran
    cases acts
    refine ⟨loading.booted diskReady.known _,diskReady.known,fun vm there => ?_,diskReady.disk⟩
    rw [Hypervisor.set_self] at there
    exact Option.some.inj there ▸ by simp
  · intro ran
    obtain ⟨fs,hyp,acts,rfl⟩ := exec_vmActs ran
    cases acts with
    | fails => exact loading.1
    | spawn => exact loading.1.booted diskReady.known _

/-- A load shows the picture. -/
theorem attains_load (iid : Id) : Attains P K
    (fun s => Loading P K s3 pinned sid picture shown s ∧ DiskReady iid picture.disk s)
    (vmCall (.load iid (.snap sid .vmstate) (.snap sid .mem))) (Preserved P K s3 pinned)
    fun _ s => Loading P K s3 pinned sid picture (shown ++ [(sid,some picture)]) s ∧ Seen (.scratch iid) true s := by
  refine attains_call (abiding_loading.patient.and patient_diskReady) abiding_preserved.patient
    (fun _ => (abiding_loading.and abiding_seen).patient) ?_ ?_
  all_goals rintro choice outcome w log v wf ⟨loading,diskReady⟩
  · intro _ ran
    obtain ⟨fs,hyp,acts,rfl⟩ := exec_vmActs ran
    cases acts with
    | @load _ _ _ vm dev image guest r _ _ state memory _ =>
      obtain ⟨preserved,showing,warm⟩ := loading.booted diskReady.known ⟨.running,image,dev,restored guest⟩
      cases state.symm.trans showing.archived.state
      cases memory.symm.trans warm
      have picture' : ({ w with hyp := w.hyp.set iid ⟨.running,picture.mem,picture.dev,restored guest⟩ } : World).picture iid =
          some picture := by
        unfold World.picture
        rw [Hypervisor.set_self,diskReady.disk]
        rfl
      refine ⟨?_,?_⟩
      · show Loading P K s3 pinned sid picture _ (_,{ log with shown := log.shown ++ [(sid,World.picture _ iid)] })
        rw [picture']
        refine ⟨preserved.loaded showing.archived,⟨showing.archived.of_same (fun _ => id) rfl rfl rfl,?_⟩,warm⟩
        exact congrArg (· ++ [(sid,some picture)]) showing.shown
      · show true = _
        rw [diskReady.disk]
        rfl
  · intro ran
    obtain ⟨fs,hyp,acts,rfl⟩ := exec_vmActs ran
    cases acts with
    | fails => exact loading.1
    | load => exact loading.1.booted diskReady.known _

/-- An instance with a disk is put into `LIVE`. -/
theorem attains_liveSet (iid : Id) : Attains P K
    (fun s => Loading P K s3 pinned sid picture shown s ∧ Seen (.scratch iid) true s) (memCall (.liveSet iid))
      (Preserved P K s3 pinned)
    fun _ s => Loading P K s3 pinned sid picture shown s := by
  refine attains_call (abiding_loading.and abiding_seen).patient abiding_preserved.patient (fun _ => abiding_loading.patient) ?_ ?_
  all_goals rintro choice outcome w log v wf ⟨⟨preserved,showing,warm⟩,seen⟩
  · intro _ ran
    obtain ⟨_,preserved',live,rfl⟩ := preserved.enlisted seen.symm ran
    exact ⟨preserved',⟨showing.archived.of_same (fun _ => id) rfl rfl rfl,showing.shown⟩,warm⟩
  · exact fun ran => nomatch (preserved.enlisted seen.symm ran).1

/-- One child shows the picture once. -/
theorem attains_fork_child {snap : SnapshotRow} (filed : snap.Filed) (n : Int) (i : Nat) : Attains P K
    (Loading P K s3 pinned snap.id picture shown) (fork_child P snap n i) (Preserved P K s3 pinned)
    fun _ s => Loading P K s3 pinned snap.id picture (shown ++ [(snap.id,some picture)]) s := by
  have start : Patient (Loading P K s3 pinned snap.id picture shown) := abiding_loading.patient
  refine Lands.bind captureRules_lawful (B := fun iid s => Loading P K s3 pinned snap.id picture shown s ∧ Vacant iid s)
    ?_ fun iid => ?_
  · refine attains_call start abiding_preserved.patient (fun iid => (abiding_loading.and abiding_vacant).patient) ?_ ?_
    all_goals rintro choice outcome w log v wf loading
    · intro _ ran
      obtain ⟨_,id,same,unfiled,vacant⟩ := loading.1.fresh ran
      cases same
      exact ⟨abiding_loading w v log wf (exec_beside (by rfl) ran) loading,unfiled.known,vacant⟩
    · exact fun ran => (loading.1.fresh ran).1
  have vacant : Abiding fun s : World × CaptureLog => Loading P K s3 pinned snap.id picture shown s ∧ Vacant iid s :=
    abiding_loading.and abiding_vacant
  have more : Abiding (Loading P K s3 pinned snap.id picture (shown ++ [(snap.id,some picture)])) := abiding_loading
  refine Lands.bind captureRules_lawful
    (B := fun _ => Loading P K s3 pinned snap.id picture (shown ++ [(snap.id,some picture)])) ?_ fun _ => ?_
  · rw [filed.1,filed.2]
    refine attains_besides vacant (fun _ holds => holds.1.1) (Only.perform ⟨rfl,rfl⟩) fun _ => ?_
    refine Lands.bind captureRules_lawful (attains_copy_disk iid) fun _ => ?_
    refine Lands.bind captureRules_lawful (attains_spawn iid) fun _ => ?_
    exact Lands.bind captureRules_lawful (attains_load iid) fun _ => attains_liveSet iid
  refine attains_besides more (fun _ => And.left) ?_ fun branch => ?_
  · exact Only.mono (fun _ both => ⟨Op.isGentle.mild both.1,both.2⟩) (talks_handshake P iid i n).gentle
  refine attains_besides more (fun _ => And.left) (Only.perform ⟨rfl,rfl⟩) fun now => ?_
  refine attains_besides more (fun _ => And.left) (Only.perform ⟨rfl,rfl⟩) fun _ => ?_
  exact attains_ret more.patient fun _ => id

/-- What was shown, and the picture of the snapshot so many times more. -/
def Displays (sid : Id) (count : Nat) (shown : List (Id × Option Picture)) (s : World × CaptureLog) : Prop :=
  ∃ picture, s.2.taken sid = some picture ∧ s.2.shown = shown ++ List.replicate count (sid,some picture)

theorem attains_fork_snapshot (lossless : P.Lossless) (apart : P.Distinguishes K) (sid : Id) (n : Int) : Attains P K
    (fun s => Preserved P K s3 pinned s ∧ s.2.shown = shown) (fork_snapshot P sid n) (Preserved P K s3 pinned)
    fun _ s => Preserved P K s3 pinned s ∧ Displays sid n.toNat shown s := by
  have start : Patient fun s : World × CaptureLog => Preserved P K s3 pinned s ∧ s.2.shown = shown :=
    abiding_preserved.patient.and fun _ _ _ _ _ same => same
  refine attains_connection abiding_preserved ?_
  refine Lands.bind captureRules_lawful (B := fun T s => (Preserved P K s3 pinned s ∧ s.2.shown = shown) ∧
    ∀ row, T.snapshot? sid = some row → row.Filed ∧ row.id = sid ∧ ∃ picture, Archived P K s3 sid picture s) ?_ fun T => ?_
  · refine attains_call start abiding_preserved.patient (fun T => start.and ?_) ?_ ?_
    · intro w v log wf rested all row found
      obtain ⟨filed,named,picture,archived⟩ := all row found
      exact ⟨filed,named,picture,abiding_archived.patient w v log wf rested archived⟩
    · rintro choice T w log v wf ⟨preserved,same⟩ _ ran
      obtain ⟨db,acts,rfl⟩ := exec_dbActs ran
      cases acts with
      | read =>
        refine ⟨⟨preserved,same⟩,fun row found => ?_⟩
        obtain ⟨filed,picture,archived⟩ := preserved.rows.visible 0 row (List.mem_of_find?_eq_some found)
        have named : row.id = sid := by simpa using List.find?_some found
        exact ⟨filed,named,picture,named ▸ archived⟩
    · rintro choice error w log v wf ⟨preserved,_⟩ ran
      exact abiding_preserved w v log wf (exec_beside (by rfl) ran) preserved
  cases found : T.snapshot? sid with
  | none => exact (attains_raise start fun _ => And.left).mono (fun _ _ => And.left) (fun _ _ => id) fun _ _ _ => id
  | some snap =>
    refine Lands.given (fun _ holds => And.intro (holds.2 snap rfl).1 (holds.2 snap rfl).2.1) ?_
    rintro ⟨filed,rfl⟩
    refine Lands.mono (A := fun s => ∃ picture, Preserved P K s3 pinned s ∧ Showing P K s3 snap.id picture shown s) ?_ ?_
      (fun _ _ => id) fun _ _ _ => id
    swap
    · rintro s _ ⟨⟨preserved,same⟩,all⟩
      obtain ⟨_,_,picture,archived⟩ := all snap rfl
      exact ⟨picture,preserved,archived,same⟩
    refine Lands.some fun picture => ?_
    refine Lands.bind captureRules_lawful (attains_reconstruct_mem lossless apart snap.id picture) fun _ => ?_
    have after : ∀ count, Patient (Loading P K s3 pinned snap.id picture (shown ++ List.replicate count (snap.id,some picture))) :=
      fun _ => abiding_loading.patient
    refine Lands.bind captureRules_lawful (B := fun _ => Loading P K s3 pinned snap.id picture
      (shown ++ List.replicate n.toNat (snap.id,some picture))) ?_ fun children => ?_
    · refine Lands.mono (Lands.each
        (X := fun done _ => Loading P K s3 pinned snap.id picture (shown ++ List.replicate done.length (snap.id,some picture)))
        captureRules_lawful (fun done _ => (after done.length).stable) fun done i rest _ _ => ?_) (fun s _ holds => ?_)
          (fun _ _ => id)
        fun values s _ holds => ?_
      · rw [List.length_append,List.length_singleton,List.replicate_succ',← List.append_assoc]
        exact attains_fork_child filed n i
      · rw [List.length_nil,List.replicate_zero,List.append_nil]
        exact holds
      · rwa [List.length_range] at holds
    · refine attains_besides abiding_loading (fun _ => And.left) (Only.perform ⟨rfl,rfl⟩) fun _ => ?_
      refine attains_ret (after n.toNat) fun s loading => ⟨loading.1,picture,loading.2.1.archived.taken,loading.2.1.shown⟩

/-- A fresh VM, with a fresh disk unless there is one. -/
theorem attains_boot_fresh (iid : Id) : Attains P K (fun s => Preserved P K s3 pinned s ∧ s.1.Known iid) (boot_vm iid none none)
    (Preserved P K s3 pinned) fun _ => Preserved P K s3 pinned := by
  have known : Abiding fun s : World × CaptureLog => s.1.Known iid := fun _ _ _ _ beside => beside.known iid
  have both : Abiding fun s : World × CaptureLog => Preserved P K s3 pinned s ∧ s.1.Known iid := abiding_preserved.and known
  have disked : Abiding fun s : World × CaptureLog => (Preserved P K s3 pinned s ∧ s.1.Known iid) ∧ Seen (.scratch iid) true s :=
    both.and abiding_seen
  refine attains_besides both (fun _ => And.left) (Only.perform ⟨rfl,rfl⟩) fun _ => ?_
  refine Lands.bind captureRules_lawful (B := fun _ s => (Preserved P K s3 pinned s ∧ s.1.Known iid) ∧
    Seen (.scratch iid) true s) ?_ fun _ => ?_
  · refine Lands.bind captureRules_lawful ((attains_exists both.patient (.scratch iid)).mono (fun _ _ => id)
      (fun _ _ => And.left) fun _ _ _ => id) fun found => ?_
    have seen := both.and (@abiding_seen (.scratch iid) found)
    cases found with
    | true => exact attains_ret seen.patient fun _ => id
    | false =>
      refine attains_call seen.patient abiding_preserved.patient (fun _ => disked.patient) ?_ ?_
      all_goals rintro choice outcome w log v wf ⟨⟨preserved,known⟩,_⟩
      · intro _ ran
        obtain ⟨unmoved,_,preserved'⟩ := preserved.diskReady (.inr rfl) ran
        refine ⟨⟨preserved',unmoved.known iid known⟩,?_⟩
        obtain ⟨⟨r,fs⟩,executed,same⟩ := Option.map_eq_some_iff.mp ran
        cases same
        cases choice <;> cases executed
        show true = _
        rw [Fs.content_put wf,if_pos rfl]
        rfl
      · exact fun ran => (preserved.diskReady (.inr rfl) ran).2.2
  refine Lands.bind captureRules_lawful (B := fun _ s => (Preserved P K s3 pinned s ∧ s.1.Known iid) ∧
    Seen (.scratch iid) true s) ?_ fun _ => ?_
  · refine attains_call disked.patient abiding_preserved.patient (fun _ => disked.patient) ?_ ?_
    all_goals
      rintro choice outcome w log v wf ⟨⟨preserved,known⟩,seen⟩
    · intro _ ran
      obtain ⟨fs,hyp,acts,rfl⟩ := exec_vmActs ran
      cases acts
      exact ⟨⟨preserved.booted known _,known⟩,seen⟩
    · intro ran
      obtain ⟨fs,hyp,acts,rfl⟩ := exec_vmActs ran
      cases acts with
      | fails => exact preserved
      | spawn => exact preserved.booted known _
  refine attains_besides disked (fun _ holds => holds.1.1) (Only.perform ⟨rfl,rfl⟩) fun _ => ?_
  refine attains_call disked.patient abiding_preserved.patient (fun _ => abiding_preserved.patient) ?_ ?_
  all_goals rintro choice outcome w log v wf ⟨⟨preserved,_⟩,seen⟩
  · exact fun _ ran => (preserved.enlisted seen.symm ran).2.1
  · exact fun ran => nomatch (preserved.enlisted seen.symm ran).1

theorem attains_create_run (project_id : Id) (image_label : Json) : Attains P K (Preserved P K s3 pinned)
    (create_run P project_id image_label) (Preserved P K s3 pinned) fun _ => Preserved P K s3 pinned := by
  have start : Patient (Preserved P K s3 pinned) := abiding_preserved.patient
  have known : ∀ iid, Abiding fun s : World × CaptureLog => Preserved P K s3 pinned s ∧ s.1.Known iid :=
    fun iid => abiding_preserved.and fun _ _ _ _ beside => beside.known iid
  refine attains_besides abiding_preserved (fun _ => id) (Only.perform ⟨rfl,rfl⟩) fun rid => ?_
  refine Lands.bind captureRules_lawful (B := fun iid s => Preserved P K s3 pinned s ∧ s.1.Known iid) ?_ fun iid => ?_
  · refine attains_call start start (fun iid => (known iid).patient) ?_ ?_
    all_goals rintro choice outcome w log v wf preserved
    · intro _ ran
      obtain ⟨preserved',id,same,unfiled,_⟩ := preserved.fresh ran
      cases same
      exact ⟨preserved',unfiled.known⟩
    · exact fun ran => (preserved.fresh ran).1
  refine attains_besides (known iid) (fun _ => And.left) ?_ fun _ => ?_
  · refine Only.catching ?_ fun _ => Only.bind (Only.perform ⟨rfl,rfl⟩) fun _ => trivial
    refine Only.bind (Only.perform ⟨rfl,rfl⟩) fun _ => Only.bind ?_ fun image => ?_
    · exact Only.mono (fun _ both => ⟨Op.isGentle.mild both.1,both.2⟩) (gentle_bindText image_label)
    · exact Only.bind (Only.perform ⟨rfl,rfl⟩) fun _ => Only.bind (Only.perform ⟨rfl,rfl⟩) fun _ =>
        Only.bind (Only.perform ⟨rfl,rfl⟩) fun _ => Only.perform ⟨rfl,rfl⟩
  refine Lands.bind captureRules_lawful (attains_boot_fresh iid) fun _ => ?_
  refine attains_aside start (fun _ => id) (talks_wait_agent iid polls).gentle fun _ => ?_
  exact attains_ret start fun _ => id

/-- The requests that leave the world beside. -/
theorem mild_meter_rows (dt : Rat) (live : List Id) (accr : List (Id × Rat × Rat)) :
    (meter_rows dt live accr).Only fun op : Op => op.isMild = true ∧ op.isBlind = true := by
  induction live generalizing accr with
  | nil => trivial
  | cons iid rest ih =>
    refine Only.bind (Only.perform ⟨rfl,rfl⟩) fun T => ?_
    split
    · exact ih accr
    · exact ih _

theorem mild_connection {α : Type} {body : KProg α} (only : body.Only fun op : Op => op.isMild = true ∧ op.isBlind = true) :
    (connection body).Only fun op : Op => op.isMild = true ∧ op.isBlind = true :=
  Only.catching only fun _ => Only.bind (Only.perform ⟨rfl,rfl⟩) fun _ => trivial

/-- Every request keeps the snapshots, whatever becomes of it. -/
theorem attains_request (lossless : P.Lossless) (apart : P.Distinguishes K) (req : Req) :
    Attains P K (Preserved P K s3 pinned) (req.body P) (Preserved P K s3 pinned) fun _ => Preserved P K s3 pinned := by
  cases req with
  | create_run project_id image_label => exact attains_create_run project_id image_label
  | snapshot_instance iid label =>
    exact (attains_snapshot_instance apart iid label).mono (fun _ _ => id) (fun _ _ => id) fun _ _ _ => And.left
  | fork_snapshot sid n =>
    intro s wf preserved
    have forks : Attains P K (fun s' => Preserved P K s3 pinned s' ∧ s'.2.shown = s.2.shown) (fork_snapshot P sid n)
        (Preserved P K s3 pinned) fun _ => Preserved P K s3 pinned :=
      (attains_fork_snapshot lossless apart sid n).mono (fun _ _ => id) (fun _ _ => id) fun _ _ _ => And.left
    exact forks s wf ⟨preserved,rfl⟩
  | destroy_instance iid =>
    refine attains_mild abiding_preserved (Only.bind (Only.perform ⟨rfl,rfl⟩) fun live => ?_)
    refine Only.bind (Only.when (Only.perform ⟨rfl,rfl⟩)) fun _ => Only.bind (mild_connection ?_) fun _ => trivial
    exact Only.bind (Only.perform ⟨rfl,rfl⟩) fun _ => Only.perform ⟨rfl,rfl⟩
  | timeline run_id =>
    refine attains_mild abiding_preserved ?_
    exact Only.bind (Only.perform ⟨rfl,rfl⟩) fun _ => Only.bind (Only.perform ⟨rfl,rfl⟩) fun _ => trivial
  | meter_tick dt =>
    refine attains_mild abiding_preserved (mild_connection (Only.bind (Only.perform ⟨rfl,rfl⟩) fun live => ?_))
    refine Only.bind (mild_meter_rows _ _ _) fun accr => Only.bind (Only.perform ⟨rfl,rfl⟩) fun now => ?_
    exact Only.bind (Only.each fun _ => Only.perform ⟨rfl,rfl⟩) fun _ => Only.bind (Only.perform ⟨rfl,rfl⟩) fun _ => trivial

end
end Klados
