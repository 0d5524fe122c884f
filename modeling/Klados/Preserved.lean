import Klados.StoreWork

/-!
What the daemon owes to its snapshots. Every snapshot in the tables can be shown as it was taken (`Archived`): its
device state and its disk are in their files, its memory is in its file or in none, and comes back from
the store. `Preserved` says so of all of them, and that what was shown is what was taken.
-/
namespace Klados
open Effects
open Files (Fs)

/-- The snapshot can be shown as this picture. -/
structure Archived (P : Platform) (K : Bytes → Prop) (s3 : Bool) (sid : Id) (picture : Picture)
    (s : World × CaptureLog) : Prop where
  known : s.1.Known sid
  taken : s.2.taken sid = some picture
  state : s.1.fs.content (.snap sid .vmstate) = some picture.dev
  disk : s.1.fs.content (.snap sid .scratch) = some picture.disk
  hot : Hot sid picture.mem s.1
  chunked : Chunked P s3 sid picture.mem s.1
  considered : ∀ blk ∈ pages P picture.mem, K blk

/-- Every snapshot is archived as it was taken; `pinned` are pictures of the log that are to stay there. -/
structure Preserved (P : Platform) (K : Bytes → Prop) (s3 : Bool) (pinned : Id → Picture → Prop)
    (s : World × CaptureLog) : Prop where
  shelf : Shelf P K s3 s.1
  rows : s.1.db.Every fun T => ∀ row ∈ T.snapshots, row.Filed ∧ ∃ picture, Archived P K s3 row.id picture s
  disks : ∀ iid ∈ s.1.mem.live, (s.1.fs.content (.scratch iid)).isSome = true
  vms : ∀ iid, s.1.Known iid ∨ s.1.hyp.vm iid = none
  shown : ∀ entry ∈ s.2.shown, s.1.Known entry.1 ∧ ∃ picture, entry.2 = some picture ∧ s.2.taken entry.1 = some picture
  pinned : ∀ sid picture, pinned sid picture → s.1.Known sid ∧ s.2.taken sid = some picture

/-- Nothing is recorded under the id, which was given out. -/
structure Unfiled (pinned : Id → Picture → Prop) (sid : Id) (s : World × CaptureLog) : Prop where
  known : s.1.Known sid
  rows : s.1.db.Every fun T => ∀ row ∈ T.snapshots, row.id ≠ sid
  shown : ∀ entry ∈ s.2.shown, entry.1 ≠ sid
  pinned : ∀ picture, ¬ pinned sid picture

section
variable {P : Platform} {K : Bytes → Prop} {s3 : Bool} {pinned : Id → Picture → Prop} {w v : World} {log log' : CaptureLog}
  {sid iid : Id} {picture : Picture} {mine : Path → Prop}

theorem Db.Every.mono {J J' : Tables → Prop} {db : Db} (every : db.Every J) (weaker : ∀ T, J T → J' T) : db.Every J' :=
  ⟨weaker _ every.committed,fun t T held => weaker T (every.written t T held)⟩

/-- What is archived depends on the files, the bucket and the log. -/
theorem Archived.of_same (archived : Archived P K s3 sid picture (w,log)) (known : ∀ id, w.Known id → v.Known id)
    (fs : v.fs = w.fs) (bucket : v.bucket = w.bucket) (taken : log'.taken sid = log.taken sid) :
    Archived P K s3 sid picture (v,log') := by
  have content : v.fs.content = w.fs.content := by rw [fs]
  refine ⟨known sid archived.known,taken.trans archived.taken,?_,?_,?_,⟨?_,?_⟩,archived.considered⟩
  · exact (congrFun content _).trans archived.state
  · exact (congrFun content _).trans archived.disk
  · unfold Hot
    rw [content]
    exact archived.hot
  · exact (congrFun content _).trans archived.chunked.manifest
  · exact fun blk member => (archived.chunked.there blk member).of_same bucket fun _ => congrFun content _

theorem Shelf.beside (shelf : Shelf P K s3 w) (beside : Beside w v) : Shelf P K s3 v :=
  shelf.of_same (beside.fs.wf shelf.wf) beside.store beside.bucket fun _ => beside.content shelf.wf (by simp [Path.isDisk])

theorem Beside.snap (beside : Beside w v) (wf : w.fs.Wf) (sid : Id) (file : SnapFile) :
    v.fs.content (.snap sid file) = w.fs.content (.snap sid file) := beside.content wf (by simp [Path.isDisk])

theorem Chunked.beside {image : Bytes} (chunked : Chunked P s3 sid image w) (beside : Beside w v) (wf : w.fs.Wf) :
    Chunked P s3 sid image v where
  manifest := (beside.snap wf sid .manifest).trans chunked.manifest
  there blk member := (chunked.there blk member).of_same beside.bucket fun _ => beside.content wf (by simp [Path.isDisk])

theorem abiding_archived : Abiding (Archived P K s3 sid picture) := by
  intro w v log wf beside archived
  refine ⟨beside.known sid archived.known,archived.taken,?_,?_,?_,archived.chunked.beside beside wf,archived.considered⟩
  · exact (beside.snap wf sid .vmstate).trans archived.state
  · exact (beside.snap wf sid .scratch).trans archived.disk
  · unfold Hot
    rw [beside.snap wf sid .mem]
    exact archived.hot

theorem Beside.disk (beside : Beside w v) (iid : Id) :
    (v.fs.content (.scratch iid)).isSome = (w.fs.content (.scratch iid)).isSome := by
  rw [Fs.content_isSome,Fs.content_isSome,beside.fs.names]

theorem abiding_preserved : Abiding (Preserved P K s3 pinned) := by
  intro w v log wf beside preserved
  refine ⟨preserved.shelf.beside beside,?_,?_,?_,?_,?_⟩
  · refine (beside.rows _ preserved.rows).mono fun T rows row member => ?_
    obtain ⟨filed,picture,archived⟩ := rows row member
    exact ⟨filed,picture,abiding_archived w v log wf beside archived⟩
  · intro iid member
    rw [beside.disk iid]
    exact preserved.disks iid (beside.live iid member)
  · exact fun iid => (preserved.vms iid).imp (beside.known iid) (beside.vm iid)
  · exact fun entry member => (preserved.shown entry member).imp_left (beside.known _)
  · exact fun sid picture pin => (preserved.pinned sid picture pin).imp_left (beside.known _)

theorem abiding_unfiled : Abiding (Unfiled pinned sid) :=
  fun _ _ _ _ beside unfiled => ⟨beside.known sid unfiled.known,beside.rows _ unfiled.rows,unfiled.shown,unfiled.pinned⟩

theorem Abiding.and {A B : World × CaptureLog → Prop} (first : Abiding A) (second : Abiding B) : Abiding fun s => A s ∧ B s :=
  fun w v log wf beside holds => ⟨first w v log wf beside holds.1,second w v log wf beside holds.2⟩

theorem Patient.and {A B : World × CaptureLog → Prop} (first : Patient A) (second : Patient B) : Patient fun s => A s ∧ B s :=
  fun w v log wf rested holds => ⟨first w v log wf rested holds.1,second w v log wf rested holds.2⟩

/-- The tables, `LIVE`, the ids and the VMs are what they were. -/
structure Unmoved (w v : World) : Prop where
  db : v.db = w.db
  live : v.mem.live = w.mem.live
  known : ∀ id, w.Known id → v.Known id
  vm : v.hyp.vm = w.hyp.vm

theorem Unfiled.unmoved (unfiled : Unfiled pinned sid (w,log)) (unmoved : Unmoved w v) (shown : log'.shown = log.shown) :
    Unfiled pinned sid (v,log') := by
  refine ⟨unmoved.known sid unfiled.known,?_,?_,unfiled.pinned⟩
  · show v.db.Every _
    rw [unmoved.db]
    exact unfiled.rows
  · show ∀ entry ∈ log'.shown, _
    rw [shown]
    exact unfiled.shown

/-- The snapshots after work that leaves all that is archived, but for ids under which nothing is recorded. -/
theorem Preserved.onward (own : Id → Prop) (preserved : Preserved P K s3 pinned (w,log)) (unmoved : Unmoved w v)
    (unfiled : ∀ sid, own sid → Unfiled pinned sid (w,log)) (shelf : Shelf P K s3 v)
    (disks : ∀ iid, (w.fs.content (.scratch iid)).isSome = true → (v.fs.content (.scratch iid)).isSome = true)
    (archived : ∀ sid picture, ¬ own sid → Archived P K s3 sid picture (w,log) → Archived P K s3 sid picture (v,log'))
    (taken : ∀ sid, ¬ own sid → log'.taken sid = log.taken sid) (shown : log'.shown = log.shown) :
    Preserved P K s3 pinned (v,log') := by
  refine ⟨shelf,?_,?_,?_,?_,?_⟩
  · show v.db.Every _
    rw [unmoved.db]
    have other : w.db.Every fun T => ∀ row ∈ T.snapshots, ¬ own row.id := by
      constructor
      · exact fun row member mine => (unfiled _ mine).rows.committed row member rfl
      · exact fun t T held row member mine => (unfiled _ mine).rows.written t T held row member rfl
    constructor
    · intro row member
      obtain ⟨filed,picture,holds⟩ := preserved.rows.committed row member
      exact ⟨filed,picture,archived _ _ (other.committed row member) holds⟩
    · intro t T held row member
      obtain ⟨filed,picture,holds⟩ := preserved.rows.written t T held row member
      exact ⟨filed,picture,archived _ _ (other.written t T held row member) holds⟩
  · intro iid member
    exact disks iid (preserved.disks iid (unmoved.live ▸ member))
  · intro iid
    show v.Known iid ∨ v.hyp.vm iid = none
    rw [unmoved.vm]
    exact (preserved.vms iid).imp_left (unmoved.known iid)
  · show ∀ entry ∈ log'.shown, v.Known entry.1 ∧ ∃ picture, entry.2 = some picture ∧ log'.taken entry.1 = some picture
    rw [shown]
    intro entry member
    rw [taken entry.1 fun mine => (unfiled _ mine).shown entry member rfl]
    exact (preserved.shown entry member).imp_left (unmoved.known _)
  · intro sid picture pin
    show v.Known sid ∧ log'.taken sid = some picture
    rw [taken sid fun mine => (unfiled _ mine).pinned picture pin]
    exact (preserved.pinned sid picture pin).imp_left (unmoved.known _)

/-- What is archived stays so in work on other files. -/
theorem Archived.worked (archived : Archived P K s3 sid picture (w,log)) (worked : Worked P K s3 mine w v)
    (unmoved : Unmoved w v) (taken : log'.taken sid = log.taken sid) (hot : Hot sid picture.mem v)
    (other : ¬ mine (.snap sid .vmstate) ∧ ¬ mine (.snap sid .scratch) ∧ ¬ mine (.snap sid .manifest)) :
    Archived P K s3 sid picture (v,log') where
  known := unmoved.known sid archived.known
  taken := taken.trans archived.taken
  state := (worked.files _ other.1 (by simp)).trans archived.state
  disk := (worked.files _ other.2.1 (by simp)).trans archived.disk
  hot := hot
  chunked := {
    manifest := (worked.files _ other.2.2 (by simp)).trans archived.chunked.manifest
    there := fun blk member => worked.persists blk (archived.considered blk member) (archived.chunked.there blk member) }
  considered := archived.considered

theorem Worked.hot {image : Bytes} (worked : Worked P K s3 mine w v) (other : ¬ mine (.snap sid .mem)) (hot : Hot sid image w) :
    Hot sid image v := by
  unfold Hot
  rw [worked.files _ other (by simp)]
  exact hot

/-- A call that works on some files only. -/
theorem Shelf.touched {op : Op} {choice : Choice} {outcome : Except Exn op.Res} (shelf : Shelf P K s3 w)
    (ran : exec P 0 op choice w = some (outcome,v)) (mem : v.mem = w.mem) (bucket : v.bucket = w.bucket)
    (writes : ∀ p, op.Writes w.fs p → mine p ∧ ∀ h, p ≠ .chunk h) : Worked P K s3 mine w v := by
  have touches := exec_touches ran
  have chunk : ∀ h, v.fs.content (.chunk h) = w.fs.content (.chunk h) := fun h =>
    touches.content shelf.wf fun writing => (writes _ writing).2 h rfl
  refine ⟨shelf.of_same (touches.wf shelf.wf) (by rw [mem]) bucket chunk,?_,?_⟩
  · exact fun blk _ persists => persists.of_same bucket chunk
  · exact fun p other _ => touches.content shelf.wf fun writing => other (writes p writing).1

theorem exec_unmoved {op : Op} {choice : Choice} {outcome : Except Exn op.Res} (storing : op.isStoring = true)
    (ran : exec P 0 op choice w = some (outcome,v)) : Unmoved w v := by
  cases op with
  | fs o | s3 o =>
    obtain ⟨_,_,same⟩ := Option.map_eq_some_iff.mp ran
    cases same
    exact ⟨rfl,rfl,fun _ => id,rfl⟩
  | mem o =>
    obtain ⟨⟨r,mem⟩,executed,same⟩ := Option.map_eq_some_iff.mp ran
    cases same
    refine ⟨rfl,?_,fun _ => id,rfl⟩
    cases o with
    | store | update | release =>
      cases choice <;> cases executed
      rfl
    | acquire =>
      cases choice with
      | ok =>
        simp only [memExec] at executed
        split at executed <;> cases executed
        rfl
      | fail | torn | id | text | time | flag | boot | bootLost | lost | eof | puts | found => cases executed
    | liveGet | liveSet | livePop | liveKeys => cases storing
  | db | vm | sys => cases storing

theorem Unmoved.trans {u : World} (first : Unmoved w u) (second : Unmoved u v) : Unmoved w v :=
  ⟨second.db.trans first.db,second.live.trans first.live,fun id known => second.known id (first.known id known),
    second.vm.trans first.vm⟩

theorem Stores.unmoved {α : Type} {program : KProg α} (stores : Stores program) {result : Except Exn α}
    (ran : Does (sure P) program w result v) : Unmoved w v := by
  refine Does.keeps (I := Unmoved w) ?_ stores ran ⟨rfl,rfl,fun _ => id,rfl⟩
  rintro op storing u outcome x ⟨⟨choice,stepped⟩,_⟩ before
  exact before.trans (exec_unmoved storing stepped)

/-! ## An image is stored -/

/-- What a capture leaves: the picture in the log, and the two files. -/
structure Captured (P : Platform) (K : Bytes → Prop) (sid : Id) (picture : Picture) (s : World × CaptureLog) : Prop where
  taken : s.2.taken sid = some picture
  state : s.1.fs.content (.snap sid .vmstate) = some picture.dev
  image : s.1.fs.content (.snap sid .mem) = some picture.mem
  considered : ∀ blk ∈ pages P picture.mem, K blk

/-- Moreover the disk is sealed into the snapshot. -/
structure CapturedWhole (P : Platform) (K : Bytes → Prop) (sid : Id) (picture : Picture) (s : World × CaptureLog) : Prop
    extends Captured P K sid picture s where
  disk : s.1.fs.content (.snap sid .scratch) = some picture.disk

theorem abiding_captured : Abiding (Captured P K sid picture) := by
  intro w v log wf beside captured
  refine ⟨captured.taken,(beside.snap wf sid .vmstate).trans captured.state,?_,captured.considered⟩
  exact (beside.snap wf sid .mem).trans captured.image

theorem abiding_capturedWhole : Abiding (CapturedWhole P K sid picture) := by
  intro w v log wf beside sealed
  exact ⟨abiding_captured w v log wf beside sealed.toCaptured,(beside.snap wf sid .scratch).trans sealed.disk⟩

theorem isHot_other {sid' : Id} {file : SnapFile} (other : sid' ≠ sid) : ¬ Path.isHot sid (.snap sid' file) := by
  rintro (same | same) <;> exact other (Path.snap.inj same).1

/-- Work on the files of an id under which nothing is recorded. -/
theorem Preserved.filing (preserved : Preserved P K s3 pinned (w,log)) (unfiled : Unfiled pinned sid (w,log))
    (unmoved : Unmoved w v) (worked : Worked P K s3 mine w v) (own : ∀ p, mine p → ∃ file, p = .snap sid file)
    (taken : ∀ other, other ≠ sid → log'.taken other = log.taken other) (shown : log'.shown = log.shown) :
    Preserved P K s3 pinned (v,log') := by
  have apart : ∀ {sid' file}, sid' ≠ sid → ¬ mine (.snap sid' file) := by
    intro sid' file other touched
    obtain ⟨_,same⟩ := own _ touched
    exact other (Path.snap.inj same).1
  refine preserved.onward (· = sid) unmoved (fun _ same => same ▸ unfiled) worked.shelf ?_ ?_ taken shown
  · intro iid there
    have other : ¬ mine (.scratch iid) := fun touched => by
      obtain ⟨_,same⟩ := own _ touched
      cases same
    rw [worked.files _ other (by simp)]
    exact there
  · intro sid' picture other archived
    have away : ¬ mine (.snap sid' .mem) := apart other
    have hot := worked.hot away archived.hot
    exact archived.worked worked unmoved (taken sid' other) hot ⟨apart other,apart other,apart other⟩

/-- The picture of an instance that was paused is in the log. -/
def AtPause (iid : Id) (picture : Picture) (s : World × CaptureLog) : Prop := s.2.atPause iid = some picture

theorem abiding_atPause : Abiding (AtPause iid picture) := fun _ _ _ _ _ atPause => atPause

theorem attains_chunk_mem (apart : P.Distinguishes K) (sid iid : Id) (picture : Picture) :
    Attains P K (fun s => Preserved P K s3 pinned s ∧ Unfiled pinned sid s ∧ CapturedWhole P K sid picture s ∧
      AtPause iid picture s)
      (chunk_mem P sid (.snap sid .mem)) (Preserved P K s3 pinned)
      fun _ s => Preserved P K s3 pinned s ∧ Archived P K s3 sid picture s ∧ AtPause iid picture s := by
  refine attains_storing (stores_chunk_mem sid) abiding_preserved
    (fun _ => abiding_preserved.and (abiding_archived.and abiding_atPause)) ?_
  rintro w log ⟨preserved,unfiled,sealed,atPause⟩ result v ran
  obtain ⟨worked,whole⟩ := preserved.shelf.chunk_mem apart sealed.image sealed.considered result v ran
  have unmoved := (stores_chunk_mem sid).unmoved ran
  have own : ∀ p, Path.isImage sid p → ∃ file, p = .snap sid file := by
    rintro p (rfl | rfl)
    · exact ⟨_,rfl⟩
    · exact ⟨_,rfl⟩
  have kept : Preserved P K s3 pinned (v,log) := preserved.filing unfiled unmoved worked own (fun _ _ => rfl) rfl
  cases result with
  | error error => exact kept
  | ok logical =>
    obtain ⟨chunked,gone⟩ := whole logical rfl
    refine ⟨kept,⟨unmoved.known sid unfiled.known,sealed.taken,?_,?_,?_,chunked,sealed.considered⟩,atPause⟩
    · exact (worked.files _ (by simp [Path.isImage]) (by simp)).trans sealed.state
    · exact (worked.files _ (by simp [Path.isImage]) (by simp)).trans sealed.disk
    · intro bytes found
      cases gone.symm.trans found

/-- The log shows these pictures, and the snapshot is archived. -/
structure Showing (P : Platform) (K : Bytes → Prop) (s3 : Bool) (sid : Id) (picture : Picture) (shown : List (Id × Option Picture))
    (s : World × CaptureLog) : Prop where
  archived : Archived P K s3 sid picture s
  shown : s.2.shown = shown

variable {shown : List (Id × Option Picture)}

theorem abiding_showing : Abiding (Showing P K s3 sid picture shown) :=
  fun w v log wf beside showing => ⟨abiding_archived w v log wf beside showing.archived,showing.shown⟩

/-- The image is in its file. -/
def Warm (sid : Id) (picture : Picture) (s : World × CaptureLog) : Prop := s.1.fs.content (.snap sid .mem) = some picture.mem

theorem abiding_warm : Abiding (Warm sid picture) := fun _ _ _ wf beside warm => (beside.snap wf sid .mem).trans warm

theorem attains_reconstruct_mem (lossless : P.Lossless) (apart : P.Distinguishes K) (sid : Id) (picture : Picture) :
    Attains P K (fun s => Preserved P K s3 pinned s ∧ Showing P K s3 sid picture shown s) (reconstruct_mem P sid)
      (Preserved P K s3 pinned)
      fun _ s => Preserved P K s3 pinned s ∧ Showing P K s3 sid picture shown s ∧ Warm sid picture s := by
  refine attains_storing (stores_reconstruct_mem sid) abiding_preserved
    (fun _ => abiding_preserved.and (abiding_showing.and abiding_warm)) ?_
  rintro w log ⟨preserved,showing⟩ result v ran
  have archived := showing.archived
  obtain ⟨worked,hot,whole⟩ :=
    archived.chunked.reconstruct_mem preserved.shelf archived.hot lossless apart archived.considered result v ran
  have unmoved := (stores_reconstruct_mem sid).unmoved ran
  have all : ∀ sid' picture', Archived P K s3 sid' picture' (w,log) → Archived P K s3 sid' picture' (v,log) := by
    intro sid' picture' holds
    by_cases same : sid' = sid
    · subst same
      obtain rfl : picture' = picture := Option.some.inj (holds.taken.symm.trans archived.taken)
      exact holds.worked worked unmoved rfl hot (by simp [Path.isHot])
    · have away : ¬ Path.isHot sid (.snap sid' .mem) := isHot_other same
      have hot' := worked.hot away holds.hot
      exact holds.worked worked unmoved rfl hot' ⟨isHot_other same,isHot_other same,isHot_other same⟩
  have kept : Preserved P K s3 pinned (v,log) := by
    refine preserved.onward (fun _ => False) unmoved (fun _ no => no.elim) worked.shelf ?_ (fun sid picture _ => all sid picture)
      (fun _ _ => rfl) rfl
    intro iid there
    rw [worked.files _ (by simp [Path.isHot]) (by simp)]
    exact there
  cases result with
  | error error => exact kept
  | ok path => exact ⟨kept,⟨all sid picture archived,showing.shown⟩,whole path rfl⟩

end
end Klados
