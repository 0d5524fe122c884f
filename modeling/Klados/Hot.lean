import Klados.Shelf

/-!
An image comes back. `_reconstruct_mem` gets the chunks of the manifest one after the other into a
temporary file and gives it the name of the image. As long as nothing fails to be made, the file that
has this name is the image that was captured, however the other calls end.
-/
namespace Klados
open Effects
open Files (Fs)

section
variable {P : Platform} {K : Bytes → Prop} {s3 : Bool} {mine : Path → Prop} {w v u : World} {blk : Bytes}

/-- The file of a chunk is filled. -/
theorem Shelf.warms (shelf : Shelf P K s3 w) (apart : P.Distinguishes K) (considered : K blk) :
    Worked P K s3 mine w { w with fs := w.fs.put (.chunk (P.blake2b blk)) (P.compress blk) } := by
  have files := fun p => Fs.content_put shelf.wf (.chunk (P.blake2b blk)) (P.compress blk) p
  have persists : ∀ blk', K blk' → Persists P s3 w blk' →
      Persists P s3 { w with fs := w.fs.put (.chunk (P.blake2b blk)) (P.compress blk) } blk' := by
    intro blk' considered' there
    cases s3 with
    | true => exact there
    | false =>
      refine (files _).trans ?_
      by_cases own : Path.chunk (P.blake2b blk') = .chunk (P.blake2b blk)
      · rw [if_pos own,apart blk' blk considered' considered (Path.chunk.inj own)]
      · rw [if_neg own]
        exact there
  refine ⟨⟨Fs.put_wf shelf.wf _ _,shelf.root,shelf.block,shelf.cdc,shelf.tier,?_,shelf.queued,?_⟩,persists,?_⟩
  · intro blk' considered' bytes found
    rw [files] at found
    split at found
    · rename_i own
      cases found
      rw [apart blk' blk considered' considered (Path.chunk.inj own)]
    · exact shelf.clean blk' considered' bytes found
  · intro blk' considered' knows
    exact (shelf.indexed blk' considered' knows).imp (persists blk' considered') id
  · intro p _ chunk
    rw [files,if_neg (chunk _)]

/-- What getting a chunk can leave: nothing, or its file. -/
def Got (P : Platform) (blk : Bytes) (w v : World) : Prop :=
  v = w ∨ v = { w with fs := w.fs.put (.chunk (P.blake2b blk)) (P.compress blk) }

theorem Got.worked (shelf : Shelf P K s3 w) (apart : P.Distinguishes K) (considered : K blk) (got : Got P blk w v) :
    Worked P K s3 mine w v := by
  rcases got with rfl | rfl
  · exact .refl shelf
  · exact shelf.warms apart considered

theorem Got.names (got : Got P blk w v) {p : Path} (chunk : ∀ h, p ≠ .chunk h) : v.fs.names p = w.fs.names p := by
  rcases got with rfl | rfl
  · rfl
  · rw [Fs.put,Fs.write_names,Fs.openTrunc_names,Function.update_of_ne (chunk _)]

theorem finishes_decompress (lossless : P.Lossless) : Finishes (sure P) (decompress P (P.compress blk)) w fun result v =>
    v = w ∧ result = .ok blk := by
  unfold decompress
  rw [lossless.decompress_compress]
  exact Finishes.ret ⟨rfl,rfl⟩

/-- A chunk that is where it stays is got, if no call fails, and nothing else is got. -/
theorem Shelf.get (shelf : Shelf P K s3 w) (lossless : P.Lossless) (considered : K blk) (there : Persists P s3 w blk) :
    Finishes (sure P) (get P (P.blake2b blk)) w fun result v => Got P blk w v ∧ ∀ part, result = .ok part → part = blk := by
  refine Finishes.after (Finishes.perform fun _ _ stepped => acts_store.mp stepped.1) ?_
  have cached : isCached w.mem.store (P.blake2b blk) = fsCall (.exists (.chunk (P.blake2b blk))) := if_pos shelf.root
  rw [cached]
  refine Finishes.after (Finishes.perform fun _ _ stepped => acts_exists.mp stepped.1) ?_
  cases found : w.fs.content (.chunk (P.blake2b blk)) with
  | some bytes =>
    rw [if_pos (by rw [← Fs.content_isSome,found]; rfl)]
    refine Finishes.bind (R := fun result v => v = w ∧ ∀ data, result = .ok data → data = P.compress blk) ?_ ?_ ?_
    · refine Finishes.perform fun outcome v stepped => ?_
      obtain ⟨same,read⟩ := acts_readFile stepped.1
      exact ⟨same,fun data returned => shelf.clean blk considered data (read data returned)⟩
    · rintro data w ⟨rfl,whole⟩
      obtain rfl := whole data rfl
      intro result v ran
      obtain ⟨rfl,rfl⟩ := finishes_decompress lossless result v ran
      exact ⟨.inl rfl,fun part same => (Except.ok.inj same).symm⟩
    · rintro _ _ ⟨same,_⟩
      exact ⟨.inl same,nofun⟩
  | none =>
    rw [if_neg (by rw [← Fs.content_isSome,found]; simp)]
    cases s3 with
    | false => exact nomatch found.symm.trans there
    | true =>
      unfold get_cold
      rw [if_pos shelf.tier]
      refine Finishes.bind (R := fun result v => v = w ∧ ∀ comp, result = .ok comp → comp = P.compress blk) ?_ ?_ ?_
      · refine Finishes.perform ?_
        rintro outcome v ⟨⟨choice,ran⟩,_⟩
        have object : w.bucket (P.blake2b blk) = some (P.compress blk) := there
        cases choice <;> simp [exec,s3Exec,object] at ran
        · obtain ⟨rfl,rfl⟩ := ran
          exact ⟨rfl,fun comp same => (Except.ok.inj same).symm⟩
        · obtain ⟨rfl,rfl⟩ := ran
          refine ⟨rfl,fun comp same => ?_⟩
          cases same
      · rintro comp w ⟨rfl,whole⟩
        obtain rfl := whole comp rfl
        rw [shelf.root]
        have warmed : Finishes (sure P) (Prog.when true (warm (P.blake2b blk) (P.compress blk))) w fun result v =>
            result = .ok () ∧ v = { w with fs := w.fs.put (.chunk (P.blake2b blk)) (P.compress blk) } := by
          intro result v ran
          have made := (sound_of_sure ran).after _ fun _ _ first => sound_makedirs (Does.perform.mp first)
          exact sound_write_file made
        refine Finishes.after warmed ?_
        intro result v ran
        obtain ⟨rfl,rfl⟩ := finishes_decompress lossless result v ran
        exact ⟨.inr rfl,fun part same => (Except.ok.inj same).symm⟩
      · rintro _ _ ⟨same,_⟩
        exact ⟨.inl same,nofun⟩

/-- The temporary file is open and holds what was written so far. -/
structure Spooled (sid : Id) (out : Nat) (done : Bytes) (w : World) : Prop where
  named : w.fs.names (.snap sid .memTmp) = some out
  holds : w.fs.content (.snap sid .memTmp) = some done

theorem Spooled.write {sid : Id} {out : Nat} {done : Bytes} (filled : Spooled sid out done w) (shelf : Shelf P K s3 w)
    (bytes : Bytes) : Spooled sid out (done ++ bytes) { w with fs := w.fs.write out done.length bytes } ∧
      Worked P K s3 (· = .snap sid .memTmp) w { w with fs := w.fs.write out done.length bytes } := by
  have files := fun p => Fs.content_write shelf.wf filled.named done.length bytes p
  have holds : w.fs.data out = done := by
    have found := filled.holds
    rw [Fs.content,filled.named] at found
    exact Option.some.inj found
  refine ⟨⟨filled.named,?_⟩,shelf.alters rfl (by simp) ⟨rfl,rfl,fun wf => Fs.write_wf wf _ _ _,?_⟩⟩
  · refine (files _).trans ?_
    rw [if_pos rfl,holds,Fs.overlay_end]
  · exact fun _ q other => (files q).trans (if_neg other)

/-- Run: the chunks are written one after the other, as long as they are got. -/
theorem Spooled.write_chunks {sid : Id} {out : Nat} {done : Bytes} (filled : Spooled sid out done w) (shelf : Shelf P K s3 w)
    (lossless : P.Lossless) (apart : P.Distinguishes K) {blks : List Bytes} (considered : ∀ blk ∈ blks, K blk)
    (there : ∀ blk ∈ blks, Persists P s3 w blk) :
    Finishes (sure P) (write_chunks P out done.length (blks.map P.blake2b)) w fun result v =>
      Worked P K s3 (· = .snap sid .memTmp) w v ∧ (result = .ok () → Spooled sid out (done ++ blks.flatten) v) := by
  induction blks generalizing w done with
  | nil =>
    refine Finishes.ret ⟨.refl shelf,fun _ => ?_⟩
    rw [List.flatten_nil,List.append_nil]
    exact filled
  | cons blk rest ih =>
    have own := considered blk (List.mem_cons_self ..)
    refine Finishes.bind (shelf.get lossless own (there blk (List.mem_cons_self ..))) ?_
      fun _ _ got => ⟨got.1.worked shelf apart own,nofun⟩
    rintro part u ⟨got,same⟩
    obtain rfl := same part rfl
    have worked : Worked P K s3 (· = .snap sid .memTmp) w u := got.worked shelf apart own
    have opened : Spooled sid out done u := by
      have named := got.names (show ∀ h, Path.snap sid .memTmp ≠ .chunk h by simp)
      have kept : Worked P K s3 (fun _ => False) w u := got.worked shelf apart own
      exact ⟨named.trans filled.named,(kept.files _ (by simp) (by simp)).trans filled.holds⟩
    obtain ⟨more,written⟩ := opened.write worked.shelf part
    refine Finishes.bind (R := fun result v => v = { u with fs := u.fs.write out done.length part }) ?_ ?_ ?_
    · exact fun result v ran => (sound_write (Does.perform.mp (sound_of_sure ran))).2
    · rintro _ _ rfl
      have later := fun blk' member => considered blk' (List.mem_cons_of_mem _ member)
      have next := ih more written.shelf later fun blk' member => written.persists blk' (later blk' member)
        (worked.persists blk' (later blk' member) (there blk' (List.mem_cons_of_mem _ member)))
      rw [List.length_append] at next
      intro result v ran
      obtain ⟨last,whole⟩ := next result v ran
      refine ⟨(worked.trans written).trans last,fun returned => ?_⟩
      rw [List.flatten_cons,← List.append_assoc]
      exact whole returned
    · rintro error _ rfl
      exact ⟨worked.trans written,nofun⟩

/-- The files that `_reconstruct_mem` works on. -/
def Path.isHot (sid : Id) (p : Path) : Prop := p = .snap sid .mem ∨ p = .snap sid .memTmp

theorem Worked.weaken {mine' : Path → Prop} (worked : Worked P K s3 mine w v) (fewer : ∀ p, mine p → mine' p) :
    Worked P K s3 mine' w v :=
  ⟨worked.shelf,worked.persists,fun p other => worked.files p fun own => other (fewer p own)⟩

/-- The temporary file gets the name of the image. -/
theorem Spooled.replaced {sid : Id} {out : Nat} {image : Bytes} (spooled : Spooled sid out image w) (shelf : Shelf P K s3 w) :
    ∃ fs, w.fs.replace (.snap sid .memTmp) (.snap sid .mem) = some fs ∧ Worked P K s3 (Path.isHot sid) w { w with fs } ∧
      fs.content (.snap sid .mem) = some image := by
  cases replaced : w.fs.replace (.snap sid .memTmp) (.snap sid .mem) with
  | none =>
    rw [Fs.replace,spooled.named] at replaced
    cases replaced
  | some fs =>
    have files := Fs.content_replace (by simp) replaced
    have chunk : ∀ h, fs.content (.chunk h) = w.fs.content (.chunk h) := fun h => by simp [files]
    refine ⟨fs,rfl,⟨shelf.of_same (Fs.replace_wf shelf.wf replaced) rfl rfl chunk,?_,?_⟩,?_⟩
    · exact fun blk _ persists => persists.of_same rfl chunk
    · exact fun q other _ => (files q).trans ((if_neg fun own => other (.inl own)).trans (if_neg fun own => other (.inr own)))
    · rw [files,if_pos rfl]
      exact spooled.holds

/-- However the image is built, it is built whole or not at all. -/
theorem Chunked.materialize {sid : Id} {image : Bytes} (chunked : Chunked P s3 sid image w) (shelf : Shelf P K s3 w)
    (lossless : P.Lossless) (apart : P.Distinguishes K) (considered : ∀ blk ∈ pages P image, K blk) :
    Finishes (sure P) (materialize P sid) w fun result v => Worked P K s3 (Path.isHot sid) w v ∧
      (v.fs.content (.snap sid .mem) = w.fs.content (.snap sid .mem) ∨ v.fs.content (.snap sid .mem) = some image) ∧
      (result = .ok () → v.fs.content (.snap sid .mem) = some image) := by
  have tmp : ∀ {v}, Worked P K s3 (· = .snap sid .memTmp) w v → Worked P K s3 (Path.isHot sid) w v ∧
      v.fs.content (.snap sid .mem) = w.fs.content (.snap sid .mem) := fun worked =>
    ⟨worked.weaken fun _ => .inr,worked.files _ (by simp) (by simp)⟩
  have fails : ∀ {v}, Worked P K s3 (· = .snap sid .memTmp) w v → ∀ error : Exn, Worked P K s3 (Path.isHot sid) w v ∧
      (v.fs.content (.snap sid .mem) = w.fs.content (.snap sid .mem) ∨ v.fs.content (.snap sid .mem) = some image) ∧
      ((.error error : Except Exn Unit) = .ok () → v.fs.content (.snap sid .mem) = some image) := fun worked _ =>
    ⟨(tmp worked).1,.inl (tmp worked).2,nofun⟩
  refine Finishes.bind (R := fun result v => v = w ∧ ∀ bytes, result = .ok bytes → bytes = manifestOf P image) ?_ ?_ ?_
  · refine Finishes.perform fun outcome v stepped => ?_
    obtain ⟨same,read⟩ := acts_readFile stepped.1
    exact ⟨same,fun bytes returned => Option.some.inj ((read bytes returned).symm.trans chunked.manifest)⟩
  swap
  · rintro error v ⟨rfl,_⟩
    exact fails (.refl shelf) error
  rintro bytes u ⟨rfl,whole⟩
  obtain rfl := whole bytes rfl
  have loaded : load_manifest P (manifestOf P image) = pure ⟨4096,(pages P image).map P.blake2b⟩ := by
    unfold load_manifest manifestOf
    rw [lossless.load_dump]
  rw [loaded]
  refine Finishes.after (Finishes.ret ⟨rfl,rfl⟩) ?_
  refine Finishes.bind (R := fun result v => ∃ out, result = .ok out ∧ Spooled sid out [] v ∧
    Worked P K s3 (· = .snap sid .memTmp) u v) ?_ ?_ (by rintro _ _ ⟨_,same,_⟩; cases same)
  · intro result v ran
    obtain ⟨rfl,rfl⟩ := sound_openTrunc (Does.perform.mp (sound_of_sure ran))
    have files := fun p => Fs.content_openTrunc shelf.wf (.snap sid .memTmp) p
    refine ⟨_,rfl,⟨by simp [Fs.openTrunc_names],(files _).trans (if_pos rfl)⟩,?_⟩
    exact shelf.alters rfl (by simp) ⟨rfl,rfl,fun wf => Fs.openTrunc_wf wf _,fun _ q other => (files q).trans (if_neg other)⟩
  rintro inode v ⟨out,same,opened,worked⟩
  obtain rfl : inode = out := Except.ok.inj same
  refine Finishes.bind (R := fun result x => Worked P K s3 (· = .snap sid .memTmp) u x ∧
    (result = .ok () → Spooled sid inode image x)) ?_ ?_ fun error _ written => fails written.1 error
  · have filled := opened.write_chunks worked.shelf lossless apart considered fun blk member =>
      worked.persists blk (considered blk member) (chunked.there blk member)
    intro result x ran
    obtain ⟨written,whole⟩ := filled result x ran
    refine ⟨worked.trans written,fun returned => ?_⟩
    have done := whole returned
    rwa [List.nil_append,pages_flatten] at done
  · rintro _ x ⟨written,whole⟩
    obtain ⟨fs,replaced,moved,there⟩ := (whole rfl).replaced written.shelf
    refine Finishes.perform ?_
    rintro outcome y ⟨⟨choice,ran⟩,_⟩
    cases choice <;> simp [exec,fsExec,replaced] at ran
    · obtain ⟨rfl,rfl⟩ := ran
      exact ⟨(tmp written).1.trans moved,.inr there,fun _ => there⟩
    · obtain ⟨rfl,rfl⟩ := ran
      exact fails written _

/-- A file with the name of the image holds the image. -/
def Hot (sid : Id) (image : Bytes) (w : World) : Prop :=
  ∀ bytes, w.fs.content (.snap sid .mem) = some bytes → bytes = image

/-- After `_reconstruct_mem` has returned, the image is there. -/
theorem Chunked.reconstruct_mem {sid : Id} {image : Bytes} (chunked : Chunked P s3 sid image w) (shelf : Shelf P K s3 w)
    (hot : Hot sid image w) (lossless : P.Lossless) (apart : P.Distinguishes K) (considered : ∀ blk ∈ pages P image, K blk) :
    Finishes (sure P) (reconstruct_mem P sid) w fun result v => Worked P K s3 (Path.isHot sid) w v ∧ Hot sid image v ∧
      ∀ path, result = .ok path → v.fs.content (.snap sid .mem) = some image := by
  refine Finishes.bind (R := fun result v => v = w ∧ ∀ cold, result = .ok cold → cold = true ∨
    v.fs.content (.snap sid .mem) = some image) ?_ ?_ ?_
  · have manifest : (w.fs.names (.snap sid .manifest)).isSome = true := by
      rw [← Fs.content_isSome,chunked.manifest]
      rfl
    refine Finishes.after (Finishes.perform fun _ _ stepped => acts_exists.mp stepped.1) ?_
    cases found : w.fs.content (.snap sid .mem) with
    | some bytes =>
      rw [if_pos (by rw [← Fs.content_isSome,found]; rfl)]
      exact Finishes.ret ⟨rfl,fun _ _ => .inr (found.trans (congrArg some (hot bytes found)))⟩
    | none =>
      rw [if_neg (by rw [← Fs.content_isSome,found]; simp)]
      refine Finishes.perform fun outcome v stepped => ?_
      obtain ⟨rfl,rfl⟩ := acts_exists.mp stepped.1
      exact ⟨rfl,fun cold same => .inl ((Except.ok.inj same).symm.trans manifest)⟩
  swap
  · rintro error v ⟨rfl,_⟩
    exact ⟨.refl shelf,hot,fun _ => nofun⟩
  rintro cold w ⟨rfl,asked⟩
  have stays : ∀ {v : World}, (v.fs.content (.snap sid .mem) = w.fs.content (.snap sid .mem) ∨
      v.fs.content (.snap sid .mem) = some image) → Hot sid image v := by
    rintro v (same | whole) bytes found
    · exact hot bytes (same ▸ found)
    · exact Option.some.inj (found.symm.trans whole)
  refine Finishes.bind (R := fun result v => Worked P K s3 (Path.isHot sid) w v ∧ Hot sid image v ∧
    (result = .ok () → v.fs.content (.snap sid .mem) = some image)) ?_ ?_ fun _ _ built => ⟨built.1,built.2.1,fun _ => nofun⟩
  · cases cold with
    | false => exact Finishes.ret ⟨.refl shelf,hot,fun _ => (asked false rfl).resolve_left nofun⟩
    | true =>
      intro result v ran
      obtain ⟨worked,either,whole⟩ := chunked.materialize shelf lossless apart considered result v ran
      exact ⟨worked,stays either,whole⟩
  · rintro _ v ⟨worked,hot',whole⟩
    exact Finishes.ret ⟨worked,hot',fun _ _ => whole rfl⟩

end
end Klados
