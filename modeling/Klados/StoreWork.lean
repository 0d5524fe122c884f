import Klados.Captures

/-!
Work on the store while the guests go on. A call on the store comes to the same in a world that is beside; so
a run of such calls is a run without the guests, up to what the guests did meanwhile (`attains_storing`).
-/
namespace Klados
open Effects
open Files (Fs)
open Prog (Only)

/-- A call on the store, or on a file that is no disk. -/
def Op.isStoring : Op → Bool
  | .fs .makedirs | .fs (.exists _) | .fs (.openTrunc _) | .fs (.write _ _ _) => true
  | .fs (.readFile p) | .fs (.remove p) | .fs (.getsize p) => !p.isDisk
  | .fs (.replace src dst) => !src.isDisk && !dst.isDisk
  | .s3 _ | .mem .store | .mem (.update _) | .mem .acquire | .mem .release => true
  | _ => false

section
variable {P : Platform} {K : Bytes → Prop} {w v u : World} {op : Op} {choice : Choice}

/-- A call on files comes to the same where only disks differ. -/
theorem fsExec_alike {fs fs' after' : Fs Path} {o : FsOp} {r : Except Exn o.Res} (storing : (Op.fs o).isStoring = true)
    (alike : Fs.Alike (fun p => p.isDisk = true) fs fs') (wf : fs.Wf) (ran : fsExec P fs' o choice = some (r,after')) :
    ∃ after, fsExec P fs o choice = some (r,after) ∧ Fs.Alike (fun p => p.isDisk = true) after after' := by
  have same : ∀ {p : Path}, p.isDisk = false → fs'.content p = fs.content p := fun shown =>
    alike.content wf (by simpa using shown)
  cases o with
  | «exists» p =>
    cases choice <;> simp only [fsExec] at ran ⊢ <;> cases ran
    exact ⟨_,by rw [alike.names],alike⟩
  | makedirs =>
    cases choice <;> cases ran
    · exact ⟨_,rfl,alike⟩
    · exact ⟨_,rfl,alike⟩
  | openTrunc p =>
    cases choice <;> cases ran
    · exact ⟨_,by simp only [fsExec]; rw [alike.inode p],alike.openTrunc p⟩
    · exact ⟨_,rfl,alike⟩
  | write inode offset bytes =>
    cases choice <;> cases ran
    · exact ⟨_,rfl,alike.write _ _ _⟩
    · exact ⟨_,rfl,alike⟩
    · exact ⟨_,rfl,alike.write _ _ _⟩
  | readFile p | getsize p =>
    cases choice <;> simp only [fsExec] at ran ⊢
    · rw [same (by simpa [Op.isStoring] using storing)] at ran
      split at ran <;> cases ran <;> exact ⟨_,rfl,alike⟩
    · cases ran
      exact ⟨_,rfl,alike⟩
    all_goals cases ran
  | remove p =>
    cases choice <;> simp only [fsExec] at ran ⊢
    · rw [alike.names] at ran
      split at ran
      · rename_i there
        cases ran
        rw [if_pos there]
        exact ⟨_,rfl,alike.remove (by simpa [Op.isStoring] using storing)⟩
      · rename_i missing
        cases ran
        rw [if_neg missing]
        exact ⟨_,rfl,alike⟩
    · cases ran
      exact ⟨_,rfl,alike⟩
    all_goals cases ran
  | replace src dst =>
    have shown : src.isDisk = false ∧ dst.isDisk = false := by simpa [Op.isStoring] using storing
    cases choice <;> simp only [fsExec] at ran ⊢
    · have away : ¬ src.isDisk = true := by simp [shown.1]
      have away' : ¬ dst.isDisk = true := by simp [shown.2]
      rcases alike.replace away away' with ⟨none,none'⟩ | ⟨x,x',there,there',after⟩
      · rw [none'] at ran
        rw [none]
        cases ran
        exact ⟨_,rfl,alike⟩
      · rw [there'] at ran
        rw [there]
        cases ran
        exact ⟨_,rfl,after⟩
    · cases ran
      exact ⟨_,rfl,alike⟩
    all_goals cases ran
  | copy | makeDisk => cases storing

/-- A call on the store comes to the same in a world that is beside, with the same memory of the daemon. -/
theorem exec_storing {outcome : Except Exn op.Res} (storing : op.isStoring = true) (beside : Beside w v) (mem : v.mem = w.mem)
    (wf : w.fs.Wf) (ran : exec P 0 op choice v = some (outcome,u)) :
    ∃ x, exec P 0 op choice w = some (outcome,x) ∧ Beside x u ∧ u.mem = x.mem ∧ x.fs.Wf := by
  cases op with
  | fs o =>
    obtain ⟨⟨r,fs⟩,executed,same⟩ := Option.map_eq_some_iff.mp ran
    cases same
    obtain ⟨fs',executed',alike⟩ := fsExec_alike storing beside.fs wf executed
    refine ⟨{ w with fs := fs' },?_,⟨beside.rows,beside.store,beside.live,beside.bucket,beside.known,alike,beside.vm⟩,mem,?_⟩
    · simp only [exec]
      rw [executed']
      rfl
    · exact (fsExec_touches executed').wf wf
  | s3 o =>
    obtain ⟨⟨r,bucket⟩,executed,same⟩ := Option.map_eq_some_iff.mp ran
    cases same
    rw [beside.bucket] at executed
    refine ⟨{ w with bucket := bucket },?_,⟨beside.rows,beside.store,beside.live,rfl,beside.known,beside.fs,beside.vm⟩,mem,wf⟩
    simp only [exec]
    rw [executed]
    rfl
  | mem o =>
    obtain ⟨⟨r,mem'⟩,executed,same⟩ := Option.map_eq_some_iff.mp ran
    cases same
    rw [mem] at executed
    refine ⟨{ w with mem := mem' },?_,⟨beside.rows,rfl,fun _ => id,beside.bucket,beside.known,beside.fs,beside.vm⟩,rfl,wf⟩
    simp only [exec]
    rw [executed]
    rfl
  | db | vm | sys => cases storing

theorem Op.isStoring.blind (storing : op.isStoring = true) : op.isBlind = true := by
  cases op with
  | vm o => cases storing
  | db | fs | s3 | mem | sys => rfl

/-- The second world is the first, in which the guests have gone on. -/
structure Shadow (log : CaptureLog) (x : World) (s : World × CaptureLog) : Prop where
  beside : Beside x s.1
  mem : s.1.mem = x.mem
  same : s.2 = log
  wf : x.fs.Wf

/-- What comes of a program on the store, comes of it while the guests go on. -/
theorem attains_storing {α : Type} {program : KProg α} {A E : World × CaptureLog → Prop} {B : α → World × CaptureLog → Prop}
    (only : program.Only fun op : Op => op.isStoring = true) (failed : Abiding E) (returned : ∀ value, Abiding (B value))
    (finishes : ∀ w log, A (w,log) → Finishes (sure P) program w fun result v =>
      match result with
      | .ok value => B value (v,log)
      | .error _ => E (v,log)) : Attains P K A program E B := by
  refine Triple.of_runs ?_ only ?_
  · rintro op _ ⟨w,_⟩ outcome ⟨v,_⟩ wf ⟨⟨⟨choice,ran⟩,_⟩,_⟩
    exact (exec_touches ran).wf wf
  rintro ⟨w,log⟩ result ⟨v,log'⟩ wf holds ran
  have followed : ∃ x, Does (sure P) program w result x ∧ Shadow log x (v,log') := by
    refine Runs.follow ?_ ?_ only ⟨.refl w,rfl,rfl,wf⟩ ran
    · rintro x ⟨w',_⟩ ⟨u,_⟩ ⟨beside,mem,rfl,wf'⟩ ⟨⟨same,moves⟩,_⟩
      have rested := (resting_moves moves (beside.fs.wf wf')).1
      exact ⟨beside.trans rested.toBeside,rested.mem.trans mem,same,wf'⟩
    · rintro op storing x ⟨w',_⟩ outcome ⟨u,_⟩ ⟨beside,mem,rfl,wf'⟩ ⟨⟨⟨choice,ran'⟩,makes⟩,_,seen⟩
      obtain ⟨x',ran'',beside',mem',wf''⟩ := exec_storing storing beside mem wf' ran'
      rw [CaptureLog.sees_blind (Op.isStoring.blind storing)] at seen
      exact ⟨x',⟨⟨choice,ran''⟩,makes⟩,beside',mem',seen,wf''⟩
  obtain ⟨x,does,beside,_,rfl,wf'⟩ := followed
  have post := finishes w _ holds result x does
  cases result with
  | ok value => exact returned value x v _ wf' beside post
  | error error => exact failed x v _ wf' beside post

/-- The program calls the store and files that are no disks. -/
abbrev Stores {α : Type} (program : KProg α) : Prop := program.Only fun op : Op => op.isStoring = true

theorem stores_call {op : Op} (storing : op.isStoring = true) : Stores (Prog.perform (S := sig) op) := Only.perform storing

theorem stores_write_file (p : Path) (bytes : Bytes) : Stores (write_file p bytes) :=
  Only.bind (stores_call rfl) fun _ => stores_call rfl

theorem stores_store_chunk (h : Digest) (comp : Bytes) : Stores (store_chunk h comp) :=
  Only.bind (stores_call rfl) fun _ => Only.bind (stores_call rfl) fun _ => Only.when (stores_write_file _ _)

theorem stores_put_new (store : Cas) (h : Digest) (blk : Bytes) : Stores (put_new P store h blk) :=
  Only.bind (stores_call rfl) fun _ => Only.bind (Only.when (stores_store_chunk _ _)) fun _ => Only.when (stores_call rfl)

theorem stores_put_bytes (data : Bytes) : Stores (put_bytes P data) := by
  refine Only.bind (stores_call rfl) fun _ => Only.each fun _ => ?_
  refine Only.bind (stores_call rfl) fun _ => Only.bind (stores_call rfl) fun _ => ?_
  exact Only.bind (Only.when (stores_put_new _ _ _)) fun _ => trivial

theorem stores_put_file {p : Path} (file : p.isDisk = false) : Stores (put_file P p) := by
  refine Only.bind (stores_call ?_) fun _ => Only.bind (Only.each fun _ => stores_put_bytes _) fun _ => trivial
  simp [Op.isStoring,file]

theorem stores_flush_s3 : Stores flush_s3 := by
  refine Only.bind (stores_call rfl) fun store => ?_
  split
  · trivial
  · exact Only.bind (stores_call rfl) fun _ => Only.bind (stores_call rfl) fun _ => trivial

theorem stores_locked {α : Type} {body : KProg α} (stores : Stores body) : Stores (locked body) := by
  refine Only.bind (stores_call rfl) fun _ => Only.bind (Only.catching stores fun _ => ?_) fun _ => ?_
  · exact Only.bind (stores_call rfl) fun _ => trivial
  · exact Only.bind (stores_call rfl) fun _ => trivial

theorem stores_chunk_mem (sid : Id) : Stores (chunk_mem P sid (.snap sid .mem)) := by
  refine Only.bind (stores_locked ?_) fun hashes => ?_
  · exact Only.bind (stores_put_file rfl) fun _ => Only.bind stores_flush_s3 fun _ => trivial
  · exact Only.bind (stores_write_file _ _) fun _ => Only.bind (stores_call rfl) fun _ =>
      Only.bind (stores_call rfl) fun _ => trivial

theorem stores_decompress (bytes : Bytes) : Stores (decompress P bytes) := by
  unfold decompress
  split <;> trivial

theorem stores_get (h : Digest) : Stores (get P h) := by
  refine Only.bind (stores_call rfl) fun store => Only.bind ?_ fun hot => ?_
  · unfold isCached
    split
    · exact stores_call rfl
    · trivial
  split
  · exact Only.bind (stores_call rfl) fun _ => stores_decompress _
  · unfold get_cold
    split
    · refine Only.bind (stores_call rfl) fun _ => Only.bind (Only.when ?_) fun _ => stores_decompress _
      exact Only.bind (stores_call rfl) fun _ => stores_write_file _ _
    · trivial

theorem stores_write_chunks (out : Nat) (hashes : List Digest) (offset : Nat) : Stores (write_chunks P out offset hashes) := by
  induction hashes generalizing offset with
  | nil => trivial
  | cons h rest ih => exact Only.bind (stores_get _) fun _ => Only.bind (stores_call rfl) fun _ => ih _

theorem stores_reconstruct_mem (sid : Id) : Stores (reconstruct_mem P sid) := by
  refine Only.bind (Only.bind (stores_call rfl) fun hot => ?_) fun cold => Only.bind (Only.when ?_) fun _ => trivial
  · split
    · trivial
    · exact stores_call rfl
  refine Only.bind (stores_call rfl) fun _ => Only.bind ?_ fun _ => ?_
  · unfold load_manifest
    split <;> trivial
  · exact Only.bind (stores_call rfl) fun _ => Only.bind (stores_write_chunks _ _ _) fun _ => stores_call rfl

end
end Klados
