import Klados.Moves
import Klados.Handles

/-!
What a call of the daemon does to the files, said once (`exec_touches`): it opens, writes, removes,
renames or replaces what it names, and the capture of a VM writes two files. Names that share no
inode stay so, and a file that the call does not name keeps its contents.
-/
namespace Klados
open Effects
open Files (Fs Handle)

/-- Everything that a call may do to the files. -/
inductive Op.Touches (fs : Fs Path) : Op → Fs Path → Prop
  | none {op : Op} : Op.Touches fs op fs
  | opened {p : Path} : Op.Touches fs (.fs (.openTrunc p)) (fs.openTrunc p).2
  | wrote {inode offset : Nat} {bytes bytes' : Bytes} :
      Op.Touches fs (.fs (.write inode offset bytes)) (fs.write inode offset bytes')
  | removed {p : Path} : Op.Touches fs (.fs (.remove p)) (fs.remove p)
  | replaced {src dst : Path} {after : Fs Path} : fs.replace src dst = some after →
      Op.Touches fs (.fs (.replace src dst)) after
  | copied {src dst : Path} {bytes : Bytes} : Op.Touches fs (.fs (.copy src dst)) (fs.put dst bytes)
  | made {p : Path} {bytes : Bytes} : Op.Touches fs (.fs (.makeDisk p)) (fs.put p bytes)
  | captured {iid : Id} {snap mem : Path} {dev image : Bytes} :
      Op.Touches fs (.vm (.create iid snap mem)) ((fs.put snap dev).put mem image)

section
variable {P : Platform} {t : Nat} {op : Op} {choice : Choice} {w v : World} {outcome : Except Exn op.Res} {fs fs' : Fs Path}

theorem fsExec_touches {o : FsOp} {r : Except Exn o.Res} (ran : fsExec P fs o choice = some (r,fs')) :
    (Op.fs o).Touches fs fs' := by
  cases o with
  | «exists» p | makedirs | readFile p | getsize p =>
    cases choice <;> simp only [fsExec] at ran <;> first
      | cases ran <;> exact .none
      | split at ran <;> cases ran <;> exact .none
  | openTrunc p =>
    cases choice <;> cases ran
    · exact .opened
    · exact .none
  | write inode offset bytes =>
    cases choice <;> cases ran
    · exact .wrote
    · exact .none
    · exact .wrote
  | remove p =>
    cases choice <;> simp only [fsExec] at ran
    · split at ran <;> cases ran
      · exact .removed
      · exact .none
    · cases ran
      exact .none
    all_goals cases ran
  | replace src dst =>
    cases choice <;> simp only [fsExec] at ran
    · split at ran <;> cases ran
      · exact .replaced ‹_›
      · exact .none
    · cases ran
      exact .none
    all_goals cases ran
  | copy src dst =>
    cases choice <;> simp only [fsExec] at ran
    · split at ran <;> cases ran
      · exact .copied
      · exact .none
    · cases ran
      exact .none
    · split at ran <;> cases ran
      exact .copied
    all_goals cases ran
  | makeDisk p =>
    cases choice <;> cases ran
    · exact .made
    · exact .none

/-- What a call leaves of the files. -/
theorem exec_touches (ran : exec P t op choice w = some (outcome,v)) : op.Touches w.fs v.fs := by
  cases op with
  | fs o =>
    obtain ⟨⟨r,fs⟩,executed,same⟩ := Option.map_eq_some_iff.mp ran
    cases same
    exact fsExec_touches executed
  | vm o =>
    obtain ⟨fs,hyp,executed,rfl⟩ := exec_vm ran
    cases VmOp.acts executed with
    | create => exact .captured
    | torn => exact .captured
    | fails | spawn | start | load | pause | resume | kill | killNone | connect | lost | receive | eof => exact .none
  | db o | s3 o | mem o | sys o =>
    obtain ⟨_,_,same⟩ := Option.map_eq_some_iff.mp ran
    cases same
    exact .none

theorem Op.Touches.wf (touches : op.Touches fs fs') (wf : fs.Wf) : fs'.Wf := by
  cases touches with
  | none => exact wf
  | opened => exact Fs.openTrunc_wf wf _
  | wrote => exact Fs.write_wf wf _ _ _
  | removed => exact Fs.remove_wf wf _
  | replaced replaced => exact Fs.replace_wf wf replaced
  | copied => exact Fs.put_wf wf _ _
  | made => exact Fs.put_wf wf _ _
  | captured => exact Fs.put_wf (Fs.put_wf wf _ _) _ _

/-- A handle stays in its group when renamings do. -/
theorem Op.Touches.handle {γ : Type} {group : Path → γ} {g : γ} {inode : Nat} (touches : op.Touches fs fs')
    (moves : ∀ src dst, op = .fs (.replace src dst) → group src = group dst) (handle : Handle group g inode fs) :
    Handle group g inode fs' := by
  cases touches with
  | none => exact handle
  | opened => exact handle.openTrunc _
  | wrote => exact handle.write _ _ _
  | removed => exact handle.remove _
  | replaced replaced => exact handle.replace (moves _ _ rfl) replaced
  | copied => exact handle.put _ _
  | made => exact handle.put _ _
  | captured => exact (handle.put _ _).put _ _

end

/-- The call changes the file with this name. -/
def Op.Writes (fs : Fs Path) (q : Path) : Op → Prop
  | .fs (.openTrunc p) | .fs (.remove p) | .fs (.makeDisk p) => q = p
  | .fs (.write inode _ _) => fs.names q = some inode
  | .fs (.replace src dst) => q = src ∨ q = dst
  | .fs (.copy _ dst) => q = dst
  | .vm (.create _ snap image) => q = snap ∨ q = image
  | _ => False

/-- A file that the call does not change keeps its contents. -/
theorem Op.Touches.content {op : Op} {fs fs' : Fs Path} (touches : op.Touches fs fs') (wf : fs.Wf) {q : Path}
    (apart : ¬ op.Writes fs q) : fs'.content q = fs.content q := by
  cases touches with
  | none => rfl
  | opened => exact (Fs.content_openTrunc wf _ q).trans (if_neg apart)
  | @wrote inode offset bytes bytes' =>
    have foreign : fs.names q ≠ some inode := apart
    unfold Fs.content Fs.write
    cases found : fs.names q with
    | none => simp
    | some i =>
      have other : i ≠ inode := fun same => foreign (same ▸ found)
      simp [other]
  | removed => exact (Fs.content_remove fs _ q).trans (if_neg apart)
  | @replaced src dst after replaced =>
    have other : q ≠ src ∧ q ≠ dst := not_or.mp apart
    by_cases same : src = dst
    · subst same
      obtain ⟨i,named,rfl⟩ := Option.map_eq_some_iff.mp replaced
      simp [Fs.content,other.1]
    · rw [Fs.content_replace same replaced,if_neg other.2,if_neg other.1]
  | copied => exact (Fs.content_put wf _ _ q).trans (if_neg apart)
  | made => exact (Fs.content_put wf _ _ q).trans (if_neg apart)
  | captured =>
    have other : _ ∧ _ := not_or.mp apart
    rw [Fs.content_put (Fs.put_wf wf _ _),if_neg other.2,Fs.content_put wf,if_neg other.1]

end Klados
