import Klados.Files

/-!
Open files. Names fall into groups, and a file is only ever renamed inside its group. A handle then
stays in the group of the name that it was opened under, whatever happens to the names
(`Handle.openTrunc` and the lemmas after it): what is written through it reaches no other group.
-/
namespace Klados.Files

section
variable {κ γ : Type} {group : κ → γ} {g : γ} {inode : Nat} {fs : Fs κ}

/-- The inode is in use, and its names are in the group. -/
structure Handle (group : κ → γ) (g : γ) (inode : Nat) (fs : Fs κ) : Prop where
  old : inode < fs.next
  names : ∀ p, fs.names p = some inode → group p = g

theorem Handle.of_names {fs' : Fs κ} (handle : Handle group g inode fs) (next : fs.next ≤ fs'.next)
    (names : ∀ p, fs'.names p = some inode → fs.names p = some inode) : Handle group g inode fs' :=
  ⟨Nat.lt_of_lt_of_le handle.old next,fun p named => handle.names p (names p named)⟩

theorem Handle.write (handle : Handle group g inode fs) (inode' offset : Nat) (bytes : Bytes) :
    Handle group g inode (fs.write inode' offset bytes) := handle.of_names (Nat.le_refl _) fun _ named => named

variable [DecidableEq κ]

/-- What opening a file gives. -/
theorem handle_of_openTrunc (wf : fs.Wf) (p : κ) : Handle group (group p) (fs.openTrunc p).1 (fs.openTrunc p).2 := by
  have named : (fs.openTrunc p).2.names p = some (fs.openTrunc p).1 := by simp [Fs.openTrunc_names]
  refine ⟨(Fs.openTrunc_wf wf p).below p _ named,?_⟩
  intro q found
  rw [(Fs.openTrunc_wf wf p).distinct q p _ found named]

theorem Handle.openTrunc (handle : Handle group g inode fs) (p : κ) : Handle group g inode (fs.openTrunc p).2 := by
  refine handle.of_names (Fs.openTrunc_next_le fs p) ?_
  intro q found
  rw [Fs.openTrunc_names] at found
  by_cases same : q = p
  · subst same
    obtain rfl : (fs.openTrunc q).1 = inode := by simpa using found
    rcases Fs.openTrunc_inode fs q with own | ⟨_,new⟩
    · exact own
    · exact absurd handle.old (by omega)
  · simpa [same] using found

theorem Handle.put (handle : Handle group g inode fs) (p : κ) (bytes : Bytes) : Handle group g inode (fs.put p bytes) :=
  (handle.openTrunc p).write _ _ _

theorem Handle.remove (handle : Handle group g inode fs) (p : κ) : Handle group g inode (fs.remove p) := by
  refine handle.of_names (Nat.le_refl _) ?_
  intro q found
  by_cases same : q = p
  · simp [Fs.remove,same] at found
  · simpa [Fs.remove,same] using found

/-- A renaming inside a group. -/
theorem Handle.replace {after : Fs κ} (handle : Handle group g inode fs) {src dst : κ} (inside : group src = group dst)
    (replaced : fs.replace src dst = some after) : Handle group g inode after := by
  obtain ⟨i,named,rfl⟩ := Option.map_eq_some_iff.mp replaced
  refine ⟨handle.old,?_⟩
  intro q found
  by_cases new : q = dst
  · obtain rfl : i = inode := by simpa [new] using found
    rw [new,← inside,handle.names src named]
  · by_cases gone : q = src
    · simp [gone,Function.update_apply] at found
      exact absurd (gone.trans found.1) new
    · exact handle.names q (by simpa [new,gone] using found)

end
end Klados.Files
