import Klados.Files

/-!
Two file systems that differ in the contents of some names only. Who never uses those names cannot
tell the two apart, whatever is written through handles.
-/
namespace Klados.Files.Fs
variable {κ : Type} {hidden : κ → Prop} {fs fs' fs'' : Fs κ} {p : κ}

/-- The same names, and the same contents but for those of hidden names. -/
structure Alike (hidden : κ → Prop) (fs fs' : Fs κ) : Prop where
  names : fs'.names = fs.names
  next : fs'.next = fs.next
  data : ∀ i, (∀ p, hidden p → fs.names p ≠ some i) → fs'.data i = fs.data i

theorem Alike.refl (fs : Fs κ) : Alike hidden fs fs := ⟨rfl,rfl,fun _ _ => rfl⟩

theorem Alike.trans (first : Alike hidden fs fs') (second : Alike hidden fs' fs'') : Alike hidden fs fs'' where
  names := second.names.trans first.names
  next := second.next.trans first.next
  data i apart := by
    rw [second.data i fun p hides => first.names ▸ apart p hides,first.data i apart]

theorem Alike.wf (alike : Alike hidden fs fs') (wf : fs.Wf) : fs'.Wf where
  distinct p q i := by
    rw [alike.names]
    exact wf.distinct p q i
  below p i := by
    rw [alike.names,alike.next]
    exact wf.below p i

theorem Alike.content (alike : Alike hidden fs fs') (wf : fs.Wf) (shown : ¬ hidden p) : fs'.content p = fs.content p := by
  unfold Fs.content
  rw [alike.names]
  cases found : fs.names p with
  | none => rfl
  | some i =>
    refine congrArg some (alike.data i ?_)
    intro q hides named
    exact shown (wf.distinct q p i named found ▸ hides)

theorem Alike.write (alike : Alike hidden fs fs') (inode offset : Nat) (bytes : Bytes) :
    Alike hidden (fs.write inode offset bytes) (fs'.write inode offset bytes) := by
  refine ⟨alike.names,alike.next,?_⟩
  intro i apart
  have same := alike.data i apart
  by_cases written : i = inode
  · subst written
    simp [Fs.write,same]
  · simp [Fs.write,written,same]

variable [DecidableEq κ]

theorem Alike.inode (alike : Alike hidden fs fs') (p : κ) : (fs'.openTrunc p).1 = (fs.openTrunc p).1 := by
  unfold Fs.openTrunc
  rw [alike.names,alike.next]
  cases fs.names p <;> rfl

theorem Alike.openTrunc (alike : Alike hidden fs fs') (p : κ) :
    Alike hidden (fs.openTrunc p).2 (fs'.openTrunc p).2 := by
  refine ⟨by rw [openTrunc_names,openTrunc_names,alike.inode,alike.names],?_,?_⟩
  · unfold Fs.openTrunc
    rw [alike.names]
    cases fs.names p <;> simp [alike.next]
  · intro i apart
    rw [openTrunc_data,openTrunc_data,alike.inode]
    by_cases opened : i = (fs.openTrunc p).1
    · simp [opened]
    rw [Function.update_of_ne opened,Function.update_of_ne opened]
    refine alike.data i fun q hides named => ?_
    by_cases same : q = p
    · subst same
      rcases openTrunc_inode fs q with own | ⟨missing,_⟩
      · exact opened (Option.some.inj (named.symm.trans own))
      · cases named.symm.trans missing
    · refine apart q hides ?_
      rw [openTrunc_names,Function.update_of_ne same]
      exact named

/-- What is written to a hidden file that is there cannot be told. -/
theorem alike_put (hides : hidden p) (there : (fs.names p).isSome = true) (bytes : Bytes) : Alike hidden fs (fs.put p bytes) := by
  obtain ⟨i,named⟩ := Option.isSome_iff_exists.mp there
  have opened : fs.openTrunc p = (i,{ fs with data := Function.update fs.data i [] }) := by
    unfold Fs.openTrunc
    rw [named]
  unfold Fs.put
  rw [opened]
  refine ⟨rfl,rfl,fun j apart => ?_⟩
  have other : j ≠ i := fun same => apart p hides (same ▸ named)
  simp [Fs.write,other]

/-- A name that is not hidden is taken away. -/
theorem Alike.remove (alike : Alike hidden fs fs') (shown : ¬ hidden p) : Alike hidden (fs.remove p) (fs'.remove p) := by
  refine ⟨by simp only [Fs.remove,alike.names],alike.next,?_⟩
  intro i apart
  refine alike.data i fun q hides named => apart q hides ?_
  have other : q ≠ p := fun same => shown (same ▸ hides)
  simpa [Fs.remove,other] using named

theorem Alike.replace {src dst : κ} (alike : Alike hidden fs fs') (shown : ¬ hidden src) (shown' : ¬ hidden dst) :
    (fs.replace src dst = none ∧ fs'.replace src dst = none) ∨
      ∃ u u', fs.replace src dst = some u ∧ fs'.replace src dst = some u' ∧ Alike hidden u u' := by
  unfold Fs.replace
  rw [alike.names]
  cases fs.names src with
  | none => exact .inl ⟨rfl,rfl⟩
  | some inode =>
    refine .inr ⟨_,_,rfl,rfl,rfl,alike.next,?_⟩
    intro i apart
    refine alike.data i fun q hides named => apart q hides ?_
    have other : q ≠ src := fun same => shown (same ▸ hides)
    have other' : q ≠ dst := fun same => shown' (same ▸ hides)
    simpa [other,other'] using named

end Klados.Files.Fs
