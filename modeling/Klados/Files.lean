import Mathlib.Logic.Function.Basic

/-!
A file system with inodes. Names point to inodes and inodes hold bytes, so that a
handle opened under one name still writes to its inode after the name was given to
another file. Under `Wf` (no two names share an inode) the operations are determined by
what they do to the contents found under each name; those lemmas are stated here once.
-/
namespace Klados.Files

abbrev Bytes := List UInt8

structure Fs (κ : Type) where
  names : κ → Option Nat
  data : Nat → Bytes
  next : Nat

namespace Fs
variable {κ : Type}

def empty : Fs κ := ⟨fun _ => none,fun _ => [],0⟩

/-- What a reader finds under a name. -/
def content (fs : Fs κ) (p : κ) : Option Bytes := (fs.names p).map fs.data

/-- Bytes written at an offset; a gap before the offset reads as zeros. -/
def overlay (old : Bytes) (offset : Nat) (bytes : Bytes) : Bytes :=
  (old ++ List.replicate (offset - old.length) 0).take offset ++ bytes ++ old.drop (offset + bytes.length)

def write (fs : Fs κ) (inode offset : Nat) (bytes : Bytes) : Fs κ :=
  { fs with data := Function.update fs.data inode (overlay (fs.data inode) offset bytes) }

/-- No two names share an inode, and inodes from `next` on are unused. -/
structure Wf (fs : Fs κ) : Prop where
  distinct : ∀ p q i, fs.names p = some i → fs.names q = some i → p = q
  below : ∀ p i, fs.names p = some i → i < fs.next

theorem empty_wf : (empty : Fs κ).Wf := by
  constructor <;> intro p <;> simp [empty]

@[simp] theorem content_empty (p : κ) : (empty : Fs κ).content p = none := rfl

theorem content_isSome (fs : Fs κ) (p : κ) : (fs.content p).isSome = (fs.names p).isSome := by
  simp [content]

theorem overlay_zero (bytes : Bytes) : overlay [] 0 bytes = bytes := by simp [overlay]

/-- Writing at the end appends. -/
theorem overlay_end (old bytes : Bytes) : overlay old old.length bytes = old ++ bytes := by
  simp [overlay]

@[simp] theorem write_names (fs : Fs κ) (inode offset : Nat) (bytes : Bytes) :
    (fs.write inode offset bytes).names = fs.names := rfl

@[simp] theorem write_next (fs : Fs κ) (inode offset : Nat) (bytes : Bytes) :
    (fs.write inode offset bytes).next = fs.next := rfl

theorem write_wf {fs : Fs κ} (wf : fs.Wf) (inode offset : Nat) (bytes : Bytes) :
    (fs.write inode offset bytes).Wf := ⟨wf.distinct,wf.below⟩

variable [DecidableEq κ]

/-- Open for writing: an existing file is truncated, a missing one is created. -/
def openTrunc (fs : Fs κ) (p : κ) : Nat × Fs κ :=
  match fs.names p with
  | some i => (i,{ fs with data := Function.update fs.data i [] })
  | none => (fs.next,
      { names := Function.update fs.names p (some fs.next),
        data := Function.update fs.data fs.next [], next := fs.next + 1 })

/-- The whole contents of a name in one step. -/
def put (fs : Fs κ) (p : κ) (bytes : Bytes) : Fs κ :=
  (fs.openTrunc p).2.write (fs.openTrunc p).1 0 bytes

def remove (fs : Fs κ) (p : κ) : Fs κ := { fs with names := Function.update fs.names p none }

/-- Give the inode of one name to another name; `none` when the first name is missing. -/
def replace (fs : Fs κ) (src dst : κ) : Option (Fs κ) :=
  (fs.names src).map fun inode =>
    { fs with names := Function.update (Function.update fs.names src none) dst (some inode) }

theorem openTrunc_names (fs : Fs κ) (p : κ) :
    (fs.openTrunc p).2.names = Function.update fs.names p (some (fs.openTrunc p).1) := by
  unfold openTrunc
  cases found : fs.names p with
  | some i =>
    funext q
    by_cases same : q = p
    · subst same; simp [found]
    · simp [same]
  | none => rfl

theorem openTrunc_data (fs : Fs κ) (p : κ) :
    (fs.openTrunc p).2.data = Function.update fs.data (fs.openTrunc p).1 [] := by
  unfold openTrunc
  cases fs.names p <;> rfl

theorem openTrunc_next_le (fs : Fs κ) (p : κ) : fs.next ≤ (fs.openTrunc p).2.next := by
  unfold openTrunc
  cases fs.names p <;> simp

/-- The inode that opening gives is the name's own or an unused one. -/
theorem openTrunc_inode (fs : Fs κ) (p : κ) :
    fs.names p = some (fs.openTrunc p).1 ∨ (fs.names p = none ∧ (fs.openTrunc p).1 = fs.next) := by
  unfold openTrunc
  cases found : fs.names p with
  | some i => exact .inl rfl
  | none => exact .inr ⟨rfl,rfl⟩

theorem openTrunc_foreign {fs : Fs κ} (wf : fs.Wf) {p q : κ} (other : q ≠ p) :
    fs.names q ≠ some (fs.openTrunc p).1 := by
  intro found
  rcases openTrunc_inode fs p with own | ⟨_,new⟩
  · exact other (wf.distinct q p _ found own)
  · have := wf.below q _ found
    omega

theorem openTrunc_wf {fs : Fs κ} (wf : fs.Wf) (p : κ) : (fs.openTrunc p).2.Wf := by
  have grown := openTrunc_next_le fs p
  refine ⟨?_,?_⟩
  · intro q r i first second
    rw [openTrunc_names] at first second
    by_cases qp : q = p
    · by_cases rp : r = p
      · rw [qp,rp]
      · subst qp
        simp only [Function.update_self,Function.update_of_ne rp] at first second
        exact absurd (first ▸ second) (openTrunc_foreign wf rp)
    · by_cases rp : r = p
      · subst rp
        simp only [Function.update_self,Function.update_of_ne qp] at first second
        exact absurd (second ▸ first) (openTrunc_foreign wf qp)
      · simp only [Function.update_of_ne qp,Function.update_of_ne rp] at first second
        exact wf.distinct q r i first second
  · intro q i found
    rw [openTrunc_names] at found
    by_cases qp : q = p
    · subst qp
      simp only [Function.update_self,Option.some.injEq] at found
      subst found
      unfold openTrunc
      cases own : fs.names q with
      | some i => exact wf.below q i own
      | none => simp
    · simp only [Function.update_of_ne qp] at found
      exact Nat.lt_of_lt_of_le (wf.below q i found) grown

theorem content_openTrunc {fs : Fs κ} (wf : fs.Wf) (p q : κ) :
    (fs.openTrunc p).2.content q = if q = p then some [] else fs.content q := by
  unfold content
  rw [openTrunc_names,openTrunc_data]
  by_cases same : q = p
  · simp [same]
  · simp only [Function.update_of_ne same,same,↓reduceIte]
    cases found : fs.names q with
    | none => rfl
    | some i =>
      have other : i ≠ (fs.openTrunc p).1 := fun equal => openTrunc_foreign wf same (equal ▸ found)
      simp [other]

/-- A write through a handle changes the one name that points to its inode. -/
theorem content_write {fs : Fs κ} (wf : fs.Wf) {p : κ} {inode : Nat} (named : fs.names p = some inode)
    (offset : Nat) (bytes : Bytes) (q : κ) :
    (fs.write inode offset bytes).content q =
      if q = p then some (overlay (fs.data inode) offset bytes) else fs.content q := by
  unfold content write
  by_cases same : q = p
  · simp [same,named]
  · simp only [same,↓reduceIte]
    cases found : fs.names q with
    | none => rfl
    | some i =>
      have other : i ≠ inode := fun equal => same (wf.distinct q p inode (equal ▸ found) named)
      simp [other]

theorem put_wf {fs : Fs κ} (wf : fs.Wf) (p : κ) (bytes : Bytes) : (fs.put p bytes).Wf :=
  write_wf (openTrunc_wf wf p) _ _ _

theorem content_put {fs : Fs κ} (wf : fs.Wf) (p : κ) (bytes : Bytes) (q : κ) :
    (fs.put p bytes).content q = if q = p then some bytes else fs.content q := by
  have named : (fs.openTrunc p).2.names p = some (fs.openTrunc p).1 := by simp [openTrunc_names]
  unfold put
  rw [content_write (openTrunc_wf wf p) named,content_openTrunc wf]
  by_cases same : q = p
  · simp [same,openTrunc_data,overlay_zero]
  · simp [same]

theorem remove_wf {fs : Fs κ} (wf : fs.Wf) (p : κ) : (fs.remove p).Wf := by
  refine ⟨?_,?_⟩
  · intro q r i first second
    simp only [remove,Function.update_apply] at first second
    split at first
    · cases first
    · split at second
      · cases second
      · exact wf.distinct q r i first second
  · intro q i found
    simp only [remove,Function.update_apply] at found
    split at found
    · cases found
    · exact wf.below q i found

theorem content_remove (fs : Fs κ) (p q : κ) :
    (fs.remove p).content q = if q = p then none else fs.content q := by
  unfold content remove
  by_cases same : q = p <;> simp [same]

theorem replace_wf {fs after : Fs κ} (wf : fs.Wf) {src dst : κ} (replaced : fs.replace src dst = some after) :
    after.Wf := by
  obtain ⟨inode,named,same⟩ := Option.map_eq_some_iff.mp replaced
  subst same
  refine ⟨?_,?_⟩
  · intro q r i first second
    simp only [Function.update_apply] at first second
    split at first <;> split at second
    · rename_i qd rd; rw [qd,rd]
    · split at second
      · cases second
      · rename_i _ _ other
        exact absurd (wf.distinct r src i second (by simpa [Option.some.inj first] using named)) other
    · split at first
      · cases first
      · rename_i _ _ other
        exact absurd (wf.distinct q src i first (by simpa [Option.some.inj second] using named)) other
    · split at first
      · cases first
      · split at second
        · cases second
        · exact wf.distinct q r i first second
  · intro q i found
    simp only [Function.update_apply] at found
    split at found
    · exact wf.below src i (by simpa [Option.some.inj found] using named)
    · split at found
      · cases found
      · exact wf.below q i found

theorem content_replace {fs after : Fs κ} {src dst : κ} (different : src ≠ dst)
    (replaced : fs.replace src dst = some after) (q : κ) :
    after.content q = if q = dst then fs.content src else if q = src then none else fs.content q := by
  obtain ⟨inode,named,same⟩ := Option.map_eq_some_iff.mp replaced
  subst same
  unfold content
  by_cases qd : q = dst
  · simp [qd,named]
  · by_cases qs : q = src
    · simp [qs,different]
    · simp [qd,qs]

end Fs
end Klados.Files
