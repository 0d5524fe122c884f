import Mathlib.Data.List.AList
import Mathlib.Data.List.Lex
import Mathlib.Data.List.Sort

/-!
Trees of names and the dictionaries made from them: a walk that lists the leaves with their paths, the
filling of a dictionary from a list, and the comparison of two dictionaries.
-/
namespace Klados.Trees

/-- A leaf, or a directory with named entries. -/
inductive Tree (κ α : Type)
  | leaf (value : α)
  | dir (entries : List (κ × Tree κ α))

variable {κ α : Type}

mutual

/-- The leaves below a path that are to be listed: those of a directory before those further below. -/
def Tree.walk (listed : List κ → α → Bool) (path : List κ) : Tree κ α → List (List κ × α)
  | .dir entries =>
    entries.filterMap (fun
      | (name,.leaf value) => if listed (path ++ [name]) value then some (path ++ [name],value) else none
      | (_,.dir _) => none) ++ walkAll listed path entries
  | .leaf _ => []
termination_by structural t => t

def walkAll (listed : List κ → α → Bool) (path : List κ) : List (κ × Tree κ α) → List (List κ × α)
  | [] => []
  | (name,t) :: rest => t.walk listed (path ++ [name]) ++ walkAll listed path rest
termination_by structural entries => entries

end

theorem mem_walkAll {listed : List κ → α → Bool} {path : List κ} {entries : List (κ × Tree κ α)} {entry : List κ × α} :
    entry ∈ walkAll listed path entries ↔ ∃ name child, (name,child) ∈ entries ∧ entry ∈ child.walk listed (path ++ [name]) := by
  induction entries with
  | nil => simp [walkAll]
  | cons first rest ih =>
    obtain ⟨name,child⟩ := first
    rw [walkAll,List.mem_append,ih]
    constructor
    · rintro (here | ⟨name',child',member,later⟩)
      · exact ⟨name,child,List.mem_cons_self ..,here⟩
      · exact ⟨name',child',List.mem_cons_of_mem _ member,later⟩
    · rintro ⟨name',child',member,later⟩
      rcases List.mem_cons.mp member with same | member
      · cases same
        exact .inl later
      · exact .inr ⟨name',child',member,later⟩

/-- The leaves of a directory are listed under its names, in their order. -/
theorem listed_sublist (listed : List κ → α → Bool) (path : List κ) (entries : List (κ × Tree κ α)) :
    List.Sublist ((entries.filterMap fun
      | (name,.leaf value) => if listed (path ++ [name]) value then some (path ++ [name],value) else none
      | (_,.dir _) => none).map (·.1)) (entries.map fun entry => path ++ [entry.1]) := by
  induction entries with
  | nil => exact .slnil
  | cons first rest ih =>
    obtain ⟨name,child⟩ := first
    cases child with
    | dir inner => exact ih.cons _
    | leaf value =>
      by_cases keeps : listed (path ++ [name]) value = true
      · rw [List.filterMap_cons_some (b := (path ++ [name],value)) (by simp [keeps])]
        exact ih.cons_cons _
      · rw [List.filterMap_cons_none (by simp [keeps])]
        exact ih.cons _

section
variable [DecidableEq κ]

/-- What is found under a path. -/
def Tree.at : Tree κ α → List κ → Option (Tree κ α)
  | t, [] => some t
  | .dir entries, name :: rest => (entries.find? (·.1 = name)).bind fun entry => entry.2.at rest
  | .leaf _, _ :: _ => none

/-- The names in a directory are distinct and good. -/
def Tree.Wf (good : κ → Prop) (t : Tree κ α) : Prop :=
  ∀ path entries, t.at path = some (.dir entries) → (entries.map (·.1)).Nodup ∧ ∀ entry ∈ entries, good entry.1

variable {listed : List κ → α → Bool} {good : κ → Prop} {t child : Tree κ α} {entries : List (κ × Tree κ α)}
  {path below : List κ} {name : κ} {value : α}

theorem find_entry (names : (entries.map (·.1)).Nodup) :
    entries.find? (·.1 = name) = some (name,child) ↔ (name,child) ∈ entries := by
  induction entries with
  | nil => simp
  | cons first rest ih =>
    rw [List.map_cons,List.nodup_cons] at names
    by_cases same : first.1 = name
    · rw [List.find?_cons_of_pos (by simpa using same),Option.some_inj,List.mem_cons]
      refine ⟨fun equal => .inl equal.symm,fun either => either.elim Eq.symm fun later => ?_⟩
      exact absurd (List.mem_map.mpr ⟨_,later,same.symm⟩) names.1
    · rw [List.find?_cons_of_neg (by simpa using same),ih names.2,List.mem_cons]
      refine ⟨.inr,fun either => either.resolve_left fun equal => ?_⟩
      exact same (congrArg Prod.fst equal).symm

/-- What is found below an entry. -/
theorem at_dir (names : (entries.map (·.1)).Nodup) {found : Tree κ α} :
    (Tree.dir entries).at (name :: below) = some found ↔ ∃ child, (name,child) ∈ entries ∧ child.at below = some found := by
  rw [Tree.at,Option.bind_eq_some_iff]
  constructor
  · rintro ⟨⟨key,child⟩,first,later⟩
    have same : key = name := by simpa using List.find?_some first
    subst same
    exact ⟨child,List.mem_of_find?_eq_some first,later⟩
  · rintro ⟨child,member,later⟩
    exact ⟨(name,child),(find_entry names).mpr member,later⟩

theorem Tree.Wf.names (wf : (Tree.dir entries).Wf good) : (entries.map (·.1)).Nodup := (wf [] entries rfl).1

theorem Tree.Wf.inside (wf : (Tree.dir entries).Wf good) (member : (name,child) ∈ entries) : child.Wf good :=
  fun below inner found => wf (name :: below) inner ((at_dir wf.names).mpr ⟨child,member,found⟩)

/-- The names on a path to something are good. -/
theorem Tree.Wf.good_path (wf : t.Wf good) {found : Tree κ α} (there : t.at path = some found) : ∀ name ∈ path, good name := by
  induction path generalizing t with
  | nil => simp
  | cons first rest ih =>
    cases t with
    | leaf value => cases there
    | dir entries =>
      obtain ⟨child,member,later⟩ := (at_dir wf.names).mp there
      intro name inside
      rcases List.mem_cons.mp inside with rfl | inside
      · exact (wf [] entries rfl).2 _ member
      · exact ih (wf.inside member) later name inside

/-- The walk lists a leaf that is to be listed under each of its paths, and nothing else. -/
theorem mem_walk {t : Tree κ α} {path : List κ} (wf : t.Wf good) {entry : List κ × α} :
    entry ∈ t.walk listed path ↔ ∃ name below, entry.1 = path ++ name :: below ∧ listed entry.1 entry.2 = true ∧
      t.at (name :: below) = some (.leaf entry.2) := by
  obtain ⟨full,value⟩ := entry
  match t with
  | .leaf _ => simp [Tree.walk,Tree.at]
  | .dir entries =>
    rw [Tree.walk,List.mem_append,mem_walkAll,List.mem_filterMap]
    constructor
    · rintro (⟨⟨name,child⟩,member,here⟩ | ⟨name,child,member,later⟩)
      · cases child with
        | dir inner => cases here
        | leaf found =>
          simp only [Option.ite_none_right_eq_some] at here
          obtain ⟨keeps,same⟩ := here
          cases same
          exact ⟨name,[],rfl,keeps,(at_dir wf.names).mpr ⟨_,member,rfl⟩⟩
      · obtain ⟨name',below,same,keeps,found⟩ := (mem_walk (wf.inside member)).mp later
        refine ⟨name,name' :: below,?_,keeps,(at_dir wf.names).mpr ⟨child,member,found⟩⟩
        simpa using same
    · rintro ⟨name,below,same,keeps,found⟩
      obtain ⟨child,member,later⟩ := (at_dir wf.names).mp found
      cases below with
      | nil =>
        cases later
        refine .inl ⟨_,member,?_⟩
        simp only at same
        subst same
        simp only at keeps
        simp [keeps]
      | cons name' below =>
        refine .inr ⟨name,child,member,(mem_walk (wf.inside member)).mpr ⟨name',below,?_,keeps,later⟩⟩
        simpa using same
termination_by sizeOf t
decreasing_by
  all_goals
    have smaller := List.sizeOf_lt_of_mem member
    simp only [Prod.mk.sizeOf_spec,Tree.dir.sizeOf_spec] at smaller ⊢
    omega

/-- The walks of the entries of a directory list no path twice when none of them does. -/
theorem walkAll_nodup (names : (entries.map (·.1)).Nodup) (wf : ∀ entry ∈ entries, entry.2.Wf good)
    (each : ∀ entry ∈ entries, ((entry.2.walk listed (path ++ [entry.1])).map (·.1)).Nodup) :
    ((walkAll listed path entries).map (·.1)).Nodup := by
  induction entries with
  | nil => simp [walkAll]
  | cons first rest ih =>
    obtain ⟨name,child⟩ := first
    rw [List.map_cons,List.nodup_cons] at names
    rw [walkAll,List.map_append,List.nodup_append]
    refine ⟨each _ (List.mem_cons_self ..),ih names.2 (fun entry member => wf entry (List.mem_cons_of_mem _ member))
      (fun entry member => each entry (List.mem_cons_of_mem _ member)),?_⟩
    rintro _ here _ there rfl
    obtain ⟨entry,inside,rfl⟩ := List.mem_map.mp here
    obtain ⟨entry',inside',same⟩ := List.mem_map.mp there
    obtain ⟨name',child',member,later⟩ := mem_walkAll.mp inside'
    obtain ⟨_,_,first,_⟩ := (mem_walk (wf _ (List.mem_cons_self ..))).mp inside
    obtain ⟨_,_,second,_⟩ := (mem_walk (wf _ (List.mem_cons_of_mem _ member))).mp later
    rw [first,second] at same
    have equal : name' = name := by
      simp only [List.append_assoc,List.singleton_append,List.append_cancel_left_eq,List.cons.injEq] at same
      exact same.1
    exact names.1 (List.mem_map.mpr ⟨_,member,equal⟩)

/-- The walk lists no path twice. -/
theorem walk_nodup {t : Tree κ α} {path : List κ} (wf : t.Wf good) : ((t.walk listed path).map (·.1)).Nodup := by
  match t with
  | .leaf _ => simp [Tree.walk]
  | .dir entries =>
    have below : ((walkAll listed path entries).map (·.1)).Nodup :=
      walkAll_nodup wf.names (fun _ member => wf.inside member) fun ⟨name,child⟩ member => walk_nodup (wf.inside member)
    have here : (entries.map fun entry => path ++ [entry.1]).Nodup := by
      have inj : Function.Injective fun name : κ => path ++ [name] := fun a b same => by simpa using same
      simpa [Function.comp_def] using wf.names.map inj
    rw [Tree.walk,List.map_append,List.nodup_append]
    refine ⟨here.sublist (listed_sublist listed path entries),below,?_⟩
    rintro _ first _ second rfl
    obtain ⟨entry,_,same⟩ := List.mem_map.mp ((listed_sublist listed path entries).subset first)
    obtain ⟨entry',inside,same'⟩ := List.mem_map.mp second
    obtain ⟨name,child,member,later⟩ := mem_walkAll.mp inside
    obtain ⟨_,_,deeper,_⟩ := (mem_walk (wf.inside member)).mp later
    have lengths := congrArg List.length (same.trans (same'.symm.trans deeper))
    simp at lengths
termination_by sizeOf t
decreasing_by
  all_goals
    have smaller := List.sizeOf_lt_of_mem member
    simp only [Prod.mk.sizeOf_spec,Tree.dir.sizeOf_spec] at smaller ⊢
    omega

end

section
variable [DecidableEq κ] {ν β : Type}

/-- A dictionary. -/
abbrev Dict (κ ν : Type) := AList fun _ : κ => ν

/-- A value is set, if there is one. -/
def add (k : κ) (out : Dict κ ν) : Option ν → Dict κ ν
  | some value => out.insert k value
  | none => out

/-- A dictionary is filled from a list: an item may add nothing, and may keep the whole from ending. -/
def fill (key : β → κ) (f : β → Option (Option ν)) (out : Dict κ ν) (items : List β) : Option (Dict κ ν) :=
  items.foldlM (fun out item => (f item).map (add (key item) out)) out

variable {key : β → κ} {f : β → Option (Option ν)} {items : List β} {out d : Dict κ ν} {k : κ} {v : ν}

theorem fill_cons {first : β} : fill key f out (first :: items) = some d ↔ ∃ value, f first = some value ∧
    fill key f (add (key first) out value) items = some d := by
  rw [fill,List.foldlM_cons]
  cases f first with
  | none => simp
  | some value => simp [fill]

/-- The filling ends when no item keeps it from ending. -/
theorem fill_ends : (∃ d, fill key f out items = some d) ↔ ∀ item ∈ items, f item ≠ none := by
  induction items generalizing out with
  | nil => exact ⟨fun _ => by simp,fun _ => ⟨out,rfl⟩⟩
  | cons first rest ih =>
    simp only [fill_cons,List.forall_mem_cons]
    constructor
    · rintro ⟨d,value,here,later⟩
      exact ⟨by simp [here],ih.mp ⟨d,later⟩⟩
    · rintro ⟨here,later⟩
      obtain ⟨value,here⟩ := Option.ne_none_iff_exists'.mp here
      obtain ⟨d,ran⟩ := ih.mpr later
      exact ⟨d,value,here,ran⟩

/-- What is found afterwards was there, or comes from an item. -/
theorem lookup_fill (keys : (items.map key).Nodup) (new : ∀ item ∈ items, key item ∉ out) (ran : fill key f out items = some d) :
    d.lookup k = some v ↔ out.lookup k = some v ∨ ∃ item ∈ items, key item = k ∧ f item = some (some v) := by
  induction items generalizing out with
  | nil =>
    cases ran
    simp
  | cons first rest ih =>
    obtain ⟨value,here,later⟩ := fill_cons.mp ran
    rw [List.map_cons,List.nodup_cons] at keys
    have apart : ∀ item ∈ rest, key item ≠ key first := fun item member same =>
      keys.1 (List.mem_map.mpr ⟨item,member,same⟩)
    cases value with
    | none =>
      rw [ih keys.2 (fun item member => new item (List.mem_cons_of_mem _ member)) later]
      simp [here]
    | some value =>
      have new' : ∀ item ∈ rest, key item ∉ out.insert (key first) value := by
        intro item member inside
        rcases (AList.mem_insert _).mp inside with same | old
        · exact apart item member same
        · exact new item (List.mem_cons_of_mem _ member) old
      rw [ih keys.2 new' later]
      by_cases same : key first = k
      · subst same
        have absent : out.lookup (key first) = none := AList.lookup_eq_none.mpr (new first (List.mem_cons_self ..))
        rw [AList.lookup_insert,absent]
        constructor
        · rintro (equal | ⟨item,member,same,_⟩)
          · exact .inr ⟨first,List.mem_cons_self ..,rfl,here.trans (congrArg some equal)⟩
          · exact absurd same (apart item member)
        · rintro (none | ⟨item,member,same,found⟩)
          · cases none
          · rcases List.mem_cons.mp member with rfl | member
            · exact .inl (Option.some_inj.mp (here.symm.trans found))
            · exact absurd same (apart item member)
      · rw [AList.lookup_insert_ne (Ne.symm same)]
        simp [same]

end

end Klados.Trees
