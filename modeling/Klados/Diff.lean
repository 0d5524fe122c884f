import Klados.Files
import Klados.Trees

/-!
`fs_diff`: two sealed layers are mounted and walked, and the dictionaries of their fingerprints are
compared. The walk skips every path that begins like `lost+found`, and it opens whatever is not a
directory, links and devices as well.
-/
namespace Klados.Diff
open Files (Bytes)
open Trees (Tree Dict)

/-- A `str`, as its code points. A file name that is no UTF-8 has surrogates. -/
abbrev Str := List Nat

def ofString (text : String) : Str := text.toList.map Char.toNat

/-- `os.sep`. -/
def sep : Nat := 47

/-- What a directory may hold besides directories. -/
inductive Node
  | file (content : Bytes)
  | symlink (target : Str)
  | fifo
  | socket
  | device (number : Nat)

/-- What is found where a node is followed: a directory, the result of `getsize` with the bytes that are
    read, an `OSError`, or a call that does not return. -/
inductive Followed
  | directory
  | bytes (size : Nat) (content : Bytes)
  | fails
  | never
  deriving DecidableEq

def Followed.isDirectory : Followed → Bool
  | .directory => true
  | .bytes _ _ | .fails | .never => false

/-- A file name. -/
def Valid (name : Str) : Prop := name ≠ [] ∧ sep ∉ name ∧ name ≠ ofString "." ∧ name ≠ ofString ".."

/-- A layer as it is mounted. -/
structure Layer where
  root : List (Str × Tree Str Node)
  wf : (Tree.dir root).Wf Valid

/-- A mounted layer with what the kernel of the host finds through its links and special files. -/
structure Mount extends Layer where
  follow : List Str → Followed

/-- What is found at a path. -/
def Mount.at (m : Mount) (path : List Str) : Option (Tree Str Node) := (Tree.dir m.root).at path

/-- `os.path.isdir` of a node, which follows links. -/
def Mount.isDir (m : Mount) (path : List Str) : Node → Bool
  | .symlink _ =>
    match m.follow path with
    | .directory => true
    | _ => false
  | _ => false

/-- `os.walk(root)`: the files of a directory are those entries that are no directories, and links are not walked into. -/
def os_walk (m : Mount) : List (List Str × Node) := (Tree.dir m.root).walk (fun path node => !m.isDir path node) []

/-- `os.path.relpath(fp, root)`. -/
def relpath (path : List Str) : Str := [sep].intercalate path

/-- `rel.startswith("lost+found")`. -/
def skipped (path : List Str) : Bool := (ofString "lost+found").isPrefixOf (relpath path)

/-- What `open(fp, "rb")` and `os.path.getsize(fp)` give. -/
def Mount.opens (m : Mount) (path : List Str) : Node → Followed
  | .file content => .bytes content.length content
  | _ => m.follow path

/-- `[os.path.getsize(fp), h.hexdigest()[:12]]`. -/
abbrev Fingerprint := Nat × Str

def fingerprint (sha1 : Bytes → Str) (size : Nat) (content : Bytes) : Fingerprint := (size,(sha1 content).take 12)

/-- One file of `_walk_fs`. -/
def visit (sha1 : Bytes → Str) (m : Mount) (out : Dict Str Fingerprint) : List Str × Node → Option (Dict Str Fingerprint)
  | (path,node) =>
    if skipped path then some out
    else
      match m.opens path node with
      | .bytes size content => some (out.insert (relpath path) (fingerprint sha1 size content))
      | .directory | .fails => some out
      | .never => none

/-- `_walk_fs`, where `none` stands for a call that does not return. -/
def _walk_fs (sha1 : Bytes → Str) (m : Mount) : Option (Dict Str Fingerprint) := (os_walk m).foldlM (visit sha1 m) ∅

/-- `sorted`. -/
def sorted (paths : List Str) : List Str := paths.insertionSort (· ≤ ·)

inductive Reply
  | error (text : String)
  | diff (a b : String) (added removed modified : List Str)

/-- `fs_diff`, with the layers that the snapshots have. -/
def fs_diff (sha1 : Bytes → Str) (sid_a sid_b : String) (a b : Option Mount) : Option Reply :=
  match a, b with
  | some ma, some mb => do
    let fa ← _walk_fs sha1 ma
    let fb ← _walk_fs sha1 mb
    some (.diff sid_a sid_b (sorted (fb.keys.filter (· ∉ fa))) (sorted (fa.keys.filter (· ∉ fb)))
      (sorted (fa.keys.filter fun p => p ∈ fb ∧ fa.lookup p ≠ fb.lookup p)))
  | _, _ => some (.error "one or both snapshots have no sealed disk layer")

/-- In the directory `lost+found` at the top. -/
def inLostFound : List Str → Bool
  | top :: _ :: _ => top = ofString "lost+found"
  | _ => false

/-- The content of a regular file outside `lost+found`. -/
def Mount.content (m : Mount) (path : List Str) : Option Bytes :=
  match m.at path with
  | some (.leaf (.file content)) => if inLostFound path then none else some content
  | _ => none

/-- The list of these paths, in order. -/
def Lists (paths : List Str) (P : List Str → Prop) : Prop :=
  paths.Pairwise (· < ·) ∧ ∀ rel, rel ∈ paths ↔ ∃ path, relpath path = rel ∧ P path

/-- There is the one and not the other. -/
def Only {α : Type} (x y : Option α) : Prop := x.isSome ∧ y = none

/-- There are both, and they differ. -/
def Changed {α : Type} (x y : Option α) : Prop := ∃ v w, x = some v ∧ y = some w ∧ v ≠ w

/-- The three lists are those of the regular files. -/
def Exact (sid_a sid_b : String) (a b : Mount) (result : Option Reply) : Prop :=
  ∃ added removed modified, result = some (.diff sid_a sid_b added removed modified) ∧
    Lists added (fun path => Only (b.content path) (a.content path)) ∧
    Lists removed (fun path => Only (a.content path) (b.content path)) ∧
    Lists modified (fun path => Changed (a.content path) (b.content path))

/-- What is read through a link or a special file. -/
def Mount.foreign (m : Mount) (path : List Str) : Option (Nat × Bytes) :=
  match m.at path with
  | some (.leaf (.file _)) => none
  | some (.leaf _) =>
    match m.follow path with
    | .bytes size content => some (size,content)
    | _ => none
  | _ => none

/-- Every file that is opened can be read to an end. -/
def Mount.Ends (m : Mount) : Prop :=
  ∀ path node, m.at path = some (.leaf node) → skipped path = false → m.opens path node ≠ .never

/-- The files that are skipped and the links and special files that are read make no difference. -/
structure Plain (a b : Mount) : Prop where
  ends : a.Ends ∧ b.Ends
  hidden : ∀ path, skipped path = true → a.content path = b.content path
  foreign : ∀ path, skipped path = false → a.foreign path = b.foreign path

/-- What is read in a layer, with the size. -/
def Mount.Reads (m : Mount) (x : Nat × Bytes) : Prop :=
  ∃ path node, m.at path = some (.leaf node) ∧ m.opens path node = .bytes x.1 x.2

/-- No two things that are read have one fingerprint. -/
def Distinguishes (sha1 : Bytes → Str) (a b : Mount) : Prop :=
  ∀ x y, a.Reads x ∨ b.Reads x → a.Reads y ∨ b.Reads y → fingerprint sha1 x.1 x.2 = fingerprint sha1 y.1 y.2 → x = y

/-- What the dictionary of a layer has for a path. -/
def Mount.entry (sha1 : Bytes → Str) (m : Mount) (path : List Str) : Option Fingerprint :=
  match m.at path with
  | some (.leaf node) =>
    if skipped path then none
    else
      match m.opens path node with
      | .bytes size content => some (fingerprint sha1 size content)
      | _ => none
  | _ => none

section
variable {sha1 : Bytes → Str} {a b m : Mount} {path path' : List Str} {d fa fb : Dict Str Fingerprint} {rel : Str}

theorem Mount.valid {t : Tree Str Node} (there : m.at path = some t) : ∀ name ∈ path, sep ∉ name :=
  fun name inside => (m.wf.good_path there name inside).2.1

theorem Mount.ne_nil {node : Node} (there : m.at path = some (.leaf node)) : path ≠ [] := by
  rintro rfl
  cases there

/-- Distinct paths have distinct names as a whole. -/
theorem relpath_inj {node node' : Node} (there : m.at path = some (.leaf node)) (there' : a.at path' = some (.leaf node'))
    (same : relpath path = relpath path') : path = path' := by
  calc path = (relpath path).splitOn sep := (List.splitOn_intercalate sep (Mount.valid there) (Mount.ne_nil there)).symm
    _ = (relpath path').splitOn sep := by rw [same]
    _ = path' := List.splitOn_intercalate sep (Mount.valid there') (Mount.ne_nil there')

theorem mem_os_walk {node : Node} : (path,node) ∈ os_walk m ↔ m.at path = some (.leaf node) ∧ m.isDir path node = false := by
  rw [os_walk,Trees.mem_walk m.wf]
  simp only [List.nil_append,Bool.not_eq_true']
  constructor
  · rintro ⟨name,below,rfl,keeps,there⟩
    exact ⟨there,keeps⟩
  · rintro ⟨there,keeps⟩
    obtain ⟨name,below,rfl⟩ := List.exists_cons_of_ne_nil (Mount.ne_nil there)
    exact ⟨name,below,rfl,keeps,there⟩

/-- What one file adds. -/
def reading (sha1 : Bytes → Str) (m : Mount) (entry : List Str × Node) : Option (Option Fingerprint) :=
  if skipped entry.1 then some none
  else
    match m.opens entry.1 entry.2 with
    | .bytes size content => some (some (fingerprint sha1 size content))
    | .directory | .fails => some none
    | .never => none

theorem walk_fill : _walk_fs sha1 m = Trees.fill (fun entry => relpath entry.1) (reading sha1 m) ∅ (os_walk m) := by
  have same : visit sha1 m = fun out entry => (reading sha1 m entry).map (Trees.add (relpath entry.1) out) := by
    funext out ⟨path,node⟩
    simp only [visit,reading]
    split
    · rfl
    · split <;> rfl
  rw [_walk_fs,same]
  rfl

/-- A link to a directory is not opened. -/
theorem opens_directory {node : Node} (dir : m.isDir path node = true) : m.opens path node = .directory := by
  cases node with
  | symlink target =>
    simp only [Mount.isDir] at dir
    split at dir
    · rename_i found
      exact found
    · cases dir
  | file | fifo | socket | device => cases dir

theorem walk_ends : (∃ d, _walk_fs sha1 m = some d) ↔ m.Ends := by
  rw [walk_fill,Trees.fill_ends]
  constructor
  · intro each path node there shown never
    by_cases dir : m.isDir path node = true
    · rw [opens_directory dir] at never
      cases never
    · have member := mem_os_walk.mpr ⟨there,Bool.eq_false_iff.mpr dir⟩
      exact each _ member (by simp [reading,shown,never])
  · intro ends entry member never
    obtain ⟨there,_⟩ := mem_os_walk.mp member
    cases shown : skipped entry.1 with
    | true => simp [reading,shown] at never
    | false =>
      have other := ends entry.1 entry.2 there shown
      simp only [reading,shown,Bool.false_eq_true,if_false] at never
      split at never <;> contradiction

/-- The keys of the walk are distinct. -/
theorem walk_keys (m : Mount) : ((os_walk m).map fun entry => relpath entry.1).Nodup := by
  have paths : ((os_walk m).map (·.1)).Nodup := Trees.walk_nodup m.wf
  rw [List.nodup_iff_pairwise_ne,List.pairwise_map] at paths ⊢
  refine paths.imp_of_mem fun {x y} first second differ same => differ ?_
  exact relpath_inj (mem_os_walk.mp first).1 (mem_os_walk.mp second).1 same

/-- The dictionary of a layer. -/
theorem walk_lookup (ran : _walk_fs sha1 m = some d) {v : Fingerprint} :
    d.lookup rel = some v ↔ ∃ path, relpath path = rel ∧ m.entry sha1 path = some v := by
  rw [walk_fill] at ran
  rw [Trees.lookup_fill (walk_keys m) (fun _ _ => AList.notMem_empty _) ran,AList.lookup_empty]
  constructor
  · rintro (none | ⟨⟨path,node⟩,member,same,added⟩)
    · cases none
    · refine ⟨path,same,?_⟩
      simp only [reading] at added
      split at added
      · cases added
      · rename_i shown
        simp only [Mount.entry,(mem_os_walk.mp member).1,shown]
        split at added <;> cases added
        rename_i read
        simp [read]
  · rintro ⟨path,same,found⟩
    refine .inr ?_
    simp only [Mount.entry] at found
    split at found
    · rename_i node there
      split at found
      · cases found
      · rename_i shown
        split at found
        · rename_i size content read
          cases found
          have file : m.isDir path node = false := by
            rw [Bool.eq_false_iff]
            intro dir
            rw [opens_directory dir] at read
            cases read
          exact ⟨(path,node),mem_os_walk.mpr ⟨there,file⟩,same,by simp [reading,shown,read]⟩
        · cases found
    · cases found

theorem entry_leaf (has : (m.entry sha1 path).isSome = true) : ∃ node, m.at path = some (.leaf node) := by
  simp only [Mount.entry] at has
  split at has
  · rename_i node there
    exact ⟨node,there⟩
  · cases has

theorem walk_entry (ran : _walk_fs sha1 m = some d) {node : Node} (there : a.at path = some (.leaf node)) :
    d.lookup (relpath path) = m.entry sha1 path := by
  ext v
  rw [walk_lookup ran]
  refine ⟨?_,fun found => ⟨path,rfl,found⟩⟩
  rintro ⟨path',same,found⟩
  obtain ⟨node',there'⟩ := entry_leaf (Option.isSome_iff_exists.mpr ⟨v,found⟩)
  rw [← relpath_inj there' there same]
  exact found

theorem mem_sorted {paths : List Str} : rel ∈ sorted paths ↔ rel ∈ paths := (List.perm_insertionSort _ paths).mem_iff

/-- What is sorted is in order, and has nothing twice. -/
theorem sorted_pairwise {paths : List Str} (nodup : paths.Nodup) : (sorted paths).Pairwise (· < ·) := by
  have order := List.pairwise_insertionSort (α := Str) (· ≤ ·) paths
  have distinct : (sorted paths).Nodup := (List.perm_insertionSort _ paths).nodup_iff.mpr nodup
  exact (order.and (List.nodup_iff_pairwise_ne.mp distinct)).imp fun both => lt_of_le_of_ne both.1 both.2

theorem mem_entry (ran : _walk_fs sha1 m = some d) : rel ∈ d ↔ ∃ path, relpath path = rel ∧ (m.entry sha1 path).isSome := by
  rw [← AList.lookup_isSome,Option.isSome_iff_exists]
  simp only [walk_lookup ran,Option.isSome_iff_exists]
  constructor
  · rintro ⟨v,path,same,found⟩
    exact ⟨path,same,v,found⟩
  · rintro ⟨path,same,v,found⟩
    exact ⟨v,path,same,found⟩

/-- The paths that the one dictionary has and the other has not. -/
theorem lists_only (ran : _walk_fs sha1 a = some fa) (ran' : _walk_fs sha1 b = some fb) :
    Lists (sorted (fa.keys.filter (· ∉ fb))) fun path => Only (a.entry sha1 path) (b.entry sha1 path) := by
  refine ⟨sorted_pairwise ((AList.keys_nodup fa).filter _),fun rel => ?_⟩
  rw [mem_sorted,List.mem_filter,decide_eq_true_eq,← AList.mem_keys,mem_entry ran,← AList.lookup_eq_none]
  constructor
  · rintro ⟨⟨path,rfl,has⟩,lacks⟩
    obtain ⟨node,there⟩ := entry_leaf has
    exact ⟨path,rfl,has,walk_entry ran' there ▸ lacks⟩
  · rintro ⟨path,rfl,has,lacks⟩
    obtain ⟨node,there⟩ := entry_leaf has
    exact ⟨⟨path,rfl,has⟩,(walk_entry ran' there).trans lacks⟩

/-- The paths for which the dictionaries differ. -/
theorem lists_changed (ran : _walk_fs sha1 a = some fa) (ran' : _walk_fs sha1 b = some fb) :
    Lists (sorted (fa.keys.filter fun p => p ∈ fb ∧ fa.lookup p ≠ fb.lookup p))
      fun path => Changed (a.entry sha1 path) (b.entry sha1 path) := by
  refine ⟨sorted_pairwise ((AList.keys_nodup fa).filter _),fun rel => ?_⟩
  rw [mem_sorted,List.mem_filter,decide_eq_true_eq,← AList.mem_keys,mem_entry ran,← AList.lookup_isSome]
  constructor
  · rintro ⟨⟨path,rfl,has⟩,has',differ⟩
    obtain ⟨node,there⟩ := entry_leaf has
    rw [walk_entry ran' there] at has' differ
    rw [walk_entry ran there] at differ
    obtain ⟨v,first⟩ := Option.isSome_iff_exists.mp has
    obtain ⟨w,second⟩ := Option.isSome_iff_exists.mp has'
    refine ⟨path,rfl,v,w,first,second,fun same => differ ?_⟩
    rw [first,second,same]
  · rintro ⟨path,rfl,v,w,first,second,differ⟩
    obtain ⟨node,there⟩ := entry_leaf (Option.isSome_iff_exists.mpr ⟨v,first⟩)
    rw [walk_entry ran there,walk_entry ran' there,first,second]
    exact ⟨⟨path,rfl,by simp [first]⟩,rfl,by simpa using differ⟩

/-- Two descriptions of a list by paths to leaves are the same description. -/
theorem Lists.congr {paths : List Str} {P Q : List Str → Prop} (lists : Lists paths P)
    (leaf : ∀ path, P path → ∃ (m : Mount) (node : Node), m.at path = some (.leaf node))
    (leaf' : ∀ path, Q path → ∃ (m : Mount) (node : Node), m.at path = some (.leaf node)) :
    Lists paths Q ↔ ∀ path, P path ↔ Q path := by
  constructor
  · intro lists' path
    constructor
    · intro here
      obtain ⟨path',same,there⟩ := (lists'.2 _).mp ((lists.2 (relpath path)).mpr ⟨path,rfl,here⟩)
      obtain ⟨_,_,first⟩ := leaf path here
      obtain ⟨_,_,second⟩ := leaf' path' there
      exact relpath_inj second first same ▸ there
    · intro here
      obtain ⟨path',same,there⟩ := (lists.2 _).mp ((lists'.2 (relpath path)).mpr ⟨path,rfl,here⟩)
      obtain ⟨_,_,first⟩ := leaf' path here
      obtain ⟨_,_,second⟩ := leaf path' there
      exact relpath_inj second first same ▸ there
  · intro same
    refine ⟨lists.1,fun rel => (lists.2 rel).trans ?_⟩
    simp only [same]

/-- A list is determined by its paths. -/
theorem Lists.unique {paths paths' : List Str} {P : List Str → Prop} (lists : Lists paths P) (lists' : Lists paths' P) :
    paths = paths' := by
  have same : paths.Perm paths' := by
    refine (List.perm_ext_iff_of_nodup ?_ ?_).mpr fun rel => (lists.2 rel).trans (lists'.2 rel).symm
    · exact lists.1.imp ne_of_lt
    · exact lists'.1.imp ne_of_lt
  exact same.eq_of_pairwise (fun x y _ _ less more => absurd less (lt_asymm more)) lists.1 lists'.1

theorem content_leaf (has : (m.content path).isSome = true) : ∃ node, m.at path = some (.leaf node) := by
  simp only [Mount.content] at has
  split at has
  · rename_i there
    exact ⟨_,there⟩
  · cases has

/-! ## Path by path -/

/-- What is in `lost+found` is skipped. -/
theorem skipped_lostFound (inside : inLostFound path = true) : skipped path = true := by
  match path with
  | [] | [_] => cases inside
  | top :: name :: rest =>
    obtain rfl : top = ofString "lost+found" := of_decide_eq_true inside
    rw [skipped,List.isPrefixOf_iff_prefix,relpath,List.intercalate_cons_cons,List.append_assoc]
    exact List.prefix_append ..

theorem entry_skipped (hides : skipped path = true) : m.entry sha1 path = none := by
  simp only [Mount.entry,hides]
  split <;> rfl

/-- A path that is not skipped has the fingerprint of a regular file, or of what is read through it. -/
theorem entry_shown (shown : skipped path = false) :
    m.entry sha1 path = ((m.content path).map fun content => fingerprint sha1 content.length content).or
      ((m.foreign path).map fun read => fingerprint sha1 read.1 read.2) := by
  have outside : inLostFound path = false := by
    rw [Bool.eq_false_iff]
    intro inside
    rw [skipped_lostFound inside] at shown
    cases shown
  simp only [Mount.entry,Mount.content,Mount.foreign,shown,outside]
  cases m.at path with
  | none => rfl
  | some t =>
    cases t with
    | dir entries => rfl
    | leaf node =>
      cases node with
      | file content => rfl
      | symlink | fifo | socket | device =>
        simp only [Mount.opens]
        cases m.follow path <;> rfl

theorem foreign_none {content : Bytes} (regular : m.content path = some content) : m.foreign path = none := by
  simp only [Mount.content] at regular
  simp only [Mount.foreign]
  split at regular
  · rename_i there
    rw [there]
  · cases regular

theorem reads_content {content : Bytes} (regular : m.content path = some content) : m.Reads (content.length,content) := by
  simp only [Mount.content] at regular
  split at regular
  · rename_i there
    split at regular <;> cases regular
    exact ⟨path,_,there,rfl⟩
  · cases regular

theorem reads_foreign {read : Nat × Bytes} (foreign : m.foreign path = some read) : m.Reads read := by
  simp only [Mount.foreign] at foreign
  split at foreign
  · cases foreign
  · rename_i node other there
    split at foreign <;> cases foreign
    rename_i follows
    refine ⟨path,node,there,?_⟩
    cases node with
    | file content => exact (other content rfl).elim
    | symlink | fifo | socket | device => exact follows
  · cases foreign

/-- The dictionaries say of a path what is to be said of it. -/
def Agree (sha1 : Bytes → Str) (a b : Mount) (path : List Str) : Prop :=
  (Only (b.entry sha1 path) (a.entry sha1 path) ↔ Only (b.content path) (a.content path)) ∧
  (Only (a.entry sha1 path) (b.entry sha1 path) ↔ Only (a.content path) (b.content path)) ∧
  (Changed (a.entry sha1 path) (b.entry sha1 path) ↔ Changed (a.content path) (b.content path))

theorem agree_hidden (hides : skipped path = true) : Agree sha1 a b path ↔ a.content path = b.content path := by
  simp only [Agree,entry_skipped hides]
  cases a.content path <;> cases b.content path <;> simp [Only,Changed]

theorem agree_shown (apart : Distinguishes sha1 a b) (shown : skipped path = false) :
    Agree sha1 a b path ↔ a.foreign path = b.foreign path := by
  have contents : ∀ x y, a.content path = some x → b.content path = some y →
      (fingerprint sha1 x.length x = fingerprint sha1 y.length y ↔ x = y) := by
    intro x y first second
    refine ⟨fun same => ?_,fun same => same ▸ rfl⟩
    exact congrArg Prod.snd (apart _ _ (.inl (reads_content first)) (.inr (reads_content second)) same)
  have foreigns : ∀ x y, a.foreign path = some x → b.foreign path = some y →
      (fingerprint sha1 x.1 x.2 = fingerprint sha1 y.1 y.2 ↔ x = y) := by
    intro x y first second
    refine ⟨fun same => ?_,fun same => same ▸ rfl⟩
    exact apart _ _ (.inl (reads_foreign first)) (.inr (reads_foreign second)) same
  simp only [Agree,entry_shown shown]
  cases x : a.content path with
  | some content =>
    rw [foreign_none x]
    cases y : b.content path with
    | some content' =>
      rw [foreign_none y]
      simp [Only,Changed,contents _ _ x y]
    | none => cases g : b.foreign path <;> simp [Only,Changed]
  | none =>
    cases y : b.content path with
    | some content' =>
      rw [foreign_none y]
      cases f : a.foreign path <;> simp [Only,Changed]
    | none =>
      cases f : a.foreign path with
      | none => cases g : b.foreign path <;> simp [Only,Changed]
      | some read =>
        cases g : b.foreign path with
        | none => simp [Only,Changed]
        | some read' => simp [Only,Changed,foreigns _ _ f g]

theorem plain_iff (apart : Distinguishes sha1 a b) : Plain a b ↔ (a.Ends ∧ b.Ends) ∧ ∀ path, Agree sha1 a b path := by
  constructor
  · rintro ⟨ends,hidden,foreign⟩
    refine ⟨ends,fun path => ?_⟩
    cases shown : skipped path with
    | true => exact (agree_hidden shown).mpr (hidden path shown)
    | false => exact (agree_shown apart shown).mpr (foreign path shown)
  · rintro ⟨ends,agree⟩
    exact ⟨ends,fun path hides => (agree_hidden hides).mp (agree path),fun path shown => (agree_shown apart shown).mp (agree path)⟩

theorem fs_diff_ran {sid_a sid_b : String} {added removed modified : List Str} :
    fs_diff sha1 sid_a sid_b (some a) (some b) = some (.diff sid_a sid_b added removed modified) ↔
      ∃ fa fb, _walk_fs sha1 a = some fa ∧ _walk_fs sha1 b = some fb ∧ sorted (fb.keys.filter (· ∉ fa)) = added ∧
        sorted (fa.keys.filter (· ∉ fb)) = removed ∧
        sorted (fa.keys.filter fun p => p ∈ fb ∧ fa.lookup p ≠ fb.lookup p) = modified := by
  show (_walk_fs sha1 a).bind (fun fa => (_walk_fs sha1 b).bind fun fb => some _) = some _ ↔ _
  simp only [Option.bind_eq_some_iff,Option.some_inj,Reply.diff.injEq,true_and]
  constructor
  · rintro ⟨fa,ran,fb,ran',lists⟩
    exact ⟨fa,fb,ran,ran',lists⟩
  · rintro ⟨fa,fb,ran,ran',lists⟩
    exact ⟨fa,ran,fb,ran',lists⟩

theorem only_leaf (path : List Str) (only : Only (a.entry sha1 path) (b.entry sha1 path)) :
    ∃ (m : Mount) (node : Node), m.at path = some (.leaf node) := ⟨a,entry_leaf only.1⟩

theorem changed_leaf (path : List Str) (changed : Changed (a.entry sha1 path) (b.entry sha1 path)) :
    ∃ (m : Mount) (node : Node), m.at path = some (.leaf node) := by
  obtain ⟨v,_,first,_⟩ := changed
  exact ⟨a,entry_leaf (Option.isSome_iff_exists.mpr ⟨v,first⟩)⟩

theorem only_content (path : List Str) (only : Only (a.content path) (b.content path)) :
    ∃ (m : Mount) (node : Node), m.at path = some (.leaf node) := ⟨a,content_leaf only.1⟩

theorem changed_content (path : List Str) (changed : Changed (a.content path) (b.content path)) :
    ∃ (m : Mount) (node : Node), m.at path = some (.leaf node) := by
  obtain ⟨v,_,first,_⟩ := changed
  exact ⟨a,content_leaf (Option.isSome_iff_exists.mpr ⟨v,first⟩)⟩

/-- The lists are exact where both walks end and the dictionaries say of each path what is to be said. -/
theorem exact_iff {sid_a sid_b : String} : Exact sid_a sid_b a b (fs_diff sha1 sid_a sid_b (some a) (some b)) ↔
    (a.Ends ∧ b.Ends) ∧ ∀ path, Agree sha1 a b path := by
  constructor
  · rintro ⟨added,removed,modified,result,la,lr,lm⟩
    obtain ⟨fa,fb,ran,ran',rfl,rfl,rfl⟩ := fs_diff_ran.mp result
    refine ⟨⟨walk_ends.mp ⟨fa,ran⟩,walk_ends.mp ⟨fb,ran'⟩⟩,fun path => ⟨?_,?_,?_⟩⟩
    · exact ((lists_only ran' ran).congr only_leaf only_content).mp la path
    · exact ((lists_only ran ran').congr only_leaf only_content).mp lr path
    · exact ((lists_changed ran ran').congr changed_leaf changed_content).mp lm path
  · rintro ⟨⟨ends,ends'⟩,agree⟩
    obtain ⟨fa,ran⟩ : ∃ d, _walk_fs sha1 a = some d := walk_ends.mpr ends
    obtain ⟨fb,ran'⟩ : ∃ d, _walk_fs sha1 b = some d := walk_ends.mpr ends'
    refine ⟨_,_,_,fs_diff_ran.mpr ⟨fa,fb,ran,ran',rfl,rfl,rfl⟩,?_,?_,?_⟩
    · exact ((lists_only ran' ran).congr only_leaf only_content).mpr fun path => (agree path).1
    · exact ((lists_only ran ran').congr only_leaf only_content).mpr fun path => (agree path).2.1
    · exact ((lists_changed ran ran').congr changed_leaf changed_content).mpr fun path => (agree path).2.2

theorem Distinguishes.symm (apart : Distinguishes sha1 a b) : Distinguishes sha1 b a :=
  fun x y first second same => apart x y first.symm second.symm same

theorem Plain.symm (plain : Plain a b) : Plain b a :=
  ⟨plain.ends.symm,fun path hides => (plain.hidden path hides).symm,fun path shown => (plain.foreign path shown).symm⟩

theorem Lists.changed_symm {paths : List Str} (lists : Lists paths fun path => Changed (a.content path) (b.content path)) :
    Lists paths fun path => Changed (b.content path) (a.content path) := by
  refine ⟨lists.1,fun rel => (lists.2 rel).trans ?_⟩
  constructor
  · rintro ⟨path,same,v,w,first,second,differ⟩
    exact ⟨path,same,w,v,second,first,differ.symm⟩
  · rintro ⟨path,same,v,w,first,second,differ⟩
    exact ⟨path,same,w,v,second,first,differ.symm⟩

theorem Lists.empty {paths : List Str} {P : List Str → Prop} (lists : Lists paths P) : paths = [] ↔ ∀ path, ¬ P path := by
  rw [List.eq_nil_iff_forall_not_mem]
  simp only [lists.2]
  constructor
  · exact fun none path holds => none _ ⟨path,rfl,holds⟩
  · rintro none rel ⟨path,_,holds⟩
    exact none path holds

/-- Two values are the same when neither is missing and they do not differ. -/
theorem same_iff {α : Type} {x y : Option α} : ¬ Only y x ∧ ¬ Only x y ∧ ¬ Changed x y ↔ x = y := by
  cases x <;> cases y <;> simp [Only,Changed]

end

/-- The three lists are those of the regular files outside `lost+found` if and only if no regular file that is
    skipped there makes a difference, what is read through links and special files is the same in both layers,
    and every call returns. Then the layers in the other order have the lists of added and removed paths
    exchanged, no list has a path when the regular files are the same, and nothing besides the regular
    files has an influence. -/
theorem fs_diff_exact (sha1 : Bytes → Str) (sid_a sid_b : String) (a b : Mount) (apart : Distinguishes sha1 a b) :
    (Exact sid_a sid_b a b (fs_diff sha1 sid_a sid_b (some a) (some b)) ↔ Plain a b) ∧
    (Plain a b → ∃ added removed modified,
      fs_diff sha1 sid_a sid_b (some a) (some b) = some (.diff sid_a sid_b added removed modified) ∧
      fs_diff sha1 sid_b sid_a (some b) (some a) = some (.diff sid_b sid_a removed added modified) ∧
      (added = [] ∧ removed = [] ∧ modified = [] ↔ ∀ path, a.content path = b.content path) ∧
      ∀ a' b' : Mount, a'.content = a.content → b'.content = b.content → Plain a' b' → Distinguishes sha1 a' b' →
        fs_diff sha1 sid_a sid_b (some a') (some b') = some (.diff sid_a sid_b added removed modified)) := by
  have exact_plain : ∀ sid_a sid_b {a b : Mount}, Distinguishes sha1 a b →
      (Exact sid_a sid_b a b (fs_diff sha1 sid_a sid_b (some a) (some b)) ↔ Plain a b) :=
    fun _ _ _ _ apart => exact_iff.trans (plain_iff apart).symm
  refine ⟨exact_plain sid_a sid_b apart,fun plain => ?_⟩
  obtain ⟨added,removed,modified,result,la,lr,lm⟩ := (exact_plain sid_a sid_b apart).mpr plain
  refine ⟨added,removed,modified,result,?_,?_,?_⟩
  · obtain ⟨added',removed',modified',result',la',lr',lm'⟩ :=
      (exact_plain sid_b sid_a apart.symm).mpr plain.symm
    rw [result',la'.unique lr,lr'.unique la,lm'.changed_symm.unique lm]
  · rw [la.empty,lr.empty,lm.empty,← forall_and,← forall_and]
    exact forall_congr' fun path => same_iff
  · intro a' b' same same' plain' apart'
    obtain ⟨added',removed',modified',result',la',lr',lm'⟩ :=
      (exact_plain sid_a sid_b apart').mpr plain'
    rw [same,same'] at la' lr' lm'
    rw [result',la'.unique la,lr'.unique lr,lm'.unique lm]

/-- A layer without directories. -/
def flat (nodes : List (Str × Node)) (names : (nodes.map (·.1)).Nodup) (valid : ∀ entry ∈ nodes, Valid entry.1)
    (follow : List Str → Followed) : Mount where
  root := nodes.map fun entry => (entry.1,.leaf entry.2)
  wf := by
    have names' : ((nodes.map fun entry => (entry.1,(Tree.leaf entry.2 : Tree Str Node))).map (·.1)).Nodup := by
      simpa [Function.comp_def] using names
    intro path entries found
    cases path with
    | nil =>
      cases found
      refine ⟨names',fun entry inside => ?_⟩
      obtain ⟨node,member,rfl⟩ := List.mem_map.mp inside
      exact valid node member
    | cons name below =>
      obtain ⟨child,inside,later⟩ := (Trees.at_dir names').mp found
      obtain ⟨node,_,same⟩ := List.mem_map.mp inside
      cases same
      cases below <;> cases later
  follow := follow

/-- A digest that is the content. -/
def itself (content : Bytes) : Str := content.map UInt8.toNat

theorem itself_inj {x y : Bytes} (same : itself x = itself y) : x = y :=
  List.map_injective_iff.mpr (fun _ _ => UInt8.toNat_inj.mp) same

/-- What is read in two layers is short, so that the digest is not cut. -/
theorem distinguishes_short {a b : Mount} (short : ∀ x, a.Reads x ∨ b.Reads x → x.1 = x.2.length ∧ x.2.length ≤ 12) :
    Distinguishes itself a b := by
  intro x y first second same
  obtain ⟨size,bound⟩ := short x first
  obtain ⟨size',bound'⟩ := short y second
  have digests : (itself x.2).take 12 = (itself y.2).take 12 := congrArg Prod.snd same
  rw [List.take_of_length_le (by simpa [itself] using bound),List.take_of_length_le (by simpa [itself] using bound')] at digests
  have contents := itself_inj digests
  exact Prod.ext (by rw [size,size',contents]) contents

theorem flat_leaf {nodes : List (Str × Node)} {names : (nodes.map (·.1)).Nodup} {valid : ∀ entry ∈ nodes, Valid entry.1}
    {follow : List Str → Followed} {path : List Str} {node : Node}
    (there : (flat nodes names valid follow).at path = some (.leaf node)) : ∃ name, path = [name] ∧ (name,node) ∈ nodes := by
  cases path with
  | nil => cases there
  | cons name below =>
    obtain ⟨child,inside,later⟩ := (Trees.at_dir (flat nodes names valid follow).wf.names).mp there
    obtain ⟨entry,member,same⟩ := List.mem_map.mp inside
    cases same
    cases below with
    | nil =>
      cases later
      exact ⟨_,rfl,member⟩
    | cons => cases later

instance (name : Str) : Decidable (Valid name) := inferInstanceAs (Decidable (_ ∧ _))

/-- Layers of short regular files. -/
theorem distinguishes_flat {nodes nodes' : List (Str × Node)} {names : (nodes.map (·.1)).Nodup}
    {names' : (nodes'.map (·.1)).Nodup} {valid : ∀ entry ∈ nodes, Valid entry.1} {valid' : ∀ entry ∈ nodes', Valid entry.1}
    {follow follow' : List Str → Followed}
    (short : ∀ name node, (name,node) ∈ nodes → ∀ size content, (flat nodes names valid follow).opens [name] node =
      .bytes size content → size = content.length ∧ content.length ≤ 12)
    (short' : ∀ name node, (name,node) ∈ nodes' → ∀ size content, (flat nodes' names' valid' follow').opens [name] node =
      .bytes size content → size = content.length ∧ content.length ≤ 12) :
    Distinguishes itself (flat nodes names valid follow) (flat nodes' names' valid' follow') := by
  apply distinguishes_short
  rintro x (⟨path,node,there,opens⟩ | ⟨path,node,there,opens⟩)
  · obtain ⟨name,rfl,member⟩ := flat_leaf there
    exact short name node member _ _ opens
  · obtain ⟨name,rfl,member⟩ := flat_leaf there
    exact short' name node member _ _ opens

/-- Nothing. -/
def emptyLayer : Mount := flat [] (by decide) (by decide) fun _ => .fails

/-- One file. -/
def oneFile : Mount := flat [(ofString "f",.file [1])] (by decide) (by decide) fun _ => .fails

/-- The file with another content, and one more. -/
def twoFiles : Mount := flat [(ofString "f",.file [2]),(ofString "g",.file [1])] (by decide) (by decide) fun _ => .fails

/-- A file next to `lost+found`. -/
def nextToLostFound : Mount := flat [(ofString "lost+found.txt",.file [1])] (by decide) (by decide) fun _ => .fails

/-- A link to a file of the host. -/
def linkToHost : Mount :=
  flat [(ofString "link",.symlink (ofString "/etc/hostname"))] (by decide) (by decide) fun _ => .bytes 1 [9]

theorem content_at {m : Mount} {path : List Str} {content : Bytes} (regular : m.content path = some content) :
    m.at path = some (.leaf (.file content)) := by
  simp only [Mount.content] at regular
  split at regular
  · rename_i there
    split at regular <;> cases regular
    exact there
  · cases regular

theorem fs_diff_exact_two : Distinguishes itself oneFile twoFiles ∧ Plain oneFile twoFiles ∧
    Exact "a" "b" oneFile twoFiles (some (.diff "a" "b" [ofString "g"] [] [ofString "f"])) := by
  have apart : Distinguishes itself oneFile twoFiles := by
    apply distinguishes_flat
    · intro name node member size content opens
      simp only [List.mem_singleton,Prod.mk.injEq] at member
      obtain ⟨rfl,rfl⟩ := member
      cases opens
      decide
    · intro name node member size content opens
      simp only [List.mem_cons,Prod.mk.injEq,List.not_mem_nil,or_false] at member
      rcases member with ⟨rfl,rfl⟩ | ⟨rfl,rfl⟩ <;> cases opens <;> decide
  have shown : ∀ path node, oneFile.at path = some (.leaf node) ∨ twoFiles.at path = some (.leaf node) →
      skipped path = false ∧ ∃ content, node = .file content := by
    rintro path node (there | there)
    · obtain ⟨name,rfl,member⟩ := flat_leaf there
      simp only [List.mem_singleton,Prod.mk.injEq] at member
      obtain ⟨rfl,rfl⟩ := member
      exact ⟨by decide,_,rfl⟩
    · obtain ⟨name,rfl,member⟩ := flat_leaf there
      simp only [List.mem_cons,Prod.mk.injEq,List.not_mem_nil,or_false] at member
      rcases member with ⟨rfl,rfl⟩ | ⟨rfl,rfl⟩ <;> exact ⟨by decide,_,rfl⟩
  have plain : Plain oneFile twoFiles := by
    refine ⟨⟨?_,?_⟩,?_,?_⟩
    · intro path node there _
      obtain ⟨_,content,rfl⟩ := shown path node (.inl there)
      simp [Mount.opens]
    · intro path node there _
      obtain ⟨_,content,rfl⟩ := shown path node (.inr there)
      simp [Mount.opens]
    · intro path hides
      have none : ∀ m : Mount, m = oneFile ∨ m = twoFiles → m.content path = none := by
        intro m which
        by_contra found
        obtain ⟨content,found⟩ := Option.ne_none_iff_exists'.mp found
        have there := content_at found
        have own := shown path _ (which.imp (by rintro rfl; exact there) (by rintro rfl; exact there))
        rw [hides] at own
        cases own.1
      rw [none oneFile (.inl rfl),none twoFiles (.inr rfl)]
    · intro path _
      have none : ∀ m : Mount, m = oneFile ∨ m = twoFiles → m.foreign path = none := by
        intro m which
        simp only [Mount.foreign]
        split
        · rfl
        · rename_i node other there
          obtain ⟨_,content,rfl⟩ := shown path node (which.imp (by rintro rfl; exact there) (by rintro rfl; exact there))
          exact (other content rfl).elim
        · rfl
      rw [none oneFile (.inl rfl),none twoFiles (.inr rfl)]
  exact ⟨apart,plain,(fs_diff_exact itself "a" "b" oneFile twoFiles apart).1.mpr plain⟩

/-- A regular file whose name begins like `lost+found` is added and not listed. A link to a file of the host
    is no regular file and is listed. -/
theorem fs_diff_not_exact :
    (Distinguishes itself emptyLayer nextToLostFound ∧
      ¬ Exact "a" "b" emptyLayer nextToLostFound (fs_diff itself "a" "b" (some emptyLayer) (some nextToLostFound))) ∧
    Distinguishes itself emptyLayer linkToHost ∧
      ¬ Exact "a" "b" emptyLayer linkToHost (fs_diff itself "a" "b" (some emptyLayer) (some linkToHost)) := by
  refine ⟨⟨?_,?_⟩,?_,?_⟩
  · apply distinguishes_flat
    · intro name node member
      cases member
    · intro name node member size content opens
      simp only [List.mem_singleton,Prod.mk.injEq] at member
      obtain ⟨rfl,rfl⟩ := member
      cases opens
      decide
  · rintro ⟨added,removed,modified,result,added_lists,_,_⟩
    cases result
    exact added_lists.empty.mp rfl [ofString "lost+found.txt"] ⟨rfl,rfl⟩
  · apply distinguishes_flat
    · intro name node member
      cases member
    · intro name node member size content opens
      simp only [List.mem_singleton,Prod.mk.injEq] at member
      obtain ⟨rfl,rfl⟩ := member
      cases opens
      decide
  · rintro ⟨added,removed,modified,result,added_lists,_,_⟩
    cases result
    obtain ⟨path,_,regular,_⟩ := (added_lists.2 (ofString "link")).mp (List.mem_singleton.mpr rfl)
    obtain ⟨content,regular⟩ := Option.isSome_iff_exists.mp regular
    obtain ⟨name,rfl,member⟩ := flat_leaf (content_at regular)
    simp at member

end Klados.Diff
