import Klados.Moves

/-!
`_walk_fs` as a request calls it. What a layer holds is known once it is mounted; its links and special files are
followed by the kernel of the host, whenever the walk looks at one. Where these look-ups have the results of a
mount, the program does what `Klados.Diff` says of the function (`compare_runs`).
-/
namespace Klados.Mounts
open Effects
open Diff (Str Node Layer Mount Followed Fingerprint fingerprint relpath skipped sorted)
open Trees (Tree Dict)

/-- How `os.walk` takes an entry that is no directory of the layer itself: `is_dir` follows links. -/
def is_dir (sid : Id) (path : List Str) : Node → KProg Bool
  | .symlink _ => sysCall (.isDir sid path)
  | .file _ | .fifo | .socket | .device _ => pure false

/-- The entries of a directory that `os.walk` gives as files, with their paths. -/
def files (sid : Id) (path : List Str) : List (Str × Tree Str Node) → KProg (List (List Str × Node))
  | [] => pure []
  | (name,.leaf node) :: rest => do
    let dir ← is_dir sid (path ++ [name]) node
    let more ← files sid path rest
    pure (if dir then more else (path ++ [name],node) :: more)
  | (_,.dir _) :: rest => files sid path rest

/-- `open(fp, "rb")` and `os.path.getsize(fp)`. -/
def opens (sid : Id) (path : List Str) : Node → KProg Followed
  | .file content => pure (.bytes content.length content)
  | .symlink _ | .fifo | .socket | .device _ => sysCall (.follow sid path)

/-- One file of `_walk_fs`; an `OSError` is passed over. -/
def visit (sha1 : Bytes → Str) (sid : Id) (out : Dict Str Fingerprint) : List Str × Node → KProg (Dict Str Fingerprint)
  | (path,node) =>
    if skipped path then pure out
    else do
      let found ← opens sid path node
      match found with
      | .bytes size content => pure (out.insert (relpath path) (fingerprint sha1 size content))
      | .directory | .fails | .never => pure out

/-- The files of one directory. -/
def visits (sha1 : Bytes → Str) (sid : Id) (out : Dict Str Fingerprint) : List (List Str × Node) → KProg (Dict Str Fingerprint)
  | [] => pure out
  | entry :: rest => do
    let out ← visit sha1 sid out entry
    visits sha1 sid out rest

mutual

/-- The files of a directory, and then what is further below. -/
def walk_dir (sha1 : Bytes → Str) (sid : Id) (path : List Str) (out : Dict Str Fingerprint) :
    Tree Str Node → KProg (Dict Str Fingerprint)
  | .dir entries => do
    let names ← files sid path entries
    let out ← visits sha1 sid out names
    walk_dirs sha1 sid path out entries
  | .leaf _ => pure out
termination_by structural t => t

def walk_dirs (sha1 : Bytes → Str) (sid : Id) (path : List Str) (out : Dict Str Fingerprint) :
    List (Str × Tree Str Node) → KProg (Dict Str Fingerprint)
  | [] => pure out
  | (name,t) :: rest => do
    let out ← walk_dir sha1 sid (path ++ [name]) out t
    walk_dirs sha1 sid path out rest
termination_by structural entries => entries

end

/-- `_walk_fs`. -/
def walk_fs (sha1 : Bytes → Str) (sid : Id) (layer : Layer) : KProg (Dict Str Fingerprint) :=
  walk_dir sha1 sid [] ∅ (.dir layer.root)

/-- A list of paths in a reply, where `text` is how a name is shown. -/
def listed (text : Str → String) (paths : List Str) : Json := .arr (paths.map fun path => .str (text path))

/-- The reply of `fs_diff`. -/
def replyOf (text : Str → String) : Diff.Reply → Json
  | .error reason => .obj [("error",.str reason)]
  | .diff a b added removed modified => .obj [("a",.str a),("b",.str b),("added",listed text added),
      ("removed",listed text removed),("modified",listed text modified)]

/-- The body of the `try` in `fs_diff`, with the two layers mounted. -/
def compare (sha1 : Bytes → Str) (text : Str → String) (sid_a sid_b : Id) (ma mb : Layer) : KProg Json := do
  let fa ← walk_fs sha1 sid_a ma
  let fb ← walk_fs sha1 sid_b mb
  pure (replyOf text (.diff sid_a sid_b (sorted (fb.keys.filter (· ∉ fa))) (sorted (fa.keys.filter (· ∉ fb)))
    (sorted (fa.keys.filter fun p => p ∈ fb ∧ fa.lookup p ≠ fb.lookup p))))

/-- A look-up in the layer of this snapshot. -/
def Looks (sid : Id) : Op → Prop
  | .sys (.isDir sid' _) | .sys (.follow sid' _) => sid' = sid
  | _ => False

theorem Looks.sys {sid : Id} {op : Op} (looks : Looks sid op) : ∃ o, op = .sys o := by
  cases op with
  | sys o => exact ⟨o,rfl⟩
  | db | fs | s3 | mem | vm => exact looks.elim

section
open Prog (Only)
variable {sha1 : Bytes → Str} {sid : Id}

theorem looks_files (path : List Str) (entries : List (Str × Tree Str Node)) : (files sid path entries).Only (Looks sid) := by
  induction entries with
  | nil => trivial
  | cons entry rest ih =>
    obtain ⟨name,child⟩ := entry
    cases child with
    | dir inner => exact ih
    | leaf node =>
      have asked : (is_dir sid (path ++ [name]) node).Only (Looks sid) := by
        cases node with
        | symlink target => exact Only.perform rfl
        | file | fifo | socket | device => trivial
      exact Only.bind asked fun dir => Only.bind ih fun more => trivial

theorem looks_visit (out : Dict Str Fingerprint) (entry : List Str × Node) : (visit sha1 sid out entry).Only (Looks sid) := by
  obtain ⟨path,node⟩ := entry
  have opened : (opens sid path node).Only (Looks sid) := by
    cases node with
    | file content => trivial
    | symlink | fifo | socket | device => exact Only.perform rfl
  rw [visit]
  split
  · trivial
  · refine Only.bind opened fun found => ?_
    cases found <;> trivial

theorem looks_visits (out : Dict Str Fingerprint) (nodes : List (List Str × Node)) :
    (visits sha1 sid out nodes).Only (Looks sid) := by
  induction nodes generalizing out with
  | nil => trivial
  | cons entry rest ih => exact Only.bind (looks_visit out entry) fun out => ih out

mutual

theorem looks_walk_dir (path : List Str) (out : Dict Str Fingerprint) (t : Tree Str Node) :
    (walk_dir sha1 sid path out t).Only (Looks sid) := by
  match t with
  | .leaf _ =>
    rw [walk_dir]
    trivial
  | .dir entries =>
    rw [walk_dir]
    refine Only.bind (looks_files path entries) fun names => Only.bind (looks_visits out names) fun out => ?_
    exact looks_walk_dirs path out entries
termination_by structural t

theorem looks_walk_dirs (path : List Str) (out : Dict Str Fingerprint) (entries : List (Str × Tree Str Node)) :
    (walk_dirs sha1 sid path out entries).Only (Looks sid) := by
  match entries with
  | [] =>
    rw [walk_dirs]
    trivial
  | (name,t) :: rest =>
    rw [walk_dirs]
    exact Only.bind (looks_walk_dir (path ++ [name]) out t) fun out => looks_walk_dirs path out rest
termination_by structural entries

end

theorem looks_walk_fs (layer : Layer) : (walk_fs sha1 sid layer).Only (Looks sid) := looks_walk_dir [] ∅ (.dir layer.root)

/-- A comparison calls nothing but look-ups in the two layers. -/
theorem looks_compare (text : Str → String) (sid_a sid_b : Id) (ma mb : Layer) :
    (compare sha1 text sid_a sid_b ma mb).Only fun op => Looks sid_a op ∨ Looks sid_b op := by
  refine Only.bind ((looks_walk_fs ma).mono fun op => .inl) fun fa => ?_
  exact Only.bind ((looks_walk_fs mb).mono fun op => .inr) fun fb => trivial

end

/-! ## What the walk comes to -/

/-- The result of a program that only looks at links, where they lead there. `none` stands for a call that does
    not return. -/
def result (follow : Id → List Str → Followed) {α : Type} : KProg α → Option (Except Exn α)
  | .ret value => some (.ok value)
  | .raise e => some (.error e)
  | .call (.sys (.isDir sid path)) next => result follow (next (.ok (follow sid path).isDirectory))
  | .call (.sys (.follow sid path)) next =>
    match follow sid path with
    | .never => none
    | .directory => result follow (next (.ok .directory))
    | .bytes size content => result follow (next (.ok (.bytes size content)))
    | .fails => result follow (next (.ok .fails))
  | .call _ _ => none

section
variable {follow : Id → List Str → Followed} {α β : Type} {sha1 : Bytes → Str} {sid : Id}

theorem result_bind (program : KProg α) (rest : α → KProg β) : result follow (program >>= rest) =
    (result follow program).bind fun r =>
      match r with
      | .ok value => result follow (rest value)
      | .error e => some (.error e) := by
  induction program with
  | ret value => rfl
  | raise error => rfl
  | call op next ih =>
    show result follow (.call op fun outcome => next outcome >>= rest) = _
    cases op with
    | db | fs | s3 | mem | vm => rfl
    | sys o =>
      cases o with
      | newId | token | now | sleep | beforeDeadline => rfl
      | isDir sid path => exact ih _
      | follow sid path =>
        simp only [result]
        split
        · rfl
        · exact ih _
        · exact ih _
        · exact ih _

/-- A part that returns, and what comes after it. -/
theorem result_then {program : KProg α} {value : α} (first : result follow program = some (.ok value)) (rest : α → KProg β) :
    result follow (program >>= rest) = result follow (rest value) := by
  rw [result_bind,first]
  rfl

/-- What is mounted, with what the look-ups find. -/
def mounted (follow : Id → List Str → Followed) (sid : Id) (layer : Layer) : Mount := ⟨layer,follow sid⟩

theorem result_is_dir (layer : Layer) (path : List Str) (node : Node) :
    result follow (is_dir sid path node) = some (.ok ((mounted follow sid layer).isDir path node)) := by
  cases node with
  | symlink target =>
    show some (Except.ok (follow sid path).isDirectory) = some (Except.ok ((mounted follow sid layer).isDir path (.symlink target)))
    simp only [Mount.isDir,mounted]
    cases follow sid path <;> rfl
  | file | fifo | socket | device => rfl

/-- The files of a directory as `Klados.Diff` lists them. -/
def leaves (m : Mount) (path : List Str) (entries : List (Str × Tree Str Node)) : List (List Str × Node) :=
  entries.filterMap fun
    | (name,.leaf node) => if !m.isDir (path ++ [name]) node then some (path ++ [name],node) else none
    | (_,.dir _) => none

theorem walk_of_dir (m : Mount) (path : List Str) (entries : List (Str × Tree Str Node)) :
    Tree.walk (fun path node => !m.isDir path node) path (.dir entries) =
      leaves m path entries ++ Trees.walkAll (fun path node => !m.isDir path node) path entries := by
  rw [Tree.walk,leaves]
  congr 2
  funext entry
  obtain ⟨name,child⟩ := entry
  cases child <;> rfl

theorem result_files (layer : Layer) (path : List Str) (entries : List (Str × Tree Str Node)) :
    result follow (files sid path entries) = some (.ok (leaves (mounted follow sid layer) path entries)) := by
  induction entries with
  | nil => rfl
  | cons entry rest ih =>
    obtain ⟨name,child⟩ := entry
    cases child with
    | dir inner => exact ih
    | leaf node =>
      show result follow (is_dir sid (path ++ [name]) node >>= _) = _
      rw [result_then (result_is_dir layer _ _),result_then ih]
      cases dir : (mounted follow sid layer).isDir (path ++ [name]) node with
      | true => simp [result,leaves,dir,pure]
      | false => simp [result,leaves,dir,pure]

theorem result_visit (layer : Layer) (out : Dict Str Fingerprint) (entry : List Str × Node) :
    result follow (visit sha1 sid out entry) = (Diff.visit sha1 (mounted follow sid layer) out entry).map .ok := by
  obtain ⟨path,node⟩ := entry
  simp only [visit,Diff.visit]
  split
  · rfl
  cases node with
  | file content => rfl
  | symlink | fifo | socket | device =>
    simp only [opens,sysCall,Mount.opens,mounted]
    cases found : follow sid path <;> simp [result_bind,Prog.perform,result,found,Prog.ofOutcome,pure]

theorem result_visits (layer : Layer) (out : Dict Str Fingerprint) (nodes : List (List Str × Node)) :
    result follow (visits sha1 sid out nodes) = (nodes.foldlM (Diff.visit sha1 (mounted follow sid layer)) out).map .ok := by
  induction nodes generalizing out with
  | nil => rfl
  | cons entry rest ih =>
    rw [visits,result_bind,result_visit layer,List.foldlM_cons]
    cases visited : Diff.visit sha1 (mounted follow sid layer) out entry with
    | none => rfl
    | some out => exact ih out

mutual

theorem result_walk_dir (layer : Layer) (path : List Str) (out : Dict Str Fingerprint) (t : Tree Str Node) :
    result follow (walk_dir sha1 sid path out t) =
      ((t.walk (fun path node => !(mounted follow sid layer).isDir path node) path).foldlM
        (Diff.visit sha1 (mounted follow sid layer)) out).map .ok := by
  match t with
  | .leaf _ =>
    rw [walk_dir,Tree.walk]
    rfl
  | .dir entries =>
    rw [walk_dir,walk_of_dir,result_then (result_files layer path entries),result_bind,result_visits layer,List.foldlM_append]
    cases List.foldlM (Diff.visit sha1 (mounted follow sid layer)) out (leaves (mounted follow sid layer) path entries) with
    | none => rfl
    | some out => exact result_walk_dirs layer path out entries
termination_by structural t

theorem result_walk_dirs (layer : Layer) (path : List Str) (out : Dict Str Fingerprint) (entries : List (Str × Tree Str Node)) :
    result follow (walk_dirs sha1 sid path out entries) =
      ((Trees.walkAll (fun path node => !(mounted follow sid layer).isDir path node) path entries).foldlM
        (Diff.visit sha1 (mounted follow sid layer)) out).map .ok := by
  match entries with
  | [] =>
    rw [walk_dirs,Trees.walkAll]
    rfl
  | (name,t) :: rest =>
    rw [walk_dirs,Trees.walkAll,result_bind,result_walk_dir layer,List.foldlM_append]
    cases List.foldlM (Diff.visit sha1 (mounted follow sid layer)) out
        (t.walk (fun path node => !(mounted follow sid layer).isDir path node) (path ++ [name])) with
    | none => rfl
    | some out => exact result_walk_dirs layer path out rest
termination_by structural entries

end

/-- `_walk_fs` of a layer is the one of `Klados.Diff`. -/
theorem result_walk_fs (layer : Layer) : result follow (walk_fs sha1 sid layer) =
    (Diff._walk_fs sha1 (mounted follow sid layer)).map .ok := result_walk_dir layer [] ∅ (.dir layer.root)

/-- What the request replies is what `Klados.Diff.fs_diff` gives for the two mounts. -/
theorem result_compare (text : Str → String) (sid_a sid_b : Id) (ma mb : Layer) :
    result follow (compare sha1 text sid_a sid_b ma mb) =
      (Diff.fs_diff sha1 sid_a sid_b (some (mounted follow sid_a ma)) (some (mounted follow sid_b mb))).map
        fun reply => .ok (replyOf text reply) := by
  rw [compare,result_bind,result_walk_fs,Diff.fs_diff]
  cases Diff._walk_fs sha1 (mounted follow sid_a ma) with
  | none => rfl
  | some fa =>
    show result follow (walk_fs sha1 sid_b mb >>= _) = _
    rw [result_bind,result_walk_fs]
    cases Diff._walk_fs sha1 (mounted follow sid_b mb) with
    | none => rfl
    | some fb => rfl

/-- If the call is a look-up, it goes where the links lead. -/
def Finds (follow : Id → List Str → Followed) : (op : Op) → Except Exn op.Res → Prop
  | .sys (.isDir sid path), outcome => outcome = .ok (follow sid path).isDirectory
  | .sys (.follow sid path), outcome => outcome = .ok (follow sid path)
  | _, _ => True

/-- The call is possible, and a look-up goes where the links lead. -/
def Step (P : Platform) (follow : Id → List Str → Followed) (t : Nat) (op : Op) (w : World) (outcome : Except Exn op.Res)
    (v : World) : Prop := (∃ choice, exec P t op choice w = some (outcome,v)) ∧ Finds follow op outcome

/-- A program of look-ups comes to its result. -/
theorem result_of_runs {P : Platform} {t : Nat} {drift : World → World → Prop} {program : KProg α} {w v : World}
    {outcome : Except Exn α} (looks : program.Only fun op => ∃ sid, Looks sid op)
    (ran : Runs drift (Step P follow t) program w outcome v) : result follow program = some outcome := by
  induction ran with
  | ret => rfl
  | raise => rfl
  | @call w u v x op next outcome r moved stepped later ih =>
    obtain ⟨⟨choice,executed⟩,finds⟩ := stepped
    obtain ⟨⟨sid,look⟩,more⟩ := looks
    replace ih := ih (more _)
    obtain ⟨o,rfl⟩ := look.sys
    cases o with
    | newId | token | now | sleep | beforeDeadline => exact look.elim
    | isDir sid path =>
      obtain rfl := finds
      exact ih
    | follow sid path =>
      obtain ⟨⟨what,_,ends,same⟩,_⟩ := exec_follow executed
      obtain rfl := finds
      cases same
      cases found : follow sid path with
      | never => exact absurd found ends
      | directory | bytes | fails =>
        rw [found] at ih
        simpa [result,found] using ih

end

/-- A request that compares two layers, whatever happens meanwhile, replies what `Klados.Diff.fs_diff` gives, if its
    look-ups find what the mounts say. -/
theorem compare_runs {P : Platform} {t : Nat} {drift : World → World → Prop} {follow : Id → List Str → Followed}
    {sha1 : Bytes → Str} {text : Str → String} {sid_a sid_b : Id} {ma mb : Layer} {w v : World} {outcome : Except Exn Json}
    (ran : Runs drift (Step P follow t) (compare sha1 text sid_a sid_b ma mb) w outcome v) :
    ∃ reply, Diff.fs_diff sha1 sid_a sid_b (some (mounted follow sid_a ma)) (some (mounted follow sid_b mb)) = some reply ∧
      outcome = .ok (replyOf text reply) := by
  have came := result_of_runs ((looks_compare text sid_a sid_b ma mb).mono fun op =>
    Or.rec (fun looks => ⟨_,looks⟩) fun looks => ⟨_,looks⟩) ran
  rw [result_compare] at came
  obtain ⟨reply,same,rfl⟩ := Option.map_eq_some_iff.mp came
  exact ⟨reply,same,rfl⟩

end Klados.Mounts
