import Klados.Walk
import Klados.Listing

/-!
`klad log`. The client reads the reply of `timeline` and prints the instances of the run and its
snapshots, each snapshot below its parent and the instances below the snapshot they point at. The
snapshots are a depth-first walk (`Walk`), so they are listed once, whatever the reply says about
parents; the instances are not: the one that was booted first is printed on its own line, and
again below the last snapshot that was taken of it.
-/
namespace Klados.Klad
open Effects
open Walk (walk kidsOf Lists Depth)

structure Snapshot where
  id : String
  parent_id : Option String
  label : Option String
  size_bytes : Option Int
  deriving DecidableEq

structure Instance where
  id : String
  snapshot_id : Option String
  state : String
  branch : String
  deriving DecidableEq

/-- The argument `t` of `render_timeline`. -/
structure Log where
  run_id : String
  snapshots : List Snapshot
  instances : List Instance

/-- A string, or null. -/
def text? : Json → Option (Option String)
  | .null => some none
  | .str text => some (some text)
  | _ => none

/-- An integer, or null. -/
def int? : Json → Option (Option Int)
  | .null => some none
  | .int value => some (some value)
  | _ => none

def string? : Json → Option String
  | .str text => some text
  | _ => none

def items? : Json → Option (List Json)
  | .arr items => some items
  | _ => none

def Snapshot.read (row : Json) : Option Snapshot := do
  let id ← (row.get? "id").bind string?
  let parent_id ← (row.get? "parent_id").bind text?
  let label ← (row.get? "label").bind text?
  let size_bytes ← (row.get? "size_bytes").bind int?
  pure ⟨id,parent_id,label,size_bytes⟩

def Instance.read (row : Json) : Option Instance := do
  let id ← (row.get? "id").bind string?
  let snapshot_id ← (row.get? "snapshot_id").bind text?
  let state ← (row.get? "state").bind string?
  let branch ← (row.get? "branch").bind string?
  pure ⟨id,snapshot_id,state,branch⟩

def Log.read (reply : Json) : Option Log := do
  let run_id ← (reply.get? "run_id").bind string?
  let snapshots ← (reply.get? "snapshots").bind items?
  let instances ← (reply.get? "instances").bind items?
  let snapshots ← snapshots.mapM Snapshot.read
  let instances ← instances.mapM Instance.read
  pure ⟨run_id,snapshots,instances⟩

inductive Line
  | run (run_id : String)
  | genesis (id state : String)
  | snapshot (depth : Nat) (s : Snapshot)
  | fork (depth : Nat) (i : Instance)
  deriving DecidableEq

/-- `"  " + "  " * depth`. -/
def pad (depth : Nat) : String := "  " ++ String.join (List.replicate depth "  ")

/-- A line as it is printed, where `megabytes n` is the text of `n / 1e6` with one decimal. -/
def Line.text (megabytes : Int → String) : Line → String
  | .run run_id => "run " ++ run_id
  | .genesis id state => "  ● genesis  instance " ++ id ++ "  [" ++ state ++ "]"
  | .snapshot depth s => pad depth ++ "◆ " ++ s.id ++ "  \"" ++ s.label.getD "None" ++ "\"  (" ++
      megabytes (s.size_bytes.getD 0) ++ " MB)"
  | .fork depth i => pad depth ++ "    ↳ fork " ++ i.id ++ "  [" ++ i.branch ++ "]  " ++ i.state

/-- `for a in items: groups.setdefault(key(a), []).append(a)`. -/
def groups {α κ : Type} [DecidableEq κ] (key : α → κ) (items : List α) : κ → List α :=
  items.foldl (fun dict a => Function.update dict (key a) (dict (key a) ++ [a])) fun _ => []

/-- `render_timeline`, when its recursion may be `fuel` deep. -/
def render_timeline (fuel : Nat) (t : Log) : Option (List Line) := do
  let kids := groups (·.parent_id) t.snapshots
  let inst_by_snap := groups (·.snapshot_id) t.instances
  let genesis := t.instances.filter (·.branch = "genesis")
  let tree ← walk kids Snapshot.id
    (fun depth s => .snapshot depth s :: (inst_by_snap (some s.id)).map (.fork depth)) fuel none 0
  pure (.run t.run_id :: genesis.map (fun g => .genesis g.id g.state) ++ tree)

theorem groups_eq {α κ : Type} [DecidableEq κ] (key : α → κ) (items : List α) (k : κ) :
    groups key items k = items.filter (key · = k) := by
  have more : ∀ dict : κ → List α,
      items.foldl (fun dict a => Function.update dict (key a) (dict (key a) ++ [a])) dict k =
        dict k ++ items.filter (key · = k) := by
    induction items with
    | nil => simp
    | cons a rest ih =>
      intro dict
      rw [List.foldl_cons,ih]
      by_cases own : key a = k
      · subst own
        simp
      · simp [own,Function.update_of_ne (Ne.symm own)]
  exact (more fun _ => []).trans (List.nil_append _)

/-- The snapshot of a line, with its depth. -/
def Line.snapshot? : Line → Option (Nat × Snapshot)
  | .snapshot depth s => some (depth,s)
  | _ => none

/-- What a reader sees of a snapshot in a printed string: how many blanks stand before the mark, and what
    stands behind it. -/
def shown (text : String) : Option (Nat × String) :=
  match text.toList.dropWhile (· = ' ') with
  | '◆' :: ' ' :: rest => some ((text.toList.takeWhile (· = ' ')).length,String.ofList rest)
  | _ => none

/-- The id of a snapshot, with its label and its size. -/
def Snapshot.caption (megabytes : Int → String) (s : Snapshot) : String :=
  s.id ++ "  \"" ++ s.label.getD "None" ++ "\"  (" ++ megabytes (s.size_bytes.getD 0) ++ " MB)"

/-- The instance that a line shows. -/
def Line.instance? : Line → Option String
  | .genesis id _ => some id
  | .fork _ i => some i.id
  | _ => none

/-- The log is printed as these lines when the recursion is not cut short. -/
def Log.Prints (t : Log) (lines : List Line) : Prop :=
  ∀ fuel, t.snapshots.length < fuel → render_timeline fuel t = some lines

/-- The printed strings, one for each `print`. -/
def Log.PrintsText (t : Log) (megabytes : Int → String) (out : List String) : Prop :=
  ∀ fuel, t.snapshots.length < fuel → (render_timeline fuel t).map (·.map (Line.text megabytes)) = some out

/-- The strings that show a snapshot show these, in this order and indented by their depths. -/
def ShowsVisits (megabytes : Int → String) (out : List String) (visits : List (Nat × Snapshot)) : Prop :=
  out.filterMap shown = visits.map fun v => (2 + 2 * v.1,v.2.caption megabytes)

def Log.forks (t : Log) (depth : Nat) (s : Snapshot) : List Line :=
  (t.instances.filter (·.snapshot_id = some s.id)).map (.fork depth)

def Log.lines (t : Log) (visits : List (Nat × Snapshot)) : List Line :=
  .run t.run_id :: (t.instances.filter (·.branch = "genesis")).map (fun g => .genesis g.id g.state) ++
    visits.flatMap fun v => .snapshot v.1 v.2 :: t.forks v.1 v.2

section
variable {t : Log}

/-- What is printed: a walk through the snapshots, with the instances of each. -/
theorem prints (distinct : (t.snapshots.map Snapshot.id).Nodup) :
    ∃ visits, Lists t.snapshots Snapshot.id Snapshot.parent_id visits ∧ t.Prints (t.lines visits) := by
  obtain ⟨visits,lists,ran⟩ := Walk.walk_lists Snapshot.parent_id distinct
    fun depth s => .snapshot depth s :: t.forks depth s
  refine ⟨visits,lists,?_⟩
  intro fuel enough
  have kids : groups Snapshot.parent_id t.snapshots = kidsOf t.snapshots Snapshot.parent_id :=
    funext fun p => groups_eq _ _ p
  have forks : ∀ depth s, (groups Instance.snapshot_id t.instances (some s.id)).map (Line.fork depth) = t.forks depth s :=
    fun depth s => congrArg (List.map (Line.fork depth)) (groups_eq _ _ _)
  simp only [render_timeline,kids,forks,ran fuel enough]
  rfl

theorem Log.Prints.unique {lines lines' : List Line} (prints : t.Prints lines) (prints' : t.Prints lines') : lines = lines' :=
  Option.some.inj ((prints _ (Nat.lt_succ_self _)).symm.trans (prints' _ (Nat.lt_succ_self _)))

theorem visits_of_lines (visits : List (Nat × Snapshot)) : (t.lines visits).filterMap Line.snapshot? = visits := by
  have forks : ∀ depth s, (t.forks depth s).filterMap Line.snapshot? = [] := by
    intro depth s
    simp [Log.forks,Line.snapshot?]
  have genesis : ∀ rows : List Instance,
      (rows.map fun g => Line.genesis g.id g.state).filterMap Line.snapshot? = [] := by
    intro rows
    simp [Line.snapshot?]
  rw [Log.lines,List.cons_append,List.filterMap_cons_none rfl,List.filterMap_append,genesis,List.nil_append]
  induction visits with
  | nil => rfl
  | cons v rest ih =>
    have own : Line.snapshot? (.snapshot v.1 v.2) = some v := rfl
    rw [List.flatMap_cons,List.cons_append,List.filterMap_cons_some own,List.filterMap_append,forks,ih,List.nil_append]

theorem pad_toList (depth : Nat) : (pad depth).toList = List.replicate (2 + 2 * depth) ' ' := by
  have two : "  ".toList = List.replicate 2 ' ' := by decide
  have blanks : (String.join (List.replicate depth "  ")).toList = List.replicate (2 * depth) ' ' := by
    induction depth with
    | zero => rfl
    | succ depth ih =>
      rw [List.replicate_succ,String.join_cons,String.toList_append,ih,two,List.replicate_append_replicate,Nat.mul_succ,
        Nat.add_comm]
  rw [pad,String.toList_append,blanks,two,List.replicate_append_replicate]

/-- The blanks in front are counted, and what stands behind them is looked at. -/
theorem shown_eq {text : String} {n : Nat} {mark : Char} {rest : List Char} (visible : mark ≠ ' ')
    (chars : text.toList = List.replicate n ' ' ++ mark :: rest) : shown text =
      match mark :: rest with
      | '◆' :: ' ' :: caption => some (n,String.ofList caption)
      | _ => none := by
  have blanks : ∀ c ∈ List.replicate n ' ', decide (c = ' ') = true := by
    intro c inside
    simp [List.eq_of_mem_replicate inside]
  rw [shown,chars,List.dropWhile_append_of_pos blanks,List.takeWhile_append_of_pos blanks,
    List.dropWhile_cons_of_neg (by simpa using visible),List.takeWhile_cons_of_neg (by simpa using visible),
    List.append_nil,List.length_replicate]

/-- A string with another mark shows no snapshot. -/
theorem shown_other {text : String} {n : Nat} {mark : Char} {rest : List Char} (visible : mark ≠ ' ') (other : mark ≠ '◆')
    (chars : text.toList = List.replicate n ' ' ++ mark :: rest) : shown text = none := by
  rw [shown_eq visible chars]
  split
  · rename_i same
    exact absurd (List.cons.inj same).1 other
  · rfl

/-- What is seen of a line that is printed: a snapshot with its indentation, if it is the line of one. -/
theorem shown_text (megabytes : Int → String) (line : Line) : shown (line.text megabytes) =
    line.snapshot?.map fun v => (2 + 2 * v.1,v.2.caption megabytes) := by
  cases line with
  | run run_id =>
    have mark : "run ".toList = List.replicate 0 ' ' ++ 'r' :: ['u','n',' '] := by decide
    have chars : ("run " ++ run_id).toList = List.replicate 0 ' ' ++ 'r' :: (['u','n',' '] ++ run_id.toList) := by
      rw [String.toList_append,mark]
      rfl
    exact shown_other (by decide) (by decide) chars
  | genesis id state =>
    have mark : "  ● genesis  instance ".toList = List.replicate 2 ' ' ++ '●' :: " genesis  instance ".toList := by decide
    have chars : ("  ● genesis  instance " ++ id ++ "  [" ++ state ++ "]").toList =
        List.replicate 2 ' ' ++ '●' :: (" genesis  instance ".toList ++ (id ++ "  [" ++ state ++ "]").toList) := by
      simp only [String.append_assoc,String.toList_append,mark,List.append_assoc,List.cons_append]
    exact shown_other (by decide) (by decide) chars
  | snapshot depth s =>
    have mark : "◆ ".toList = '◆' :: [' '] := by decide
    have text : pad depth ++ "◆ " ++ s.id ++ "  \"" ++ s.label.getD "None" ++ "\"  (" ++ megabytes (s.size_bytes.getD 0) ++ " MB)" =
        pad depth ++ ("◆ " ++ s.caption megabytes) := by
      simp only [Snapshot.caption,String.append_assoc]
    have chars : (pad depth ++ ("◆ " ++ s.caption megabytes)).toList =
        List.replicate (2 + 2 * depth) ' ' ++ '◆' :: ([' '] ++ (s.caption megabytes).toList) := by
      simp only [String.toList_append,pad_toList,mark,List.cons_append]
    show shown (pad depth ++ "◆ " ++ s.id ++ "  \"" ++ s.label.getD "None" ++ "\"  (" ++ megabytes (s.size_bytes.getD 0) ++
      " MB)") = _
    rw [text,shown_eq (by decide) chars]
    simp [Line.snapshot?]
  | fork depth i =>
    have mark : "    ↳ fork ".toList = List.replicate 4 ' ' ++ '↳' :: " fork ".toList := by decide
    have chars : (pad depth ++ "    ↳ fork " ++ i.id ++ "  [" ++ i.branch ++ "]  " ++ i.state).toList =
        List.replicate (2 + 2 * depth + 4) ' ' ++
          '↳' :: (" fork ".toList ++ (i.id ++ "  [" ++ i.branch ++ "]  " ++ i.state).toList) := by
      simp only [String.append_assoc,String.toList_append,pad_toList,mark,List.replicate_add,List.append_assoc,
        List.cons_append]
    exact shown_other (by decide) (by decide) chars

/-- The printed strings show the visits of the lines. -/
theorem shows_visits (megabytes : Int → String) (visits : List (Nat × Snapshot)) :
    ShowsVisits megabytes ((t.lines visits).map (Line.text megabytes)) visits := by
  have each : shown ∘ Line.text megabytes =
      fun line => line.snapshot?.map fun v => (2 + 2 * v.1,v.2.caption megabytes) := funext (shown_text megabytes)
  rw [ShowsVisits,List.filterMap_map,each,← List.map_filterMap,visits_of_lines]

theorem Log.Prints.text {lines : List Line} (printed : t.Prints lines) (megabytes : Int → String) :
    t.PrintsText megabytes (lines.map (Line.text megabytes)) := by
  intro fuel enough
  rw [printed fuel enough]
  rfl

end

def snapshotOf (row : SnapshotRow) : Snapshot := ⟨row.id,row.parent_id,row.label,some row.size_bytes⟩

def instanceOf (row : InstanceRow) : Instance := ⟨row.id,row.snapshot_id,row.state.text,row.branch⟩

/-- What the client reads when the two SELECTs of `timeline` read these tables. -/
def logOf (run_id : Id) (T T' : Tables) : Log :=
  ⟨run_id,(T.snapshotsOf run_id).map snapshotOf,(T'.instancesOf run_id).map instanceOf⟩

section
variable {T : Tables} {rid : Id}

theorem text?_ofText (text : Option String) : text? (Json.ofText text) = some text := by
  cases text <;> rfl

theorem read_all {ρ α : Type} {view : ρ → Json} {read : Json → Option α} {value : ρ → α}
    (reads : ∀ row, read (view row) = some (value row)) (rows : List ρ) :
    (rows.map view).mapM read = some (rows.map value) := by
  induction rows with
  | nil => rfl
  | cons row rest ih =>
    rw [List.map_cons,List.mapM_cons,reads,ih]
    rfl

theorem read_snapshot (row : SnapshotRow) : Snapshot.read row.view = some (snapshotOf row) := by
  show (text? (Json.ofText row.parent_id)).bind _ = _
  rw [text?_ofText]
  show (text? (Json.ofText row.label)).bind _ = _
  rw [text?_ofText]
  rfl

theorem read_instance (row : InstanceRow) : Instance.read row.view = some (instanceOf row) := by
  show (text? (Json.ofText row.snapshot_id)).bind _ = _
  rw [text?_ofText]
  rfl

/-- The client reads what the tables hold. -/
theorem read_listing (rid : Id) (T T' : Tables) : Log.read (listing rid T T') = some (logOf rid T T') := by
  show (((T.snapshotsOf rid).map SnapshotRow.view).mapM Snapshot.read).bind (fun snapshots =>
    (((T'.instancesOf rid).map InstanceRow.view).mapM Instance.read).bind fun instances =>
      some (⟨rid,snapshots,instances⟩ : Log)) = _
  rw [read_all read_snapshot,read_all read_instance]
  rfl

theorem distinct_snapshots (rid : Id) (sane : Sane T) : ((logOf rid T T).snapshots.map Snapshot.id).Nodup := by
  have ids : ((T.snapshotsOf rid).map (·.id)).Nodup := by
    have some_ := (List.Nodup.of_map _ sane.grown.nodup).filter (·.run_id = rid)
    have perm : (T.snapshotsOf rid).Perm (T.snapshots.filter (·.run_id = rid)) := List.mergeSort_perm _ _
    refine List.Nodup.map_on ?_ (perm.nodup_iff.mpr some_)
    intro row member row' member' same
    exact sane.grown.unique (mem_snapshotsOf.mp member).1 (mem_snapshotsOf.mp member').1 same
  simpa [logOf,Function.comp_def,snapshotOf] using ids

/-- The parents of a snapshot of the run are listed, up to one without a parent. -/
theorem rooted_snapshots {rows : List SnapshotRow} (grown : Forest.Grown snapshotKeys rows) {nodes : List Snapshot}
    (all : ∀ row ∈ rows, row.run_id = rid → snapshotOf row ∈ nodes) :
    ∀ row ∈ rows, row.run_id = rid → ∃ n, Depth nodes Snapshot.id Snapshot.parent_id (snapshotOf row) n := by
  induction grown with
  | nil => simp
  | @append rows last _ _ earlier ih =>
    have old := ih fun row member => all row (List.mem_append_left _ member)
    intro row member own
    rcases List.mem_append.mp member with before | new
    · exact old row before own
    · rw [List.mem_singleton] at new
      subst new
      have here := all row member own
      cases parent : row.parent_id with
      | none => exact ⟨0,.root here parent⟩
      | some sid =>
        obtain ⟨row',inside,named,run⟩ := earlier sid parent
        obtain ⟨n,deep⟩ := old row' inside (run.trans own)
        exact ⟨n + 1,.child here deep (parent.trans (congrArg some named.symm))⟩

/-- Every snapshot of the run is listed. -/
theorem all_snapshots (sane : Sane T) {visits : List (Nat × Snapshot)}
    (lists : Lists (logOf rid T T).snapshots Snapshot.id Snapshot.parent_id visits) {row : SnapshotRow}
    (member : row ∈ T.snapshots) (own : row.run_id = rid) : snapshotOf row ∈ visits.map (·.2) := by
  rw [lists.all]
  refine rooted_snapshots sane.grown ?_ row member own
  intro row' member' own'
  exact List.mem_map_of_mem (mem_snapshotsOf.mpr ⟨member',own'⟩)

end

/-- For every reply with distinct snapshot ids, whatever their parents are, the walk ends, and what is printed
    shows the snapshots whose chain of parents ends: once each, behind their parents, indented by their numbers
    of ancestors, and with all that descends from one directly behind it. For a reply read from the
    tables of a state that the daemon reaches these are all snapshots of the run. -/
theorem log_shows_tree (P : Platform) (megabytes : Int → String) :
    (∀ t : Log, (t.snapshots.map Snapshot.id).Nodup → ∃ out visits, t.PrintsText megabytes out ∧
      ShowsVisits megabytes out visits ∧ Lists t.snapshots Snapshot.id Snapshot.parent_id visits) ∧
    ∀ (w : World) (pool : KPool) (rid : Id) (t : Log), w.Fresh → (daemon P).Reach (fun _ _ => True) ⟨w,[]⟩ pool →
      Log.read (listing rid pool.world.db.committed pool.world.db.committed) = some t →
      ∃ out visits, t.PrintsText megabytes out ∧ ShowsVisits megabytes out visits ∧
        Lists t.snapshots Snapshot.id Snapshot.parent_id visits ∧
        ∀ row ∈ pool.world.db.committed.snapshots, row.run_id = rid → snapshotOf row ∈ visits.map (·.2) := by
  constructor
  · intro t distinct
    obtain ⟨visits,lists,printed⟩ := prints distinct
    exact ⟨_,visits,printed.text megabytes,shows_visits megabytes visits,lists⟩
  · intro w pool rid t fresh reached response
    have sane := (protocol_reach fresh reached).inv.db.committed
    rw [read_listing] at response
    cases response
    obtain ⟨visits,lists,printed⟩ := prints (distinct_snapshots rid sane)
    exact ⟨_,visits,printed.text megabytes,shows_visits megabytes visits,lists,
      fun row member own => all_snapshots sane lists member own⟩

/-- Two snapshots that name each other are not shown, and a root and its child are. -/
theorem log_shows_tree_circle : ∃ out visits,
    Log.PrintsText ⟨"r",[⟨"a",some "b",none,none⟩,⟨"b",some "a",none,none⟩,⟨"c",none,none,none⟩,⟨"d",some "c",none,none⟩],[]⟩
        (fun _ => "0.0") out ∧ ShowsVisits (fun _ => "0.0") out visits ∧
      Lists [⟨"a",some "b",none,none⟩,⟨"b",some "a",none,none⟩,⟨"c",none,none,none⟩,⟨"d",some "c",none,none⟩]
        Snapshot.id Snapshot.parent_id visits :=
  (log_shows_tree .plain fun _ => "0.0").1
    ⟨"r",[⟨"a",some "b",none,none⟩,⟨"b",some "a",none,none⟩,⟨"c",none,none,none⟩,⟨"d",some "c",none,none⟩],[]⟩ (by decide)

/-! ## Instances -/

/-- Each instance has one line and no other has any: the one that `create_run` made its genesis line,
    and a fork a line below its snapshot. -/
structure ListsInstances (t : Log) (lines : List Line) : Prop where
  once : (lines.filterMap Line.instance?).Perm (t.instances.map (·.id))
  genesis : ∀ i ∈ t.instances, i.branch = "genesis" → .genesis i.id i.state ∈ lines
  forked : ∀ i ∈ t.instances, i.branch ≠ "genesis" → ∃ depth, ∃ s ∈ t.snapshots, i.snapshot_id = some s.id ∧
    ∃ before after, lines = before ++ .snapshot depth s :: t.forks depth s ++ after ∧ .fork depth i ∈ t.forks depth s

/-- A fork points at a snapshot. -/
def Labelled (T : Tables) : Prop := ∀ row ∈ T.instances, row.branch ≠ "genesis" → row.snapshot_id ≠ none

/-- The call inserts no fork that points at nothing. -/
def Labels (op : Op) : Prop :=
  ∀ row, op = .db (.execute (.insertInstance row)) → row.branch ≠ "genesis" → row.snapshot_id ≠ none

section
open Prog (Only)

theorem Labels.of_kind {op : Op} (other : op.kind ≠ .db) : Labels op := by
  rintro row rfl
  exact absurd rfl other

theorem Labels.uses {kinds : List Kind} {α : Type} {program : KProg α} (uses : Uses kinds program) (absent : .db ∉ kinds) :
    program.Only Labels :=
  Only.mono (fun _ avoided => .of_kind avoided) (uses.avoids absent)

theorem Labels.call {op : Op} (labels : Labels op) : (Prog.perform (S := sig) op : KProg op.Res).Only Labels :=
  Only.perform labels

theorem Labels.connection {α : Type} {body : KProg α} (labels : body.Only Labels) : (connection body).Only Labels :=
  Only.catching labels fun _ => Only.bind (Labels.call fun _ same => nomatch same) fun _ => trivial

theorem labels_create_run (P : Platform) (project_id : Id) (image_label : Json) :
    (create_run P project_id image_label).Only Labels := by
  refine Only.bind (Labels.call fun _ same => nomatch same) fun rid => ?_
  refine Only.bind (Labels.call fun _ same => nomatch same) fun iid => ?_
  refine Only.bind (Labels.connection ?_) fun _ => ?_
  · refine Only.bind (Labels.call fun _ same => nomatch same) fun _ => ?_
    refine Only.bind (Labels.uses (uses_bindText P _) (by decide)) fun _ => ?_
    refine Only.bind (Labels.call fun _ same => nomatch same) fun _ => ?_
    refine Only.bind (Labels.call fun _ same => nomatch same) fun now => ?_
    refine Only.bind (Labels.call ?_) fun _ => Labels.call fun _ same => nomatch same
    rintro row same other
    cases same
    exact absurd rfl other
  · refine Only.bind (Labels.uses (uses_boot_vm _ _ _) (by decide)) fun _ => ?_
    exact Only.bind (Labels.uses (uses_wait_agent _ _) (by decide)) fun _ => trivial

theorem labels_fork_snapshot (P : Platform) (sid : Id) (n : Int) : (fork_snapshot P sid n).Only Labels := by
  refine Labels.connection (Only.bind (Labels.call fun _ same => nomatch same) fun T => ?_)
  split
  · trivial
  rename_i snap _
  refine Only.bind (Labels.uses (uses_reconstruct_mem P _) (by decide)) fun _ => ?_
  refine Only.bind (Only.each fun i => ?_) fun _ => Only.bind (Labels.call fun _ same => nomatch same) fun _ => trivial
  refine Only.bind (Labels.call fun _ same => nomatch same) fun iid => ?_
  refine Only.bind (Labels.uses (uses_boot_vm _ _ _) (by decide)) fun _ => ?_
  refine Only.bind (Labels.uses (uses_handshake P _ _ _) (by decide)) fun branch => ?_
  refine Only.bind (Labels.call fun _ same => nomatch same) fun now => Only.bind (Labels.call ?_) fun _ => trivial
  rintro row same _
  cases same
  exact Option.some_ne_none _

theorem labels_body (P : Platform) (req : Req) : (req.body P).Only Labels := by
  cases req with
  | create_run project_id image_label => exact labels_create_run P project_id image_label
  | fork_snapshot sid n => exact labels_fork_snapshot P sid n
  | snapshot_instance | destroy_instance | timeline | meter_tick =>
    refine Only.mono ?_ (part_body P _)
    rintro op calls row rfl
    cases calls

end

section
variable {P : Platform} {T T' : Tables} {rid : Id}

/-- Step: a statement that labels keeps every fork at a snapshot. -/
theorem Labelled.apply {stmt : Stmt} (labelled : Labelled T) (labels : Labels (.db (.execute stmt)))
    (applied : stmt.apply T = .ok T') : Labelled T' := by
  cases stmt with
  | insertInstance row =>
    simp only [Stmt.apply] at applied
    split at applied
    · cases applied
    · cases applied
      intro row' member other
      rcases List.mem_append.mp member with old | new
      · exact labelled row' old other
      · rw [List.mem_singleton.mp new] at other ⊢
        exact labels row rfl other
  | setSnapshot iid sid =>
    cases applied
    intro row member other
    obtain ⟨old,inside,rfl⟩ := List.mem_map.mp member
    by_cases named : old.id = iid
    · simp [named]
    · simp only [named,↓reduceIte] at other ⊢
      exact labelled old inside other
  | setDestroyed iid =>
    cases applied
    intro row member other
    obtain ⟨old,inside,rfl⟩ := List.mem_map.mp member
    by_cases named : old.id = iid
    · simp only [named,↓reduceIte] at other ⊢
      exact labelled old inside other
    · simp only [named,↓reduceIte] at other ⊢
      exact labelled old inside other
  | insertProject | insertRun | insertSnapshot =>
    simp only [Stmt.apply] at applied
    split at applied
    · cases applied
    · cases applied
      exact labelled
  | accrue =>
    cases applied
    exact labelled

/-- Run: in every state that the daemon reaches, every fork points at a snapshot. -/
theorem labelled_reach {w : World} (fresh : w.Fresh) {pool : KPool} (reached : (daemon P).Reach (fun _ _ => True) ⟨w,[]⟩ pool) :
    Labelled pool.world.db.committed := by
  have sound : Sound (daemon P) (fun _ _ => True) (Rules.calling (daemon P).step Labels) (fun _ _ => True) (fun _ _ _ _ => True) :=
    Sound.calling (labels_body P)
  have healthy : Healthy (Rules.calling (daemon P).step Labels) (fun _ _ => True) (fun _ _ _ _ => True) (⟨w,[]⟩ : KPool) :=
    ⟨trivial,fun t thread found => by simp at found,fun _ _ => trivial⟩
  have empty : w.db.Every Labelled := by
    constructor
    · intro row member
      rw [fresh.instances] at member
      cases member
    · intro t T held
      rw [fresh.idle] at held
      cases held
  refine (sound.keeps (J := fun w => w.db.Every Labelled) ?_ ?_ ?_ healthy empty reached).2.committed
  · intro pool t choice op outcome v _ _ _ _ called ran every
    refine exec_every ran every ?_
    rintro stmt T T' rfl labelled applied
    exact labelled.apply called applied
  · intro pool move v _ _ _ moved every
    rw [(World.moved_of_move moved).db]
    exact every
  · exact fun pool _ _ every => ⟨every.committed,by rintro _ _ ⟨⟩⟩

end

section
variable {T : Tables} {rid : Id} {t : Log} {visits : List (Nat × Snapshot)}

theorem instances_of_lines (visits : List (Nat × Snapshot)) : (t.lines visits).filterMap Line.instance? =
    (t.instances.filter (·.branch = "genesis")).map (·.id) ++
      visits.flatMap fun v => (t.instances.filter (·.snapshot_id = some v.2.id)).map (·.id) := by
  have forks : ∀ depth s, (t.forks depth s).filterMap Line.instance? =
      (t.instances.filter (·.snapshot_id = some s.id)).map (·.id) := by
    intro depth s
    rw [Log.forks,List.filterMap_map,← List.filterMap_eq_map]
    rfl
  have genesis : ∀ rows : List Instance,
      (rows.map fun g => Line.genesis g.id g.state).filterMap Line.instance? = rows.map (·.id) := by
    intro rows
    rw [List.filterMap_map,← List.filterMap_eq_map]
    rfl
  rw [Log.lines,List.cons_append,List.filterMap_cons_none rfl,List.filterMap_append,genesis]
  congr 1
  induction visits with
  | nil => rfl
  | cons v rest ih =>
    have own : Line.instance? (.snapshot v.1 v.2) = none := rfl
    rw [List.flatMap_cons,List.cons_append,List.filterMap_cons_none own,List.filterMap_append,forks,ih,List.flatMap_cons]

theorem distinct_instances (sane : Sane T) : ((logOf rid T T).instances.map (·.id)).Nodup := by
  have ids : ((T.instancesOf rid).map (·.id)).Nodup := (List.filter_sublist.map _).nodup sane.distinct
  simpa [logOf,Function.comp_def,instanceOf] using ids

theorem same_instance (distinct : (t.instances.map (·.id)).Nodup) {i j : Instance} (first : i ∈ t.instances)
    (second : j ∈ t.instances) (same : i.id = j.id) : i = j :=
  List.inj_on_of_nodup_map distinct first second same

theorem mem_group {q : Instance → Bool} {id : String} :
    id ∈ (t.instances.filter q).map (·.id) ↔ ∃ i ∈ t.instances, q i = true ∧ i.id = id := by
  simp [and_assoc]

/-- The instances below the snapshots are listed once. -/
theorem forks_nodup (distinct : (t.instances.map (·.id)).Nodup)
    (lists : Lists t.snapshots Snapshot.id Snapshot.parent_id visits) (ids : (t.snapshots.map Snapshot.id).Nodup) :
    (visits.flatMap fun v => (t.instances.filter (·.snapshot_id = some v.2.id)).map (·.id)).Nodup := by
  rw [List.nodup_flatMap]
  refine ⟨fun v _ => (List.filter_sublist.map _).nodup distinct,?_⟩
  have apart : visits.Pairwise fun v u => v.2 ≠ u.2 := by
    have once := lists.once
    rwa [List.Nodup,List.pairwise_map] at once
  refine (List.pairwise_iff_forall_sublist.mpr ?_)
  intro v u sub
  have differ := List.pairwise_iff_forall_sublist.mp apart sub
  have left : v ∈ visits := sub.subset (List.mem_cons_self ..)
  have right : u ∈ visits := sub.subset (List.mem_cons_of_mem _ (List.mem_cons_self ..))
  intro id inside inside'
  obtain ⟨i,member,points,named⟩ := mem_group.mp inside
  obtain ⟨j,member',points',named'⟩ := mem_group.mp inside'
  have same := same_instance distinct member member' (named.trans named'.symm)
  subst same
  have equal : v.2.id = u.2.id := by
    simp only [decide_eq_true_eq] at points points'
    exact Option.some.inj (points.symm.trans points')
  exact differ (Walk.same_row ids (lists.depth v left).mem (lists.depth u right).mem equal)

/-- The snapshots of the run, with the forks at them. -/
structure Whole (t : Log) (visits : List (Nat × Snapshot)) : Prop where
  lists : Lists t.snapshots Snapshot.id Snapshot.parent_id visits
  snapshots : (t.snapshots.map Snapshot.id).Nodup
  instances : (t.instances.map (·.id)).Nodup
  points : ∀ i ∈ t.instances, ∀ sid, i.snapshot_id = some sid → ∃ v ∈ visits, v.2.id = sid
  forks : ∀ i ∈ t.instances, i.branch ≠ "genesis" → i.snapshot_id ≠ none

theorem whole (sane : Sane T) (labelled : Labelled T)
    (lists : Lists (logOf rid T T).snapshots Snapshot.id Snapshot.parent_id visits) : Whole (logOf rid T T) visits := by
  refine ⟨lists,distinct_snapshots rid sane,distinct_instances sane,?_,?_⟩
  · intro i member sid points
    obtain ⟨row,inside,rfl⟩ := List.mem_map.mp member
    obtain ⟨there,own⟩ := mem_instancesOf.mp inside
    obtain ⟨snap,member',named,run⟩ := sane.instance_snapshot row there sid points
    obtain ⟨v,visited,same⟩ := List.mem_map.mp (all_snapshots sane lists member' (run.trans own))
    exact ⟨v,visited,by rw [same]; exact named⟩
  · intro i member other
    obtain ⟨row,inside,rfl⟩ := List.mem_map.mp member
    exact labelled row (mem_instancesOf.mp inside).1 other

/-- Each instance has its line exactly when no genesis instance points at a snapshot. -/
theorem Whole.lists_instances (whole : Whole t visits) :
    ListsInstances t (t.lines visits) ↔ ∀ i ∈ t.instances, i.branch = "genesis" → i.snapshot_id = none := by
  constructor
  · intro listed i member genesis
    by_contra points
    obtain ⟨sid,pointed⟩ := Option.ne_none_iff_exists'.mp points
    obtain ⟨v,visited,named⟩ := whole.points i member sid pointed
    have once := listed.once.nodup_iff.mpr whole.instances
    rw [instances_of_lines,List.nodup_append] at once
    refine once.2.2 i.id (mem_group.mpr ⟨i,member,by simpa using genesis,rfl⟩) i.id ?_ rfl
    exact List.mem_flatMap.mpr ⟨v,visited,mem_group.mpr ⟨i,member,by simp [pointed,named],rfl⟩⟩
  · intro bare
    refine ⟨?_,?_,?_⟩
    · rw [instances_of_lines]
      refine (List.perm_ext_iff_of_nodup ?_ whole.instances).mpr ?_
      · rw [List.nodup_append]
        refine ⟨(List.filter_sublist.map _).nodup whole.instances,forks_nodup whole.instances whole.lists whole.snapshots,?_⟩
        rintro id first _ second rfl
        obtain ⟨v,_,inside⟩ := List.mem_flatMap.mp second
        obtain ⟨i,member,genesis,named⟩ := mem_group.mp first
        obtain ⟨j,member',points,named'⟩ := mem_group.mp inside
        have same := same_instance whole.instances member member' (named.trans named'.symm)
        subst same
        simp [bare i member (by simpa using genesis)] at points
      · intro id
        rw [List.mem_append,List.mem_flatMap,mem_group,List.mem_map]
        constructor
        · rintro (⟨i,member,_,named⟩ | ⟨v,_,inside⟩)
          · exact ⟨i,member,named⟩
          · obtain ⟨i,member,_,named⟩ := mem_group.mp inside
            exact ⟨i,member,named⟩
        · rintro ⟨i,member,named⟩
          by_cases genesis : i.branch = "genesis"
          · exact .inl ⟨i,member,by simpa using genesis,named⟩
          · obtain ⟨sid,pointed⟩ := Option.ne_none_iff_exists'.mp (whole.forks i member genesis)
            obtain ⟨v,visited,same⟩ := whole.points i member sid pointed
            exact .inr ⟨v,visited,mem_group.mpr ⟨i,member,by simp [pointed,same],named⟩⟩
    · intro i member genesis
      have line : Line.genesis i.id i.state ∈ (t.instances.filter (·.branch = "genesis")).map (fun g => .genesis g.id g.state) :=
        List.mem_map.mpr ⟨i,List.mem_filter.mpr ⟨member,by simpa using genesis⟩,rfl⟩
      exact List.mem_append_left _ (List.mem_cons_of_mem _ line)
    · intro i member other
      obtain ⟨sid,pointed⟩ := Option.ne_none_iff_exists'.mp (whole.forks i member other)
      obtain ⟨v,visited,same⟩ := whole.points i member sid pointed
      have here : i.snapshot_id = some v.2.id := by rw [pointed,same]
      obtain ⟨front,back,split⟩ := List.append_of_mem visited
      refine ⟨v.1,v.2,(whole.lists.depth v visited).mem,here,?_⟩
      refine ⟨.run t.run_id :: (t.instances.filter (·.branch = "genesis")).map (fun g => .genesis g.id g.state) ++
        front.flatMap (fun v => .snapshot v.1 v.2 :: t.forks v.1 v.2),
        back.flatMap (fun v => .snapshot v.1 v.2 :: t.forks v.1 v.2),?_,?_⟩
      · rw [Log.lines,split,List.flatMap_append,List.flatMap_cons]
        simp
      · exact List.mem_map_of_mem (List.mem_filter.mpr ⟨member,by simpa using here⟩)

end

/-- In every state that the daemon reaches, the log of a run gives each instance its line if and only if
    no genesis instance of the run points at a snapshot, that is, none was snapshotted. -/
theorem log_lists_instances (P : Platform) {w : World} (fresh : w.Fresh) {pool : KPool}
    (reached : (daemon P).Reach (fun _ _ => True) ⟨w,[]⟩ pool) {rid : Id} {t : Log}
    (response : Log.read (listing rid pool.world.db.committed pool.world.db.committed) = some t) :
    ∃ lines, t.Prints lines ∧
      (ListsInstances t lines ↔ ∀ i ∈ t.instances, i.branch = "genesis" → i.snapshot_id = none) := by
  have sane := (protocol_reach fresh reached).inv.db.committed
  rw [read_listing] at response
  cases response
  obtain ⟨visits,lists,printed⟩ := prints (distinct_snapshots rid sane)
  exact ⟨_,printed,(whole sane (labelled_reach fresh reached) lists).lists_instances⟩

/-- A run is created. -/
def onlyCreated : List (Action Req Choice Move) :=
  .request (.create_run "p" .null) :: calls 0 (createRun "r" "i" [7] [8])

theorem log_lists_instances_created : ∃ pool t lines,
    (daemon .plain).run (fun _ _ => true) onlyCreated ⟨World.initial defaultProject false,[]⟩ = some pool ∧
      t.instances = [⟨"i",none,"RUNNING","genesis"⟩] ∧ Log.Prints t lines ∧ ListsInstances t lines := by
  have rows : ((daemon .plain).run (fun _ _ => true) onlyCreated ⟨World.initial defaultProject false,[]⟩).map
      (fun pool => (logOf "r" pool.world.db.committed pool.world.db.committed).instances) =
        some [⟨"i",none,"RUNNING","genesis"⟩] := by decide +kernel
  obtain ⟨pool,ran,instances⟩ := Option.map_eq_some_iff.mp rows
  have reached := Machine.reach_of_run _ (fun _ _ _ => trivial) ran
  obtain ⟨lines,printed,exact_⟩ :=
    log_lists_instances .plain (World.initial_fresh defaultProject false) reached (read_listing "r" _ _)
  refine ⟨pool,_,lines,ran,instances,printed,exact_.mpr ?_⟩
  intro i member _
  rw [instances,List.mem_singleton] at member
  rw [member]

/-- After one snapshot of it, the first instance is printed twice. -/
theorem log_lists_instance_twice : ∃ pool t,
    (daemon .plain).run (fun _ _ => true) oneSnapshot ⟨World.initial defaultProject false,[]⟩ = some pool ∧
      Log.read (listing "r" pool.world.db.committed pool.world.db.committed) = some t ∧
      ∀ lines, t.Prints lines → ¬ ListsInstances t lines := by
  have rows : ((daemon .plain).run (fun _ _ => true) oneSnapshot ⟨World.initial defaultProject false,[]⟩).map
      (fun pool => (logOf "r" pool.world.db.committed pool.world.db.committed).instances) =
        some [⟨"i",some "s","RUNNING","genesis"⟩] := by decide +kernel
  obtain ⟨pool,ran,instances⟩ := Option.map_eq_some_iff.mp rows
  have fresh := World.initial_fresh defaultProject false
  have reached := Machine.reach_of_run _ (fun _ _ _ => trivial) ran
  have sane := (protocol_reach fresh reached).inv.db.committed
  obtain ⟨visits,lists,printed⟩ := prints (distinct_snapshots "r" sane)
  refine ⟨pool,_,ran,read_listing "r" _ _,?_⟩
  intro lines printed' listed
  rw [printed'.unique printed] at listed
  have none := (whole sane (labelled_reach fresh reached) lists).lists_instances.mp listed
    ⟨"i",some "s","RUNNING","genesis"⟩ (by simp [instances]) rfl
  cases none

end Klados.Klad
