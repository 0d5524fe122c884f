import Klados.Views

/-!
What clients are told. A request that is posted answers with ids only once their rows are committed, and
these rows are of one run of the project of its key (`replies_stand`): what a client keeps of a reply is
good for every later request. That the calls are within the rules of tenants is known; what a thread comes
to know by them is shown on top (`hearing`).
-/
namespace Klados
open Effects

/-- A thread of a request, whose calls are within its rules. -/
abbrev hearing (P : Platform) (h : Http) : Rules sig Exn World := (tenancy P (.http h)).heard

theorem hearing_lawful {P : Platform} {h : Http} : (hearing P h).Lawful := tenancy_lawful.heard

/-- From `A` the program returns in `B`, if it returns. -/
abbrev Hears {α : Type} (P : Platform) (h : Http) (t : Nat) (A : World → Prop) (program : KProg α) (B : α → World → Prop) :
    Prop := Lands (hearing P h) t A program (fun _ => True) B

/-- The committed tables place the rows. -/
def Secured (pid rid : Id) (rows : List (Table × Id)) (w : World) : Prop := ∀ row ∈ rows, w.db.committed.Places pid rid row

/-- The tables that the thread sees place the rows. -/
def InSight (t : Nat) (pid rid : Id) (rows : List (Table × Id)) (w : World) : Prop :=
  ∀ row ∈ rows, (w.db.visible t).Places pid rid row

/-- The call does not give a transaction up. -/
def Op.goesOn (op : Op) : Prop := op ≠ .db .rollback

section
variable {P : Platform} {h : Http} {t : Nat} {pid rid : Id} {rows : List (Table × Id)} {α β : Type} {w : World}
  {K : World → Prop} {ok : Op → Prop}

theorem Secured.sight (housed : Housed w) (secured : Secured pid rid rows w) : InSight t pid rid rows w :=
  fun row member => (housed.orderly.db.visible t).2.places (secured row member)

theorem endures_secured (pid rid : Id) (rows : List (Table × Id)) : Endures P h t always (Secured pid rid rows) :=
  endures_committed (fun T => ∀ row ∈ rows, T.Places pid rid row) fun _ _ grows secured row member =>
    grows.places (secured row member)

theorem endures_sight (pid rid : Id) (rows : List (Table × Id)) : Endures P h t Op.goesOn (InSight t pid rid rows) :=
  endures_seen (fun T => ∀ row ∈ rows, T.Places pid rid row) fun _ _ grows sight row member =>
    grows.places (sight row member)

theorem Endures.stable (endures : Endures P h t ok K) : Stable (hearing P h) t K := endures.relied

/-- A call, and what its result says. -/
theorem hears_call {op : Op} {B : op.Res → World → Prop} (stable : Stable (hearing P h) t K)
    (stays : ∀ value, Stable (hearing P h) t (B value))
    (post : ∀ choice value w v, Housed w → Housed v → K w → May P t (.http h) op w → Permitted t op w →
      exec P t op choice w = some (.ok value,v) → B value v) :
    Hears P h t K (Prog.perform (S := sig) op) B := by
  refine Triple.perform stable (heard_acts ?_) ?_
  · rintro w outcome v housed housed' holds ⟨⟨choice,ran⟩,permitted⟩ ⟨may,_⟩
    cases outcome with
    | ok value => exact post choice value w v housed housed' holds may permitted ran
    | error error => trivial
  · intro outcome
    cases outcome with
    | ok value => exact stays value
    | error error => exact fun _ _ _ _ _ _ => trivial

/-- A program leaves what its calls leave. -/
theorem hears_only (endures : Endures P h t ok K) {program : KProg α} (only : program.Only ok) :
    Hears P h t K program fun _ => K := by
  have acts : ∀ op, ok op → Acts (hearing P h) t K op fun _ => K := by
    intro op allowed
    refine heard_acts ?_
    rintro w outcome v housed housed' holds ⟨⟨choice,ran⟩,permitted⟩ ⟨may,_⟩
    exact endures.own op choice outcome w v allowed housed housed' may permitted ran holds
  exact (Lands.only endures.stable acts only).mono (fun _ _ holds => holds) (fun _ _ _ => trivial) fun _ _ _ holds => holds

theorem hears_raise (stable : Stable (hearing P h) t K) {B : α → World → Prop} (error : Exn) :
    Hears P h t K (Prog.raise error) B := Lands.raise stable fun _ _ _ => trivial

theorem hears_bind {A : World → Prop} {B : α → World → Prop} {C : β → World → Prop} {program : KProg α} {rest : α → KProg β}
    (first : Hears P h t A program B) (onward : ∀ value, Hears P h t (B value) (rest value) C) :
    Hears P h t A (program >>= rest) C := Lands.bind hearing_lawful first onward

/-- What a statement adds to what the thread sees. -/
theorem hears_execute {stmt : Stmt} (new : Table × Id)
    (adds : ∀ T T', (∀ row ∈ rows, T.Places pid rid row) → stmt.apply T = .ok T' → T'.Places pid rid new) :
    Hears P h t (InSight t pid rid rows) (dbCall (.execute stmt)) fun _ => InSight t pid rid (new :: rows) := by
  refine hears_call (endures_sight _ _ _).stable (fun _ => (endures_sight (P := P) (h := h) _ _ _).stable) ?_
  intro choice value w v housed _ sight _ permitted ran
  obtain ⟨db',acts,rfl⟩ := exec_dbActs ran
  cases acts with
  | @wrote _ T _ applied =>
    intro row member
    rw [Db.visible_own rfl]
    rcases List.mem_cons.mp member with rfl | old
    · exact adds _ _ sight applied
    · exact ((housed.orderly.db.visible t).1.apply permitted.1 applied).2.places (sight row old)

/-- What the thread sees lasts once it has committed. -/
theorem hears_commit : Hears P h t (InSight t pid rid rows) (dbCall .commit) fun _ => Secured pid rid rows := by
  refine hears_call (endures_sight _ _ _).stable (fun _ => (endures_secured (P := P) (h := h) _ _ _).stable) ?_
  intro choice value w v _ _ sight _ _ ran row member
  have before := sight row member
  obtain ⟨db',acts,rfl⟩ := exec_dbActs ran
  cases acts with
  | committed held => exact Db.visible_own held ▸ before
  | unchanged idle => exact Db.visible_other idle ▸ before

theorem hears_connection {A : World → Prop} {B : α → World → Prop} {body : KProg α} (inside : Hears P h t A body B) :
    Hears P h t A (connection body) B := by
  have nothing : Endures P h t always fun _ => True := ⟨fun _ _ _ _ _ _ => trivial,fun _ _ _ _ _ _ _ _ _ _ _ _ => trivial⟩
  refine Lands.catching hearing_lawful inside fun error => ?_
  exact hears_bind (hears_only nothing (Prog.Only.all (fun _ => trivial) _)) fun _ => hears_raise nothing.stable error

end

/-- `r[key]`, where that is a string. -/
def Json.text? (r : Json) (key : String) : Option String :=
  match r.get? key with
  | some (.str text) => some text
  | _ => none

/-- `r["children"]`, where that is a list. -/
def Json.children (r : Json) : List Json :=
  match r.get? "children" with
  | some (.arr items) => items
  | _ => []

/-- The rows for which a client keeps an object: `Sandbox.create` reads the run and its instance from the
    reply, `Sandbox.snapshot` the snapshot, and `Snapshot.fork` the instances of the children. -/
def Json.names (r : Json) : List (Table × Id) :=
  (r.text? "run_id").toList.map (.runs,·) ++ (r.text? "instance_id").toList.map (.instances,·) ++
    (r.text? "snapshot_id").toList.map (.snapshots,·) ++
    r.children.filterMap fun child => (child.text? "instance_id").map (.instances,·)

/-- The row in the path of a request. -/
def askedFor : List String → List (Table × Id)
  | [_,"instances",iid,_] => [(.instances,iid)]
  | [_,"snapshots",sid,_] => [(.snapshots,sid)]
  | _ => []

section
variable {P : Platform} {h : Http} {t : Nat} {pid rid : Id} {α β : Type} {K : World → Prop}

theorem nothing_endures : Endures P h t always fun _ => True :=
  ⟨fun _ _ _ _ _ _ => trivial,fun _ _ _ _ _ _ _ _ _ _ _ _ => trivial⟩

theorem goesOn_uses {program : KProg α} {kinds : List Kind} (uses : Uses kinds program) (none : .db ∉ kinds) :
    program.Only Op.goesOn := by
  refine Prog.Only.mono ?_ uses
  rintro op used rfl
  exact none used

/-- Whatever happens, a row that is committed stays. -/
theorem hears_any (rows : List (Table × Id)) (program : KProg α) :
    Hears P h t (Secured pid rid rows) program fun _ => Secured pid rid rows :=
  hears_only (endures_secured _ _ _) (Prog.Only.all (fun _ => trivial) program)

theorem hears_quiet {rows : List (Table × Id)} {program : KProg α} {kinds : List Kind} (uses : Uses kinds program)
    (none : .db ∉ kinds) : Hears P h t (InSight t pid rid rows) program fun _ => InSight t pid rid rows :=
  hears_only (endures_sight _ _ _) (goesOn_uses uses none)

/-- The end of a program, whose reply names rows that are committed. -/
theorem hears_reply {rows : List (Table × Id)} (more : List (Table × Id)) (reply : Json)
    (names : ∀ row ∈ more ++ reply.names, row ∈ rows) :
    Hears P h t (Secured pid rid rows) (pure reply) fun reply w => ∃ rid, Secured pid rid (more ++ reply.names) w :=
  Lands.ret (endures_secured _ _ _).stable fun _ _ secured => ⟨rid,fun row member => secured row (names row member)⟩

theorem hears_create_run (image_label : Json) : Hears P h t (fun _ => True) (create_run P pid image_label)
    fun reply w => ∃ rid, Secured pid rid reply.names w := by
  refine hears_bind (hears_only nothing_endures (Prog.Only.all (fun _ => trivial) _)) fun rid => ?_
  refine hears_bind (hears_only nothing_endures (Prog.Only.all (fun _ => trivial) _)) fun iid => ?_
  refine hears_bind (B := fun _ => Secured pid rid [(.instances,iid),(.runs,rid)]) (hears_connection ?_) fun _ => ?_
  · refine Lands.mono (A := InSight t pid rid []) ?_ (fun _ _ _ _ member => by cases member) (fun _ _ holds => holds)
      fun _ _ _ holds => holds
    refine hears_bind (hears_quiet (talks_sys (by simp)).uses (by decide)) fun now => ?_
    refine hears_bind (hears_quiet (uses_bindText P _) (by decide)) fun image => ?_
    refine hears_bind (hears_execute (.runs,rid) fun T T' _ applied => places_insertRun rfl applied) fun _ => ?_
    refine hears_bind (hears_quiet (talks_sys (by simp)).uses (by decide)) fun now => ?_
    refine hears_bind (hears_execute (.instances,iid) fun T T' known applied => ?_) fun _ => hears_commit
    exact places_insertInstance (known (.runs,rid) (by simp)).2 applied
  refine hears_bind (hears_any _ _) fun _ => hears_bind (hears_any _ _) fun _ => ?_
  exact hears_reply [] _ (by simp [Json.names,Json.text?,Json.get?,Json.children])

/-- A row that is read of one that is committed is of its run. -/
theorem hears_read {row : Table × Id} : Hears P h t (Secured pid rid [row]) (dbCall .read)
    fun (T : Tables) w => Secured pid rid [row] w ∧ T.runOf row.1 row.2 = some rid := by
  have stable : ∀ c : Prop, Stable (hearing P h) t fun w => Secured pid rid [row] w ∧ c := by
    rintro c w v housed housed' onward ⟨secured,known⟩
    exact ⟨(endures_secured (P := P) (h := h) _ _ _).relied w v housed housed' onward secured,known⟩
  refine hears_call (endures_secured _ _ _).stable (fun T => stable _) ?_
  intro choice T w v housed housed' secured may permitted ran
  have kept := (endures_secured _ _ _).own _ choice _ w v trivial housed housed' may permitted ran secured
  obtain ⟨db',acts,rfl⟩ := exec_dbActs ran
  cases acts with
  | read => exact ⟨kept,(secured.sight housed row (by simp)).1⟩

/-- The snapshot is of the run of its instance. -/
theorem hears_snapshot_instance (iid : Id) (label : Json) : Hears P h t (Secured pid rid [(.instances,iid)])
    (snapshot_instance P iid label) fun reply w => ∃ rid, Secured pid rid ([(.instances,iid)] ++ reply.names) w := by
  have stable := (endures_secured (P := P) (h := h) (t := t) pid rid [(.instances,iid)]).stable
  refine hears_bind (hears_any _ _) fun live => ?_
  split
  · exact hears_raise stable _
  refine hears_connection (hears_bind hears_read fun T => Lands.given (fun _ holds => holds.2) fun run => ?_)
  refine Lands.mono (A := Secured pid rid [(.instances,iid)]) ?_ (fun _ _ holds => holds.1) (fun _ _ holds => holds)
    fun _ _ _ holds => holds
  split
  · exact hears_raise stable _
  rename_i row found
  obtain rfl : row.run_id = rid := by simpa [Tables.runOf,found] using run
  refine hears_bind (hears_any _ _) fun sid => hears_bind (hears_any _ _) fun _ => hears_bind (hears_any _ _) fun _ => ?_
  refine hears_bind (hears_any _ _) fun _ => hears_bind (hears_any _ _) fun _ => hears_bind (hears_any _ _) fun _ => ?_
  refine hears_bind (hears_any _ _) fun _ => hears_bind (hears_any _ _) fun _ => hears_bind (hears_any _ _) fun _ => ?_
  refine hears_bind (hears_any _ _) fun logical => hears_bind (hears_any _ _) fun state => ?_
  refine hears_bind (hears_any _ _) fun now => hears_bind (hears_any _ _) fun text => ?_
  refine Lands.mono (A := InSight t pid row.run_id [(.instances,iid)]) ?_ (fun w housed secured => secured.sight housed)
    (fun _ _ holds => holds) fun _ _ _ holds => holds
  refine hears_bind (hears_execute (.snapshots,sid) fun T T' known applied => ?_) fun _ => ?_
  · exact places_insertSnapshot (known (.instances,iid) (by simp)).2 applied
  refine hears_bind (hears_only (endures_sight _ _ _) (Prog.Only.perform (by simp [Op.goesOn]))) fun _ => ?_
  refine hears_bind hears_commit fun _ => ?_
  exact hears_reply [_] _ (by simp [Json.names,Json.text?,Json.get?,Json.children])

/-- What the loop of a fork has come to. -/
def forkedRows (sid : Id) (children : List (Id × String)) : List (Table × Id) :=
  (.snapshots,sid) :: children.map fun child => (.instances,child.1)

theorem hears_fork_child {snap : SnapshotRow} (children : List (Id × String)) (n : Int) (i : Nat) :
    Hears P h t (InSight t pid snap.run_id (forkedRows snap.id children)) (fork_child P snap n i)
      fun child => InSight t pid snap.run_id (forkedRows snap.id (children ++ [child])) := by
  refine hears_bind (hears_only (endures_sight _ _ _) (Prog.Only.perform (by simp [Op.goesOn]))) fun iid => ?_
  refine hears_bind (hears_quiet (uses_boot_vm _ _ _) (by decide)) fun _ => ?_
  refine hears_bind (hears_quiet (uses_handshake P _ _ _) (by decide)) fun branch => ?_
  refine hears_bind (hears_quiet (talks_sys (by simp)).uses (by decide)) fun now => ?_
  refine hears_bind (hears_execute (.instances,iid) fun T T' known applied => ?_) fun _ => ?_
  · exact places_insertInstance (known (.snapshots,snap.id) (by simp [forkedRows])).2 applied
  refine Lands.ret (endures_sight _ _ _).stable fun w _ sight row member => sight row ?_
  simp only [forkedRows,List.map_append,List.map_cons,List.map_nil,List.mem_cons,List.mem_append,List.not_mem_nil,or_false] at member ⊢
  tauto

/-- The children are of the run of their snapshot. -/
theorem hears_fork_snapshot (sid : Id) (n : Int) : Hears P h t (Secured pid rid [(.snapshots,sid)])
    (fork_snapshot P sid n) fun reply w => ∃ rid, Secured pid rid ([(.snapshots,sid)] ++ reply.names) w := by
  have stable := (endures_secured (P := P) (h := h) (t := t) pid rid [(.snapshots,sid)]).stable
  refine hears_connection (hears_bind hears_read fun T => Lands.given (fun _ holds => holds.2) fun run => ?_)
  refine Lands.mono (A := Secured pid rid [(.snapshots,sid)]) ?_ (fun _ _ holds => holds.1) (fun _ _ holds => holds)
    fun _ _ _ holds => holds
  split
  · exact hears_raise stable _
  rename_i snap found
  have named : snap.id = sid := by simpa using List.find?_some found
  subst named
  obtain rfl : snap.run_id = rid := by simpa [Tables.runOf,found] using run
  refine hears_bind (hears_any _ _) fun _ => ?_
  refine Lands.mono (A := InSight t pid snap.run_id (forkedRows snap.id [])) ?_ (fun w housed secured => secured.sight housed)
    (fun _ _ holds => holds) fun _ _ _ holds => holds
  refine hears_bind (Lands.each hearing_lawful (X := fun _ children => InSight t pid snap.run_id (forkedRows snap.id children))
    (fun _ _ => (endures_sight _ _ _).stable) fun _ i _ children _ => hears_fork_child children n i) fun children => ?_
  refine hears_bind hears_commit fun _ => hears_reply [_] _ ?_
  intro row member
  simpa [Json.names,Json.text?,Json.get?,Json.children,forkedRows,List.filterMap_map,Function.comp_def] using member

theorem hears_destroy_instance (iid : Id) : Hears P h t (Secured pid rid [(.instances,iid)])
    (destroy_instance iid) fun reply w => ∃ rid, Secured pid rid ([(.instances,iid)] ++ reply.names) w := by
  refine hears_bind (hears_any _ _) fun live => hears_bind (hears_any _ _) fun _ => hears_bind (hears_any _ _) fun _ => ?_
  exact hears_reply [_] _ (by simp [Json.names,Json.text?,Json.get?,Json.children])

end

/-! ## The routes -/

section
variable {P : Platform} {h : Http} {t : Nat} {pid rid : Id} {α β : Type} {K : World → Prop}

/-- The key opens its project for good. -/
theorem endures_opens (pid : Id) : Endures P h t always fun w => w.db.committed.opens P h.key = some pid where
  relied _ _ _ _ onward opens := opens_grows onward.projects opens
  own op choice outcome w v _ housed _ _ _ ran opens := by
    rcases exec_committed ran with same | ⟨_,_,held⟩
    · exact same ▸ opens
    · exact opens_grows (housed.projects t _ held) opens

/-- What is known all along is known in the end. -/
theorem hears_with {A : World → Prop} {B : α → World → Prop} {program : KProg α} (endures : Endures P h t always K)
    (hears : Hears P h t A program B) : Hears P h t (fun w => A w ∧ K w) program fun value w => B value w ∧ K w := by
  rintro w housed ⟨holds,known⟩
  have along := hears_only endures (Prog.Only.all (fun _ => trivial) program) w housed known
  refine ((hears w housed holds).both along).weaken ?_
  intro outcome v _ both
  cases outcome with
  | ok value => exact both
  | error error => trivial

theorem hears_authed : Hears P h t (Unborn t) (authed P h.key)
    fun found w => Unborn t w ∧ ∀ pid, found = some pid → w.db.committed.opens P h.key = some pid := by
  have stable : ∀ c : Id → Prop, Stable (hearing P h) t
      fun w => Unborn t w ∧ ∀ pid, c pid → w.db.committed.opens P h.key = some pid := by
    rintro c w v housed housed' onward ⟨idle,opens⟩
    exact ⟨(endures_unborn (P := P) (h := h)).relied w v housed housed' onward idle,fun pid known =>
      (endures_opens (P := P) (h := h) (t := t) pid).relied w v housed housed' onward (opens pid known)⟩
  unfold authed project_of_key
  split
  · exact Lands.ret endures_unborn.stable fun w _ idle => ⟨idle,by rintro pid ⟨⟩⟩
  rename_i given
  refine hears_bind (B := fun found w => Unborn t w ∧ ∀ pid, found.filter (· ≠ "") = some pid →
    w.db.committed.opens P h.key = some pid) ?_ fun found => Lands.ret (stable _) fun _ _ holds => holds
  refine hears_bind (B := fun T w => Unborn t w ∧ ∀ pid, (T.projectOfKey (P.sha256 h.key)).filter (· ≠ "") = some pid →
    w.db.committed.opens P h.key = some pid) ?_ fun T => Lands.ret (stable _) fun _ _ holds => holds
  refine hears_call endures_unborn.stable (fun T => stable _) ?_
  intro choice T w v _ _ idle _ _ ran
  obtain ⟨db',acts,rfl⟩ := exec_dbActs ran
  cases acts with
  | read =>
    refine ⟨idle,fun pid opens => ?_⟩
    rw [Db.visible_other idle] at opens
    simpa [Tables.opens,given] using opens

theorem hears_require_owner (table : Table) (val : Id) : Hears P h t (Unborn t) (require_owner pid table val)
    fun _ w => ∃ rid, Secured pid rid [(table,val)] w := by
  have stable : ∀ c : Prop, Stable (hearing P h) t fun w => c → ∃ rid, Secured pid rid [(table,val)] w := by
    intro c w v housed housed' onward secured known
    obtain ⟨rid,holds⟩ := secured known
    exact ⟨rid,(endures_secured (P := P) (h := h) _ _ _).relied w v housed housed' onward holds⟩
  refine hears_bind (B := fun owner w => owner = some pid → ∃ rid, Secured pid rid [(table,val)] w) ?_ fun owner => ?_
  · refine hears_bind (B := fun T w => T.projectOf table val = some pid → ∃ rid, Secured pid rid [(table,val)] w) ?_
      fun T => Lands.ret (stable _) fun _ _ holds => holds
    refine hears_call endures_unborn.stable (fun T => stable _) ?_
    intro choice T w v _ _ idle _ _ ran of
    obtain ⟨db',acts,rfl⟩ := exec_dbActs ran
    cases acts with
    | read =>
      rw [Db.visible_other idle] at of
      obtain ⟨rid,places⟩ := places_of_owned (table,val) of
      exact ⟨rid,fun row member => List.mem_singleton.mp member ▸ places⟩
  · split
    · rename_i owned
      exact Lands.ret (stable _) fun _ _ holds => holds owned
    · exact hears_raise (stable _) _

/-- The rows that a response names, with the one that was asked for, are committed. -/
def Vouched (pid : Id) (p : List String) (response : Response) (w : World) : Prop :=
  response.obj.names ≠ [] → ∃ rid, Secured pid rid (askedFor p ++ response.obj.names) w

theorem names_failure (code : Nat) (text : String) : (failure code text).obj.names = [] := by
  simp [failure,Json.names,Json.text?,Json.get?,Json.children]

theorem stable_vouched (p : List String) (response : Response) : Stable (hearing P h) t (Vouched pid p response) := by
  intro w v housed housed' onward vouched named
  obtain ⟨rid,secured⟩ := vouched named
  exact ⟨rid,(endures_secured (P := P) (h := h) _ _ _).relied w v housed housed' onward secured⟩

theorem vouched_failure {p : List String} {code : Nat} {text : String} {w : World} : Vouched pid p (failure code text) w :=
  fun named => absurd (names_failure code text) named

theorem hears_send {A : World → Prop} {p : List String} {program : KProg Json}
    (hears : Hears P h t A program fun reply w => ∃ rid, Secured pid rid (askedFor p ++ reply.names) w) :
    Hears P h t A (send program) (Vouched pid p) :=
  hears_bind (B := fun reply w => Vouched pid p ⟨200,reply⟩ w)
    (hears.mono (fun _ _ holds => holds) (fun _ _ holds => holds) fun _ _ _ holds _ => holds) fun reply =>
      Lands.ret (stable_vouched p ⟨200,reply⟩) fun _ _ holds => holds

/-- What a silent step needs to know, the next one does. -/
theorem hears_silent {A : World → Prop} {C : β → World → Prop} {program : KProg α} {rest : α → KProg β}
    (stable : Stable (hearing P h) t A) (only : program.Only fun _ => False)
    (onward : ∀ value, Hears P h t A (rest value) C) : Hears P h t A (program >>= rest) C := by
  refine hears_bind ((Lands.only stable (fun _ never => never.elim) only).mono (fun _ _ holds => holds)
    (fun _ _ _ => trivial) fun _ _ _ holds => holds) onward

theorem hears_owned {table : Table} {val : Id} {C : β → World → Prop} {rest : Unit → KProg β}
    (onward : ∀ rid, Hears P h t (Secured pid rid [(table,val)]) (rest ()) C) :
    Hears P h t (Unborn t) (require_owner pid table val >>= rest) C :=
  hears_bind (hears_require_owner table val) fun _ => Lands.some onward

theorem names_create_project {pid' key : String} {name : Json} :
    (Json.obj [("project_id",.str pid'),("name",name),("api_key",.str key)]).names = [] := by
  simp [Json.names,Json.text?,Json.get?,Json.children]

/-- Nothing in the reply of `create_project` is a row with a run. -/
theorem hears_create_project (name : Json) : Hears P h t (fun _ => True) (create_project P name)
    fun reply _ => reply.names = [] := by
  have any : ∀ {γ : Type} (program : KProg γ), Hears P h t (fun _ => True) program fun _ _ => True :=
    fun program => hears_only nothing_endures (Prog.Only.all (fun _ => trivial) program)
  refine hears_bind (any _) fun secret => hears_bind (any _) fun id => hears_bind (any _) fun _ => ?_
  exact Lands.ret nothing_endures.stable fun _ _ _ => names_create_project

theorem hears_post_route (W : Web) (b : Json) (p : List String) :
    Hears W.platform h t (Unborn t) (post_route W pid b p) (Vouched pid p) := by
  have fresh : ∀ {γ : Type} {program : KProg γ} {C : γ → World → Prop}, Hears W.platform h t (fun _ => True) program C →
      Hears W.platform h t (Unborn t) program C :=
    fun hears => hears.mono (fun _ _ _ => trivial) (fun _ _ holds => holds) fun _ _ _ holds => holds
  have secured : ∀ {rid : Id} {rows : List (Table × Id)}, Stable (hearing W.platform h) t (Secured pid rid rows) :=
    fun {rid rows} => (endures_secured _ _ _).stable
  unfold post_route
  split
  · refine hears_silent endures_unborn.stable (silent_bodyField _ _ _) fun name => fresh ?_
    refine hears_bind (hears_create_project name) fun reply => ?_
    refine Lands.ret (fun _ _ _ _ _ => id) fun _ _ none named => absurd none named
  · exact hears_silent endures_unborn.stable (silent_bodyField _ _ _) fun image => fresh (hears_send (hears_create_run image))
  · refine hears_owned fun rid => hears_silent secured (silent_bodyField _ _ _) fun label => ?_
    exact hears_send (hears_snapshot_instance _ label)
  · refine hears_owned fun rid => hears_silent secured (silent_bodyField _ _ _) fun n => ?_
    exact hears_silent secured (Prog.Only.ofOutcome _) fun n => hears_send (hears_fork_snapshot _ n)
  · exact hears_owned fun rid => hears_send (hears_destroy_instance _)
  · exact Lands.ret endures_unborn.stable fun _ _ _ => vouched_failure

/-- The response of a request that is posted names rows of the project of its key. -/
def Confirms (P : Platform) : Arrival → Except Exn (Option Response) → World → Prop
  | .http h, .ok (some response), w => h.verb = .POST → response.obj.names ≠ [] →
    ∃ pid, w.db.committed.opens P h.key = some pid ∧ Vouched pid (segments h.path) response w
  | _, _, _ => True

theorem hears_do_POST (W : Web) : Hears W.platform h t (Unborn t) (do_POST W h) fun response w =>
    response.obj.names ≠ [] → ∃ pid, w.db.committed.opens W.platform h.key = some pid ∧
      Vouched pid (segments h.path) response w := by
  refine hears_bind hears_authed fun found => ?_
  cases found with
  | none =>
    have stable : Stable (hearing W.platform h) t fun _ => True := nothing_endures.stable
    exact (Lands.ret stable fun _ _ _ named => absurd (names_failure _ _) named).mono (fun _ _ _ => trivial)
      (fun _ _ holds => holds) fun _ _ _ holds => holds
  | some pid =>
    have posted : Hears W.platform h t (Unborn t) (tryCatch (do
        let b ← Prog.ofOutcome h.body
        post_route W pid b (segments h.path)) refused) (Vouched pid (segments h.path)) := by
      refine Lands.catching hearing_lawful
        (hears_silent endures_unborn.stable (Prog.Only.ofOutcome _) fun b => hears_post_route W b _) fun error => ?_
      unfold refused
      split <;> exact Lands.ret nothing_endures.stable fun _ _ _ => vouched_failure
    exact (hears_with (endures_opens pid) posted).mono (fun _ _ holds => ⟨holds.1,holds.2 pid rfl⟩) (fun _ _ holds => holds)
      fun _ _ _ both _ => ⟨pid,both.2,both.1⟩

theorem stable_confirms (arrival : Arrival) (outcome : Except Exn (Option Response)) :
    Stable (tenancy P arrival) t (Confirms P arrival outcome) := by
  intro w v housed housed' onward confirms
  cases arrival with
  | meter => trivial
  | http h =>
    cases outcome with
    | error error => trivial
    | ok answer =>
      cases answer with
      | none => trivial
      | some response =>
        intro post named
        obtain ⟨pid,opens,vouched⟩ := confirms post named
        exact ⟨pid,opens_grows onward.projects opens,stable_vouched (P := P) (h := h) (t := t)
          _ _ w v housed housed' onward vouched⟩

theorem body_confirms (W : Web) (arrival : Arrival) :
    Triple (tenancy W.platform arrival) t (Unborn t) (arrival.body W) (Confirms W.platform arrival) := by
  have within := (tenancy_roles W).bodies arrival t
  cases arrival with
  | meter => exact within.consequence (fun _ _ holds => holds) fun _ _ _ _ => trivial
  | http h =>
    refine within.heard ?_
    by_cases post : h.verb = .POST
    · have posted : Hears W.platform h t (Unborn t) (Arrival.body W (.http h)) fun answer w =>
          Confirms W.platform (.http h) (.ok answer) w := by
        refine hears_bind (B := fun response w => Confirms W.platform (.http h) (.ok (some response)) w) ?_
          fun response => Lands.ret (stable_confirms _ _) fun _ _ holds => holds
        unfold handle
        rw [post]
        exact (hears_do_POST W).mono (fun _ _ holds => holds) (fun _ _ holds => holds) fun _ _ _ holds _ => holds
      refine Triple.consequence posted (fun _ _ holds => holds) ?_
      intro outcome w _ holds
      cases outcome with
      | ok answer => exact holds
      | error error => trivial
    · have anything := hears_only (nothing_endures (P := W.platform) (h := h) (t := t))
        (Prog.Only.all (fun _ => trivial) (Arrival.body W (.http h)))
      refine Triple.consequence anything (fun _ _ _ => trivial) ?_
      intro outcome w _ _
      cases outcome with
      | error error => trivial
      | ok answer =>
        cases answer with
        | none => trivial
        | some response => exact fun posted => absurd posted post

theorem confirms_roles (W : Web) :
    Roles (server W) (protocol W.platform) Unborn (tenancy W.platform) Housed (Confirms W.platform) where
  lawful := (tenancy_roles W).lawful
  shared := (tenancy_roles W).shared
  calls := (tenancy_roles W).calls
  others := (tenancy_roles W).others
  envs := (tenancy_roles W).envs
  reboots := (tenancy_roles W).reboots
  bodies arrival _ := body_confirms W arrival

end

section
variable {W : Web} {root : ProjectRow} {s3 : Bool} {pool later : SPool} {t : Nat} {h : Http} {response : Response}

/-- In every state reached, who has answered has named rows that are committed. -/
theorem confirms_reach (reached : (server W).Reach (fun _ _ => True) ⟨World.initial root s3,[]⟩ pool) :
    Cast (tenancy W.platform) Housed (Confirms W.platform) pool :=
  ((server_sound W).roles (confirms_roles W) ((World.initial_fresh root s3).served W.platform)
    (.idle (World.initial_housed root s3) rfl) reached).2

/-- Step: whatever happens, rows and projects that are committed stay. -/
theorem server_grows_act (reached : (server W).Reach (fun _ _ => True) ⟨World.initial root s3,[]⟩ pool)
    {action : Action Arrival Choice Move} (acted : (server W).act pool action = some later) :
    Grows pool.world.db.committed later.world.db.committed ∧
      pool.world.db.committed.projects <+: later.world.db.committed.projects := by
  obtain ⟨healthy,cast⟩ := server_reach reached
  by_cases reboot : action = .reboot
  · subst reboot
    cases Option.some.inj acted
    exact ⟨Grows.refl _,List.prefix_refl _⟩
  -- a thread that does not act may rely on what happens
  obtain ⟨t,others⟩ : ∃ t, ∀ choice, action ≠ .call t choice := by
    cases action with
    | call t' choice' => exact ⟨t' + 1,by simp⟩
    | request | env | reboot => exact ⟨0,by simp⟩
  obtain ⟨onward,_⟩ := onward_others (t := t) healthy cast others reboot acted
  exact ⟨onward.relies.committed,onward.projects⟩

theorem server_grows (reached : (server W).Reach (fun _ _ => True) ⟨World.initial root s3,[]⟩ pool)
    (onward : (server W).Reach (fun _ _ => True) pool later) : Grows pool.world.db.committed later.world.db.committed ∧
      pool.world.db.committed.projects <+: later.world.db.committed.projects := by
  induction onward with
  | refl => exact ⟨Grows.refl _,List.prefix_refl _⟩
  | tail before next ih =>
    obtain ⟨action,_,acted⟩ := next
    obtain ⟨grows,projects⟩ := server_grows_act (reached.trans before) acted
    exact ⟨ih.1.trans grows,ih.2.trans projects⟩

/-- What a client has been told stands: once a request that is posted has been answered with ids, these are
    rows of one run of the project of its key, the run of the row that it asked about, whatever happens
    later, restarts included. -/
theorem replies_stand (W : Web) (root : ProjectRow) (s3 : Bool) {pool later : SPool} {t : Nat} {h : Http} {response : Response}
    (post : h.verb = .POST) (reached : (server W).Reach (fun _ _ => True) ⟨World.initial root s3,[]⟩ pool)
    (found : pool.threads[t]? = some ⟨.http h,.ret (some response)⟩) (named : response.obj.names ≠ [])
    (onward : (server W).Reach (fun _ _ => True) pool later) :
    ∃ pid rid, later.world.db.committed.opens W.platform h.key = some pid ∧
      ∀ row ∈ askedFor (segments h.path) ++ response.obj.names, later.world.db.committed.Places pid rid row := by
  have cast := confirms_reach reached
  have answered : Confirms W.platform (.http h) (.ok (some response)) pool.world :=
    cast.safe t _ found pool.world (tenancy_lawful.refl t _) cast.kept
  obtain ⟨pid,opens,vouched⟩ := answered post named
  obtain ⟨rid,secured⟩ := vouched named
  obtain ⟨grows,projects⟩ := server_grows reached onward
  exact ⟨pid,rid,opens_grows projects opens,fun row member => grows.places (secured row member)⟩

end

/-- A run is started, its instance is snapshotted, and the daemon is restarted. -/
def snapshotStands : List (Action Arrival Choice Move) :=
  .request (.http ⟨.POST,"/v1/runs","key",.ok (.obj [])⟩) :: serves 0 (.ok :: createRun "r" "i" [7] [8]) ++
    .request (.http ⟨.POST,"/v1/instances/i/snapshot","key",.ok (.obj [])⟩) ::
    serves 1 ([.ok,.ok] ++ takeSnapshot "s" ++ recordSnapshot)

theorem replies_stand_snapshot : ∃ (pool later : SPool) (h : Http) (response : Response),
    (server .plain).Reach (fun _ _ => True) ⟨World.initial defaultProject false,[]⟩ pool ∧
      pool.threads[1]? = some ⟨.http h,.ret (some response)⟩ ∧ response.obj.names = [(.snapshots,"s")] ∧
      askedFor (segments h.path) = [(.instances,"i")] ∧ (server .plain).Reach (fun _ _ => True) pool later ∧
      ∃ pid rid, later.world.db.committed.opens .plain h.key = some pid ∧
        ∀ row ∈ askedFor (segments h.path) ++ response.obj.names, later.world.db.committed.Places pid rid row := by
  have seen : ((server .plain).run (fun _ _ => true) snapshotStands ⟨World.initial defaultProject false,[]⟩).bind
      (fun pool : SPool => (pool.answer 1).map fun answer =>
        (answer.1.verb,askedFor (segments answer.1.path),answer.2.obj.names)) =
      some (.POST,[(.instances,"i")],[(.snapshots,"s")]) := by decide +kernel
  obtain ⟨pool,ran,onward⟩ := Option.bind_eq_some_iff.mp seen
  obtain ⟨⟨h,response⟩,answer,same⟩ := Option.map_eq_some_iff.mp onward
  simp only [Prod.mk.injEq] at same
  obtain ⟨post,asks,names⟩ := same
  have found := SPool.answer_eq_some.mp answer
  have reached : (server .plain).Reach (fun _ _ => True) ⟨World.initial defaultProject false,[]⟩ pool :=
    Machine.reach_of_run _ (fun _ _ _ => trivial) ran
  have restarted : (server .plain).Reach (fun _ _ => True) pool ⟨pool.world.reboot,[]⟩ := .single ⟨.reboot,trivial,rfl⟩
  refine ⟨pool,_,h,response,reached,found,names,asks,restarted,?_⟩
  exact replies_stand .plain defaultProject false post reached found (by simp [names]) restarted

end Klados
