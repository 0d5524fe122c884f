import Klados.Protocol
import Klados.Charge
import Klados.Mounts
import Mathlib.Data.List.DropRight

/-!
The HTTP side of kladosd: the key of a request names its project, a path names a handler, and a
handler that is given an id first asks for its owner. `server` is the daemon as its clients see it;
its threads are requests and the ticks of the meter, and they keep to the same protocol as the
functions that they call (`server_sound`).
-/
namespace Klados
open Effects

/-- What the handlers call besides the platform: `round`, `int` of a string, `mount` of a sealed layer, the digest of
    `hashlib.sha1`, and how a file name is written into a reply. -/
structure Web where
  platform : Platform
  rounded : Rat → Nat → Rat
  parseInt : String → Option Int
  mount : Bytes → Except Exn Diff.Layer
  sha1 : Bytes → Diff.Str
  text : Diff.Str → String

/-- `SELECT id FROM projects WHERE key_hash=?`. -/
def Tables.projectOfKey (T : Tables) (key_hash : String) : Option Id :=
  (T.projects.find? (·.key_hash = key_hash)).map (·.id)

/-- `project_of_key`. -/
def project_of_key (P : Platform) (key : String) : KProg (Option Id) :=
  if key = "" then pure none
  else do
    let T ← dbCall .read
    pure (T.projectOfKey (P.sha256 key))

/-- The tables that `_project_of` is called for. -/
inductive Table
  | runs
  | snapshots
  | instances
  deriving DecidableEq

/-- The project of the row with this id, as `_project_of` selects it: through its run. -/
def Tables.projectOf (T : Tables) : Table → Id → Option Id
  | .runs, val => (T.run? val).map (·.project_id)
  | .snapshots, val => ((T.snapshot? val).bind fun row => T.run? row.run_id).map (·.project_id)
  | .instances, val => T.projectOfInstance val

/-- `_project_of`. -/
def project_of (table : Table) (val : Id) : KProg (Option Id) := do
  let T ← dbCall .read
  pure (T.projectOf table val)

/-- `_require_owner`. -/
def require_owner (project_id : Id) (table : Table) (val : Id) : KProg Unit := do
  let owner ← project_of table val
  if owner = some project_id then pure () else Prog.raise (.Forbidden (val ++ " is not in your project"))

/-- `create_project`. -/
def create_project (P : Platform) (name : Json) : KProg Json := do
  let secret ← sysCall .token
  let key := "klados_" ++ secret
  let pid ← sysCall .newId
  connection (do
    let now ← sysCall .now
    let text ← bindText P name
    dbCall (.execute (.insertProject ⟨pid,text,P.sha256 key,now⟩))
    dbCall .commit)
  pure (.obj [("project_id",.str pid),("name",name),("api_key",.str key)])

/-- A row of `list_runs`. -/
def RunRow.view (row : RunRow) : Json :=
  .obj [("id",.str row.id),("project_id",.str row.project_id),("image",Json.ofText row.image),
    ("created_at",.real row.created_at)]

/-- `SELECT * FROM runs WHERE project_id=? ORDER BY created_at`. -/
def Tables.runsOf (T : Tables) (project_id : Id) : List RunRow :=
  (T.runs.filter (·.project_id = project_id)).mergeSort fun row row' => row.created_at ≤ row'.created_at

/-- `list_runs`. -/
def list_runs (project_id : Id) : KProg Json := do
  let T ← dbCall .read
  pure (.obj [("runs",.arr ((T.runsOf project_id).map RunRow.view))])

/-- `usage`: two SELECTs, one after the other, outside a transaction. -/
def usage (rounded : Rat → Nat → Rat) (project_id : Id) : KProg Json := do
  let T ← dbCall .read
  let rows := T.usage
  let T ← dbCall .read
  let r := Charge.usage rounded { T with usage := rows } project_id
  pure (.obj [("vcpu_hours",.real r.vcpu_hours),("ram_gib_hours",.real r.ram_gib_hours),
    ("stored_bytes",.int r.stored_bytes),("estimated_cost_usd",.real r.estimated_cost_usd)])

/-- `os.path.exists(a) and os.path.exists(b)`. -/
def both_exist (a b : Path) : KProg Bool := do
  let first ← fsCall (.exists a)
  if first then fsCall (.exists b) else pure false

/-- `_mount_ro` of the layer of a snapshot. -/
def mount_ro (W : Web) (sid : Id) : KProg Diff.Layer := do
  let bytes ← fsCall (.readFile (.snap sid .scratch))
  Prog.ofOutcome (W.mount bytes)

/-- `fs_diff` of two snapshots: the layers are mounted and compared when both are there. -/
def fs_diff (W : Web) (sid_a sid_b : Id) : KProg Json := do
  let both ← both_exist (.snap sid_a .scratch) (.snap sid_b .scratch)
  if !both then pure (Mounts.replyOf W.text (.error "one or both snapshots have no sealed disk layer"))
  else do
    let ma ← mount_ro W sid_a
    let mb ← mount_ro W sid_b
    Mounts.compare W.sha1 W.text sid_a sid_b ma mb

inductive Verb
  | GET
  | POST
  deriving DecidableEq

/-- What a handler reads of a request: `key` is the header `X-Api-Key`, or nothing, and `body` is
    what parsing the body comes to. -/
structure Http where
  verb : Verb
  path : String
  key : String
  body : Except Exn Json

/-- What `_send` is given. -/
structure Response where
  code : Nat
  obj : Json

/-- `{"error": text}`. -/
def failure (code : Nat) (text : String) : Response := ⟨code,.obj [("error",.str text)]⟩

/-- `self.path.strip("/").split("/")`. -/
def segments (path : String) : List String :=
  (((path.toList.dropWhile (· = '/')).rdropWhile (· = '/')).splitOn '/').map String.ofList

/-- `b.get(key, default)`. -/
def bodyField (b : Json) (key : String) (default : Json) : KProg Json :=
  if b.isDict then pure ((b.get? key).getD default)
  else Prog.raise (.AttributeError "object has no attribute 'get'")

/-- `int(value)`: a number is cut towards zero. -/
def Web.int (W : Web) : Json → Except Exn Int
  | .bool value => .ok (if value then 1 else 0)
  | .int value => .ok value
  | .real value => .ok (value.num.tdiv value.den)
  | .str value =>
    match W.parseInt value with
    | some n => .ok n
    | none => .error (.ValueError "invalid literal for int() with base 10")
  | .null | .arr _ | .obj _ =>
    .error (.TypeError "int() argument must be a string, a bytes-like object or a real number")

/-- `self._send(200, ...)`. -/
def send (program : KProg Json) : KProg Response := do
  let obj ← program
  pure ⟨200,obj⟩

/-- The body of the `try` in `do_GET`. -/
def get_route (W : Web) (pid : Id) : List String → KProg Response
  | ["v1","runs"] => send (list_runs pid)
  | ["v1","usage"] => send (usage W.rounded pid)
  | [_,"runs",rid,"timeline"] => do
    require_owner pid .runs rid
    send (timeline rid)
  | [_,"snapshots",a,"diff",b] => do
    require_owner pid .snapshots a
    require_owner pid .snapshots b
    send (fs_diff W a b)
  | _ => pure (failure 404 "not found")

/-- The rest of the `try` in `do_POST`, once the body is read. -/
def post_route (W : Web) (pid : Id) (b : Json) : List String → KProg Response
  | ["v1","projects"] => do
    let name ← bodyField b "name" (.str "project")
    send (create_project W.platform name)
  | ["v1","runs"] => do
    let image ← bodyField b "image" (.str "klados/agent")
    send (create_run W.platform pid image)
  | [_,"instances",iid,"snapshot"] => do
    require_owner pid .instances iid
    let label ← bodyField b "label" (.str "snap")
    send (snapshot_instance W.platform iid label)
  | [_,"snapshots",sid,"fork"] => do
    require_owner pid .snapshots sid
    let n ← bodyField b "n" (.int 4)
    let n ← Prog.ofOutcome (W.int n)
    send (fork_snapshot W.platform sid n)
  | [_,"instances",iid,"destroy"] => do
    require_owner pid .instances iid
    send (destroy_instance iid)
  | _ => pure (failure 404 "not found")

/-- The two `except` clauses of a handler. -/
def refused : Exn → KProg Response
  | .Forbidden msg => pure (failure 403 msg)
  | e => pure (failure 500 e.str)

/-- `H._authed`: a project whose id is empty counts as none. -/
def authed (P : Platform) (key : String) : KProg (Option Id) := do
  let pid ← project_of_key P key
  pure (pid.filter (· ≠ ""))

def unauthorized : Response := failure 401 "missing or invalid API key (send X-Api-Key)"

def do_GET (W : Web) (h : Http) : KProg Response :=
  if segments h.path = ["health"] then pure ⟨200,.obj [("status",.str "ok")]⟩
  else do
    match ← authed W.platform h.key with
    | none => pure unauthorized
    | some pid => tryCatch (get_route W pid (segments h.path)) refused

def do_POST (W : Web) (h : Http) : KProg Response := do
  match ← authed W.platform h.key with
  | none => pure unauthorized
  | some pid =>
    tryCatch (do
      let b ← Prog.ofOutcome h.body
      post_route W pid b (segments h.path)) refused

def handle (W : Web) (h : Http) : KProg Response :=
  match h.verb with
  | .GET => do_GET W h
  | .POST => do_POST W h

/-! ## The server -/

/-- What starts a thread: a request, or a pass of `_meter_loop`. -/
inductive Arrival
  | http (h : Http)
  | meter

/-- `_meter_tick(interval)`, whose errors are swallowed. -/
def meter_pass : KProg Unit :=
  tryCatch (do
    let _ ← meter_tick 2
    pure ()) fun _ => pure ()

def Arrival.body (W : Web) : Arrival → KProg (Option Response)
  | .http h => do
    let response ← handle W h
    pure (some response)
  | .meter => do
    meter_pass
    pure none

def server (W : Web) : Machine sig Exn (Option Response) Arrival World Choice Move where
  exec t op choice world := exec W.platform t op choice world
  body := Arrival.body W
  env move world := world.move W.platform move
  reboot := World.reboot

abbrev SPool := Pool sig Exn (Option Response) Arrival World

section
open Prog (Only)
variable {P : Platform} {t : Nat} {α β : Type}

/-- The program only reads the tables. -/
abbrev Asks (program : KProg α) : Prop := program.Only fun op : Op => op = .db .read

theorem asks_read : Asks (dbCall .read) := Only.perform rfl

theorem asks_authed (P : Platform) (key : String) : Asks (authed P key) := by
  refine Only.bind ?_ fun _ => trivial
  unfold project_of_key
  split
  · trivial
  · exact Only.bind asks_read fun _ => trivial

theorem asks_require_owner (project_id : Id) (table : Table) (val : Id) : Asks (require_owner project_id table val) := by
  refine Only.bind (Only.bind asks_read fun _ => trivial) fun owner => ?_
  split <;> trivial

theorem asks_list_runs (project_id : Id) : Asks (list_runs project_id) := Only.bind asks_read fun _ => trivial

theorem asks_usage (rounded : Rat → Nat → Rat) (project_id : Id) : Asks (usage rounded project_id) :=
  Only.bind asks_read fun _ => Only.bind asks_read fun _ => trivial

theorem asks_timeline (run_id : Id) : Asks (timeline run_id) :=
  Only.bind asks_read fun _ => Only.bind asks_read fun _ => trivial

theorem asks_bodyField (b : Json) (key : String) (default : Json) : Asks (bodyField b key default) := by
  unfold bodyField
  split <;> trivial

theorem stable_unborn : Stable (protocol P) t (Unborn t) := fun _ _ _ _ relies free => relies.txn free

/-- A thread that only reads has no transaction. -/
theorem asks_triple {program : KProg α} (asks : Asks program) :
    Triple (protocol P) t (Unborn t) program fun _ => Unborn t := by
  refine Triple.only stable_unborn ?_ asks
  rintro op rfl
  refine protocol_acts (fun _ _ _ => trivial) ?_
  intro choice outcome w v _ free ran
  obtain ⟨db,acts,rfl⟩ := exec_dbActs ran
  cases acts with
  | fails => exact free
  | read => exact free

/-- What was read does not matter for what follows. -/
theorem asks_bind {program : KProg α} (asks : Asks program) {rest : α → KProg β}
    (onward : ∀ value, Triple (protocol P) t (Unborn t) (rest value) fun _ _ => True) :
    Triple (protocol P) t (Unborn t) (program >>= rest) fun _ _ => True :=
  Triple.bind protocol_lawful (asks_triple asks) onward fun _ _ _ _ => trivial

theorem ignore_triple {pre : World → Prop} {program : KProg α} {Q : Except Exn α → World → Prop}
    (triple : Triple (protocol P) t pre program Q) : Triple (protocol P) t pre program fun _ _ => True :=
  triple.consequence (fun _ _ holds => holds) fun _ _ _ _ => trivial

theorem stop_triple {pre : World → Prop} (stable : Stable (protocol P) t pre) (value : α) :
    Triple (protocol P) t pre (pure value) fun _ _ => True := Triple.ret stable fun _ _ _ => trivial

theorem send_triple {pre : World → Prop} {program : KProg Json} {Q : Except Exn Json → World → Prop}
    (triple : Triple (protocol P) t pre program Q) : Triple (protocol P) t pre (send program) fun _ _ => True :=
  Triple.bind protocol_lawful (ignore_triple triple) (fun _ => stop_triple stable_true _) fun _ _ _ _ => trivial

/-- What starts without any knowledge may start in a new thread. -/
theorem known_triple {program : KProg α} {Q : Except Exn α → World → Prop}
    (triple : Triple (protocol P) t (Knows t (fun _ => True) fun _ => True) program Q) :
    Triple (protocol P) t (Unborn t) program Q :=
  triple.consequence (fun _ _ _ => ⟨trivial,trivial⟩) fun _ _ _ holds => holds

theorem create_project_triple (name : Json) :
    Triple (protocol P) t (Knows t (fun _ => True) fun _ => True) (create_project P name) fun _ _ => True := by
  refine ignore_triple (Q := Ends fun _ => Knows t (fun _ => True) fun _ => True) ?_
  refine quiet_bind lasting_true solid_true (quietly_sys (by simp) _) fun secret => ?_
  refine quiet_bind lasting_true solid_true (quietly_sys (by simp) _) fun pid => ?_
  refine bind_triple (M := fun _ => Knows t (fun _ => True) fun _ => True) (connection_triple ?_) fun _ =>
    done_triple lasting_true solid_true _
  refine quiet_bind lasting_true solid_true (quietly_sys (by simp) _) fun now => ?_
  refine quiet_bind lasting_true solid_true ((uses_bindText P _).quietly (by simp) (by simp)) fun text => ?_
  refine bind_triple (execute_always lasting_true solid_true (by simp) (fun _ => trivial) (by simp)) fun _ => ?_
  exact forget_triple (commit_triple lasting_after solid_true (by simp))

theorem fs_diff_triple (W : Web) (sid_a sid_b : Id) :
    Triple (protocol P) t (Knows t (fun _ => True) fun _ => True) (fs_diff W sid_a sid_b) fun _ _ => True := by
  suffices quiet : Quietly [] (fs_diff W sid_a sid_b) from ignore_triple (quiet_triple lasting_true solid_true quiet)
  have file : ∀ o : FsOp, Quietly [] (fsCall o) := by
    intro o
    refine Only.perform ⟨⟨?_,fun _ _ => trivial⟩,by simp⟩
    rcases o.kind_cases with own | own <;> simp [Op.kind,own]
  refine Only.bind (Only.bind (file _) fun first => ?_) fun both => ?_
  · split
    · exact file _
    · trivial
  have mounts : ∀ sid, Quietly [] (mount_ro W sid) := fun sid => Only.bind (file _) fun bytes => Only.ofOutcome _
  split
  · trivial
  · refine Only.bind (mounts _) fun ma => Only.bind (mounts _) fun mb => ?_
    refine (Mounts.looks_compare W.text sid_a sid_b ma mb).mono fun op looks => ?_
    obtain ⟨o,rfl⟩ := looks.elim Mounts.Looks.sys Mounts.Looks.sys
    exact ⟨⟨by simp [Op.kind],fun _ _ => trivial⟩,by simp⟩

theorem get_route_triple (W : Web) (pid : Id) (p : List String) :
    Triple (protocol P) t (Unborn t) (get_route W pid p) fun _ _ => True := by
  unfold get_route
  split
  · exact send_triple (asks_triple (asks_list_runs pid))
  · exact send_triple (asks_triple (asks_usage _ pid))
  · exact asks_bind (asks_require_owner _ _ _) fun _ => send_triple (asks_triple (asks_timeline _))
  · exact asks_bind (asks_require_owner _ _ _) fun _ => asks_bind (asks_require_owner _ _ _) fun _ =>
      send_triple (known_triple (fs_diff_triple W _ _))
  · exact stop_triple stable_unborn _

theorem post_route_triple (W : Web) (pid : Id) (b : Json) (p : List String) :
    Triple (protocol W.platform) t (Unborn t) (post_route W pid b p) fun _ _ => True := by
  unfold post_route
  split
  · exact asks_bind (asks_bodyField _ _ _) fun name => send_triple (known_triple (create_project_triple name))
  · exact asks_bind (asks_bodyField _ _ _) fun image => send_triple (known_triple (create_run_triple pid image))
  · exact asks_bind (asks_require_owner _ _ _) fun _ => asks_bind (asks_bodyField _ _ _) fun label =>
      send_triple (snapshot_instance_triple _ label)
  · exact asks_bind (asks_require_owner _ _ _) fun _ => asks_bind (asks_bodyField _ _ _) fun n =>
      asks_bind (Only.ofOutcome _) fun n => send_triple (known_triple (fork_snapshot_triple _ n))
  · exact asks_bind (asks_require_owner _ _ _) fun _ => send_triple (known_triple (destroy_instance_triple _))
  · exact stop_triple stable_unborn _

theorem refused_triple (error : Exn) : Triple (protocol P) t (fun _ => True) (refused error) fun _ _ => True := by
  unfold refused
  split <;> exact stop_triple stable_true _

theorem handle_triple (W : Web) (h : Http) : Triple (protocol W.platform) t (Unborn t) (handle W h) fun _ _ => True := by
  have caught : ∀ {program : KProg Response}, Triple (protocol W.platform) t (Unborn t) program (fun _ _ => True) →
      Triple (protocol W.platform) t (Unborn t) (tryCatch program refused) fun _ _ => True :=
    fun inside => Triple.catching protocol_lawful inside (fun _ _ _ _ => trivial) refused_triple
  unfold handle
  split
  · unfold do_GET
    split
    · exact stop_triple stable_unborn _
    refine asks_bind (asks_authed _ _) fun pid => ?_
    split
    · exact stop_triple stable_unborn _
    · exact caught (get_route_triple W _ _)
  · refine asks_bind (asks_authed _ _) fun pid => ?_
    split
    · exact stop_triple stable_unborn _
    · exact caught (asks_bind (Only.ofOutcome _) fun b => post_route_triple W _ b _)

theorem Arrival.triple (W : Web) (arrival : Arrival) :
    Triple (protocol W.platform) t (Unborn t) (arrival.body W) fun _ _ => True := by
  cases arrival with
  | http h =>
    exact Triple.bind protocol_lawful (handle_triple W h) (fun _ => stop_triple stable_true _) fun _ _ _ _ => trivial
  | meter =>
    have ticked : Triple (protocol W.platform) t (Unborn t) meter_pass fun _ _ => True := by
      refine Triple.catching protocol_lawful (M := fun _ _ => True) ?_ (fun _ _ _ _ => trivial)
        fun _ => stop_triple stable_true _
      exact Triple.bind protocol_lawful (ignore_triple (known_triple (meter_tick_triple 2)))
        (fun _ => stop_triple stable_true _) fun _ _ _ _ => trivial
    exact Triple.bind protocol_lawful ticked (fun _ => stop_triple stable_true _) fun _ _ _ _ => trivial

/-- The server stays within the permissions of the daemon, whatever is requested, fails or is rebooted. -/
theorem server_sound (W : Web) :
    Sound (server W) (fun _ _ => True) (protocol W.platform) Unborn fun _ _ _ _ => True where
  lawful := protocol_lawful
  calls _ _ choice _ _ _ _ _ _ _ _ ran := ⟨choice,ran⟩
  others t t' op w v other orderly _ guaranteed := by
    obtain ⟨permitted,choice,outcome,ran⟩ := guaranteed
    exact orderly.relies permitted ran other
  envs pool move world _ orderly moved := by
    have step := World.moved_of_move moved
    exact ⟨orderly.move step,relies_move step⟩
  reboots _ _ orderly := ⟨orderly.reboot,by rintro _ _ ⟨⟩⟩
  young _ _ _ _ _ relies free := relies.txn free
  bodies _ arrival _ := arrival.triple W

theorem World.Fresh.served {w : World} (fresh : w.Fresh) (P : Platform) :
    Healthy (protocol P) Unborn (fun _ _ _ _ => True) (⟨w,[]⟩ : SPool) :=
  ⟨fresh.orderly,fun t thread found => by simp at found,fun t _ T => by simp [fresh.idle]⟩

end

end Klados
