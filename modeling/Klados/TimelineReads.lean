import Klados.Replies

/-!
What a listing shows. The timeline is read while others write; each SELECT sees the tables of some moment
between the request and the response. So nothing is missing that was committed when the request came in,
a snapshot that was acknowledged say, and nothing is shown that is not committed when it is answered
(`timeline_between`).
-/
namespace Klados
open Effects

/-- What others may do beside a thread that reads: they add rows, and leave it without a transaction. -/
structure Beyond (t : Nat) (w v : World) : Prop where
  grows : Grows w.db.committed v.db.committed
  idle : Unborn t w → Unborn t v

/-- The thread has no transaction, and the tables are sane. -/
structure Serene (t : Nat) (w : World) : Prop where
  idle : Unborn t w
  sane : Sane w.db.committed

/-- A thread that reads. -/
abbrev reader (W : Web) (t : Nat) : Rules sig Exn World := single (Beyond t) ((server W).step t) (Serene t)

/-- From `A` the program returns in `B`, if it returns. -/
abbrev Selects {α : Type} (W : Web) (t : Nat) (A : World → Prop) (program : KProg α) (B : α → World → Prop) : Prop :=
  Lands (reader W t) t A program (fun _ => True) B

/-- The tables have grown since. -/
def Since (T₀ : Tables) (w : World) : Prop := Grows T₀ w.db.committed

/-- Sane tables from between then and now. -/
structure Moment (T₀ T : Tables) (w : World) : Prop where
  since : Grows T₀ T
  sane : Sane T
  onward : Grows T w.db.committed

section
variable {W : Web} {t : Nat} {T₀ : Tables} {α β : Type} {rid : Id}

theorem Beyond.refl (t : Nat) (w : World) : Beyond t w w := ⟨Grows.refl _,id⟩

theorem Beyond.trans {u v w : World} (first : Beyond t u w) (second : Beyond t w v) : Beyond t u v :=
  ⟨first.grows.trans second.grows,second.idle ∘ first.idle⟩

theorem reader_lawful : (reader W t).Lawful := single_lawful (Beyond.refl t) Beyond.trans

theorem stable_since : Stable (reader W t) t (Since T₀) := fun _ _ _ _ beyond since => since.trans beyond.grows

theorem Moment.later {T : Tables} {w v : World} (moment : Moment T₀ T w) (beyond : Beyond t w v) : Moment T₀ T v :=
  ⟨moment.since,moment.sane,moment.onward.trans beyond.grows⟩

theorem selects_bind {A : World → Prop} {B : α → World → Prop} {C : β → World → Prop} {program : KProg α} {rest : α → KProg β}
    (first : Selects W t A program B) (onward : ∀ value, Selects W t (B value) (rest value) C) :
    Selects W t A (program >>= rest) C := Lands.bind reader_lawful first onward

/-- A SELECT reads the tables of the moment. -/
theorem selects_read {A : World → Prop} (stable : Stable (reader W t) t A) (since : ∀ w, A w → Since T₀ w) :
    Selects W t A (dbCall .read) fun T w => A w ∧ Moment T₀ T w := by
  refine Triple.perform stable (single_acts ?_) ?_
  · rintro w outcome v serene holds ⟨choice,ran⟩
    obtain ⟨db',acts,rfl⟩ := exec_dbActs (P := W.platform) ran
    cases acts with
    | fails => exact ⟨serene,trivial⟩
    | read =>
      refine ⟨serene,holds,?_⟩
      rw [Db.visible_other serene.idle]
      exact ⟨since w holds,serene.sane,Grows.refl _⟩
  · intro outcome
    cases outcome with
    | ok T => exact fun w v serene serene' beyond holds => ⟨stable w v serene serene' beyond holds.1,holds.2.later beyond⟩
    | error error => exact fun _ _ _ _ _ _ => trivial

/-- A program that reads leaves what it finds. -/
theorem selects_only {A : World → Prop} (stable : Stable (reader W t) t A) {program : KProg α} (only : program.Only Op.reads) :
    Selects W t A program fun _ => A := by
  have acts : ∀ op : Op, op.reads → Acts (reader W t) t A op fun _ => A := by
    intro op reads
    refine single_acts ?_
    rintro w outcome v serene holds ⟨choice,ran⟩
    obtain rfl := exec_reads reads ran
    exact ⟨serene,holds⟩
  exact (Lands.only stable acts only).mono (fun _ _ holds => holds) (fun _ _ _ => trivial) fun _ _ _ holds => holds

/-- Two SELECTs, one after the other. -/
def Observed (T₀ : Tables) (rid : Id) (reply : Json) (w : World) : Prop :=
  ∃ T T', Moment T₀ T w ∧ Moment T T' w ∧ reply = listing rid T T'

theorem Observed.stable (reply : Json) : Stable (reader W t) t (Observed T₀ rid reply) := by
  rintro w v _ _ beyond ⟨T,T',first,second,same⟩
  exact ⟨T,T',first.later beyond,second.later beyond,same⟩

theorem selects_timeline (rid : Id) : Selects W t (Since T₀) (timeline rid) (Observed T₀ rid) := by
  refine selects_bind (selects_read stable_since fun _ since => since) fun T => ?_
  have stable : Stable (reader W t) t fun w => Since T₀ w ∧ Moment T₀ T w := fun w v serene serene' beyond holds =>
    ⟨stable_since w v serene serene' beyond holds.1,holds.2.later beyond⟩
  refine selects_bind (selects_read stable fun _ holds => holds.2.onward) fun T' => ?_
  refine Lands.ret (fun w v serene serene' beyond holds => ?_) fun w _ holds => ⟨T,T',holds.1.2,holds.2,rfl⟩
  exact ⟨stable w v serene serene' beyond holds.1,holds.2.later beyond⟩

/-- A response with the status 200 is a listing. -/
def Succeeds (T₀ : Tables) (rid : Id) (response : Response) (w : World) : Prop :=
  response.code = 200 → Observed T₀ rid response.obj w

theorem Succeeds.stable (response : Response) : Stable (reader W t) t (Succeeds T₀ rid response) :=
  fun w v serene serene' beyond shows succeeded => Observed.stable _ w v serene serene' beyond (shows succeeded)

theorem selects_refused (error : Exn) : Selects W t (fun _ => True) (refused error) (Succeeds T₀ rid) := by
  have stable : Stable (reader W t) t fun _ => True := fun _ _ _ _ _ _ => trivial
  unfold refused
  split
  · exact Lands.ret stable fun _ _ _ succeeded => by cases succeeded
  · exact Lands.ret stable fun _ _ _ succeeded => by cases succeeded

theorem selects_do_GET {h : Http} {first : String} (path : segments h.path = [first,"runs",rid,"timeline"]) :
    Selects W t (Since T₀) (do_GET W h) (Succeeds T₀ rid) := by
  unfold do_GET
  rw [path,if_neg (by simp)]
  refine selects_bind (selects_only stable_since (reads_of_asks (asks_authed _ _))) fun found => ?_
  cases found with
  | none => exact Lands.ret stable_since fun _ _ _ succeeded => by cases succeeded
  | some pid =>
    have route : get_route W pid [first,"runs",rid,"timeline"] = require_owner pid .runs rid >>= fun _ => send (timeline rid) := by
      simp [get_route]
    have routed : Selects W t (Since T₀) (get_route W pid [first,"runs",rid,"timeline"]) (Succeeds T₀ rid) := by
      rw [route]
      refine selects_bind (selects_only stable_since (reads_of_asks (asks_require_owner _ _ _))) fun _ => ?_
      refine selects_bind (selects_timeline rid) fun reply => ?_
      exact Lands.ret (Observed.stable reply) fun _ _ observed _ => observed
    exact Lands.catching reader_lawful routed selects_refused

end

section
variable {W : Web} {root : ProjectRow} {s3 : Bool} {pool later : SPool} {t : Nat} {h : Http} {rid : Id} {response : Response}

theorem Consulting.serene (consulting : Consulting W root s3 t h pool) : Serene t pool.world :=
  ⟨consulting.idle,(server_reach consulting.reached).2.kept.orderly.db.committed⟩

theorem Consulting.run (consulting : Consulting W root s3 t h pool)
    (onward : (server W).Reach (fun _ action => action ≠ .reboot) pool later) : Consulting W root s3 t h later := by
  induction onward with
  | refl => exact consulting
  | tail _ next ih =>
    obtain ⟨action,running,acted⟩ := next
    exact (ih.act running acted).1

/-- How the world goes on beside the thread that answers a GET. -/
theorem Consulting.beyond (consulting : Consulting W root s3 t h pool) {action : Action Arrival Choice Move}
    (running : action ≠ .reboot) (acted : (server W).act pool action = some later) :
    Beyond t pool.world later.world ∧ Serene t later.world := by
  obtain ⟨next,onward,_⟩ := consulting.act running acted
  exact ⟨⟨onward.relies.committed,onward.relies.txn⟩,next.serene⟩

/-- The response is a listing of tables from between the request and the response. -/
theorem observed_of_answered {first : String} (get : h.verb = .GET) (path : segments h.path = [first,"runs",rid,"timeline"])
    (reached : (server W).Reach (fun _ _ => True) ⟨World.initial root s3,[]⟩ pool)
    (onward : (server W).Reach (fun _ action => action ≠ .reboot) (pool.arrived W h) later)
    (answered : later.threads[pool.threads.length]? = some ⟨.http h,.ret (some response)⟩) (succeeded : response.code = 200) :
    Observed pool.world.db.committed rid response.obj later.world := by
  have start := Consulting.start get reached
  replace answered : later.threads[pool.threads.length]? = some ⟨.http h,Prog.ofOutcome (.ok (some response))⟩ := answered
  have found := pool.found_arrived W h
  have since : Since pool.world.db.committed (pool.arrived W h).world := Grows.refl _
  generalize pool.world.db.committed = T₀ at since
  generalize pool.threads.length = t at start onward answered found
  have ran : Runs (fun w v => Beyond t w v ∧ Serene t v) ((server W).step t) _ _ _ _ := Machine.Reach.thread
    (J := fun pool => Consulting W root s3 t h pool) onward (fun _ choice _ _ _ _ _ _ executed => ⟨choice,executed⟩)
      (fun _ running => running rfl)
    (fun _ _ _ first second => ⟨first.1.trans second.1,second.2⟩) (fun _ consulting => ⟨Beyond.refl t _,consulting.serene⟩)
    (fun _ _ _ consulting running _ acted => consulting.beyond running acted)
    (fun _ _ _ consulting running acted => (consulting.act running acted).1) start found answered
  have body : Selects W t (Since T₀) (Arrival.body W (.http h)) fun answer w =>
      ∀ response, answer = some response → Succeeds T₀ rid response w := by
    refine selects_bind (B := Succeeds T₀ rid) ?_ fun response => Lands.ret (Succeeds.stable response) ?_
    · unfold handle
      rw [get]
      exact selects_do_GET path
    · rintro w _ succeeds _ ⟨⟩
      exact succeeds
  obtain ⟨_,observed⟩ := Safe.runs (R := reader W t) (fun _ _ _ moved => ⟨moved.2,moved.1⟩) start.serene
    (body _ start.serene since) ran
  exact observed response rfl succeeded

/-- The rows of a group have the keys that are found in the group. -/
theorem find?_group {ρ : Type} {rows picked : List ρ} {key group : ρ → Id} (distinct : (rows.map key).Nodup)
    (picks : ∀ row, row ∈ picked ↔ row ∈ rows ∧ group row = rid) {id : Id} :
    (∃ row ∈ picked, some (key row) = some id) ↔ (rows.find? (key · = id)).map group = some rid := by
  constructor
  · rintro ⟨row,member,named⟩
    obtain ⟨inside,run⟩ := (picks row).mp member
    obtain rfl := Option.some.inj named
    rw [find?_key distinct inside,Option.map_some,run]
  · intro of
    obtain ⟨row,found,run⟩ := Option.map_eq_some_iff.mp of
    have named : key row = id := by simpa using List.find?_some found
    exact ⟨row,(picks row).mpr ⟨List.mem_of_find?_eq_some found,run⟩,congrArg some named⟩

/-- What a timeline lists of the snapshots of its run: all of them. -/
theorem listing_snapshots {T T' : Tables} (sane : Sane T) {id : Id} :
    id ∈ (listing rid T T').column "snapshots" "id" ↔ T.runOf .snapshots id = some rid :=
  listing_ids.trans (find?_group sane.grown.nodup fun _ => mem_snapshotsOf)

theorem listing_instance_ids {T T' : Tables} (sane : Sane T') {id : Id} :
    id ∈ (listing rid T T').column "instances" "id" ↔ T'.runOf .instances id = some rid := by
  have shows : id ∈ (listing rid T T').column "instances" "id" ↔ ∃ row ∈ T'.instancesOf rid, some row.id = some id :=
    mem_column InstanceRow.view (fun row => some row.id) rfl fun _ => rfl
  exact shows.trans (find?_group sane.distinct fun _ => mem_instancesOf)

/-- A timeline lists every snapshot and instance of its run that was committed when it was asked for, and
    none that is not committed when it is answered, whatever happens in between. -/
theorem timeline_between (W : Web) (root : ProjectRow) (s3 : Bool) {pool later : SPool} {h : Http} {first : String} {rid : Id}
    {response : Response} (get : h.verb = .GET) (path : segments h.path = [first,"runs",rid,"timeline"])
    (reached : (server W).Reach (fun _ _ => True) ⟨World.initial root s3,[]⟩ pool)
    (onward : (server W).Reach (fun _ action => action ≠ .reboot) (pool.arrived W h) later)
    (answered : later.threads[pool.threads.length]? = some ⟨.http h,.ret (some response)⟩) (succeeded : response.code = 200) :
    ((∀ sid, pool.world.db.committed.runOf .snapshots sid = some rid → sid ∈ response.obj.column "snapshots" "id") ∧
        ∀ sid ∈ response.obj.column "snapshots" "id", later.world.db.committed.runOf .snapshots sid = some rid) ∧
      (∀ iid, pool.world.db.committed.runOf .instances iid = some rid → iid ∈ response.obj.column "instances" "id") ∧
        ∀ iid ∈ response.obj.column "instances" "id", later.world.db.committed.runOf .instances iid = some rid := by
  obtain ⟨T,T',first,second,same⟩ := observed_of_answered get path reached onward answered succeeded
  rw [same]
  refine ⟨⟨fun sid of => ?_,fun sid listed => ?_⟩,fun iid of => ?_,fun iid listed => ?_⟩
  · exact (listing_snapshots first.sane).mpr (first.since.runOf of)
  · exact first.onward.runOf ((listing_snapshots first.sane).mp listed)
  · exact (listing_instance_ids second.sane).mpr ((first.since.trans second.since).runOf of)
  · exact second.onward.runOf ((listing_instance_ids second.sane).mp listed)

end

/-- The timeline of the run "r" is asked for. -/
def askTimeline : Http := ⟨.GET,"/v1/runs/r/timeline","key",.ok .null⟩

/-- A snapshot of its instance is taken after the owner is checked, and before the two SELECTs. -/
def snapshotBetween : List (Action Arrival Choice Move) :=
  .request (.http ⟨.POST,"/v1/instances/i/snapshot","key",.ok (.obj [])⟩) :: serves 2 [.ok,.ok] ++
    serves 3 ([.ok,.ok] ++ takeSnapshot "s" ++ recordSnapshot) ++ serves 2 [.ok,.ok]

/-- Whether the daemon stays up. -/
def staysUp : Action Arrival Choice Move → Bool
  | .reboot => false
  | _ => true

theorem running_of_staysUp {action : Action Arrival Choice Move} (up : staysUp action = true) : action ≠ .reboot := by
  rintro rfl
  cases up

theorem timeline_between_snapshot : ∃ (pool later : SPool) (response : Response),
    (server .plain).Reach (fun _ _ => True) ⟨World.initial defaultProject false,[]⟩ pool ∧
      pool.world.db.committed.snapshots = [] ∧ pool.world.db.committed.runOf .instances "i" = some "r" ∧
      (server .plain).Reach (fun _ action => action ≠ .reboot) (pool.arrived .plain askTimeline) later ∧
      later.answer pool.threads.length = some (askTimeline,response) ∧ response.code = 200 ∧
      response.obj.column "snapshots" "id" = ["s"] ∧ later.world.db.committed.runOf .snapshots "s" = some "r" ∧
      "i" ∈ response.obj.column "instances" "id" := by
  have seen : ((server .plain).run (fun _ _ => true) twoProjects ⟨World.initial defaultProject false,[]⟩).bind
      (fun pool : SPool => ((server .plain).run (fun _ action => staysUp action) snapshotBetween
        (pool.arrived .plain askTimeline)).bind fun later : SPool => (later.answer pool.threads.length).map fun answer =>
          (pool.world.db.committed.snapshots.length,pool.world.db.committed.runOf .instances "i",answer.2.code,
            answer.2.obj.column "snapshots" "id")) = some (0,some "r",200,["s"]) := by decide +kernel
  obtain ⟨pool,ran,onward⟩ := Option.bind_eq_some_iff.mp seen
  obtain ⟨later,ran',onward⟩ := Option.bind_eq_some_iff.mp onward
  obtain ⟨⟨h,response⟩,answer,same⟩ := Option.map_eq_some_iff.mp onward
  simp only [Prod.mk.injEq] at same
  obtain ⟨none,inside,code,ids⟩ := same
  have reached : (server .plain).Reach (fun _ _ => True) ⟨World.initial defaultProject false,[]⟩ pool :=
    Machine.reach_of_run _ (fun _ _ _ => trivial) ran
  have up := Machine.reach_of_run (server .plain) (fun (_ : SPool) _ => running_of_staysUp) ran'
  obtain ⟨program,found,_⟩ := ((Consulting.start (h := askTimeline) rfl reached).run up).reading
  have answered := SPool.answer_eq_some.mp answer
  cases found.symm.trans answered
  have path : segments askTimeline.path = ["v1","runs","r","timeline"] := by decide +kernel
  obtain ⟨⟨_,shown⟩,listed,_⟩ := timeline_between .plain defaultProject false (h := askTimeline) rfl path reached up
    answered code
  exact ⟨pool,later,response,reached,List.length_eq_zero_iff.mp none,inside,up,answer,code,ids,shown "s" (by simp [ids]),
    listed "i" inside⟩

end Klados
