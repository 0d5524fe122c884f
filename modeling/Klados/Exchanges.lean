import Klados.Framing
import Klados.Moves

/-!
The requests of the daemon, byte by byte. The daemon calls `vsock_request` as two calls, and the agent takes up a
line; `Klados.Framing` has the streams below them. What the streams come to is what these calls may come to.
-/
namespace Klados.Exchanges
open Effects
open Framing (JsonModule Arrivals Exchange recv_until line answer failed noRequest)

section
variable {S : Sig} {ε α W : Type} {drift : W → W → Prop} {step : (op : S.Op) → W → Except ε (S.Res op) → W → Prop}

/-- A program whose exceptions become values: it returns what the program returned, or what is made of the exception. -/
theorem recovered {f : ε → α} {program : Prog S ε α} {w v : W} {outcome : Except ε α}
    (ran : Runs drift step (program.catching fun e => .ret (f e)) w outcome v) :
    ∃ r, Runs drift step program w r v ∧ outcome = .ok (match r with
      | .ok value => value
      | .error e => f e) := by
  induction program generalizing w with
  | ret value =>
    cases ran with
    | ret moved => exact ⟨.ok value,.ret moved,rfl⟩
  | raise error =>
    cases ran with
    | ret moved => exact ⟨.error error,.raise moved,rfl⟩
  | call op next ih =>
    cases ran with
    | call moved stepped later =>
      obtain ⟨r,inside,same⟩ := ih _ later
      exact ⟨r,.call moved stepped inside,same⟩

end

/-- The line that the read loop of the agent makes of what arrives. -/
def heard (J : JsonModule) (request : Arrivals) : Agent.Line :=
  match recv_until request.fails [] request.segments with
  | .error e => .malformed e
  | .ok (data,_) =>
    if (line data).isEmpty then .empty
    else
      match J.loads (line data) with
      | .error e => .malformed e
      | .ok msg => .json msg

section
variable {P : Platform} {J : JsonModule} {handle : Json → Except Exn Json} {request : Arrivals}

/-- What is replied to a line. -/
def reply (handle : Json → Except Exn Json) : Agent.Line → Json
  | .empty => noRequest
  | .malformed e => failed e
  | .json msg =>
    match handle msg with
    | .ok resp => resp
    | .error e => failed e

theorem answer_heard (J : JsonModule) (handle : Json → Except Exn Json) (request : Arrivals) :
    answer J handle request = match heard J request with
      | .empty => (none,.ok noRequest)
      | .malformed e => (none,.error e)
      | .json msg => (some msg,handle msg) := by
  unfold answer heard
  cases recv_until request.fails [] request.segments with
  | error e => rfl
  | ok found =>
    obtain ⟨data,ended⟩ := found
    by_cases empty : (line data).isEmpty = true
    · simp [empty]
    · cases loaded : J.loads (line data) with
      | error e => simp [empty,loaded]
      | ok msg => simp [empty,loaded]

/-- What is sent first on a connection is the reply to the line. -/
theorem sent_heard (J : JsonModule) (handle : Json → Except Exn Json) (request : Arrivals) (broken : Option Exn) :
    (Framing.serve J handle request broken).sent.head? = some (Framing.message J (reply handle (heard J request))) := by
  unfold Framing.serve
  rw [answer_heard]
  cases heard J request with
  | empty => cases broken <;> rfl
  | malformed e => rfl
  | json msg =>
    simp only [reply]
    cases handle msg with
    | error e => rfl
    | ok resp => cases broken <;> rfl

/-- A turn of the agent replies what `Klados.Framing.serve` sends, when the handler comes to what it says there. -/
theorem agent_serves {drift : Agent.Guest → Agent.Guest → Prop}
    {step : (op : Agent.Op) → Agent.Guest → Except Exn op.Res → Agent.Guest → Prop} {g g' : Agent.Guest}
    {outcome : Except Exn Json} (ran : Runs drift step (Agent.serve P (heard J request)) g outcome g')
    (handles : ∀ msg r, heard J request = .json msg → Runs drift step (Agent.handle P msg) g r g' → handle msg = r)
    (broken : Option Exn) : ∃ resp, outcome = .ok resp ∧
      (Framing.serve J handle request broken).sent.head? = some (Framing.message J resp) := by
  refine ⟨reply handle (heard J request),?_,sent_heard J handle request broken⟩
  obtain ⟨r,inside,rfl⟩ := recovered ran
  generalize heard J request = given at inside handles
  cases given with
  | empty =>
    cases inside
    rfl
  | malformed e =>
    cases inside
    rfl
  | json msg =>
    rw [reply,handles msg r rfl inside]
    cases r <;> rfl

end

section
variable {P : Platform} {J : JsonModule} {Object : Json → Prop} {handle : Json → Except Exn Json} {payload : Json} {port : Nat}
  {x : Exchange} {t : Nat} {drift : World → World → Prop} {iid : Id} {vm : Vm} {w u v : World}

/-- What arrives of the request is a part of it. -/
theorem request_part (fits : x.Fits J handle payload port) : x.request.segments.flatten <+: Framing.message J payload := by
  refine fits.request.cut.trans ?_
  rw [Framing.asked]
  split
  · exact List.prefix_rfl
  · exact List.nil_prefix

/-- The line that is heard is the payload, or no message. -/
theorem heard_payload (faithful : J.Faithful Object) (object : Object payload) (fits : x.Fits J handle payload port)
    {msg : Json} (given : heard J x.request = .json msg) : msg = payload := by
  have answered : (answer J handle x.request).1 = some msg := by rw [answer_heard,given]
  obtain ⟨none,_⟩ | whole := Framing.answer_cases faithful object (request_part fits)
  · rw [none] at answered
    cases answered
  · rw [whole] at answered
    exact (Option.some.inj answered).symm

/-- What the host returns is the reply to the line, or nothing. -/
theorem returned_reply (faithful : J.Faithful Object) (object : Object payload)
    (replies : ∀ resp, handle payload = .ok resp → Object resp) (fits : x.Fits J handle payload port) {resp : Json}
    (returned : Framing.vsock_request J x.ack x.asking x.reply = .ok resp) :
    resp = reply handle (heard J x.request) ∨ resp = .obj [] := by
  have own : Object (reply handle (heard J x.request)) := by
    cases given : heard J x.request with
    | empty => exact faithful.own.1
    | malformed e => exact faithful.own.2 e
    | json msg =>
      obtain rfl := heard_payload faithful object fits given
      cases came : handle msg with
      | ok resp => simpa [reply,came] using replies resp came
      | error e => simpa [reply,came] using faithful.own.2 e
  refine Framing.vsock_request_cases faithful own ?_ returned
  have part := fits.reply.cut
  rwa [List.headD_eq_head?_getD,sent_heard] at part

/-- The daemon is connected, and the guest was given the line, if it hears the payload. -/
def Connected (J : JsonModule) (x : Exchange) (payload : Json) (iid : Id) (vm : Vm) (u : World) : Prop :=
  heard J x.request = .json payload → ∃ vm', u.hyp.vm iid = some vm' ∧
    vm'.guest.inbox = vm.guest.inbox ++ [(vm.guest.nextConn,.json payload)]

/-- The agent has replied on this connection. -/
def Replied (iid : Id) (conn : Nat) (reply : Json) (v : World) : Prop :=
  ∃ vm', v.hyp.vm iid = some vm' ∧ vm'.guest.replies.find? (·.1 = conn) = some (conn,reply)

theorem connect_ok (J : JsonModule) (x : Exchange) (payload : Json) (here : w.hyp.vm iid = some vm)
    (running : vm.phase = .running) (up : vm.guest.up = true) :
    ∃ u, exec P t (.vm (.connect iid (.json payload))) .ok w = some (.ok vm.guest.nextConn,u) ∧
      Connected J x payload iid vm u := by
  let guest : Agent.Guest := { vm.guest with
    inbox := vm.guest.inbox ++ [(vm.guest.nextConn,.json payload)], nextConn := vm.guest.nextConn + 1 }
  refine ⟨{ w with hyp := w.hyp.set iid { vm with guest } },?_,fun _ => ⟨_,Hypervisor.set_self _ _ _,rfl⟩⟩
  simp [exec,vmExec,here,running,up,guest]

theorem connect_lost (here : w.hyp.vm iid = some vm) (unheard : heard J x.request ≠ .json payload) :
    ∃ u, exec P t (.vm (.connect iid (.json payload))) .lost w = some (.ok vm.guest.nextConn,u) ∧
      Connected J x payload iid vm u := by
  let guest : Agent.Guest := { vm.guest with nextConn := vm.guest.nextConn + 1 }
  refine ⟨{ w with hyp := w.hyp.set iid { vm with guest } },?_,fun given => absurd given unheard⟩
  simp [exec,vmExec,here,guest]

theorem receive_ok {conn : Nat} {reply : Json} (replied : Replied iid conn reply v) :
    exec P t (.vm (.receive iid conn)) .ok v = some (.ok reply,v) := by
  obtain ⟨vm',here,found⟩ := replied
  simp [exec,vmExec,here,found]

/-- A request whose calls turn out so. -/
theorem vsock_request_runs {connected : Nat} {result : Except Exn Json} (still : drift w w) (calm : drift v v)
    (connect : ∃ choice, exec P t (.vm (.connect iid (.json payload))) choice w = some (.ok connected,u))
    (meanwhile : drift u v) (receive : ∃ choice, exec P t (.vm (.receive iid connected)) choice v = some (result,v)) :
    Runs drift (fun op w outcome v => ∃ choice, exec P t op choice w = some (outcome,v))
      (vsock_request iid payload) w result v := by
  refine .call still connect (.call meanwhile receive ?_)
  cases result with
  | ok resp => exact .ret calm
  | error e => exact .raise calm

/-- Where nothing arrives of a reply, nothing is returned. -/
theorem returned_nothing (silent : x.reply.segments = []) {resp : Json}
    (returned : Framing.vsock_request J x.ack x.asking x.reply = .ok resp) : resp = .obj [] := by
  rw [Framing.vsock_request,silent] at returned
  cases acknowledged : Framing.handshake x.ack with
  | error e =>
    rw [acknowledged] at returned
    cases returned
  | ok done =>
    rw [acknowledged] at returned
    cases asked : x.asking with
    | some e =>
      rw [asked] at returned
      cases returned
    | none =>
      rw [asked] at returned
      cases failing : x.reply.fails with
      | some e =>
        rw [failing] at returned
        cases returned
      | none =>
        rw [failing] at returned
        have empty : (line []).isEmpty = true := by simp [line,Framing.firstLine,Framing.decode]
        have result : (if (line []).isEmpty then .ok (.obj []) else J.loads (line [])) = Except.ok resp := returned
        rw [if_pos empty] at result
        exact (Except.ok.inj result).symm

/-- What the streams of a request come to, the two calls of the daemon may come to, with the line given to the guest
    that the agent hears, and whatever goes on until the reply. The one reply that they do not have is an ERR of the
    agent to a request that was cut short. -/
theorem exchange_runs (faithful : J.Faithful Object) (object : Object payload)
    (replies : ∀ resp, handle payload = .ok resp → Object resp) (fits : x.Fits J handle payload port)
    (here : w.hyp.vm iid = some vm) (running : vm.phase = .running) (up : vm.guest.up = true) (still : ∀ w, drift w w)
    (whole : heard J x.request = .json payload ∨ x.reply.segments = []) :
    ∃ u, Connected J x payload iid vm u ∧ ∀ v, drift u v →
      (heard J x.request = .json payload →
        Replied iid vm.guest.nextConn (reply handle (.json payload)) v) →
      Runs drift (fun op w outcome v => ∃ choice, exec P t op choice w = some (outcome,v)) (vsock_request iid payload) w
        (Framing.vsock_request J x.ack x.asking x.reply) v := by
  by_cases given : heard J x.request = .json payload
  · obtain ⟨u,ran,connected⟩ := connect_ok J x payload here running up
    refine ⟨u,connected,fun v meanwhile replied => vsock_request_runs (still w) (still v) ⟨_,ran⟩ meanwhile ?_⟩
    cases came : Framing.vsock_request J x.ack x.asking x.reply with
    | error e => exact ⟨.fail e,rfl⟩
    | ok resp =>
      rcases returned_reply faithful object replies fits came with same | rfl
      · rw [same,given]
        exact ⟨.ok,receive_ok (replied given)⟩
      · exact ⟨.eof,rfl⟩
  · obtain ⟨u,ran,connected⟩ := connect_lost here given
    refine ⟨u,connected,fun v meanwhile _ => vsock_request_runs (still w) (still v) ⟨_,ran⟩ meanwhile ?_⟩
    cases came : Framing.vsock_request J x.ack x.asking x.reply with
    | error e => exact ⟨.fail e,rfl⟩
    | ok resp =>
      obtain rfl := returned_nothing (whole.resolve_left given) came
      exact ⟨.eof,rfl⟩

end

end Klados.Exchanges
