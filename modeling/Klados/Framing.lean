import Klados.Basics
import Mathlib.Algebra.Group.Nat.Defs
import Mathlib.Data.FinEnum
import Mathlib.Data.List.TakeWhile

/-!
The framing of a request to the guest agent and of its reply. Each is one line of JSON; the host and the agent
have each its own read loop, which takes what arrives in segments and goes on with what has arrived when
the stream ends.
-/
namespace Klados.Framing

def newline : UInt8 := 10

/-- `text.encode()`. -/
def encode (text : String) : Bytes := text.toList.flatMap String.utf8EncodeChar

/-- A character of several bytes, with the number of those after the first. -/
def sequence (lead : UInt8) (rest : Bytes) : Option (Char × Nat) :=
  let n := if lead < 0xC0 then 0 else if lead < 0xE0 then 1 else if lead < 0xF0 then 2 else if lead < 0xF8 then 3 else 0
  let tail := rest.take n
  let least := if n = 1 then 0x80 else if n = 2 then 0x800 else 0x10000
  let code := tail.foldl (fun code b => code * 64 + b.toNat % 64) (lead.toNat % 2 ^ (6 - n))
  if n ≠ 0 ∧ tail.length = n ∧ (∀ b ∈ tail, 0x80 ≤ b ∧ b < 0xC0) ∧ least ≤ code ∧ code.isValidChar then some (Char.ofNat code,n)
  else none

/-- The characters of `data.decode("utf-8", "ignore")`: a byte that begins no character is left out. -/
def decode : Bytes → List Char
  | [] => []
  | lead :: rest =>
    if lead < 0x80 then Char.ofNat lead.toNat :: decode rest
    else
      match sequence lead rest with
      | some (c,n) => c :: decode (rest.drop n)
      | none => decode rest
termination_by bytes => bytes.length
decreasing_by all_goals simp; try omega

/-- `data.split(b"\n", 1)[0]`. -/
def firstLine (data : Bytes) : Bytes := data.takeWhile (· ≠ newline)

/-- The first line as a string. -/
def line (data : Bytes) : String := String.ofList (decode (firstLine data))

/-- One byte of `repr`, in these quotes. -/
def reprByte (quote b : UInt8) : List Char :=
  let backslash := Char.ofNat 92
  if b = quote ∨ b = 92 then [backslash,Char.ofNat b.toNat]
  else if b = 9 then [backslash,'t']
  else if b = 10 then [backslash,'n']
  else if b = 13 then [backslash,'r']
  else if 32 ≤ b ∧ b < 127 then [Char.ofNat b.toNat]
  else [backslash,'x',Nat.digitChar (b.toNat / 16),Nat.digitChar (b.toNat % 16)]

/-- `"%r" % data`. -/
def reprBytes (data : Bytes) : String :=
  let quote : UInt8 := if 39 ∈ data ∧ 34 ∉ data then 34 else 39
  String.ofList ('b' :: Char.ofNat quote.toNat :: data.flatMap (reprByte quote) ++ [Char.ofNat quote.toNat])

/-- `json.dumps` and `json.loads`. -/
structure JsonModule where
  dumps : Json → String
  loads : String → Except Exn Json

/-- `(json.dumps(value) + "\n").encode()`. -/
def message (J : JsonModule) (value : Json) : Bytes := encode (J.dumps value ++ "\n")

/-- What the calls of `recv` on a connection return, and what happens then: the stream ends, or `recv` raises. -/
structure Arrivals where
  segments : List Bytes
  fails : Option Exn

/-- `while b"\n" not in data`, with whether the stream has ended. -/
def recv_until (fails : Option Exn) (data : Bytes) : List Bytes → Except Exn (Bytes × Bool)
  | [] =>
    if newline ∈ data then .ok (data,false)
    else
      match fails with
      | some e => .error e
      | none => .ok (data,true)
  | chunk :: rest => if newline ∈ data then .ok (data,false) else recv_until fails (data ++ chunk) rest

/-- The acknowledgement of `CONNECT`. -/
def handshake (ack : Arrivals) : Except Exn Unit := do
  let (buf,ended) ← recv_until ack.fails [] ack.segments
  if ended then throw (.RuntimeError "vsock: no CONNECT ack (guest not listening on port?)")
  if ¬ (encode "OK").isPrefixOf buf then throw (.RuntimeError ("vsock CONNECT rejected: " ++ reprBytes buf))

/-- `s.sendall`, which may raise where the connection is broken. -/
def sendall (broken : Option Exn) : Except Exn Unit :=
  match broken with
  | some e => .error e
  | none => .ok ()

/-- `vsock_request`, from the first `recv`. -/
def vsock_request (J : JsonModule) (ack : Arrivals) (broken : Option Exn) (reply : Arrivals) : Except Exn Json := do
  handshake ack
  sendall broken
  let (resp,_) ← recv_until reply.fails [] reply.segments
  if (line resp).isEmpty then pure (.obj []) else J.loads (line resp)

/-- What `vsock_request` has sent of the payload. -/
def asked (J : JsonModule) (payload : Json) (ack : Arrivals) : Bytes :=
  match handshake ack with
  | .ok _ => message J payload
  | .error _ => []

/-- `{"status": "ERR"}`. -/
def noRequest : Json := .obj [("status",.str "ERR")]

/-- `{"status": "ERR", "msg": str(e)}`. -/
def failed (e : Exn) : Json := .obj [("status",.str "ERR"),("msg",.str e.str)]

/-- What a connection has come to in the agent: the request that was handled, and what was sent, one `sendall`
    after the other. -/
structure Served where
  handled : Option Json
  sent : List Bytes

/-- The part of a connection up to the reply: the request that was handled, and the reply. -/
def answer (J : JsonModule) (handle : Json → Except Exn Json) (request : Arrivals) : Option Json × Except Exn Json :=
  match recv_until request.fails [] request.segments with
  | .error e => (none,.error e)
  | .ok (data,_) =>
    if (line data).isEmpty then (none,.ok noRequest)
    else
      match J.loads (line data) with
      | .error e => (none,.error e)
      | .ok msg => (some msg,handle msg)

/-- One connection in the main loop of the agent. Where a `sendall` raises, its connection is broken; the reply to
    that is sent on the same connection. -/
def serve (J : JsonModule) (handle : Json → Except Exn Json) (request : Arrivals) (broken : Option Exn) : Served :=
  match answer J handle request with
  | (handled,.error e) => ⟨handled,[message J (failed e)]⟩
  | (handled,.ok resp) =>
    match sendall broken with
    | .ok _ => ⟨handled,[message J resp]⟩
    | .error e => ⟨handled,[message J resp,message J (failed e)]⟩

/-- What is decided outside: how the three streams are cut into segments and where they end, and whether the two
    sides notice when they send. -/
structure Exchange where
  ack : Arrivals
  request : Arrivals
  reply : Arrivals
  asking : Option Exn
  answering : Option Exn

/-- The acknowledgement. -/
def ackLine (port : Nat) : Bytes := encode ("OK " ++ toString port ++ "\n")

/-- The segments are of this size at most, and they are what was sent up to some point. -/
structure Arrives (size : Nat) (sent : Bytes) (arrivals : Arrivals) : Prop where
  sizes : ∀ segment ∈ arrivals.segments, segment ≠ [] ∧ segment.length ≤ size
  cut : arrivals.segments.flatten <+: sent

/-- What arrives is what the other side has sent. What is sent on a broken connection does not arrive. -/
structure Exchange.Fits (J : JsonModule) (handle : Json → Except Exn Json) (payload : Json) (port : Nat) (x : Exchange) : Prop where
  ack : Arrives 64 (ackLine port) x.ack
  request : Arrives 1024 (asked J payload x.ack) x.request
  reply : Arrives 1024 ((serve J handle x.request x.answering).sent.headD []) x.reply

/-- Nothing is cut off. -/
structure Exchange.Uncut (J : JsonModule) (handle : Json → Except Exn Json) (payload : Json) (port : Nat)
    (x : Exchange) : Prop where
  ack : x.ack.segments.flatten = ackLine port
  request : x.request.segments.flatten = message J payload
  reply : x.reply.segments.flatten = (serve J handle x.request x.answering).sent.headD []
  asking : x.asking = none
  answering : x.answering = none

/-- What is known of the `json` module for JSON objects: one line of ASCII is written, it is read back, and no
    proper prefix of it is accepted. The replies of the agent itself are JSON objects. -/
structure JsonModule.Faithful (J : JsonModule) (Object : Json → Prop) : Prop where
  ascii : ∀ value, Object value → ∀ c ∈ (J.dumps value).toList, c.toNat < 128 ∧ c ≠ '\n'
  inverts : ∀ value, Object value → J.loads (J.dumps value) = .ok value
  prefixes : ∀ value, Object value → ∀ text : String, text.toList <+: (J.dumps value).toList → text ≠ J.dumps value →
    ∃ e, J.loads text = .error e
  own : Object noRequest ∧ ∀ e, Object (failed e)

/-- The byte of an ASCII character. -/
def byte (c : Char) : UInt8 := UInt8.ofNat c.toNat

theorem byte_toNat {c : Char} (ascii : c.toNat < 128) : (byte c).toNat = c.toNat := by
  rw [byte,UInt8.toNat_ofNat']
  omega

theorem encodeChar_ascii {c : Char} (ascii : c.toNat < 128) : String.utf8EncodeChar c = [byte c] := by
  have small : c.val.toNat ≤ 0x7f := by
    have same : c.toNat = c.val.toNat := rfl
    omega
  unfold String.utf8EncodeChar
  rw [if_pos small]
  rfl

theorem encode_ascii {text : String} (ascii : ∀ c ∈ text.toList, c.toNat < 128) : encode text = text.toList.map byte := by
  rw [encode]
  generalize text.toList = chars at ascii
  induction chars with
  | nil => rfl
  | cons c rest ih =>
    rw [List.flatMap_cons,encodeChar_ascii (ascii c (List.mem_cons_self ..)),
      ih fun d inside => ascii d (List.mem_cons_of_mem _ inside)]
    rfl

theorem encode_append (first second : String) : encode (first ++ second) = encode first ++ encode second := by
  simp [encode]

theorem decode_ascii {chars : List Char} (ascii : ∀ c ∈ chars, c.toNat < 128) : decode (chars.map byte) = chars := by
  induction chars with
  | nil => simp [decode]
  | cons c rest ih =>
    have own := ascii c (List.mem_cons_self ..)
    have value := byte_toNat own
    have small : byte c < 0x80 := by
      rw [UInt8.lt_iff_toNat_lt,value]
      exact own
    rw [List.map_cons,decode,if_pos small,value,Char.ofNat_toNat,ih fun d inside => ascii d (List.mem_cons_of_mem _ inside)]

theorem byte_newline {c : Char} (ascii : c.toNat < 128) (other : c ≠ '\n') : byte c ≠ newline := by
  intro same
  have value := byte_toNat ascii
  rw [same] at value
  exact other (Char.toNat_inj.mp value.symm)

section
variable {J : JsonModule} {Object : Json → Prop} {value : Json} {fails : Option Exn} {data got sent : Bytes}
  {segments : List Bytes} {ended : Bool}

/-- The bytes of a JSON text. -/
def bytesOf (J : JsonModule) (value : Json) : Bytes := (J.dumps value).toList.map byte

theorem message_bytes (faithful : J.Faithful Object) (object : Object value) :
    message J value = bytesOf J value ++ [newline] ∧ newline ∉ bytesOf J value := by
  have ascii := faithful.ascii value object
  constructor
  · rw [message,encode_ascii]
    · simp [bytesOf,byte,newline]
    · intro c inside
      rw [String.toList_append,List.mem_append] at inside
      rcases inside with own | last
      · exact (ascii c own).1
      · obtain rfl : c = '\n' := by simpa using last
        decide
  · intro inside
    obtain ⟨c,own,same⟩ := List.mem_map.mp inside
    exact byte_newline (ascii c own).1 (ascii c own).2 same

/-- The first line of what arrives of a message is a prefix of the text, and the text where all has arrived. -/
theorem firstLine_message (faithful : J.Faithful Object) (object : Object value) (cut : data <+: message J value) :
    firstLine data <+: bytesOf J value ∧ (newline ∈ data → firstLine data = bytesOf J value) := by
  obtain ⟨whole,clean⟩ := message_bytes faithful object
  have all : ∀ b ∈ bytesOf J value, (b ≠ newline) := fun b inside same => clean (same ▸ inside)
  rw [whole] at cut
  rcases List.prefix_concat_iff.mp cut with rfl | part
  · have line : firstLine (bytesOf J value ++ [newline]) = bytesOf J value := by
      rw [firstLine,List.takeWhile_append_of_pos (by simpa using all)]
      simp
    rw [line]
    exact ⟨List.prefix_rfl,fun _ => rfl⟩
  · have line : firstLine data = data := by
      rw [firstLine,List.takeWhile_eq_self_iff]
      intro b inside
      simpa using all b (part.subset inside)
    rw [line]
    exact ⟨part,fun inside => absurd (part.subset inside) clean⟩

/-- A read loop returns a part of what arrives. -/
theorem recv_part (ran : recv_until fails data segments = .ok (got,ended)) : got <+: data ++ segments.flatten := by
  induction segments generalizing data with
  | nil =>
    simp only [recv_until] at ran
    split at ran
    · cases ran
      simp
    · split at ran <;> cases ran
      simp
  | cons chunk rest ih =>
    simp only [recv_until] at ran
    split at ran
    · cases ran
      exact List.prefix_append ..
    · simpa using ih ran

/-- A read loop reads a whole line when there is one, however it arrives. -/
theorem recv_line (fails : Option Exn) (there : newline ∈ data ++ segments.flatten) :
    ∃ got, recv_until fails data segments = .ok (got,false) ∧ newline ∈ got := by
  induction segments generalizing data with
  | nil =>
    have inside : newline ∈ data := by simpa using there
    exact ⟨data,by simp [recv_until,inside],inside⟩
  | cons chunk rest ih =>
    by_cases inside : newline ∈ data
    · exact ⟨data,by simp [recv_until,inside],inside⟩
    · have later : newline ∈ data ++ chunk ++ rest.flatten := by simpa using there
      obtain ⟨got,ran,found⟩ := ih later
      exact ⟨got,by rw [recv_until,if_neg inside,ran],found⟩

/-- What is read of a message is the text, or nothing that is accepted. -/
theorem received (faithful : J.Faithful Object) (object : Object value) (cut : segments.flatten <+: message J value)
    (ran : recv_until fails [] segments = .ok (got,ended)) :
    line got = J.dumps value ∨ ∃ e, J.loads (line got) = .error e := by
  have part := (firstLine_message faithful object ((recv_part ran).trans cut)).1
  obtain ⟨chars,within,same⟩ := List.prefix_map_iff.mp part
  have text : (line got).toList = chars := by
    rw [line,String.toList_ofList,same,decode_ascii]
    exact fun c inside => (faithful.ascii value object c (within.subset inside)).1
  by_cases whole : line got = J.dumps value
  · exact .inl whole
  · exact .inr (faithful.prefixes value object (line got) (text.symm ▸ within) whole)

/-- A message that arrives as a whole is read as a whole. -/
theorem received_whole (fails : Option Exn) (faithful : J.Faithful Object) (object : Object value)
    (whole : segments.flatten = message J value) :
    ∃ got, recv_until fails [] segments = .ok (got,false) ∧ line got = J.dumps value := by
  have ends : newline ∈ message J value := by
    rw [(message_bytes faithful object).1]
    simp
  have there : newline ∈ [] ++ segments.flatten := by simpa [whole] using ends
  obtain ⟨got,ran,found⟩ := recv_line fails there
  have cut : got <+: message J value := by simpa [whole] using recv_part ran
  refine ⟨got,ran,?_⟩
  rw [line,(firstLine_message faithful object cut).2 found,bytesOf,
    decode_ascii fun c inside => (faithful.ascii value object c inside).1,String.ofList_toList]

/-- The text of a JSON object is not empty: there are two, and one of their texts would begin with it. -/
theorem dumps_nonempty (faithful : J.Faithful Object) (object : Object value) : (J.dumps value).isEmpty = false := by
  rw [Bool.eq_false_iff]
  intro empty
  have nothing : J.dumps value = "" := String.isEmpty_iff.mp empty
  have reads : J.loads "" = .ok value := nothing ▸ faithful.inverts value object
  have same : ∀ other, Object other → other = value := by
    intro other object'
    by_cases also : J.dumps other = ""
    · have both := faithful.inverts other object'
      rw [also,reads] at both
      exact (Except.ok.inj both).symm
    · obtain ⟨e,rejected⟩ := faithful.prefixes other object' "" (by simp) (Ne.symm also)
      rw [reads] at rejected
      cases rejected
  have equal := (same _ faithful.own.1).trans (same _ (faithful.own.2 (.ValueError ""))).symm
  simp [noRequest,failed] at equal

/-! ## The agent -/

variable {handle : Json → Except Exn Json} {payload : Json} {request ack : Arrivals} {broken : Option Exn}

/-- Nothing is handled, or the payload is. -/
theorem answer_cases (faithful : J.Faithful Object) (object : Object payload)
    (cut : request.segments.flatten <+: message J payload) :
    ((answer J handle request).1 = none ∧
      ((answer J handle request).2 = .ok noRequest ∨ ∃ e, (answer J handle request).2 = .error e)) ∨
    answer J handle request = (some payload,handle payload) := by
  rw [answer]
  cases ran : recv_until request.fails [] request.segments with
  | error e => exact .inl ⟨rfl,.inr ⟨e,rfl⟩⟩
  | ok read =>
    obtain ⟨data,ended⟩ := read
    simp only
    rcases received faithful object cut ran with whole | ⟨e,rejected⟩
    · rw [whole,dumps_nonempty faithful object,faithful.inverts payload object]
      exact .inr rfl
    · rw [rejected]
      cases (line data).isEmpty with
      | true => exact .inl ⟨rfl,.inl rfl⟩
      | false => exact .inl ⟨rfl,.inr ⟨e,rfl⟩⟩

theorem answer_whole (faithful : J.Faithful Object) (object : Object payload)
    (whole : request.segments.flatten = message J payload) : answer J handle request = (some payload,handle payload) := by
  obtain ⟨data,ran,same⟩ := received_whole request.fails faithful object whole
  rw [answer,ran]
  simp only [same,dumps_nonempty faithful object,faithful.inverts payload object]
  rfl

/-- A reply of the agent itself. -/
def Err (reply : Json) : Prop := reply = noRequest ∨ ∃ e, reply = failed e

/-- The payload is handled or nothing is, and the first reply is what the handler has returned, or it is
    a reply of the agent itself. -/
theorem serve_cases (broken : Option Exn) (faithful : J.Faithful Object) (object : Object payload)
    (replies : ∀ resp, handle payload = .ok resp → Object resp) (cut : request.segments.flatten <+: message J payload) :
    ((serve J handle request broken).handled = none ∨ (serve J handle request broken).handled = some payload) ∧
    ∃ reply rest, (serve J handle request broken).sent = message J reply :: rest ∧ Object reply ∧
      ((serve J handle request broken).handled = some payload ∧ handle payload = .ok reply ∨
        Err reply ∧ ((serve J handle request broken).handled = none ∨ ∃ e, handle payload = .error e)) := by
  rw [serve]
  have which : _ ∨ answer J handle request = _ := answer_cases faithful object cut
  rcases which with ⟨none,own⟩ | handled
  · cases outcome : answer J handle request with
    | mk first second =>
      rw [outcome] at none own
      simp only at none own
      subst none
      rcases own with rfl | ⟨e,rfl⟩
      · cases broken with
        | none => exact ⟨.inl rfl,noRequest,[],rfl,faithful.own.1,.inr ⟨.inl rfl,.inl rfl⟩⟩
        | some e => exact ⟨.inl rfl,noRequest,_,rfl,faithful.own.1,.inr ⟨.inl rfl,.inl rfl⟩⟩
      · exact ⟨.inl rfl,failed e,[],rfl,faithful.own.2 e,.inr ⟨.inr ⟨e,rfl⟩,.inl rfl⟩⟩
  · rw [handled]
    cases result : handle payload with
    | error e => exact ⟨.inr rfl,failed e,[],rfl,faithful.own.2 e,.inr ⟨.inr ⟨e,rfl⟩,.inr ⟨e,rfl⟩⟩⟩
    | ok resp =>
      cases broken with
      | none => exact ⟨.inr rfl,resp,[],rfl,replies resp result,.inl ⟨rfl,rfl⟩⟩
      | some e => exact ⟨.inr rfl,resp,_,rfl,replies resp result,.inl ⟨rfl,rfl⟩⟩

theorem serve_whole {resp : Json} (faithful : J.Faithful Object) (object : Object payload)
    (whole : request.segments.flatten = message J payload) (returned : handle payload = .ok resp) :
    serve J handle request none = ⟨some payload,[message J resp]⟩ := by
  rw [serve,answer_whole faithful object whole,returned]
  rfl

/-- What the host returns is what the agent has sent first, or nothing. -/
theorem vsock_request_cases {reply : Arrivals} {sent resp : Json} (faithful : J.Faithful Object) (object : Object sent)
    (cut : reply.segments.flatten <+: message J sent) (ran : vsock_request J ack broken reply = .ok resp) :
    resp = sent ∨ resp = .obj [] := by
  rw [vsock_request] at ran
  cases acknowledged : handshake ack with
  | error e =>
    rw [acknowledged] at ran
    cases ran
  | ok done =>
    rw [acknowledged] at ran
    cases broken with
    | some e => cases ran
    | none =>
      cases read : recv_until reply.fails [] reply.segments with
      | error e =>
        rw [read] at ran
        cases ran
      | ok got =>
        obtain ⟨data,ended⟩ := got
        rw [read] at ran
        have result : (if (line data).isEmpty then .ok (.obj []) else J.loads (line data)) = Except.ok resp := ran
        split at result
        · cases result
          exact .inr rfl
        · rcases received faithful object cut read with whole | ⟨e,rejected⟩
          · rw [whole,faithful.inverts sent object] at result
            cases result
            exact .inl rfl
          · rw [rejected] at result
            cases result

theorem handshake_whole {port : Nat} (whole : ack.segments.flatten = ackLine port) : handshake ack = .ok () := by
  obtain ⟨digits,begins⟩ : ∃ digits, ackLine port = 79 :: 75 :: 32 :: (digits ++ [newline]) := by
    refine ⟨encode (toString port),?_⟩
    rw [ackLine,encode_append,encode_append]
    rfl
  have there : newline ∈ [] ++ ack.segments.flatten := by simp [whole,begins]
  obtain ⟨got,ran,found⟩ := recv_line ack.fails there
  have part : got <+: 79 :: 75 :: 32 :: (digits ++ [newline]) := by simpa [whole,begins] using recv_part ran
  have ok : (encode "OK").isPrefixOf got = true := by
    rw [List.isPrefixOf_iff_prefix]
    match got with
    | [] => cases found
    | [b] =>
      obtain rfl : b = 79 := (List.cons_prefix_cons.mp part).1
      simp [newline] at found
    | b :: b' :: rest =>
      obtain ⟨rfl,later⟩ := List.cons_prefix_cons.mp part
      obtain rfl : b' = 75 := (List.cons_prefix_cons.mp later).1
      exact List.prefix_append [79,75] rest
  rw [handshake,ran]
  simp only [bind,Except.bind,ok]
  rfl

theorem vsock_request_whole {reply : Arrivals} {sent : Json} (faithful : J.Faithful Object) (object : Object sent)
    (acknowledged : handshake ack = .ok ()) (whole : reply.segments.flatten = message J sent) :
    vsock_request J ack none reply = .ok sent := by
  obtain ⟨data,ran,same⟩ := received_whole reply.fails faithful object whole
  rw [vsock_request,acknowledged,ran]
  show (if (line data).isEmpty then .ok (.obj []) else J.loads (line data)) = _
  rw [same,dumps_nonempty faithful object,faithful.inverts sent object]
  rfl

end

/-- However the streams arrive and wherever they end, the agent handles the payload or nothing, and what the host
    returns is what the handler has returned, or a reply of the agent itself when nothing was handled or the
    handler has raised, or the empty dictionary. Where nothing is cut off and the handler returns, the host
    returns what the handler has returned. -/
theorem vsock_framing {J : JsonModule} {Object : Json → Prop} (faithful : J.Faithful Object)
    {handle : Json → Except Exn Json} {payload : Json} (object : Object payload)
    (replies : ∀ resp, handle payload = .ok resp → Object resp) {port : Nat} {x : Exchange}
    (fits : x.Fits J handle payload port) :
    ((serve J handle x.request x.answering).handled = none ∨ (serve J handle x.request x.answering).handled = some payload) ∧
    (∀ resp, vsock_request J x.ack x.asking x.reply = .ok resp →
      (serve J handle x.request x.answering).handled = some payload ∧ handle payload = .ok resp ∨
      Err resp ∧ ((serve J handle x.request x.answering).handled = none ∨ ∃ e, handle payload = .error e) ∨
      resp = .obj []) ∧
    (x.Uncut J handle payload port → ∀ resp, handle payload = .ok resp →
      (serve J handle x.request x.answering).handled = some payload ∧
      vsock_request J x.ack x.asking x.reply = .ok resp) := by
  have cut : x.request.segments.flatten <+: message J payload := by
    refine fits.request.cut.trans ?_
    rw [asked]
    split
    · exact List.prefix_rfl
    · exact List.nil_prefix
  obtain ⟨handled,reply,rest,sent,own,which⟩ := serve_cases x.answering faithful object replies cut
  have arrives : x.reply.segments.flatten <+: message J reply := by
    have part := fits.reply.cut
    rw [sent] at part
    exact part
  refine ⟨handled,fun resp ran => ?_,fun uncut resp returned => ?_⟩
  · rcases vsock_request_cases faithful own arrives ran with rfl | empty
    · exact which.imp_right .inl
    · exact .inr (.inr empty)
  · have served : serve J handle x.request x.answering = ⟨some payload,[message J resp]⟩ := by
      rw [uncut.answering]
      exact serve_whole faithful object uncut.request returned
    have whole : x.reply.segments.flatten = message J resp := by
      rw [uncut.reply,served]
      rfl
    refine ⟨by rw [served],?_⟩
    rw [uncut.asking]
    exact vsock_request_whole faithful (replies resp returned) (handshake_whole uncut.ack) whole

def PING : Json := .obj [("type",.str "PING")]
def PONG : Json := .obj [("status",.str "PONG")]

/-- What begins the text of a reply to an exception. -/
def opening : List Char := "\x7b\"status\": \"ERR\", \"msg\": \"".toList

/-- A character in ones, and a zero after it. -/
def unary (text : List Char) : List Char := text.flatMap fun c => List.replicate c.toNat '1' ++ ['0']

/-- The characters that are written so, up to the end of the object. -/
def readUnary (n : Nat) : List Char → Option (List Char)
  | [] => none
  | c :: rest =>
    if c = '1' then readUnary (n + 1) rest
    else if c = '0' then (readUnary 0 rest).map (Char.ofNat n :: ·)
    else if n = 0 ∧ c = '"' ∧ rest = [Char.ofNat 125] then some []
    else none

/-- The texts of the requests and replies here, where the message of an exception is in ones and zeros. -/
def smallJson : JsonModule where
  dumps
    | .obj [(key,.str value)] => "\x7b\"" ++ key ++ "\": \"" ++ value ++ "\"\x7d"
    | .obj [_,(_,.str msg)] => String.ofList (opening ++ unary msg.toList ++ "\"\x7d".toList)
    | _ => ""
  loads text :=
    if opening.isPrefixOf text.toList then
      match readUnary 0 (text.toList.drop opening.length) with
      | some msg => .ok (.obj [("status",.str "ERR"),("msg",.str (String.ofList msg))])
      | none => .error (.ValueError "Expecting value")
    else if text = "\x7b\"type\": \"PING\"\x7d" then .ok PING
    else if text = "\x7b\"status\": \"PONG\"\x7d" then .ok PONG
    else if text = "\x7b\"status\": \"ERR\"\x7d" then .ok noRequest
    else .error (.ValueError "Expecting value")

/-- The values that it writes. -/
def SmallObject (value : Json) : Prop := value = PING ∨ value = PONG ∨ value = noRequest ∨ ∃ e, value = failed e

theorem readUnary_ones (n k : Nat) (rest : List Char) : readUnary n (List.replicate k '1' ++ rest) = readUnary (n + k) rest := by
  induction k generalizing n with
  | zero => rfl
  | succ k ih =>
    rw [List.replicate_succ,List.cons_append,readUnary,if_pos rfl,ih]
    congr 1
    omega

theorem readUnary_unary (text : List Char) : readUnary 0 (unary text ++ "\"\x7d".toList) = some text := by
  induction text with
  | nil => decide
  | cons c rest ih =>
    have written : unary (c :: rest) ++ "\"\x7d".toList = List.replicate c.toNat '1' ++ '0' :: (unary rest ++ "\"\x7d".toList) := by
      simp [unary]
    rw [written,readUnary_ones,readUnary,if_neg (by decide),if_pos rfl,ih]
    simp

/-- What is read has a closing brace. -/
theorem readUnary_closes {n : Nat} {text chars : List Char} (read : readUnary n text = some chars) : Char.ofNat 125 ∈ text := by
  induction text generalizing n chars with
  | nil => cases read
  | cons c rest ih =>
    rw [readUnary] at read
    split at read
    · exact List.mem_cons_of_mem _ (ih read)
    · split at read
      · obtain ⟨inner,found,_⟩ := Option.map_eq_some_iff.mp read
        exact List.mem_cons_of_mem _ (ih found)
      · split at read
        · rename_i closes
          rw [closes.2.2]
          simp
        · cases read

theorem loads_closes {text : String} {value : Json} (read : smallJson.loads text = .ok value) : Char.ofNat 125 ∈ text.toList := by
  simp only [smallJson] at read
  split at read
  · split at read
    · rename_i found
      exact List.mem_of_mem_drop (readUnary_closes found)
    · cases read
  · split at read
    · rename_i same
      rw [same]
      decide
    · split at read
      · rename_i same
        rw [same]
        decide
      · split at read
        · rename_i same
          rw [same]
          decide
        · cases read

/-- A character before the closing brace, on the line. -/
def inLine (c : Char) : Bool := c.toNat < 125 && c ≠ '\n'

/-- Each text ends with a closing brace, and has no other. -/
theorem dumps_closes {value : Json} (object : SmallObject value) :
    ∃ body, (smallJson.dumps value).toList = body ++ [Char.ofNat 125] ∧ body.all inLine = true := by
  rcases object with rfl | rfl | rfl | ⟨e,rfl⟩
  · exact ⟨"\x7b\"type\": \"PING\"".toList,by decide,by decide⟩
  · exact ⟨"\x7b\"status\": \"PONG\"".toList,by decide,by decide⟩
  · exact ⟨"\x7b\"status\": \"ERR\"".toList,by decide,by decide⟩
  · refine ⟨opening ++ unary e.str.toList ++ ['"'],by simp [smallJson,failed],?_⟩
    have ones : (unary e.str.toList).all inLine = true := by
      rw [List.all_eq_true]
      intro c inside
      simp only [unary,List.mem_flatMap,List.mem_append,List.mem_replicate,List.mem_singleton] at inside
      rcases inside with ⟨_,_,⟨_,rfl⟩ | rfl⟩ <;> decide
    rw [List.all_append,List.all_append,ones]
    decide

theorem loads_opening {text : String} {msg : List Char} (begins : opening.isPrefixOf text.toList = true)
    (read : readUnary 0 (text.toList.drop opening.length) = some msg) :
    smallJson.loads text = .ok (.obj [("status",.str "ERR"),("msg",.str (String.ofList msg))]) := by
  simp only [smallJson]
  rw [if_pos begins,read]

theorem loads_dumps {value : Json} (object : SmallObject value) : smallJson.loads (smallJson.dumps value) = .ok value := by
  rcases object with rfl | rfl | rfl | ⟨e,rfl⟩
  · rfl
  · rfl
  · rfl
  · have text : (smallJson.dumps (failed e)).toList = opening ++ (unary e.str.toList ++ "\"\x7d".toList) := by
      simp [smallJson,failed]
    have begins : opening.isPrefixOf (smallJson.dumps (failed e)).toList = true := by
      rw [text,List.isPrefixOf_iff_prefix]
      exact List.prefix_append ..
    have rest : (smallJson.dumps (failed e)).toList.drop opening.length = unary e.str.toList ++ "\"\x7d".toList := by
      rw [text,List.drop_left]
    rw [loads_opening begins (rest ▸ readUnary_unary _),String.ofList_toList]
    rfl

theorem smallJson_faithful : smallJson.Faithful SmallObject where
  ascii value object c inside := by
    obtain ⟨body,text,small⟩ := dumps_closes object
    rw [text,List.mem_append] at inside
    rcases inside with own | last
    · have bounds : c.toNat < 125 ∧ c ≠ '\n' := by simpa [inLine] using List.all_eq_true.mp small c own
      exact ⟨by omega,bounds.2⟩
    · obtain rfl : c = Char.ofNat 125 := List.mem_singleton.mp last
      decide
  inverts value object := loads_dumps object
  prefixes value object text part differs := by
    obtain ⟨body,whole,small⟩ := dumps_closes object
    cases read : smallJson.loads text with
    | error e => exact ⟨e,rfl⟩
    | ok other =>
      -- What is accepted ends with the brace, and only the whole text has it.
      have closes := loads_closes read
      rw [whole] at part
      rcases List.prefix_concat_iff.mp part with same | within
      · exact absurd (String.toList_inj.mp (same.trans whole.symm)) differs
      · exact absurd (List.all_eq_true.mp small _ (within.subset closes)) (by decide)
  own := ⟨.inr (.inr (.inl rfl)),fun e => .inr (.inr (.inr ⟨e,rfl⟩))⟩

/-- The agent answers a PING. -/
def pong (msg : Json) : Except Exn Json := if msg.isDict then .ok PONG else .error (.ValueError "no request")

/-- A PING that arrives in two segments, and the reply in one. -/
def ping : Exchange where
  ack := ⟨[ackLine 7],none⟩
  request := ⟨[(message smallJson PING).take 5,(message smallJson PING).drop 5],none⟩
  reply := ⟨[message smallJson PONG],none⟩
  asking := none
  answering := none

theorem ping_served : serve smallJson pong ping.request ping.answering = ⟨some PING,[message smallJson PONG]⟩ :=
  serve_whole smallJson_faithful (.inl rfl) (by simp [ping]) rfl

theorem ping_fits : ping.Fits smallJson pong PING 7 where
  ack := ⟨by decide,by simp [ping]⟩
  request := by
    have whole : ping.ack.segments.flatten = ackLine 7 := by simp [ping]
    have acknowledged := handshake_whole whole
    refine ⟨by decide,?_⟩
    rw [asked,acknowledged]
    simp [ping]
  reply := by
    rw [ping_served]
    exact ⟨by decide,by simp [ping]⟩

theorem vsock_framing_ping : (serve smallJson pong ping.request ping.answering).handled = some PING ∧
    vsock_request smallJson ping.ack ping.asking ping.reply = .ok PONG := by
  have uncut : ping.Uncut smallJson pong PING 7 := ⟨by simp [ping],by simp [ping],by rw [ping_served]; simp [ping],rfl,rfl⟩
  have replies : ∀ resp, pong PING = .ok resp → SmallObject resp := by
    rintro resp ⟨⟩
    exact .inr (.inl rfl)
  exact (vsock_framing smallJson_faithful (.inl rfl) replies ping_fits).2.2 uncut PONG rfl

end Klados.Framing
