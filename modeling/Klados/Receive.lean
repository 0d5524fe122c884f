import Klados.WebSocket
import Mathlib.Data.List.Infix

/-!
What the WebSocket client receives. The constructor reads up to the blank line that ends the response header and
`recv` reads frame after frame, both from one stream that arrives in segments. What the constructor takes beyond the
header in its last read is lost (`header_left`), and at a stream that is closed in the header it reads on for ever
(`header_none`).
-/
namespace Klados.WebSocket
open Frames Framing

/-- What still arrives, in its segments; then the stream is closed. -/
structure Socket where
  segments : List Bytes
  filled : ∀ segment ∈ segments, segment ≠ []

def Socket.stream (socket : Socket) : Bytes := socket.segments.flatten

/-- `s.recv(k)`: at most `k` bytes of the first segment, whose other bytes stay; nothing at the end. -/
def Socket.recv (socket : Socket) (k : Nat) : Bytes × Socket :=
  match socket with
  | ⟨[],filled⟩ => ([],⟨[],filled⟩)
  | ⟨segment :: rest,filled⟩ =>
    have others : ∀ other ∈ rest, other ≠ [] := fun other member => filled other (List.mem_cons_of_mem _ member)
    if more : k < segment.length then
      (segment.take k,⟨segment.drop k :: rest,List.forall_mem_cons.mpr ⟨by simpa using more,others⟩⟩)
    else (segment,⟨rest,others⟩)

/-- What `recv` raises: its own error, or what `json.loads` raised. -/
inductive Failure
  | ConnectionError (msg : String)
  | loads (e : Exn)

/-- `b"\r\n\r\n"`. -/
def blank : Bytes := [13,10,13,10]

/-- `while b"\r\n\r\n" not in buf`, of `__init__`, for `fuel` rounds; `none` when it has not ended by then. -/
def header (fuel : Nat) (buf : Bytes) (socket : Socket) : Option Socket :=
  if blank <:+: buf then some socket
  else
    match fuel with
    | 0 => none
    | fuel + 1 => header fuel (buf ++ (socket.recv 4096).1) (socket.recv 4096).2

/-- Calls on a socket that may raise; what was read stays read. -/
abbrev Call := ExceptT Failure (StateM Socket)

/-- `while len(d) < n`, of `_read`. -/
def readMore (n : Nat) (d : Bytes) (socket : Socket) : Except Failure Bytes × Socket :=
  if d.length < n then
    if _ended : (socket.recv (n - d.length)).1 = [] then (.error (.ConnectionError "ws closed"),(socket.recv (n - d.length)).2)
    else readMore n (d ++ (socket.recv (n - d.length)).1) (socket.recv (n - d.length)).2
  else (.ok d,socket)
termination_by n - d.length
decreasing_by
  have filled := List.length_pos_iff.mpr _ended
  rw [List.length_append]
  omega

def _read (n : Nat) : Call Bytes := fun socket => readMore n [] socket

/-- The length of a payload, by the second byte. -/
def readLength (b1 : UInt8) : Call Nat :=
  if b1 &&& 0x7f = 126 then do pure (unpack (← _read 2))
  else if b1 &&& 0x7f = 127 then do pure (unpack (← _read 8))
  else pure (b1 &&& 0x7f).toNat

/-- `recv`, with `json.loads` on bytes. -/
def recv (loads : Bytes → Except Exn Json) : Call (Option Json) := do
  let b0 := (← _read 1).headD 0
  let b1 := (← _read 1).headD 0
  let ln ← readLength b1
  let payload ← _read ln
  if b0 &&& 0x0f ≠ 1 ∧ b0 &&& 0x0f ≠ 2 then return none
  else
    match loads payload with
    | .ok v => return some v
    | .error e => throw (.loads e)

/-- What one call of `recv` after the other gives. -/
def receives (loads : Bytes → Except Exn Json) : Nat → Socket → List (Except Failure (Option Json))
  | 0, _ => []
  | n + 1, socket => ((recv loads).run socket).1 :: receives loads n ((recv loads).run socket).2

/-- What is to be given for a frame: the value of a text or binary payload, and nothing for another opcode. -/
def value (loads : Bytes → Except Exn Json) (opcode : Nat) (payload : Bytes) : Except Failure (Option Json) :=
  if opcode = 1 ∨ opcode = 2 then (loads payload).map some |>.mapError .loads else .ok none

/-- A response header: the first blank line ends it. -/
def Header (head : Bytes) : Prop := blank <:+ head ∧ ¬ blank <:+: head.dropLast

/-- The constructor returns, and the calls of `recv` after it give what the frames carry, in order. -/
def Delivered (loads : Bytes → Except Exn Json) (socket : Socket) (all : List Frame) : Prop :=
  ∃ fuel after, header fuel [] socket = some after ∧
    receives loads all.length after = all.map fun frame => value loads frame.opcode frame.payload

/-- The constructor returns, and one of the calls of `recv` after it raises. -/
def Stops (loads : Bytes → Except Exn Json) (socket : Socket) : Prop :=
  ∃ fuel after, header fuel [] socket = some after ∧ ∃ n e, .error e ∈ receives loads n after

/-- How many bytes beyond the `n`-th are in the same read as it, the reads taking at most 4096 bytes of a segment. -/
def spill (n : Nat) : List Bytes → Nat
  | [] => 0
  | segment :: rest =>
    if segment.length < n then spill (n - segment.length) rest
    else min segment.length ((n + 4095) / 4096 * 4096) - n

/-- A frame off the front of a stream by its layout, its mask bit apart: its opcode, its payload and the rest. -/
def next : Bytes → Option (Nat × Bytes × Bytes)
  | b0 :: b1 :: rest => do
    let code := b1.toNat % 128
    let (extended,rest) ← split (Form.announced code).width rest
    let (payload,rest) ← split ((Form.announced code).length code extended) rest
    some (b0.toNat % 16,payload,rest)
  | _ => none

/-- A stream begins with frames that carry these values. -/
def Gives (loads : Bytes → Except Exn Json) : List (Except Failure (Option Json)) → Bytes → Prop
  | [], _ => True
  | v :: more, bytes => ∃ opcode payload rest, next bytes = some (opcode,payload,rest) ∧ value loads opcode payload = v ∧
      Gives loads more rest

section
variable {loads : Bytes → Except Exn Json} {socket : Socket} {k n : Nat}

theorem recv_stream (socket : Socket) (k : Nat) : (socket.recv k).1 ++ (socket.recv k).2.stream = socket.stream := by
  obtain ⟨_ | ⟨segment,rest⟩,filled⟩ := socket
  · rfl
  · unfold Socket.recv
    split
    · rename_i shape
      cases shape
    · rename_i shape
      cases shape
      split
      · simp [Socket.stream,← List.append_assoc]
      · rfl

theorem recv_length_le (socket : Socket) (k : Nat) : (socket.recv k).1.length ≤ k := by
  obtain ⟨_ | ⟨segment,rest⟩,filled⟩ := socket
  · exact Nat.zero_le _
  · unfold Socket.recv
    split
    · exact Nat.zero_le _
    · rename_i shape
      cases shape
      split
      · exact List.length_take_le ..
      · dsimp only
        omega

theorem recv_ne_nil (positive : 0 < k) (more : socket.stream ≠ []) : (socket.recv k).1 ≠ [] := by
  obtain ⟨_ | ⟨segment,rest⟩,filled⟩ := socket
  · exact absurd rfl more
  · have some := filled segment (List.mem_cons_self ..)
    have size := List.length_pos_iff.mpr some
    unfold Socket.recv
    split
    · rename_i shape
      cases shape
    · rename_i shape
      cases shape
      split
      · apply List.length_pos_iff.mp
        simp
        omega
      · exact some

/-- `_read` takes `n` bytes off the stream, in however many segments they come. -/
theorem readMore_ok {d : Bytes} (enough : n ≤ d.length + socket.stream.length) (bound : d.length ≤ n) :
    ∃ after, readMore n d socket = (.ok (d ++ socket.stream.take (n - d.length)),after) ∧
      after.stream = socket.stream.drop (n - d.length) := by
  fun_induction readMore n d socket with
  | case1 d socket short ended =>
    have more : socket.stream ≠ [] := by
      apply List.length_pos_iff.mp
      omega
    exact absurd ended (recv_ne_nil (by omega) more)
  | case2 d socket short ended ih =>
    have parts := recv_stream socket (n - d.length)
    have size := recv_length_le socket (n - d.length)
    have total := congrArg List.length parts
    rw [List.length_append] at total
    obtain ⟨after,ran,left⟩ := ih (by rw [List.length_append]; omega) (by rw [List.length_append]; omega)
    have less : n - d.length - (socket.recv (n - d.length)).1.length = n - (d ++ (socket.recv (n - d.length)).1).length := by
      rw [List.length_append]
      omega
    refine ⟨after,?_,?_⟩
    · rw [ran,← parts,List.take_append,List.take_of_length_le size,less,List.append_assoc]
    · rw [left,← parts,List.drop_append,List.drop_of_length_le size,less,List.nil_append]
  | case3 d socket full =>
    have zero : n - d.length = 0 := by omega
    exact ⟨socket,by simp [zero],by simp [zero]⟩

/-- Where the stream has fewer bytes, `_read` takes them all and raises. -/
theorem readMore_closed {d : Bytes} (short : d.length + socket.stream.length < n) :
    ∃ after, readMore n d socket = (.error (.ConnectionError "ws closed"),after) ∧ after.stream = [] := by
  fun_induction readMore n d socket with
  | case1 d socket less ended =>
    refine ⟨_,rfl,?_⟩
    have parts := recv_stream socket (n - d.length)
    rw [ended,List.nil_append] at parts
    rw [parts]
    by_contra more
    exact recv_ne_nil (by omega) more ended
  | case2 d socket less ended ih =>
    have total := congrArg List.length (recv_stream socket (n - d.length))
    rw [List.length_append] at total
    exact ih (by rw [List.length_append]; omega)
  | case3 d socket full => omega

theorem _read_ok (enough : n ≤ socket.stream.length) :
    ∃ after, _read n socket = (.ok (socket.stream.take n),after) ∧ after.stream = socket.stream.drop n := by
  simpa [_read] using readMore_ok (d := []) (by simpa using enough) (Nat.zero_le n)

theorem _read_closed (short : socket.stream.length < n) :
    ∃ after, _read n socket = (.error (.ConnectionError "ws closed"),after) ∧ after.stream = [] :=
  readMore_closed (d := []) (by simpa using short)

/-- `_read` is `split` on the stream. -/
theorem _read_split {front rest : Bytes} (cut : split n socket.stream = some (front,rest)) :
    ∃ after, _read n socket = (.ok front,after) ∧ after.stream = rest := by
  obtain ⟨size,whole⟩ := split_some cut
  have enough : n ≤ socket.stream.length := by
    rw [← whole,List.length_append]
    omega
  obtain ⟨after,ran,left⟩ := _read_ok enough
  rw [← whole,List.take_left' size] at ran
  rw [← whole,List.drop_left' size] at left
  exact ⟨after,ran,left⟩

theorem _read_split_none (cut : split n socket.stream = none) :
    ∃ after, _read n socket = (.error (.ConnectionError "ws closed"),after) ∧ after.stream = [] := by
  apply _read_closed
  unfold split at cut
  split at cut
  · cases cut
  · omega

theorem bind_ok {α β : Type} {x : Call α} {f : α → Call β} {a : α} {after : Socket} (ran : x socket = (.ok a,after)) :
    (x >>= f) socket = f a after := by
  simp only [bind,ExceptT.bind,ExceptT.mk,StateT.bind,ran]
  rfl

theorem bind_error {α β : Type} {x : Call α} {f : α → Call β} {e : Failure} {after : Socket}
    (ran : x socket = (.error e,after)) : (x >>= f) socket = (.error e,after) := by
  simp only [bind,ExceptT.bind,ExceptT.mk,StateT.bind,ran]
  rfl

theorem seven_bits (b : UInt8) : (b &&& 0x7f).toNat = b.toNat % 128 := by
  rw [UInt8.toNat_and]
  exact Nat.and_two_pow_sub_one_eq_mod b.toNat 7

theorem four_bits (b : UInt8) : (b &&& 0x0f).toNat = b.toNat % 16 := by
  rw [UInt8.toNat_and]
  exact Nat.and_two_pow_sub_one_eq_mod b.toNat 4

/-- A byte off the stream. -/
theorem _read_one {b : UInt8} {rest : Bytes} (shape : socket.stream = b :: rest) :
    ∃ after, _read 1 socket = (.ok [b],after) ∧ after.stream = rest :=
  _read_split (by simp [split,shape])

/-- Which bytes the length is read from, by the three cases of the second byte. -/
theorem readLength_cases (b1 : UInt8) :
    (b1.toNat % 128 < 126 ∧ readLength b1 = pure (b1.toNat % 128)) ∨
      (b1.toNat % 128 = 126 ∧ readLength b1 = do pure (unpack (← _read 2))) ∨
      (b1.toNat % 128 = 127 ∧ readLength b1 = do pure (unpack (← _read 8))) := by
  have bits := seven_bits b1
  unfold readLength
  by_cases medium : b1 &&& 0x7f = 126
  · have code : b1.toNat % 128 = 126 := by rw [← bits,medium]; rfl
    exact .inr (.inl ⟨code,if_pos medium⟩)
  · by_cases long : b1 &&& 0x7f = 127
    · have code : b1.toNat % 128 = 127 := by rw [← bits,long]; rfl
      exact .inr (.inr ⟨code,by rw [if_neg medium,if_pos long]⟩)
    · have other : (b1 &&& 0x7f).toNat ≠ 126 := fun same => medium (UInt8.toNat_inj.mp same)
      have another : (b1 &&& 0x7f).toNat ≠ 127 := fun same => long (UInt8.toNat_inj.mp same)
      exact .inl ⟨by omega,by rw [if_neg medium,if_neg long,bits]⟩

theorem readLength_ok {b1 : UInt8} {extended rest : Bytes}
    (cut : split (Form.announced (b1.toNat % 128)).width socket.stream = some (extended,rest)) :
    ∃ after, readLength b1 socket = (.ok ((Form.announced (b1.toNat % 128)).length (b1.toNat % 128) extended),after) ∧
      after.stream = rest := by
  obtain ⟨code,reads⟩ | ⟨code,reads⟩ | ⟨code,reads⟩ := readLength_cases b1
  · have short : Form.announced (b1.toNat % 128) = .short := if_pos code
    rw [short] at cut ⊢
    obtain ⟨size,whole⟩ := split_some cut
    have empty : extended = [] := List.length_eq_zero_iff.mp size
    rw [empty] at whole
    exact ⟨socket,by rw [reads]; rfl,whole.symm⟩
  · rw [code] at cut ⊢
    obtain ⟨after,ran,left⟩ := _read_split cut
    rw [reads]
    exact ⟨after,bind_ok ran,left⟩
  · rw [code] at cut ⊢
    obtain ⟨after,ran,left⟩ := _read_split cut
    rw [reads]
    exact ⟨after,bind_ok ran,left⟩

theorem readLength_closed {b1 : UInt8} (cut : split (Form.announced (b1.toNat % 128)).width socket.stream = none) :
    ∃ after, readLength b1 socket = (.error (.ConnectionError "ws closed"),after) ∧ after.stream = [] := by
  obtain ⟨code,_⟩ | ⟨code,reads⟩ | ⟨code,reads⟩ := readLength_cases b1
  · have short : Form.announced (b1.toNat % 128) = .short := if_pos code
    rw [short] at cut
    simp [split,Form.width] at cut
  · rw [code] at cut
    obtain ⟨after,ran,left⟩ := _read_split_none cut
    rw [reads]
    exact ⟨after,bind_error ran,left⟩
  · rw [code] at cut
    obtain ⟨after,ran,left⟩ := _read_split_none cut
    rw [reads]
    exact ⟨after,bind_error ran,left⟩

/-- The last step of `recv`: the value by the opcode. -/
theorem recv_value (b0 : UInt8) (payload : Bytes) :
    (if b0 &&& 0x0f ≠ 1 ∧ b0 &&& 0x0f ≠ 2 then return none
      else
        match loads payload with
        | .ok v => return some v
        | .error e => throw (.loads e) : Call (Option Json)) socket = (value loads (b0.toNat % 16) payload,socket) := by
  have bits := four_bits b0
  have one : b0 &&& 0x0f = 1 ↔ b0.toNat % 16 = 1 := by
    rw [← bits]
    exact ⟨fun same => same ▸ rfl,fun same => UInt8.toNat_inj.mp same⟩
  have two : b0 &&& 0x0f = 2 ↔ b0.toNat % 16 = 2 := by
    rw [← bits]
    exact ⟨fun same => same ▸ rfl,fun same => UInt8.toNat_inj.mp same⟩
  unfold value
  by_cases data : b0.toNat % 16 = 1 ∨ b0.toNat % 16 = 2
  · have kept : ¬ (b0 &&& 0x0f ≠ 1 ∧ b0 &&& 0x0f ≠ 2) := by
      rw [one.ne,two.ne]
      omega
    rw [if_neg kept,if_pos data]
    cases loads payload <;> rfl
  · have dropped : b0 &&& 0x0f ≠ 1 ∧ b0 &&& 0x0f ≠ 2 := by
      rw [one.ne,two.ne]
      omega
    rw [if_pos dropped,if_neg data]
    rfl

/-- `recv` after its first two bytes. -/
theorem recv_lead (loads : Bytes → Except Exn Json) {b0 b1 : UInt8} {more : Bytes} (shape : socket.stream = b0 :: b1 :: more) :
    ∃ after, after.stream = more ∧ recv loads socket = (do
      let payload ← _read (← readLength b1)
      if b0 &&& 0x0f ≠ 1 ∧ b0 &&& 0x0f ≠ 2 then return none
      else
        match loads payload with
        | .ok v => return some v
        | .error e => throw (.loads e) : Call (Option Json)) after := by
  obtain ⟨middle,first,left⟩ := _read_one shape
  obtain ⟨after,second,rest⟩ := _read_one left
  exact ⟨after,rest,by rw [recv,bind_ok first,bind_ok second]; rfl⟩

/-- `recv` takes the next frame off the stream and gives its value. -/
theorem recv_next (loads : Bytes → Except Exn Json) {opcode : Nat} {payload rest : Bytes}
    (taken : next socket.stream = some (opcode,payload,rest)) :
    ∃ after, recv loads socket = (value loads opcode payload,after) ∧ after.stream = rest := by
  obtain shape | ⟨b0,shape⟩ | ⟨b0,b1,more,shape⟩ :
      socket.stream = [] ∨ (∃ b0, socket.stream = [b0]) ∨ ∃ b0 b1 more, socket.stream = b0 :: b1 :: more := by
    obtain _ | ⟨b0,_ | ⟨b1,more⟩⟩ := socket.stream <;> simp
  · rw [shape] at taken
    cases taken
  · rw [shape] at taken
    cases taken
  · rw [shape] at taken
    simp only [next,Option.bind_eq_bind,Option.bind_eq_some_iff,Prod.exists] at taken
    obtain ⟨extended,follows,lengthCut,data,end',payloadCut,built⟩ := taken
    cases built
    obtain ⟨start,stream,ran⟩ := recv_lead loads shape
    obtain ⟨middle,length,stream'⟩ := readLength_ok (by rw [stream]; exact lengthCut)
    obtain ⟨after,data',left⟩ := _read_split (by rw [stream']; exact payloadCut)
    refine ⟨after,?_,left⟩
    rw [ran,bind_ok length,bind_ok data',recv_value]

/-- Where the stream ends before the next frame does, `recv` raises. -/
theorem recv_closed (loads : Bytes → Except Exn Json) (cut : next socket.stream = none) :
    ∃ after, recv loads socket = (.error (.ConnectionError "ws closed"),after) := by
  obtain shape | ⟨b0,shape⟩ | ⟨b0,b1,more,shape⟩ :
      socket.stream = [] ∨ (∃ b0, socket.stream = [b0]) ∨ ∃ b0 b1 more, socket.stream = b0 :: b1 :: more := by
    obtain _ | ⟨b0,_ | ⟨b1,more⟩⟩ := socket.stream <;> simp
  · obtain ⟨after,ran,_⟩ := _read_closed (show socket.stream.length < 1 by simp [shape])
    exact ⟨after,by rw [recv,bind_error ran]⟩
  · obtain ⟨middle,first,left⟩ := _read_one shape
    obtain ⟨after,ran,_⟩ := _read_closed (show middle.stream.length < 1 by simp [left])
    exact ⟨after,by rw [recv,bind_ok first,bind_error ran]⟩
  · rw [shape] at cut
    obtain ⟨start,stream,ran⟩ := recv_lead loads shape
    cases lengthCut : split (Form.announced (b1.toNat % 128)).width more with
    | none =>
      obtain ⟨after,closed,_⟩ := readLength_closed (by rw [stream]; exact lengthCut)
      exact ⟨after,by rw [ran,bind_error closed]⟩
    | some parts =>
      obtain ⟨extended,follows⟩ := parts
      obtain ⟨middle,length,stream'⟩ := readLength_ok (by rw [stream]; exact lengthCut)
      cases payloadCut : split ((Form.announced (b1.toNat % 128)).length (b1.toNat % 128) extended) follows with
      | none =>
        obtain ⟨after,closed,_⟩ := _read_split_none (by rw [stream']; exact payloadCut)
        exact ⟨after,by rw [ran,bind_ok length,bind_error closed]⟩
      | some parts => simp [next,lengthCut,payloadCut] at cut

/-- A frame takes bytes. -/
theorem next_shorter {bytes payload rest : Bytes} {opcode : Nat} (taken : next bytes = some (opcode,payload,rest)) :
    rest.length < bytes.length := by
  obtain _ | ⟨b0,_ | ⟨b1,more⟩⟩ := bytes
  · cases taken
  · cases taken
  simp only [next,Option.bind_eq_bind,Option.bind_eq_some_iff,Prod.exists] at taken
  obtain ⟨extended,follows,lengthCut,data,end',payloadCut,built⟩ := taken
  cases built
  obtain ⟨_,rfl⟩ := split_some lengthCut
  obtain ⟨_,rfl⟩ := split_some payloadCut
  simp
  omega

/-! ## One call after the other -/

/-- What a frame is to give is not the end of the stream. -/
theorem value_ne_closed (opcode : Nat) (payload : Bytes) (msg : String) :
    value loads opcode payload ≠ .error (.ConnectionError msg) := by
  unfold value
  split
  · cases loads payload <;> simp [Except.map,Except.mapError]
  · simp

/-- Run: the calls of `recv` give certain values exactly when the stream begins with frames that carry them. -/
theorem receives_eq_iff (loads : Bytes → Except Exn Json) (socket : Socket) {values : List (Except Failure (Option Json))}
    (values_open : ∀ v ∈ values, v ≠ .error (.ConnectionError "ws closed")) :
    receives loads values.length socket = values ↔ Gives loads values socket.stream := by
  induction values generalizing socket with
  | nil => simp [receives,Gives]
  | cons v more ih =>
    obtain ⟨here,later⟩ := List.forall_mem_cons.mp values_open
    simp only [List.length_cons,receives,Gives,List.cons.injEq,ExceptT.run]
    cases taken : next socket.stream with
    | none =>
      obtain ⟨after,ran⟩ := recv_closed loads taken
      simp [ran,here.symm]
    | some found =>
      obtain ⟨opcode,payload,rest⟩ := found
      obtain ⟨after,ran,left⟩ := recv_next loads taken
      simp [ran,ih after later,left]

/-- Run: the calls of `recv` come to an end, whatever the stream: each takes bytes off it or raises. -/
theorem receives_raise (socket : Socket) : ∃ n e, .error e ∈ receives loads n socket := by
  induction size : socket.stream.length using Nat.strong_induction_on generalizing socket with
  | _ length ih =>
    cases taken : next socket.stream with
    | none =>
      obtain ⟨after,ran⟩ := recv_closed loads taken
      exact ⟨1,_,by simp [receives,ExceptT.run,ran]; rfl⟩
    | some found =>
      obtain ⟨opcode,payload,rest⟩ := found
      obtain ⟨after,ran,left⟩ := recv_next loads taken
      have shorter := next_shorter taken
      rw [← left,size] at shorter
      obtain ⟨n,e,raised⟩ := ih _ shorter after rfl
      exact ⟨n + 1,e,by simp [receives,ExceptT.run,ran,raised]⟩

theorem blank_extends {left right : Bytes} (part : left <+: right) (found : blank <:+: left) : blank <:+: right :=
  found.trans part.isInfix

/-- While a part of the header is missing there is no blank line yet. -/
theorem Header.not_infix {head buf missing : Bytes} (ends : Header head) (whole : buf ++ missing = head)
    (some : missing ≠ []) : ¬ blank <:+: buf := by
  intro found
  apply ends.2
  rw [← whole,List.dropLast_append_of_ne_nil some]
  exact blank_extends (List.prefix_append ..) found

/-- Step: a read of 4096 bytes, before the header is complete and when it completes it. -/
theorem spill_step (socket : Socket) (positive : 0 < n) : spill n socket.segments =
    if (socket.recv 4096).1.length < n then spill (n - (socket.recv 4096).1.length) (socket.recv 4096).2.segments
    else (socket.recv 4096).1.length - n := by
  obtain ⟨_ | ⟨segment,rest⟩,filled⟩ := socket
  · simp [Socket.recv,spill,positive]
  · by_cases more : 4096 < segment.length
    · have size : (segment.take 4096).length = 4096 := List.length_take_of_le (Nat.le_of_lt more)
      simp only [Socket.recv,more,dite_true,size,spill,List.length_drop]
      by_cases before : 4096 < n
      · rw [if_pos before]
        by_cases beyond : segment.length < n
        · have same : n - 4096 - (segment.length - 4096) = n - segment.length := by omega
          rw [if_pos beyond,if_pos (by omega),same]
        · rw [if_neg beyond,if_neg (by omega)]
          omega
      · rw [if_neg before,if_neg (by omega)]
        omega
    · simp only [Socket.recv,more,dite_false,spill]
      by_cases beyond : segment.length < n
      · rw [if_pos beyond,if_pos beyond]
      · rw [if_neg beyond,if_neg beyond]
        omega

/-- Run: the loop ends in the read that completes the header, with what that read took beyond it. -/
theorem header_left {head buf missing tail : Bytes} (ends : Header head) (whole : buf ++ missing = head)
    (open' : missing ≠ []) (stream : socket.stream = missing ++ tail) :
    ∃ fuel after, header fuel buf socket = some after ∧ after.stream = tail.drop (spill missing.length socket.segments) := by
  induction size : socket.stream.length using Nat.strong_induction_on generalizing socket buf missing with
  | _ length ih =>
    have reads := recv_stream socket 4096
    have positive := List.length_pos_iff.mpr open'
    have absent : ¬ blank <:+: buf := ends.not_infix whole open'
    have gained : 0 < (socket.recv 4096).1.length := by
      refine List.length_pos_iff.mpr (recv_ne_nil (by decide) ?_)
      rw [stream]
      simp [open']
    have total := congrArg List.length reads
    rw [List.length_append] at total
    have read_front : (socket.recv 4096).1 <+: socket.stream := ⟨_,reads⟩
    have missing_front : missing <+: socket.stream := ⟨_,stream.symm⟩
    rw [spill_step socket positive]
    by_cases before : (socket.recv 4096).1.length < missing.length
    · -- the read gives a part of what is missing
      rw [if_pos before]
      obtain ⟨later,missing_eq⟩ : (socket.recv 4096).1 <+: missing :=
        List.prefix_of_prefix_length_le read_front missing_front (by omega)
      have left : (socket.recv 4096).2.stream = later ++ tail := by
        rw [stream,← missing_eq,List.append_assoc] at reads
        exact List.append_cancel_left reads
      have rest : missing.length - (socket.recv 4096).1.length = later.length := by
        rw [← missing_eq,List.length_append]
        omega
      have missed : later ≠ [] := List.length_pos_iff.mp (by omega)
      have extended : (buf ++ (socket.recv 4096).1) ++ later = head := by rw [List.append_assoc,missing_eq,whole]
      obtain ⟨fuel,after,ran,stays⟩ := ih (socket.recv 4096).2.stream.length (by omega) extended missed left rfl
      exact ⟨fuel + 1,after,by rw [header,if_neg absent]; exact ran,by rw [rest]; exact stays⟩
    · -- the read completes the header
      rw [if_neg before]
      obtain ⟨taken,front⟩ : missing <+: (socket.recv 4096).1 :=
        List.prefix_of_prefix_length_le missing_front read_front (by omega)
      have found : blank <:+: buf ++ (socket.recv 4096).1 := by
        rw [← front,← List.append_assoc,whole]
        exact blank_extends (List.prefix_append ..) ends.1.isInfix
      have left : (socket.recv 4096).2.stream = tail.drop ((socket.recv 4096).1.length - missing.length) := by
        rw [stream,← front,List.append_assoc] at reads
        have same := List.append_cancel_left reads
        rw [← same,← front]
        simp
      refine ⟨1,_,?_,left⟩
      rw [header,if_neg absent]
      show header 0 _ _ = _
      rw [header,if_pos found]

/-- Run: the loop ends when the stream has a blank line. -/
theorem header_some {buf : Bytes} (found : blank <:+: buf ++ socket.stream) :
    ∃ fuel after, header fuel buf socket = some after := by
  induction size : socket.stream.length using Nat.strong_induction_on generalizing socket buf with
  | _ length ih =>
    by_cases now : blank <:+: buf
    · exact ⟨0,socket,by rw [header,if_pos now]⟩
    · have more : socket.stream ≠ [] := by
        intro empty
        rw [empty,List.append_nil] at found
        exact now found
      have gained := List.length_pos_iff.mpr (recv_ne_nil (k := 4096) (by decide) more)
      have reads := recv_stream socket 4096
      have total := congrArg List.length reads
      rw [List.length_append] at total
      have still : blank <:+: (buf ++ (socket.recv 4096).1) ++ (socket.recv 4096).2.stream := by
        rw [List.append_assoc,reads]
        exact found
      obtain ⟨fuel,after,ran⟩ := ih (socket.recv 4096).2.stream.length (by omega) still rfl
      exact ⟨fuel + 1,after,by rw [header,if_neg now]; exact ran⟩

/-- Run: otherwise it does not. -/
theorem header_none {buf : Bytes} (absent : ¬ blank <:+: buf ++ socket.stream) (fuel : Nat) :
    header fuel buf socket = none := by
  have now : ¬ blank <:+: buf := fun found => absent (blank_extends (List.prefix_append ..) found)
  induction fuel generalizing buf socket with
  | zero => rw [header,if_neg now]
  | succ fuel ih =>
    have later : ¬ blank <:+: (buf ++ (socket.recv 4096).1) ++ (socket.recv 4096).2.stream := by
      rw [List.append_assoc,recv_stream]
      exact absent
    rw [header,if_neg now]
    exact ih later fun found => later (blank_extends (List.prefix_append ..) found)

end

/-- An unmasked frame begins its bytes by its layout. -/
theorem next_bytes {frame : Frame} (unmasked : frame.key = none) (rest : Bytes) :
    next (frame.bytes ++ rest) = some ((frame.opcode : Nat),frame.payload,rest) := by
  obtain ⟨fin,rsv,opcode,form,key,payload,fits⟩ := frame
  cases unmasked
  have kind : (first fin rsv opcode).toNat % 16 = opcode := by
    rw [first_toNat]
    omega
  have code : (second false (form.code payload.length)).toNat % 128 = form.code payload.length := by
    have seven := code_lt fits
    rw [second_toNat _ seven]
    omega
  simp only [next,Frame.bytes,List.cons_append,List.append_assoc,Option.isSome_none,code,announced_code fits]
  rw [split_append _ _ (pack_length ..)]
  simp [length_pack fits,keyBytes,masked,split_append,kind]

/-- Run: frames one after the other give what they carry. -/
theorem gives_frames (loads : Bytes → Except Exn Json) {all : List Frame} (unmasked : ∀ frame ∈ all, frame.key = none) :
    Gives loads (all.map fun frame => value loads frame.opcode frame.payload) (all.flatMap Frame.bytes) := by
  induction all with
  | nil => trivial
  | cons frame rest ih =>
    obtain ⟨plain,others⟩ := List.forall_mem_cons.mp unmasked
    exact ⟨_,_,_,next_bytes plain _,rfl,ih others⟩

theorem header_unique {buf : Bytes} {socket left right : Socket} {fuel more : Nat} (first : header fuel buf socket = some left)
    (second : header more buf socket = some right) : left = right := by
  induction fuel generalizing buf socket more with
  | zero =>
    unfold header at first second
    split at first
    · rename_i found
      rw [if_pos found] at second
      cases first
      cases second
      rfl
    · cases first
  | succ fuel ih =>
    unfold header at first second
    split at first
    · rename_i found
      rw [if_pos found] at second
      cases first
      cases second
      rfl
    · rename_i absent
      rw [if_neg absent] at second
      cases more with
      | zero => cases second
      | succ more => exact ih first second

/-- Frames after a header are delivered exactly when what the last read of the header leaves of them gives their values. -/
theorem delivered_iff (loads : Bytes → Except Exn Json) {head : Bytes} {all : List Frame} {socket : Socket} (ends : Header head)
    (stream : socket.stream = head ++ all.flatMap Frame.bytes) : Delivered loads socket all ↔
      Gives loads (all.map fun frame => value loads frame.opcode frame.payload)
        ((all.flatMap Frame.bytes).drop (spill head.length socket.segments)) := by
  have filled : head ≠ [] := by
    rintro rfl
    exact absurd ends.1 (by decide)
  obtain ⟨fuel,after,ran,left⟩ := header_left ends (List.nil_append head) filled stream
  have values_open : ∀ v ∈ all.map fun frame => value loads frame.opcode frame.payload,
      v ≠ .error (.ConnectionError "ws closed") := by
    intro v member
    obtain ⟨frame,_,rfl⟩ := List.mem_map.mp member
    exact value_ne_closed _ _ _
  have calls := receives_eq_iff loads after values_open
  rw [List.length_map,left] at calls
  constructor
  · rintro ⟨other,after',ran',given⟩
    cases header_unique ran ran'
    exact calls.mp given
  · intro gives
    exact ⟨fuel,after,ran,calls.mpr gives⟩

theorem stops_iff (loads : Bytes → Except Exn Json) (socket : Socket) : Stops loads socket ↔ blank <:+: socket.stream := by
  constructor
  · rintro ⟨fuel,after,ran,_⟩
    by_contra absent
    have never := header_none (show ¬ blank <:+: [] ++ socket.stream from absent) fuel
    rw [never] at ran
    cases ran
  · intro found
    obtain ⟨fuel,after,ran⟩ := header_some (show blank <:+: [] ++ socket.stream from found)
    exact ⟨fuel,after,ran,receives_raise after⟩

/-- After a response header the frames are delivered exactly when the read that completes the header ends with it, or
    when what it leaves of the frames happens to give the same values; and a stream is read to an end exactly when
    it is not closed in the header. -/
theorem stream_iff (loads : Bytes → Except Exn Json) :
    (∀ head all (socket : Socket), Header head → (∀ frame ∈ all, frame.key = none ∧ frame.fin = true) →
      socket.stream = head ++ all.flatMap Frame.bytes →
      (Delivered loads socket all ↔ spill head.length socket.segments = 0 ∨
        Gives loads (all.map fun frame => value loads frame.opcode frame.payload)
          ((all.flatMap Frame.bytes).drop (spill head.length socket.segments)))) ∧
      ∀ socket, Stops loads socket ↔ blank <:+: socket.stream := by
  refine ⟨?_,stops_iff loads⟩
  intro head all socket ends plain stream
  rw [delivered_iff loads ends stream]
  constructor
  · exact .inr
  · rintro (whole | left)
    · rw [whole]
      exact gives_frames loads fun frame member => (plain frame member).1
    · exact left

/-- The response of the server and a text frame. -/
def response : Bytes := encode "HTTP/1.1 101 Switching Protocols\r\n\r\n"
def hello : Frame := ⟨true,0,1,.short,none,encode "\x7b\x7d",by decide⟩

def plainLoads (_ : Bytes) : Except Exn Json := .ok (.obj [])

theorem response_header : Header response := ⟨by decide +kernel,by decide +kernel⟩

/-- The frame in two segments after the response. -/
def inParts : Socket := ⟨[response,[0x81],[2,0x7b,0x7d]],by decide +kernel⟩

/-- The frame in one segment with the response, and a response that is cut off. -/
def together : Socket := ⟨[response ++ hello.bytes],by decide +kernel⟩
def cutOff : Socket := ⟨[response.take 20],by decide +kernel⟩

theorem stream_iff_parts : Delivered plainLoads inParts [hello] ∧ Stops plainLoads inParts := by
  have theorems := stream_iff plainLoads
  refine ⟨(theorems.1 response [hello] inParts response_header ?_ (by decide +kernel)).mpr (.inl (by decide +kernel)),
    (theorems.2 inParts).mpr (by decide +kernel)⟩
  intro frame member
  rw [List.mem_singleton.mp member]
  exact ⟨rfl,rfl⟩

/-- The frame that comes with the response is never given, and the response that is cut off is read for ever. -/
theorem stream_lost : Header response ∧ together.stream = response ++ [hello].flatMap Frame.bytes ∧
    hello.key = none ∧ hello.fin = true ∧ ¬ Delivered plainLoads together [hello] ∧
    ¬ Stops plainLoads cutOff ∧ ∀ fuel, header fuel [] cutOff = none := by
  have whole : together.stream = response ++ [hello].flatMap Frame.bytes := by decide +kernel
  have absent : ¬ blank <:+: [] ++ cutOff.stream := by decide +kernel
  refine ⟨response_header,whole,rfl,rfl,?_,fun stops => absent ((stops_iff plainLoads cutOff).mp stops),header_none absent⟩
  intro delivered
  obtain ⟨opcode,payload,rest,taken,_⟩ := (delivered_iff plainLoads response_header whole).mp delivered
  have nothing : ([hello].flatMap Frame.bytes).drop (spill response.length together.segments) = [] := by decide +kernel
  rw [nothing] at taken
  cases taken

end Klados.WebSocket
