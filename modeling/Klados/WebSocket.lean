import Klados.Frames
import Klados.Framing

/-!
The WebSocket client of the browser workload. `send` writes one masked text frame; any number of calls leave
frames that a server reads back one for one (`send_frames`).
-/
namespace Klados.WebSocket
open Frames Framing

/-- `struct.error`. -/
inductive StructError
  | outOfRange
  deriving DecidableEq

/-- `struct.pack(">H", n)` and `struct.pack(">Q", n)`. -/
def structPack (width n : Nat) : Except StructError Bytes :=
  if n < 256 ^ width then .ok (pack width n) else .error .outOfRange

/-- The bytes that `WS.send` writes, `mask` being what `os.urandom(4)` gave. -/
def send (J : JsonModule) (obj : Json) (mask : Key) : Except StructError Bytes := do
  let data := encode (J.dumps obj)
  let n := data.length
  let hdr ←
    if n < 126 then pure [0x81,UInt8.ofNat (0x80 ||| n)]
    else if n < 65536 then do
      let size ← structPack 2 n
      pure ([0x81,UInt8.ofNat (0x80 ||| 126)] ++ size)
    else do
      let size ← structPack 8 n
      pure ([0x81,UInt8.ofNat (0x80 ||| 127)] ++ size)
  return hdr ++ mask.bytes ++ data.mapIdx fun i b => b ^^^ mask.at i

/-- A final text frame, masked, with the least length encoding, that carries a value. -/
structure Carries (J : JsonModule) (call : Json × Key) (frame : Frame) : Prop where
  final : frame.fin = true
  plain : frame.rsv = 0
  text : frame.opcode = 1
  masked : frame.key = some call.2
  least : frame.form = Form.least frame.payload.length
  payload : frame.payload = encode (J.dumps call.1)

section
variable {J : JsonModule} {obj : Json} {n : Nat}

theorem least_fits (short : n < 2 ^ 64) : n < (Form.least n).bound := by
  unfold Form.least
  split
  · assumption
  · split
    · assumption
    · exact short

/-- `0x80 | n` sets the mask bit beside seven bits. -/
theorem maskBit_or (seven : n < 128) : UInt8.ofNat (0x80 ||| n) = second true n := by
  have sum := Nat.two_pow_add_eq_or_of_lt (i := 7) seven 1
  rw [second,Bool.toNat_true,Nat.one_mul]
  simp only [Nat.mul_one] at sum
  rw [sum]

/-- What `send` writes is one frame. -/
theorem send_frame (mask : Key) (short : (encode (J.dumps obj)).length < 2 ^ 63) :
    ∃ frame, Carries J (obj,mask) frame ∧ send J obj mask = .ok frame.bytes := by
  have fits := least_fits (n := (encode (J.dumps obj)).length) (by omega)
  refine ⟨⟨true,0,1,Form.least (encode (J.dumps obj)).length,some mask,encode (J.dumps obj),fits⟩,⟨rfl,rfl,rfl,rfl,rfl,rfl⟩,?_⟩
  have lead : first true 0 1 = 0x81 := by decide
  have code := maskBit_or (code_lt fits)
  simp only [send,Frame.bytes,lead,Option.isSome_some,← code]
  unfold Form.least
  by_cases small : (encode (J.dumps obj)).length < 126
  · simp only [small,if_true]
    rfl
  · by_cases middle : (encode (J.dumps obj)).length < 65536
    · have size : structPack 2 (encode (J.dumps obj)).length = .ok (pack 2 (encode (J.dumps obj)).length) := if_pos middle
      simp only [small,middle,if_true,if_false,size]
      simp [Form.code,Form.width,keyBytes,Frames.masked,Key.apply,pure,Except.pure,bind,Except.bind]
    · have size : structPack 8 (encode (J.dumps obj)).length = .ok (pack 8 (encode (J.dumps obj)).length) :=
        if_pos (Nat.lt_trans short (by decide))
      simp only [small,middle,if_false,size]
      simp [Form.code,Form.width,keyBytes,Frames.masked,Key.apply,pure,Except.pure,bind,Except.bind]

/-- Run: calls one after the other write frames one after the other. -/
theorem sends_frames {calls : List (Json × Key)} (short : ∀ call ∈ calls, (encode (J.dumps call.1)).length < 2 ^ 63) :
    ∃ all, List.Forall₂ (Carries J) calls all ∧
      (calls.mapM fun call => send J call.1 call.2) = .ok (all.map Frame.bytes) := by
  induction calls with
  | nil => exact ⟨[],.nil,rfl⟩
  | cons call rest ih =>
    obtain ⟨frame,carries,sent⟩ := send_frame call.2 (short call (List.mem_cons_self ..))
    obtain ⟨all,carried,others⟩ := ih fun call' member => short call' (List.mem_cons_of_mem _ member)
    refine ⟨frame :: all,.cons carries carried,?_⟩
    rw [List.mapM_cons,sent,others]
    rfl

end

/-- What any number of calls of `send` write, one after the other, is read as one frame for each call, which carries
    the object of the call and nothing else, and cannot be cut into frames in another way. -/
theorem send_frames (J : JsonModule) (calls : List (Json × Key))
    (short : ∀ call ∈ calls, (encode (J.dumps call.1)).length < 2 ^ 63) :
    ∃ sent all, (calls.mapM fun call => send J call.1 call.2) = .ok sent ∧ List.Forall₂ (Carries J) calls all ∧
      frames sent.flatten = some all ∧ ∀ others, others.flatMap Frame.bytes = sent.flatten → others = all := by
  obtain ⟨all,carried,sent⟩ := sends_frames short
  have stream : (all.map Frame.bytes).flatten = all.flatMap Frame.bytes := List.flatMap_def.symm
  refine ⟨all.map Frame.bytes,all,sent,carried,?_,?_⟩
  · rw [stream]
    exact frames_eq_some_iff.mpr rfl
  · intro others same
    rw [stream] at same
    exact eq_of_flatMap_bytes same

/-- `json.dumps` of an empty object and of a plain string. -/
def plainJson : JsonModule where
  dumps
    | .str text => "\"" ++ text ++ "\""
    | _ => "\x7b\x7d"
  loads _ := .ok (.obj [])

/-- Two calls, with an empty object and with a text that needs the longer length. -/
theorem send_frames_two :
    let key : Key := ⟨[1,2,3,4],rfl⟩
    let calls := [(Json.obj [],key),(Json.str (String.ofList (List.replicate 300 'a')),key)]
    send plainJson (.obj []) key = .ok [0x81,0x82,1,2,3,4,0x7a,0x7f] ∧
      ∃ sent all, (calls.mapM fun call => send plainJson call.1 call.2) = .ok sent ∧
        List.Forall₂ (Carries plainJson) calls all ∧ frames sent.flatten = some all ∧
        ∀ others, others.flatMap Frame.bytes = sent.flatten → others = all := by
  refine ⟨by decide +kernel,send_frames _ _ ?_⟩
  simp only [List.mem_cons,List.not_mem_nil,or_false,forall_eq_or_imp,forall_eq]
  decide +kernel

end Klados.WebSocket
