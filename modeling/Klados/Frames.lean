import Mathlib.Algebra.Group.Nat.Defs
import Mathlib.Data.List.Induction

/-!
The frames of a WebSocket. A frame is laid out as two bytes, a longer length where it has one, the key of its mask
where it has one, and its payload (`Frame.bytes`). `read` takes a frame off the front of some bytes and `frames`
reads them to their end; what they read is exactly what was laid out (`frames_eq_some_iff`), so bytes are cut into
frames in one way at most.
-/
namespace Klados.Frames

/-- A number in `width` bytes, the highest first. -/
def pack : Nat → Nat → List UInt8
  | 0, _ => []
  | width + 1, n => pack width (n / 256) ++ [UInt8.ofNat n]

def unpack (bytes : List UInt8) : Nat := bytes.foldl (fun n b => n * 256 + b.toNat) 0

@[simp] theorem pack_length (width n : Nat) : (pack width n).length = width := by
  induction width generalizing n with
  | zero => rfl
  | succ width ih => simp [pack,ih]

theorem unpack_concat (bytes : List UInt8) (b : UInt8) : unpack (bytes ++ [b]) = unpack bytes * 256 + b.toNat := by
  simp [unpack]

theorem unpack_pack {width n : Nat} (fits : n < 256 ^ width) : unpack (pack width n) = n := by
  induction width generalizing n with
  | zero =>
    have zero : n = 0 := by simpa using fits
    simp [pack,unpack,zero]
  | succ width ih =>
    have high : n / 256 < 256 ^ width := by
      rw [Nat.pow_succ] at fits
      exact Nat.div_lt_of_lt_mul (by rwa [Nat.mul_comm])
    have low : (UInt8.ofNat n).toNat = n % 256 := rfl
    rw [pack,unpack_concat,ih high,low]
    omega

theorem pack_unpack (bytes : List UInt8) : pack bytes.length (unpack bytes) = bytes := by
  induction bytes using List.reverseRecOn with
  | nil => rfl
  | append_singleton front last ih =>
    have below := last.toNat_lt
    have high : (unpack front * 256 + last.toNat) / 256 = unpack front := by omega
    have low : UInt8.ofNat (unpack front * 256 + last.toNat) = last := by
      apply UInt8.toNat_inj.mp
      simp
    rw [unpack_concat,List.length_append,List.length_singleton,pack,high,low,ih]

/-- The key of a mask. -/
structure Key where
  bytes : List UInt8
  four : bytes.length = 4
  deriving DecidableEq

/-- The byte of the key for a place of the payload. -/
def Key.at (key : Key) (i : Nat) : UInt8 := key.bytes.get ⟨i % 4,by rw [key.four]; omega⟩

/-- Every byte xor the key's byte for its place. -/
def Key.apply (key : Key) (bytes : List UInt8) : List UInt8 := bytes.mapIdx fun i b => b ^^^ key.at i

@[simp] theorem Key.apply_length (key : Key) (bytes : List UInt8) : (key.apply bytes).length = bytes.length := by
  simp [Key.apply]

/-- Masking twice is no mask. -/
@[simp] theorem Key.apply_apply (key : Key) (bytes : List UInt8) : key.apply (key.apply bytes) = bytes := by
  apply List.ext_getElem (by simp)
  intro i _ _
  have twice : ∀ b m : UInt8, b ^^^ m ^^^ m = b := by
    intro b m
    rw [UInt8.xor_assoc,UInt8.xor_self,UInt8.xor_zero]
  simp only [Key.apply,List.getElem_mapIdx]
  exact twice _ _

/-- How the length of a payload is written: in the second byte, or after it in two or in eight bytes. -/
inductive Form
  | short
  | medium
  | long
  deriving DecidableEq

def Form.width : Form → Nat
  | .short => 0
  | .medium => 2
  | .long => 8

/-- The lengths that can be written so. -/
def Form.bound : Form → Nat
  | .short => 126
  | .medium => 256 ^ 2
  | .long => 256 ^ 8

/-- The seven bits of the second byte. -/
def Form.code (n : Nat) : Form → Nat
  | .short => n
  | .medium => 126
  | .long => 127

/-- The form with the fewest bytes. -/
def Form.least (n : Nat) : Form := if n < 126 then .short else if n < 65536 then .medium else .long

/-- The form that seven bits announce. -/
def Form.announced (code : Nat) : Form := if code < 126 then .short else if code = 126 then .medium else .long

/-- The length, from the seven bits and the bytes after them. -/
def Form.length (code : Nat) (bytes : List UInt8) : Form → Nat
  | .short => code
  | .medium | .long => unpack bytes

/-- A frame, with its payload unmasked. -/
structure Frame where
  fin : Bool
  rsv : Fin 8
  opcode : Fin 16
  form : Form
  key : Option Key
  payload : List UInt8
  fits : payload.length < form.bound
  deriving DecidableEq

/-- The first byte: the final bit, the reserved bits and the opcode. -/
def first (fin : Bool) (rsv : Fin 8) (opcode : Fin 16) : UInt8 := UInt8.ofNat (fin.toNat * 128 + rsv * 16 + opcode)

/-- The second byte: the mask bit and seven bits. -/
def second (masked : Bool) (code : Nat) : UInt8 := UInt8.ofNat (masked.toNat * 128 + code)

/-- What a key adds to the bytes of a frame, and what it does to the payload. -/
def keyBytes (key : Option Key) : List UInt8 := (key.map Key.bytes).getD []
def masked (key : Option Key) (payload : List UInt8) : List UInt8 := (key.map (·.apply payload)).getD payload

/-- The bytes of a frame. -/
def Frame.bytes (frame : Frame) : List UInt8 :=
  first frame.fin frame.rsv frame.opcode :: second frame.key.isSome (frame.form.code frame.payload.length) ::
    (pack frame.form.width frame.payload.length ++ (keyBytes frame.key ++ masked frame.key frame.payload))

/-- The first `n` bytes and the rest, if there are so many. -/
def split (n : Nat) (bytes : List UInt8) : Option (List UInt8 × List UInt8) :=
  if n ≤ bytes.length then some (bytes.take n,bytes.drop n) else none

/-- The key, where the mask bit is set. -/
def readKey (set : Bool) (bytes : List UInt8) : Option (Option Key × List UInt8) :=
  if set then do
    let (key,rest) ← split 4 bytes
    if four : key.length = 4 then some (some ⟨key,four⟩,rest) else none
  else some (none,bytes)

/-- A frame off the front of some bytes. -/
def read : List UInt8 → Option (Frame × List UInt8)
  | b0 :: b1 :: rest => do
    let code := b1.toNat % 128
    let form := Form.announced code
    let (extended,rest) ← split form.width rest
    let (key,rest) ← readKey (128 ≤ b1.toNat) rest
    let (payload,rest) ← split (form.length code extended) rest
    if fits : (masked key payload).length < form.bound then
      some (⟨128 ≤ b0.toNat,⟨b0.toNat / 16 % 8,by omega⟩,⟨b0.toNat % 16,by omega⟩,form,key,masked key payload,fits⟩,rest)
    else none
  | _ => none

/-- Frame after frame, at most `fuel`. -/
def readAll : Nat → List UInt8 → Option (List Frame)
  | _, [] => some []
  | 0, _ :: _ => none
  | fuel + 1, bytes => do
    let (frame,rest) ← read bytes
    let more ← readAll fuel rest
    some (frame :: more)

/-- The frames of some bytes, with nothing left over. Every frame has a byte. -/
def frames (bytes : List UInt8) : Option (List Frame) := readAll bytes.length bytes

/-! ## One frame -/

theorem split_append (front rest : List UInt8) {n : Nat} (size : front.length = n) :
    split n (front ++ rest) = some (front,rest) := by
  subst size
  simp [split]

theorem split_some {n : Nat} {bytes front rest : List UInt8} (cut : split n bytes = some (front,rest)) :
    front.length = n ∧ front ++ rest = bytes := by
  unfold split at cut
  split at cut
  · cases cut
    exact ⟨by simp; omega,List.take_append_drop ..⟩
  · cases cut

theorem first_toNat (fin : Bool) (rsv : Fin 8) (opcode : Fin 16) :
    (first fin rsv opcode).toNat = fin.toNat * 128 + rsv * 16 + opcode := by
  have bit := fin.toNat_le
  have low := opcode.isLt
  have middle := rsv.isLt
  simp only [first,UInt8.toNat_ofNat']
  omega

theorem code_lt {form : Form} {n : Nat} (fits : n < form.bound) : form.code n < 128 := by
  cases form with
  | short =>
    have bound : n < 126 := fits
    show n < 128
    omega
  | medium => exact (by decide : 126 < 128)
  | long => exact (by decide : 127 < 128)

theorem second_toNat (masked : Bool) {code : Nat} (seven : code < 128) :
    (second masked code).toNat = masked.toNat * 128 + code := by
  have bit := masked.toNat_le
  simp only [second,UInt8.toNat_ofNat']
  omega

/-- What the second byte announces. -/
theorem announced_code {form : Form} {n : Nat} (fits : n < form.bound) : Form.announced (form.code n) = form := by
  cases form with
  | short =>
    have bound : n < 126 := fits
    simp [Form.code,Form.announced,bound]
  | medium => rfl
  | long => rfl

/-- The length that is read is the one that was written. -/
theorem length_pack {form : Form} {n : Nat} (fits : n < form.bound) :
    form.length (form.code n) (pack form.width n) = n := by
  cases form with
  | short => rfl
  | medium => exact unpack_pack fits
  | long => exact unpack_pack fits

theorem readKey_keyBytes (key : Option Key) (rest : List UInt8) :
    readKey key.isSome (keyBytes key ++ rest) = some (key,rest) := by
  cases key with
  | none => rfl
  | some key => simp [readKey,keyBytes,split_append key.bytes rest key.four,key.four]

@[simp] theorem masked_length (key : Option Key) (payload : List UInt8) : (masked key payload).length = payload.length := by
  cases key <;> simp [masked]

@[simp] theorem masked_masked (key : Option Key) (payload : List UInt8) : masked key (masked key payload) = payload := by
  cases key <;> simp [masked]

/-- A frame is read back, whatever follows it. -/
theorem read_bytes (frame : Frame) (rest : List UInt8) : read (frame.bytes ++ rest) = some (frame,rest) := by
  obtain ⟨fin,rsv,opcode,form,key,payload,fits⟩ := frame
  have head := first_toNat fin rsv opcode
  have seven := code_lt fits
  have next := second_toNat key.isSome seven
  have code : (second key.isSome (form.code payload.length)).toNat % 128 = form.code payload.length := by omega
  have set : decide (128 ≤ (second key.isSome (form.code payload.length)).toNat) = key.isSome := by
    rw [next]
    cases key
    · simp
      omega
    · simp
  have final : decide (128 ≤ (first fin rsv opcode).toNat) = fin := by
    rw [head]
    cases fin
    · simp
      omega
    · simp
      omega
  have reserved : (first fin rsv opcode).toNat / 16 % 8 = rsv := by
    have bit := fin.toNat_le
    omega
  have kind : (first fin rsv opcode).toNat % 16 = opcode := by omega
  simp only [read,Frame.bytes,List.cons_append,List.append_assoc,code,announced_code fits,set]
  rw [split_append _ _ (pack_length ..)]
  simp only [Option.bind_eq_bind,Option.bind_some,readKey_keyBytes,length_pack fits]
  rw [split_append _ _ (masked_length ..)]
  simp [fits,final,reserved,kind]

theorem readKey_some {set : Bool} {bytes rest : List UInt8} {key : Option Key} (taken : readKey set bytes = some (key,rest)) :
    key.isSome = set ∧ keyBytes key ++ rest = bytes := by
  cases set with
  | false =>
    cases taken
    exact ⟨rfl,rfl⟩
  | true =>
    simp only [readKey,if_true,Option.bind_eq_bind,Option.bind_eq_some_iff,Prod.exists] at taken
    obtain ⟨front,after,cut,built⟩ := taken
    split at built
    · cases built
      exact ⟨rfl,(split_some cut).2⟩
    · cases built

theorem first_bits (b : UInt8) : first (128 ≤ b.toNat) ⟨b.toNat / 16 % 8,by omega⟩ ⟨b.toNat % 16,by omega⟩ = b := by
  have below := b.toNat_lt
  apply UInt8.toNat_inj.mp
  rw [first_toNat]
  by_cases final : 128 ≤ b.toNat
  · simp [final]
    omega
  · simp [final]
    omega

theorem second_bits (b : UInt8) : second (128 ≤ b.toNat) (b.toNat % 128) = b := by
  have below := b.toNat_lt
  apply UInt8.toNat_inj.mp
  rw [second_toNat _ (by omega)]
  by_cases set : 128 ≤ b.toNat
  · simp [set]
    omega
  · simp [set]
    omega

/-- The seven bits and the bytes after them are how the length that was read is written. -/
theorem pack_length_read {code : Nat} {extended : List UInt8} (seven : code < 128)
    (size : extended.length = (Form.announced code).width) :
    (Form.announced code).code ((Form.announced code).length code extended) = code ∧
      pack (Form.announced code).width ((Form.announced code).length code extended) = extended := by
  unfold Form.announced at size ⊢
  split
  · rename_i short
    rw [if_pos short] at size
    exact ⟨rfl,(List.length_eq_zero_iff.mp size).symm⟩
  · rename_i wide
    rw [if_neg wide] at size
    split
    · rename_i medium
      rw [if_pos medium] at size
      exact ⟨medium.symm,size ▸ pack_unpack extended⟩
    · rename_i long
      rw [if_neg long] at size
      have last : 127 = code := by omega
      exact ⟨last,size ▸ pack_unpack extended⟩

/-- What is read is the bytes of a frame. -/
theorem bytes_of_read {bytes rest : List UInt8} {frame : Frame} (taken : read bytes = some (frame,rest)) :
    frame.bytes ++ rest = bytes := by
  obtain _ | ⟨b0,_ | ⟨b1,tail⟩⟩ := bytes
  · cases taken
  · cases taken
  simp only [read,Option.bind_eq_bind,Option.bind_eq_some_iff,Prod.exists] at taken
  obtain ⟨extended,afterLength,lengthCut,key,afterKey,keyCut,payload,after,payloadCut,built⟩ := taken
  obtain ⟨lengthSize,rfl⟩ := split_some lengthCut
  obtain ⟨set,rfl⟩ := readKey_some keyCut
  obtain ⟨size,rfl⟩ := split_some payloadCut
  obtain ⟨code,packed⟩ := pack_length_read (by omega) lengthSize
  split at built
  · cases built
    simp only [Frame.bytes,masked_length,masked_masked,size,code,packed,set]
    rw [first_bits,second_bits]
    simp
  · cases built

theorem bytes_length_pos (frame : Frame) : 0 < frame.bytes.length := by simp [Frame.bytes]

/-- Run: frames one after the other are read back. -/
theorem readAll_bytes (all : List Frame) {fuel : Nat} (enough : (all.flatMap Frame.bytes).length ≤ fuel) :
    readAll fuel (all.flatMap Frame.bytes) = some all := by
  induction all generalizing fuel with
  | nil => cases fuel <;> rfl
  | cons frame rest ih =>
    have filled := bytes_length_pos frame
    rw [List.flatMap_cons,List.length_append] at enough
    obtain ⟨fuel,rfl⟩ : ∃ less, fuel = less + 1 := ⟨fuel - 1,by omega⟩
    have step := read_bytes frame (rest.flatMap Frame.bytes)
    have more := ih (show (rest.flatMap Frame.bytes).length ≤ fuel by omega)
    rw [List.flatMap_cons]
    obtain ⟨head,tail,shape⟩ := List.exists_cons_of_length_pos (l := frame.bytes ++ rest.flatMap Frame.bytes) (by simp; omega)
    rw [shape] at step ⊢
    simp [readAll,step,more]

theorem bytes_of_readAll {fuel : Nat} {bytes : List UInt8} {all : List Frame} (taken : readAll fuel bytes = some all) :
    all.flatMap Frame.bytes = bytes := by
  induction fuel generalizing bytes all with
  | zero =>
    cases bytes with
    | nil =>
      cases taken
      rfl
    | cons head tail => cases taken
  | succ fuel ih =>
    cases bytes with
    | nil =>
      cases taken
      rfl
    | cons head tail =>
      simp only [readAll,Option.bind_eq_bind,Option.bind_eq_some_iff,Prod.exists] at taken
      obtain ⟨frame,rest,first,more,others,built⟩ := taken
      cases built
      rw [List.flatMap_cons,ih others,bytes_of_read first]

/-- The frames of some bytes are those that were laid out one after the other. -/
theorem frames_eq_some_iff {bytes : List UInt8} {all : List Frame} :
    frames bytes = some all ↔ all.flatMap Frame.bytes = bytes := by
  constructor
  · exact bytes_of_readAll
  · rintro rfl
    exact readAll_bytes all (Nat.le_refl _)

/-- Bytes are cut into frames in one way at most. -/
theorem eq_of_flatMap_bytes {all others : List Frame} (same : all.flatMap Frame.bytes = others.flatMap Frame.bytes) :
    all = others := by
  have first := frames_eq_some_iff.mpr same
  rw [frames_eq_some_iff.mpr rfl] at first
  exact (Option.some.inj first).symm

end Klados.Frames
