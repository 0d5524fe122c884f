import Klados.Files
import Mathlib.Data.Rat.Init

/-!
What the daemon, the guest agent and the chunk store have in common: identifiers, JSON
values, exceptions, and the functions that come from outside the repository.
-/
namespace Klados
export Files (Bytes)

/-- `uuid4().hex[:12]`. -/
abbrev Id := String

/-- `blake2b(...).hexdigest()`, as its bytes. -/
abbrev Digest := List UInt8

/-- `time.time()`. -/
abbrev Time := Rat

/-- `c.isspace()`. -/
def isSpace (c : Char) : Bool :=
  let n := c.toNat
  (9 ≤ n && n ≤ 13) || (28 ≤ n && n ≤ 32) || n = 0x85 || n = 0xa0 || n = 0x1680 || (0x2000 ≤ n && n ≤ 0x200a) ||
    n = 0x2028 || n = 0x2029 || n = 0x202f || n = 0x205f || n = 0x3000

/-- `text.strip()`. -/
def strip (text : String) : String :=
  String.ofList ((text.toList.dropWhile isSpace).reverse.dropWhile isSpace).reverse

/-- A value of the `json` module. The fields of an object are a dictionary: `get?` finds
    the value of a key. -/
inductive Json
  | null
  | bool (value : Bool)
  | int (value : Int)
  | real (value : Rat)
  | str (value : String)
  | arr (items : List Json)
  | obj (fields : List (String × Json))

/-- A Python exception. -/
inductive Exn
  | KeyError (msg : String)
  | TypeError (msg : String)
  | ValueError (msg : String)
  | AttributeError (msg : String)
  | OSError (msg : String)
  | RuntimeError (msg : String)
  | TimeoutError (msg : String)
  | DbError (msg : String)
  | ZlibError (msg : String)
  | OverflowError (msg : String)
  | Forbidden (msg : String)
  deriving DecidableEq

/-- `str(e)`: the message, which a `KeyError` shows in quotes. -/
def Exn.str : Exn → String
  | .KeyError msg => "'" ++ msg ++ "'"
  | .TypeError msg | .ValueError msg | .AttributeError msg | .OSError msg | .RuntimeError msg
  | .TimeoutError msg | .DbError msg | .ZlibError msg | .OverflowError msg | .Forbidden msg => msg

namespace Json

/-- `d.get(key)` for a dictionary: the value, if the key is there. -/
def get? : Json → String → Option Json
  | .obj fields, key => (fields.find? (·.1 = key)).map (·.2)
  | _, _ => none

def isDict : Json → Bool
  | .obj _ => true
  | _ => false

/-- `value == text` for a string. -/
def isStr (text : String) : Json → Bool
  | .str value => value = text
  | _ => false

/-- `None` is `null`. -/
def isNull : Json → Bool
  | .null => true
  | _ => false

/-- `optional string`, as SQLite and the replies show it. -/
def ofText : Option String → Json
  | some text => .str text
  | none => .null

end Json

/-- The JSON of a memory manifest. -/
structure Manifest where
  block : Nat
  hashes : List Digest

/-- The functions of the standard library and of other programs that the code calls, which the
    repository does not contain: the hash and the compression of chunks, the JSON text of a
    manifest, the hash of an API key, the texts of numbers and of dictionaries (`str` of a
    dictionary is its `repr`), `float` of a string, and a freshly formatted disk. -/
structure Platform where
  blake2b : Bytes → Digest
  compress : Bytes → Bytes
  decompress : Bytes → Option Bytes
  dumpManifest : Manifest → Bytes
  loadManifest : Bytes → Option Manifest
  gear : UInt8 → UInt64
  sha256 : String → String
  realText : Rat → String
  pyRepr : Json → String
  parseFloat : String → Option Rat
  emptyDisk : Bytes

/-- `zlib.decompress` inverts `zlib.compress` and `json.load` inverts `json.dump`. -/
structure Platform.Lossless (P : Platform) : Prop where
  decompress_compress : ∀ bytes, P.decompress (P.compress bytes) = some bytes
  load_dump : ∀ manifest, P.loadManifest (P.dumpManifest manifest) = some manifest

/-- The hashes one after the other: a byte follows a 1, and a 0 ends a hash. -/
def encodeHashes (hashes : List Digest) : Bytes :=
  hashes.flatMap fun h => h.flatMap (fun b => [1,b]) ++ [0]

def decodeHashes (current : Digest) : Bytes → Option (List Digest)
  | [] => if current = [] then some [] else none
  | 0 :: rest => (decodeHashes [] rest).map (current :: ·)
  | 1 :: b :: rest => decodeHashes (current ++ [b]) rest
  | _ => none

theorem decodeHashes_hash (h current : Digest) (rest : Bytes) :
    decodeHashes current (h.flatMap (fun b => [1,b]) ++ 0 :: rest) =
      (decodeHashes [] rest).map ((current ++ h) :: ·) := by
  induction h generalizing current with
  | nil => simp [decodeHashes]
  | cons b h ih => simpa [decodeHashes] using ih (current ++ [b])

theorem decodeHashes_encode (hashes : List Digest) : decodeHashes [] (encodeHashes hashes) = some hashes := by
  induction hashes with
  | nil => rfl
  | cons h hashes ih =>
    have split : encodeHashes (h :: hashes) = h.flatMap (fun b => [1,b]) ++ 0 :: encodeHashes hashes := by
      simp [encodeHashes]
    rw [split,decodeHashes_hash,ih]
    rfl

def encodeManifest (m : Manifest) : Bytes :=
  if m.block = 4096 then 0 :: encodeHashes m.hashes
  else List.replicate (m.block + 1) 1 ++ 0 :: encodeHashes m.hashes

def decodeManifest : Bytes → Option Manifest
  | 0 :: rest => (decodeHashes [] rest).map fun hashes => ⟨4096,hashes⟩
  | bytes =>
    (decodeHashes [] ((bytes.dropWhile (· = 1)).drop 1)).map fun hashes => ⟨(bytes.takeWhile (· = 1)).length - 1,hashes⟩

/-- A chunk's hash is the chunk itself, and compressing marks the beginning. -/
def Platform.plain : Platform where
  blake2b := id
  compress bytes := 1 :: bytes
  decompress
    | 1 :: bytes => some bytes
    | _ => none
  dumpManifest := encodeManifest
  loadManifest := decodeManifest
  gear _ := 0
  sha256 := id
  realText _ := "0.0"
  pyRepr _ := "{}"
  parseFloat _ := none
  emptyDisk := []

theorem Platform.plain_lossless : plain.Lossless where
  decompress_compress _ := rfl
  load_dump m := by
    change decodeManifest (encodeManifest m) = some m
    unfold encodeManifest
    split
    · rename_i same
      simp [decodeManifest,decodeHashes_encode,← same]
    · simp [decodeManifest,List.replicate_succ,decodeHashes_encode]

end Klados
