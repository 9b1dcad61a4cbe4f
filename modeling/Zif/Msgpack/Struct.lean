import Zif.Msgpack.Decode

/-!
# MessagePack: types

The package finds the encoder and the decoder of a type by looking at the type. Here a `Coder` is the pair
of them. A decoder is given the value that is in the variable already: a struct keeps the fields that
the input does not mention, and a pointer that is not nil is followed.

A struct is written as a map from the names of its fields. It is read from a map, in which a field that is
not known is skipped, or from an array, in which the fields have their order.
-/

namespace Msgpack

open Go Decoding

/-- The encoder and the decoder of a type. -/
structure Coder (α : Type) where
  encode : α → Bytes
  /-- Decodes into a variable, which has a value. -/
  decode : α → Decoder α

namespace Coder

variable {α : Type}

/-- Text. -/
def string : Coder Bytes := ⟨encodeString, fun _ => decodeString⟩

/-- A slice of bytes. -/
def bytes : Coder (Option Bytes) := ⟨encodeBytes, fun _ => decodeBytes⟩

/-- A number with a sign. -/
def int : Coder Int64 := ⟨encodeInt64, fun _ => decodeInt64⟩

/-- A number without a sign. -/
def uint : Coder UInt64 := ⟨encodeUint64, fun _ => decodeUint64⟩

/-- An array of `n` bytes. It is written like the slice of all of them; bytes that are not read stay. -/
def byteArray (n : Nat) : Coder (Vector UInt8 n) where
  encode v := encodeBytes (some v.toList)
  decode old := do
    let bs ← decodeByteArray n
    return .ofFn fun i => bs.getD i old[i]

/-- `n` elements of a slice, those of `old` being overwritten first. -/
def decodeElems (c : Coder α) (zero : α) : (n : Nat) → (old : List α) → Decoder (List α)
  | 0, _ => return []
  | n + 1, old => do
    let a ← c.decode (old.headD zero)
    let l ← decodeElems c zero n old.tail
    return a :: l

/-- A slice; `zero` is the zero value of an element. -/
def slice (c : Coder α) (zero : α) : Coder (Option (List α)) where
  encode := encodeSlice c.encode
  decode old := do
    match ← readByte >>= arrayLen with
    | none => return none
    | some n => return some (← decodeElems c zero n (old.getD []))

/-- A slice of strings, as `decodeStringSlicePtr` reads it: it stays as it is when there is a nil. -/
def strings : Coder (Option (List Bytes)) where
  encode := encodeSlice encodeString
  decode old := do
    match ← readByte >>= arrayLen with
    | none => return old
    | some n => return some (← decodeElems string [] n [])

/-- A pointer; `zero` is what a new value is. -/
def ptr (c : Coder α) (zero : α) : Coder (Option α) where
  encode
    | none => encodeNil
    | some a => c.encode a
  decode old := do
    if (← peekByte) = Code.null then
      discard readByte
      return none
    else return some (← c.decode (old.getD zero))

end Coder

/-! ## Structs -/

/-- A field of a struct `σ`. -/
structure StructField (σ : Type) where
  name : String
  /-- The type of the field. -/
  type : Type
  coder : Coder type
  get : σ → type
  set : σ → type → σ

namespace StructField

variable {σ : Type}

/-- The name as it is written. -/
def key (f : StructField σ) : Bytes := utf8 f.name

/-- `EncodeValue` of a field. -/
def encode (f : StructField σ) (s : σ) : Bytes := f.coder.encode (f.get s)

/-- `DecodeValue` of a field. -/
def decode (f : StructField σ) (s : σ) : Decoder σ := do
  return f.set s (← f.coder.decode (f.get s))

end StructField

section Struct

variable {σ : Type} (fields : List (StructField σ)) (levels : Nat) (zero : σ)

/-- `encodeStructValue`. -/
def encodeStruct (s : σ) : Bytes :=
  encodeMapLen fields.length ++ fields.flatMap fun f => encodeString f.key ++ f.encode s

/-- The number of fields that follow, none for nil, and whether they come without their names. What
cannot be the code of an array either is refused as a map. -/
def structLen (c : UInt8) : Decoder (Option Nat × Bool) :=
  tryCatch (do return (← mapLen c, false)) fun err =>
    tryCatch (do return (← arrayLen c, true)) fun _ => throw err

/-- The fields of a map. -/
def decodeMapFields : (n : Nat) → σ → Decoder σ
  | 0, s => return s
  | n + 1, s => do
    let name ← decodeString
    match fields.find? (·.key == name) with
    | some f => decodeMapFields n (← f.decode s)
    | none =>
      skip levels
      decodeMapFields n s

/-- The fields of an array, as many as there are. -/
def decodeArrayFields : List (StructField σ) → (n : Nat) → σ → Decoder σ
  | f :: fs, n + 1, s => do decodeArrayFields fs n (← f.decode s)
  | _, 0, s => return s
  | [], n + 1, s => do
    times (n + 1) (skip levels)
    return s

/-- `decodeStructValue`. -/
def decodeStruct (s : σ) : Decoder σ := do
  match ← readByte >>= structLen with
  | (none, _) => return zero
  | (some n, true) => decodeArrayFields levels fields n s
  | (some n, false) => decodeMapFields fields levels n s

/-- A struct. -/
def Coder.struct : Coder σ := ⟨encodeStruct fields, decodeStruct fields levels zero⟩

end Struct

end Msgpack
