import Zif.Lib.BigEndian
import Zif.Lib.Decoding
import Zif.Msgpack.Encode

/-!
# MessagePack: reading

The decoder of the package `msgpack`. It takes more than the encoder writes: a number in any width, text
where bytes are expected and the other way round, and nil for any of them. A length of -1, which stands for
nil, is `none` here.

`Skip` and `DecodeInterface` go down into the value they read. The number of levels they may go down is
given to them; a value has no more levels than bytes.
-/

namespace Msgpack

open Go Decoding

variable {α : Type}

/-- The format `%x` of a byte. -/
def hex (c : UInt8) : String := String.ofList (Nat.toDigits 16 c.toNat)

/-- The error for a code that does not begin what is expected. -/
def invalidCode (c : UInt8) (what : String) : Decoder α :=
  throw (.error ("msgpack: invalid code " ++ hex c ++ " decoding " ++ what))

/-! ## Numbers -/

/-- `uint8`, `uint16`, `uint32` and `uint64`: a number of `k` bytes. -/
def decodeBigEndian (k : Nat) : Decoder Nat := do
  let bs ← readN k
  return BigEndian.value bs

/-- `uint`. -/
def uint (c : UInt8) : Decoder UInt64 :=
  if c = Code.null then return 0
  else if isFixedNum c then return c.toInt8.toInt64.toUInt64
  else
    match c with
    | Code.uint8 => return UInt64.ofNat (← decodeBigEndian 1)
    | Code.int8 => return (UInt8.ofNat (← decodeBigEndian 1)).toInt8.toInt64.toUInt64
    | Code.uint16 => return UInt64.ofNat (← decodeBigEndian 2)
    | Code.int16 => return (UInt16.ofNat (← decodeBigEndian 2)).toInt16.toInt64.toUInt64
    | Code.uint32 => return UInt64.ofNat (← decodeBigEndian 4)
    | Code.int32 => return (UInt32.ofNat (← decodeBigEndian 4)).toInt32.toInt64.toUInt64
    | Code.uint64 | Code.int64 => return UInt64.ofNat (← decodeBigEndian 8)
    | _ => invalidCode c "uint64"

/-- `DecodeUint64`. -/
def decodeUint64 : Decoder UInt64 := readByte >>= uint

/-- `int`. -/
def int (c : UInt8) : Decoder Int64 :=
  if c = Code.null then return 0
  else if isFixedNum c then return c.toInt8.toInt64
  else
    match c with
    | Code.uint8 => return (UInt64.ofNat (← decodeBigEndian 1)).toInt64
    | Code.int8 => return (UInt8.ofNat (← decodeBigEndian 1)).toInt8.toInt64
    | Code.uint16 => return (UInt64.ofNat (← decodeBigEndian 2)).toInt64
    | Code.int16 => return (UInt16.ofNat (← decodeBigEndian 2)).toInt16.toInt64
    | Code.uint32 => return (UInt64.ofNat (← decodeBigEndian 4)).toInt64
    | Code.int32 => return (UInt32.ofNat (← decodeBigEndian 4)).toInt32.toInt64
    | Code.uint64 | Code.int64 => return (UInt64.ofNat (← decodeBigEndian 8)).toInt64
    | _ => invalidCode c "int64"

/-- `DecodeInt64`. -/
def decodeInt64 : Decoder Int64 := readByte >>= int

/-! ## Lengths -/

/-- `bytesLen`. -/
def bytesLen (c : UInt8) : Decoder (Option Nat) :=
  if c = Code.null then return none
  else if isFixedString c then return some (c &&& Code.fixedStrMask).toNat
  else
    match c with
    | Code.str8 | Code.bin8 => return some (← decodeBigEndian 1)
    | Code.str16 | Code.bin16 => return some (← decodeBigEndian 2)
    | Code.str32 | Code.bin32 => return some (← decodeBigEndian 4)
    | _ => invalidCode c "bytes length"

/-- `arrayLen`. -/
def arrayLen (c : UInt8) : Decoder (Option Nat) :=
  if c = Code.null then return none
  else if isFixedArray c then return some (c &&& Code.fixedArrayMask).toNat
  else
    match c with
    | Code.array16 => return some (← decodeBigEndian 2)
    | Code.array32 => return some (← decodeBigEndian 4)
    | _ => invalidCode c "array length"

/-- `mapLen`. -/
def mapLen (c : UInt8) : Decoder (Option Nat) :=
  if c = Code.null then return none
  else if isFixedMap c then return some (c &&& Code.fixedMapMask).toNat
  else if c = Code.map16 then return some (← decodeBigEndian 2)
  else if c = Code.map32 then return some (← decodeBigEndian 4)
  else invalidCode c "map length"

/-- `extLen`. -/
def extLen (c : UInt8) : Decoder Nat :=
  match c with
  | Code.fixExt1 => return 1
  | Code.fixExt2 => return 2
  | Code.fixExt4 => return 4
  | Code.fixExt8 => return 8
  | Code.fixExt16 => return 16
  | Code.ext8 => decodeBigEndian 1
  | Code.ext16 => decodeBigEndian 2
  | Code.ext32 => decodeBigEndian 4
  | _ => invalidCode c "ext length"

/-! ## Strings -/

/-- `bytes`. -/
def bytes (c : UInt8) : Decoder (Option Bytes) := do
  match ← bytesLen c with
  | none => return none
  | some n => return some (← readN n)

/-- `string`; nil is the empty string. -/
def string (c : UInt8) : Decoder Bytes := do
  return (← bytes c).getD []

/-- `DecodeString`. -/
def decodeString : Decoder Bytes := readByte >>= string

/-- `DecodeBytes`. -/
def decodeBytes : Decoder (Option Bytes) := readByte >>= bytes

/-- `decodeByteArrayValue` into an array of `n` bytes: what is written to it, from its first byte on. -/
def decodeByteArray (n : Nat) : Decoder Bytes := do
  match ← readByte >>= bytesLen with
  | none => return []
  | some k =>
    if k > n then
      throw (.error ("[" ++ toString n ++ "]uint8 len is " ++ toString n ++ ", but msgpack has " ++
        toString k ++ " elements"))
    else readN k

/-! ## Skipping -/

/-- `skipBytes`. -/
def skipBytes (c : UInt8) : Decoder Unit := do
  discard (bytes c)

/-- `skipN`. -/
def skipN (n : Nat) : Decoder Unit := do
  discard (readN n)

/-- `skipExt`. The byte with the type of the extension is not counted. -/
def skipExt (c : UInt8) : Decoder Unit := extLen c >>= skipN

/-- `skipMap`, where `next` skips a key or a value. -/
def skipMap (next : Decoder Unit) (c : UInt8) : Decoder Unit := do
  times ((← mapLen c).getD 0) do
    next
    next

/-- `skipSlice`, where `next` skips an element. -/
def skipSlice (next : Decoder Unit) (c : UInt8) : Decoder Unit := do
  times ((← arrayLen c).getD 0) next

/-- `Skip` after the code, where `next` skips what is inside the value. -/
def skipAt (next : Decoder Unit) (c : UInt8) : Decoder Unit :=
  if isFixedNum c then return
  else if isFixedMap c then skipMap next c
  else if isFixedArray c then skipSlice next c
  else if isFixedString c then skipBytes c
  else
    match c with
    | Code.null | Code.no | Code.yes => return
    | Code.uint8 | Code.int8 => skipN 1
    | Code.uint16 | Code.int16 => skipN 2
    | Code.uint32 | Code.int32 | Code.float => skipN 4
    | Code.uint64 | Code.int64 | Code.double => skipN 8
    | Code.bin8 | Code.bin16 | Code.bin32 => skipBytes c
    | Code.str8 | Code.str16 | Code.str32 => skipBytes c
    | Code.array16 | Code.array32 => skipSlice next c
    | Code.map16 | Code.map32 => skipMap next c
    | Code.fixExt1 | Code.fixExt2 | Code.fixExt4 | Code.fixExt8 | Code.fixExt16
    | Code.ext8 | Code.ext16 | Code.ext32 => skipExt c
    | _ => throw (.error ("msgpack: unknown code " ++ hex c))

/-- `Skip`. -/
def skip : (levels : Nat) → Decoder Unit
  | 0 => endOfInput
  | levels + 1 => readByte >>= skipAt (skip levels)

/-! ## Values of any type -/

/-- What `DecodeInterface` returns, as far as the code below tells values apart. -/
inductive AnyValue where
  | nil
  /-- A value that can be the key of a map. -/
  | hashable
  /-- A slice or a map, which cannot. -/
  | unhashable
  deriving DecidableEq, Repr

/-- `m[mk] = mv`. -/
def assignKey (mk : AnyValue) : Decoder Unit :=
  match mk with
  | .unhashable => throw .panic
  | _ => return

/-- The error for an extension of a type that is not registered. -/
def unregistered (extId : UInt8) : Fault := .error ("msgpack: unregistered ext id " ++ toString extId.toNat)

/-- `ext`. No type of extension is registered. -/
def ext (c : UInt8) : Decoder AnyValue := do
  let _ ← extLen c
  let extId ← readByte
  throw (unregistered extId)

/-- `decodeMap`, where `next` decodes keys and values. The code is put back and read again by
`DecodeMapLen`, which finds that it is not that of an extension. -/
def decodeMap (next : Decoder AnyValue) (c : UInt8) : Decoder AnyValue := do
  match ← mapLen c with
  | none => return .nil
  | some n =>
    times n do
      let mk ← next
      let _ ← next
      assignKey mk
    return .unhashable

/-- `decodeSlice`, where `next` decodes elements. -/
def decodeSlice (next : Decoder AnyValue) (c : UInt8) : Decoder AnyValue := do
  times ((← arrayLen c).getD 0) (discard next)
  return .unhashable

/-- A value that cannot hold others. -/
def hashable {α : Type} (d : Decoder α) : Decoder AnyValue := do
  discard d
  return .hashable

/-- `DecodeInterface` after the code, where `next` decodes what is inside the value. -/
def interfaceAt (next : Decoder AnyValue) (c : UInt8) : Decoder AnyValue :=
  if isFixedNum c then return .hashable
  else if isFixedMap c then decodeMap next c
  else if isFixedArray c then decodeSlice next c
  else if isFixedString c then hashable (string c)
  else
    match c with
    | Code.null => return .nil
    | Code.no | Code.yes => return .hashable
    | Code.float => hashable (decodeBigEndian 4)
    | Code.double => hashable (decodeBigEndian 8)
    | Code.uint8 | Code.uint16 | Code.uint32 | Code.uint64 => hashable (uint c)
    | Code.int8 | Code.int16 | Code.int32 | Code.int64 => hashable (int c)
    | Code.bin8 | Code.bin16 | Code.bin32 => do
      discard (bytes c)
      return .unhashable
    | Code.str8 | Code.str16 | Code.str32 => hashable (string c)
    | Code.array16 | Code.array32 => decodeSlice next c
    | Code.map16 | Code.map32 => decodeMap next c
    | Code.fixExt1 | Code.fixExt2 | Code.fixExt4 | Code.fixExt8 | Code.fixExt16
    | Code.ext8 | Code.ext16 | Code.ext32 => ext c
    | _ => throw (.error ("msgpack: unknown code " ++ hex c ++ " decoding interface\x7b\x7d"))

/-- `DecodeInterface`. -/
def decodeInterface : (levels : Nat) → Decoder AnyValue
  | 0 => endOfInput
  | levels + 1 => readByte >>= interfaceAt (decodeInterface levels)

end Msgpack
