import Zif.Go.Basic

/-!
# MessagePack: writing

The encoder of the package `msgpack`, for the types that messages are made of. A value begins with a code
that says what it is; small numbers and short lengths are part of the code, and others follow it in big
endian order, in the shortest of the widths there are.

A slice that can be nil is an `Option`, since nil is written in another way than an empty slice.
-/

namespace Msgpack

open Go

/-! ## Codes -/

namespace Code

@[match_pattern] abbrev null : UInt8 := 0xc0
@[match_pattern] abbrev no : UInt8 := 0xc2
@[match_pattern] abbrev yes : UInt8 := 0xc3
@[match_pattern] abbrev float : UInt8 := 0xca
@[match_pattern] abbrev double : UInt8 := 0xcb
@[match_pattern] abbrev uint8 : UInt8 := 0xcc
@[match_pattern] abbrev uint16 : UInt8 := 0xcd
@[match_pattern] abbrev uint32 : UInt8 := 0xce
@[match_pattern] abbrev uint64 : UInt8 := 0xcf
@[match_pattern] abbrev int8 : UInt8 := 0xd0
@[match_pattern] abbrev int16 : UInt8 := 0xd1
@[match_pattern] abbrev int32 : UInt8 := 0xd2
@[match_pattern] abbrev int64 : UInt8 := 0xd3
@[match_pattern] abbrev str8 : UInt8 := 0xd9
@[match_pattern] abbrev str16 : UInt8 := 0xda
@[match_pattern] abbrev str32 : UInt8 := 0xdb
@[match_pattern] abbrev bin8 : UInt8 := 0xc4
@[match_pattern] abbrev bin16 : UInt8 := 0xc5
@[match_pattern] abbrev bin32 : UInt8 := 0xc6
@[match_pattern] abbrev array16 : UInt8 := 0xdc
@[match_pattern] abbrev array32 : UInt8 := 0xdd
@[match_pattern] abbrev map16 : UInt8 := 0xde
@[match_pattern] abbrev map32 : UInt8 := 0xdf
@[match_pattern] abbrev fixExt1 : UInt8 := 0xd4
@[match_pattern] abbrev fixExt2 : UInt8 := 0xd5
@[match_pattern] abbrev fixExt4 : UInt8 := 0xd6
@[match_pattern] abbrev fixExt8 : UInt8 := 0xd7
@[match_pattern] abbrev fixExt16 : UInt8 := 0xd8
@[match_pattern] abbrev ext8 : UInt8 := 0xc7
@[match_pattern] abbrev ext16 : UInt8 := 0xc8
@[match_pattern] abbrev ext32 : UInt8 := 0xc9

abbrev posFixedNumHigh : UInt8 := 0x7f
abbrev negFixedNumLow : UInt8 := 0xe0
abbrev fixedStrLow : UInt8 := 0xa0
abbrev fixedStrHigh : UInt8 := 0xbf
abbrev fixedStrMask : UInt8 := 0x1f
abbrev fixedArrayLow : UInt8 := 0x90
abbrev fixedArrayHigh : UInt8 := 0x9f
abbrev fixedArrayMask : UInt8 := 0xf
abbrev fixedMapLow : UInt8 := 0x80
abbrev fixedMapHigh : UInt8 := 0x8f
abbrev fixedMapMask : UInt8 := 0xf

end Code

/-- `IsFixedNum`. -/
def isFixedNum (c : UInt8) : Bool := c ≤ Code.posFixedNumHigh || c ≥ Code.negFixedNumLow

/-- `IsFixedMap`. -/
def isFixedMap (c : UInt8) : Bool := c ≥ Code.fixedMapLow && c ≤ Code.fixedMapHigh

/-- `IsFixedArray`. -/
def isFixedArray (c : UInt8) : Bool := c ≥ Code.fixedArrayLow && c ≤ Code.fixedArrayHigh

/-- `IsFixedString`. -/
def isFixedString (c : UInt8) : Bool := c ≥ Code.fixedStrLow && c ≤ Code.fixedStrHigh

/-! ## Numbers -/

/-- The lowest `k` bytes of a number, most significant first. -/
def bigEndian : (k : Nat) → (n : Nat) → Bytes
  | 0, _ => []
  | k + 1, n => UInt8.ofNat (n / 256 ^ k) :: bigEndian k n

/-- `write1`, `write2`, `write4` and `write8`: a code, and a number of `k` bytes. -/
def write (k : Nat) (code : UInt8) (n : Nat) : Bytes := code :: bigEndian k n

/-- `EncodeUint64`. -/
def encodeUint64 (v : UInt64) : Bytes :=
  if v ≤ 127 then [v.toUInt8]
  else if v ≤ 0xff then write 1 Code.uint8 v.toNat
  else if v ≤ 0xffff then write 2 Code.uint16 v.toNat
  else if v ≤ 0xffffffff then write 4 Code.uint32 v.toNat
  else write 8 Code.uint64 v.toNat

/-- `EncodeInt64`. -/
def encodeInt64 (v : Int64) : Bytes :=
  if v ≥ 0 then encodeUint64 v.toUInt64
  else if v ≥ -32 then [v.toUInt64.toUInt8]
  else if v ≥ -128 then write 1 Code.int8 v.toUInt64.toNat
  else if v ≥ -32768 then write 2 Code.int16 v.toUInt64.toNat
  else if v ≥ -2147483648 then write 4 Code.int32 v.toUInt64.toNat
  else write 8 Code.int64 v.toUInt64.toNat

/-! ## Strings -/

/-- The bytes of a text. -/
def utf8 (s : String) : Bytes := s.toList.flatMap String.utf8EncodeChar

/-- `EncodeNil`. -/
def encodeNil : Bytes := [Code.null]

/-- `EncodeBool`. -/
def encodeBool (v : Bool) : Bytes := if v then [Code.yes] else [Code.no]

/-- `EncodeBytesLen`. -/
def encodeBytesLen (l : Nat) : Bytes :=
  if l < 256 then write 1 Code.bin8 l
  else if l < 65536 then write 2 Code.bin16 l
  else write 4 Code.bin32 l

/-- `encodeStrLen`. -/
def encodeStrLen (l : Nat) : Bytes :=
  if l < 32 then [Code.fixedStrLow ||| UInt8.ofNat l]
  else if l < 256 then write 1 Code.str8 l
  else if l < 65536 then write 2 Code.str16 l
  else write 4 Code.str32 l

/-- `EncodeString`. -/
def encodeString (v : Bytes) : Bytes := encodeStrLen v.length ++ v

/-- `EncodeBytes`. -/
def encodeBytes : Option Bytes → Bytes
  | none => encodeNil
  | some v => encodeBytesLen v.length ++ v

/-! ## Collections -/

/-- `EncodeArrayLen`. -/
def encodeArrayLen (l : Nat) : Bytes :=
  if l < 16 then [Code.fixedArrayLow ||| UInt8.ofNat l]
  else if l < 65536 then write 2 Code.array16 l
  else write 4 Code.array32 l

/-- `EncodeMapLen`. -/
def encodeMapLen (l : Nat) : Bytes :=
  if l < 16 then [Code.fixedMapLow ||| UInt8.ofNat l]
  else if l < 65536 then write 2 Code.map16 l
  else write 4 Code.map32 l

/-- `encodeExtLen`. -/
def encodeExtLen (l : Nat) : Bytes :=
  if l = 1 then [Code.fixExt1]
  else if l = 2 then [Code.fixExt2]
  else if l = 4 then [Code.fixExt4]
  else if l = 8 then [Code.fixExt8]
  else if l = 16 then [Code.fixExt16]
  else if l < 256 then write 1 Code.ext8 l
  else if l < 65536 then write 2 Code.ext16 l
  else write 4 Code.ext32 l

/-- `encodeSliceValue`, with what encodes an element. -/
def encodeSlice {α : Type} (encode : α → Bytes) : Option (List α) → Bytes
  | none => encodeNil
  | some l => encodeArrayLen l.length ++ l.flatMap encode

end Msgpack
