import Zif.Msgpack.Decode

/-!
# MessagePack: values of any type

What can be written where an interface is decoded, and what `DecodeInterface` comes to for it (`load`).
-/

namespace Msgpack

open Go

/-- A value that can be written. -/
inductive Value where
  | nil
  | bool (v : Bool)
  | int (v : Int64)
  | uint (v : UInt64)
  /-- The bits of a `float32`. -/
  | float (bits : Nat)
  /-- The bits of a `float64`. -/
  | double (bits : Nat)
  | str (v : Bytes)
  | bin (v : Bytes)
  | array (elems : List Value)
  | map (pairs : List (Value × Value))
  /-- An extension, of a type that has a number. -/
  | ext (extId : UInt8) (data : Bytes)

namespace Value

mutual

/-- The encoding of a value. -/
def encode : Value → Bytes
  | nil => encodeNil
  | bool v => encodeBool v
  | int v => encodeInt64 v
  | uint v => encodeUint64 v
  | float bits => write 4 Code.float bits
  | double bits => write 8 Code.double bits
  | str v => encodeString v
  | bin v => encodeBytes (some v)
  | array elems => encodeArrayLen elems.length ++ encodeElems elems
  | map pairs => encodeMapLen pairs.length ++ encodePairs pairs
  | ext extId data => encodeExtLen data.length ++ extId :: data

/-- The elements of an array. -/
def encodeElems : List Value → Bytes
  | [] => []
  | v :: vs => v.encode ++ encodeElems vs

/-- The pairs of a map. -/
def encodePairs : List (Value × Value) → Bytes
  | [] => []
  | (k, v) :: ps => k.encode ++ (v.encode ++ encodePairs ps)

end

mutual

/-- The number of levels of a value. -/
def height : Value → Nat
  | array elems => heightElems elems + 1
  | map pairs => heightPairs pairs + 1
  | _ => 1

/-- The number of levels of the elements of an array. -/
def heightElems : List Value → Nat
  | [] => 0
  | v :: vs => max v.height (heightElems vs)

/-- The number of levels in a map. -/
def heightPairs : List (Value × Value) → Nat
  | [] => 0
  | (k, v) :: ps => max (max k.height v.height) (heightPairs ps)

end

mutual

/-- What `DecodeInterface` comes to: a value, an error at the first extension, or a panic at the first pair of a map
that has a slice or a map for its key. -/
def load : Value → Result AnyValue
  | nil => .ok .nil
  | bool _ | int _ | uint _ | float _ | double _ | str _ => .ok .hashable
  | bin _ => .ok .unhashable
  | array elems => loadElems elems >>= fun _ => .ok .unhashable
  | map pairs => loadPairs pairs >>= fun _ => .ok .unhashable
  | ext extId _ => .error (unregistered extId)

/-- The elements of an array. -/
def loadElems : List Value → Result Unit
  | [] => .ok ()
  | v :: vs => v.load >>= fun _ => loadElems vs

/-- The pairs of a map. -/
def loadPairs : List (Value × Value) → Result Unit
  | [] => .ok ()
  | (k, v) :: ps => (k.load >>= fun mk => v.load >>= fun _ =>
      if mk = .unhashable then .error .panic else .ok ()) >>= fun _ => loadPairs ps

end

mutual

/-- There is no extension in the value. -/
def Plain : Value → Prop
  | array elems => PlainElems elems
  | map pairs => PlainPairs pairs
  | ext _ _ => False
  | _ => True

/-- There is none in the elements of an array. -/
def PlainElems : List Value → Prop
  | [] => True
  | v :: vs => v.Plain ∧ PlainElems vs

/-- There is none in a map. -/
def PlainPairs : List (Value × Value) → Prop
  | [] => True
  | (k, v) :: ps => k.Plain ∧ v.Plain ∧ PlainPairs ps

end

end Value

end Msgpack
