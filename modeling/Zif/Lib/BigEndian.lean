import Zif.Go.Basic

/-!
# Byte strings as numbers

The big-endian value of a byte string, the shortest byte string with a given value, and the bits of a
byte string.
-/

namespace BigEndian

open Go

/-- The number a byte string stands for, most significant byte first. -/
def value (bs : Bytes) : Nat := Nat.ofDigits 256 (bs.reverse.map UInt8.toNat)

/-- The byte string of a number, most significant byte first and without leading zero bytes. -/
def bytes (n : Nat) : Bytes := (Nat.digits 256 n).reverse.map UInt8.ofNat

/-- The bits of a byte, most significant bit first. -/
def byteBits (b : UInt8) : List Bool := (List.range 8).map fun j => b.toNat.testBit (7 - j)

/-- The bits of a byte string, most significant bit first. -/
def bits (bs : Bytes) : List Bool := bs.flatMap byteBits

/-- The length of the longest common prefix of two bit strings. -/
def commonPrefix : List Bool → List Bool → Nat
  | x :: xs, y :: ys => if x = y then commonPrefix xs ys + 1 else 0
  | _, _ => 0

end BigEndian
