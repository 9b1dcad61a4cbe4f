import Mathlib

/-!
# The parts of Go the node is written in

Strings and byte slices are byte lists (a Go string is any byte sequence, not only valid UTF-8). A
call either returns a value, returns an `error`, or panics; panics are kept apart from errors since a
caller can test the latter and dies of the former.

`itoa`/`atoi` are `strconv.Itoa` and `strconv.Atoi`, `runeString` is the conversion `string(n)` of an
integer `n`, and `copyInto` is the builtin `copy` on whole slices. A map that is used as a set is the set
of its keys, and `MapOrder` is an order in which a loop may go over them.
-/

namespace Go

/-- A Go `string` or `[]byte`. -/
abbrev Bytes := List UInt8

/-- How a call can fail: with an `error` value, or by a panic. -/
inductive Fault where
  /-- A returned `error`, with its text. -/
  | error (msg : String)
  /-- A run-time panic (index or slice bounds out of range, nil dereference, explicit `panic`). -/
  | panic
  deriving DecidableEq, Repr

/-- The outcome of a Go call. -/
abbrev Result := Except Fault

/-! ## Decimal numbers -/

/-- The decimal digits of `n`, most significant first, as ASCII bytes. -/
def decimal (n : Nat) : Bytes :=
  if n = 0 then [48] else (Nat.digits 10 n).reverse.map fun d => UInt8.ofNat (48 + d)

/-- `strconv.Itoa`. -/
def itoa (n : Int) : Bytes :=
  if n < 0 then 45 :: decimal n.natAbs else decimal n.natAbs

/-- `true` for the bytes `'0'` to `'9'`. -/
def isDigit (b : UInt8) : Bool := 48 ≤ b.toNat && b.toNat ≤ 57

/-- The value of a digit string, `none` when it is empty or holds anything but digits. -/
def digitsVal (s : Bytes) : Option Nat :=
  if s.isEmpty || !s.all isDigit then none
  else some (Nat.ofDigits 10 (s.reverse.map fun b => b.toNat - 48))

/-- `strconv.Atoi` on a 64-bit platform: an optional sign and at least one digit, in range. -/
def atoi (s : Bytes) : Option Int64 :=
  match s with
  | 45 :: t => (digitsVal t).bind fun v => if v ≤ 2 ^ 63 then some (Int64.ofInt (-v)) else none
  | 43 :: t => (digitsVal t).bind fun v => if v < 2 ^ 63 then some (Int64.ofInt v) else none
  | t => (digitsVal t).bind fun v => if v < 2 ^ 63 then some (Int64.ofInt v) else none

/-! ## Runes -/

/-- The code point an integer is converted to; values outside the Unicode range and surrogate halves
become U+FFFD. -/
def rune (n : Int) : Char :=
  if 0 ≤ n ∧ n.toNat.isValidChar then Char.ofNat n.toNat else Char.ofNat 0xFFFD

/-- The conversion `string(n)` of an integer: the UTF-8 encoding of its code point. -/
def runeString (n : Int) : Bytes := String.utf8EncodeChar (rune n)

/-! ## Copying -/

/-- `copy(dst, src)`: overwrites a prefix of `dst`, as far as both reach. -/
def copyInto {α : Type} (dst src : List α) : List α :=
  src.take dst.length ++ dst.drop src.length

/-! ## Maps -/

/-- An order in which `range` goes over the keys of a map; the language leaves it open. -/
structure MapOrder (α : Type) where
  keys : Finset α → List α
  /-- Every key is met, and met once. -/
  keys_eq : ∀ s, (keys s : Multiset α) = s.val

end Go
