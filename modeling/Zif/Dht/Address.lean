import Zif.Dht.Base58

/-!
# Addresses

An address is the 20-byte BLAKE2 digest of the SHA3 digest of a public key. The struct also carries
its base58check form, which a message from the network can preset to anything.
-/

namespace Zif.Dht

open Go

/-- `AddressBinarySize`. -/
def addressBinarySize : Nat := 20

/-- `Address`. -/
structure Address where
  /-- The binary address. -/
  raw : Bytes
  /-- The cached text form, empty when it has not been computed. -/
  encoded : Bytes := []
  deriving DecidableEq, Repr

namespace Address

variable (P : Prims)

/-- The text form of a binary address. -/
def encodeRaw (raw : Bytes) : Bytes := Base58.encode P 0x51 raw

/-- `Address.String`. The cached form is returned as it is. -/
def string (a : Address) : Bytes :=
  if a.encoded.length > 0 then a.encoded else encodeRaw P a.raw

/-- The cached form, if there is one, is the text form of the binary address. -/
def Canonical (a : Address) : Prop := a.encoded = [] ∨ a.encoded = encodeRaw P a.raw

instance : DecidablePred (Canonical P) := fun a =>
  inferInstanceAs (Decidable (a.encoded = [] ∨ a.encoded = encodeRaw P a.raw))

/-- `DecodeAddress`. -/
def decodeAddress (value : Bytes) : Result Address := do
  let raw ← Base58.decode value
  .ok { raw }

/-- `Address.Generate`. The call of `String` at its end caches the text form; one that is there already
stays. -/
def generate (a : Address) (key : Bytes) : Result Address :=
  if key.length ≠ 32 then .error (.error "Public key is not 32 bytes")
  else
    let raw := P.blake2 (P.sha3 key)
    .ok { raw, encoded := string P { a with raw } }

/-- `NewAddress`, which drops the error of `Generate`. -/
def newAddress (key : Bytes) : Address :=
  match generate P { raw := [] } key with
  | .ok a => a
  | .error _ => { raw := [] }

/-- `Address.Equals`. -/
def equals (a other : Address) : Bool := a.raw = other.raw

/-- The loop of `Address.Less`; it indexes the other address, which panics when that is shorter. -/
def lessRaw : Bytes → Bytes → Result Bool
  | [], _ => .ok false
  | _ :: _, [] => .error .panic
  | x :: xs, y :: ys => if x ≠ y then .ok (decide (x < y)) else lessRaw xs ys

/-- `Address.Less`. -/
def less (a other : Address) : Result Bool := lessRaw a.raw other.raw

/-- The loop of `Address.Xor`; it indexes the other address, which panics when that is shorter. -/
def xorRaw : Bytes → Bytes → Result Bytes
  | [], _ => .ok []
  | _ :: _, [] => .error .panic
  | x :: xs, y :: ys => do
    let zs ← xorRaw xs ys
    .ok ((x ^^^ y) :: zs)

/-- `Address.Xor`. -/
def xor (a other : Address) : Result Address := do
  let raw ← xorRaw a.raw other.raw
  .ok { raw }

/-- The inner loop of `Address.LeadingZeroes`: the first set bit of a byte, from the left. -/
def leadingBit (b : UInt8) : Option Nat :=
  (List.range 8).find? fun j => (b >>> UInt8.ofNat (7 - j)) &&& 1 ≠ 0

/-- The outer loop of `Address.LeadingZeroes` from byte `i` on. -/
def leadingZeroesFrom (i : Nat) : Bytes → Option Nat
  | [] => none
  | b :: raw =>
    match leadingBit b with
    | some j => some (i * 8 + j)
    | none => leadingZeroesFrom (i + 1) raw

/-- `Address.LeadingZeroes`. Without a set bit the result is one less than the number of bits. -/
def leadingZeroes (a : Address) : Int :=
  match leadingZeroesFrom 0 a.raw with
  | some n => n
  | none => (a.raw.length : Int) * 8 - 1

end Address

end Zif.Dht
