import Zif.Prims
import Zif.Lib.BigEndian

/-!
# `base58check`

The vendored packages `base58` and `base58check`, with SHA-256 as a parameter. `encode` prepends a
version byte, appends four checksum bytes and writes the result in base 58; `decode` cuts both off
again without looking at them. `big.Int.SetBytes` and `big.Int.Bytes` are `BigEndian.value` and
`BigEndian.bytes`.
-/

namespace Zif.Base58

open Go

/-- The base 58 digits in order of value. -/
def alphabet : Bytes := "123456789ABCDEFGHJKLMNPQRSTUVWXYZabcdefghijkmnopqrstuvwxyz".toUTF8.toList

/-- `decodeMap`, with `none` for `0xFF`. -/
def decodeMap (b : UInt8) : Option Nat := alphabet.idxOf? b

/-- `EncodeBig` with an empty destination. -/
def encodeBig (n : Nat) : Bytes := (Nat.digits 58 n).reverse.map fun d => alphabet.getD d 0

/-- The first loop of `EncodeBig`: the digits of `n` are appended to `dst`, the last one first. -/
def appendDigits (dst : Bytes) (n : Nat) : Bytes :=
  if n > 0 then appendDigits (dst ++ [alphabet.getD (n % 58) 0]) (n / 58) else dst
termination_by n
decreasing_by omega

/-- The second loop of `EncodeBig` with its two indices. -/
def swapFrom (dst : Bytes) (i j : Nat) : Bytes :=
  if i < j then swapFrom ((dst.set i (dst.getD j 0)).set j (dst.getD i 0)) (i + 1) (j - 1) else dst
termination_by j - i

/-- `EncodeBig` as it runs: the digits are appended and then turned round in place. -/
def encodeBigOnto (dst : Bytes) (src : Nat) : Bytes :=
  let digits := appendDigits dst src
  swapFrom digits dst.length (digits.length - 1)

/-- The loop of `DecodeToBig` from input byte `i` on, with `n` accumulated so far. -/
def decodeToBigFrom (i n : Nat) : Bytes → Result Nat
  | [] => .ok n
  | b :: src =>
    match decodeMap b with
    | none => .error (.error ("illegal base58 data at input byte " ++ toString i))
    | some d => decodeToBigFrom (i + 1) (n * 58 + d) src

/-- `DecodeToBig`. -/
def decodeToBig (src : Bytes) : Result Nat := decodeToBigFrom 0 0 src

/-- The version byte and the payload followed by their checksum. -/
def withChecksum (P : Prims) (pre : UInt8) (byteData : Bytes) : Bytes :=
  (pre :: byteData) ++ (P.sha256 (P.sha256 (pre :: byteData))).take 4

/-- `base58check.Encode`. -/
def encode (P : Prims) (pre : UInt8) (byteData : Bytes) : Bytes :=
  let encodedChecksum := withChecksum P pre byteData
  let zeroBytes := (encodedChecksum.takeWhile (· = 0)).length
  List.replicate zeroBytes 49 ++ encodeBig (BigEndian.value encodedChecksum)

/-- `base58check.Decode`. The two slice expressions panic on a value that is too short. -/
def decode (value : Bytes) : Result Bytes := do
  let zeroBytes := (value.takeWhile (· = 49)).length
  let publicKeyInt ← decodeToBig value
  let encodedChecksum := BigEndian.bytes publicKeyInt
  if encodedChecksum.length < 4 then
    .error .panic
  else
    match List.replicate zeroBytes 0 ++ encodedChecksum.take (encodedChecksum.length - 4) with
    | [] => .error .panic
    | _ :: data => .ok data

end Zif.Base58
