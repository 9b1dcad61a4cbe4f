import Zif.Go.Basic

/-!
# What the node relies on

The hash functions, the signature scheme and the database engine are not part of the node. They
enter the model as the structure `Prims`, whose fields are the functions the node calls and the
documented facts it depends on: digest and signature sizes, that an honestly made signature is
accepted, and how a `STRING` column of SQLite treats text.

A column declared `STRING` has NUMERIC affinity: text that is a well-formed number is stored as that
number, and the driver reads it back in a form of its own. Text with a byte that occurs in no number
is stored as it is. `Cell` is what such a column holds. Nothing is assumed of a number that is read and
stored again: the conversions of SQLite round, and the second text can differ from the first.
-/

namespace Zif

open Go

/-- The bytes that can occur in text SQLite takes for a number: digits, signs, the decimal point, the
exponent letter and white space. -/
def numericByte (b : UInt8) : Bool :=
  isDigit b || b = 43 || b = 45 || b = 46 || b = 69 || b = 101 || b = 32 ||
    (9 ≤ b.toNat && b.toNat ≤ 13)

/-- The functions the node calls but does not contain. -/
structure Prims where
  /-- SHA3-256. -/
  sha3 : Bytes → Bytes
  sha3_length : ∀ b, (sha3 b).length = 32
  /-- BLAKE2b with a digest of `AddressBinarySize` bytes. -/
  blake2 : Bytes → Bytes
  blake2_length : ∀ b, (blake2 b).length = 20
  /-- SHA-256. -/
  sha256 : Bytes → Bytes
  sha256_length : ∀ b, (sha256 b).length = 32
  /-- The check of an ed25519 signature: key, message, signature. -/
  edVerify : Bytes → Bytes → Bytes → Bool
  /-- The public half of a private key. -/
  edPublic : Bytes → Bytes
  edPublic_length : ∀ k, (edPublic k).length = 32
  /-- Signing with a private key. -/
  edSign : Bytes → Bytes → Bytes
  edSign_length : ∀ k m, (edSign k m).length = 64
  edVerify_sign : ∀ k m, edVerify (edPublic k) m (edSign k m) = true
  /-- The number a text is well-formed for, in the form the driver reads it back. -/
  number : Bytes → Option Bytes
  number_plain : ∀ s, (∃ b ∈ s, numericByte b = false) → number s = none

/-- `ed25519.PublicKeySize`. -/
def publicKeySize : Nat := 32

/-- `ed25519.SignatureSize`. -/
def signatureSize : Nat := 64

/-- `ed25519.Verify`: panics on a key of the wrong size, rejects a signature of the wrong size. -/
def Prims.ed25519Verify (P : Prims) (key msg sig : Bytes) : Result Bool :=
  if key.length ≠ publicKeySize then .error .panic
  else .ok (decide (sig.length = signatureSize) && P.edVerify key msg sig)

/-- The value of a `STRING` column. -/
inductive Cell where
  /-- Text, stored byte for byte. -/
  | text (b : Bytes)
  /-- A number, given by the text it is read back as. -/
  | number (canonical : Bytes)
  deriving DecidableEq, Repr

/-- What is stored for the text `s`; a comparison with the column treats its other side alike. -/
def Prims.store (P : Prims) (s : Bytes) : Cell :=
  match P.number s with
  | some c => .number c
  | none => .text s

/-- What is read back. -/
def Cell.load : Cell → Bytes
  | .text b => b
  | .number c => c

/-- The text is read back as it was written. -/
def Prims.ReadsBack (P : Prims) (s : Bytes) : Prop := (P.store s).load = s

instance (P : Prims) (s : Bytes) : Decidable (P.ReadsBack s) :=
  inferInstanceAs (Decidable ((P.store s).load = s))

/-- The texts are well-formed for the same number. -/
def Prims.SameNumber (P : Prims) (s t : Bytes) : Prop := ∃ c, P.number s = some c ∧ P.number t = some c

/-- `database/sql` refuses an argument of type `uint64` whose high bit is set. A `uint` is converted
without a check. -/
def driverAccepts (n : UInt64) : Bool := n.toNat < 2 ^ 63

/-- The text of that refusal, with the place of the argument in the statement. -/
def highBitError (argument : String) : String :=
  "sql: converting argument " ++ argument ++
    " type: uint64 values with high bit set are not supported"

/-! ## A computable instance -/

/-- A polynomial in the bytes of a message, in place of a hash of `n` bytes. -/
def sampleDigest (n : Nat) (m : Bytes) : Bytes :=
  let h := m.foldl (fun h b => (h * 257 + b.toNat + 1) % 2 ^ 256) 1
  (List.range n).map fun i => UInt8.ofNat (h / 256 ^ i)

/-- An instance of `Prims` that can be evaluated. A signature is the public key followed by the
digest of the message, and no text is taken for a number. -/
def Prims.sample : Prims where
  sha3 := sampleDigest 32
  sha3_length := by simp [sampleDigest]
  blake2 := sampleDigest 20
  blake2_length := by simp [sampleDigest]
  sha256 := sampleDigest 32
  sha256_length := by simp [sampleDigest]
  edVerify key msg sig := sig = key ++ sampleDigest 32 msg
  edPublic := sampleDigest 32
  edPublic_length := by simp [sampleDigest]
  edSign key msg := sampleDigest 32 key ++ sampleDigest 32 msg
  edSign_length := by simp [sampleDigest]
  edVerify_sign := by simp
  number _ := none
  number_plain := by simp

end Zif
