import Zif.Dht.Address

/-!
# Entries

An entry describes a peer: who it is, where it is reached and what it publishes. Its owner signs the
byte string `Entry.bytes`; everyone else checks it with `Entry.verify` before storing it.

The field `distance`, which nothing reads, is left out.
-/

namespace Zif.Dht

open Go

/-- `MaxEntryNameLength`. -/
def maxEntryNameLength : Nat := 32

/-- `MaxEntryDescLength`. -/
def maxEntryDescLength : Nat := 160

/-- `MaxEntryPublicAddressLength`. -/
def maxEntryPublicAddressLength : Nat := 253

/-- `MaxEntrySeeds`. -/
def maxEntrySeeds : Nat := 100000

/-- `Entry`. -/
structure Entry where
  address : Address
  name : Bytes
  desc : Bytes
  publicAddress : Bytes
  publicKey : Bytes
  postCount : Int64
  updated : UInt64
  signature : Bytes
  collectionHash : Bytes
  port : Int64
  seeds : List Bytes
  seeding : List Bytes
  seen : Int64
  deriving DecidableEq, Repr

namespace Entry

variable (P : Prims)

/-- `Entry.Bytes`, the signed form of an entry. The seeds are not part of it. -/
def bytes (e : Entry) : Bytes :=
  e.address.string P ++ e.name ++ e.desc ++ e.publicAddress ++ e.publicKey ++
    runeString e.port.toInt ++ itoa e.postCount.toInt ++ itoa e.updated.toInt64.toInt ++
    e.collectionHash ++ e.seeding.flatten

/-- The entry with its owner's key in it, signed by the owner. -/
def signedBy (key : Bytes) (e : Entry) : Entry :=
  let e' := { e with publicKey := P.edPublic key }
  { e' with signature := P.edSign key (e'.bytes P) }

/-- `Entry.Verify` on an entry that is not nil. -/
def verify (e : Entry) : Result Unit :=
  if e.address.raw.length ≠ 20 then .error (.error "Address size invalid")
  else if e.name.length > maxEntryNameLength then .error (.error "Entry name is too long")
  else if e.desc.length > maxEntryDescLength then .error (.error "Entry description is too long")
  else if e.seeds.length > maxEntrySeeds then .error (.error "Entry has too many seeds")
  else if e.publicKey.length < publicKeySize then
    .error (.error ("Public key too small: " ++ toString e.publicKey.length))
  else if e.signature.length < signatureSize then .error (.error "Signature too small")
  else do
    let verified ← P.ed25519Verify e.publicKey (e.bytes P) e.signature
    if !verified then .error (.error "Failed to verify signature")
    else if e.publicAddress.length = 0 then .error (.error "Public address must be set")
    else if e.publicAddress.length ≥ maxEntryPublicAddressLength then
      .error (.error "Public address is too large (253 char max)")
    else if e.port > 65535 then
      .error (.error ("Port too large (" ++ String.singleton (rune e.port.toInt) ++ ")"))
    else .ok ()

end Entry

end Zif.Dht
