import Zif.Node.Resolve
import Zif.Proto.Handshake

/-!
# The size of a reply

The reply to a request for the closest peers holds their entries, seeds included. `Verify` lets an entry
have `MaxEntrySeeds` seeds. The client that asked reads at most `MaxMessageSize` bytes from the
connection, and at most `MaxMessageContentSize` bytes of the content.

A struct is encoded as a map from the names of its fields to their values. The one thing that is left open
is whether the driver gives an empty collection hash back as nil.
-/

namespace Zif.Node

open Go Dht

/-! ## Lengths of encodings -/

/-- The length of an encoded list of byte strings. -/
def encodedList (l : List Bytes) : Nat :=
  Proto.encodedArray l.length + (l.map fun i => encodedBytes i.length).sum

/-- The length of an encoded address: a map of the fields `Raw` and `Encoded`. -/
def encodedAddress (a : Address) : Nat :=
  1 + (encodedName 3 + encodedBytes a.raw.length) +
    (encodedName 7 + Proto.encodedString a.encoded.length)

/-- The length of an encoded collection hash. -/
def encodedHash (nilHash : Bool) (h : Bytes) : Nat :=
  if nilHash && h.isEmpty then 1 else encodedBytes h.length

/-- The length of an encoded entry: a map of the thirteen exported fields. -/
def encodedEntry (nilHash : Bool) (e : Entry) : Nat :=
  1 + (encodedName 7 + encodedAddress e.address) +
    (encodedName 4 + Proto.encodedString e.name.length) +
    (encodedName 4 + Proto.encodedString e.desc.length) +
    (encodedName 13 + Proto.encodedString e.publicAddress.length) +
    (encodedName 9 + encodedBytes e.publicKey.length) +
    (encodedName 9 + encodedInt e.postCount.toInt) +
    (encodedName 7 + encodedInt e.updated.toNat) +
    (encodedName 9 + encodedBytes e.signature.length) +
    (encodedName 14 + encodedHash nilHash e.collectionHash) +
    (encodedName 4 + encodedInt e.port.toInt) +
    (encodedName 5 + encodedList e.seeds) +
    (encodedName 7 + encodedList e.seeding) +
    (encodedName 4 + encodedInt e.seen.toInt)

/-- The length of encoded entries; a nil takes one byte. -/
def encodedEntries (nilHash : Bool) (pairs : List (Option Entry)) : Nat :=
  Proto.encodedArray pairs.length + (pairs.map fun i => i.elim 1 (encodedEntry nilHash)).sum

/-! ## The bytes in the fields -/

/-- The number of bytes in a list of byte strings. -/
def rawList (l : List Bytes) : Nat := (l.map List.length).sum

/-- The number of bytes in the strings of an entry. -/
def rawEntry (e : Entry) : Nat :=
  e.address.raw.length + e.address.encoded.length + e.name.length + e.desc.length +
    e.publicAddress.length + e.publicKey.length + e.signature.length + e.collectionHash.length +
    rawList e.seeds + rawList e.seeding

/-- The number of bytes in the strings of the entries. -/
def rawEntries (pairs : List (Option Entry)) : Nat := (pairs.map fun i => i.elim 0 rawEntry).sum

/-! ## The reply -/

/-- The message that `HandleFindClosest` writes. -/
def entriesMessage (nilHash : Bool) (pairs : List (Option Entry)) : Proto.Message where
  header := protoDhtEntries
  content := some ⟨encodedEntries nilHash pairs, none, ⟨[]⟩, fun _ => []⟩

/-- What the client makes of that message: `ReadMessage`, then `Message.Read` of its content. What is cut
off fails with the error `cut`. -/
def receiveEntries (codec : Proto.Codec) (nilHash : Bool) (cut : String)
    (pairs : List (Option Entry)) : Except String (Message (List (Option Entry))) :=
  if Proto.Talk.reads codec (entriesMessage nilHash pairs) then
    .ok ⟨protoDhtEntries,
      if encodedEntries nilHash pairs ≤ maxMessageContentSize then .ok pairs else .error cut⟩
  else .error cut

/-- The reply keeps to the limits of the client, and the client gets the entries. -/
structure ReplyFits (codec : Proto.Codec) (nilHash : Bool) (cut : String)
    (pairs : List (Option Entry)) : Prop where
  wire : (entriesMessage nilHash pairs).encodedLength ≤ Proto.maxMessageSize
  content : encodedEntries nilHash pairs ≤ maxMessageContentSize
  decoded : clientFindClosest (receiveEntries codec nilHash cut pairs) = .ok pairs

/-! ## Entries of the store -/

/-- An entry as the store gives it back: it passed `Verify`, its address is not cached as a text, and the
addresses of its links are binary ones. -/
structure ReplyEntry (P : Prims) (e : Entry) : Prop where
  verified : e.verify P = .ok ()
  encoded : e.address.encoded = []
  links : ∀ i ∈ e.seeds ++ e.seeding, i.length = 20

/-- The length of `n` encoded links. -/
def linksLength (n : Nat) : Nat := Proto.encodedArray n + 22 * n

/-- The length of an encoded collection hash of `n` bytes. -/
def hashLength (nilHash : Bool) (n : Nat) : Nat := if nilHash && n == 0 then 1 else encodedBytes n

/-- The length of such an entry in a reply, from the lengths of its texts and of its collection hash, its four
numbers, and the numbers of its links. The names of the fields, the address, the key and the signature take
246 bytes. -/
def fieldsLength (nilHash : Bool) (e : Entry) : Nat :=
  246 + Proto.encodedString e.name.length + Proto.encodedString e.desc.length +
    Proto.encodedString e.publicAddress.length + hashLength nilHash e.collectionHash.length +
    encodedInt e.postCount.toInt + encodedInt e.updated.toNat + encodedInt e.port.toInt +
    encodedInt e.seen.toInt + linksLength e.seeds.length + linksLength e.seeding.length

/-- The length of the content of a reply with such entries. -/
def contentLength (nilHash : Bool) (pairs : List (Option Entry)) : Nat :=
  Proto.encodedArray pairs.length + (pairs.map fun i => i.elim 1 (fieldsLength nilHash)).sum

end Zif.Node
