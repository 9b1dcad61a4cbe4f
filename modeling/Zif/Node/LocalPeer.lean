import Zif.Data.Collection
import Zif.Dht.NetDb
import Zif.Lib.Runs

/-!
# Publishing posts

A peer publishes a post with `AddPost`: the post goes into the database, the piece it belongs to is
hashed again, and the entry with the new collection hash is signed and stored. The piece is worked
out from the id (`id / 1000`), while `QueryPiece` finds the posts of a piece by `id > 1000 * piece`.

What the clock, the database engine and the file system do during a call is part of the call. Saving
the collection, whose error is dropped, and the contents of `entry.json` are left out.
-/

namespace Zif.Node

open Go Dht Data

/-- The parts of `LocalPeer` that publishing reads and writes. -/
structure LocalPeer where
  entry : Entry
  privateKey : Bytes
  database : Database
  collection : Collection
  dht : NetDB

/-- `ed25519.PrivateKeySize`. -/
def privateKeySize : Nat := 64

/-- A call of `AddPost`: the post, and what happens around the peer. -/
structure AddCall where
  post : Post
  /-- The time `Post.Valid` reads. -/
  checkedAt : Int64
  /-- The times the two calls of `SignEntry` read. -/
  signedAt : UInt64
  savedAt : UInt64
  /-- The error of the database engine, if the insertion fails. -/
  insertFails : Option String
  /-- The error of writing `entry.json`, if that fails. -/
  writeFails : Option String

namespace LocalPeer

variable (P : Prims) (grow : Nat → Nat)

/-- `SignEntry`; `ed25519.Sign` panics on a key of the wrong size. -/
def signEntry (lp : LocalPeer) (now : UInt64) : Result LocalPeer :=
  let entry := { lp.entry with updated := now }
  if lp.privateKey.length ≠ privateKeySize then .error .panic
  else .ok { lp with entry := { entry with
    signature := copyInto entry.signature (P.edSign lp.privateKey (entry.bytes P)) } }

/-- `SaveEntry`. -/
def saveEntry (lp : LocalPeer) (now : UInt64) (writeFails : Option String) :
    LocalPeer × Result Unit :=
  match lp.signEntry P now with
  | .error f => (lp, .error f)
  | .ok lp =>
    match lp.dht.insert P lp.entry with
    | (dht, .error f) => ({ lp with dht }, .error f)
    | (dht, .ok _) =>
      ({ lp with dht }, match writeFails with
        | none => .ok ()
        | some err => .error (.error err))

/-- `int(math.Floor(float64(id) / float64(data.PieceSize)))`, as the `uint` it is passed as. The
quotient of floats is the one of integers as long as the id is below `2 ^ 53`. -/
def pieceIndex (id : Int64) : UInt64 := (Int64.ofInt (id.toInt / pieceSize)).toUInt64

/-- `AddPost` from the insertion to the collection hash. The error of the insertion is overwritten by
that of `QueryPiece`; with that one set there would be no piece, and `Collection.Add` panics. The id of an
insertion that failed is `-1`, which is in piece `2 ^ 64 - 1`. -/
def indexPost (lp : LocalPeer) (c : AddCall) : LocalPeer × Result Int64 :=
  let (database, id, _) := lp.database.insertPost P c.post c.insertFails
  let lp := { lp with database, entry := { lp.entry with postCount := lp.entry.postCount + 1 } }
  match lp.database.queryPiece (pieceIndex id) false with
  | .error _ => (lp, .error .panic)
  | .ok piece =>
    match lp.collection.add P grow piece with
    | .error f => (lp, .error f)
    | .ok collection =>
      let collection := collection.rehash
      ({ lp with collection, entry := { lp.entry with collectionHash := collection.hash P } },
        .ok id)

/-- `AddPost`; its argument `store` is not read. -/
def addPost (lp : LocalPeer) (c : AddCall) : LocalPeer × Result Int64 :=
  match c.post.valid c.checkedAt with
  | .error f => (lp, .error f)
  | .ok () =>
    match lp.indexPost P grow c with
    | (lp, .error f) => (lp, .error f)
    | (lp, .ok id) =>
      match lp.signEntry P c.signedAt with
      | .error f => (lp, .error f)
      | .ok lp =>
        match lp.saveEntry P c.savedAt c.writeFails with
        | (lp, .error f) => (lp, .error f)
        | (lp, .ok ()) => (lp, .ok id)

/-- A call of `AddSeeding`: the entry of the peer that is seeded, and what happens around the peer. -/
structure SeedingCall where
  entry : Entry
  /-- The times the two calls of `SignEntry` read. -/
  signedAt : UInt64
  savedAt : UInt64
  /-- The error of writing `entry.json`, if that fails. -/
  writeFails : Option String

/-- `AddSeeding`. The store has the address of the peer it belongs to. -/
def addSeeding (lp : LocalPeer) (c : SeedingCall) : LocalPeer × Result Unit :=
  let own := { lp.entry with seeding := lp.entry.seeding ++ [c.entry.address.raw] }
  let entry := { c.entry with seeds := c.entry.seeds ++ [lp.dht.addr.raw] }
  match signEntry P { lp with entry := own } c.signedAt with
  | .error f => ({ lp with entry := { own with updated := c.signedAt } }, .error f)
  | .ok lp =>
    match lp.dht.insert P entry with
    | (dht, .error f) => ({ lp with dht }, .error f)
    | (dht, .ok _) => saveEntry P { lp with dht } c.savedAt c.writeFails

/-- One call in a run of calls. -/
def step (lp : LocalPeer) (c : AddCall) : LocalPeer := (lp.addPost P grow c).1

/-! ## What publishing keeps up -/

/-- The post passes its check and the database takes it; each call that returns without an error is
of this kind. -/
def Accepted (c : AddCall) : Prop := c.post.valid c.checkedAt = .ok () ∧ c.insertFails = none

/-- After the call the hash list is that of the database and the entry has its hash, and the piece
that was hashed again is the one the id is in. -/
def Maintains (lp : LocalPeer) (c : AddCall) : Prop :=
  let lp' := (lp.addPost P grow c).1
  lp'.collection.hashList.view = lp'.database.pieceHashes P ∧
    lp'.entry.collectionHash = P.sha3 (lp'.database.pieceHashes P) ∧
    ∃ id, (lp.indexPost P grow c).2 = .ok id ∧
      ∃ r ∈ lp'.database.pieceRows (pieceIndex id).toNat, r.id = id

/-- The entry counts the posts of the database. The count is an `int`. -/
def Counted (lp : LocalPeer) : Prop := lp.entry.postCount = Int64.ofNat lp.database.rows.length

instance : DecidablePred Counted := fun lp =>
  inferInstanceAs (Decidable (lp.entry.postCount = Int64.ofNat lp.database.rows.length))

/-- What a call should leave behind: the count is right; when the post is not stored, there is an error,
and the entry and the collection are what they were; an id that is returned is that of a row with the
info hash of the post. -/
structure Consistent (lp : LocalPeer) (c : AddCall) : Prop where
  counted : (lp.addPost P grow c).1.Counted
  unstored : (lp.addPost P grow c).1.database.rows = lp.database.rows →
    (∃ err, (lp.addPost P grow c).2 = .error (.error err)) ∧
      (lp.addPost P grow c).1.entry = lp.entry ∧
      (lp.addPost P grow c).1.collection = lp.collection
  returned : ∀ id, (lp.addPost P grow c).2 = .ok id →
    ∃ r ∈ (lp.addPost P grow c).1.database.rows, r.id = id ∧ r.infoHash = P.store c.post.infoHash

/-- `Valid` refuses the post, or the database takes it and has no post with its info hash. -/
def RefusedOrNew (lp : LocalPeer) (c : AddCall) : Prop :=
  (140 < c.post.title.length ∨ c.checkedAt < c.post.uploadDate) ∨
    c.insertFails = none ∧ ∀ r ∈ lp.database.rows, r.infoHash ≠ P.store c.post.infoHash

instance (lp : LocalPeer) (c : AddCall) : Decidable (RefusedOrNew P lp c) :=
  inferInstanceAs (Decidable (_ ∨ _ ∧ _))

/-- The posts of a run with different info hashes, as the database compares them. -/
def distinctPosts (calls : List AddCall) : Nat :=
  (calls.map fun c => P.store c.post.infoHash).dedup.length

end LocalPeer

end Zif.Node
