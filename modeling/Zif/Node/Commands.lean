import Zif.Node.AddPeer
import Zif.Node.LocalPeer

/-!
# The commands of the owner

The owner of a node controls it over the command server. Modelled here are the commands that touch
the posts, the collection or the entry of the node itself. `AddMeta` and `SetSeedLeech` change rows of
the database and nothing else; `RebuildCollection` replaces the hash list and nothing else; `LocalSet`
changes a field of the entry, signs it and saves it.

How a key is put into lower case is left open (`lower`, for `strings.ToLower`).
-/

namespace Zif.Node

open Go Dht Data

/-- A `CommandLocalSet`, and what happens around the peer while it is handled. -/
structure LocalSetCall where
  key : String
  value : Bytes
  /-- The times the two calls of `SignEntry` read. -/
  signedAt : UInt64
  savedAt : UInt64
  /-- The error of writing `entry.json`, if that fails. -/
  writeFails : Option String

/-- The `switch` of `LocalSet`: the entry with the field set, unless the key is unknown. -/
def setField (key : String) (value : Bytes) (e : Entry) : Option Entry :=
  if key = "name" then some { e with name := value }
  else if key = "desc" then some { e with desc := value }
  else if key = "public" then some { e with publicAddress := value }
  else none

namespace LocalPeer

variable (P : Prims) (grow : Nat → Nat) (lower : String → String)

/-- `LocalSet`. A panic of `SignEntry` comes after the time is set. -/
def localSet (lp : LocalPeer) (c : LocalSetCall) : LocalPeer × Result Unit :=
  match setField (lower c.key) c.value lp.entry with
  | none => (lp, .error (.error "Unknown key"))
  | some entry =>
    match signEntry P { lp with entry } c.signedAt with
    | .error f => ({ lp with entry := { entry with updated := c.signedAt } }, .error f)
    | .ok lp => lp.saveEntry P c.savedAt c.writeFails

/-- A call that changes the entry of the peer itself. -/
inductive EntryCall where
  | localSet (c : LocalSetCall)
  | addPost (c : AddCall)
  | addSeeding (c : SeedingCall)
  | handleAddPeer (m : AddPeerRequest)

/-- The peer after a call, and whether it returned without an error. -/
def callEntry (lp : LocalPeer) : EntryCall → LocalPeer × Result Unit
  | .localSet c => lp.localSet P lower c
  | .addPost c => ((lp.addPost P grow c).1, (lp.addPost P grow c).2.map fun _ => ())
  | .addSeeding c => lp.addSeeding P c
  | .handleAddPeer m => lp.handleAddPeer P m

/-- The peer after a call. -/
def afterEntryCall (lp : LocalPeer) (c : EntryCall) : LocalPeer := (lp.callEntry P grow lower c).1

end LocalPeer

/-- `CommandServer`: the local peer. -/
structure CommandServer where
  localPeer : LocalPeer
  /-- The field `Collection` of the local peer is `nil`; the one in `localPeer` is gone. -/
  collectionNil : Bool

/-- A command, and what happens around the peer while it is handled. -/
inductive Command where
  /-- The error is that of the database engine, if the statement fails. -/
  | addMeta (pid : Int64) (value : Bytes) (fails : Option String)
  /-- The errors are those of the two statements. -/
  | setSeedLeech (id seeders leechers : UInt64) (leechersFails seedersFails : Option String)
  | selfIndex (since : Int64) (fails : Option String)
  | saveCollection
  /-- The error is that of the first `QueryPiece` that fails, if one does. -/
  | rebuildCollection (readFails : Option String)
  | localSet (c : LocalSetCall)

namespace CommandServer

variable (P : Prims) (grow : Nat → Nat) (lower : String → String)

/-- The server with another database of posts. -/
def withDatabase (cs : CommandServer) (database : Database) : CommandServer :=
  { cs with localPeer := { cs.localPeer with database } }

/-- `AddMeta`. -/
def addMeta (cs : CommandServer) (pid : Int64) (value : Bytes) (fails : Option String) :
    CommandServer × Result Unit :=
  let (database, res) := cs.localPeer.database.addMeta P pid value fails
  (cs.withDatabase database, res)

/-- `SetSeedLeech`. -/
def setSeedLeech (cs : CommandServer) (id seeders leechers : UInt64)
    (leechersFails seedersFails : Option String) : CommandServer × Result Unit :=
  match cs.localPeer.database.setLeechers id leechers leechersFails with
  | (database, .error f) => (cs.withDatabase database, .error f)
  | (database, .ok ()) =>
    let (database, res) := database.setSeeders id seeders seedersFails
    (cs.withDatabase database, res)

/-- `SelfIndex`. The error of running the statement is dropped by `GenerateFts`; `fails` is that of
preparing it. -/
def selfIndex (cs : CommandServer) (_since : Int64) (fails : Option String) :
    CommandServer × Result Unit :=
  match fails with
  | some err => (cs, .error (.error err))
  | none => (cs, .ok ())

/-- `SaveCollection`. The error of writing the file is dropped. -/
def saveCollection (cs : CommandServer) : CommandServer × Result Unit :=
  if cs.collectionNil then (cs, .error .panic) else (cs, .ok ())

/-- `RebuildCollection`. An error is returned with a collection that is `nil`, and both are assigned; a
panic of `CreateCollection` comes before the assignment. -/
def rebuildCollection (cs : CommandServer) (readFails : Option String) :
    CommandServer × Result Unit :=
  match readFails with
  | some err => ({ cs with collectionNil := true }, .error (.error err))
  | none =>
    match Collection.createCollection P grow cs.localPeer.database pieceSize with
    | .ok collection => (⟨{ cs.localPeer with collection }, false⟩, .ok ())
    | .error (.error err) => ({ cs with collectionNil := true }, .error (.error err))
    | .error .panic => (cs, .error .panic)

/-- A command is handled. -/
def exec (cs : CommandServer) : Command → CommandServer × Result Unit
  | .addMeta pid value fails => cs.addMeta P pid value fails
  | .setSeedLeech id seeders leechers leechersFails seedersFails =>
    cs.setSeedLeech id seeders leechers leechersFails seedersFails
  | .selfIndex since fails => cs.selfIndex since fails
  | .saveCollection => cs.saveCollection
  | .rebuildCollection readFails => cs.rebuildCollection P grow readFails
  | .localSet c =>
    let (localPeer, res) := cs.localPeer.localSet P lower c
    ({ cs with localPeer }, res)

/-- The server after a command. -/
def step (cs : CommandServer) (c : Command) : CommandServer := (cs.exec P grow lower c).1

/-- What is published is true to the database: the hash list has a hash for each piece, each is that of
the piece as `QueryPiece` returns it, and the entry has the hash of the list. -/
structure Published (P : Prims) (cs : CommandServer) : Prop where
  collection : cs.collectionNil = false
  len : cs.localPeer.collection.hashList.len =
    32 * Paging.count pieceSize cs.localPeer.database.postCount
  hashes : ∀ i < Paging.count pieceSize cs.localPeer.database.postCount, ∀ store,
    ∃ piece, cs.localPeer.database.queryPiece (UInt64.ofNat i) store = .ok piece ∧
      Paging.page 32 cs.localPeer.collection.hashList.view i = piece.hash P
  root : cs.localPeer.entry.collectionHash = P.sha3 cs.localPeer.collection.hashList.view

end CommandServer

end Zif.Node
