import Zif.Dht.NetDb
import Zif.Lib.Runs

/-!
# Where entries come from

The peer store is written from five places, each of which takes an entry from the network: an
announce (`HandleAnnounce`), an incoming connection (`HandleHandshake`), an outgoing one
(`Peer.Connect`), a bootstrap (`Client.Bootstrap`) and the result loop of the explorer
(`StartExploring`). They run in goroutines of their own, so a run of the node is an interleaving of
their steps; a bootstrap takes one step for each peer it was sent.

An entry decoded from a message is arbitrary in all its fields, the cached text of its address
included.
-/

namespace Zif.Dht

/-- The cells that a row is found under. -/
def DB.rowCells (db : DB) : List Cell := db.entries.map EntryRow.address

end Zif.Dht

namespace Zif.Node

open Go Dht

variable (P : Prims)

/-- A call whose `error` is dropped or only logged; a panic goes on. -/
def dropError {α : Type} (call : NetDB × Result α) : NetDB × Result Unit :=
  match call with
  | (ndb, .error .panic) => (ndb, .error .panic)
  | (ndb, _) => (ndb, .ok ())

/-- `HandleAnnounce`. -/
def handleAnnounce (ndb : NetDB) (entry : Entry) : NetDB × Result Unit :=
  match ndb.insert P entry with
  | (ndb', .ok affected) =>
    if affected > 0 then (ndb', .ok ()) else (ndb', .error (.error "Failed to save entry"))
  | (ndb', .error .panic) => (ndb', .error .panic)
  | (ndb', .error (.error _)) => (ndb', .error (.error "Failed to save entry"))

/-- What `handshake_recieve` makes of the header, the cookie it sent out and the signature that came
back. -/
def handshakeRecieve (entry : Entry) (cookie signature : Bytes) : Result Entry := do
  entry.verify P
  let verified ← P.ed25519Verify entry.publicKey cookie signature
  if !verified then .error (.error "Signature not verified") else .ok entry

/-- `Client.Query` once the reply is there. -/
def clientQuery (reply : Entry) : Result Entry := do
  reply.verify P
  .ok reply

/-- `Peer.GetEntry`: asks the peer at `address` for its own entry. -/
def getEntry (address : Address) (reply : Entry) : Result Entry := do
  let entry ← clientQuery P reply
  if !entry.address.equals address then .error (.error "Failed to fetch entry") else .ok entry

/-- The incoming side of a connection: the handshake, then `HandleHandshake`. -/
def handleHandshake (ndb : NetDB) (header : Entry) (cookie signature : Bytes) (reply : Entry) :
    NetDB × Result Unit :=
  match handshakeRecieve P header cookie signature with
  | .error f => (ndb, .error f)
  | .ok header =>
    match getEntry P header.address reply with
    | .error f => (ndb, .error f)
    | .ok entry => dropError (ndb.insert P entry)

/-- `Peer.Connect`: the handshake, then the insertion of the entry it gave. -/
def connect (ndb : NetDB) (header : Entry) (cookie signature : Bytes) : NetDB × Result Unit :=
  match handshakeRecieve P header cookie signature with
  | .error f => (ndb, .error f)
  | .ok entry => dropError (ndb.insert P entry)

/-- One round of the loop of `Client.Bootstrap`. The address is compared before the test for nil. -/
def bootstrapPeer (ndb : NetDB) (i : Option Entry) : NetDB × Result Unit :=
  match i with
  | none => (ndb, .error .panic)
  | some i =>
    if i.address.equals ndb.addr then (ndb, .ok ())
    else
      match i.verify P with
      | .error .panic => (ndb, .error .panic)
      | .error (.error _) => (ndb, .ok ())
      | .ok () =>
        match ndb.insert P i with
        | (ndb', .error f) => (ndb', .error f)
        | (ndb', .ok _) => (ndb', .ok ())

/-- `Client.Bootstrap` on the peers it was sent. -/
def bootstrap (ndb : NetDB) : List (Option Entry) → NetDB × Result Unit
  | [] => (ndb, .ok ())
  | i :: peers =>
    match bootstrapPeer P ndb i with
    | (ndb', .error f) => (ndb', .error f)
    | (ndb', .ok ()) => bootstrap ndb' peers

/-- One round of the result loop of `StartExploring`. With more seeds than the stored entry, the
entry found is inserted as it came: the merged list is put into `current`, which is then dropped. -/
def explore (ndb : NetDB) (i : Entry) : NetDB × Result Unit :=
  match ndb.query P i.address with
  | (ndb', .error .panic) => (ndb', .error .panic)
  | (ndb', .error (.error _)) => (ndb', .ok ())
  | (ndb', .ok current) =>
    if i.address.equals ndb'.addr then (ndb', .ok ())
    else
      match current with
      | none => dropError (ndb'.insert P i)
      | some (current, _) =>
        if i.updated > current.updated then dropError (ndb'.insert P i)
        else if i.seeds.length > current.seeds.length then dropError (ndb'.insert P i)
        else (ndb', .ok ())

/-- A step of the node. -/
inductive Event where
  | announce (entry : Entry)
  | handshake (header : Entry) (cookie signature : Bytes) (reply : Entry)
  | connect (header : Entry) (cookie signature : Bytes)
  | bootstrap (i : Option Entry)
  | explore (i : Entry)
  deriving DecidableEq, Repr

/-- The entry a step may store. -/
def Event.entry : Event → Option Entry
  | .announce e => some e
  | .handshake _ _ _ reply => some reply
  | .connect header _ _ => some header
  | .bootstrap i => i
  | .explore i => some i

/-- The store after a step. -/
def step (ndb : NetDB) : Event → NetDB
  | .announce e => (handleAnnounce P ndb e).1
  | .handshake header cookie signature reply =>
    (handleHandshake P ndb header cookie signature reply).1
  | .connect header cookie signature => (connect P ndb header cookie signature).1
  | .bootstrap i => (bootstrapPeer P ndb i).1
  | .explore i => (explore P ndb i).1

/-- The store after a run from a new one. -/
def runFrom (addr : Address) (evs : List Event) : NetDB :=
  Runs.run (step P) (NetDB.new addr) evs

/-! ## What a bootstrap should store -/

/-- The cell that the row of an address is found under. -/
def rowKey (a : Address) : Cell := P.store (a.string P)

/-- The entries of the list that a bootstrap can use: not nil, not its own and valid. -/
def UsablePeer (own : Address) (peers : List (Option Entry)) (e : Entry) : Prop :=
  some e ∈ peers ∧ e.address.equals own = false ∧ e.verify P = .ok ()

/-- The bootstrap does not panic, and every entry it can use has a row afterwards. -/
structure Bootstraps (ndb : NetDB) (peers : List (Option Entry)) : Prop where
  returns : (bootstrap P ndb peers).2 ≠ .error .panic
  stores : ∀ e, UsablePeer P ndb.addr peers e →
    ∃ r, (bootstrap P ndb peers).1.db.row (rowKey P e.address) = some r

/-- With rows under the cells `known`, `Insert` of the valid entry returns no error: the driver takes
its time, and either it has a row or every peer that it names has one (it may name itself). -/
def Insertable (known : List Cell) (e : Entry) : Prop :=
  driverAccepts e.updated = true ∧ (rowKey P e.address ∈ known ∨
    ∀ i ∈ e.seeding ++ e.seeds, rowKey P { raw := i } ∈ rowKey P e.address :: known)

/-- The cells with a row after `Insert` of the valid entry, whatever it returns. -/
def knownAfter (known : List Cell) (e : Entry) : List Cell :=
  if driverAccepts e.updated then rowKey P e.address :: known else known

/-- A bootstrap in a store with rows under the cells `known` gets to every entry that it can use: it
meets no nil and no panic of `Verify`, and once an `Insert` fails there is nothing left to store. -/
def ReachesAll (own : Address) : List Cell → List (Option Entry) → Prop
  | _, [] => True
  | _, none :: _ => False
  | known, some i :: peers =>
    if i.address.equals own then ReachesAll own known peers
    else
      match i.verify P with
      | .error .panic => False
      | .error (.error _) => ReachesAll own known peers
      | .ok () =>
        (Insertable P known i → ReachesAll own (knownAfter P known i) peers) ∧
          (¬ Insertable P known i → ∀ e, UsablePeer P own (some i :: peers) e →
            rowKey P e.address ∈ knownAfter P known i)

end Zif.Node
