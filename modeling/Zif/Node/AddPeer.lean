import Zif.Dht.Discovery
import Zif.Node.LocalPeer
import Zif.Node.Writers

/-!
# Registering as a seed

A peer that has mirrored another asks around to be registered as a seed of it (`req.addpeer`). The
message has the address it wants to be registered for; its own address is that of the connection.

`RequestAddPeer` is the side that asks. It enters the address in the peer's own entry as well, through the
callback `addSeeding`; that this is done once is left to a loop which looks for another address.
-/

namespace Zif.Node

open Go Dht

/-- A request to be registered, and what happens around the peer while it is handled. -/
structure AddPeerRequest where
  /-- What the content of the message decodes to. -/
  content : Result Address
  /-- `From`, the address of the peer that asks. -/
  sender : Address
  /-- The time `SignEntry` reads. -/
  savedAt : UInt64
  /-- The error of writing `entry.json`, if that fails. -/
  writeFails : Option String

namespace LocalPeer

variable (P : Prims)

/-- `HandleAddPeer`; it returns without an error when it has answered `ok`. The store has the address
of the peer it belongs to. -/
def handleAddPeer (lp : LocalPeer) (m : AddPeerRequest) : LocalPeer × Result Unit :=
  match m.content with
  | .error f => (lp, .error f)
  | .ok address =>
    if address.equals lp.dht.addr then
      let there := lp.entry.seeds.any fun i => m.sender.equals { raw := i }
      let seeds := if there then lp.entry.seeds else lp.entry.seeds ++ [m.sender.raw]
      saveEntry P { lp with entry := { lp.entry with seeds } } m.savedAt m.writeFails
    else
      match lp.dht.query P address with
      | (dht, .error f) => ({ lp with dht }, .error f)
      | (dht, .ok none) => ({ lp with dht }, .error (.error "Cannot add peer, do not have entry"))
      | (dht, .ok (some (entry, _))) =>
        let entry := { entry with seeds := entry.seeds ++ [m.sender.raw] }
        let (dht, res) := dropError (dht.insert P entry)
        ({ lp with dht }, res)

/-- What happens around a call of `Peer.RequestAddPeer`: the errors of what it calls, and what `AddSeeding`
meets. -/
structure RegisterCall where
  ping : Option String
  openStream : Option String
  requestAddPeer : Option String
  addSeedManager : Option String
  /-- The times the two calls of `SignEntry` read. -/
  signedAt : UInt64
  savedAt : UInt64
  /-- The error of writing `entry.json`, if that fails. -/
  writeFails : Option String

/-- `Peer.RequestAddPeer` on a peer with its callbacks, which are those of `lp`. -/
def requestAddPeer (lp : LocalPeer) (entry : Entry) (c : RegisterCall) : LocalPeer × Result Unit :=
  match c.ping with
  | some err => (lp, .error (.error err))
  | none =>
    match c.openStream with
    | some err => (lp, .error (.error err))
    | none =>
      match c.requestAddPeer with
      | some err => (lp, .error (.error err))
      | none =>
        match c.addSeedManager with
        | some err => (lp, .error (.error err))
        | none =>
          if entry.seeds.any fun i => Address.equals { raw := i } entry.address then (lp, .ok ())
          else lp.addSeeding P ⟨entry, c.signedAt, c.savedAt, c.writeFails⟩

/-- Calls of `RequestAddPeer` for one entry that all succeed. -/
def requestAddPeers (entry : Entry) (lp : LocalPeer) (calls : List RegisterCall) : Option LocalPeer :=
  calls.foldlM (fun lp c =>
    match lp.requestAddPeer P entry c with
    | (lp, .ok ()) => some lp
    | (_, .error _) => none) lp

/-- The entry names its own address as that of a seed. -/
def SeedOfItself (entry : Entry) : Prop :=
  (entry.seeds.any fun i => Address.equals { raw := i } entry.address) = true

instance : DecidablePred SeedOfItself := fun entry =>
  inferInstanceAs (Decidable ((entry.seeds.any fun i => Address.equals { raw := i } entry.address) = true))

end LocalPeer

end Zif.Node
