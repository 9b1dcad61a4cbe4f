import Zif.Proto.Handshake

/-!
# The peer manager

The connections of a node, as seen between two calls: which peers are connected, and which address was
last seen at a public address. Peers are objects that are shared: a peer that was handed out stays the same
object when it is removed from the map, and flags that are set on it are seen by all who hold it.

`ConnectPeer` resolves an address and connects to whoever listens at the public address of the entry.
-/

namespace Zif.Node

open Go Dht Proto

/-- `Peer`, without its streams. -/
structure Peer where
  address : Address
  publicKey : Bytes
  capabilities : Capabilities
  /-- The entry, once it has been asked for it. -/
  entry : Option Entry := none
  /-- It was last chosen to stand in for another peer, which is `seedFor`. -/
  seed : Bool := false
  seedFor : Option Entry := none

/-- `Peer.Entry`: the entry it has, or what the peer answers when it is asked for the entry of its own
address. -/
def Peer.fetchEntry (p : Peer) (reply : Result Entry) : Result Entry :=
  match p.entry with
  | some e => .ok e
  | none => do
    let e ← reply
    if e.address.equals p.address then .ok e else .error (.error "Failed to fetch entry")

/-- `PeerManager`, and the peer objects there are, by their number. -/
structure PeerManager where
  objects : List Peer
  /-- The connected peers, by their binary address. -/
  peers : Bytes → Option Nat
  /-- The address of the peer that was last connected to with a public address. -/
  publicToZif : Bytes → Option Address
  /-- A peer is filed under its own address. -/
  keyed : ∀ raw id, peers raw = some id → ∃ p, objects[id]? = some p ∧ p.address.raw = raw

namespace PeerManager

/-- `NewPeerManager`. -/
def empty : PeerManager where
  objects := []
  peers _ := none
  publicToZif _ := none
  keyed _ _ h := by cases h

/-- `GetPeer`. -/
def getPeer (pm : PeerManager) (addr : Address) : Option Nat := pm.peers addr.raw

/-- A new peer object. Its number is that of the objects so far. -/
def newPeer (pm : PeerManager) (p : Peer) : PeerManager where
  objects := pm.objects ++ [p]
  peers := pm.peers
  publicToZif := pm.publicToZif
  keyed raw id h := by
    obtain ⟨q, hq, hraw⟩ := pm.keyed raw id h
    exact ⟨q, by rw [List.getElem?_append_left (List.getElem?_eq_some_iff.mp hq).1, hq], hraw⟩

/-- Changes a peer object, but not its address. -/
def modify (pm : PeerManager) (id : Nat) (f : Peer → Peer) (hf : ∀ p, (f p).address = p.address) :
    PeerManager where
  objects := pm.objects.modify id f
  peers := pm.peers
  publicToZif := pm.publicToZif
  keyed raw id' h := by
    obtain ⟨q, hq, hraw⟩ := pm.keyed raw id' h
    rw [List.getElem?_modify, hq]
    by_cases heq : id = id'
    · exact ⟨f q, by simp [heq], by rw [hf, hraw]⟩
    · exact ⟨q, by simp [heq], hraw⟩

/-- Keeps the entry of a peer. -/
def cache (pm : PeerManager) (id : Nat) (e : Entry) : PeerManager :=
  pm.modify id ({ · with entry := some e }) fun _ => rfl

/-- Files a peer under its address, and its address under its public one. -/
def register (pm : PeerManager) (id : Nat) (p : Peer) (publicAddress : Bytes)
    (h : pm.objects[id]? = some p) : PeerManager where
  objects := pm.objects
  peers raw := if raw = p.address.raw then some id else pm.peers raw
  publicToZif host := if host = publicAddress then some p.address else pm.publicToZif host
  keyed raw id' h' := by
    split_ifs at h' with heq
    · cases h'
      exact ⟨p, h, heq.symm⟩
    · exact pm.keyed raw id' h'

/-- `HandleCloseConnection`, as far as the peers are concerned. -/
def remove (pm : PeerManager) (raw : Bytes) : PeerManager where
  objects := pm.objects
  peers raw' := if raw' = raw then none else pm.peers raw'
  publicToZif := pm.publicToZif
  keyed raw' id h := by
    split_ifs at h with heq
    exact pm.keyed raw' id h

/-- `SetPeer`. The peers that have to go to make room are given by their addresses. -/
def setPeer (pm : PeerManager) (id : Nat) (reply : Result Entry) (evicted : List Bytes) : PeerManager :=
  match h : pm.objects[id]? with
  | none => pm
  | some p =>
    if (pm.getPeer p.address).isSome then pm
    else
      match p.fetchEntry reply with
      | .error _ => pm
      | .ok e => evicted.foldl remove ((pm.register id p e.publicAddress h).cache id e)

/-! ## Connecting -/

/-- What happens around a call of `ConnectPeerDirect`. -/
structure Dial where
  /-- What `OpenTCP` comes to: the entry and the capabilities of the node that answers. -/
  opened : Result (Entry × Capabilities)
  /-- What the peer answers when `SetPeer` asks for its entry. -/
  reply : Result Entry
  /-- The peers that `SetPeer` removes. -/
  evicted : List Bytes

/-- `PeerUnreachable`. -/
def peerUnreachable : Fault := .error "Peer could not be reached"

/-- `Peer.Connect`: the peer is whoever answers. -/
def connected (pair : Entry × Capabilities) : Peer where
  address := pair.1.address
  publicKey := pair.1.publicKey
  capabilities := pair.2

/-- `ConnectPeerDirect`. The result is a peer object. -/
def connectPeerDirect (pm : PeerManager) (addr : Bytes) (d : Dial) : PeerManager × Result Nat :=
  match (pm.publicToZif addr).bind pm.getPeer with
  | some id => (pm, .ok id)
  | none =>
    match d.opened with
    | .error _ => (pm, .error peerUnreachable)
    | .ok pair =>
      ((pm.newPeer (connected pair)).setPeer pm.objects.length d.reply d.evicted, .ok pm.objects.length)

/-- The address that is dialled for an entry. -/
def dialled (e : Entry) : Bytes := e.publicAddress ++ [58] ++ itoa e.port.toInt

/-- The peer that is taken for an entry without dialling: the one that is connected under its address, or
that was last seen at what would be dialled. -/
def known (pm : PeerManager) (e : Entry) : Option Nat :=
  (pm.getPeer e.address).or ((pm.publicToZif (dialled e)).bind pm.getPeer)

/-- `ConnectPeer` after `Resolve` has returned. The entry comes with the error too, when there is one. -/
def connectPeer (pm : PeerManager) (own : Address) (resolved : Result Entry) (d : Dial) :
    PeerManager × Option Entry × Result Nat :=
  match resolved with
  | .error f => (pm, none, .error f)
  | .ok e =>
    if e.address.equals own then (pm, none, .error (.error "Cannot connect to self"))
    else
      match pm.getPeer e.address with
      | some id => (pm, some e, .ok id)
      | none =>
        let (pm', peer) := pm.connectPeerDirect (dialled e) d
        (pm', some e, peer)

end PeerManager

end Zif.Node
