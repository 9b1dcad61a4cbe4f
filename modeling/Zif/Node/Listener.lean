import Zif.Node.PeerManager

/-!
# Incoming connections

`Server.Handshake` runs the handshake with a client, has `HandleHandshake` make a peer of it, and then calls
`SetCapabilities` with the capabilities of the client, on the local peer.
-/

namespace Zif.Node

open Go Dht Proto

/-- `LocalPeer.Setup` announces these two. -/
def setupCapabilities : Capabilities := ⟨["gzip".toUTF8.toList, "none".toUTF8.toList]⟩

/-- A node that listens. -/
structure Listener where
  /-- The local peer, as it takes part in a handshake. -/
  localPeer : Party
  peerManager : PeerManager
  /-- For each client that was given a peer object, the object and the capabilities the client sent. -/
  clients : List (Nat × Capabilities)

/-- A client that connects, and what happens around it. -/
structure Incoming where
  /-- The messages it sends. -/
  messages : List Proto.Message
  /-- What `CryptoRandBytes` gives for it, unless that fails. -/
  cookie : Option Bytes
  cookie_length : ∀ c ∈ cookie, c.length = 20
  /-- What `ConnectServer` comes to. -/
  session : Result Unit
  /-- What it answers when it is asked for its entry, by `SetPeer` and by `HandleHandshake`. -/
  reply : Result Entry
  replyAgain : Result Entry
  /-- The peers that `SetPeer` removes, the first and the second time. -/
  evicted : List Bytes
  evictedAgain : List Bytes

/-- The next message, if there is one. -/
def nextMessage : List Proto.Message → Option Proto.Message × List Proto.Message
  | [] => (none, [])
  | m :: ms => (some m, ms)

/-- `Peer.SetTCP` on a new peer. The capabilities are not among the fields it sets. -/
def Peer.setTCP (header : Entry) : Peer where
  address := header.address
  publicKey := header.publicKey
  capabilities := ⟨[]⟩

namespace Listener

variable (P : Prims) (codec : Codec)

/-- The handshake with a client. -/
def handshake (l : Listener) (inc : Incoming) : Result (Entry × Capabilities) :=
  ((Proto.handshake P codec
    { l.localPeer with cookie := inc.cookie, cookie_length := inc.cookie_length }).run.runWith
      nextMessage false inc.messages).1

/-- `HandleHandshake`. The peer object is there whether or not there is an error. -/
def handleHandshake (pm : PeerManager) (header : Entry) (inc : Incoming) : PeerManager × Result Nat :=
  let id := pm.objects.length
  let pm := pm.newPeer (Peer.setTCP header)
  match inc.session with
  | .error f => (pm, .error f)
  | .ok () =>
    let pm := pm.setPeer id inc.reply inc.evicted
    match pm.objects[id]?.map fun p : Peer => p.fetchEntry inc.replyAgain with
    | some (.ok e) => (pm.cache id e, .ok id)
    | some (.error f) => (pm, .error f)
    | none => (pm, .error .panic)

/-- `Server.Handshake`. -/
def accept (l : Listener) (inc : Incoming) : Listener :=
  match l.handshake P codec inc with
  | .error _ => l
  | .ok (header, caps) =>
    let clients := l.clients ++ [(l.peerManager.objects.length, caps)]
    match handleHandshake l.peerManager header inc with
    | (pm, .error _) => ⟨l.localPeer, pm, clients⟩
    | (pm, .ok id) =>
      ⟨{ l.localPeer with capabilities := caps }, pm.setPeer id inc.replyAgain inc.evictedAgain, clients⟩

/-- The announced capabilities are those of `Setup`, and what a client sent is recorded on its peer. -/
structure Truthful (l : Listener) : Prop where
  own : l.localPeer.capabilities = setupCapabilities
  recorded : ∀ c ∈ l.clients, l.peerManager.objects[c.1]?.map Peer.capabilities = some c.2

end Listener

end Zif.Node
