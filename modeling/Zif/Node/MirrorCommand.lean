import Zif.Node.PeerManager

/-!
# The Mirror command

`CommandServer.Mirror` downloads the posts of a peer into a database of its own and enters it into
`LocalPeer.Databases`, where `HandlePiece` and `PeerSearch` look for it. When the peer itself cannot be
reached, one of its seeds stands in for it.

Four names are involved: the address that was asked for, that of the entry it is resolved to (which gives the
directory), that of the peer that is used (which gives the key), and that of the entry this peer answers with
(whose posts are downloaded).
-/

namespace Zif.Node

open Go Dht Proto

/-- The file of a database in the directory of that name. -/
def postsPath (directory : Bytes) : Bytes := "./data/".toUTF8.toList ++ directory ++ "/posts.db".toUTF8.toList

/-- `\w`. -/
def isWord (b : UInt8) : Bool :=
  isDigit b || (65 ≤ b && b ≤ 90) || (97 ≤ b && b ≤ 122) || b == 95

/-- The mirrors of a node. -/
structure Mirrors where
  peerManager : PeerManager
  /-- `LocalPeer.Databases`: the file of each database, by its key. -/
  databases : Bytes → Option Bytes
  /-- The directories in which there is a database. -/
  directories : List Bytes
  /-- The peers whose posts have been put into a file, by their binary address. -/
  stored : Bytes → List Bytes

/-- A Mirror command, and what happens around it. -/
structure MirrorCall where
  address : Bytes
  /-- What the two calls of `Resolve` for the address come to. -/
  resolved : Result Entry
  resolvedAgain : Result Entry
  dial : PeerManager.Dial
  /-- `util.ShuffleBytes`. -/
  shuffle : List Bytes → List Bytes
  /-- What happens around `ConnectPeer` for each of the seeds, in the order they are tried. -/
  atSeed : Nat → Result Entry × PeerManager.Dial
  /-- What the peer answers when it is asked for the entry to be mirrored. -/
  reply : Result Entry
  /-- What it comes to until the hash list is saved, and then until the last piece is there. -/
  prepared : Result Unit
  downloaded : Result Unit
  /-- The database has as many posts as the entry, so that nothing is downloaded. -/
  upToDate : Bool
  /-- A piece is inserted before the download ends. -/
  inserted : Bool
  /-- What `RequestAddPeer` comes to. -/
  requested : Result Unit

/-- The entry `Peer.Mirror` downloads the posts of. A peer that stands in for another is asked for the entry
of that, and its answer is not compared with anything. -/
def Peer.mirrored (p : Peer) (reply : Result Entry) : Result Entry := do
  let e ← reply
  if p.seed || e.address.equals p.address then .ok e else .error (.error "Failed to fetch entry")

namespace PeerManager

/-- The seeds are tried one after the other; the last one that is tried is used, if it could be reached. -/
def trySeed (own : Address) (entry : Entry) (call : MirrorCall) (st : PeerManager × Option Nat)
    (seed : Bytes × Nat) : PeerManager × Option Nat :=
  if seed.1 = own.raw then st
  else
    match st.1.connectPeer own (call.atSeed seed.2).1 (call.atSeed seed.2).2 with
    | (pm, _, .error _) => (pm, none)
    | (pm, _, .ok id) =>
      (pm.modify id ({ · with seed := true, seedFor := some entry }) fun _ => rfl, some id)

/-- The peer that `Mirror` uses. -/
def reach (pm : PeerManager) (own address : Address) (call : MirrorCall) : PeerManager × Result Nat :=
  match pm.getPeer address with
  | some id => (pm, .ok id)
  | none =>
    match pm.connectPeer own call.resolvedAgain call.dial with
    | (pm, _, .ok id) => (pm, .ok id)
    | (pm, none, .error f) => (pm, .error f)
    | (pm, some e, .error f) =>
      if f ≠ peerUnreachable || e.seeds.isEmpty then (pm, .error f)
      else
        match (call.shuffle e.seeds).zipIdx.foldl (trySeed own e call) (pm, none) with
        | (pm, none) => (pm, .error peerUnreachable)
        | (pm, some id) => (pm, .ok id)

/-- The peers that `ConnectPeer` gives for the seeds that are tried, one for each. -/
def tried (own : Address) (entry : Entry) (call : MirrorCall) (pm : PeerManager) :
    List (Bytes × Nat) → List (Option Nat)
  | [] => []
  | seed :: seeds =>
    let rest := tried own entry call (trySeed own entry call (pm, none) seed).1 seeds
    if seed.1 = own.raw then rest
    else (pm.connectPeer own (call.atSeed seed.2).1 (call.atSeed seed.2).2).2.2.toOption :: rest

/-- What is marked on a peer: whether it stands in for another, and for which. -/
def marks (pm : PeerManager) (id : Nat) : Bool × Option Entry :=
  (pm.objects[id]?.map fun p => (p.seed, p.seedFor)).getD (false, none)

/-- After the seeds of an entry have been tried, a peer that is marked for the entry is used if and only if one
of them was connected, and no other peer is marked. -/
def SeedChosen (entry : Entry) (tried : List (Option Nat)) (out : PeerManager × Result Nat) : Prop :=
  ((∃ id, out.2 = .ok id ∧ out.1.marks id = (true, some entry)) ↔ ∃ id, some id ∈ tried) ∧
    ∀ id, (out.1.marks id).1 = true → out.2 = .ok id

end PeerManager

namespace Mirrors

variable (P : Prims)

/-- Posts of a peer are put into a file. -/
def store (m : Mirrors) (path raw : Bytes) : Mirrors :=
  { m with stored := fun path' => if path' = path then m.stored path' ++ [raw] else m.stored path' }

/-- The database in a directory is opened, and entered under a key. -/
def openDatabase (m : Mirrors) (key directory : Bytes) : Mirrors :=
  { m with
    databases := fun key' => if key' = key then some (postsPath directory) else m.databases key'
    directories := directory :: m.directories }

/-- `Peer.Mirror` into a file. -/
def peerMirror (m : Mirrors) (id : Nat) (p : Peer) (path : Bytes) (call : MirrorCall) :
    Mirrors × Result Unit :=
  match p.mirrored call.reply, call.prepared with
  | .error f, _ => (m, .error f)
  | .ok _, .error f => (m, .error f)
  | .ok e, .ok () =>
    if call.upToDate then (m, .ok ())
    else
      let m := if call.inserted then m.store path e.address.raw else m
      match call.downloaded with
      | .error f => (m, .error f)
      | .ok () =>
        ({ m with
            peerManager := m.peerManager.modify id ({ · with seed := false, seedFor := none }) fun _ => rfl },
          call.requested)

/-- `CommandServer.Mirror`. -/
def mirror (own : Address) (m : Mirrors) (call : MirrorCall) : Mirrors × Result Unit :=
  match Address.decodeAddress call.address, call.resolved with
  | .error f, _ => (m, .error f)
  | .ok _, .error f => (m, .error f)
  | .ok address, .ok mirroring =>
    match m.peerManager.reach own address call with
    | (pm, .error f) => ({ m with peerManager := pm }, .error f)
    | (pm, .ok id) =>
      match pm.objects[id]? with
      | none => ({ m with peerManager := pm }, .error .panic)
      | some p =>
        let directory := mirroring.address.string P
        (openDatabase { m with peerManager := pm } (p.address.string P) directory).peerMirror id p
          (postsPath directory) call

/-- What happens to a node with mirrors. -/
inductive Event where
  | mirror (call : MirrorCall)
  /-- A peer is connected for another reason. -/
  | connected (pair : Entry × Capabilities) (reply : Result Entry) (evicted : List Bytes)
  /-- A connection is closed. -/
  | closed (raw : Bytes)
  /-- The node is started again: `LocalPeer.Setup` opens the databases it finds. -/
  | restart

/-- `LocalPeer.Setup`, for the databases in directories whose names are words. -/
def setup (m : Mirrors) : Mirrors where
  peerManager := .empty
  databases key :=
    if m.directories.contains key ∧ key ≠ [] ∧ key.all isWord then some (postsPath key) else none
  directories := m.directories
  stored := m.stored

/-- The state after an event. -/
def step (own : Address) (m : Mirrors) : Event → Mirrors
  | .mirror call => (mirror P own m call).1
  | .connected pair reply evicted =>
    let pm := m.peerManager
    { m with
      peerManager := (pm.newPeer (PeerManager.connected pair)).setPeer pm.objects.length reply evicted }
  | .closed raw => { m with peerManager := m.peerManager.remove raw }
  | .restart => m.setup

/-- The peers whose posts `HandlePiece` and `PeerSearch` find under a key. -/
def served (m : Mirrors) (key : Bytes) : List Bytes := (m.databases key).elim [] m.stored

/-- Each key has the database in the directory of that name, in which there are only posts of the peer with
that address. -/
structure Filed (m : Mirrors) : Prop where
  databases : ∀ key path, m.databases key = some path → path = postsPath key
  stored : ∀ key raw, raw ∈ m.stored (postsPath key) → Address.encodeRaw P raw = key

end Mirrors

end Zif.Node
