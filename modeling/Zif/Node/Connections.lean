import Zif.Go.Basic
import Zif.Lib.Shards

/-!
# Connections that come and go

`PeerManager` as several goroutines use it at once. `SetPeer`, `HandleCloseConnection`, `AddSeedManager` and
`heartbeatPeer` are programs that make one access to a concurrent map at a time; a call that is under way is
the place it has come to. In each step one call makes its next access, or a peer is seen, or a seed manager
goes on.

Peers are told apart by their binary addresses, under which they are filed.
-/

namespace Zif.Node

open Go

/-! ## Concurrent maps -/

/-- `fnv32`. -/
def fnv32 (key : Bytes) : UInt32 := key.foldl (fun hash b => hash * 16777619 ^^^ b.toUInt32) 2166136261

/-- `SHARD_COUNT`. -/
def shardCount : Nat := 32

/-- `GetShard`. -/
def shard (key : Bytes) : Nat := (fnv32 key).toNat % shardCount

/-- What is known about when the peers were last seen. -/
abbrev Seen := Finmap fun _ : Bytes => Int

/-- `Tuple`: a peer and when it was last seen. -/
abbrev Sighting := Σ _ : Bytes, Int

/-! ## Calls -/

/-- Where `findSeeds` stands. -/
inductive Loop where
  /-- `Start` has not been called yet. -/
  | created
  | finding
  /-- It waits for the ticker or for a value on `Close`. -/
  | selecting
  | stopped
deriving DecidableEq

/-- `SeedManager`. -/
structure SeedManager where
  track : Bytes
  loop : Loop := .created
  /-- How many values have been received on `Close`. -/
  received : Nat := 0
deriving DecidableEq

/-- Where `HandleCloseConnection` stands. -/
inductive Closing where
  | peers
  | peerSeen
  | seedManagers
  /-- It has found a seed manager, and waits for it to take the value. -/
  | send (id : Nat)
deriving DecidableEq

/-- Where `SetPeer` stands. -/
inductive Setting where
  | has
  | entry
  | peers
  | peerSeen
  /-- In the condition of the loop, before it reads a shard; the count so far. -/
  | count (next : Nat) (total : Nat)
  /-- In `range pm.peerSeen.IterBuffered()`: the shards that have not been read, what is in the channel, and
  the last key that was seen before `now`. -/
  | scan (now : Int) (unread : Finset Nat) (channel : Multiset Sighting) (oldestKey : Bytes)
  | get (oldestKey : Bytes)
  /-- In `HandleCloseConnection` for the peer that has to go. -/
  | evict (oldest : Bytes) (stage : Closing)
deriving DecidableEq

/-- Where `heartbeatPeer` stands. -/
inductive Beating where
  /-- It waits for the ticker. -/
  | waiting
  | has
  | ping
  /-- In the explicit call of `HandleCloseConnection`. -/
  | close (stage : Closing)
  /-- In the deferred one. -/
  | deferred (stage : Closing)
deriving DecidableEq

/-- Where `AddSeedManager` stands. -/
inductive Adding where
  | has
  /-- In `NewSeedManager`. -/
  | load
  | set
  | start (id : Nat)
  /-- It has returned without an error. -/
  | added
deriving DecidableEq

/-- A call for the peer with an address, or what has become of it. -/
inductive Call where
  | setPeer (raw : Bytes) (stage : Setting)
  | handleCloseConnection (raw : Bytes) (stage : Closing)
  | heartbeatPeer (raw : Bytes) (stage : Beating)
  | addSeedManager (raw : Bytes) (stage : Adding)
  | returned
deriving DecidableEq

namespace Call

/-- The `HandleCloseConnection` that a call is in: for which address, and where it stands. -/
def closing : Call → Option (Bytes × Closing)
  | setPeer _ (.evict oldest stage) => some (oldest, stage)
  | handleCloseConnection raw stage => some (raw, stage)
  | heartbeatPeer raw (.close stage) => some (raw, stage)
  | heartbeatPeer raw (.deferred stage) => some (raw, stage)
  | _ => none

/-- The call after a step of its `HandleCloseConnection`, or, with `none`, after that has returned. -/
def resume : Call → Option Closing → Call
  | setPeer raw (.evict oldest _), some stage => setPeer raw (.evict oldest stage)
  | setPeer raw (.evict _ _), none => setPeer raw (.count 0 0)
  | handleCloseConnection raw _, some stage => handleCloseConnection raw stage
  | handleCloseConnection _ _, none => returned
  | heartbeatPeer raw (.close _), some stage => heartbeatPeer raw (.close stage)
  | heartbeatPeer raw (.close _), none => heartbeatPeer raw (.deferred .peers)
  | heartbeatPeer raw (.deferred _), some stage => heartbeatPeer raw (.deferred stage)
  | heartbeatPeer _ (.deferred _), none => returned
  | call, _ => call

/-- A `SetPeer` that has not returned. -/
def setting : Call → Bool
  | setPeer _ _ => true
  | _ => false

/-- A `SetPeer` or `HandleCloseConnection` that has not returned, and does not wait for a seed manager. -/
def busy (call : Call) : Bool :=
  match call.closing with
  | some (_, .send _) => false
  | some _ => true
  | none => call.setting

end Call

/-- What a step of a call meets. -/
structure Input where
  /-- What it asks for (an entry, a ping) succeeds. -/
  ok : Bool := true
  now : Int := 0
  /-- The shard that the iteration reads, or else what it takes out of the channel. -/
  shard : Nat := 0
  item : Sighting := ⟨[], 0⟩

/-! ## Steps -/

/-- The concurrent maps of a `PeerManager`, the seed managers there are, and the calls. -/
structure Connections where
  /-- `viper.GetInt("net.maxPeers")`. -/
  maxPeers : Int
  peers : Finset Bytes := ∅
  peerSeen : Seen := ∅
  /-- The seed managers by address, as numbers in `managers`. -/
  seedManagers : Finmap (fun _ : Bytes => Nat) := ∅
  managers : List SeedManager := []
  calls : List Call := []

namespace Connections

/-- `HandleCloseConnection`, one access after the other. The result is where it then stands, or that it has
returned. -/
def handleCloseConnection (s : Connections) (raw : Bytes) : Closing → Connections × Option Closing
  | .peers => ({ s with peers := s.peers.erase raw }, some .peerSeen)
  | .peerSeen => ({ s with peerSeen := s.peerSeen.erase raw }, some .seedManagers)
  | .seedManagers => (s, (s.seedManagers.lookup raw).map .send)
  | .send id => (s, some (.send id))

/-- `SetPeer` returns, and leaves a goroutine with the heartbeat behind. -/
def leave (s : Connections) (raw : Bytes) : Connections × Call :=
  ({ s with calls := s.calls ++ [.heartbeatPeer raw .waiting] }, .returned)

/-- `SetPeer`, but for `HandleCloseConnection`. -/
def setPeer (s : Connections) (input : Input) (raw : Bytes) : Setting → Connections × Call
  | .has => (s, if raw ∈ s.peers then .returned else .setPeer raw .entry)
  | .entry => (s, if input.ok then .setPeer raw .peers else .returned)
  | .peers => ({ s with peers := insert raw s.peers }, .setPeer raw .peerSeen)
  | .peerSeen => ({ s with peerSeen := s.peerSeen.insert raw input.now }, .setPeer raw (.count 0 0))
  | .count next total =>
    if next < shardCount then
      (s, .setPeer raw (.count (next + 1) (total + (Shards.part shard s.peers next).card)))
    else if s.maxPeers < total then
      (s, .setPeer raw (.scan input.now (Finset.range shardCount) 0 []))
    else s.leave raw
  | .scan now unread channel oldestKey =>
    if input.shard ∈ unread then
      (s, .setPeer raw
        (.scan now (unread.erase input.shard) (channel + Shards.items shard s.peerSeen input.shard) oldestKey))
    else if input.item ∈ channel then
      -- the time is compared with `now` only, so the last one to come is kept
      (s, .setPeer raw (.scan now unread (channel.erase input.item)
        (if input.item.2 < now then input.item.1 else oldestKey)))
    else if unread = ∅ ∧ channel = 0 then (s, .setPeer raw (.get oldestKey))
    else (s, .setPeer raw (.scan now unread channel oldestKey))
  | .get oldestKey =>
    if oldestKey ∈ s.peers then (s, .setPeer raw (.evict oldestKey .peers)) else s.leave raw
  | .evict oldest stage => (s, .setPeer raw (.evict oldest stage))

/-- `heartbeatPeer`, but for `HandleCloseConnection`. -/
def heartbeatPeer (s : Connections) (input : Input) (raw : Bytes) : Beating → Call
  | .waiting => .heartbeatPeer raw .has
  | .has => .heartbeatPeer raw (if raw ∈ s.peers then .ping else .deferred .peers)
  | .ping => .heartbeatPeer raw (if input.ok then .waiting else .close .peers)
  | stage => .heartbeatPeer raw stage

/-- `AddSeedManager`. -/
def addSeedManager (s : Connections) (input : Input) (raw : Bytes) : Adding → Connections × Call
  | .has => (s, .addSeedManager raw (if raw ∈ s.seedManagers then .added else .load))
  | .load => (s, if input.ok then .addSeedManager raw .set else .returned)
  | .set =>
    ({ s with
        seedManagers := s.seedManagers.insert raw s.managers.length
        managers := s.managers ++ [{ track := raw }] },
      .addSeedManager raw (.start s.managers.length))
  | .start id =>
    ({ s with managers := s.managers.modify id ({ · with loop := .finding }) }, .addSeedManager raw .added)
  | .added => (s, .addSeedManager raw .added)

/-- The next access of a call. -/
def access (s : Connections) (input : Input) (call : Call) : Connections × Call :=
  match call.closing with
  | some (raw, stage) =>
    let (s, stage) := s.handleCloseConnection raw stage
    (s, call.resume stage)
  | none =>
    match call with
    | .setPeer raw stage => s.setPeer input raw stage
    | .heartbeatPeer raw stage => (s, s.heartbeatPeer input raw stage)
    | .addSeedManager raw stage => s.addSeedManager input raw stage
    | call => (s, call)

/-- What happens to the connections. -/
inductive Event where
  | setPeer (raw : Bytes)
  /-- `HandleCloseConnection` is called from outside, as `ListenStream` does when a session ends. -/
  | handleCloseConnection (raw : Bytes)
  | addSeedManager (raw : Bytes)
  /-- `Peer.UpdateSeen`, for a stream that was accepted or opened. -/
  | updateSeen (raw : Bytes) (now : Int)
  /-- A call makes its next access. -/
  | advance (i : Nat) (input : Input)
  /-- `find` returns in a `findSeeds` loop. -/
  | found (id : Nat)
  /-- The ticker of a `findSeeds` loop. -/
  | tick (id : Nat)
  /-- A `findSeeds` loop takes the value of a call that waits for it. -/
  | receive (id : Nat) (i : Nat)
  /-- The configuration file has been changed. -/
  | configure (maxPeers : Int)

/-- A call starts. -/
def start (s : Connections) (call : Call) : Connections := { s with calls := s.calls ++ [call] }

/-- A `findSeeds` loop goes on, if it stands where this can happen. -/
def proceed (s : Connections) (id : Nat) (source target : Loop) : Connections :=
  { s with managers := s.managers.modify id fun m => if m.loop = source then { m with loop := target } else m }

/-- The state after an event. -/
def step (s : Connections) : Event → Connections
  | .setPeer raw => s.start (.setPeer raw .has)
  | .handleCloseConnection raw => s.start (.handleCloseConnection raw .peers)
  | .addSeedManager raw => s.start (.addSeedManager raw .has)
  | .updateSeen raw now => { s with peerSeen := s.peerSeen.insert raw now }
  | .advance i input =>
    match s.calls[i]? with
    | none => s
    | some call =>
      let (s, call) := s.access input call
      { s with calls := s.calls.set i call }
  | .found id => s.proceed id .finding .selecting
  | .tick id => s.proceed id .selecting .finding
  | .receive id i =>
    match s.managers[id]?, s.calls[i]? with
    | some m, some call =>
      if m.loop = .selecting ∧ call.closing.map Prod.snd = some (.send id) then
        { s with
          managers := s.managers.modify id fun m => { m with loop := .stopped, received := m.received + 1 }
          calls := s.calls.set i (call.resume none) }
      else s
    | _, _ => s
  | .configure maxPeers => { s with maxPeers := maxPeers }

/-- A call makes its next access, and no other call is under way. -/
def solo (st : Connections × Call) (input : Input) : Connections × Call := st.1.access input st.2

/-- A peer that `SetPeer` is about to disconnect was seen no later than any peer that is connected. -/
def EvictsOldest (st : Connections × Call) : Prop :=
  ∀ raw oldest, st.2 = .setPeer raw (.evict oldest .peers) →
    ∃ t, st.1.peerSeen.lookup oldest = some t ∧
      ∀ other ∈ st.1.peers, ∃ t', st.1.peerSeen.lookup other = some t' ∧ t ≤ t'

end Connections

end Zif.Node
