import Zif.Node.MirrorCommand

/-!
# The callbacks of a peer

`SetPeer` gives a peer the functions with which it reaches back to the local peer, just before it registers the
peer. Until then they are `nil`, and calling one of them is a panic; nothing else sets or clears them.
`Peer.Mirror` and `Peer.RequestAddPeer` call them without looking.
-/

namespace Zif.Node

open Go Dht

/-- The functions that `SetPeer` sets on a peer. -/
inductive Callback where
  | addSeedManager
  | addSeeding
  | addEntry
  | updateSeen
  deriving DecidableEq, Repr

namespace PeerManager

theorem peers_foldl_remove (evicted : List Bytes) (pm : PeerManager) (raw : Bytes) :
    (evicted.foldl remove pm).peers raw = if evicted.contains raw then none else pm.peers raw := by
  induction evicted generalizing pm with
  | nil => rfl
  | cons raw' evicted ih =>
    rw [List.foldl_cons, ih]
    by_cases heq : raw = raw'
    · simp [remove, heq]
    · simp [remove, heq]

/-- `SetPeer` registers no peer but the one it is called for. -/
theorem peers_of_setPeer {pm : PeerManager} {id id' : Nat} {reply : Result Entry} {evicted : List Bytes}
    {raw : Bytes} (h : (pm.setPeer id reply evicted).peers raw = some id') :
    id' = id ∨ pm.peers raw = some id' := by
  unfold setPeer at h
  split at h
  · exact .inr h
  · split_ifs at h
    · exact .inr h
    · split at h
      · exact .inr h
      · rw [peers_foldl_remove] at h
        simp only [cache, modify, register] at h
        split_ifs at h
        · exact .inl (Option.some.inj h).symm
        · exact .inr h

end PeerManager

/-- A `PeerManager` and the callbacks of its peer objects. -/
structure Wiring where
  manager : PeerManager
  /-- Whether a callback of a peer object is set. -/
  callbacks : Nat → Callback → Bool
  /-- All are set on a peer that is registered. -/
  registered : ∀ raw id, manager.peers raw = some id → ∀ c, callbacks id c = true

namespace Wiring

/-- `NewPeerManager`. -/
def empty : Wiring where
  manager := .empty
  callbacks _ _ := false
  registered _ _ h := by cases h

/-- A new peer object has no callbacks. -/
def newPeer (w : Wiring) (p : Peer) : Wiring where
  manager := w.manager.newPeer p
  callbacks id c := id ≠ w.manager.objects.length && w.callbacks id c
  registered raw id h c := by
    obtain ⟨q, hq, -⟩ := w.manager.keyed raw id h
    have hlt := (List.getElem?_eq_some_iff.mp hq).1
    simp [w.registered raw id h c, hlt.ne]

/-- `SetPeer`. The callbacks are set when the address is not taken and the entry is there. -/
def setPeer (w : Wiring) (id : Nat) (reply : Result Entry) (evicted : List Bytes) : Wiring :=
  match w.manager.objects[id]? with
  | none => w
  | some p =>
    if (w.manager.getPeer p.address).isSome then w
    else
      match p.fetchEntry reply with
      | .error _ => w
      | .ok _ =>
        { manager := w.manager.setPeer id reply evicted
          callbacks := fun id' c => id' = id || w.callbacks id' c
          registered := fun raw id' h c => by
            rcases PeerManager.peers_of_setPeer h with heq | hold
            · simp [heq]
            · simp [w.registered raw id' hold c] }

/-- `ConnectPeerDirect`. -/
def connectPeerDirect (w : Wiring) (addr : Bytes) (d : PeerManager.Dial) : Wiring × Result Nat :=
  match (w.manager.publicToZif addr).bind w.manager.getPeer with
  | some id => (w, .ok id)
  | none =>
    match d.opened with
    | .error _ => (w, .error PeerManager.peerUnreachable)
    | .ok pair =>
      ((w.newPeer (PeerManager.connected pair)).setPeer w.manager.objects.length d.reply d.evicted,
        .ok w.manager.objects.length)

/-! ## Calling them -/

/-- What a call that may fail comes to. -/
def outcome : Option String → Result Unit
  | none => .ok ()
  | some err => .error (.error err)

/-- Calls a callback of a peer. -/
def call (w : Wiring) (id : Nat) (c : Callback) (fails : Option String) : Result Unit :=
  if w.callbacks id c then outcome fails else .error .panic

/-- `Peer.Mirror` until it has called `addEntry`, whose error it does not look at. -/
def startMirror (w : Wiring) (id : Nat) (p : Peer) (pingFails : Option String)
    (reply : Except String Entry) : Result Entry := do
  outcome pingFails
  let entry ← p.mirrored (reply.mapError Fault.error)
  w.call id .addEntry none
  .ok entry

/-- What happens around `Peer.RequestAddPeer`: the errors of its calls. -/
structure Request where
  ping : Option String
  openStream : Option String
  requestAddPeer : Option String
  addSeedManager : Option String
  addSeeding : Option String

/-- `Peer.RequestAddPeer`. -/
def requestAddPeer (w : Wiring) (id : Nat) (entry : Entry) (r : Request) : Result Unit := do
  outcome r.ping
  outcome r.openStream
  outcome r.requestAddPeer
  w.call id .addSeedManager r.addSeedManager
  if entry.seeds.any fun i => Address.equals { raw := i } entry.address then .ok ()
  else w.call id .addSeeding r.addSeeding

/-- The peer is registered under its address and has its callbacks, so that neither `Mirror` nor
`RequestAddPeer` panics. -/
structure Usable (w : Wiring) (id : Nat) : Prop where
  registered : ∃ p, w.manager.objects[id]? = some p ∧ w.manager.getPeer p.address = some id
  wired : ∀ c, w.callbacks id c = true
  mirror : ∀ p pingFails reply, w.startMirror id p pingFails reply ≠ .error .panic
  requestAddPeer : ∀ entry r, w.requestAddPeer id entry r ≠ .error .panic

end Wiring

end Zif.Node
