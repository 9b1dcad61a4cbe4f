import Zif.Node.PeerManager
import Zif.Proto.Proofs.HandshakeProofs

/-!
# Proofs: whom ConnectPeer connects to

`ConnectPeer` takes the peer that is connected under the address of the entry, or the one that was last seen
at what would be dialled, or whoever answers there; in no case is its address compared with the one that was
asked for. So the peer is the right one exactly when the one that is found in this order is.
-/

open Session (Returned.unique)

namespace Zif.Node.PeerManager

open Go Dht Proto

variable {P : Prims} {codec : Codec} {pm : PeerManager} {id id' : Nat}

/-! ## Peer objects keep their address -/

section

variable {γ : Type} {g : Peer → γ} (hg : ∀ p e, g { p with entry := e } = g p)
include hg

theorem map_objects_cache (e : Entry) :
    (pm.cache id e).objects[id']?.map g = pm.objects[id']?.map g := by
  unfold cache modify
  rw [List.getElem?_modify]
  cases pm.objects[id']? with
  | none => rfl
  | some p => by_cases h : id = id' <;> simp [h, hg]

omit hg in
theorem objects_foldl_remove (evicted : List Bytes) : (evicted.foldl remove pm).objects = pm.objects := by
  induction evicted generalizing pm with
  | nil => rfl
  | cons raw evicted ih => exact ih

/-- `SetPeer` changes nothing of a peer object but the entry it keeps. -/
theorem map_objects_setPeer (pm : PeerManager) (id id' : Nat) (reply : Result Entry)
    (evicted : List Bytes) :
    (pm.setPeer id reply evicted).objects[id']?.map g = pm.objects[id']?.map g := by
  unfold setPeer
  split
  · rfl
  · split_ifs
    · rfl
    · split
      · rfl
      · rw [objects_foldl_remove, map_objects_cache hg]
        rfl

end

/-- The address of a peer object. -/
def addressOf (pm : PeerManager) (id : Nat) : Option Address := pm.objects[id]?.map Peer.address

theorem addressOf_setPeer (reply : Result Entry) (evicted : List Bytes) :
    (pm.setPeer id reply evicted).addressOf id' = pm.addressOf id' :=
  map_objects_setPeer (fun _ _ => rfl) pm id id' reply evicted

theorem addressOf_newPeer (p : Peer) : (pm.newPeer p).addressOf pm.objects.length = some p.address := by
  simp [addressOf, newPeer]

theorem addressOf_getPeer {a : Address} (h : pm.getPeer a = some id) :
    ∃ b, pm.addressOf id = some b ∧ b.raw = a.raw := by
  obtain ⟨p, hp, hraw⟩ := pm.keyed a.raw id h
  exact ⟨p.address, by rw [addressOf, hp]; rfl, hraw⟩

/-! ## The node that answers -/

/-- What `handleConnection` makes of the handshake. -/
def opened : Result (Option (Entry × Capabilities)) → Result (Entry × Capabilities)
  | .error f => .error f
  | .ok none => .error (.error "Failed to handshake, nil entry")
  | .ok (some pair) => .ok pair

/-- What dialling comes to when this node listens there, and when nobody does. -/
def Answers (P : Prims) (codec : Codec) (self : Party) :
    Option Party → Result (Entry × Capabilities) → Prop
  | none, r => ∃ f, r = .error f
  | some node, r => ∃ t a b, (connection P codec self node).Runs t ∧ t.Returned a b ∧ r = opened a

/-- A node that answers gives its own entry, if the handshake completes. -/
theorem Answers.eq_ok_iff {self node : Party} {r : Result (Entry × Capabilities)}
    {pair : Entry × Capabilities} (h : Answers P codec self (some node) r) :
    r = .ok pair ↔ Proto.Completes P codec self node ∧ pair = (node.entry, Proto.received node.capabilities) := by
  obtain ⟨t, a, b, ⟨n, hn⟩, ht, rfl⟩ := h
  obtain ⟨t', a', b', ⟨n', hn'⟩, ht', hout⟩ := connection_outcome P codec self node
  obtain ⟨rfl, rfl⟩ := Returned.unique hn' ht' hn ht
  rcases hout with ⟨hcomp, rfl, rfl⟩ | ⟨hnot, ha, -⟩
  · constructor
    · intro heq
      cases heq
      exact ⟨hcomp, rfl⟩
    · rintro ⟨-, rfl⟩
      rfl
  · constructor
    · intro heq
      rcases ha with rfl | ⟨f, rfl⟩ <;> cases heq
    · exact fun h => absurd h.1 hnot

theorem Answers.node_of_ok {self : Party} {node : Option Party} {pair : Entry × Capabilities}
    (h : Answers P codec self node (.ok pair)) :
    ∃ n, node = some n ∧ Proto.Completes P codec self n ∧
      pair = (n.entry, Proto.received n.capabilities) := by
  cases node with
  | none =>
    obtain ⟨f, hf⟩ := h
    cases hf
  | some n =>
    obtain ⟨hcomp, hpair⟩ := h.eq_ok_iff.mp rfl
    exact ⟨n, rfl, hcomp, hpair⟩

/-! ## The peer that is returned -/

theorem addressOf_known {e : Entry} (h : pm.known e = some id) :
    ∃ a, pm.addressOf id = some a := by
  rcases Option.or_eq_some_iff.mp h with h | ⟨-, h⟩
  · obtain ⟨a, ha, -⟩ := addressOf_getPeer h
    exact ⟨a, ha⟩
  · obtain ⟨a, -, ha⟩ := Option.bind_eq_some_iff.mp h
    obtain ⟨b, hb, -⟩ := addressOf_getPeer ha
    exact ⟨b, hb⟩

variable {own addr : Address} {resolved : Result Entry} {d : Dial} {e : Entry}

theorem connectPeer_self (hself : e.address.equals own = true) :
    pm.connectPeer own (.ok e) d = (pm, none, .error (.error "Cannot connect to self")) := by
  simp only [connectPeer, hself, if_true]

/-- A peer that is known is returned. -/
theorem connectPeer_known (hown : e.address.equals own = false) (h : pm.known e = some id) :
    pm.connectPeer own (.ok e) d = (pm, some e, .ok id) := by
  unfold connectPeer
  simp only [hown, Bool.false_eq_true, if_false]
  rcases Option.or_eq_some_iff.mp h with h | ⟨hnone, h⟩
  · rw [h]
  · rw [hnone]
    simp only [connectPeerDirect, h]

/-- Otherwise the peer is the node that answers, if one does. -/
theorem connectPeer_unreachable {f : Fault} (hown : e.address.equals own = false)
    (h : pm.known e = none) (hopened : d.opened = .error f) :
    pm.connectPeer own (.ok e) d = (pm, some e, .error peerUnreachable) := by
  obtain ⟨hnone, hcached⟩ := Option.or_eq_none_iff.mp h
  unfold connectPeer
  simp only [hown, Bool.false_eq_true, if_false, hnone, connectPeerDirect, hcached, hopened]

theorem connectPeer_answered {pair : Entry × Capabilities} (hown : e.address.equals own = false)
    (h : pm.known e = none) (hopened : d.opened = .ok pair) :
    pm.connectPeer own (.ok e) d =
      ((pm.newPeer (connected pair)).setPeer pm.objects.length d.reply d.evicted, some e,
        .ok pm.objects.length) := by
  obtain ⟨hnone, hcached⟩ := Option.or_eq_none_iff.mp h
  unfold connectPeer
  simp only [hown, Bool.false_eq_true, if_false, hnone, connectPeerDirect, hcached, hopened]

/-- The four ways `ConnectPeer` can end once the entry is resolved. -/
theorem connectPeer_ends (pm : PeerManager) (own : Address) (e : Entry) (d : Dial) :
    e.address.equals own = true ∧
        pm.connectPeer own (.ok e) d = (pm, none, .error (.error "Cannot connect to self")) ∨
      e.address.equals own = false ∧
        ((∃ id, pm.known e = some id ∧ pm.connectPeer own (.ok e) d = (pm, some e, .ok id)) ∨
          pm.known e = none ∧
            ((∃ f, d.opened = .error f ∧
                pm.connectPeer own (.ok e) d = (pm, some e, .error peerUnreachable)) ∨
              ∃ pair, d.opened = .ok pair ∧ pm.connectPeer own (.ok e) d =
                ((pm.newPeer (connected pair)).setPeer pm.objects.length d.reply d.evicted, some e,
                  .ok pm.objects.length))) := by
  by_cases hself : e.address.equals own = true
  · exact .inl ⟨hself, connectPeer_self hself⟩
  have hown : e.address.equals own = false := Bool.eq_false_iff.mpr hself
  refine .inr ⟨hown, ?_⟩
  cases hknown : pm.known e with
  | some id => exact .inl ⟨id, rfl, connectPeer_known hown hknown⟩
  | none =>
    refine .inr ⟨rfl, ?_⟩
    cases hopened : d.opened with
    | error f => exact .inl ⟨f, rfl, connectPeer_unreachable hown hknown hopened⟩
    | ok pair => exact .inr ⟨pair, rfl, connectPeer_answered hown hknown hopened⟩

theorem addressOf_answered (pair : Entry × Capabilities) (reply : Result Entry) (evicted : List Bytes) :
    ((pm.newPeer (connected pair)).setPeer pm.objects.length reply evicted).addressOf pm.objects.length =
      some pair.1.address := by
  rw [addressOf_setPeer, addressOf_newPeer]
  rfl

/-- The condition: a peer that is taken without dialling has the address, and otherwise the node that
answers has, if the handshake with it completes. -/
structure Leads (P : Prims) (codec : Codec) (dialler : Party) (node : Bytes → Option Party) (pm : PeerManager)
    (addr : Address) (e : Entry) : Prop where
  known : ∀ id a, pm.known e = some id → pm.addressOf id = some a → a.equals addr = true
  answering : pm.known e = none → ∀ n, node (dialled e) = some n → Proto.Completes P codec dialler n →
    n.entry.address.equals addr = true

/-- **Whom ConnectPeer connects to.** For every entry that is resolved, and whoever listens at its public
address: a peer that is returned has the address that was asked for exactly when the peers that are known and
the node that answers lead there. -/
theorem connectPeer_address_iff (P : Prims) (codec : Codec) (self : Party) (node : Bytes → Option Party)
    (pm : PeerManager) (own addr : Address) (resolved : Result Entry) (d : Dial)
    (hanswers : ∀ e, resolved = .ok e → Answers P codec self (node (dialled e)) d.opened) :
    (∀ pm' e id, pm.connectPeer own resolved d = (pm', e, .ok id) →
        ∃ a, pm'.addressOf id = some a ∧ a.equals addr = true) ↔
      ∀ e, resolved = .ok e → e.address.equals own = false → Leads P codec self node pm addr e := by
  cases resolved with
  | error f =>
    refine ⟨fun _ e he => ?_, fun _ pm' e id heq => ?_⟩
    · cases he
    · cases heq
  | ok e =>
    have hanswer := hanswers e rfl
    constructor
    · intro h e' he hown
      cases he
      refine ⟨fun id a hid ha => ?_, fun hnone n hn hcomp => ?_⟩
      · obtain ⟨b, hb, heq⟩ := h pm _ id (connectPeer_known hown hid)
        rw [ha] at hb
        cases hb
        exact heq
      · rw [hn] at hanswer
        have hopened := hanswer.eq_ok_iff.mpr ⟨hcomp, rfl⟩
        obtain ⟨b, hb, heq⟩ := h _ _ _ (connectPeer_answered hown hnone hopened)
        rw [addressOf_answered] at hb
        cases hb
        exact heq
    · intro h pm' e' id hret
      rcases connectPeer_ends pm own e d with ⟨-, heq⟩ |
        ⟨hown, ⟨id', hknown, heq⟩ | ⟨hknown, ⟨f, -, heq⟩ | ⟨pair, hopened, heq⟩⟩⟩
      · rw [heq] at hret
        cases hret
      · rw [heq] at hret
        cases hret
        obtain ⟨a, ha⟩ := addressOf_known hknown
        exact ⟨a, ha, (h e rfl hown).known id a hknown ha⟩
      · rw [heq] at hret
        cases hret
      · rw [heq] at hret
        cases hret
        rw [hopened] at hanswer
        obtain ⟨n, hn, hcomp, rfl⟩ := hanswer.node_of_ok
        exact ⟨n.entry.address, addressOf_answered _ _ _, (h e rfl hown).answering hknown n hn hcomp⟩

/-! ## An impostor -/

/-- The second sample node answers, and is asked for its entry. -/
def sampleDial : Dial := ⟨.ok (sampleHeader 2, ⟨[]⟩), .ok (sampleHeader 2), []⟩

theorem answers_sample :
    Answers .sample sampleCodec (sampleParty 1 ⟨[]⟩) (some (sampleParty 2 ⟨[]⟩)) sampleDial.opened := by
  have hcomp : Proto.Completes .sample sampleCodec (sampleParty 1 ⟨[]⟩) (sampleParty 2 ⟨[]⟩) :=
    ⟨accepted_sampleParty (.inl rfl) 2 (by decide), accepted_sampleParty (.inr rfl) 1 (by decide)⟩
  obtain ⟨t, hruns, ht⟩ := connection_accepted hcomp
  exact ⟨t, _, _, hruns, ht, rfl⟩

/-- The first node asks for the second and connects to it. -/
theorem connectPeer_address_sample :
    ∃ a, (empty.connectPeer (sampleHeader 1).address (.ok (sampleHeader 2)) sampleDial).1.addressOf 0 = some a ∧
      a.equals (sampleHeader 2).address = true := by
  refine (connectPeer_address_iff .sample sampleCodec (sampleParty 1 ⟨[]⟩)
    (fun _ => some (sampleParty 2 ⟨[]⟩)) empty (sampleHeader 1).address (sampleHeader 2).address
    (.ok (sampleHeader 2)) sampleDial fun _ _ => answers_sample).mpr ?_ _ _ 0 rfl
  intro e he _
  cases he
  refine ⟨fun id a hid _ => ?_, fun _ n hn _ => ?_⟩
  · cases hid
  · cases hn
    exact decide_eq_true rfl

/-- The first node asks for a third one, at whose public address the second answers. It is returned. -/
theorem connectPeer_impostor :
    let third : Entry := { sampleHeader 2 with address := { raw := List.replicate 20 3 } }
    Answers .sample sampleCodec (sampleParty 1 ⟨[]⟩) (some (sampleParty 2 ⟨[]⟩)) sampleDial.opened ∧
      (empty.connectPeer (sampleHeader 1).address (.ok third) sampleDial).2.2 = .ok 0 ∧
      (empty.connectPeer (sampleHeader 1).address (.ok third) sampleDial).1.addressOf 0 =
        some (sampleHeader 2).address ∧
      (sampleHeader 2).address.equals third.address = false := by
  exact ⟨answers_sample, by decide +kernel, by decide +kernel, by decide +kernel⟩

end Zif.Node.PeerManager
