import Zif.Go.Proofs.ResultProofs
import Zif.Node.Proofs.ConnectProofs
import Zif.Node.Wiring

/-!
# Proofs: what ConnectPeerDirect returns

A peer that is known under the address it would be dialled at is registered, and has its callbacks. A peer that
has been dialled is returned in any case, also when `SetPeer` has not registered it; then it has none. `SetPeer`
enters the public address of the entry, without a port, while `ConnectPeerDirect` looks for what it dials.
-/

namespace Zif.Node

open Go Dht Proto

variable {pm : PeerManager} {w : Wiring} {id : Nat} {addr : Bytes} {d : PeerManager.Dial} {p : Peer}
  {pair : Entry × Capabilities} {reply : Result Entry} {evicted : List Bytes} {e : Entry}

/-! ## Registering a peer -/

namespace PeerManager

theorem setPeer_none (h : pm.objects[id]? = none) : pm.setPeer id reply evicted = pm := by
  unfold setPeer
  split
  · rfl
  · rename_i p hp
    rw [h] at hp
    cases hp

/-- The address is taken, or the entry cannot be had. -/
theorem setPeer_early (h : pm.objects[id]? = some p)
    (hearly : (pm.getPeer p.address).isSome = true ∨ ∃ f, p.fetchEntry reply = .error f) :
    pm.setPeer id reply evicted = pm := by
  unfold setPeer
  split
  · rfl
  · rename_i q hq
    cases h.symm.trans hq
    split_ifs with htaken
    · rfl
    · obtain ⟨f, hfetch⟩ := hearly.resolve_left htaken
      rw [hfetch]

theorem setPeer_ok (h : pm.objects[id]? = some p) (hnew : pm.getPeer p.address = none)
    (hfetch : p.fetchEntry reply = .ok e) :
    pm.setPeer id reply evicted =
      evicted.foldl remove ((pm.register id p e.publicAddress h).cache id e) := by
  unfold setPeer
  split
  · rename_i hp
    rw [h] at hp
    cases hp
  · rename_i q hq
    cases h.symm.trans hq
    simp only [hnew, Option.isSome_none, Bool.false_eq_true, if_false, hfetch]

theorem publicToZif_foldl_remove (evicted : List Bytes) (pm : PeerManager) :
    (evicted.foldl remove pm).publicToZif = pm.publicToZif := by
  induction evicted generalizing pm with
  | nil => rfl
  | cons raw evicted ih => exact ih _

theorem getPeer_ne_length (pm : PeerManager) (a : Address) : pm.getPeer a ≠ some pm.objects.length := by
  intro h
  obtain ⟨p, hp, -⟩ := pm.keyed a.raw _ h
  exact absurd (List.getElem?_eq_some_iff.mp hp).1 (lt_irrefl _)

theorem fetchEntry_connected (pair : Entry × Capabilities) (reply : Result Entry) (e : Entry) :
    (connected pair).fetchEntry reply = .ok e ↔ reply = .ok e ∧ e.address.equals pair.1.address = true := by
  cases reply with
  | error f => simp [Peer.fetchEntry, connected, bind, Except.bind]
  | ok e' =>
    cases heq : e'.address.equals pair.1.address with
    | true =>
      simp only [Peer.fetchEntry, connected, bind, Except.bind, heq, if_true, Except.ok.injEq]
      refine ⟨fun h => ⟨h, ?_⟩, And.left⟩
      rw [← h]
      exact heq
    | false =>
      simp only [Peer.fetchEntry, connected, bind, Except.bind, heq, Bool.false_eq_true, if_false]
      constructor
      · intro h
        cases h
      · rintro ⟨h, htrue⟩
        cases h
        rw [heq] at htrue
        cases htrue

end PeerManager

namespace Wiring

/-- The model with callbacks is that of `PeerManager`, but for these. -/
theorem manager_setPeer (w : Wiring) (id : Nat) (reply : Result Entry) (evicted : List Bytes) :
    (w.setPeer id reply evicted).manager = w.manager.setPeer id reply evicted := by
  unfold setPeer
  split
  · rename_i h
    exact (PeerManager.setPeer_none h).symm
  · rename_i p h
    split_ifs with htaken
    · exact (PeerManager.setPeer_early h (.inl htaken)).symm
    · split
      · rename_i f hfetch
        exact (PeerManager.setPeer_early h (.inr ⟨f, hfetch⟩)).symm
      · rfl

/-! ## Dialling -/

theorem connectPeerDirect_hit (h : (w.manager.publicToZif addr).bind w.manager.getPeer = some id) :
    w.connectPeerDirect addr d = (w, .ok id) := by
  unfold connectPeerDirect
  rw [h]

theorem connectPeerDirect_refused {f : Fault}
    (h : (w.manager.publicToZif addr).bind w.manager.getPeer = none) (hopened : d.opened = .error f) :
    w.connectPeerDirect addr d = (w, .error PeerManager.peerUnreachable) := by
  unfold connectPeerDirect
  rw [h, hopened]

theorem connectPeerDirect_answered (h : (w.manager.publicToZif addr).bind w.manager.getPeer = none)
    (hopened : d.opened = .ok pair) :
    w.connectPeerDirect addr d =
      ((w.newPeer (PeerManager.connected pair)).setPeer w.manager.objects.length d.reply d.evicted,
        .ok w.manager.objects.length) := by
  unfold connectPeerDirect
  rw [h, hopened]

/-- Whatever is met when dialling, the same peer is returned: it is found without. -/
theorem connectPeerDirect_always_iff (w : Wiring) (addr : Bytes) (id : Nat) :
    (∀ d, (w.connectPeerDirect addr d).2 = .ok id) ↔
      (w.manager.publicToZif addr).bind w.manager.getPeer = some id := by
  constructor
  · intro h
    have hrefused := h ⟨.error PeerManager.peerUnreachable, .error PeerManager.peerUnreachable, []⟩
    cases hlookup : (w.manager.publicToZif addr).bind w.manager.getPeer with
    | none =>
      rw [connectPeerDirect_refused hlookup rfl] at hrefused
      cases hrefused
    | some id' =>
      rw [connectPeerDirect_hit hlookup] at hrefused
      cases hrefused
      rfl
  · intro h d
    rw [connectPeerDirect_hit h]

/-! ## Peers that can be used -/

theorem outcome_ne_panic (fails : Option String) : outcome fails ≠ .error .panic := by
  cases fails <;> simp [outcome]

theorem call_ne_panic {c : Callback} (h : w.callbacks id c = true) (fails : Option String) :
    w.call id c fails ≠ .error .panic := by
  rw [call, if_pos h]
  exact outcome_ne_panic fails

theorem mirrored_ne_panic (p : Peer) (reply : Except String Entry) :
    p.mirrored (reply.mapError Fault.error) ≠ .error .panic := by
  cases reply with
  | error err => simp [Peer.mirrored, Except.mapError, bind, Except.bind]
  | ok e =>
    simp only [Peer.mirrored, Except.mapError, bind, Except.bind]
    split <;> simp

/-- A peer that is registered has its callbacks, and can be used. -/
theorem usable_iff : w.Usable id ↔
    ∃ p, w.manager.objects[id]? = some p ∧ w.manager.getPeer p.address = some id := by
  refine ⟨Usable.registered, fun h => ?_⟩
  obtain ⟨p, hp, hget⟩ := h
  have hwired := w.registered p.address.raw id hget
  refine ⟨⟨p, hp, hget⟩, hwired, fun q pingFails reply => ?_, fun entry r => ?_⟩
  · refine bind_ne_panic (outcome_ne_panic _) fun _ _ => bind_ne_panic (mirrored_ne_panic q reply) fun e _ =>
      bind_ne_panic (call_ne_panic (hwired _) _) fun _ _ hp => ?_
    cases hp
  · refine bind_ne_panic (outcome_ne_panic _) fun _ _ => bind_ne_panic (outcome_ne_panic _) fun _ _ =>
      bind_ne_panic (outcome_ne_panic _) fun _ _ => bind_ne_panic (call_ne_panic (hwired _) _) fun _ _ => ?_
    split
    · intro hp
      cases hp
    · exact call_ne_panic (hwired _) _

end Wiring

/-! ## The condition -/

namespace PeerManager

/-- `SetPeer` for the node that has answered: its address is not taken and it gives its entry. -/
structure Registers (pm : PeerManager) (pair : Entry × Capabilities) (reply : Result Entry) (e : Entry) :
    Prop where
  new : pm.getPeer pair.1.address = none
  reply : reply = .ok e
  own : e.address.equals pair.1.address = true

/-- The state after a node has answered. -/
def answered (pm : PeerManager) (pair : Entry × Capabilities) (reply : Result Entry)
    (evicted : List Bytes) : PeerManager :=
  (pm.newPeer (connected pair)).setPeer pm.objects.length reply evicted

theorem Registers.getPeer (h : pm.Registers pair reply e) (evicted : List Bytes) (a : Address) :
    (pm.answered pair reply evicted).getPeer a =
      if evicted.contains a.raw then none
      else if a.raw = pair.1.address.raw then some pm.objects.length else pm.getPeer a := by
  have hnew : (pm.newPeer (connected pair)).objects[pm.objects.length]? = some (connected pair) := by
    simp [newPeer]
  rw [answered, setPeer_ok hnew h.new ((fetchEntry_connected pair reply e).mpr ⟨h.reply, h.own⟩)]
  exact peers_foldl_remove evicted _ a.raw

theorem Registers.publicToZif (h : pm.Registers pair reply e) (evicted : List Bytes) (host : Bytes) :
    (pm.answered pair reply evicted).publicToZif host =
      if host = e.publicAddress then some pair.1.address else pm.publicToZif host := by
  have hnew : (pm.newPeer (connected pair)).objects[pm.objects.length]? = some (connected pair) := by
    simp [newPeer]
  rw [answered, setPeer_ok hnew h.new ((fetchEntry_connected pair reply e).mpr ⟨h.reply, h.own⟩),
    publicToZif_foldl_remove]
  rfl

/-- Otherwise nothing is registered. -/
theorem answered_of_not_registers (h : ∀ e, ¬ pm.Registers pair reply e) (evicted : List Bytes) :
    pm.answered pair reply evicted = pm.newPeer (connected pair) := by
  have hnew : (pm.newPeer (connected pair)).objects[pm.objects.length]? = some (connected pair) := by
    simp [newPeer]
  refine setPeer_early hnew ?_
  cases htaken : (pm.newPeer (connected pair)).getPeer (connected pair).address with
  | some id => exact .inl rfl
  | none =>
    cases hfetch : (connected pair).fetchEntry reply with
    | error f => exact .inr ⟨f, rfl⟩
    | ok e =>
      obtain ⟨hreply, hown⟩ := (fetchEntry_connected pair reply e).mp hfetch
      exact absurd ⟨htaken, hreply, hown⟩ (h e)

theorem Registers.getPeer_eq_length (h : pm.Registers pair reply e) (evicted : List Bytes) (a : Address) :
    (pm.answered pair reply evicted).getPeer a = some pm.objects.length ↔
      a.raw ∉ evicted ∧ a.raw = pair.1.address.raw := by
  rw [h.getPeer]
  split_ifs with hevicted heq
  · simp [List.contains_iff_mem.mp hevicted]
  · have hkept : a.raw ∉ evicted := fun hmem => hevicted (List.contains_iff_mem.mpr hmem)
    exact ⟨fun _ => ⟨hkept, heq⟩, fun _ => rfl⟩
  · simp [heq, getPeer_ne_length]

/-- The peer is found again: under the public address of its entry, or because its address had been entered
under what is dialled before. -/
theorem Registers.found_iff (h : pm.Registers pair reply e) (evicted : List Bytes) (addr : Bytes) :
    ((pm.answered pair reply evicted).publicToZif addr).bind (pm.answered pair reply evicted).getPeer =
        some pm.objects.length ↔
      pair.1.address.raw ∉ evicted ∧
        (addr = e.publicAddress ∨ ∃ a, pm.publicToZif addr = some a ∧ a.raw = pair.1.address.raw) := by
  rw [h.publicToZif]
  split_ifs with heq
  · simp [h.getPeer_eq_length, heq]
  · simp only [Option.bind_eq_some_iff, h.getPeer_eq_length, heq, false_or]
    constructor
    · rintro ⟨a, ha, hkept, hraw⟩
      rw [hraw] at hkept
      exact ⟨hkept, a, ha, hraw⟩
    · rintro ⟨hkept, a, ha, hraw⟩
      rw [← hraw] at hkept
      exact ⟨a, ha, hkept, hraw⟩

theorem registered_answered_iff :
    (∃ p, (pm.answered pair reply evicted).objects[pm.objects.length]? = some p ∧
        (pm.answered pair reply evicted).getPeer p.address = some pm.objects.length) ↔
      (pm.answered pair reply evicted).getPeer pair.1.address = some pm.objects.length := by
  have haddress : (pm.answered pair reply evicted).addressOf pm.objects.length = some pair.1.address :=
    addressOf_answered pair reply evicted
  obtain ⟨p, hp, heq⟩ := Option.map_eq_some_iff.mp haddress
  simp [hp, heq]

theorem answered_iff (pm : PeerManager) (pair : Entry × Capabilities) (reply : Result Entry)
    (evicted : List Bytes) (addr : Bytes) :
    (pm.answered pair reply evicted).getPeer pair.1.address = some pm.objects.length ∧
        ((pm.answered pair reply evicted).publicToZif addr).bind (pm.answered pair reply evicted).getPeer =
          some pm.objects.length ↔
      ∃ e, pm.Registers pair reply e ∧ pair.1.address.raw ∉ evicted ∧
        (addr = e.publicAddress ∨ ∃ a, pm.publicToZif addr = some a ∧ a.raw = pair.1.address.raw) := by
  by_cases h : ∃ e, pm.Registers pair reply e
  · obtain ⟨e, he⟩ := h
    rw [he.getPeer_eq_length, he.found_iff]
    constructor
    · rintro ⟨-, hkept, hfound⟩
      exact ⟨e, he, hkept, hfound⟩
    · rintro ⟨e', he', hkept, hfound⟩
      cases he.reply.symm.trans he'.reply
      exact ⟨⟨hkept, rfl⟩, hkept, hfound⟩
  · have hnone := answered_of_not_registers (not_exists.mp h) evicted
    constructor
    · rintro ⟨hget, -⟩
      rw [hnone] at hget
      exact (getPeer_ne_length pm pair.1.address hget).elim
    · rintro ⟨e, he, -⟩
      exact absurd ⟨e, he⟩ h

end PeerManager

namespace Wiring

/-- **What ConnectPeerDirect returns.** For every state, every address and whatever is met when dialling: a peer
that is returned is registered, has its callbacks, and is returned again by the next call, exactly when
dialling a node leads to this: it is registered, not removed to make room, and found under what was dialled. -/
theorem connectPeerDirect_usable_iff (w : Wiring) (addr : Bytes) (d : PeerManager.Dial) :
    (∀ w' id, w.connectPeerDirect addr d = (w', .ok id) →
        w'.Usable id ∧ ∀ d', (w'.connectPeerDirect addr d').2 = .ok id) ↔
      ∀ pair, (w.manager.publicToZif addr).bind w.manager.getPeer = none → d.opened = .ok pair →
        ∃ e, w.manager.Registers pair d.reply e ∧ pair.1.address.raw ∉ d.evicted ∧
          (addr = e.publicAddress ∨
            ∃ a, w.manager.publicToZif addr = some a ∧ a.raw = pair.1.address.raw) := by
  cases hlookup : (w.manager.publicToZif addr).bind w.manager.getPeer with
  | some id =>
    rw [connectPeerDirect_hit hlookup]
    refine ⟨fun _ pair h => (by cases h), fun _ w' id' heq => ?_⟩
    cases heq
    obtain ⟨a, -, hget⟩ := Option.bind_eq_some_iff.mp hlookup
    obtain ⟨p, hp, hraw⟩ := w.manager.keyed a.raw id hget
    have hregistered : w.manager.getPeer p.address = some id := by
      rw [PeerManager.getPeer, hraw]
      exact hget
    exact ⟨usable_iff.mpr ⟨p, hp, hregistered⟩, (connectPeerDirect_always_iff w addr id).mpr hlookup⟩
  | none =>
    cases hopened : d.opened with
    | error f =>
      rw [connectPeerDirect_refused hlookup hopened]
      exact ⟨fun _ pair _ h => (by cases h), fun _ w' id h => (by cases h)⟩
    | ok pair =>
      have hmanager : ((w.newPeer (PeerManager.connected pair)).setPeer w.manager.objects.length d.reply
          d.evicted).manager = w.manager.answered pair d.reply d.evicted := manager_setPeer _ _ _ _
      have hiff := PeerManager.answered_iff w.manager pair d.reply d.evicted addr
      rw [← PeerManager.registered_answered_iff, ← hmanager, ← usable_iff,
        ← connectPeerDirect_always_iff] at hiff
      rw [connectPeerDirect_answered hlookup hopened]
      constructor
      · intro h pair' _ hpair
        cases hpair
        exact hiff.mp (h _ _ rfl)
      · intro h w' id heq
        cases heq
        exact hiff.mpr (h pair rfl rfl)

/-- The first sample node dials the second at `b:5050`, and does so again. The first peer is registered under
`b`, so that the second time another one is made, which is not registered; `Mirror` and `RequestAddPeer` panic
with it. -/
theorem dialled_again :
    let addr := PeerManager.dialled (sampleHeader 2)
    let first := empty.connectPeerDirect addr PeerManager.sampleDial
    let second := first.1.connectPeerDirect addr PeerManager.sampleDial
    first.2 = .ok 0 ∧ first.1.manager.getPeer (sampleHeader 2).address = some 0 ∧
      second.2 = .ok 1 ∧ second.1.manager.getPeer (sampleHeader 2).address = some 0 ∧
      second.1.startMirror 1 (PeerManager.connected (sampleHeader 2, ⟨[]⟩)) none (.ok (sampleHeader 2)) =
        .error .panic ∧
      second.1.requestAddPeer 1 (sampleHeader 2) ⟨none, none, none, none, none⟩ = .error .panic := by
  decide +kernel

end Wiring

end Zif.Node
