import Zif.Node.Proofs.MirrorCommandProofs

/-!
# Proofs: which seed the Mirror command uses

The seeds of a peer that cannot be reached are all tried, and each one that is connected is marked. The one
that is used is that of the last try (`foldl_trySeed_used`); what is marked are those of all of them
(`foldl_trySeed_marks`).
-/

namespace Zif.Node.PeerManager

open Go Dht Proto

variable {pm pm' : PeerManager} {own address : Address} {call : MirrorCall} {e : Entry} {id : Nat}

/-! ## One seed -/

theorem marks_modify {p : Peer} (h : pm.objects[id]? = some p) (id' : Nat) :
    (pm.modify id ({ · with seed := true, seedFor := some e }) fun _ => rfl).marks id' =
      if id' = id then (true, some e) else pm.marks id' := by
  unfold marks modify
  rw [List.getElem?_modify]
  by_cases heq : id' = id
  · rw [if_pos heq, heq, h]
    simp
  · simp [heq, Ne.symm heq]

/-- A peer that has just been made is not marked. -/
theorem marks_newPeer (pair : Entry × Capabilities) (id : Nat) :
    (pm.newPeer (connected pair)).marks id = pm.marks id := by
  unfold marks newPeer
  rcases lt_trichotomy id pm.objects.length with hlt | rfl | hgt
  · rw [List.getElem?_append_left hlt]
  · simp [connected]
  · rw [List.getElem?_eq_none (by simp; omega), List.getElem?_eq_none (by omega)]

theorem marks_setPeer (reply : Result Entry) (evicted : List Bytes) (id' : Nat) :
    (pm.setPeer id reply evicted).marks id' = pm.marks id' := by
  unfold marks
  rw [map_objects_setPeer fun _ _ => rfl]

/-- What `ConnectPeer` can come to: the peers are as they were, or there is a new one, which is returned. -/
theorem connectPeer_cases (pm : PeerManager) (own : Address) (resolved : Result Entry) (d : Dial) :
    ((pm.connectPeer own resolved d).1 = pm ∧ ∀ id, (pm.connectPeer own resolved d).2.2 = .ok id →
        ∃ p, pm.objects[id]? = some p) ∨
      ∃ pair, pm.connectPeer own resolved d =
        ((pm.newPeer (connected pair)).setPeer pm.objects.length d.reply d.evicted, resolved.toOption,
          .ok pm.objects.length) := by
  cases resolved with
  | error f => exact .inl ⟨rfl, fun id h => by cases h⟩
  | ok e =>
    rcases connectPeer_ends pm own e d with ⟨-, heq⟩ |
      ⟨-, ⟨id', hknown, heq⟩ | ⟨-, ⟨f, -, heq⟩ | ⟨pair, -, heq⟩⟩⟩
    · rw [heq]
      exact .inl ⟨rfl, fun id h => by cases h⟩
    · rw [heq]
      refine .inl ⟨rfl, fun id h => ?_⟩
      cases h
      exact object_of_known hknown
    · rw [heq]
      exact .inl ⟨rfl, fun id h => by cases h⟩
    · exact .inr ⟨pair, heq⟩

theorem marks_connectPeer (pm : PeerManager) (own : Address) (resolved : Result Entry) (d : Dial) (id : Nat) :
    (pm.connectPeer own resolved d).1.marks id = pm.marks id := by
  rcases connectPeer_cases pm own resolved d with ⟨heq, -⟩ | ⟨pair, heq⟩
  · rw [heq]
  · rw [heq]
    exact (marks_setPeer _ _ id).trans (marks_newPeer pair id)

theorem object_connectPeer (pm : PeerManager) (own : Address) (resolved : Result Entry) (d : Dial) (id : Nat)
    (h : (pm.connectPeer own resolved d).2.2 = .ok id) :
    ∃ p, (pm.connectPeer own resolved d).1.objects[id]? = some p := by
  rcases connectPeer_cases pm own resolved d with ⟨heq, hold⟩ | ⟨pair, heq⟩
  · rw [heq]
    exact hold id h
  · rw [heq] at h ⊢
    cases h
    exact (object_answered pair d.reply d.evicted).imp fun p hp => hp.1

/-- A seed that is tried: its peer is the one that is used so far, and it is marked. -/
theorem trySeed_tried (e : Entry) (call : MirrorCall) {seed : Bytes × Nat} (hown : seed.1 ≠ own.raw)
    (st : PeerManager × Option Nat) :
    (trySeed own e call st seed).2 =
        (st.1.connectPeer own (call.atSeed seed.2).1 (call.atSeed seed.2).2).2.2.toOption ∧
      ∀ id, (trySeed own e call st seed).1.marks id =
        if (trySeed own e call st seed).2 = some id then (true, some e) else st.1.marks id := by
  have hmarks := marks_connectPeer st.1 own (call.atSeed seed.2).1 (call.atSeed seed.2).2
  have hobject := object_connectPeer st.1 own (call.atSeed seed.2).1 (call.atSeed seed.2).2
  unfold trySeed
  rw [if_neg hown]
  revert hmarks hobject
  rcases st.1.connectPeer own (call.atSeed seed.2).1 (call.atSeed seed.2).2 with ⟨pm', o, r⟩
  intro hmarks hobject
  cases r with
  | error f => exact ⟨rfl, fun id => by simpa using hmarks id⟩
  | ok id' =>
    refine ⟨rfl, fun id => ?_⟩
    obtain ⟨p, hp⟩ := hobject id' rfl
    rw [marks_modify hp, hmarks id]
    simp [eq_comm]

theorem trySeed_fst (pm : PeerManager) (o : Option Nat) (seed : Bytes × Nat) :
    (trySeed own e call (pm, o) seed).1 = (trySeed own e call (pm, none) seed).1 := by
  unfold trySeed
  split_ifs <;> rfl

/-! ## All seeds -/

theorem tried_cons_own {seed : Bytes × Nat} (hown : seed.1 = own.raw) (seeds : List (Bytes × Nat)) :
    tried own e call pm (seed :: seeds) = tried own e call pm seeds := by
  simp [tried, trySeed, hown]

theorem tried_cons {seed : Bytes × Nat} (hown : seed.1 ≠ own.raw) (o : Option Nat)
    (seeds : List (Bytes × Nat)) :
    tried own e call pm (seed :: seeds) =
      (trySeed own e call (pm, o) seed).2 :: tried own e call (trySeed own e call (pm, o) seed).1 seeds := by
  rw [tried, if_neg hown, trySeed_fst pm o seed, (trySeed_tried e call hown (pm, o)).1]

/-- The peer that is used is the one of the last seed that is tried. -/
theorem foldl_trySeed_used (own : Address) (e : Entry) (call : MirrorCall) (st : PeerManager × Option Nat)
    (seeds : List (Bytes × Nat)) :
    (seeds.foldl (trySeed own e call) st).2 = (tried own e call st.1 seeds).getLast?.getD st.2 := by
  induction seeds generalizing st with
  | nil => rfl
  | cons seed seeds ih =>
    rw [List.foldl_cons, ih]
    by_cases hown : seed.1 = own.raw
    · rw [tried_cons_own hown, trySeed, if_pos hown]
    · rw [tried_cons hown st.2, List.getLast?_cons, Option.getD_some]

/-- The peers of the seeds that are tried are marked, and nothing else changes. -/
theorem foldl_trySeed_marks (own : Address) (e : Entry) (call : MirrorCall) (st : PeerManager × Option Nat)
    (seeds : List (Bytes × Nat)) (id : Nat) :
    (some id ∈ tried own e call st.1 seeds →
        (seeds.foldl (trySeed own e call) st).1.marks id = (true, some e)) ∧
      (some id ∉ tried own e call st.1 seeds →
        (seeds.foldl (trySeed own e call) st).1.marks id = st.1.marks id) := by
  induction seeds generalizing st with
  | nil => simp [tried]
  | cons seed seeds ih =>
    rw [List.foldl_cons]
    obtain ⟨hmem, hnot⟩ := ih (trySeed own e call st seed)
    by_cases hown : seed.1 = own.raw
    · have hst : trySeed own e call st seed = st := by rw [trySeed, if_pos hown]
      rw [hst] at hmem hnot ⊢
      rw [tried_cons_own hown]
      exact ⟨hmem, hnot⟩
    · have hmarks := (trySeed_tried e call hown st).2 id
      rw [tried_cons hown st.2, List.mem_cons]
      by_cases hlater : some id ∈ tried own e call (trySeed own e call st seed).1 seeds
      · exact ⟨fun _ => hmem hlater, fun h => absurd (.inr hlater) h⟩
      · rw [hnot hlater, hmarks]
        refine ⟨fun h => if_pos ?_, fun h => if_neg fun heq => h (.inl heq.symm)⟩
        exact (h.resolve_right hlater).symm

/-! ## The command -/

/-- The seeds decide, once the peer cannot be reached. -/
theorem reach_of_unreachable (hget : pm.getPeer address = none)
    (hfail : pm.connectPeer own call.resolvedAgain call.dial = (pm', some e, .error peerUnreachable))
    (hshuffle : (call.shuffle e.seeds).Perm e.seeds) :
    pm.reach own address call =
      let out := (call.shuffle e.seeds).zipIdx.foldl (trySeed own e call) (pm', none)
      (out.1, out.2.elim (.error peerUnreachable) .ok) := by
  unfold reach
  simp only [hget, hfail, ne_eq, not_true_eq_false, decide_false, Bool.false_or]
  split_ifs with hempty
  · rw [List.isEmpty_iff.mp hempty, List.perm_nil] at hshuffle
    rw [List.isEmpty_iff.mp hempty, hshuffle]
    rfl
  · rcases (call.shuffle e.seeds).zipIdx.foldl (trySeed own e call) (pm', none) with ⟨pm'', _ | id⟩ <;> rfl

/-- **Which seed is used.** A peer cannot be reached, and its seeds are tried in any order, whichever of them
can be connected. A peer that is marked for the entry is used if and only if a seed is connected, and no other
is marked, exactly when every peer that was marked before or is connected for a seed is the one of the last
seed that is tried. -/
theorem reach_seed_iff (pm : PeerManager) (own address : Address) (call : MirrorCall)
    (hget : pm.getPeer address = none) {pm' : PeerManager} {e : Entry}
    (hfail : pm.connectPeer own call.resolvedAgain call.dial = (pm', some e, .error peerUnreachable))
    (hshuffle : (call.shuffle e.seeds).Perm e.seeds) :
    SeedChosen e (tried own e call pm' (call.shuffle e.seeds).zipIdx) (pm.reach own address call) ↔
      ∀ id, (pm.marks id).1 = true ∨ some id ∈ tried own e call pm' (call.shuffle e.seeds).zipIdx →
        (tried own e call pm' (call.shuffle e.seeds).zipIdx).getLast? = some (some id) := by
  have hold : ∀ id, pm'.marks id = pm.marks id := by
    intro id
    have hmarks := marks_connectPeer pm own call.resolvedAgain call.dial id
    rwa [hfail] at hmarks
  obtain ⟨out, hout⟩ : ∃ out, out = (call.shuffle e.seeds).zipIdx.foldl (trySeed own e call) (pm', none) :=
    ⟨_, rfl⟩
  have hused := foldl_trySeed_used own e call (pm', none)
    (call.shuffle e.seeds).zipIdx
  have hmarks := foldl_trySeed_marks own e call (pm', none)
    (call.shuffle e.seeds).zipIdx
  rw [reach_of_unreachable hget hfail hshuffle]
  simp only [← hout, hold] at hused hmarks ⊢
  generalize tried own e call pm' (call.shuffle e.seeds).zipIdx = peers at hused hmarks ⊢
  have hlast : ∀ id, out.2.elim (Except.error peerUnreachable) Except.ok = .ok id ↔
      peers.getLast? = some (some id) := by
    intro id
    rw [hused]
    rcases peers.getLast? with _ | _ | id' <;> simp
  have hmarked : ∀ id, (out.1.marks id).1 = true ↔ (pm.marks id).1 = true ∨ some id ∈ peers := by
    intro id
    by_cases hmem : some id ∈ peers
    · simp [(hmarks id).1 hmem, hmem]
    · simp [(hmarks id).2 hmem, hmem]
  simp only [SeedChosen, hlast, hmarked]
  refine ⟨And.right, fun h => ⟨⟨?_, ?_⟩, h⟩⟩
  · rintro ⟨id, hid, -⟩
    exact ⟨id, List.mem_of_getLast? hid⟩
  · rintro ⟨id, hid⟩
    exact ⟨id, h id (.inr hid), (hmarks id).1 hid⟩

/-- The third sample node has two seeds. -/
def sampleSeeded : Entry :=
  { Mirrors.sampleThird with seeds := [List.replicate 20 2, List.replicate 20 4] }

/-- A Mirror command for it while it cannot be reached. What becomes of dialling each of its seeds is given. -/
def sampleSeeds (first second : Result (Entry × Capabilities)) : MirrorCall :=
  { Mirrors.sampleMirror sampleSeeded (.error (.error "refused")) with
    atSeed := fun n =>
      if n = 0 then (.ok (sampleHeader 2), { sampleDial with opened := first })
      else (.ok (sampleHeader 4), ⟨second, .ok (sampleHeader 4), []⟩) }

/-- Only the second seed answers, and it is used. -/
theorem reach_seed_second :
    SeedChosen sampleSeeded [none, some 0]
      (empty.reach (sampleHeader 1).address sampleSeeded.address
        (sampleSeeds (.error (.error "refused")) (.ok (sampleHeader 4, ⟨[]⟩)))) := by
  have htried : tried (sampleHeader 1).address sampleSeeded
      (sampleSeeds (.error (.error "refused")) (.ok (sampleHeader 4, ⟨[]⟩))) empty sampleSeeded.seeds.zipIdx =
        [none, some 0] := by decide +kernel
  rw [← htried]
  refine (reach_seed_iff empty (sampleHeader 1).address sampleSeeded.address
    (sampleSeeds (.error (.error "refused")) (.ok (sampleHeader 4, ⟨[]⟩))) rfl rfl (List.Perm.refl _)).mpr ?_
  change ∀ id, _ ∨ some id ∈ tried _ _ _ _ sampleSeeded.seeds.zipIdx →
    (tried _ _ _ _ sampleSeeded.seeds.zipIdx).getLast? = _
  rw [htried]
  rintro id (hmarked | hmem)
  · cases hmarked
  · simpa [eq_comm] using hmem

/-- Only the first seed answers. It is marked, but the command fails. -/
theorem connected_seed_not_used :
    let call := sampleSeeds (.ok (sampleHeader 2, ⟨[]⟩)) (.error (.error "refused"))
    let out := empty.reach (sampleHeader 1).address sampleSeeded.address call
    tried (sampleHeader 1).address sampleSeeded call empty sampleSeeded.seeds.zipIdx = [some 0, none] ∧
      out.2 = .error peerUnreachable ∧ out.1.marks 0 = (true, some sampleSeeded) := by
  decide +kernel

end Zif.Node.PeerManager
