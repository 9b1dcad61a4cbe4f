import Zif.Lib.Proofs.RunsProofs
import Zif.Node.Proofs.ConnectionsProofs

/-!
# Proofs: which peer has to go

`SetPeer` looks through `peerSeen` for the peer to disconnect, and compares each time with the moment the search
began, not with the oldest so far. So the peer it comes upon last has to go (`oldest_append`), and every peer can
be the last (`steps_evict`).
-/

namespace Zif.Node.Connections

open Go Runs Relation

variable {s : Connections} {raw : Bytes} {now : Int}

/-! ## A search -/

/-- The key that a search is left with after it has come upon the sightings in this order. -/
def oldest (now : Int) (order : List Sighting) (key : Bytes) : Bytes :=
  order.foldl (fun key item => if item.2 < now then item.1 else key) key

/-- The last peer that was seen before the search began has to go. -/
theorem oldest_append {item : Sighting} (h : item.2 < now) (order : List Sighting) (key : Bytes) :
    oldest now (order ++ [item]) key = item.1 := by
  simp [oldest, h]

theorem solo_setPeer {stage : Setting} (h : (Call.setPeer raw stage).closing = none) (input : Input) :
    solo (s, .setPeer raw stage) input = s.setPeer input raw stage := by
  simp only [solo, access, h]

/-- Some accesses of one call, at the same moment. -/
abbrev Steps (now : Int) : Connections × Call → Connections × Call → Prop :=
  ReflTransGen fun st st' => ∃ input : Input, input.now = now ∧ solo st input = st'

theorem Steps.single {st st' : Connections × Call} (input : Input) (h : solo st { input with now } = st') :
    Steps now st st' := ReflTransGen.single ⟨{ input with now }, rfl, h⟩

theorem steps_count (s : Connections) (raw : Bytes) (now : Int) {j : Nat} (hj : j ≤ shardCount) :
    Steps now (s, .setPeer raw (.count 0 0))
      (s, .setPeer raw (.count j (Shards.below shard s.peers j).card)) := by
  induction j with
  | zero => rw [Shards.below_zero, Finset.card_empty]
  | succ j ih =>
    refine (ih (by omega)).trans (Steps.single {} ?_)
    rw [Shards.card_below_succ]
    exact if_pos (Nat.lt_of_succ_le hj)

/-- The shards are read. -/
theorem steps_read (s : Connections) (raw : Bytes) (now : Int) (key : Bytes) (unread : Finset Nat)
    (channel : Multiset Sighting) :
    Steps now (s, .setPeer raw (.scan now unread channel key))
      (s, .setPeer raw (.scan now ∅ (channel + ∑ j ∈ unread, Shards.items shard s.peerSeen j) key)) := by
  induction unread using Finset.induction_on generalizing channel with
  | empty => rw [Finset.sum_empty, add_zero]
  | insert j unread hj ih =>
    have hread : solo (s, .setPeer raw (.scan now (insert j unread) channel key)) { shard := j, now } =
        (s, .setPeer raw
          (.scan now ((insert j unread).erase j) (channel + Shards.items shard s.peerSeen j) key)) :=
      if_pos (Finset.mem_insert_self j unread)
    rw [Finset.erase_insert hj] at hread
    rw [Finset.sum_insert hj, ← add_assoc]
    exact (Steps.single { shard := j } hread).trans (ih _)

/-- What is in the channel is taken out in any order. -/
theorem steps_take (s : Connections) (raw : Bytes) (now : Int) (order : List Sighting) (key : Bytes) :
    Steps now (s, .setPeer raw (.scan now ∅ order key))
      (s, .setPeer raw (.scan now ∅ 0 (oldest now order key))) := by
  induction order generalizing key with
  | nil => exact .refl
  | cons item order ih =>
    have hmem : item ∈ ((item :: order : List Sighting) : Multiset Sighting) :=
      Multiset.mem_coe.mpr List.mem_cons_self
    have htake : solo (s, .setPeer raw (.scan now ∅ ↑(item :: order) key)) { item, now } =
        (s, .setPeer raw (.scan now ∅ (Multiset.erase ↑(item :: order) item)
          (if item.2 < now then item.1 else key))) := by
      rw [solo_setPeer rfl, setPeer, if_neg (Finset.notMem_empty _), if_pos hmem]
    rw [Multiset.coe_erase, List.erase_cons_head] at htake
    exact (Steps.single { item } htake).trans (ih _)

/-- Whatever the order in which a search comes upon the peers, the one it is left with is disconnected. -/
theorem steps_evict (raw : Bytes) (hmany : s.maxPeers < s.peers.card) {order : List Sighting}
    (horder : ↑order = s.peerSeen.entries) (hmem : oldest now order [] ∈ s.peers) :
    Steps now (s, .setPeer raw (.count 0 0)) (s, .setPeer raw (.evict (oldest now order []) .peers)) := by
  have hcount : solo (s, .setPeer raw (.count shardCount s.peers.card)) { now } =
      (s, .setPeer raw (.scan now (Finset.range shardCount) 0 [])) := by
    rw [solo_setPeer rfl, setPeer, if_neg (lt_irrefl shardCount), if_pos hmany]
  have hread := steps_read s raw now [] (Finset.range shardCount) 0
  rw [Shards.sum_items shard_lt, zero_add, ← horder] at hread
  have hend : solo (s, .setPeer raw (.scan now ∅ 0 (oldest now order []))) { now } =
      (s, .setPeer raw (.get (oldest now order []))) := by
    rw [solo_setPeer rfl, setPeer, if_neg (Finset.notMem_empty _), if_neg (Multiset.notMem_zero _),
      if_pos ⟨rfl, rfl⟩]
  have hget : solo (s, .setPeer raw (.get (oldest now order []))) { now } =
      (s, .setPeer raw (.evict (oldest now order []) .peers)) := if_pos hmem
  have hall := steps_count s raw now le_rfl
  rw [Shards.below_all shard_lt s.peers le_rfl] at hall
  exact (((hall.trans (Steps.single {} hcount)).trans hread).trans (steps_take s raw now order [])).trans
    ((Steps.single {} hend).trans (Steps.single {} hget))

/-! ## Peers that were seen at the same moment -/

/-- All peers that are connected were seen at the same moment. -/
structure Even (s : Connections) : Prop where
  seen : ∀ raw ∈ s.peers, raw ∈ s.peerSeen
  same : ∀ raw t raw' t', s.peerSeen.lookup raw = some t → s.peerSeen.lookup raw' = some t' → t = t'

theorem Even.erasePeer (h : s.Even) (gone : Bytes) : Even { s with peers := s.peers.erase gone } :=
  ⟨fun raw hraw => h.seen raw (Finset.mem_of_mem_erase hraw), h.same⟩

theorem Even.eraseSeen (h : s.Even) {gone : Bytes} (hgone : gone ∉ s.peers) :
    Even { s with peerSeen := s.peerSeen.erase gone } := by
  have hlookup : ∀ raw t, (s.peerSeen.erase gone).lookup raw = some t → s.peerSeen.lookup raw = some t := by
    intro raw t ht
    by_cases heq : raw = gone
    · rw [heq, Finmap.lookup_erase] at ht
      cases ht
    · rwa [Finmap.lookup_erase_ne heq] at ht
  constructor
  · intro raw hraw
    rw [Finmap.mem_erase]
    exact ⟨fun heq => hgone (heq ▸ hraw), h.seen raw hraw⟩
  · intro raw t raw' t' ht ht'
    exact h.same raw t raw' t' (hlookup raw t ht) (hlookup raw' t' ht')

/-- Where `SetPeer` stands once the peer is registered, or what has become of it. -/
def evicting : Call → Bool
  | .setPeer _ (.count _ _) | .setPeer _ (.scan _ _ _ _) | .setPeer _ (.get _) | .setPeer _ (.evict _ _) => true
  | .returned => true
  | _ => false

/-- The peers stay even, and a peer is disconnected while it is connected. -/
structure EvenAt (st : Connections × Call) : Prop where
  even : st.1.Even
  call : evicting st.2 = true
  peers : ∀ gone, st.2.closing = some (gone, .peers) → gone ∈ st.1.peers
  peerSeen : ∀ gone, st.2.closing = some (gone, .peerSeen) → gone ∉ st.1.peers

theorem Even.at_idle {c : Call} (h : s.Even) (hcall : evicting c = true) (hclosing : c.closing = none) :
    EvenAt (s, c) := by
  refine ⟨h, hcall, fun gone hgone => ?_, fun gone hgone => ?_⟩
  · cases hclosing.symm.trans hgone
  · cases hclosing.symm.trans hgone

theorem Even.at_leave (h : s.Even) (raw : Bytes) : EvenAt (s.leave raw) :=
  Even.at_idle ⟨h.seen, h.same⟩ rfl rfl

/-- A step of `HandleCloseConnection` for the peer that has to go. -/
theorem EvenAt.evict {gone : Bytes} {stage : Closing} (h : EvenAt (s, .setPeer raw (.evict gone stage)))
    (input : Input) : EvenAt (solo (s, .setPeer raw (.evict gone stage)) input) := by
  cases stage with
  | peers =>
    refine ⟨h.even.erasePeer gone, rfl, fun _ hgone => ?_, fun _ hgone => ?_⟩
    · cases hgone
    · cases hgone
      exact Finset.notMem_erase gone s.peers
  | peerSeen =>
    refine ⟨h.even.eraseSeen (h.peerSeen gone rfl), rfl, fun _ hgone => ?_, fun _ hgone => ?_⟩
    · cases hgone
    · cases hgone
  | seedManagers =>
    have hsolo : solo (s, .setPeer raw (.evict gone .seedManagers)) input =
        (s, Call.resume (.setPeer raw (.evict gone .seedManagers))
          ((s.seedManagers.lookup gone).map .send)) := rfl
    rw [hsolo]
    cases s.seedManagers.lookup gone with
    | none => exact h.even.at_idle rfl rfl
    | some id =>
      refine ⟨h.even, rfl, fun _ hgone => ?_, fun _ hgone => ?_⟩
      · cases hgone
      · cases hgone
  | send id => exact h

theorem EvenAt.solo {st : Connections × Call} (h : EvenAt st) (input : Input) : EvenAt (solo st input) := by
  obtain ⟨s, call⟩ := st
  cases call with
  | returned => exact h
  | handleCloseConnection raw stage => cases h.call
  | heartbeatPeer raw stage => cases h.call
  | addSeedManager raw stage => cases h.call
  | setPeer raw stage =>
    cases stage with
    | has => cases h.call
    | entry => cases h.call
    | peers => cases h.call
    | peerSeen => cases h.call
    | count next total =>
      rw [solo_setPeer rfl, setPeer]
      split_ifs
      · exact h.even.at_idle rfl rfl
      · exact h.even.at_idle rfl rfl
      · exact h.even.at_leave raw
    | scan now unread channel key =>
      rw [solo_setPeer rfl, setPeer]
      split_ifs <;> exact h.even.at_idle rfl rfl
    | get key =>
      rw [solo_setPeer rfl, setPeer]
      split_ifs with hmem
      · refine ⟨h.even, rfl, fun _ hgone => ?_, fun _ hgone => ?_⟩
        · cases hgone
          exact hmem
        · cases hgone
      · exact h.even.at_leave raw
    | evict gone stage => exact h.evict input

theorem EvenAt.evictsOldest {st : Connections × Call} (h : EvenAt st) : EvictsOldest st := by
  intro raw gone hcall
  have hgone : gone ∈ st.1.peers := h.peers gone (by rw [hcall]; rfl)
  obtain ⟨t, ht⟩ := Finmap.mem_iff.mp (h.even.seen gone hgone)
  refine ⟨t, ht, fun other hother => ?_⟩
  obtain ⟨t', ht'⟩ := Finmap.mem_iff.mp (h.even.seen other hother)
  exact ⟨t', ht', (h.even.same gone t other t' ht ht').le⟩

/-! ## Enough room -/

/-- `SetPeer` counts the peers, and then returns. -/
def Counting (s : Connections) (raw : Bytes) (st : Connections × Call) : Prop :=
  st.2 = .returned ∨ ∃ j, st = (s, .setPeer raw (.count j (Shards.below shard s.peers j).card))

theorem Counting.solo (hroom : s.peers.card ≤ s.maxPeers) {st : Connections × Call} (h : s.Counting raw st)
    (input : Input) : s.Counting raw (solo st input) := by
  rcases h with h | ⟨j, rfl⟩
  · obtain ⟨s', call⟩ := st
    cases h
    exact .inl rfl
  · rw [solo_setPeer rfl, setPeer]
    split_ifs with hnext hmany
    · refine .inr ⟨j + 1, ?_⟩
      rw [Shards.card_below_succ]
    · rw [Shards.below_all shard_lt s.peers (not_lt.mp hnext)] at hmany
      omega
    · exact .inl rfl

theorem Counting.evictsOldest {st : Connections × Call} (h : s.Counting raw st) : EvictsOldest st := by
  intro raw' gone hcall
  rcases h with h | ⟨j, rfl⟩
  · cases h.symm.trans hcall
  · cases hcall

/-! ## All searches -/

theorem exists_later (m : Seen) : ∃ now : Int, ∀ raw t, m.lookup raw = some t → t < now := by
  obtain ⟨bound, hbound⟩ := (m.entries.map Sigma.snd).toFinset.exists_le
  refine ⟨bound + 1, fun raw t ht => Int.lt_add_one_of_le (hbound t ?_)⟩
  rw [Multiset.mem_toFinset, Multiset.mem_map]
  exact ⟨⟨raw, t⟩, Finmap.lookup_eq_some_iff.mp ht, rfl⟩

/-- Every peer can be the one that has to go. -/
theorem exists_evict (raw : Bytes) (hmany : s.maxPeers < s.peers.card) {gone : Bytes} {t : Int}
    (hgone : gone ∈ s.peers) (ht : s.peerSeen.lookup gone = some t) (hlater : t < now) :
    ∃ inputs : List Input, (∀ input ∈ inputs, input.now = now) ∧
      run solo (s, .setPeer raw (.count 0 0)) inputs = (s, .setPeer raw (.evict gone .peers)) := by
  have hmem : (⟨gone, t⟩ : Sighting) ∈ s.peerSeen.entries := Finmap.lookup_eq_some_iff.mp ht
  have horder : ((s.peerSeen.entries.erase ⟨gone, t⟩).toList ++ [⟨gone, t⟩] : List Sighting) =
      s.peerSeen.entries := by
    rw [← Multiset.coe_add, Multiset.coe_toList, Multiset.coe_singleton, add_comm, Multiset.singleton_add]
    exact Multiset.cons_erase hmem
  have hlast : oldest now ((s.peerSeen.entries.erase ⟨gone, t⟩).toList ++ [⟨gone, t⟩]) [] = gone :=
    oldest_append hlater _ []
  have hsteps := steps_evict raw hmany horder (by rwa [hlast])
  rw [hlast] at hsteps
  exact exists_run hsteps

/-- **Which peer has to go.** For every set of peers that were seen before now, and whatever the order in which
`SetPeer` comes upon them: each peer it disconnects was seen no later than the others, exactly when there is
room for all, or all were seen at the same moment. -/
theorem evictsOldest_iff (s : Connections) (raw : Bytes) (hseen : ∀ r, r ∈ s.peers ↔ r ∈ s.peerSeen) :
    (∀ inputs : List Input,
        (∀ input ∈ inputs, ∀ r t, s.peerSeen.lookup r = some t → t < input.now) →
          EvictsOldest (run solo (s, .setPeer raw (.count 0 0)) inputs)) ↔
      s.peers.card ≤ s.maxPeers ∨
        ∀ r t r' t', s.peerSeen.lookup r = some t → s.peerSeen.lookup r' = some t' → t = t' := by
  constructor
  · intro h
    by_contra hneither
    obtain ⟨hmany, hdiffer⟩ := not_or.mp hneither
    push Not at hmany hdiffer
    obtain ⟨r, t, r', t', ht, ht', hne⟩ := hdiffer
    obtain ⟨now, hnow⟩ := exists_later s.peerSeen
    -- the one that was seen later can be the one that has to go
    have hlate : ∀ r t r' t', s.peerSeen.lookup r = some t → s.peerSeen.lookup r' = some t' → ¬ t < t' := by
      intro r t r' t' ht ht' hlt
      have hr' : r' ∈ s.peers := (hseen r').mpr (Finmap.mem_of_lookup_eq_some ht')
      obtain ⟨inputs, hinputs, hrun⟩ := exists_evict raw hmany hr' ht' (hnow r' t' ht')
      have hold := h inputs (fun input hinput => by rw [hinputs input hinput]; exact hnow)
      rw [hrun] at hold
      obtain ⟨t₁, ht₁, hmin⟩ := hold raw r' rfl
      obtain ⟨t₂, ht₂, hle⟩ := hmin r ((hseen r).mpr (Finmap.mem_of_lookup_eq_some ht))
      cases ht'.symm.trans ht₁
      cases ht.symm.trans ht₂
      exact absurd hle (not_le.mpr hlt)
    exact hne (le_antisymm (not_lt.mp (hlate r' t' r t ht' ht)) (not_lt.mp (hlate r t r' t' ht ht')))
  · rintro (hroom | hsame) inputs -
    · have hcounting : s.Counting raw (run solo (s, .setPeer raw (.count 0 0)) inputs) :=
        run_invariant (.inr ⟨0, by rw [Shards.below_zero, Finset.card_empty]⟩)
          (fun st input hst => hst.solo hroom input) inputs
      exact hcounting.evictsOldest
    · have heven : EvenAt (run solo (s, .setPeer raw (.count 0 0)) inputs) :=
        run_invariant (Even.at_idle ⟨fun r hr => (hseen r).mp hr, hsame⟩ rfl rfl)
          (fun st input hst => hst.solo input) inputs
      exact heven.evictsOldest

/-- Two peers are connected, one too many. -/
def sampleSeen (first second : Int) : Connections where
  maxPeers := 1
  peers := {[1], [2]}
  peerSeen := (Finmap.singleton [1] first).insert [2] second

theorem mem_sampleSeen (first second : Int) (r : Bytes) :
    r ∈ (sampleSeen first second).peers ↔ r ∈ (sampleSeen first second).peerSeen := by
  simp only [sampleSeen, Finset.mem_insert, Finset.mem_singleton, Finmap.mem_insert, Finmap.mem_singleton]
  exact or_comm

/-- A search that comes upon the sightings in the order that is given. -/
def sampleSearch (now : Int) (order : List Sighting) : List Input :=
  List.replicate (shardCount + 1) { now := now } ++
    (List.range shardCount).map (fun j => { now := now, shard := j }) ++
    order.map (fun item => { now := now, shard := shardCount, item := item }) ++
    List.replicate 2 { now := now, shard := shardCount }

/-- Both were seen at the same moment, so either may go. -/
theorem evictsOldest_same :
    EvictsOldest (run solo (sampleSeen 1 1, .setPeer [2] (.count 0 0)) (sampleSearch 3 [⟨[1], 1⟩, ⟨[2], 1⟩])) := by
  have hone : ∀ r t, (sampleSeen 1 1).peerSeen.lookup r = some t → t = 1 := by
    intro r t ht
    have hmem := (mem_sampleSeen 1 1 r).mpr (Finmap.mem_of_lookup_eq_some ht)
    rcases Finset.mem_insert.mp hmem with rfl | hmem
    · exact (Option.some.inj ht).symm
    · cases Finset.mem_singleton.mp hmem
      exact (Option.some.inj ht).symm
  have hnow : ∀ input ∈ sampleSearch 3 [⟨[1], 1⟩, ⟨[2], 1⟩], input.now = 3 := by decide
  refine (evictsOldest_iff (sampleSeen 1 1) [2] (mem_sampleSeen 1 1)).mpr (.inr ?_) _ ?_
  · intro r t r' t' ht ht'
    rw [hone r t ht, hone r' t' ht']
  · intro input hinput r t ht
    rw [hone r t ht, hnow input hinput]
    decide

/-- The first peer was seen at 1, the second at 2. The search comes upon the second one last, and it is the
second one that has to go. -/
theorem last_seen_evicted :
    let st := run solo (sampleSeen 1 2, .setPeer [2] (.count 0 0)) (sampleSearch 3 [⟨[1], 1⟩, ⟨[2], 2⟩])
    st.2 = .setPeer [2] (.evict [2] .peers) ∧ st.1.peers = {[1], [2]} ∧
      st.1.peerSeen.lookup [1] = some 1 ∧ st.1.peerSeen.lookup [2] = some 2 := by
  decide +kernel

end Zif.Node.Connections
