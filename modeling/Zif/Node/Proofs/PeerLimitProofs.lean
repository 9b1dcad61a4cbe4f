import Zif.Node.Proofs.ConnectionsProofs
import Zif.Lib.Pool
import Zif.Lib.Proofs.RunsProofs

/-!
# Proofs: the peers and when they were seen

The two maps `peers` and `peerSeen` are written one after the other, and `UpdateSeen` writes only the second.
The calls keep the maps together, and the number of peers within its bound, as long as `SetPeer` has the loop
to itself, the pairs of writes for one address do not mix, a peer is seen only while it is in one of the maps,
and the search for a peer to evict has something to come upon (`Orderly`).

What every state of such a run satisfies is `Consistent`: what each call can rely on where it stands
(`Holds`), in the manner of an outline with assertions, and what the two maps have in common.
-/

namespace Zif.Node.Connections

open Go Runs Pool

variable {s : Connections} {call : Call} {raw gone : Bytes} {i : Nat}

/-! ## The condition -/

/-- A search for the oldest peer will find a peer that is connected: it has come upon one, or will come upon
something that is old enough, in the channel or in a shard that has not been read. -/
def Promising (s : Connections) : Call → Prop
  | .setPeer _ (.scan now unread channel oldestKey) =>
    oldestKey ∈ s.peers ∨ (∃ item ∈ channel, item.2 < now) ∨
      ∃ item ∈ s.peerSeen.entries, shard item.1 ∈ unread ∧ item.2 < now
  | _ => True

/-- The condition on an access of a call. -/
def OrderlyAccess (s : Connections) (input : Input) (call : Call) : Prop :=
  (∀ p ∈ call.closing, p.2 = .peers → .setPeer p.1 .peerSeen ∉ s.calls) ∧
    match call with
    | .setPeer raw .peers => ∀ c ∈ s.calls, c.closing ≠ some (raw, .peerSeen)
    | .setPeer raw (.count next _) => shardCount ≤ next → s.maxPeers < s.peers.card →
        s.Promising (.setPeer raw (.scan input.now (Finset.range shardCount) 0 []))
    | _ => True

/-- The condition on an event. -/
def Orderly (s : Connections) : Event → Prop
  | .setPeer _ => ∀ c ∈ s.calls, c.setting = false ∧ ∀ p ∈ c.closing, p.2 ≠ .peerSeen
  | .updateSeen raw now => (raw ∈ s.peers ∨ raw ∈ s.peerSeen) ∧
      (s.maxPeers < s.peers.card →
        ∀ c ∈ s.calls, Promising { s with peerSeen := s.peerSeen.insert raw now } c)
  | .advance i input => ∀ c ∈ s.calls[i]?, s.OrderlyAccess input c
  | .configure maxPeers => s.maxPeers ≤ maxPeers ∨
      (s.peers.card ≤ maxPeers ∧ ∀ c ∈ s.calls, c.setting = false)
  | _ => True

/-! ## What the calls rely on -/

/-- There are at most `d` peers too many, and if there are that many, nobody is in `peerSeen` only. -/
structure Room (s : Connections) (d : Int) : Prop where
  card_le : s.peers.card ≤ s.maxPeers + d
  seen : s.peers.card = s.maxPeers + d → ∀ raw ∈ s.peerSeen, raw ∈ s.peers

/-- What `SetPeer` relies on where it stands. -/
def Stands (s : Connections) (raw : Bytes) : Setting → Prop
  | .has | .entry | .peers => s.Room 0
  | .peerSeen => s.Room 1 ∧ raw ∈ s.peers
  | .count next total => s.Room 1 ∧ (Shards.below shard s.peers next).card ≤ total
  | .scan now unread channel oldestKey => s.Room 1 ∧ (s.maxPeers < s.peers.card →
      s.Promising (.setPeer raw (.scan now unread channel oldestKey)) ∧
        ∀ item ∈ channel, item.2 < now → item.1 ∈ s.peers)
  | .get oldestKey => s.Room 1 ∧ (s.maxPeers < s.peers.card → oldestKey ∈ s.peers)
  | .evict oldest .peers => s.Room 1 ∧ (s.maxPeers < s.peers.card → oldest ∈ s.peers)
  | .evict _ _ => s.peers.card ≤ s.maxPeers

/-- What a call relies on where it stands. -/
structure Holds (s : Connections) (call : Call) : Prop where
  removed : ∀ raw, call.closing = some (raw, .peerSeen) → raw ∉ s.peers
  stands : ∀ raw stage, call = .setPeer raw stage → s.Stands raw stage

/-- The two maps differ only by what a call is about to write, and each call can rely on what it relies on. -/
structure Consistent (s : Connections) : Prop where
  one : AtMostOne Call.setting s.calls
  listed : ∀ raw ∈ s.peers, raw ∈ s.peerSeen ∨ .setPeer raw .peerSeen ∈ s.calls
  connected : ∀ raw ∈ s.peerSeen, raw ∈ s.peers ∨ ∃ c ∈ s.calls, c.closing = some (raw, .peerSeen)
  holds : ∀ c ∈ s.calls, s.Holds c
  bounded : (∀ c ∈ s.calls, c.setting = false) → s.peers.card ≤ s.maxPeers

/-! ## What a write leaves standing -/

theorem Room.of_card_le (h : s.peers.card ≤ s.maxPeers) : s.Room 1 := ⟨by omega, fun heq => by omega⟩

theorem Room.erasePeer {d : Int} (h : s.Room d) : Room { s with peers := s.peers.erase gone } d := by
  by_cases hmem : gone ∈ s.peers
  · have hcard := Finset.card_erase_add_one hmem
    have := h.card_le
    refine ⟨?_, fun heq => ?_⟩ <;> dsimp only at * <;> omega
  · rwa [Finset.erase_eq_of_notMem hmem]

/-- After a removal there are no more peers than there should be. -/
theorem Room.card_erasePeer (h : s.Room 1) (hmem : gone ∈ s.peers) :
    ((s.peers.erase gone).card : Int) ≤ s.maxPeers := by
  have hcard := Finset.card_erase_add_one hmem
  have := h.card_le
  omega

/-- A removal from `peers` disturbs a `SetPeer` only between its two writes for that address. -/
theorem Stands.erasePeer {stage : Setting} (h : s.Stands raw stage)
    (hne : stage = .peerSeen → raw ≠ gone) :
    Stands { s with peers := s.peers.erase gone } raw stage := by
  by_cases hmem : gone ∈ s.peers
  · cases stage with
    | has => exact Room.erasePeer h
    | entry => exact Room.erasePeer h
    | peers => exact Room.erasePeer h
    | peerSeen => exact ⟨h.1.erasePeer, Finset.mem_erase.mpr ⟨hne rfl, h.2⟩⟩
    | count next total =>
      refine ⟨h.1.erasePeer, le_trans (Finset.card_le_card ?_) h.2⟩
      exact Shards.below_mono (Finset.erase_subset _ _) next
    | scan now unread channel oldestKey =>
      exact ⟨h.1.erasePeer, fun hmany => absurd (h.1.card_erasePeer hmem) (not_le.mpr hmany)⟩
    | get oldestKey => exact ⟨h.1.erasePeer, fun hmany => absurd (h.1.card_erasePeer hmem) (not_le.mpr hmany)⟩
    | evict oldest at' =>
      have hle : ((s.peers.erase gone).card : Int) ≤ s.peers.card := by
        exact_mod_cast Finset.card_erase_le
      cases at' with
      | peers => exact ⟨h.1.erasePeer, fun hmany => absurd (h.1.card_erasePeer hmem) (not_le.mpr hmany)⟩
      | peerSeen => exact hle.trans h
      | seedManagers => exact hle.trans h
      | send id => exact hle.trans h
  · rwa [Finset.erase_eq_of_notMem hmem]

/-- A `SetPeer` still stands when the bound is raised, or when `peerSeen` changes in a way that takes nothing
away from the search. -/
theorem Stands.mono {s' : Connections} {stage : Setting} (h : s.Stands raw stage) (hpeers : s'.peers = s.peers)
    (hmax : s.maxPeers ≤ s'.maxPeers) (hroom : ∀ d, s.Room d → s'.Room d)
    (hsearch : s.Room 1 → s'.maxPeers < s'.peers.card → s.Promising (.setPeer raw stage) →
      s'.Promising (.setPeer raw stage)) : s'.Stands raw stage := by
  have hmany : s'.maxPeers < s'.peers.card → s.maxPeers < s.peers.card := by
    rw [hpeers]
    exact hmax.trans_lt
  cases stage with
  | has => exact hroom 0 h
  | entry => exact hroom 0 h
  | peers => exact hroom 0 h
  | peerSeen => exact ⟨hroom 1 h.1, by rw [hpeers]; exact h.2⟩
  | count next total => exact ⟨hroom 1 h.1, by rw [hpeers]; exact h.2⟩
  | scan now unread channel oldestKey =>
    refine ⟨hroom 1 h.1, fun hlt => ⟨hsearch h.1 hlt (h.2 (hmany hlt)).1, ?_⟩⟩
    rw [hpeers]
    exact (h.2 (hmany hlt)).2
  | get oldestKey => exact ⟨hroom 1 h.1, fun hlt => by rw [hpeers]; exact h.2 (hmany hlt)⟩
  | evict oldest at' =>
    have hle : s.peers.card ≤ s.maxPeers → s'.peers.card ≤ s'.maxPeers := by
      rw [hpeers]
      exact (le_trans · hmax)
    cases at' with
    | peers => exact ⟨hroom 1 h.1, fun hlt => by rw [hpeers]; exact h.2 (hmany hlt)⟩
    | peerSeen => exact hle h
    | seedManagers => exact hle h
    | send id => exact hle h

theorem mem_of_mem_entries {m : Seen} {item : Sighting} (h : item ∈ m.entries) : item.1 ∈ m :=
  Finmap.mem_of_lookup_eq_some (Finmap.lookup_eq_some_iff.mpr h)

theorem Room.eraseSeen {d : Int} (h : s.Room d) : Room { s with peerSeen := s.peerSeen.erase gone } d :=
  ⟨h.card_le, fun heq raw hraw => h.seen heq raw (Finmap.mem_erase.mp hraw).2⟩

/-- Who is removed from `peerSeen` after it was removed from `peers` is not missed in a search: if there are
too many peers, nobody is in `peerSeen` only. -/
theorem Stands.eraseSeen {stage : Setting} (h : s.Stands raw stage) (hgone : gone ∉ s.peers) :
    Stands { s with peerSeen := s.peerSeen.erase gone } raw stage := by
  refine h.mono rfl le_rfl (fun d hroom => hroom.eraseSeen) fun hroom hlt hpromising => ?_
  cases stage with
  | scan now unread channel oldestKey =>
    refine hpromising.imp_right (Or.imp_right ?_)
    rintro ⟨item, hitem, hold⟩
    refine ⟨item, ?_, hold⟩
    have heq : (s.peers.card : Int) = s.maxPeers + 1 := le_antisymm hroom.card_le hlt
    have hne : item.1 ≠ gone := by
      intro hkey
      exact hgone (hkey ▸ hroom.seen heq _ (mem_of_mem_entries hitem))
    rw [← Finmap.lookup_eq_some_iff] at hitem ⊢
    rwa [Finmap.lookup_erase_ne hne]
  | _ => trivial

theorem Room.insertSeen {d : Int} (h : s.Room d) (hmem : raw ∈ s.peers ∨ raw ∈ s.peerSeen) (now : Int) :
    Room { s with peerSeen := s.peerSeen.insert raw now } d := by
  refine ⟨h.card_le, fun heq key hkey => ?_⟩
  rcases Finmap.mem_insert.mp hkey with rfl | hkey
  · exact hmem.elim id (h.seen heq key)
  · exact h.seen heq key hkey

theorem Room.configure {d n : Int} (h : s.Room d) (hn : s.maxPeers ≤ n) : Room { s with maxPeers := n } d := by
  have := h.card_le
  refine ⟨?_, fun heq => h.seen ?_⟩ <;> dsimp only at * <;> omega

/-! ## What a step leaves standing -/

variable {c c' : Call}

/-- A call relies on little outside `SetPeer` and between the removals of `HandleCloseConnection`. -/
theorem holds_of_idle (hc : c.setting = false) (hclosing : ∀ raw, c.closing ≠ some (raw, .peerSeen)) :
    s.Holds c where
  removed raw heq := absurd heq (hclosing raw)
  stands raw stage heq := by
    subst heq
    cases hc

theorem Stands.holds {stage : Setting} (h : s.Stands raw stage)
    (hclosing : ∀ key, (Call.setPeer raw stage).closing ≠ some (key, .peerSeen)) :
    s.Holds (.setPeer raw stage) where
  removed key heq := absurd heq (hclosing key)
  stands key stage' heq := by
    cases heq
    exact h

theorem Holds.erasePeer (h : s.Holds c) (hne : c ≠ .setPeer gone .peerSeen) :
    Holds { s with peers := s.peers.erase gone } c where
  removed raw hclosing hmem := h.removed raw hclosing (Finset.mem_of_mem_erase hmem)
  stands raw stage hc := by
    refine (h.stands raw stage hc).erasePeer ?_
    rintro rfl rfl
    exact hne hc

theorem Holds.eraseSeen (h : s.Holds c) (hgone : gone ∉ s.peers) :
    Holds { s with peerSeen := s.peerSeen.erase gone } c where
  removed := h.removed
  stands raw stage hc := (h.stands raw stage hc).eraseSeen hgone

/-- A call other than `SetPeer` relies on little. -/
theorem Holds.of_not_setting {s' : Connections} (h : s.Holds c) (hc : c.setting = false)
    (hpeers : ∀ raw ∈ s'.peers, c.closing = some (raw, .peerSeen) → raw ∈ s.peers) : s'.Holds c where
  removed raw hclosing hmem := h.removed raw hclosing (hpeers raw hmem hclosing)
  stands raw stage heq := by
    subst heq
    cases hc

theorem Holds.of_same {s' : Connections} (h : s.Holds c) (hpeers : s'.peers = s.peers)
    (hseen : s'.peerSeen = s.peerSeen) (hmax : s'.maxPeers = s.maxPeers) : s'.Holds c where
  removed raw := by
    rw [hpeers]
    exact h.removed raw
  stands raw stage hc := by
    refine (h.stands raw stage hc).mono hpeers hmax.ge (fun d hroom => ?_) fun _ _ hpromising => ?_
    · obtain ⟨hcard, hall⟩ := hroom
      constructor <;> rw [hpeers, hmax]
      · exact hcard
      · rwa [hseen]
    · cases stage with
      | scan now unread channel oldestKey =>
        simp only [Promising] at hpromising ⊢
        rwa [hpeers, hseen]
      | _ => trivial

/-- A step that writes to neither map. -/
theorem Consistent.set (h : s.Consistent) (hi : s.calls[i]? = some c) (hset : c'.setting → c.setting)
    (hown : s.Holds c') (hreturn : c.setting → c'.setting = false → s.peers.card ≤ s.maxPeers)
    (hpeerSeen : ∀ raw, c ≠ .setPeer raw .peerSeen) (hclosing : ∀ raw, c.closing ≠ some (raw, .peerSeen)) :
    Consistent { s with calls := s.calls.set i c' } where
  one := h.one.set hi hset
  listed raw hraw := (h.listed raw hraw).imp_right fun hmem => mem_set_of_ne hmem hi (hpeerSeen raw).symm
  connected raw hraw := (h.connected raw hraw).imp_right fun hd => exists_mem_set hd hi (hclosing raw)
  holds := forall_mem_set (hown.of_same rfl rfl rfl)
    fun j d _ hj => (h.holds d (List.mem_of_getElem? hj)).of_same rfl rfl rfl
  bounded hnone := by
    by_cases hc : c.setting
    · exact hreturn hc (hnone c' (mem_set_self hi))
    · exact h.bounded (forall_mem_of_set hi (by simpa using hc) hnone)

/-- A call that starts. -/
theorem Consistent.push (h : s.Consistent) (hone : c.setting → ∀ d ∈ s.calls, d.setting = false)
    (hown : s.Holds c) : (s.start c).Consistent where
  one := h.one.push hone
  listed raw hraw := (h.listed raw hraw).imp_right (List.mem_append_left _)
  connected raw hraw := (h.connected raw hraw).imp_right
    fun ⟨d, hd, hdclosing⟩ => ⟨d, List.mem_append_left _ hd, hdclosing⟩
  holds d hd := by
    rcases List.mem_append.mp hd with hd | hd
    · exact (h.holds d hd).of_same rfl rfl rfl
    · obtain rfl := List.mem_singleton.mp hd
      exact hown.of_same rfl rfl rfl
  bounded hnone := h.bounded fun d hd => hnone d (List.mem_append_left _ hd)

/-- A call that starts, and does not rely on anything. -/
theorem Consistent.pushIdle (h : s.Consistent) (hc : c.setting = false)
    (hclosing : ∀ raw, c.closing ≠ some (raw, .peerSeen)) : (s.start c).Consistent :=
  h.push (fun hset => by simp [hc] at hset) (holds_of_idle hc hclosing)

/-- The first removal of `HandleCloseConnection`. -/
theorem Consistent.removePeer (h : s.Consistent) (hi : s.calls[i]? = some c)
    (hc : c.closing = some (gone, .peers)) (hfree : .setPeer gone .peerSeen ∉ s.calls) :
    Consistent { s with
      peers := s.peers.erase gone, calls := s.calls.set i (c.resume (some .peerSeen)) } where
  one := h.one.set hi (by rw [Call.setting_resume hc]; exact id)
  listed raw hraw := by
    refine (h.listed raw (Finset.mem_of_mem_erase hraw)).imp_right fun hmem => mem_set_of_ne hmem hi ?_
    rintro rfl
    cases hc
  connected raw hraw := by
    by_cases hgone : raw = gone
    · subst hgone
      exact .inr ⟨_, mem_set_self hi, Call.closing_resume_some hc _⟩
    · refine (h.connected raw hraw).imp (fun hmem => Finset.mem_erase.mpr ⟨hgone, hmem⟩)
        fun hd => exists_mem_set hd hi ?_
      rw [hc]
      simp
  holds := by
    have hcall : s.Holds c := h.holds c (List.mem_of_getElem? hi)
    refine forall_mem_set ⟨fun raw hclosing => ?_, fun raw stage heq => ?_⟩ fun j d hj hd => ?_
    · rw [Call.closing_resume_some hc] at hclosing
      cases hclosing
      exact Finset.notMem_erase _ _
    · rcases Call.closing_eq_some hc with ⟨raw', rfl⟩ | rfl | rfl | rfl <;> cases heq
      -- the peer that has to go is there, or there are not too many any more
      obtain ⟨hroom, hmany⟩ := hcall.stands raw (.evict gone .peers) rfl
      by_cases hmem : gone ∈ s.peers
      · exact hroom.card_erasePeer hmem
      · have hle : (s.peers.card : Int) ≤ s.maxPeers := not_lt.mp fun hlt => hmem (hmany hlt)
        simpa [Stands, Finset.erase_eq_of_notMem hmem] using hle
    · have hdmem := List.mem_of_getElem? hd
      refine ((h.holds d hdmem).erasePeer ?_).of_same rfl rfl rfl
      rintro rfl
      exact hfree hdmem
  bounded hnone := by
    have hcall : c.setting = false := by
      rw [← Call.setting_resume hc (some .peerSeen)]
      exact hnone _ (mem_set_self hi)
    have hle : s.peers.card ≤ s.maxPeers := h.bounded (forall_mem_of_set hi hcall hnone)
    have := Finset.card_erase_le (s := s.peers) (a := gone)
    dsimp only
    omega

/-- The second one. -/
theorem Consistent.removeSeen (h : s.Consistent) (hi : s.calls[i]? = some c)
    (hc : c.closing = some (gone, .peerSeen)) :
    Consistent { s with
      peerSeen := s.peerSeen.erase gone, calls := s.calls.set i (c.resume (some .seedManagers)) } where
  one := h.one.set hi (by rw [Call.setting_resume hc]; exact id)
  listed raw hraw := by
    have hgone : raw ≠ gone := by
      rintro rfl
      exact (h.holds c (List.mem_of_getElem? hi)).removed raw hc hraw
    refine (h.listed raw hraw).imp (fun hseen => Finmap.mem_erase.mpr ⟨hgone, hseen⟩)
      fun hmem => mem_set_of_ne hmem hi ?_
    rintro rfl
    cases hc
  connected raw hraw := by
    obtain ⟨hgone, hseen⟩ := Finmap.mem_erase.mp hraw
    refine (h.connected raw hseen).imp_right fun hd => exists_mem_set hd hi ?_
    rw [hc]
    intro heq
    cases heq
    exact hgone rfl
  holds := by
    have hcall : s.Holds c := h.holds c (List.mem_of_getElem? hi)
    refine forall_mem_set ⟨fun raw hclosing => ?_, fun raw stage heq => ?_⟩ fun j d hj hd => ?_
    · rw [Call.closing_resume_some hc] at hclosing
      cases hclosing
    · rcases Call.closing_eq_some hc with ⟨raw', rfl⟩ | rfl | rfl | rfl <;> cases heq
      exact hcall.stands raw (.evict gone .peerSeen) rfl
    · exact ((h.holds d (List.mem_of_getElem? hd)).eraseSeen (hcall.removed gone hc)).of_same rfl rfl rfl
  bounded hnone := by
    have hcall : c.setting = false := by
      rw [← Call.setting_resume hc (some .seedManagers)]
      exact hnone _ (mem_set_self hi)
    exact h.bounded (forall_mem_of_set hi hcall hnone)

/-- The rest of `HandleCloseConnection`. -/
theorem Consistent.resume (h : s.Consistent) (hi : s.calls[i]? = some c) {stage : Closing}
    (hc : c.closing = some (gone, stage)) (hpeers : stage ≠ .peers) (hseen : stage ≠ .peerSeen)
    {next : Option Closing} (hnext : ∀ stage' ∈ next, stage' ≠ .peers ∧ stage' ≠ .peerSeen) :
    Consistent { s with calls := s.calls.set i (c.resume next) } := by
  have hcall : s.Holds c := h.holds c (List.mem_of_getElem? hi)
  refine h.set hi (by rw [Call.setting_resume hc]; exact id) ⟨fun raw hclosing => ?_, fun raw stage' heq => ?_⟩
    ?_ ?_ ?_
  · exfalso
    cases next with
    | none => rcases Call.closing_resume_none hc with hnone | hsome <;> simp_all
    | some stage' =>
      rw [Call.closing_resume_some hc] at hclosing
      cases hclosing
      exact (hnext _ rfl).2 rfl
  · rcases Call.closing_eq_some hc with ⟨raw', rfl⟩ | rfl | rfl | rfl
    · have hle : s.peers.card ≤ s.maxPeers := by
        have := hcall.stands raw' _ rfl
        cases stage <;> first | exact absurd rfl hpeers | exact this
      cases next with
      | none =>
        cases heq
        exact ⟨.of_card_le hle, by simp⟩
      | some stage' =>
        cases heq
        cases stage' with
        | peers => exact absurd rfl (hnext _ rfl).1
        | _ => exact hle
    all_goals cases next <;> cases heq
  · intro hset hnot
    rw [Call.setting_resume hc, hset] at hnot
    cases hnot
  · rintro raw rfl
    cases hc
  · intro raw heq
    rw [hc] at heq
    cases heq
    exact hseen rfl

/-- The first write of `SetPeer`. -/
theorem Consistent.insertPeer (h : s.Consistent) (hi : s.calls[i]? = some (.setPeer raw .peers))
    (hfree : ∀ c ∈ s.calls, c.closing ≠ some (raw, .peerSeen)) :
    Consistent { s with peers := insert raw s.peers, calls := s.calls.set i (.setPeer raw .peerSeen) } where
  one := h.one.set hi id
  listed key hkey := by
    rcases Finset.mem_insert.mp hkey with rfl | hkey
    · exact .inr (mem_set_self hi)
    · exact (h.listed key hkey).imp_right fun hmem => mem_set_of_ne hmem hi (by simp)
  connected key hkey := (h.connected key hkey).imp Finset.mem_insert_of_mem
    fun hd => exists_mem_set hd hi (by simp [Call.closing])
  holds := by
    have hroom : s.Room 0 := (h.holds _ (List.mem_of_getElem? hi)).stands raw .peers rfl
    have hcard := Finset.card_insert_le raw s.peers
    refine forall_mem_set (Stands.holds ?_ (by simp [Call.closing])) fun j d hj hd => ?_
    · refine ⟨⟨?_, fun heq key hkey => ?_⟩, Finset.mem_insert_self _ _⟩
      · have := hroom.card_le
        dsimp only
        omega
      · -- one more than before, so that there was no room before
        have hfull : (s.peers.card : Int) = s.maxPeers + 0 := by
          have := hroom.card_le
          dsimp only at heq
          omega
        exact Finset.mem_insert_of_mem (hroom.seen hfull key hkey)
    · refine (h.holds d (List.mem_of_getElem? hd)).of_not_setting (h.one.others hi rfl hj hd) ?_
      intro key hkey hclosing
      refine (Finset.mem_insert.mp hkey).resolve_left ?_
      rintro rfl
      exact hfree d (List.mem_of_getElem? hd) hclosing
  bounded hnone := by
    have := hnone _ (mem_set_self hi)
    cases this

/-- The second one. -/
theorem Consistent.insertSeen (h : s.Consistent) (hi : s.calls[i]? = some (.setPeer raw .peerSeen)) (now : Int) :
    Consistent { s with
      peerSeen := s.peerSeen.insert raw now, calls := s.calls.set i (.setPeer raw (.count 0 0)) } := by
  obtain ⟨hroom, hmem⟩ : s.Room 1 ∧ raw ∈ s.peers :=
    (h.holds _ (List.mem_of_getElem? hi)).stands raw .peerSeen rfl
  constructor
  · exact h.one.set hi fun _ => rfl
  · intro key hkey
    refine .inl (Finmap.mem_insert.mpr ?_)
    rcases h.listed key hkey with hseen | hcall
    · exact .inr hseen
    · -- there is no other `SetPeer`
      obtain ⟨j, hj⟩ := List.mem_iff_getElem?.mp hcall
      obtain rfl := h.one j i _ _ hj hi rfl rfl
      cases hj.symm.trans hi
      exact .inl rfl
  · intro key hkey
    rcases Finmap.mem_insert.mp hkey with rfl | hkey
    · exact .inl hmem
    · exact (h.connected key hkey).imp_right fun hd => exists_mem_set hd hi (by simp [Call.closing])
  · refine forall_mem_set (Stands.holds ?_ (by simp [Call.closing])) fun j d hj hd => ?_
    · obtain ⟨hcard, hseen⟩ := hroom.insertSeen (.inl hmem) now
      exact ⟨⟨hcard, hseen⟩, by simp⟩
    · exact (h.holds d (List.mem_of_getElem? hd)).of_not_setting (h.one.others hi rfl hj hd) fun _ hkey _ => hkey
  · intro hnone
    have := hnone _ (mem_set_self hi)
    cases this

/-- `SetPeer` is between two writes, its own or those of `HandleCloseConnection`. -/
def between : Setting → Bool
  | .peerSeen => true
  | .evict _ .peerSeen => true
  | _ => false

theorem ne_peerSeen_of_between {stage : Setting} (h : between stage = false) (key : Bytes) :
    Call.setPeer raw stage ≠ .setPeer key .peerSeen := by
  rintro heq
  cases heq
  cases h

theorem closing_ne_of_between {stage : Setting} (h : between stage = false) (key : Bytes) :
    (Call.setPeer raw stage).closing ≠ some (key, .peerSeen) := by
  intro heq
  rcases Call.closing_eq_some heq with ⟨raw', hcall⟩ | hcall | hcall | hcall <;> cases hcall
  cases h

/-- A step of `SetPeer` that writes nothing and does not return. -/
theorem Consistent.setStage (h : s.Consistent) {stage stage' : Setting}
    (hi : s.calls[i]? = some (.setPeer raw stage)) (hstage : between stage = false)
    (hstage' : between stage' = false) (hstands : s.Stands raw stage') :
    Consistent { s with calls := s.calls.set i (.setPeer raw stage') } := by
  refine h.set hi (fun _ => rfl) (hstands.holds (closing_ne_of_between hstage')) ?_
    (ne_peerSeen_of_between hstage) (closing_ne_of_between hstage)
  intro _ hfalse
  cases hfalse

/-- `SetPeer` returns. -/
theorem Consistent.setReturned (h : s.Consistent) {stage : Setting}
    (hi : s.calls[i]? = some (.setPeer raw stage)) (hstage : between stage = false)
    (hcard : s.peers.card ≤ s.maxPeers) : Consistent { s with calls := s.calls.set i .returned } :=
  h.set hi (by simp [Call.setting]) (holds_of_idle rfl (by simp [Call.closing])) (fun _ _ => hcard)
    (ne_peerSeen_of_between hstage) (closing_ne_of_between hstage)

/-! ## The search for a peer to evict -/

section Search

variable {now : Int} {unread : Finset Nat} {channel : Multiset Sighting} {oldestKey : Bytes}

/-- What stands in `peerSeen` while there are too many peers is a peer. -/
theorem Room.mem_peers (h : s.Room 1) (hmany : s.maxPeers < s.peers.card) {item : Sighting}
    (hitem : item ∈ s.peerSeen.entries) : item.1 ∈ s.peers :=
  h.seen (le_antisymm h.card_le hmany) _ (mem_of_mem_entries hitem)

/-- The iteration reads a shard. -/
theorem Stands.readShard (h : s.Stands raw (.scan now unread channel oldestKey)) (j : Nat) :
    s.Stands raw (.scan now (unread.erase j) (channel + Shards.items shard s.peerSeen j) oldestKey) := by
  refine ⟨h.1, fun hmany => ?_⟩
  obtain ⟨hpromising, hchannel⟩ := h.2 hmany
  constructor
  · rcases hpromising with hpeer | ⟨item, hitem, hold⟩ | ⟨item, hitem, hunread, hold⟩
    · exact .inl hpeer
    · exact .inr (.inl ⟨item, Multiset.mem_add.mpr (.inl hitem), hold⟩)
    · by_cases hj : shard item.1 = j
      · exact .inr (.inl ⟨item, Multiset.mem_add.mpr (.inr (Shards.mem_items.mpr ⟨hitem, hj⟩)), hold⟩)
      · exact .inr (.inr ⟨item, hitem, Finset.mem_erase.mpr ⟨hj, hunread⟩, hold⟩)
  · intro item hitem hold
    rcases Multiset.mem_add.mp hitem with hitem | hitem
    · exact hchannel item hitem hold
    · exact h.1.mem_peers hmany (Shards.mem_items.mp hitem).1

/-- The loop takes something out of the channel. -/
theorem Stands.takeItem (h : s.Stands raw (.scan now unread channel oldestKey)) {item : Sighting}
    (hitem : item ∈ channel) :
    s.Stands raw (.scan now unread (channel.erase item) (if item.2 < now then item.1 else oldestKey)) := by
  refine ⟨h.1, fun hmany => ?_⟩
  obtain ⟨hpromising, hchannel⟩ := h.2 hmany
  refine ⟨?_, fun other hother => hchannel other (Multiset.mem_of_mem_erase hother)⟩
  by_cases hold : item.2 < now
  · rw [if_pos hold]
    exact .inl (hchannel item hitem hold)
  · rw [if_neg hold]
    refine hpromising.imp_right (Or.imp_left ?_)
    rintro ⟨other, hother, hotherOld⟩
    refine ⟨other, (Multiset.mem_erase_of_ne ?_).mpr hother, hotherOld⟩
    rintro rfl
    exact hold hotherOld

/-- The channel is closed. -/
theorem Stands.get (h : s.Stands raw (.scan now ∅ 0 oldestKey)) : s.Stands raw (.get oldestKey) := by
  refine ⟨h.1, fun hmany => ?_⟩
  rcases (h.2 hmany).1 with hpeer | ⟨item, hitem, -⟩ | ⟨item, -, hunread, -⟩
  · exact hpeer
  · exact absurd hitem (Multiset.notMem_zero item)
  · exact absurd hunread (Finset.notMem_empty _)

end Search

/-- The count goes on. -/
theorem Stands.count {next total : Nat} (h : s.Stands raw (.count next total)) :
    s.Stands raw (.count (next + 1) (total + (Shards.part shard s.peers next).card)) := by
  refine ⟨h.1, ?_⟩
  rw [Shards.card_below_succ]
  exact Nat.add_le_add_right h.2 _

/-- A count can only come out too large, since in the meantime peers are removed, but not added. -/
theorem Stands.card_le {next total : Nat} (h : s.Stands raw (.count next total)) (hnext : shardCount ≤ next) :
    s.peers.card ≤ total := by
  have := h.2
  rwa [Shards.below_all shard_lt s.peers hnext] at this

/-- `SetPeer` returns after the loop. -/
theorem Consistent.leave (h : s.Consistent) {stage : Setting} (hi : s.calls[i]? = some (.setPeer raw stage))
    (hstage : between stage = false) (hcard : s.peers.card ≤ s.maxPeers) :
    Consistent { (s.leave raw).1 with calls := (s.leave raw).1.calls.set i (s.leave raw).2 } := by
  have hpush : (s.start (.heartbeatPeer raw .waiting)).Consistent := h.pushIdle rfl (by simp [Call.closing])
  have hi' : (s.start (.heartbeatPeer raw .waiting)).calls[i]? = some (.setPeer raw stage) := by
    rw [start, List.getElem?_append_left (List.getElem?_eq_some_iff.mp hi).1, hi]
  exact hpush.setReturned hi' hstage hcard

/-- A step of `SetPeer`, `HandleCloseConnection` apart. -/
theorem Consistent.setPeer (h : s.Consistent) {stage : Setting} (hi : s.calls[i]? = some (.setPeer raw stage))
    (hclosing : (Call.setPeer raw stage).closing = none) {input : Input}
    (ho : s.OrderlyAccess input (.setPeer raw stage)) :
    Consistent { (s.setPeer input raw stage).1 with
      calls := (s.setPeer input raw stage).1.calls.set i (s.setPeer input raw stage).2 } := by
  have hstands : s.Stands raw stage := (h.holds _ (List.mem_of_getElem? hi)).stands raw stage rfl
  cases stage with
  | has =>
    by_cases hmem : raw ∈ s.peers
    · simp only [Connections.setPeer, if_pos hmem]
      exact h.setReturned hi rfl (by simpa using Room.card_le hstands)
    · simp only [Connections.setPeer, if_neg hmem]
      exact h.setStage hi rfl rfl hstands
  | entry =>
    by_cases hok : input.ok
    · simp only [Connections.setPeer, if_pos hok]
      exact h.setStage hi rfl rfl hstands
    · simp only [Connections.setPeer, if_neg hok]
      exact h.setReturned hi rfl (by simpa using Room.card_le hstands)
  | peers => exact h.insertPeer hi ho.2
  | peerSeen => exact h.insertSeen hi input.now
  | count next total =>
    by_cases hnext : next < shardCount
    · simp only [Connections.setPeer, if_pos hnext]
      exact h.setStage hi rfl rfl hstands.count
    · have hall : shardCount ≤ next := not_lt.mp hnext
      by_cases hmany : s.maxPeers < total
      · simp only [Connections.setPeer, if_neg hnext, if_pos hmany]
        refine h.setStage hi rfl rfl ⟨hstands.1, fun hlt => ?_⟩
        exact ⟨ho.2 hall hlt, by simp⟩
      · simp only [Connections.setPeer, if_neg hnext, if_neg hmany]
        have := hstands.card_le hall
        exact h.leave hi rfl (by omega)
  | scan now unread channel oldestKey =>
    by_cases hread : input.shard ∈ unread
    · simp only [Connections.setPeer, if_pos hread]
      exact h.setStage hi rfl rfl (hstands.readShard input.shard)
    · by_cases htake : input.item ∈ channel
      · simp only [Connections.setPeer, if_neg hread, if_pos htake]
        exact h.setStage hi rfl rfl (hstands.takeItem htake)
      · by_cases hend : unread = ∅ ∧ channel = 0
        · simp only [Connections.setPeer, if_neg hread, if_neg htake, if_pos hend]
          obtain ⟨rfl, rfl⟩ := hend
          exact h.setStage hi rfl rfl hstands.get
        · simp only [Connections.setPeer, if_neg hread, if_neg htake, if_neg hend]
          exact h.setStage hi rfl rfl hstands
  | get oldestKey =>
    by_cases hmem : oldestKey ∈ s.peers
    · simp only [Connections.setPeer, if_pos hmem]
      exact h.setStage hi rfl rfl ⟨hstands.1, fun _ => hmem⟩
    · simp only [Connections.setPeer, if_neg hmem]
      exact h.leave hi rfl (not_lt.mp fun hmany => hmem (hstands.2 hmany))
  | evict oldest at' => cases hclosing

/-! ## Steps and runs -/

/-- Only the two maps, the bound and the calls matter. -/
theorem Consistent.of_same {s' : Connections} (h : s.Consistent) (hpeers : s'.peers = s.peers)
    (hseen : s'.peerSeen = s.peerSeen) (hmax : s'.maxPeers = s.maxPeers) (hcalls : s'.calls = s.calls) :
    s'.Consistent where
  one := by rw [hcalls]; exact h.one
  listed := by rw [hpeers, hseen, hcalls]; exact h.listed
  connected := by rw [hpeers, hseen, hcalls]; exact h.connected
  holds := by
    rw [hcalls]
    exact fun c hc => (h.holds c hc).of_same hpeers hseen hmax
  bounded := by rw [hpeers, hmax, hcalls]; exact h.bounded

/-- A step of a call that does not rely on anything. -/
theorem Consistent.setIdle (h : s.Consistent) (hi : s.calls[i]? = some c) (hc : c.setting = false)
    (hclosing : c.closing = none) (hc' : c'.setting = false)
    (hclosing' : ∀ raw, c'.closing ≠ some (raw, .peerSeen)) :
    Consistent { s with calls := s.calls.set i c' } := by
  refine h.set hi (by simp [hc']) (holds_of_idle hc' hclosing') (by simp [hc]) ?_ (by simp [hclosing])
  rintro raw rfl
  cases hc

theorem Consistent.access (h : s.Consistent) (hi : s.calls[i]? = some c) {input : Input}
    (ho : s.OrderlyAccess input c) :
    Consistent { (s.access input c).1 with
      calls := (s.access input c).1.calls.set i (s.access input c).2 } := by
  unfold Connections.access
  rcases hclosing : c.closing with _ | ⟨gone, stage⟩
  · cases c with
    | setPeer raw stage => exact h.setPeer hi hclosing ho
    | handleCloseConnection raw stage => cases hclosing
    | heartbeatPeer raw stage =>
      refine h.setIdle hi rfl hclosing ?_ fun key => ?_
      · cases stage <;> rfl
      · cases stage with
        | has => by_cases hmem : raw ∈ s.peers <;> simp [heartbeatPeer, hmem, Call.closing]
        | ping => cases hok : input.ok <;> simp [heartbeatPeer, hok, Call.closing]
        | waiting => simp [heartbeatPeer, Call.closing]
        | close stage => cases hclosing
        | deferred stage => cases hclosing
    | addSeedManager raw stage =>
      have hset : ∀ stage', Consistent { s with calls := s.calls.set i (.addSeedManager raw stage') } :=
        fun stage' => h.setIdle hi rfl rfl rfl (by simp [Call.closing])
      cases stage with
      | has => exact hset _
      | load =>
        cases hok : input.ok
        · simp only [addSeedManager, hok]
          exact h.setIdle hi rfl rfl rfl (by simp [Call.closing])
        · simp only [addSeedManager, hok]
          exact hset _
      | set => exact (hset _).of_same rfl rfl rfl rfl
      | start id => exact (hset _).of_same rfl rfl rfl rfl
      | added => exact hset _
    | returned => exact h.setIdle hi rfl rfl rfl (by simp [Call.closing])
  · cases stage with
    | peers => exact h.removePeer hi hclosing (ho.1 _ hclosing rfl)
    | peerSeen => exact h.removeSeen hi hclosing
    | seedManagers =>
      refine h.resume hi hclosing (by simp) (by simp) ?_
      intro stage' hstage'
      obtain ⟨id, -, rfl⟩ := Option.map_eq_some_iff.mp hstage'
      simp
    | send id => exact h.resume hi hclosing (by simp) (by simp) (by simp [Connections.handleCloseConnection])

theorem Consistent.step (h : s.Consistent) {e : Event} (ho : s.Orderly e) : (s.step e).Consistent := by
  cases e with
  | setPeer raw =>
    have hstands : s.Stands raw .has := by
      refine ⟨by simpa using h.bounded fun c hc => (ho c hc).1, fun _ key hkey => ?_⟩
      refine (h.connected key hkey).resolve_right ?_
      rintro ⟨c, hc, hclosing⟩
      exact (ho c hc).2 _ hclosing rfl
    exact h.push (fun _ d hd => (ho d hd).1) (hstands.holds (closing_ne_of_between rfl))
  | handleCloseConnection raw => exact h.pushIdle rfl (by simp [Call.closing])
  | addSeedManager raw => exact h.pushIdle rfl (by simp [Call.closing])
  | updateSeen raw now =>
    obtain ⟨hmem, hsearch⟩ := ho
    refine ⟨h.one, fun key hkey => ?_, fun key hkey => ?_, fun c hc => ⟨(h.holds c hc).removed, ?_⟩, h.bounded⟩
    · exact (h.listed key hkey).imp_left fun hseen => Finmap.mem_insert.mpr (.inr hseen)
    · rcases Finmap.mem_insert.mp hkey with rfl | hkey
      · exact hmem.elim .inl (h.connected key)
      · exact h.connected key hkey
    · rintro key stage rfl
      exact ((h.holds _ hc).stands key stage rfl).mono rfl le_rfl (fun d hroom => hroom.insertSeen hmem now)
        fun _ hmany _ => hsearch hmany _ hc
  | advance i input =>
    cases hi : s.calls[i]? with
    | none => simpa only [Connections.step, hi] using h
    | some c =>
      simp only [Connections.step, hi]
      exact h.access hi (ho c hi)
  | found id => exact h.of_same rfl rfl rfl rfl
  | tick id => exact h.of_same rfl rfl rfl rfl
  | receive id i =>
    cases hm : s.managers[id]? with
    | none => simpa only [Connections.step, hm] using h
    | some m =>
      cases hi : s.calls[i]? with
      | none => simpa only [Connections.step, hm, hi] using h
      | some c =>
        simp only [Connections.step, hm, hi]
        split_ifs with hwaits
        · obtain ⟨⟨gone, stage⟩, hclosing, rfl⟩ := Option.map_eq_some_iff.mp hwaits.2
          exact (h.resume hi hclosing (by simp) (by simp) (by simp)).of_same rfl rfl rfl rfl
        · exact h
  | configure n =>
    rcases ho with hle | ⟨hcard, hnone⟩
    · refine ⟨h.one, h.listed, h.connected, fun c hc => ⟨(h.holds c hc).removed, fun raw stage heq => ?_⟩,
        fun hnone => (h.bounded hnone).trans hle⟩
      refine ((h.holds c hc).stands raw stage heq).mono rfl hle (fun d hroom => hroom.configure hle) ?_
      intro _ _ hpromising
      cases stage <;> exact hpromising
    · refine ⟨h.one, h.listed, h.connected, fun c hc => ?_, fun _ => hcard⟩
      exact (h.holds c hc).of_not_setting (hnone c hc) fun _ hkey _ => hkey

/-- The state after `NewPeerManager`. -/
theorem consistent_empty {maxPeers : Int} (h : 0 ≤ maxPeers) : Consistent { maxPeers := maxPeers } where
  one := atMostOne_nil
  listed raw hraw := absurd hraw (Finset.notMem_empty raw)
  connected _ hraw := absurd hraw Finmap.notMem_empty
  holds _ hc := absurd hc List.not_mem_nil
  bounded _ := h

/-- When nothing is half done, the maps agree. -/
theorem Consistent.agree (h : s.Consistent) (hquiet : ∀ c ∈ s.calls, c.busy = false) (raw : Bytes) :
    raw ∈ s.peers ↔ raw ∈ s.peerSeen := by
  constructor
  · intro hraw
    refine (h.listed raw hraw).resolve_right fun hcall => ?_
    cases hquiet _ hcall
  · intro hraw
    refine (h.connected raw hraw).resolve_right ?_
    rintro ⟨c, hc, hclosing⟩
    have := hquiet c hc
    simp [Call.busy, hclosing] at this

/-- A `SetPeer` returns in this step. -/
def SetPeerReturns (s : Connections) (e : Event) : Prop :=
  ∃ (i : Nat) (raw : Bytes) (stage : Setting),
    s.calls[i]? = some (.setPeer raw stage) ∧ (s.step e).calls[i]? = some .returned

/-- A `SetPeer` after a step was one before, or has just started. -/
theorem setting_step {e : Event} {d : Call} (hd : (s.step e).calls[i]? = some d) (hset : d.setting) :
    (∃ raw, e = .setPeer raw) ∨ ∃ c, s.calls[i]? = some c ∧ c.setting := by
  -- of the calls that start, only `SetPeer` is one
  have hpush : ∀ c, c.setting = false → (s.calls ++ [c])[i]? = some d → ∃ c, s.calls[i]? = some c ∧ c.setting := by
    intro c hc hd
    rcases getElem?_push_cases hd with hd | ⟨-, rfl⟩
    · exact ⟨d, hd, hset⟩
    · simp [hc] at hset
  cases e with
  | setPeer raw => exact .inl ⟨raw, rfl⟩
  | handleCloseConnection raw => exact .inr (hpush _ rfl hd)
  | addSeedManager raw => exact .inr (hpush _ rfl hd)
  | advance j input =>
    right
    cases hj : s.calls[j]? with
    | none => exact ⟨d, by simpa only [Connections.step, hj] using hd, hset⟩
    | some c =>
      simp only [Connections.step, hj] at hd
      rcases getElem?_set_cases hd with hd | ⟨rfl, rfl⟩
      · rcases calls_access s input c with heq | ⟨raw, heq⟩
        · exact ⟨d, heq ▸ hd, hset⟩
        · exact hpush _ rfl (heq ▸ hd)
      · exact ⟨c, hj, setting_access hset⟩
  | receive id j =>
    right
    cases hm : s.managers[id]? with
    | none => exact ⟨d, by simpa only [Connections.step, hm] using hd, hset⟩
    | some m =>
      cases hj : s.calls[j]? with
      | none => exact ⟨d, by simpa only [Connections.step, hm, hj] using hd, hset⟩
      | some c =>
        simp only [Connections.step, hm, hj] at hd
        split_ifs at hd with hwaits
        · rcases getElem?_set_cases hd with hd | ⟨rfl, rfl⟩
          · exact ⟨d, hd, hset⟩
          · obtain ⟨⟨gone, stage⟩, hclosing, -⟩ := Option.map_eq_some_iff.mp hwaits.2
            exact ⟨c, hj, by rwa [Call.setting_resume hclosing] at hset⟩
        · exact ⟨d, hd, hset⟩
  | updateSeen raw now => exact .inr ⟨d, hd, hset⟩
  | found id => exact .inr ⟨d, hd, hset⟩
  | tick id => exact .inr ⟨d, hd, hset⟩
  | configure n => exact .inr ⟨d, hd, hset⟩

/-- When a `SetPeer` returns, none is under way. -/
theorem Consistent.none_setting (h : s.Consistent) {e : Event} (ho : s.Orderly e) (hreturns : s.SetPeerReturns e) :
    ∀ d ∈ (s.step e).calls, d.setting = false := by
  obtain ⟨i, raw, stage, hi, hreturned⟩ := hreturns
  intro d hd
  by_contra hset
  obtain ⟨j, hj⟩ := List.mem_iff_getElem?.mp hd
  rcases setting_step hj (by simpa using hset) with ⟨raw', rfl⟩ | ⟨c, hc, hcset⟩
  · cases (ho _ (List.mem_of_getElem? hi)).1
  · obtain rfl := h.one j i _ _ hc hi hcset rfl
    cases hj.symm.trans hreturned
    exact hset rfl

/-- **The peers and when they were seen.** In every run whose steps are orderly, the two maps have the same keys
whenever no call is under way, and when `SetPeer` returns there are no more peers than `net.maxPeers`. -/
theorem peers_bounded_of_orderly (maxPeers : Int) (hmax : 0 ≤ maxPeers) (evs : List Event)
    (ho : Always step Orderly { maxPeers := maxPeers } evs) :
    (∀ pre post, evs = pre ++ post → (∀ c ∈ (run step { maxPeers := maxPeers } pre).calls, c.busy = false) →
      ∀ raw, raw ∈ (run step { maxPeers := maxPeers } pre).peers ↔
        raw ∈ (run step { maxPeers := maxPeers } pre).peerSeen) ∧
      Always step (fun s e => s.SetPeerReturns e → (s.step e).peers.card ≤ (s.step e).maxPeers)
        { maxPeers := maxPeers } evs := by
  have hstep : ∀ s e, Consistent s → Orderly s e → (s.step e).Consistent := fun s e h => h.step
  constructor
  · rintro pre post rfl hquiet raw
    exact (ho.left.invariant (consistent_empty hmax) hstep).agree hquiet raw
  · refine ho.of_step (consistent_empty hmax) hstep fun s e h hse hreturns => ?_
    exact (h.step hse).bounded (h.none_setting hse hreturns)

/-! ## A peer that makes room, and one that does not go -/

instance (s : Connections) : DecidablePred s.Promising := by
  intro call
  unfold Promising
  have hmem : ∀ (m : Multiset Sighting) (p : Sighting → Prop) [DecidablePred p], Decidable (∃ item ∈ m, p item) :=
    fun m p _ => Multiset.decidableExistsMultiset
  split <;> infer_instance

instance (s : Connections) (input : Input) (call : Call) : Decidable (s.OrderlyAccess input call) := by
  unfold OrderlyAccess
  refine @instDecidableAnd _ _ inferInstance ?_
  split <;> infer_instance

instance (s : Connections) : DecidablePred s.Orderly := by
  intro e
  unfold Orderly
  split <;> infer_instance

/-- A call makes `n` accesses with the same input. -/
def accesses (i n : Nat) (input : Input) : List Event := List.replicate n (.advance i input)

/-- `SetPeer` until it has counted the peers and compared their number with the bound. -/
def callSetPeer (i : Nat) (raw : Bytes) (now : Int) : List Event :=
  .setPeer raw :: accesses i (4 + shardCount + 1) { now := now }

/-- The search for the oldest peer. The sightings come in the order that is given. -/
def search (i : Nat) (sightings : List Sighting) : List Event :=
  (List.range shardCount).map (fun j => .advance i { shard := j }) ++
    sightings.map (fun item => .advance i { shard := shardCount, item := item }) ++
    [.advance i { shard := shardCount }]

/-- A second peer makes the first one leave. -/
def sampleEviction : List Event :=
  callSetPeer 0 [1] 1 ++ callSetPeer 2 [2] 2 ++ search 2 [⟨[2], 2⟩, ⟨[1], 1⟩] ++
    accesses 2 (1 + 3 + shardCount + 1) {}

/-- One peer at most: the second one stays. -/
theorem peers_bounded_sample :
    (run step { maxPeers := 1 } sampleEviction).peers = {[2]} ∧
      ([2] ∈ (run step { maxPeers := 1 } sampleEviction).peers ↔
        [2] ∈ (run step { maxPeers := 1 } sampleEviction).peerSeen) := by
  refine ⟨by decide +kernel, ?_⟩
  refine (peers_bounded_of_orderly 1 (by decide) sampleEviction (by decide +kernel)).1 sampleEviction [] ?_ ?_ [2]
  · rw [List.append_nil]
  · decide +kernel

/-- A stream of a peer is accepted when its connection has just been closed. -/
def sampleLate : List Event :=
  callSetPeer 0 [1] 1 ++ [.handleCloseConnection [1]] ++ accesses 2 3 {} ++ [.updateSeen [1] 2]

/-- Two more peers connect; the search for the one that has to go comes upon the first one last. -/
def sampleCrowd : List Event :=
  sampleLate ++ callSetPeer 3 [2] 3 ++ callSetPeer 5 [3] 4 ++ search 5 [⟨[2], 3⟩, ⟨[3], 4⟩, ⟨[1], 2⟩]

/-- The peer that is closed stays in `peerSeen`, with nothing under way. When there are too many peers it is
taken for the oldest, is not found, and `SetPeer` returns with one peer too many. -/
theorem late_updateSeen_breaks_bound :
    ((∀ c ∈ (run step { maxPeers := 1 } sampleLate).calls, c.busy = false) ∧
      [1] ∉ (run step { maxPeers := 1 } sampleLate).peers ∧
      [1] ∈ (run step { maxPeers := 1 } sampleLate).peerSeen) ∧
    (run step { maxPeers := 1 } sampleCrowd).SetPeerReturns (.advance 5 {}) ∧
      ((run step { maxPeers := 1 } sampleCrowd).step (.advance 5 {})).maxPeers <
        ((run step { maxPeers := 1 } sampleCrowd).step (.advance 5 {})).peers.card := by
  refine ⟨by decide +kernel, ⟨5, [3], .get [1], ?_, ?_⟩, ?_⟩ <;> decide +kernel

end Zif.Node.Connections
