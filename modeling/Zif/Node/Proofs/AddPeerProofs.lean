import Zif.Dht.Proofs.SeedProofs
import Zif.Node.AddPeer
import Zif.Node.Proofs.AddPostProofs
import Zif.Node.Proofs.WritersProofs

/-!
# Proofs: registering as a seed

Links are made for an entry when its row is added, and not when it is changed. The entry that
`HandleAddPeer` inserts for another peer was read from its row, so that a requester never becomes a
seed by it.

On the side that asks, every call of `RequestAddPeer` adds the address to what the peer's own entry is seeding,
unless the entry it asks for names itself as a seed; then none does.
-/

namespace Zif.Node

open Go Dht Runs

variable {P : Prims}

namespace LocalPeer

/-- When a request for another peer is answered with `ok`, no link has changed. -/
theorem handleAddPeer_sameLinks {lp lp' : LocalPeer} {m : AddPeerRequest} {address : Address}
    (hk : NetDB.Kept P lp.dht) (hm : m.content = .ok address)
    (hother : address.equals lp.dht.addr = false) (hok : lp.handleAddPeer P m = (lp', .ok ())) :
    NetDB.Kept P lp'.dht ∧ NetDB.SameLinks P lp.dht lp'.dht := by
  unfold handleAddPeer at hok
  simp only [hm, hother] at hok
  rcases hk.query_cases address with ⟨-, hquery⟩ | ⟨r, hr, -, t, entry, -, haddr, hquery⟩
  · simp [hquery] at hok
  have hkept : NetDB.Kept P { lp.dht with table := t } := by
    have hq := hk.query address
    rwa [hquery] at hq
  let e := { entry with seeds := entry.seeds ++ [m.sender.raw] }
  have hrow : ({ lp.dht with table := t } : NetDB).db.row (P.store (e.address.string P)) = some r := by
    show lp.dht.db.row (P.store (entry.address.string P)) = some r
    rw [haddr]
    exact hk.wf.row_of_raw hr
  have hdht : lp'.dht = (NetDB.insert P { lp.dht with table := t } e).1 := by
    rw [hquery] at hok
    simp only [Bool.false_eq_true, if_false] at hok
    injection hok with hlp _
    rw [← hlp]
    exact dropError_fst _
  rw [hdht]
  refine ⟨hkept.insert fun _ => ?_, ?_⟩
  · exact .inl (congrArg Address.encoded haddr)
  · have hsame := hkept.sameLinks_insert hrow
    exact ⟨hsame.rows, hsame.linked⟩

end LocalPeer

/-- An entry that is inserted without an error has its seeds registered exactly when its address had no
row, or they were registered before; and a requester that is answered with `ok` is a seed of another
peer exactly when it was one before. -/
theorem seeds_registered_iff (P : Prims) (own : Address) (hown : own.raw.length = 20)
    (calls : List NetDB.Call)
    (hcalls : ∀ c ∈ calls, c.Admitted fun e => e.verify P = .ok () → e.address.Canonical P) :
    let ndb := run (NetDB.after P) (NetDB.new own) calls
    (∀ e n, e.address.Canonical P → (ndb.insert P e).2 = .ok n →
      (Registers P (ndb.insert P e).1 e ↔
        ((ndb.db.row (P.store (e.address.string P))).isSome → Registers P ndb e))) ∧
    ∀ (lp lp' : LocalPeer) (m : AddPeerRequest) (address : Address), lp.dht = ndb →
      m.content = .ok address → address.equals lp.dht.addr = false →
      lp.handleAddPeer P m = (lp', .ok ()) →
      (Lists (lp'.dht.querySeeds P address).2 m.sender.raw ↔
        Lists (ndb.querySeeds P address).2 m.sender.raw) := by
  intro ndb
  have hk : NetDB.Kept P ndb := NetDB.kept_run hown hcalls
  constructor
  · intro e n hcan hok
    cases hrow : ndb.db.row (P.store (e.address.string P)) with
    | none =>
      have hreg := hk.registers_insert hcan hrow hok
      simp [hreg]
    | some r =>
      have hsame := hk.sameLinks_insert hrow
      rw [← hsame.registers_iff hk (hk.insert fun _ => hcan) e]
      simp
  · intro lp lp' m address hlp hm hother hok
    rw [← hlp] at hk ⊢
    obtain ⟨hk', hsame⟩ := LocalPeer.handleAddPeer_sameLinks hk hm hother hok
    exact ((hsame.querySeeds hk hk' address).lists_iff m.sender.raw).symm

/-- The theorem at a store with one entry: a second one that names the first as its seed is registered,
and a request of the first to be a seed of itself changes nothing. -/
theorem seeds_registered_iff_one :
    let calls := [NetDB.Call.insert (sampleEntry 1 1 7)]
    let ndb := run (NetDB.after .sample) (NetDB.new (sampleAddress 0)) calls
    let e := Entry.signedBy .sample [2] { sampleEntry 2 2 7 with seeds := [(sampleAddress 1).raw] }
    let lp : LocalPeer := { LocalPeer.samplePeer with dht := ndb }
    let m : AddPeerRequest := ⟨.ok (sampleAddress 1), sampleAddress 1, 8, none⟩
    (ndb.insert .sample e).2 = .ok 1 ∧ Registers .sample (ndb.insert .sample e).1 e ∧
      (lp.handleAddPeer .sample m).2 = .ok () ∧
      ¬ Lists ((lp.handleAddPeer .sample m).1.dht.querySeeds .sample (sampleAddress 1)).2
        (sampleAddress 1).raw := by
  intro calls ndb e lp m
  obtain ⟨hins, hrow, hok, hother, hseeds⟩ : (ndb.insert .sample e).2 = .ok 1 ∧
      (ndb.db.row (Prims.sample.store (e.address.string .sample))).isSome = false ∧
      (lp.handleAddPeer .sample m).2 = .ok () ∧ (sampleAddress 1).equals lp.dht.addr = false ∧
      (ndb.querySeeds .sample (sampleAddress 1)).2 = .ok [] := by decide +kernel
  have hcalls : ∀ c ∈ calls, c.Admitted fun e => e.verify .sample = .ok () →
      e.address.Canonical .sample := by
    intro c hc
    rw [List.mem_singleton.mp hc]
    exact fun _ => .inl rfl
  obtain ⟨hinsert, hrequest⟩ :=
    seeds_registered_iff .sample (sampleAddress 0) (by rfl) calls hcalls
  refine ⟨hins, (hinsert e 1 (.inl rfl) hins).mpr fun h => ?_, hok, fun h => ?_⟩
  · rw [hrow] at h
    cases h
  · obtain ⟨as, has, hmem⟩ :=
      (hrequest lp _ m (sampleAddress 1) (by simp only [lp, ndb]) rfl hother
        (by rw [← hok])).mp h
    rw [hseeds] at has
    cases has
    cases hmem

/-- Peers 1 and 2 have a row. Inserting 1 again with 2 as a seed succeeds, and a request of 2 to be
registered as a seed of 1 is answered with `ok`, but `QuerySeeds` lists no seed of 1 either way. -/
theorem seed_not_registered :
    let raw := (sampleAddress 2).raw
    let calls := [NetDB.Call.insert (sampleEntry 1 1 7), .insert (sampleEntry 2 2 7)]
    let ndb := run (NetDB.after .sample) (NetDB.new (sampleAddress 0)) calls
    let e := Entry.signedBy .sample [1] { sampleEntry 1 1 8 with seeds := [raw] }
    let lp : LocalPeer := { LocalPeer.samplePeer with dht := ndb }
    let m : AddPeerRequest := ⟨.ok (sampleAddress 1), sampleAddress 2, 8, none⟩
    ((ndb.insert .sample e).2 = .ok 1 ∧ raw ∈ e.seeds ∧
      ((ndb.insert .sample e).1.db.row (Prims.sample.store (Address.encodeRaw .sample raw))).isSome ∧
      ((ndb.insert .sample e).1.querySeeds .sample (sampleAddress 1)).2 = .ok []) ∧
    (lp.handleAddPeer .sample m).2 = .ok () ∧
      ((lp.handleAddPeer .sample m).1.dht.querySeeds .sample (sampleAddress 1)).2 = .ok [] := by
  decide +kernel

/-! ## The side that asks -/

namespace LocalPeer

variable {lp lp' : LocalPeer} {entry : Entry}

theorem seeding_signEntry {now : UInt64} (h : lp.signEntry P now = .ok lp') :
    lp'.entry.seeding = lp.entry.seeding := by
  unfold signEntry at h
  simp only at h
  split_ifs at h
  cases h
  rfl

theorem seeding_saveEntry (lp : LocalPeer) (now : UInt64) (writeFails : Option String) :
    (lp.saveEntry P now writeFails).1.entry.seeding = lp.entry.seeding := by
  unfold saveEntry
  cases hsign : lp.signEntry P now with
  | error f => rfl
  | ok lp₁ =>
    have hseeding := seeding_signEntry hsign
    simp only
    rcases hins : lp₁.dht.insert P lp₁.entry with ⟨dht, f | n⟩
    · exact hseeding
    · exact hseeding

/-- `AddSeeding` does not look whether the address is there, and keeps it when it fails. -/
theorem seeding_addSeeding (lp : LocalPeer) (c : SeedingCall) :
    (lp.addSeeding P c).1.entry.seeding = lp.entry.seeding ++ [c.entry.address.raw] := by
  unfold addSeeding
  simp only
  cases hsign : signEntry P
      { lp with entry := { lp.entry with seeding := lp.entry.seeding ++ [c.entry.address.raw] } }
      c.signedAt with
  | error f => rfl
  | ok lp₁ =>
    have hseeding := seeding_signEntry hsign
    simp only
    rcases hins : lp₁.dht.insert P { c.entry with seeds := c.entry.seeds ++ [lp.dht.addr.raw] } with
      ⟨dht, f | n⟩
    · exact hseeding
    · simp only
      rw [seeding_saveEntry]
      exact hseeding

theorem seeding_requestAddPeer {c : RegisterCall} (h : lp.requestAddPeer P entry c = (lp', .ok ())) :
    lp'.entry.seeding = lp.entry.seeding ++ if SeedOfItself entry then [] else [entry.address.raw] := by
  unfold requestAddPeer at h
  cases hping : c.ping with
  | some err => simp [hping] at h
  | none =>
    cases hopen : c.openStream with
    | some err => simp [hping, hopen] at h
    | none =>
      cases hrequest : c.requestAddPeer with
      | some err => simp [hping, hopen, hrequest] at h
      | none =>
        cases hmanager : c.addSeedManager with
        | some err => simp [hping, hopen, hrequest, hmanager] at h
        | none =>
          simp only [hping, hopen, hrequest, hmanager] at h
          by_cases hself : SeedOfItself entry
          · rw [if_pos (show (entry.seeds.any _) = true from hself)] at h
            cases h
            rw [if_pos hself, List.append_nil]
          · rw [if_neg (show ¬ (entry.seeds.any _) = true from hself)] at h
            have hadded := seeding_addSeeding (P := P) lp ⟨entry, c.signedAt, c.savedAt, c.writeFails⟩
            rw [h] at hadded
            rwa [if_neg hself]

/-- What the calls have added. -/
theorem seeding_requestAddPeers {calls : List RegisterCall}
    (h : requestAddPeers P entry lp calls = some lp') :
    lp'.entry.seeding = lp.entry.seeding ++
      if SeedOfItself entry then [] else List.replicate calls.length entry.address.raw := by
  induction calls generalizing lp with
  | nil =>
    cases h
    simp
  | cons c calls ih =>
    rw [requestAddPeers, List.foldlM_cons] at h
    rcases hcall : lp.requestAddPeer P entry c with ⟨lp₁, f | u⟩
    · rw [hcall] at h
      cases h
    · rw [hcall] at h
      rw [ih h, seeding_requestAddPeer hcall]
      by_cases hself : SeedOfItself entry
      · simp [hself]
      · simp [hself, List.replicate_succ]

end LocalPeer

/-- **Registering more than once.** After any number of successful calls of `RequestAddPeer` for an entry, the
peer's own entry has its address exactly once exactly when: the entry names itself as a seed and the address was
there once, or it does not, the address was not there, and there was one call. -/
theorem requestAddPeers_once_iff (P : Prims) (lp lp' : LocalPeer) (entry : Entry)
    (calls : List LocalPeer.RegisterCall) (hne : 1 ≤ calls.length)
    (hruns : LocalPeer.requestAddPeers P entry lp calls = some lp') :
    lp'.entry.seeding.count entry.address.raw = 1 ↔
      LocalPeer.SeedOfItself entry ∧ lp.entry.seeding.count entry.address.raw = 1 ∨
        ¬ LocalPeer.SeedOfItself entry ∧ entry.address.raw ∉ lp.entry.seeding ∧ calls.length = 1 := by
  rw [LocalPeer.seeding_requestAddPeers hruns, ← List.count_eq_zero]
  by_cases hself : LocalPeer.SeedOfItself entry
  · simp [hself]
  · simp only [hself, if_false, List.count_append, List.count_replicate_self, false_and, not_false_eq_true,
      true_and, false_or]
    omega

/-- A peer that has the entry of peer 1. -/
def sampleMirror : LocalPeer :=
  { LocalPeer.samplePeer with dht := LocalPeer.samplePeer.dht.insertAll .sample [sampleEntry 1 1 7] }

/-- A call in which nothing fails. -/
def sampleRegister : LocalPeer.RegisterCall := ⟨none, none, none, none, 8, 9, none⟩

/-- These calls succeed. -/
theorem requestAddPeers_sampleMirror :
    (LocalPeer.requestAddPeers .sample (sampleEntry 1 1 7) sampleMirror [sampleRegister]).isSome ∧
      (LocalPeer.requestAddPeers .sample (sampleEntry 1 1 7) sampleMirror
        [sampleRegister, sampleRegister]).isSome ∧
      (LocalPeer.requestAddPeers .sample
        { sampleEntry 1 1 7 with seeds := [(sampleEntry 1 1 7).address.raw] } sampleMirror
        [sampleRegister]).isSome := by
  decide +kernel

/-- One call, for an entry that does not name itself. -/
theorem requestAddPeers_once_iff_first :
    ∃ lp', LocalPeer.requestAddPeers .sample (sampleEntry 1 1 7) sampleMirror [sampleRegister] = some lp' ∧
      lp'.entry.seeding.count (sampleEntry 1 1 7).address.raw = 1 := by
  obtain ⟨lp', hruns⟩ := Option.isSome_iff_exists.mp requestAddPeers_sampleMirror.1
  refine ⟨lp', hruns, (requestAddPeers_once_iff .sample sampleMirror lp' (sampleEntry 1 1 7)
    [sampleRegister] (by decide) hruns).mpr (.inr ⟨?_, List.not_mem_nil, rfl⟩)⟩
  exact fun hself => by cases hself

/-- Two mirrors of peer 1 leave its address twice in the signed entry; and when the entry of peer 1 names itself
as a seed, it is never entered. -/
theorem seeding_entered_twice :
    let twice := LocalPeer.requestAddPeers .sample (sampleEntry 1 1 7) sampleMirror
      [sampleRegister, sampleRegister]
    let itself := { sampleEntry 1 1 7 with seeds := [(sampleEntry 1 1 7).address.raw] }
    let never := LocalPeer.requestAddPeers .sample itself sampleMirror [sampleRegister]
    twice.map (fun lp => lp.entry.seeding.count (sampleEntry 1 1 7).address.raw) = some 2 ∧
      never.map (fun lp => lp.entry.seeding.count (sampleEntry 1 1 7).address.raw) = some 0 := by
  intro twice itself never
  have hother : ¬ LocalPeer.SeedOfItself (sampleEntry 1 1 7) := fun hself => by cases hself
  have hitself : LocalPeer.SeedOfItself itself := by simp [LocalPeer.SeedOfItself, itself, Address.equals]
  have hnone : sampleMirror.entry.seeding = [] := rfl
  obtain ⟨lp', htwice⟩ := Option.isSome_iff_exists.mp requestAddPeers_sampleMirror.2.1
  obtain ⟨lp'', hnever⟩ := Option.isSome_iff_exists.mp requestAddPeers_sampleMirror.2.2
  constructor
  · simp only [twice]
    rw [htwice, Option.map_some, LocalPeer.seeding_requestAddPeers htwice, if_neg hother, hnone]
    simp
  · simp only [never, itself]
    rw [hnever, Option.map_some, LocalPeer.seeding_requestAddPeers hnever, if_pos hitself, hnone]
    rfl

end Zif.Node
