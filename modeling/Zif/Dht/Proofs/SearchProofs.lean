import Zif.Dht.Proofs.DiscoveryProofs
import Zif.Dht.Search
import Zif.Go.Proofs.ResultProofs

/-!
# Proofs: searching for entries

The id of an entry is compared with one id, so that a search finds at most one entry. It is on page 0, and all
other pages are empty: the pages have the entries that match exactly when the one that is found is the one that
matches (`FindsMatches`). In a store that calls have filled, with queries that the engine can read and as long as
no entry has other texts than when it was added, that is when at most one entry matches.
-/

namespace Zif.Dht

open Go Runs

variable {P : Prims} {E : FtsEngine} {db : DB} {name desc : Bytes}

namespace DB

/-! ## The entry that is found -/

/-- The rows that `sqlSearchEntries` selects. -/
def foundEntries (E : FtsEngine) (db : DB) (name desc : Bytes) : List EntryRow :=
  db.entries.filter fun r => db.firstDocid E name desc = some r.id

theorem mem_foundEntries {r : EntryRow} : r ∈ db.foundEntries E name desc ↔
    r ∈ db.entries ∧ db.firstDocid E name desc = some r.id := by
  simp [foundEntries]

theorem mem_matchingEntries {r : EntryRow} : r ∈ db.matchingEntries E name desc ↔
    r ∈ db.entries ∧ E.hits name desc r.name.load r.desc.load = true := by
  simp [matchingEntries]

theorem mem_matchingDocids {id : Nat} : id ∈ db.matchingDocids E name desc ↔
    ∃ f ∈ db.fts, f.docid = id ∧ E.hits name desc f.name f.desc = true := by
  rw [matchingDocids, List.mem_map]
  constructor
  · rintro ⟨f, hf, rfl⟩
    obtain ⟨hmem, hhits⟩ := List.mem_filter.mp ((E.order_perm _).mem_iff.mp hf)
    exact ⟨f, hmem, rfl, hhits⟩
  · rintro ⟨f, hf, rfl, hhits⟩
    exact ⟨f, (E.order_perm _).mem_iff.mpr (List.mem_filter.mpr ⟨hf, hhits⟩), rfl⟩

/-- An id is that of one row. -/
theorem length_foundEntries_le (E : FtsEngine) (name desc : Bytes)
    (hids : (db.entries.map EntryRow.id).Nodup) :
    (db.foundEntries E name desc).length ≤ 1 := by
  have hnodup : ((db.foundEntries E name desc).map EntryRow.id).Nodup :=
    hids.sublist (List.filter_sublist.map _)
  cases hfirst : db.firstDocid E name desc with
  | none => simp [foundEntries, hfirst]
  | some id =>
    have hsame : (db.foundEntries E name desc).map EntryRow.id =
        List.replicate (db.foundEntries E name desc).length id := by
      refine List.eq_replicate_iff.mpr ⟨by simp, fun i hi => ?_⟩
      obtain ⟨r, hr, rfl⟩ := List.mem_map.mp hi
      rw [(mem_foundEntries.mp hr).2, Option.some.injEq] at hfirst
      exact hfirst
    rw [hsame, List.nodup_replicate] at hnodup
    exact hnodup

/-- Permutations of one another that have at most one element are equal. -/
theorem perm_eq_of_length_le_one {l l' : List EntryRow} (h : l.Perm l') (hle : l.length ≤ 1) : l = l' := by
  rcases Nat.le_one_iff_eq_zero_or_eq_one.mp hle with hzero | hone
  · rw [List.length_eq_zero_iff] at hzero
    rw [hzero] at h ⊢
    exact h.nil_eq
  · obtain ⟨x, hx⟩ := List.length_eq_one_iff.mp hone
    rw [hx] at h ⊢
    exact (List.perm_singleton.mp h.symm).symm

/-! ## Pages -/

theorem searchPeer_zero (hids : (db.entries.map EntryRow.id).Nodup) :
    db.searchPeer E name desc 0 =
      decodeAddresses ((db.foundEntries E name desc).map EntryRow.address) := by
  have hle := length_foundEntries_le E name desc hids
  have hlimit : sqlLimit 0 25 ((db.foundEntries E name desc).map EntryRow.address) =
      (db.foundEntries E name desc).map EntryRow.address :=
    List.take_of_length_le (by simp; omega)
  rw [searchPeer, searchEntries, ← foundEntries, hlimit]

/-- The number of the page is that of the rows to skip, and there is one row. -/
theorem searchPeer_later (hids : (db.entries.map EntryRow.id).Nodup) {p : Nat} (hp : p < 2 ^ 63)
    (hpos : 1 ≤ p) : db.searchPeer E name desc (Int64.ofNat p) = .ok [] := by
  have hle := length_foundEntries_le E name desc hids
  have hlimit : sqlLimit (Int64.ofNat p) 25 ((db.foundEntries E name desc).map EntryRow.address) = [] := by
    rw [sqlLimit, Int64.toInt_ofNat_of_lt hp, Int.toNat_natCast, List.drop_of_length_le (by simp; omega)]
    rfl
  rw [searchPeer, searchEntries, ← foundEntries, hlimit]
  rfl

/-- All pages together are page 0. -/
theorem flatMap_range_of_later {pages : Nat → List Address} {n : Nat} (hn : n ≤ 2 ^ 63)
    (hlater : ∀ p < 2 ^ 63, 1 ≤ p → pages p = []) (hpos : 1 ≤ n) :
    (List.range n).flatMap pages = pages 0 := by
  obtain ⟨n, rfl⟩ := Nat.exists_eq_add_of_le' hpos
  have hrest : (List.range n).flatMap (fun p => pages (p + 1)) = [] :=
    List.flatMap_eq_nil_iff.mpr fun p hp => by
      have := List.mem_range.mp hp
      exact hlater (p + 1) (by omega) (by omega)
  rw [List.range_succ_eq_map, List.flatMap_cons, List.flatMap_map, hrest, List.append_nil]

/-- Pages that have all entries that match have them in the form of the one entry that is found. -/
theorem perm_of_pagesPartition (hids : (db.entries.map EntryRow.id).Nodup) (h : db.PagesPartition E name desc) :
    (∀ r ∈ db.foundEntries E name desc, r.Decodes) ∧
      ((db.foundEntries E name desc).map fun r => Address.decodeAddress r.address.load).Perm
        ((db.matchingEntries E name desc).map fun r => Address.decodeAddress r.address.load) := by
  obtain ⟨pages, n, hn, hsearch, -, hend, hperm⟩ := h
  have hlater : ∀ p < 2 ^ 63, 1 ≤ p → pages p = [] := by
    intro p hp hpos
    have hpage := hsearch p hp
    rw [searchPeer_later hids hp hpos] at hpage
    injection hpage with hpage
    exact hpage.symm
  have hall : (List.range n).flatMap pages = pages 0 := by
    rcases Nat.eq_zero_or_pos n with rfl | hpos
    · rw [hend 0 (by norm_num) le_rfl]
      rfl
    · exact flatMap_range_of_later hn hlater hpos
  have hzero := hsearch 0 (by norm_num)
  rw [show Int64.ofNat 0 = 0 from rfl, searchPeer_zero hids] at hzero
  have hdecoded := mapM_eq_ok_iff.mp hzero
  rw [List.map_map] at hdecoded
  rw [hall, ← hdecoded] at hperm
  refine ⟨fun r hr => ?_, hperm⟩
  have hmem : Address.decodeAddress r.address.load ∈ (pages 0).map Except.ok := by
    rw [← hdecoded]
    exact List.mem_map.mpr ⟨r, hr, rfl⟩
  obtain ⟨a, -, ha⟩ := List.mem_map.mp hmem
  exact ⟨a, ha.symm⟩

/-- If what is found is what matches, page 0 has it, and all other pages are empty. -/
theorem pagesPartition_of_found (hids : (db.entries.map EntryRow.id).Nodup)
    (hsame : db.foundEntries E name desc = db.matchingEntries E name desc)
    (hdecodes : ∀ r ∈ db.matchingEntries E name desc, r.Decodes) : db.PagesPartition E name desc := by
  have hle := length_foundEntries_le E name desc hids
  have hzero : db.searchPeer E name desc 0 =
      decodeAddresses ((db.foundEntries E name desc).map EntryRow.address) := searchPeer_zero hids
  rw [hsame] at hle hzero
  obtain ⟨as, has⟩ := mapM_ok (f := fun r : EntryRow => Address.decodeAddress r.address.load) hdecodes
  have hdecoded := mapM_eq_ok_iff.mp has
  have hlen : as.length ≤ 1 := by
    rw [← List.length_map (f := Except.ok (ε := Fault)), ← hdecoded, List.length_map]
    exact hle
  refine ⟨fun p => if p = 0 then as else [], 1, by norm_num, fun p hp => ?_, fun p _ => ?_,
    fun p _ hpos => if_neg (by omega), ?_⟩
  · dsimp only
    by_cases hp0 : p = 0
    · subst hp0
      rw [show Int64.ofNat 0 = 0 from rfl, hzero, if_pos rfl]
      refine mapM_eq_ok_iff.mpr ?_
      rw [List.map_map]
      exact hdecoded
    · rw [searchPeer_later hids hp (by omega), if_neg hp0]
  · dsimp only
    split_ifs
    · omega
    · simp
  · rw [hdecoded]
    simp

/-- The entry that is found is the one that matches. -/
theorem findsMatches_iff (E : FtsEngine) (db : DB) (name desc : Bytes) :
    db.FindsMatches E name desc ↔ db.foundEntries E name desc = db.matchingEntries E name desc ∧
      ∀ r ∈ db.matchingEntries E name desc, r.Decodes := by
  have hsame : db.foundEntries E name desc = db.matchingEntries E name desc ↔ ∀ r ∈ db.entries,
      E.hits name desc r.name.load r.desc.load = true ↔ db.firstDocid E name desc = some r.id := by
    rw [foundEntries, matchingEntries]
    constructor
    · intro h r hr
      have hmem : r ∈ db.foundEntries E name desc ↔ r ∈ db.matchingEntries E name desc := by
        rw [foundEntries, matchingEntries, h]
      rw [mem_foundEntries, mem_matchingEntries] at hmem
      exact (and_congr_right_iff.mp hmem hr).symm
    · intro h
      refine List.filter_congr fun r hr => ?_
      rw [Bool.eq_iff_iff, decide_eq_true_iff]
      exact (h r hr).symm
  rw [hsame]
  exact ⟨fun h => ⟨h.first, h.decodes⟩, fun h => ⟨h.1, h.2⟩⟩

theorem pagesPartition_of_finds (hids : (db.entries.map EntryRow.id).Nodup)
    (h : db.FindsMatches E name desc) : db.PagesPartition E name desc := by
  obtain ⟨hsame, hdecodes⟩ := (findsMatches_iff E db name desc).mp h
  exact pagesPartition_of_found hids hsame hdecodes

/-- When addresses tell entries apart, there is no other way for the pages to have the addresses of those that
match. -/
theorem finds_of_pagesPartition (hids : (db.entries.map EntryRow.id).Nodup) (hdistinct : db.Distinct)
    (h : db.PagesPartition E name desc) : db.FindsMatches E name desc := by
  obtain ⟨hdecodes, hperm⟩ := perm_of_pagesPartition hids h
  have hsub : ∀ r ∈ db.matchingEntries E name desc, r ∈ db.foundEntries E name desc ∧ r.Decodes := by
    intro r hr
    have hmem := hperm.mem_iff.mpr (List.mem_map_of_mem hr)
    obtain ⟨r', hr', heq⟩ := List.mem_map.mp hmem
    obtain ⟨a, ha⟩ := hdecodes r' hr'
    have hsame := hdistinct r' (mem_foundEntries.mp hr').1 r (mem_matchingEntries.mp hr).1 a ha (heq ▸ ha)
    exact ⟨hsame ▸ hr', a, heq ▸ ha⟩
  refine (findsMatches_iff E db name desc).mpr ⟨?_, fun r hr => (hsub r hr).2⟩
  have hlen := hperm.length_eq
  rw [List.length_map, List.length_map] at hlen
  have hnodup : (db.matchingEntries E name desc).Nodup := hids.of_map.filter _
  have hsame := (hnodup.subperm fun r hr => (hsub r hr).1).perm_of_length_le hlen.le
  exact (perm_eq_of_length_le_one hsame.symm (length_foundEntries_le E name desc hids))

/-! ## Queries that the engine can read, and texts that are current -/

theorem firstDocid_of_wellFormed (hname : E.wellFormed name = true) (hdesc : E.wellFormed desc = true) :
    db.firstDocid E name desc = (db.matchingDocids E name desc).head? := by
  refine if_neg fun hfails => ?_
  rcases E.malformed_of_fails name desc db.fts hfails with h | h
  · rw [hname] at h
    cases h
  · rw [hdesc] at h
    cases h

/-- The full text table tells whether an entry matches. -/
theorem Tabled.hits_iff (h : db.Tabled) (hcurrent : db.Current) {r : EntryRow} (hr : r ∈ db.entries) :
    E.hits name desc r.name.load r.desc.load = true ↔ r.id ∈ db.matchingDocids E name desc := by
  rw [mem_matchingDocids]
  constructor
  · intro hhits
    obtain ⟨f, hf, hdocid⟩ := h.covered r hr
    obtain ⟨hname, hdesc⟩ := hcurrent f hf r hr hdocid.symm
    exact ⟨f, hf, hdocid, by rw [hname, hdesc]; exact hhits⟩
  · rintro ⟨f, hf, hdocid, hhits⟩
    obtain ⟨hname, hdesc⟩ := hcurrent f hf r hr hdocid.symm
    rw [← hname, ← hdesc]
    exact hhits

/-- The first row of the subquery is that of the one entry that matches. -/
theorem Tabled.finds_of_length_le (h : db.Tabled) (hcurrent : db.Current)
    (hname : E.wellFormed name = true) (hdesc : E.wellFormed desc = true)
    (hle : (db.matchingEntries E name desc).length ≤ 1)
    (hdecodes : ∀ r ∈ db.matchingEntries E name desc, r.Decodes) : db.FindsMatches E name desc := by
  refine ⟨fun r hr => ?_, hdecodes⟩
  rw [firstDocid_of_wellFormed hname hdesc]
  constructor
  · intro hhits
    have hid := (h.hits_iff hcurrent hr).mp hhits
    cases hdocids : db.matchingDocids E name desc with
    | nil =>
      rw [hdocids] at hid
      cases hid
    | cons id rest =>
      have hmem : id ∈ db.matchingDocids E name desc := by simp [hdocids]
      obtain ⟨f, hf, rfl, -⟩ := mem_matchingDocids.mp hmem
      obtain ⟨r', hr', hdocid⟩ := h.indexed f hf
      have hmatch : r' ∈ db.matchingEntries E name desc :=
        mem_matchingEntries.mpr ⟨hr', (h.hits_iff hcurrent hr').mpr (hdocid ▸ hmem)⟩
      have hmatch' : r ∈ db.matchingEntries E name desc := mem_matchingEntries.mpr ⟨hr, hhits⟩
      obtain ⟨x, hx⟩ := List.length_eq_one_iff.mp (Nat.le_antisymm hle (List.length_pos_of_mem hmatch))
      rw [hx, List.mem_singleton] at hmatch hmatch'
      rw [List.head?_cons, ← hdocid, hmatch, hmatch']
  · intro hfirst
    exact (h.hits_iff hcurrent hr).mpr (List.mem_of_mem_head? hfirst)

/-- What is found is one entry at most, and so is what matches if the pages are to have it all. -/
theorem pagesPartition_bounds (hids : (db.entries.map EntryRow.id).Nodup)
    (h : db.PagesPartition E name desc) : (db.matchingEntries E name desc).length ≤ 1 ∧
      ∀ r ∈ db.matchingEntries E name desc, r.Decodes := by
  obtain ⟨hdecodes, hperm⟩ := perm_of_pagesPartition hids h
  have hlen := hperm.length_eq
  rw [List.length_map, List.length_map] at hlen
  refine ⟨hlen ▸ length_foundEntries_le E name desc hids, fun r hr => ?_⟩
  obtain ⟨r', hr', heq⟩ := List.mem_map.mp (hperm.mem_iff.mpr (List.mem_map_of_mem hr))
  obtain ⟨a, ha⟩ := hdecodes r' hr'
  exact ⟨a, heq ▸ ha⟩

/-! ## Tables that calls leave behind -/

theorem Tabled.insertSeeds (h : db.Tabled) (links : List (Address × Address)) :
    (db.insertSeeds P links).1.Tabled := by
  obtain ⟨hentries, hfts⟩ := insertSeeds_tables (P := P) links
  exact ⟨by rw [hentries]; exact h.ids, by rw [hentries, hfts]; exact h.indexed,
    by rw [hentries, hfts]; exact h.covered⟩

/-- An update leaves the ids, and the full text table. -/
theorem Tabled.overwrite (h : db.Tabled) (e : Entry) : (db.overwrite P e).Tabled := by
  have hid : (db.overwrite P e).entries.map EntryRow.id = db.entries.map EntryRow.id :=
    map_overwrite EntryRow.id fun _ => rfl
  refine ⟨by rw [hid]; exact h.ids, fun f hf => ?_, fun r hr => ?_⟩
  · obtain ⟨r, hr, hdocid⟩ := h.indexed f hf
    have hmem := List.mem_map_of_mem (f := EntryRow.id) hr
    rw [← hid, hdocid] at hmem
    exact List.mem_map.mp hmem
  · have hmem := List.mem_map_of_mem (f := EntryRow.id) hr
    rw [hid] at hmem
    obtain ⟨r', hr', heq⟩ := List.mem_map.mp hmem
    rw [← heq]
    exact h.covered r' hr'

/-- The id of a new entry is new, and so it gets a row of the full text table. -/
theorem Tabled.fts_extend (h : db.Tabled) (e : Entry) :
    (db.extend P e).fts = db.fts ++ [⟨db.freshId, e.name, e.desc⟩] := by
  refine if_neg fun hany => ?_
  obtain ⟨f, hf, hdocid⟩ := List.any_eq_true.mp hany
  obtain ⟨r, hr, hid⟩ := h.indexed f hf
  have hmem := List.mem_map_of_mem (f := EntryRow.id) hr
  rw [hid, of_decide_eq_true hdocid] at hmem
  exact freshId_not_mem hmem

theorem Tabled.extend (h : db.Tabled) (e : Entry) : (db.extend P e).Tabled := by
  refine ⟨?_, fun f hf => ?_, fun r hr => ?_⟩
  · rw [entries_extend, List.map_append, List.nodup_append']
    refine ⟨h.ids, by simp, fun i hi hi' => ?_⟩
    have hfresh : i = db.freshId := List.mem_singleton.mp hi'
    exact freshId_not_mem (hfresh ▸ hi)
  · rw [h.fts_extend] at hf
    rw [entries_extend]
    rcases List.mem_append.mp hf with hold | hnew
    · obtain ⟨r, hr, hdocid⟩ := h.indexed f hold
      exact ⟨r, List.mem_append_left _ hr, hdocid⟩
    · rw [List.mem_singleton.mp hnew]
      exact ⟨db.freshRow P e, List.mem_append_right _ (by simp), rfl⟩
  · rw [entries_extend] at hr
    rw [h.fts_extend]
    rcases List.mem_append.mp hr with hold | hnew
    · obtain ⟨f, hf, hdocid⟩ := h.covered r hold
      exact ⟨f, List.mem_append_left _ hf, hdocid⟩
    · rw [List.mem_singleton.mp hnew]
      exact ⟨⟨db.freshId, e.name, e.desc⟩, List.mem_append_right _ (by simp), rfl⟩

theorem Tabled.put (h : db.Tabled) (e : Entry) : (db.put P e).Tabled := by
  unfold DB.put
  split
  · exact h
  · split
    · exact h.overwrite e
    · exact (h.extend e).insertSeeds _

end DB

theorem NetDB.tabled_after {ndb : NetDB} (h : ndb.db.Tabled) (c : NetDB.Call) : (ndb.after P c).db.Tabled := by
  cases c with
  | insert e =>
    rcases ndb.insert_db (P := P) e with heq | ⟨-, heq⟩
    · rw [after, heq]
      exact h
    · rw [after, heq]
      exact h.put e
  | insertSeed entry seed =>
    rw [after, insertSeed_fst]
    exact h.insertSeeds _
  | query a =>
    have hdb : (ndb.query P a).1.db = ndb.db := query_db ndb a
    rw [after, hdb]
    exact h

/-- The tables that calls of a new store leave behind. -/
theorem NetDB.tabled_run (own : Address) (calls : List NetDB.Call) :
    (run (NetDB.after P) (NetDB.new own) calls).db.Tabled := by
  refine run_invariant (I := fun ndb : NetDB => ndb.db.Tabled) ?_ (fun ndb c h => tabled_after h c) calls
  exact ⟨by simp [new, DB.new], fun f hf => by simp [new, DB.new] at hf, fun r hr => by simp [new, DB.new] at hr⟩

/-! ## The pages of a search -/

namespace DB

/-- **The pages of a search.** For all queries, whatever the engine matches and in whatever order. In a table with
unique ids, the pages have each entry that matches exactly once if the entries that match are those with the value
of the subquery for their id, and only then when no two entries have one address. In the tables that calls of a new
store leave behind, when the full text table has the texts of the entries and the engine can read both queries,
that is when at most one entry matches. -/
theorem searchPeer_pages_iff (E : FtsEngine) (name desc : Bytes) :
    (∀ db : DB, (db.entries.map EntryRow.id).Nodup →
      (db.FindsMatches E name desc → db.PagesPartition E name desc) ∧
      (db.Distinct → (db.PagesPartition E name desc ↔ db.FindsMatches E name desc))) ∧
    ∀ (P : Prims) (own : Address) (calls : List NetDB.Call),
      (run (NetDB.after P) (NetDB.new own) calls).db.Current →
      E.wellFormed name = true → E.wellFormed desc = true →
      ((run (NetDB.after P) (NetDB.new own) calls).db.PagesPartition E name desc ↔
        ((run (NetDB.after P) (NetDB.new own) calls).db.matchingEntries E name desc).length ≤ 1 ∧
        ∀ r ∈ (run (NetDB.after P) (NetDB.new own) calls).db.matchingEntries E name desc, r.Decodes) := by
  constructor
  · intro db hids
    exact ⟨pagesPartition_of_finds hids, fun hdistinct =>
      ⟨finds_of_pagesPartition hids hdistinct, pagesPartition_of_finds hids⟩⟩
  · intro P own calls hcurrent hname hdesc
    have htabled := NetDB.tabled_run (P := P) own calls
    exact ⟨pagesPartition_bounds htabled.ids, fun h =>
      pagesPartition_of_finds htabled.ids (htabled.finds_of_length_le hcurrent hname hdesc h.1 h.2)⟩

/-- The entry of the owner of the key `k`, under this name. -/
def namedEntry (k : UInt8) (name : Bytes) (updated : UInt64) : Entry :=
  Entry.signedBy .sample [k] { sampleEntry k k updated with name }

/-- An engine that compares texts as they are, and cannot read a query that is a quotation mark. -/
def sampleEngine : FtsEngine where
  wellFormed query := query != [34]
  isMatch query text := query == text
  order := id
  order_perm _ := .refl _
  fails name desc _ := !(name != [34] && desc != [34])
  malformed_of_fails name desc _ h := by
    rw [Bool.not_eq_true', Bool.and_eq_false_iff] at h
    exact h

/-- A store with two entries, one of which is named `b`. -/
theorem searchPeer_pages_iff_one :
    let db := (run (NetDB.after .sample) (NetDB.new (sampleAddress 0))
      [.insert (sampleEntry 1 1 7), .insert (namedEntry 2 [98] 7)]).db
    db.PagesPartition sampleEngine [98] [120] ∧ db.entries.length = 2 ∧
      (db.matchingEntries sampleEngine [98] [120]).length = 1 := by
  intro db
  obtain ⟨hcurrent, hone, hdecodes, htwo⟩ : db.Current ∧
      (db.matchingEntries sampleEngine [98] [120]).length = 1 ∧
      (∀ r ∈ db.matchingEntries sampleEngine [98] [120],
        Address.decodeAddress r.address.load = .ok (sampleAddress 2)) ∧ db.entries.length = 2 := by
    decide +kernel
  refine ⟨?_, htwo, hone⟩
  refine ((searchPeer_pages_iff sampleEngine [98] [120]).2 .sample (sampleAddress 0) _ hcurrent rfl rfl).mpr
    ⟨hone.le, fun r hr => ⟨_, hdecodes r hr⟩⟩

/-- Two entries have the name that is searched for. The first is on page 0, and page 1 is empty. An entry that has
been renamed is not found by its new name. And with a query that the engine cannot read there is no entry on the
page, and no error, although the description matches. -/
theorem second_match_not_found :
    let two := ((NetDB.new (sampleAddress 0)).insertAll .sample [sampleEntry 1 1 7, sampleEntry 2 2 7]).db
    let renamed := ((NetDB.new (sampleAddress 0)).insertAll .sample
      [sampleEntry 1 1 7, namedEntry 1 [98, 98] 8]).db
    ((two.matchingEntries sampleEngine [97] [120]).length = 2 ∧
      two.searchPeer sampleEngine [97] [120] 0 = .ok [sampleAddress 1] ∧
      two.searchPeer sampleEngine [97] [120] 1 = .ok []) ∧
    ((renamed.matchingEntries sampleEngine [98, 98] [120]).length = 1 ∧
      renamed.searchPeer sampleEngine [98, 98] [120] 0 = .ok []) ∧
    (two.matchingEntries sampleEngine [34] []).length = 2 ∧ two.searchPeer sampleEngine [34] [] 0 = .ok [] := by
  decide +kernel

end DB

end Zif.Dht
