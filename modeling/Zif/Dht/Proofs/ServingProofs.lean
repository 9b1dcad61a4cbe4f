import Zif.Dht.Proofs.DiscoveryProofs

/-!
# Proofs: served entries verify

In a run of calls that meet `KeepsServed`, every row still carries the entry last accepted for its
address, and its links are the peers that entry is signed to be seeding (`Faithful`). So a query gives
back what was signed (`run_serves`).
-/

namespace Zif.Dht

open Go Runs

variable {P : Prims}

namespace DB

variable {db : DB} {e : Entry}

/-! ## A row that carries its entry -/

/-- The row is what the accepted entry `e` was stored as, and its links are what `e` is seeding. -/
structure Faithful (P : Prims) (db : DB) (r : EntryRow) (e : Entry) : Prop where
  verified : e.verify P = .ok ()
  reads : ReadsBack P e
  columns : r = setColumns P r e
  address : r.address = P.store (e.address.string P)
  seeding : (db.seedingRaws r.id).flatten = e.seeding.flatten
  seeds : (db.selectSeeds r.id).length ≤ maxEntrySeeds

/-- Such a row is read back as an entry with the same signed bytes. -/
theorem Faithful.query {r : EntryRow} (hf : Faithful P db r e) (hwf : Wf P db) (hr : r ∈ db.entries)
    {a : Address} (ha : P.store (a.string P) = r.address) :
    ∃ e', db.query P a = .ok (some (e', r.id)) ∧ e'.address.raw.length = 20 ∧
      e'.bytes P = e.bytes P ∧ e'.seeding.flatten = e.seeding.flatten ∧ e'.verify P = .ok () := by
  obtain ⟨⟨raw, hraw, hstring⟩, hname, hdesc, hpub⟩ := hf.reads
  obtain ⟨seeds, seeding, -, -, hseedsraw, hseedingraw, hquery⟩ := hwf.query hr ha
  have hown : rawAddress r.address = raw := by
    rw [hf.address, hstring, Address.store_encodeRaw P hraw, rawAddress_text]
  rw [hown] at hquery
  have hflat : (seeding.map Address.raw).flatten = e.seeding.flatten := by
    rw [hseedingraw]
    exact hf.seeding
  have hcols : ∀ {α : Type} (f : EntryRow → α), f r = f (setColumns P r e) :=
    fun f => congrArg f hf.columns
  have hload : r.name.load = e.name ∧ r.desc.load = e.desc ∧ r.publicAddress.load = e.publicAddress := by
    rw [hcols EntryRow.name, hcols EntryRow.desc, hcols EntryRow.publicAddress]
    exact ⟨hname, hdesc, hpub⟩
  have hbytes : (readRow r { raw } seeds seeding).bytes P = e.bytes P := by
    simp only [readRow, Entry.bytes, Address.string_of_encoded_nil, hload, hflat, ← hstring]
    rw [hcols EntryRow.publicKey, hcols EntryRow.port, hcols EntryRow.postCount,
      hcols EntryRow.updated, hcols EntryRow.collectionHash]
    rfl
  refine ⟨_, hquery, hraw, hbytes, hflat, ?_⟩
  rw [Entry.verify_eq_ok_iff, hbytes]
  obtain ⟨⟨-, c2, c3, -, c5, c6, c7, c8, c9⟩, hkey, hsig, hver⟩ :=
    Entry.verify_eq_ok_iff (P := P) e |>.mp hf.verified
  have hk : r.publicKey = e.publicKey := hcols EntryRow.publicKey
  have hs : r.signature = e.signature := hcols EntryRow.signature
  have hp : r.port = e.port := hcols EntryRow.port
  simp only [readRow, Entry.Checked, hload, hk, hs, hp]
  refine ⟨⟨hraw, c2, c3, ?_, c5, c6, c7, c8, c9⟩, hkey, hsig, hver⟩
  have hlen := congrArg List.length hseedsraw
  simp only [List.length_map] at hlen
  rw [List.length_map, hlen]
  exact hf.seeds

/-! ## Overwriting a row -/

/-- An accepted entry whose list fits the links of its row. -/
theorem faithful_overwrite {last : Cell → Option Entry} (hreads : ReadsBack P e)
    (hverified : e.verify P = .ok ()) {r₀ : EntryRow}
    (hrow : db.row (P.store (e.address.string P)) = some r₀)
    (hfits : e.seeding.flatten = (db.seedingRaws r₀.id).flatten) (hwf : Wf P db)
    (hold : ∀ r ∈ db.entries, ∃ e, last r.address = some e ∧ Faithful P db r e) :
    ∀ r ∈ (db.overwrite P e).entries, ∃ e',
      Function.update last (P.store (e.address.string P)) (some e) r.address = some e' ∧
        Faithful P (db.overwrite P e) r e' := by
  intro r hr
  obtain ⟨r', hr', rfl⟩ := List.mem_map.mp hr
  obtain ⟨e', hlast, hf⟩ := hold r' hr'
  by_cases haddr : r'.address = P.store (e.address.string P)
  · rw [if_pos haddr, setColumns_address, haddr, Function.update_self]
    have hsame : r' = r₀ := by
      have := hwf.row_self hr'
      rw [haddr, hrow] at this
      injection this with this
      exact this.symm
    refine ⟨e, rfl, hverified, hreads, rfl, haddr, ?_, ?_⟩
    · show ((db.overwrite P e).seedingRaws r'.id).flatten = _
      rw [hfits, ← hsame, seedingRaws, selectSeeding_overwrite, seedingRaws]
    · show ((db.overwrite P e).selectSeeds r'.id).length ≤ _
      rw [selectSeeds_overwrite]
      exact hf.seeds
  · rw [if_neg haddr, Function.update_of_ne haddr]
    refine ⟨e', hlast, hf.verified, hf.reads, hf.columns, hf.address, ?_, ?_⟩
    · rw [seedingRaws, selectSeeding_overwrite]
      exact hf.seeding
    · rw [selectSeeds_overwrite]
      exact hf.seeds

/-! ## Adding a row -/

/-- The links for the peers an entry is seeding. -/
theorem resolve_seeding (hwf : Wf P db) {self : EntryRow}
    (hself : db.row (P.store (e.address.string P)) = some self) {rows : List EntryRow}
    (hrows : ∀ r ∈ rows, r ∈ db.entries) :
    ((rows.map fun r => rawAddress r.address).map fun i => ({ raw := i }, e.address)).map
      (resolve P db) = (rows.map fun r => (self.id, r.id)).map some := by
  rw [List.map_map, List.map_map, List.map_map]
  refine List.map_congr_left fun r hr => ?_
  simp only [Function.comp, resolve]
  rw [hwf.row_of_raw (hrows r hr), hself]

/-- The links for the seeds of an entry, when the known ones among the first are itself. -/
theorem resolved_seeds (hwf : Wf P db) {self : EntryRow} (hmem : self ∈ db.entries)
    (hself : db.row (P.store (e.address.string P)) = some self) {Q : Prop} (seeds : List Bytes)
    (h : ∀ i ∈ seeds.takeWhile (fun i => i ∈ db.known), i = rawAddress self.address ∧ Q) :
    ∀ l ∈ resolved P db (seeds.map fun i => (e.address, { raw := i })), l = (self.id, self.id) ∧ Q := by
  induction seeds with
  | nil => simp [resolved]
  | cons i seeds ih =>
    intro l hl
    rw [List.map_cons, resolved] at hl
    by_cases hi : i ∈ db.known
    · rw [List.takeWhile_cons_of_pos (by simpa using hi)] at h
      obtain ⟨rfl, hq⟩ := h i (by simp)
      have hres : resolve P db (e.address, { raw := rawAddress self.address }) =
          some (self.id, self.id) := by
        simp only [resolve]
        rw [hself, hwf.row_of_raw hmem]
      rw [hres, List.mem_cons] at hl
      rcases hl with rfl | hl
      · exact ⟨rfl, hq⟩
      · exact ih (fun j hj => h j (List.mem_cons_of_mem _ hj)) l hl
    · have hres : resolve P db (e.address, { raw := i }) = none := by
        simp only [resolve]
        rw [hself, hwf.row_of_not_known hi]
      simp [hres] at hl

/-- What `insertEntrySeeds` leaves behind when the entry fits: one link for each peer it is seeding. -/
theorem links_put_fresh (hwf : Wf P db) (hreads : ReadsBack P e)
    (hrow : db.row (P.store (e.address.string P)) = none) {rows : List EntryRow}
    (hrows : rows.Sublist (db.extend P e).entries)
    (hseeding : e.seeding = rows.map fun r => rawAddress r.address)
    (hseeds : ∀ i ∈ e.seeds.takeWhile
      (fun i => i ∈ db.known ++ [rawAddress (P.store (e.address.string P))]),
      i = rawAddress (P.store (e.address.string P)) ∧
        rawAddress (P.store (e.address.string P)) ∈ e.seeding) :
    ((db.extend P e).insertEntrySeeds P e).1.links =
      db.links ++ rows.map fun r => (db.freshId, r.id) := by
  have hwf₁ := hwf.extend hreads.1 hrow
  have hself : (db.extend P e).row (P.store (e.address.string P)) = some (db.freshRow P e) := by
    rw [row_extend, hrow, if_pos rfl]
    rfl
  have hmem := mem_of_row hself
  have hids : (rows.map EntryRow.id).Nodup := hwf₁.ids.sublist (hrows.map _)
  have hnodup : (rows.map fun r => (db.freshId, r.id)).Nodup := by
    have := hids.map (Prod.mk_right_injective db.freshId)
    rwa [List.map_map] at this
  have hnew : (rows.map fun r => (db.freshId, r.id)).Disjoint db.links := by
    intro l hl hl'
    obtain ⟨r, -, rfl⟩ := List.mem_map.mp hl
    exact freshId_not_mem (hwf.links _ hl').1
  rw [insertEntrySeeds, insertSeeds_links, links_extend]
  conv_lhs => rw [hseeding]
  rw [resolved_append (resolve_seeding hwf₁ hself fun r hr => hrows.subset hr), List.foldl_append]
  have hfirst : (rows.map fun r => ((db.freshRow P e).id, r.id)).foldl addLink db.links =
      db.links ++ rows.map fun r => (db.freshId, r.id) := foldl_addLink_new hnodup hnew
  rw [hfirst]
  -- the seeds that are known are the entry itself, whose link is there already
  apply foldl_addLink_known
  intro l hl
  rw [← known_extend] at hseeds
  obtain ⟨rfl, hown⟩ := resolved_seeds hwf₁ hmem hself e.seeds hseeds l hl
  rw [hseeding] at hown
  obtain ⟨r, hr, hraw⟩ := List.mem_map.mp hown
  have hsame : r = db.freshRow P e :=
    List.inj_on_of_nodup_map hwf₁.nodup_known (hrows.subset hr) hmem hraw
  rw [List.mem_append]
  exact Or.inr (List.mem_map.mpr ⟨r, hr, by rw [hsame]; rfl⟩)

/-- Links to the rows of a sublist, one for each, list their addresses in the order of the rows. -/
theorem flatMap_links_sublist {rows entries : List EntryRow} (hrows : rows.Sublist entries)
    (hids : (entries.map EntryRow.id).Nodup) :
    (entries.flatMap fun r => (rows.filter fun r' => r'.id = r.id).map fun _ => r.address) =
      rows.map EntryRow.address := by
  induction hrows with
  | slnil => rfl
  | cons a hrows ih =>
    rename_i rows entries
    rw [List.map_cons, List.nodup_cons] at hids
    have hnone : (rows.filter fun r' => r'.id = a.id) = [] := by
      rw [List.filter_eq_nil_iff]
      intro r hr
      simpa using fun h : r.id = a.id => hids.1 (h ▸ List.mem_map_of_mem (hrows.subset hr))
    rw [List.flatMap_cons, hnone, ih hids.2]
    rfl
  | cons_cons a hrows ih =>
    rename_i rows entries
    rw [List.map_cons, List.nodup_cons] at hids
    have hne : ∀ r ∈ entries, a.id ≠ r.id := fun r hr h => hids.1 (h ▸ List.mem_map_of_mem hr)
    have hone : ((a :: rows).filter fun r' => r'.id = a.id) = [a] := by
      rw [List.filter_cons_of_pos (by simp), List.filter_eq_nil_iff.mpr]
      intro r hr
      simpa using (hne r (hrows.subset hr)).symm
    have hrest : (entries.flatMap fun r =>
        ((a :: rows).filter fun r' => r'.id = r.id).map fun _ => r.address) =
        entries.flatMap fun r => (rows.filter fun r' => r'.id = r.id).map fun _ => r.address := by
      refine List.flatMap_congr fun r hr => ?_
      rw [List.filter_cons_of_neg (by simpa using hne r hr)]
    rw [List.flatMap_cons, hone, hrest, ih hids.2]
    rfl

section Fresh

variable {db' : DB} {rows : List EntryRow}

/-- The links of the new row are the ones that were added. -/
theorem selectSeeding_fresh (hwf : Wf P db) (hwf' : Wf P (db.extend P e))
    (hentries : db'.entries = (db.extend P e).entries)
    (hlinks : db'.links = db.links ++ rows.map fun r => (db.freshId, r.id))
    (hrows : rows.Sublist (db.extend P e).entries) :
    db'.selectSeeding db.freshId = rows.map EntryRow.address := by
  rw [selectSeeding_eq, hentries, ← flatMap_links_sublist hrows hwf'.ids]
  refine List.flatMap_congr fun r _ => ?_
  rw [hlinks, List.filter_append, List.filter_eq_nil_iff.mpr, List.nil_append, List.filter_map,
    List.map_map]
  · congr 1
    refine List.filter_congr fun r' _ => ?_
    simp
  · intro l hl
    have : l.1 ≠ db.freshId := fun h => freshId_not_mem (h ▸ (hwf.links l hl).1)
    simp [this]

/-- The links of the other rows stay as they are. -/
theorem selectSeeding_other (hwf : Wf P db)
    (hentries : db'.entries = (db.extend P e).entries)
    (hlinks : db'.links = db.links ++ rows.map fun r => (db.freshId, r.id)) {id : Nat}
    (hid : id ≠ db.freshId) : db'.selectSeeding id = db.selectSeeding id := by
  have hfilter : ∀ r : EntryRow, (db'.links.filter fun l => l.1 = id ∧ l.2 = r.id) =
      db.links.filter fun l => l.1 = id ∧ l.2 = r.id := by
    intro r
    have hnew : ((rows.map fun r => (db.freshId, r.id)).filter fun l => l.1 = id ∧ l.2 = r.id) = [] := by
      rw [List.filter_eq_nil_iff]
      intro l hl
      obtain ⟨r', -, rfl⟩ := List.mem_map.mp hl
      simp [hid.symm]
    rw [hlinks, List.filter_append, hnew, List.append_nil]
  rw [selectSeeding_eq, selectSeeding_eq, hentries, entries_extend, List.flatMap_append]
  simp only [hfilter]
  have hnone : (db.links.filter fun l => l.1 = id ∧ l.2 = (db.freshRow P e).id) = [] := by
    rw [List.filter_eq_nil_iff]
    intro l hl
    have : l.2 ≠ (db.freshRow P e).id := fun h => freshId_not_mem (h ▸ (hwf.links l hl).2)
    simp [this]
  rw [List.flatMap_singleton, hnone]
  simp

/-- A row gets one more seed if the new row is a seed for it. -/
theorem length_selectSeeds_fresh (hwf : Wf P db)
    (hentries : db'.entries = (db.extend P e).entries)
    (hlinks : db'.links = db.links ++ rows.map fun r => (db.freshId, r.id)) (id : Nat) :
    (db'.selectSeeds id).length =
      (db.selectSeeds id).length + (rows.filter fun r => r.id = id).length := by
  have hself : ((db.extend P e).entries.filter fun r => r.id = db.freshId) = [db.freshRow P e] := by
    rw [entries_extend, List.filter_append, List.filter_eq_nil_iff.mpr, List.nil_append]
    · exact List.filter_cons_of_pos (by simp [freshRow, newRow, setColumns])
    · intro r hr
      have : r.id ≠ db.freshId := fun h =>
        freshId_not_mem (h ▸ List.mem_map_of_mem (f := EntryRow.id) hr)
      simpa using this
  have hold : (db.links.filter fun l => l.2 = id).flatMap (fun l =>
      ((db.extend P e).entries.filter fun r => r.id = l.1).map EntryRow.address) =
      db.selectSeeds id := by
    rw [selectSeeds_eq]
    refine List.flatMap_congr fun l hl => ?_
    have hne : (db.freshRow P e).id ≠ l.1 :=
      fun h => freshId_not_mem (h ▸ (hwf.links l (List.mem_filter.mp hl).1).1)
    rw [entries_extend, List.filter_append, List.filter_cons_of_neg (by simpa using hne)]
    simp
  rw [selectSeeds_eq, hentries, hlinks, List.filter_append, List.flatMap_append, List.length_append,
    hold, List.filter_map, List.flatMap_map]
  simp only [hself, List.map_cons, List.map_nil, Function.comp_def]
  rw [List.length_flatMap]
  simp

section Faithful

variable (hentries : db'.entries = (db.extend P e).entries)
  (hlinks : db'.links = db.links ++ rows.map fun r => (db.freshId, r.id))
  (hrows : rows.Sublist (db.extend P e).entries)
  (hseeding : e.seeding = rows.map fun r => rawAddress r.address) (hwf : Wf P db)
  (hwf' : Wf P (db.extend P e))

include hentries hlinks hrows hseeding hwf hwf'

omit hentries hlinks hseeding hwf in
/-- The new row is a seed for a row at most once. -/
theorem length_filter_le_one (id : Nat) : (rows.filter fun r => r.id = id).length ≤ 1 := by
  have hids : (rows.map EntryRow.id).Nodup := hwf'.ids.sublist (hrows.map _)
  have hcount := List.nodup_iff_count_le_one.mp hids id
  rwa [List.count_eq_countP, List.countP_map, List.countP_eq_length_filter] at hcount

/-- A row that was there: its own links are the same, and it may have one more seed. -/
theorem Faithful.other {r : EntryRow} {e' : Entry} (hf : Faithful P db r e') (hr : r ∈ db.entries)
    (hroom : rawAddress r.address ∈ e.seeding → (db.selectSeeds r.id).length < maxEntrySeeds) :
    Faithful P db' r e' := by
  have hid : r.id ≠ db.freshId := fun h =>
    freshId_not_mem (h ▸ List.mem_map_of_mem (f := EntryRow.id) hr)
  refine ⟨hf.verified, hf.reads, hf.columns, hf.address, ?_, ?_⟩
  · rw [seedingRaws, selectSeeding_other hwf hentries hlinks hid]
    exact hf.seeding
  · rw [length_selectSeeds_fresh hwf hentries hlinks]
    by_cases hmem : rawAddress r.address ∈ e.seeding
    · have hless := hroom hmem
      have hone := length_filter_le_one hrows hwf' r.id
      omega
    · have hnone : (rows.filter fun r' => r'.id = r.id) = [] := by
        rw [List.filter_eq_nil_iff]
        intro r' hr' hid'
        have hsame : r' = r := List.inj_on_of_nodup_map hwf'.ids (hrows.subset hr')
          (by rw [entries_extend]; simp [hr]) (by simpa using hid')
        rw [hseeding, ← hsame] at hmem
        exact hmem (List.mem_map_of_mem hr')
      rw [hnone]
      exact hf.seeds

/-- The new row. -/
theorem faithful_freshRow (hreads : ReadsBack P e) (hverified : e.verify P = .ok ()) :
    Faithful P db' (db.freshRow P e) e := by
  have hid : (db.freshRow P e).id = db.freshId := rfl
  refine ⟨hverified, hreads, rfl, rfl, ?_, ?_⟩
  · rw [hid, seedingRaws, selectSeeding_fresh hwf hwf' hentries hlinks hrows, List.map_map, hseeding]
    rfl
  · rw [hid, length_selectSeeds_fresh hwf hentries hlinks]
    have hnone : db.selectSeeds db.freshId = [] := by
      rw [selectSeeds_eq, List.filter_eq_nil_iff.mpr]
      · rfl
      · intro l hl
        simpa using fun h : l.2 = db.freshId => freshId_not_mem (h ▸ (hwf.links l hl).2)
    have hone := length_filter_le_one hrows hwf' db.freshId
    rw [hnone, List.length_nil]
    simp only [maxEntrySeeds]
    omega

omit hwf' in
/-- An accepted entry without a row that fits the rows there are. -/
theorem faithful_fresh {last : Cell → Option Entry} (hreads : ReadsBack P e)
    (hverified : e.verify P = .ok ()) (hrow : db.row (P.store (e.address.string P)) = none)
    (hroom : ∀ r ∈ db.entries, rawAddress r.address ∈ e.seeding →
      (db.selectSeeds r.id).length < maxEntrySeeds)
    (hold : ∀ r ∈ db.entries, ∃ e, last r.address = some e ∧ Faithful P db r e) :
    ∀ r ∈ db'.entries, ∃ e',
      Function.update last (P.store (e.address.string P)) (some e) r.address = some e' ∧
        Faithful P db' r e' := by
  have hwf' := hwf.extend hreads.1 hrow
  intro r hr
  rw [hentries, entries_extend, List.mem_append, List.mem_singleton] at hr
  rcases hr with hr | rfl
  · obtain ⟨e', hlast, hf⟩ := hold r hr
    rw [Function.update_of_ne (row_eq_none.mp hrow r hr)]
    exact ⟨e', hlast, hf.other hentries hlinks hrows hseeding hwf hwf' hr (hroom r hr)⟩
  · rw [show (db.freshRow P e).address = P.store (e.address.string P) from rfl, Function.update_self]
    exact ⟨e, rfl, faithful_freshRow hentries hlinks hrows hseeding hwf hwf' hreads hverified⟩

end Faithful

end Fresh

end DB

/-! ## Runs -/

/-- What holds of the store and the accepted entries in a run of fitting calls. -/
structure Ledger.Ok (P : Prims) (s : Ledger) : Prop where
  own : s.ndb.addr.raw.length = 20
  placed : Table.Placed s.ndb.addr s.ndb.table
  wf : DB.Wf P s.ndb.db
  faithful : ∀ r ∈ s.ndb.db.entries, ∃ e, s.last r.address = some e ∧ DB.Faithful P s.ndb.db r e

theorem Ledger.Ok.kept {s : Ledger} (hs : Ok P s) : NetDB.Kept P s.ndb :=
  ⟨⟨hs.own, hs.placed⟩, hs.wf⟩

theorem Ledger.ok_new {addr : Address} (haddr : addr.raw.length = 20) : Ok P (Ledger.new addr) := by
  have hk : NetDB.Kept P (NetDB.new addr) := NetDB.kept_new haddr
  refine ⟨hk.own, hk.placed, hk.wf, ?_⟩
  simp [Ledger.new, NetDB.new, DB.new]

/-- An accepted entry that fits. -/
theorem Ledger.Ok.put {s : Ledger} (hs : Ok P s) {e : Entry} (hv : e.verify P = .ok ())
    (hreads : ReadsBack P e) (hfits : SeedingFits P s.ndb.db e)
    (he : driverAccepts e.updated = true) :
    DB.Wf P (s.ndb.db.put P e) ∧ ∀ r ∈ (s.ndb.db.put P e).entries, ∃ e',
      Function.update s.last (P.store (e.address.string P)) (some e) r.address = some e' ∧
        DB.Faithful P (s.ndb.db.put P e) r e' := by
  unfold DB.put SeedingFits at *
  rw [if_neg (by simp [he])]
  cases hrow : s.ndb.db.row (P.store (e.address.string P)) with
  | some r =>
    rw [hrow] at hfits
    exact ⟨hs.wf.overwrite, DB.faithful_overwrite hreads hv hrow hfits hs.wf hs.faithful⟩
  | none =>
    rw [hrow] at hfits
    obtain ⟨hsub, hroom, hseeds⟩ := hfits
    rw [← DB.known_extend, DB.known, List.sublist_map_iff] at hsub
    obtain ⟨rows, hrows, hseeding⟩ := hsub
    have hlinks := DB.links_put_fresh hs.wf hreads hrow hrows hseeding hseeds
    have hentries := DB.insertEntrySeeds_entries (P := P) (s.ndb.db.extend P e) e
    exact ⟨(hs.wf.extend hreads.1 hrow).insertSeeds _,
      DB.faithful_fresh hentries hlinks hrows hseeding hs.wf hreads hv hrow hroom hs.faithful⟩

theorem Ledger.Ok.call {s : Ledger} (hs : Ok P s) {c : StoreCall} (hc : KeepsServed P s c) :
    Ok P (s.call P c) := by
  cases c with
  | insert e =>
    rcases hs.kept.insert_cases (P := P) e with ⟨hv, hndb⟩ | ⟨hv, hraw, t, hins, hndb⟩
    · simp only [Ledger.call, NetDB.call, hndb]
      rw [if_neg fun h => hv h.1]
      exact hs
    · have hp := hs.placed.inserted hins hraw
      by_cases he : driverAccepts e.updated = true
      · obtain ⟨hreads, hfits⟩ := hc hv he
        obtain ⟨hwf, hfaithful⟩ := hs.put hv hreads hfits he
        simp only [Ledger.call, NetDB.call, hndb]
        rw [if_pos ⟨hv, he⟩]
        exact ⟨hs.own, hp, hwf, hfaithful⟩
      · have hput : s.ndb.db.put P e = s.ndb.db := by simp [DB.put, he]
        rw [hput] at hndb
        simp only [Ledger.call, NetDB.call, hndb]
        rw [if_neg fun h => he h.2]
        exact ⟨hs.own, hp, hs.wf, hs.faithful⟩
  | insertSeed entry seed =>
    have hndb : (s.ndb.insertSeed P entry seed).1 = s.ndb := by
      unfold NetDB.insertSeed
      rw [DB.insertSeed_eq]
      unfold DB.resolve
      cases hr : s.ndb.db.row (P.store (entry.string P)) with
      | none => rfl
      | some r =>
        cases hr' : s.ndb.db.row (P.store (seed.string P)) with
        | none => rfl
        | some r' =>
          obtain ⟨link, hmem, hseed, hfor⟩ := hc r r' hr hr'
          have hany : (s.ndb.db.seeds.any fun x => x.seed = r'.id ∧ x.seedFor = r.id) = true := by
            rw [List.any_eq_true]
            exact ⟨link, hmem, by simp [hseed, hfor]⟩
          simp only [DB.addSeedRow, hany, if_true]
    simp only [Ledger.call, NetDB.call, hndb]
    exact hs

/-- **When served entries verify.** In a run of `Insert` and `InsertSeed` calls from a new store in
which every call meets `KeepsServed`, a query for an address that has a row gives an entry that passes
`Verify` and has the signed bytes of the entry last accepted for that address. -/
theorem run_serves (P : Prims) (addr : Address) (haddr : addr.raw.length = 20)
    (calls : List StoreCall)
    (hcalls : Always (Ledger.call P) (KeepsServed P) (Ledger.new addr) calls) (a : Address)
    (hrow : ((run (Ledger.call P) (Ledger.new addr) calls).ndb.db.row
      (P.store (a.string P))).isSome) :
    ∃ ndb' e' id e,
      (run (Ledger.call P) (Ledger.new addr) calls).ndb.query P a = (ndb', .ok (some (e', id))) ∧
      e'.verify P = .ok () ∧
      (run (Ledger.call P) (Ledger.new addr) calls).last (P.store (a.string P)) = some e ∧
      e'.bytes P = e.bytes P ∧ e'.seeding.flatten = e.seeding.flatten := by
  have hok : Ledger.Ok P (run (Ledger.call P) (Ledger.new addr) calls) :=
    hcalls.invariant (Ledger.ok_new haddr) fun s c hs hc => hs.call hc
  set s := run (Ledger.call P) (Ledger.new addr) calls with hs
  obtain ⟨r, hr⟩ := Option.isSome_iff_exists.mp hrow
  have hmem := DB.mem_of_row hr
  have hkey := DB.address_of_row hr
  obtain ⟨e, hlast, hf⟩ := hok.faithful r hmem
  obtain ⟨e', hquery, hraw, hbytes, hseeding, hverify⟩ := hf.query hok.wf hmem hkey.symm
  obtain ⟨t, ht, -⟩ := Table.insertIntoTable_spec hok.placed.ok hok.own e'.address hraw
  refine ⟨{ s.ndb with table := t }, e', r.id, e, ?_, hverify, by rw [← hkey]; exact hlast, hbytes,
    hseeding⟩
  simp only [NetDB.query, hquery, NetDB.insertIntoTable_eq ht]

/-- A peer, and a second one that is seeding the first. -/
theorem run_serves_two :
    let calls := [StoreCall.insert (sampleEntry 1 1 7),
      .insert (sampleEntry 2 2 7 [(sampleAddress 1).raw])]
    ∃ ndb' e' id e,
      (run (Ledger.call .sample) (Ledger.new (sampleAddress 0)) calls).ndb.query .sample
        (sampleAddress 2) = (ndb', .ok (some (e', id))) ∧ e'.verify .sample = .ok () ∧
      (run (Ledger.call .sample) (Ledger.new (sampleAddress 0)) calls).last
        (Prims.sample.store ((sampleAddress 2).string .sample)) = some e ∧
      e'.bytes .sample = e.bytes .sample ∧ e'.seeding.flatten = e.seeding.flatten := by
  intro calls
  have hreads : ∀ k s, ReadsBack .sample (sampleEntry k k 7 s) := fun k s =>
    ⟨⟨(sampleAddress k).raw, by rfl, by rfl⟩, rfl, rfl, rfl⟩
  refine run_serves .sample (sampleAddress 0) (by rfl) calls ?_ (sampleAddress 2) (by decide +kernel)
  refine .cons ?_ (.cons ?_ always_nil)
  · refine fun _ _ => ⟨hreads 1 [], ?_⟩
    have hrow : (Ledger.new (sampleAddress 0)).ndb.db.row
      (Prims.sample.store ((sampleEntry 1 1 7).address.string .sample)) = none := by decide +kernel
    rw [SeedingFits, hrow]
    decide +kernel
  · refine fun _ _ => ⟨hreads 2 [(sampleAddress 1).raw], ?_⟩
    have hrow : ((Ledger.new (sampleAddress 0)).call .sample
      (.insert (sampleEntry 1 1 7))).ndb.db.row (Prims.sample.store
        ((sampleEntry 2 2 7 [(sampleAddress 1).raw]).address.string .sample)) = none := by
      decide +kernel
    rw [SeedingFits, hrow]
    decide +kernel

/-- Two ways in which an accepted entry is served so that it no longer verifies: it is seeding a peer
that is not known, or another peer lists it as a seed. -/
theorem served_entry_fails_verify :
    let served calls a := (((run (Ledger.call .sample) (Ledger.new (sampleAddress 0)) calls).ndb.query
      .sample a).2.map (Option.map fun p => p.1.verify .sample))
    let unknown := sampleEntry 1 1 7 [(sampleAddress 3).raw]
    let other := { sampleEntry 2 2 7 with seeds := [(sampleAddress 1).raw] }
    unknown.verify .sample = .ok () ∧ (sampleEntry 1 1 7).verify .sample = .ok () ∧
      other.verify .sample = .ok () ∧
      served [.insert unknown] (sampleAddress 1) =
        .ok (some (.error (.error "Failed to verify signature"))) ∧
      served [.insert (sampleEntry 1 1 7), .insert other] (sampleAddress 1) =
        .ok (some (.error (.error "Failed to verify signature"))) := by
  intro served unknown other
  refine ⟨verify_sampleEntry 1 1 7 [(sampleAddress 3).raw], verify_sampleEntry 1 1 7 [], ?_, ?_⟩
  · exact Entry.verify_withSeeds (e := sampleEntry 2 2 7) (by decide) (verify_sampleEntry 2 2 7 [])
  · decide +kernel

end Zif.Dht
