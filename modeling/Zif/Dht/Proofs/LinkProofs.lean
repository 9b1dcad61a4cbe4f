import Zif.Dht.Serving
import Zif.Dht.Proofs.AddressProofs
import Zif.Dht.Proofs.StoreProofs

/-!
# Proofs: the links between rows

A row of the table `seed` is a link from the id of a seed to the id of the entry it is a seed for. The
loops of `insertEntrySeeds` add the links whose two addresses have rows, up to the first that has not
(`insertSeeds_links`). `Wf` is what holds of the tables in every state that only canonical addresses
were stored in.
-/

namespace Zif.Dht

open Go

variable {P : Prims}

namespace DB

variable {db : DB} {e : Entry}

/-! ## The links -/

/-- The links, as pairs of ids. -/
def links (db : DB) : List (Nat × Nat) := db.seeds.map fun s => (s.seed, s.seedFor)

/-- Adds a link that is not there yet. -/
def addLink (ls : List (Nat × Nat)) (l : Nat × Nat) : List (Nat × Nat) :=
  if l ∈ ls then ls else ls ++ [l]

theorem mem_links {a b : Nat} :
    (a, b) ∈ db.links ↔ ∃ s ∈ db.seeds, s.seed = a ∧ s.seedFor = b := by
  simp [links]

theorem links_addSeedRow (a b : Nat) : (db.addSeedRow a b).links = addLink db.links (a, b) := by
  have hmem : (db.seeds.any fun s => s.seed = a ∧ s.seedFor = b) = true ↔ (a, b) ∈ db.links := by
    rw [mem_links, List.any_eq_true]
    simp
  unfold addSeedRow addLink
  by_cases h : (a, b) ∈ db.links
  · rw [if_pos (hmem.mpr h), if_pos h]
  · rw [if_neg (fun h' => h (hmem.mp h')), if_neg h]
    simp [links]

theorem selectSeeds_eq (id : Nat) : db.selectSeeds id =
    (db.links.filter fun l => l.2 = id).flatMap fun l =>
      (db.entries.filter fun r => r.id = l.1).map EntryRow.address := by
  rw [selectSeeds, links, List.filter_map, List.flatMap_map]
  rfl

theorem selectSeeding_eq (id : Nat) : db.selectSeeding id =
    db.entries.flatMap fun r =>
      (db.links.filter fun l => l.1 = id ∧ l.2 = r.id).map fun _ => r.address := by
  unfold selectSeeding
  congr 1
  funext r
  rw [links, List.filter_map, List.map_map]
  rfl

theorem foldl_addLink_new {ls xs : List (Nat × Nat)} (hnodup : xs.Nodup) (hnew : xs.Disjoint ls) :
    xs.foldl addLink ls = ls ++ xs := by
  induction xs generalizing ls with
  | nil => simp
  | cons x xs ih =>
    obtain ⟨hx, hnodup⟩ := List.nodup_cons.mp hnodup
    rw [List.disjoint_cons_left] at hnew
    rw [List.foldl_cons, addLink, if_neg hnew.1, ih hnodup ?_, List.append_assoc]
    · rfl
    · rw [List.disjoint_append_right]
      exact ⟨hnew.2, by simpa using hx⟩

theorem foldl_addLink_known {ls xs : List (Nat × Nat)} (h : ∀ x ∈ xs, x ∈ ls) :
    xs.foldl addLink ls = ls := by
  induction xs with
  | nil => rfl
  | cons x xs ih =>
    rw [List.foldl_cons, addLink, if_pos (h x (by simp))]
    exact ih fun y hy => h y (List.mem_cons_of_mem x hy)

/-! ## Which links the loops add -/

/-- The link for an entry and its seed, if both have a row. -/
def resolve (P : Prims) (db : DB) (p : Address × Address) : Option (Nat × Nat) :=
  match db.row (P.store (p.1.string P)), db.row (P.store (p.2.string P)) with
  | some r, some r' => some (r'.id, r.id)
  | _, _ => none

/-- The links up to the first pair without one. -/
def resolved (P : Prims) (db : DB) : List (Address × Address) → List (Nat × Nat)
  | [] => []
  | p :: ps =>
    match resolve P db p with
    | some l => l :: resolved P db ps
    | none => []

theorem insertSeed_eq (a s : Address) :
    db.insertSeed P a s = match resolve P db (a, s) with
      | some l => .ok (db.addSeedRow l.1 l.2)
      | none => .error (.error "sql: no rows in result set") := by
  unfold insertSeed queryIdByAddress resolve
  cases db.row (P.store (a.string P)) with
  | none => rfl
  | some r =>
    cases db.row (P.store (s.string P)) with
    | none => rfl
    | some r' => rfl

theorem addSeedRow_entries (a b : Nat) : (db.addSeedRow a b).entries = db.entries := by
  unfold addSeedRow
  split <;> rfl

theorem resolved_of_entries_eq {db' : DB} (h : db'.entries = db.entries)
    (ps : List (Address × Address)) : resolved P db' ps = resolved P db ps := by
  induction ps with
  | nil => rfl
  | cons p ps ih =>
    have hres : resolve P db' p = resolve P db p := by
      unfold resolve
      rw [row_of_entries_eq h, row_of_entries_eq h]
    rw [resolved, resolved, hres, ih]

theorem insertSeeds_links (ps : List (Address × Address)) :
    (db.insertSeeds P ps).1.links = (resolved P db ps).foldl addLink db.links := by
  induction ps generalizing db with
  | nil => rfl
  | cons p ps ih =>
    obtain ⟨a, s⟩ := p
    rw [insertSeeds, resolved, insertSeed_eq]
    cases resolve P db (a, s) with
    | none => rfl
    | some l =>
      simp only
      rw [ih, resolved_of_entries_eq (addSeedRow_entries l.1 l.2), links_addSeedRow]
      rfl

theorem resolved_append {xs ys : List (Address × Address)} {ls : List (Nat × Nat)}
    (h : xs.map (resolve P db) = ls.map some) :
    resolved P db (xs ++ ys) = ls ++ resolved P db ys := by
  induction xs generalizing ls with
  | nil =>
    cases ls with
    | nil => rfl
    | cons l ls => simp at h
  | cons x xs ih =>
    cases ls with
    | nil => simp at h
    | cons l ls =>
      rw [List.map_cons, List.map_cons, List.cons.injEq] at h
      rw [List.cons_append, resolved, h.1, List.cons_append, ih h.2]

/-! ## The tables in order -/

theorem lt_nextId {ids : List Nat} {i : Nat} (hi : i ∈ ids) : i < nextId ids := by
  have hmono : ∀ (l : List Nat) (a : Nat), a ≤ l.foldl max a := by
    intro l
    induction l with
    | nil => exact fun a => Nat.le_refl a
    | cons x l ih => exact fun a => (Nat.le_max_left a x).trans (ih (max a x))
  have hle : ∀ (l : List Nat) (a : Nat), i ∈ l → i ≤ l.foldl max a := by
    intro l
    induction l with
    | nil => simp
    | cons x l ih =>
      intro a h
      rcases List.mem_cons.mp h with rfl | h
      · exact (Nat.le_max_right a i).trans (hmono l _)
      · exact ih (max a x) h
  exact Nat.lt_succ_of_le (hle ids 0 hi)

/-- The tables in a state that only canonical addresses were stored in. -/
structure Wf (P : Prims) (db : DB) : Prop where
  ids : (db.entries.map EntryRow.id).Nodup
  canonical : ∀ r ∈ db.entries, ∃ raw : Bytes, raw.length = 20 ∧
    r.address = .text (Address.encodeRaw P raw)
  addresses : (db.entries.map EntryRow.address).Nodup
  links : ∀ l ∈ db.links, l.1 ∈ db.entries.map EntryRow.id ∧ l.2 ∈ db.entries.map EntryRow.id

theorem rawAddress_text (raw : Bytes) : rawAddress (.text (Address.encodeRaw P raw)) = raw := by
  rw [rawAddress, Cell.load, Address.decodeAddress_encodeRaw]

theorem store_eq_text {s t : Bytes} (h : P.store s = .text t) : s = t := by
  unfold Prims.store at h
  split at h
  · simp at h
  · injection h

/-- A row is found under its address. -/
theorem Wf.row_self (hwf : Wf P db) {r : EntryRow} (hr : r ∈ db.entries) :
    db.row r.address = some r := by
  have hsome : (db.row r.address).isSome := by
    rw [row, List.find?_isSome]
    exact ⟨r, hr, by simp⟩
  obtain ⟨r', hr'⟩ := Option.isSome_iff_exists.mp hsome
  rw [hr', Option.some.injEq]
  exact List.inj_on_of_nodup_map hwf.addresses (mem_of_row hr') hr (address_of_row hr')

theorem Wf.address_eq (hwf : Wf P db) {r : EntryRow} (hr : r ∈ db.entries) :
    r.address = P.store (Address.encodeRaw P (rawAddress r.address)) := by
  obtain ⟨raw, hlen, haddr⟩ := hwf.canonical r hr
  rw [haddr, rawAddress_text, Address.store_encodeRaw P hlen]

theorem Wf.store_rawAddress (hwf : Wf P db) {r : EntryRow} (hr : r ∈ db.entries) :
    P.store (({ raw := rawAddress r.address } : Address).string P) = r.address := by
  rw [Address.string_of_encoded_nil]
  exact (hwf.address_eq hr).symm

/-- Looking up a binary address finds its row. -/
theorem Wf.row_of_raw (hwf : Wf P db) {r : EntryRow} (hr : r ∈ db.entries) :
    db.row (P.store (({ raw := rawAddress r.address } : Address).string P)) = some r := by
  rw [hwf.store_rawAddress hr]
  exact hwf.row_self hr

/-- A binary address without a row is not found. -/
theorem Wf.row_of_not_known (hwf : Wf P db) {i : Bytes} (hi : i ∉ db.known) :
    db.row (P.store (({ raw := i } : Address).string P)) = none := by
  rw [row_eq_none, Address.string_of_encoded_nil]
  intro r hr haddr
  obtain ⟨raw, -, htext⟩ := hwf.canonical r hr
  rw [htext] at haddr
  have hraw := Address.encodeRaw_injective P (store_eq_text haddr.symm)
  apply hi
  rw [hraw]
  exact List.mem_map.mpr ⟨r, hr, by rw [htext, rawAddress_text]⟩

theorem Wf.nodup_known (hwf : Wf P db) : db.known.Nodup := by
  refine (List.nodup_map_iff_inj_on hwf.ids.of_map).mpr fun r hr r' hr' h => ?_
  refine List.inj_on_of_nodup_map hwf.addresses hr hr' ?_
  rw [hwf.address_eq hr, hwf.address_eq hr', h]

/-- The addresses of rows can be decoded. -/
theorem Wf.decodeAddresses_eq (hwf : Wf P db) (cells : List Cell)
    (hcells : ∀ c ∈ cells, ∃ r ∈ db.entries, r.address = c) :
    ∃ as, decodeAddresses cells = .ok as ∧ as.map Address.raw = cells.map rawAddress := by
  induction cells with
  | nil => exact ⟨[], rfl, rfl⟩
  | cons c cells ih =>
    obtain ⟨as, has, hraws⟩ := ih fun c hc => hcells c (List.mem_cons_of_mem _ hc)
    obtain ⟨r, hr, rfl⟩ := hcells c (by simp)
    obtain ⟨raw, -, haddr⟩ := hwf.canonical r hr
    refine ⟨{ raw } :: as, ?_, ?_⟩
    · unfold decodeAddresses at has ⊢
      rw [List.mapM_cons, has, haddr, Cell.load, Address.decodeAddress_encodeRaw]
      rfl
    · rw [List.map_cons, List.map_cons, hraws, haddr, rawAddress_text]

theorem mem_selectSeeds {id : Nat} {c : Cell} :
    c ∈ db.selectSeeds id ↔ ∃ r ∈ db.entries, r.address = c ∧ (r.id, id) ∈ db.links := by
  rw [selectSeeds_eq, List.mem_flatMap]
  constructor
  · rintro ⟨⟨s, f⟩, hl, hc⟩
    obtain ⟨r, hr, rfl⟩ := List.mem_map.mp hc
    obtain ⟨hr, hid⟩ := List.mem_filter.mp hr
    obtain ⟨hl, hf⟩ := List.mem_filter.mp hl
    simp only [decide_eq_true_eq] at hid hf
    exact ⟨r, hr, rfl, by rwa [hid, ← hf]⟩
  · rintro ⟨r, hr, rfl, hl⟩
    exact ⟨(r.id, id), List.mem_filter.mpr ⟨hl, by simp⟩,
      List.mem_map_of_mem (List.mem_filter.mpr ⟨hr, by simp⟩)⟩

theorem mem_selectSeeding {id : Nat} {c : Cell} :
    c ∈ db.selectSeeding id ↔ ∃ r ∈ db.entries, r.address = c ∧ (id, r.id) ∈ db.links := by
  rw [selectSeeding_eq, List.mem_flatMap]
  constructor
  · rintro ⟨r, hr, hc⟩
    obtain ⟨⟨s, f⟩, hl, rfl⟩ := List.mem_map.mp hc
    obtain ⟨hl, hsf⟩ := List.mem_filter.mp hl
    simp only [decide_eq_true_eq] at hsf
    exact ⟨r, hr, rfl, by rwa [← hsf.1, ← hsf.2]⟩
  · rintro ⟨r, hr, rfl, hl⟩
    exact ⟨r, hr, List.mem_map.mpr ⟨(id, r.id), List.mem_filter.mpr ⟨hl, by simp⟩, rfl⟩⟩

/-! ## The tables after a write -/

/-- What the columns of `UPDATE` do not decide stays as it is. -/
theorem map_overwrite {α : Type} (f : EntryRow → α) (hf : ∀ r, f (setColumns P r e) = f r) :
    (db.overwrite P e).entries.map f = db.entries.map f := by
  rw [overwrite, List.map_map]
  refine List.map_congr_left fun r _ => ?_
  simp only [Function.comp]
  split
  · exact hf r
  · rfl

/-- Nothing that is looked up by id changes. -/
theorem Wf.overwrite (hwf : Wf P db) : Wf P (db.overwrite P e) := by
  have hid : (db.overwrite P e).entries.map EntryRow.id = db.entries.map EntryRow.id :=
    map_overwrite EntryRow.id fun _ => rfl
  have haddr : (db.overwrite P e).entries.map EntryRow.address = db.entries.map EntryRow.address :=
    map_overwrite EntryRow.address fun _ => rfl
  refine ⟨by rw [hid]; exact hwf.ids, fun r hr => ?_, by rw [haddr]; exact hwf.addresses, ?_⟩
  · have hmem : r.address ∈ db.entries.map EntryRow.address := haddr ▸ List.mem_map_of_mem hr
    obtain ⟨r₀, hr₀, h⟩ := List.mem_map.mp hmem
    rw [← h]
    exact hwf.canonical r₀ hr₀
  · intro l hl
    rw [hid]
    exact hwf.links l hl

theorem mem_foldl_addLink {ls xs : List (Nat × Nat)} {l : Nat × Nat} :
    l ∈ xs.foldl addLink ls ↔ l ∈ ls ∨ l ∈ xs := by
  induction xs generalizing ls with
  | nil => simp
  | cons x xs ih =>
    have hadd : l ∈ addLink ls x ↔ l ∈ ls ∨ l = x := by
      unfold addLink
      split
      · constructor
        · exact Or.inl
        · rintro (h | rfl)
          · exact h
          · assumption
      · simp
    rw [List.foldl_cons, ih, hadd, List.mem_cons, or_assoc]

theorem mem_links_insertSeeds {ps : List (Address × Address)} {l : Nat × Nat} :
    l ∈ (db.insertSeeds P ps).1.links ↔ l ∈ db.links ∨ l ∈ resolved P db ps := by
  rw [insertSeeds_links, mem_foldl_addLink]

/-- A link is made between two rows. -/
theorem ids_of_mem_resolved {ps : List (Address × Address)} {l : Nat × Nat}
    (h : l ∈ resolved P db ps) :
    l.1 ∈ db.entries.map EntryRow.id ∧ l.2 ∈ db.entries.map EntryRow.id := by
  induction ps with
  | nil => simp [resolved] at h
  | cons p ps ih =>
    rw [resolved] at h
    cases hres : resolve P db p with
    | none => simp [hres] at h
    | some l' =>
      rw [hres, List.mem_cons] at h
      rcases h with rfl | h
      · unfold resolve at hres
        split at hres
        · rename_i hr hr'
          injection hres with hres
          rw [← hres]
          exact ⟨List.mem_map_of_mem (mem_of_row hr'), List.mem_map_of_mem (mem_of_row hr)⟩
        · cases hres
      · exact ih h

theorem Wf.insertSeeds (hwf : Wf P db) (ps : List (Address × Address)) :
    Wf P (db.insertSeeds P ps).1 := by
  have hentries : (db.insertSeeds P ps).1.entries = db.entries := insertSeeds_entries ps
  refine ⟨by rw [hentries]; exact hwf.ids, by rw [hentries]; exact hwf.canonical,
    by rw [hentries]; exact hwf.addresses, fun l hl => ?_⟩
  rw [hentries]
  rcases mem_links_insertSeeds.mp hl with hold | hnew
  · exact hwf.links l hold
  · exact ids_of_mem_resolved hnew

/-- The id `insertIntoDB` gives to the row it adds. -/
def freshId (db : DB) : Nat := nextId (db.entries.map EntryRow.id)

/-- The row `insertIntoDB` adds. -/
def freshRow (P : Prims) (db : DB) (e : Entry) : EntryRow :=
  newRow P db.freshId (P.store (e.address.string P)) e

theorem entries_extend : (db.extend P e).entries = db.entries ++ [db.freshRow P e] := rfl

theorem links_extend : (db.extend P e).links = db.links := rfl

theorem freshId_not_mem : db.freshId ∉ db.entries.map EntryRow.id :=
  fun h => Nat.lt_irrefl _ (lt_nextId h)

theorem Wf.extend (hwf : Wf P db)
    (haddr : ∃ raw : Bytes, raw.length = 20 ∧ e.address.string P = Address.encodeRaw P raw)
    (hrow : db.row (P.store (e.address.string P)) = none) : Wf P (db.extend P e) := by
  rw [row_eq_none] at hrow
  refine ⟨?_, fun r hr => ?_, ?_, fun l hl => ?_⟩
  · rw [entries_extend, List.map_append, List.nodup_append']
    refine ⟨hwf.ids, by simp, fun i hi hi' => ?_⟩
    have hfresh : i = db.freshId := List.mem_singleton.mp hi'
    exact freshId_not_mem (hfresh ▸ hi)
  · rw [entries_extend, List.mem_append, List.mem_singleton] at hr
    rcases hr with hr | rfl
    · exact hwf.canonical r hr
    · obtain ⟨raw, hraw, hstring⟩ := haddr
      refine ⟨raw, hraw, ?_⟩
      show P.store (e.address.string P) = _
      rw [hstring, Address.store_encodeRaw P hraw]
  · rw [entries_extend, List.map_append, List.nodup_append']
    refine ⟨hwf.addresses, by simp, ?_⟩
    intro c hc hc'
    obtain ⟨r, hr, rfl⟩ := List.mem_map.mp hc
    simp only [List.map_cons, List.map_nil, List.mem_singleton] at hc'
    exact hrow r hr hc'
  · rw [entries_extend, List.map_append, List.mem_append, List.mem_append]
    exact ⟨Or.inl (hwf.links l hl).1, Or.inl (hwf.links l hl).2⟩

theorem known_extend :
    (db.extend P e).known = db.known ++ [rawAddress (P.store (e.address.string P))] := by
  rw [known, entries_extend, List.map_append]
  rfl

/-- The text form of a binary address of a row is found, and no other. -/
theorem Wf.row_iff (hwf : Wf P db) (raw : Bytes) :
    (∃ r, db.row (P.store (Address.encodeRaw P raw)) = some r) ↔ raw ∈ db.known := by
  constructor
  · rintro ⟨r, hr⟩
    by_contra hraw
    have hnone := hwf.row_of_not_known hraw
    rw [Address.string_of_encoded_nil, hr] at hnone
    cases hnone
  · intro hraw
    obtain ⟨r, hr, rfl⟩ := List.mem_map.mp hraw
    have hrow := hwf.row_of_raw hr
    rw [Address.string_of_encoded_nil] at hrow
    exact ⟨r, hrow⟩

theorem known_overwrite : (db.overwrite P e).known = db.known :=
  map_overwrite (fun r => rawAddress r.address) fun _ => rfl

section Put

variable (hcan : e.address.Canonical P) (hraw : e.address.raw.length = 20)

include hcan hraw

theorem rawAddress_store : rawAddress (P.store (e.address.string P)) = e.address.raw := by
  rw [Address.canonical_iff.mp hcan, Address.store_encodeRaw P hraw, rawAddress_text]

theorem Wf.put (hwf : Wf P db) : Wf P (db.put P e) := by
  unfold DB.put
  split
  · exact hwf
  · split
    · exact hwf.overwrite
    · rename_i hrow
      exact (hwf.extend ⟨_, hraw, Address.canonical_iff.mp hcan⟩ hrow).insertSeeds _

/-- An entry that is accepted is known from then on. -/
theorem Wf.known_put (hwf : Wf P db) (he : driverAccepts e.updated = true) :
    (db.put P e).known =
      if e.address.raw ∈ db.known then db.known else db.known ++ [e.address.raw] := by
  have hiff := hwf.row_iff e.address.raw
  rw [← Address.canonical_iff.mp hcan] at hiff
  unfold DB.put
  rw [if_neg (by simp [he])]
  cases hrow : db.row (P.store (e.address.string P)) with
  | some r =>
    rw [if_pos (hiff.mp ⟨r, hrow⟩), known_overwrite]
  | none =>
    rw [if_neg fun h => by obtain ⟨r, hr⟩ := hiff.mpr h; rw [hrow] at hr; cases hr]
    show (insertEntrySeeds P (db.extend P e) e).1.known = _
    rw [known, insertEntrySeeds_entries]
    exact known_extend.trans (by rw [rawAddress_store hcan hraw])

end Put

/-- A row that is found is read back with its address and its links. -/
theorem Wf.query (hwf : Wf P db) {r : EntryRow} (hr : r ∈ db.entries) {a : Address}
    (ha : P.store (a.string P) = r.address) :
    ∃ seeds seeding, db.querySeeds r.id = .ok seeds ∧ db.querySeeding r.id = .ok seeding ∧
      seeds.map Address.raw = (db.selectSeeds r.id).map rawAddress ∧
      seeding.map Address.raw = (db.selectSeeding r.id).map rawAddress ∧
      db.query P a = .ok (some (readRow r { raw := rawAddress r.address } seeds seeding, r.id)) := by
  obtain ⟨seeds, hseeds, hseedsraw⟩ := hwf.decodeAddresses_eq
    (db.selectSeeds r.id) fun c hc => by
      obtain ⟨r', hr', haddr, -⟩ := mem_selectSeeds.mp hc
      exact ⟨r', hr', haddr⟩
  obtain ⟨seeding, hseeding, hseedingraw⟩ := hwf.decodeAddresses_eq
    (db.selectSeeding r.id) fun c hc => by
      obtain ⟨r', hr', haddr, -⟩ := mem_selectSeeding.mp hc
      exact ⟨r', hr', haddr⟩
  obtain ⟨raw, -, haddr⟩ := hwf.canonical r hr
  have hdecode : Address.decodeAddress r.address.load = .ok { raw := rawAddress r.address } := by
    rw [haddr, rawAddress_text]
    exact Address.decodeAddress_encodeRaw P raw
  exact ⟨seeds, seeding, hseeds, hseeding, hseedsraw, hseedingraw,
    query_of_row (by rw [ha]; exact hwf.row_self hr) hdecode hseeds hseeding⟩

end DB

end Zif.Dht
