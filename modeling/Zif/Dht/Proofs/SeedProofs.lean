import Zif.Dht.Proofs.DiscoveryProofs
import Zif.Lib.Proofs.ArrivalProofs

/-!
# Proofs: seeds

The rows of the table `seed` as a relation between addresses, `Linked`. It is what `QuerySeeds` and
`QuerySeeding` list, and the loops of `insertEntrySeeds` add to it the links that are admitted between
the addresses with a row.
-/

namespace Zif.Dht

open Go Arrival

variable {P : Prims}

namespace DB

variable {db : DB} {e : Entry} {raw s f : Bytes} {ps : List (Address × Address)}

/-! ## Links between addresses -/

/-- The id of the row of a binary address. -/
def idOf (P : Prims) (db : DB) (raw : Bytes) : Nat :=
  match db.row (P.store (Address.encodeRaw P raw)) with
  | some r => r.id
  | none => 0

/-- The row of `s` is linked as a seed to the row of `f`. -/
def Linked (P : Prims) (db : DB) (s f : Bytes) : Prop :=
  s ∈ db.known ∧ f ∈ db.known ∧ (db.idOf P s, db.idOf P f) ∈ db.links

theorem Wf.idOf_rawAddress (hwf : Wf P db) {r : EntryRow} (hr : r ∈ db.entries) :
    db.idOf P (rawAddress r.address) = r.id := by
  have hrow := hwf.row_of_raw hr
  rw [Address.string_of_encoded_nil] at hrow
  rw [idOf, hrow]

theorem Wf.idOf_inj (hwf : Wf P db) (hs : s ∈ db.known) (hf : f ∈ db.known)
    (h : db.idOf P s = db.idOf P f) : s = f := by
  obtain ⟨r, hr, rfl⟩ := List.mem_map.mp hs
  obtain ⟨r', hr', rfl⟩ := List.mem_map.mp hf
  rw [hwf.idOf_rawAddress hr, hwf.idOf_rawAddress hr'] at h
  rw [List.inj_on_of_nodup_map hwf.ids hr hr' h]

theorem Wf.linked_iff (hwf : Wf P db) : Linked P db s f ↔
    ∃ r ∈ db.entries, ∃ r' ∈ db.entries,
      rawAddress r.address = s ∧ rawAddress r'.address = f ∧ (r.id, r'.id) ∈ db.links := by
  constructor
  · rintro ⟨hs, hf, hlink⟩
    obtain ⟨r, hr, rfl⟩ := List.mem_map.mp hs
    obtain ⟨r', hr', rfl⟩ := List.mem_map.mp hf
    rw [hwf.idOf_rawAddress hr, hwf.idOf_rawAddress hr'] at hlink
    exact ⟨r, hr, r', hr', rfl, rfl, hlink⟩
  · rintro ⟨r, hr, r', hr', rfl, rfl, hlink⟩
    refine ⟨List.mem_map_of_mem hr, List.mem_map_of_mem hr', ?_⟩
    rwa [hwf.idOf_rawAddress hr, hwf.idOf_rawAddress hr']

/-- The seeds of a row are the addresses linked to its own. -/
theorem Wf.querySeeds (hwf : Wf P db) {r : EntryRow} (hr : r ∈ db.entries) :
    ∃ as, db.querySeeds r.id = .ok as ∧
      ∀ raw, raw ∈ as.map Address.raw ↔ Linked P db raw (rawAddress r.address) := by
  obtain ⟨as, -, has, -, hraws, -⟩ := hwf.query hr (hwf.store_rawAddress hr)
  refine ⟨as, has, fun raw => ?_⟩
  rw [hraws, hwf.linked_iff, List.mem_map]
  constructor
  · rintro ⟨c, hc, rfl⟩
    obtain ⟨r', hr', rfl, hlink⟩ := mem_selectSeeds.mp hc
    exact ⟨r', hr', r, hr, rfl, rfl, hlink⟩
  · rintro ⟨r', hr', r₀, hr₀, rfl, haddr, hlink⟩
    rw [List.inj_on_of_nodup_map hwf.nodup_known hr₀ hr haddr] at hlink
    exact ⟨r'.address, mem_selectSeeds.mpr ⟨r', hr', rfl, hlink⟩, rfl⟩

theorem Wf.querySeeding (hwf : Wf P db) {r : EntryRow} (hr : r ∈ db.entries) :
    ∃ as, db.querySeeding r.id = .ok as ∧
      ∀ raw, raw ∈ as.map Address.raw ↔ Linked P db (rawAddress r.address) raw := by
  obtain ⟨-, as, -, has, -, hraws, -⟩ := hwf.query hr (hwf.store_rawAddress hr)
  refine ⟨as, has, fun raw => ?_⟩
  rw [hraws, hwf.linked_iff, List.mem_map]
  constructor
  · rintro ⟨c, hc, rfl⟩
    obtain ⟨r', hr', rfl, hlink⟩ := mem_selectSeeding.mp hc
    exact ⟨r, hr, r', hr', rfl, rfl, hlink⟩
  · rintro ⟨r₀, hr₀, r', hr', haddr, rfl, hlink⟩
    rw [List.inj_on_of_nodup_map hwf.nodup_known hr₀ hr haddr] at hlink
    exact ⟨r'.address, mem_selectSeeding.mpr ⟨r', hr', rfl, hlink⟩, rfl⟩

/-! ## Links that are registered -/

/-- The pairs of an entry and its seed that `insertEntrySeeds` goes through. -/
def entryPairs (e : Entry) : List (Address × Address) :=
  e.seeding.map (fun i => ({ raw := i }, e.address)) ++ e.seeds.map fun i => (e.address, { raw := i })

theorem insertEntrySeeds_eq (db : DB) (e : Entry) :
    db.insertEntrySeeds P e = db.insertSeeds P (entryPairs e) := rfl

theorem canonical_entryPairs (hcan : e.address.Canonical P) :
    ∀ p ∈ entryPairs e, p.1.Canonical P ∧ p.2.Canonical P := by
  intro p hp
  rcases List.mem_append.mp hp with hp | hp
  · obtain ⟨i, -, rfl⟩ := List.mem_map.mp hp
    exact ⟨.inl rfl, hcan⟩
  · obtain ⟨i, -, rfl⟩ := List.mem_map.mp hp
    exact ⟨hcan, .inl rfl⟩

/-- The binary addresses of a pair of an entry and its seed, the seed first. -/
def rawPair (p : Address × Address) : Bytes × Bytes := (p.2.raw, p.1.raw)

theorem map_rawPair_entryPairs (e : Entry) : (entryPairs e).map rawPair = e.links := by
  rw [entryPairs, List.map_append, List.map_map, List.map_map]
  rfl

theorem Wf.resolve_eq (hwf : Wf P db) {p : Address × Address} (h1 : p.1.Canonical P)
    (h2 : p.2.Canonical P) : resolve P db p =
      if p.2.raw ∈ db.known ∧ p.1.raw ∈ db.known then some (db.idOf P p.2.raw, db.idOf P p.1.raw)
      else none := by
  have hiff1 := hwf.row_iff p.1.raw
  have hiff2 := hwf.row_iff p.2.raw
  unfold resolve idOf
  rw [Address.canonical_iff.mp h1, Address.canonical_iff.mp h2]
  cases hr1 : db.row (P.store (Address.encodeRaw P p.1.raw)) with
  | none =>
    simp only [hr1, reduceCtorEq, exists_false, false_iff] at hiff1
    rw [if_neg fun h => hiff1 h.2]
  | some r =>
    have hmem1 := hiff1.mp ⟨r, hr1⟩
    cases hr2 : db.row (P.store (Address.encodeRaw P p.2.raw)) with
    | none =>
      simp only [hr2, reduceCtorEq, exists_false, false_iff] at hiff2
      rw [if_neg fun h => hiff2 h.1]
    | some r' => rw [if_pos ⟨hiff2.mp ⟨r', hr2⟩, hmem1⟩]

/-- The links the loops add are those that are admitted between known addresses. -/
theorem Wf.resolved_eq (hwf : Wf P db) (hps : ∀ p ∈ ps, p.1.Canonical P ∧ p.2.Canonical P) :
    resolved P db ps =
      (admitted db.known (ps.map rawPair)).map fun l => (db.idOf P l.1, db.idOf P l.2) := by
  induction ps with
  | nil => rfl
  | cons p ps ih =>
    have hp := hps p List.mem_cons_self
    have hrest := ih fun q hq => hps q (List.mem_cons_of_mem p hq)
    rw [resolved, hwf.resolve_eq hp.1 hp.2, List.map_cons, admitted_cons]
    by_cases hknown : p.2.raw ∈ db.known ∧ p.1.raw ∈ db.known
    · rw [if_pos hknown, if_pos (show (rawPair p).1 ∈ _ ∧ (rawPair p).2 ∈ _ from hknown),
        List.map_cons, ← hrest]
      rfl
    · rw [if_neg hknown, if_neg (show ¬((rawPair p).1 ∈ _ ∧ (rawPair p).2 ∈ _) from hknown)]
      rfl

theorem idOf_of_entries_eq {db' : DB} (h : db'.entries = db.entries) : db'.idOf P = db.idOf P := by
  funext raw
  rw [idOf, idOf, row_of_entries_eq h]

theorem known_of_entries_eq {db' : DB} (h : db'.entries = db.entries) : db'.known = db.known := by
  rw [known, known, h]

theorem Wf.linked_insertSeeds (hwf : Wf P db) (hps : ∀ p ∈ ps, p.1.Canonical P ∧ p.2.Canonical P) :
    Linked P (db.insertSeeds P ps).1 s f ↔
      Linked P db s f ∨ (s, f) ∈ admitted db.known (ps.map rawPair) := by
  have hentries : (db.insertSeeds P ps).1.entries = db.entries := insertSeeds_entries ps
  have hnew : (s, f) ∈ admitted db.known (ps.map rawPair) ↔
      s ∈ db.known ∧ f ∈ db.known ∧ (db.idOf P s, db.idOf P f) ∈ resolved P db ps := by
    rw [hwf.resolved_eq hps, List.mem_map]
    constructor
    · intro hmem
      obtain ⟨hs, hf⟩ := mem_admitted_ends hmem
      exact ⟨hs, hf, (s, f), hmem, rfl⟩
    · rintro ⟨hs, hf, ⟨s', f'⟩, hmem, heq⟩
      obtain ⟨hs', hf'⟩ := mem_admitted_ends hmem
      injection heq with h1 h2
      rwa [← hwf.idOf_inj hs' hs h1, ← hwf.idOf_inj hf' hf h2]
  rw [hnew, Linked, Linked, known_of_entries_eq hentries, idOf_of_entries_eq hentries,
    mem_links_insertSeeds]
  tauto

theorem isSome_resolve_of_insertSeeds_ok (h : (db.insertSeeds P ps).2 = .ok ()) :
    ∀ p ∈ ps, (resolve P db p).isSome := by
  induction ps generalizing db with
  | nil => simp
  | cons p ps ih =>
    rw [insertSeeds, insertSeed_eq] at h
    cases hres : resolve P db p with
    | none =>
      rw [show ((p.1, p.2) : Address × Address) = p from rfl, hres] at h
      cases h
    | some l =>
      rw [show ((p.1, p.2) : Address × Address) = p from rfl, hres] at h
      intro q hq
      rcases List.mem_cons.mp hq with rfl | hq
      · rw [hres]
        rfl
      · have hrest := ih h q hq
        rwa [resolve, row_of_entries_eq (addSeedRow_entries l.1 l.2),
          row_of_entries_eq (addSeedRow_entries l.1 l.2)] at hrest

theorem insertSeeds_ne_panic (db : DB) (ps : List (Address × Address)) :
    (db.insertSeeds P ps).2 ≠ .error .panic := by
  induction ps generalizing db with
  | nil =>
    intro h
    cases h
  | cons p ps ih =>
    rw [insertSeeds, insertSeed_eq]
    cases resolve P db (p.1, p.2) with
    | none =>
      intro h
      cases h
    | some l => exact ih _

/-- Loops that end without a failure have made all links. -/
theorem Wf.linked_of_insertSeeds_ok (hwf : Wf P db)
    (hps : ∀ p ∈ ps, p.1.Canonical P ∧ p.2.Canonical P) (h : (db.insertSeeds P ps).2 = .ok ())
    {p : Address × Address} (hp : p ∈ ps) : Linked P (db.insertSeeds P ps).1 p.2.raw p.1.raw := by
  rw [hwf.linked_insertSeeds hps]
  have hknown : ∀ l ∈ ps.map rawPair, l.1 ∈ db.known ∧ l.2 ∈ db.known := by
    intro l hl
    obtain ⟨q, hq, rfl⟩ := List.mem_map.mp hl
    have hsome := isSome_resolve_of_insertSeeds_ok h q hq
    rw [hwf.resolve_eq (hps q hq).1 (hps q hq).2] at hsome
    by_contra hno
    rw [if_neg (show ¬(q.2.raw ∈ db.known ∧ q.1.raw ∈ db.known) from hno)] at hsome
    cases hsome
  exact .inr ((prefix_admitted (List.prefix_refl _) hknown).subset (List.mem_map_of_mem hp))

/-! ## A row that is added or changed -/

/-- Overwriting a row leaves the links as they are. -/
theorem linked_overwrite : Linked P (db.overwrite P e) s f ↔ Linked P db s f := by
  have hid : (db.overwrite P e).idOf P = db.idOf P := by
    funext raw
    unfold idOf
    rw [row_overwrite]
    cases db.row (P.store (Address.encodeRaw P raw)) with
    | none => rfl
    | some r =>
      simp only [Option.map_some]
      split <;> rfl
  rw [Linked, Linked, known_overwrite, hid]
  rfl

section Extend

variable (hcan : e.address.Canonical P) (hraw : e.address.raw.length = 20)
  (hrow : db.row (P.store (e.address.string P)) = none)

include hcan hraw hrow

/-- A new row has no links, and those of the others stay. -/
theorem Wf.linked_extend (hwf : Wf P db) : Linked P (db.extend P e) s f ↔ Linked P db s f := by
  have hwf' := hwf.extend ⟨_, hraw, Address.canonical_iff.mp hcan⟩ hrow
  have hknown : (db.extend P e).known = db.known ++ [e.address.raw] := by
    rw [known_extend, rawAddress_store hcan hraw]
  have hold : ∀ raw ∈ db.known, (db.extend P e).idOf P raw = db.idOf P raw := by
    intro raw hmem
    obtain ⟨r, hr⟩ := (hwf.row_iff raw).mpr hmem
    rw [idOf, idOf, row_extend, hr]
    rfl
  have hfresh : (db.extend P e).idOf P e.address.raw = db.freshId := by
    have := hwf'.idOf_rawAddress (r := db.freshRow P e) (by simp [entries_extend])
    rwa [show (db.freshRow P e).address = P.store (e.address.string P) from rfl,
      rawAddress_store hcan hraw] at this
  unfold Linked
  rw [hknown, links_extend, List.mem_append, List.mem_append, List.mem_singleton, List.mem_singleton]
  constructor
  · rintro ⟨hs, hf, hlink⟩
    have hids := hwf.links _ hlink
    have hs' : s ∈ db.known := by
      rcases hs with hs | rfl
      · exact hs
      · rw [hfresh] at hids
        exact absurd hids.1 freshId_not_mem
    have hf' : f ∈ db.known := by
      rcases hf with hf | rfl
      · exact hf
      · rw [hfresh] at hids
        exact absurd hids.2 freshId_not_mem
    rw [hold s hs', hold f hf'] at hlink
    exact ⟨hs', hf', hlink⟩
  · rintro ⟨hs, hf, hlink⟩
    rw [hold s hs, hold f hf]
    exact ⟨.inl hs, .inl hf, hlink⟩

end Extend

end DB

/-! ## Asking for seeds -/

theorem SameAddresses.lists_iff {res res' : Result (List Address)} (h : SameAddresses res res')
    (raw : Bytes) : Lists res raw ↔ Lists res' raw := by
  cases res with
  | error f => exact h.elim
  | ok as =>
    cases res' with
    | error f => exact h.elim
    | ok as' => simpa [Lists] using h raw

namespace NetDB

variable {ndb : NetDB} {a : Address} {raw : Bytes}

/-- Nothing is listed for an address without a row, and the addresses related to the row otherwise. -/
theorem Kept.queryLinks (hk : Kept P ndb) {select : DB → Nat → Result (List Address)}
    {R : Bytes → Bytes → Prop}
    (hselect : ∀ r ∈ ndb.db.entries, ∃ as, select ndb.db r.id = .ok as ∧
      ∀ raw, raw ∈ as.map Address.raw ↔ R raw (rawAddress r.address)) (a : Address) :
    ∃ as, (ndb.queryLinks P select a).2 = .ok as ∧ ∀ raw, raw ∈ as.map Address.raw ↔
      (ndb.db.row (P.store (a.string P))).isSome ∧ R raw (rawAddress (P.store (a.string P))) := by
  rcases hk.query_cases a with ⟨hrow, hquery⟩ | ⟨r, hr, haddr, t, e, -, -, hquery⟩
  · exact ⟨[], by rw [NetDB.queryLinks, hquery], by simp [hrow]⟩
  · obtain ⟨as, has, hmem⟩ := hselect r hr
    refine ⟨as, by rw [NetDB.queryLinks, hquery]; exact has, fun raw => ?_⟩
    rw [hmem, ← haddr, hk.wf.row_self hr]
    simp

theorem Kept.querySeeds (hk : Kept P ndb) (a : Address) :
    ∃ as, (ndb.querySeeds P a).2 = .ok as ∧ ∀ raw, raw ∈ as.map Address.raw ↔
      (ndb.db.row (P.store (a.string P))).isSome ∧
        DB.Linked P ndb.db raw (rawAddress (P.store (a.string P))) :=
  hk.queryLinks (fun _ hr => hk.wf.querySeeds hr) a

theorem Kept.querySeeding (hk : Kept P ndb) (a : Address) :
    ∃ as, (ndb.querySeeding P a).2 = .ok as ∧ ∀ raw, raw ∈ as.map Address.raw ↔
      (ndb.db.row (P.store (a.string P))).isSome ∧
        DB.Linked P ndb.db (rawAddress (P.store (a.string P))) raw :=
  hk.queryLinks (R := fun raw own => DB.Linked P ndb.db own raw)
    (fun _ hr => hk.wf.querySeeding hr) a

/-- The address of a row is known by its text. -/
theorem Kept.rawAddress_store (hk : Kept P ndb) (ha : a.Canonical P) (hrow : ndb.db.Knows P a.raw) :
    (ndb.db.row (P.store (a.string P))).isSome ∧ rawAddress (P.store (a.string P)) = a.raw := by
  obtain ⟨r, hr⟩ := hrow
  obtain ⟨raw, -, htext⟩ := hk.wf.canonical r (DB.mem_of_row hr)
  have hstore := DB.address_of_row hr
  rw [htext] at hstore
  rw [Address.canonical_iff.mp ha, hr]
  refine ⟨rfl, ?_⟩
  rw [← hstore, DB.rawAddress_text]
  exact Address.encodeRaw_injective P (DB.store_eq_text hstore.symm).symm

/-- What is listed for the address of a row is what the row is related to. -/
theorem Kept.lists_iff (hk : Kept P ndb) (ha : a.Canonical P) (hrow : ndb.db.Knows P a.raw)
    {res : Result (List Address)} {R : Bytes → Bytes → Prop}
    (hres : ∃ as, res = .ok as ∧ ∀ raw, raw ∈ as.map Address.raw ↔
      (ndb.db.row (P.store (a.string P))).isSome ∧ R raw (rawAddress (P.store (a.string P))))
    (raw : Bytes) : Lists res raw ↔ R raw a.raw := by
  obtain ⟨hsome, haddr⟩ := hk.rawAddress_store ha hrow
  obtain ⟨as, rfl, hmem⟩ := hres
  rw [haddr] at hmem
  constructor
  · rintro ⟨as', heq, h⟩
    cases heq
    exact ((hmem raw).mp h).2
  · intro h
    exact ⟨as, rfl, (hmem raw).mpr ⟨hsome, h⟩⟩

theorem Kept.lists_querySeeds (hk : Kept P ndb) (ha : a.Canonical P) (hrow : ndb.db.Knows P a.raw)
    (raw : Bytes) : Lists (ndb.querySeeds P a).2 raw ↔ DB.Linked P ndb.db raw a.raw :=
  hk.lists_iff ha hrow (hk.querySeeds a) raw

theorem Kept.lists_querySeeding (hk : Kept P ndb) (ha : a.Canonical P) (hrow : ndb.db.Knows P a.raw)
    (raw : Bytes) : Lists (ndb.querySeeding P a).2 raw ↔ DB.Linked P ndb.db a.raw raw :=
  hk.lists_iff (R := fun raw own => DB.Linked P ndb.db own raw) ha hrow (hk.querySeeding a) raw

/-- The same addresses have rows, and the same rows are linked. -/
structure SameLinks (P : Prims) (ndb ndb' : NetDB) : Prop where
  rows : ∀ c, (ndb.db.row c).isSome = (ndb'.db.row c).isSome
  linked : ∀ s f, DB.Linked P ndb.db s f ↔ DB.Linked P ndb'.db s f

section SameLinks

variable {ndb' : NetDB} (hk : Kept P ndb) (hk' : Kept P ndb') (h : SameLinks P ndb ndb')

include hk hk' h

theorem SameLinks.querySeeds (a : Address) :
    SameAddresses (ndb.querySeeds P a).2 (ndb'.querySeeds P a).2 := by
  obtain ⟨as, has, hmem⟩ := hk.querySeeds a
  obtain ⟨as', has', hmem'⟩ := hk'.querySeeds a
  rw [has, has']
  intro raw
  rw [hmem, hmem', h.rows, h.linked]

theorem SameLinks.querySeeding (a : Address) :
    SameAddresses (ndb.querySeeding P a).2 (ndb'.querySeeding P a).2 := by
  obtain ⟨as, has, hmem⟩ := hk.querySeeding a
  obtain ⟨as', has', hmem'⟩ := hk'.querySeeding a
  rw [has, has']
  intro raw
  rw [hmem, hmem', h.rows, h.linked]

theorem SameLinks.registers_iff (e : Entry) : Registers P ndb e ↔ Registers P ndb' e := by
  have hknows : ∀ i, ndb.db.Knows P i ↔ ndb'.db.Knows P i := by
    intro i
    rw [DB.Knows, DB.Knows, ← Option.isSome_iff_exists, ← Option.isSome_iff_exists, h.rows]
  have hseeds := (h.querySeeds hk hk' e.address).lists_iff
  have hseeding := (h.querySeeding hk hk' e.address).lists_iff
  simp only [Registers, hknows, hseeds, hseeding]

end SameLinks

/-! ## Inserting an entry -/

/-- A verified entry can be inserted without a panic. -/
theorem InOrder.insert_ne_panic (h : InOrder ndb) {e : Entry} (hv : e.verify P = .ok ()) :
    (ndb.insert P e).2 ≠ .error .panic := by
  have hraw : e.address.raw.length = 20 := ((Entry.verify_eq_ok_iff e).mp hv).1.1
  obtain ⟨t, ht, -⟩ := Table.insertIntoTable_spec h.placed.ok h.own e.address hraw
  by_cases he : driverAccepts e.updated = true
  · cases hr : ndb.db.row (P.store (e.address.string P)) with
    | some r =>
      obtain ⟨n, hins⟩ := insert_of_row hv (insertIntoTable_eq ht) he hr
      rw [hins]
      intro h
      cases h
    | none =>
      rw [insert_of_row_none hv (insertIntoTable_eq ht) he hr]
      simp only [DB.insertEntrySeeds_eq]
      have hseeds := DB.insertSeeds_ne_panic (P := P) (ndb.db.extend P e) (DB.entryPairs e)
      cases hres : ((ndb.db.extend P e).insertSeeds P (DB.entryPairs e)).2 with
      | ok u =>
        intro h
        cases h
      | error f =>
        rw [hres] at hseeds
        intro hpanic
        cases hpanic
        exact hseeds rfl
  · rw [insert_of_refused hv (insertIntoTable_eq ht) (by simpa using he)]
    intro h
    cases h

theorem accepted_of_insert_ok {e : Entry} {n : Nat} (h : (ndb.insert P e).2 = .ok n) :
    e.verify P = .ok () ∧ driverAccepts e.updated = true := by
  cases hv : e.verify P with
  | error f =>
    rw [insert, hv] at h
    cases h
  | ok u =>
    refine ⟨rfl, ?_⟩
    cases ht : ndb.insertIntoTable e.address with
    | error f =>
      simp only [insert, hv, ht] at h
      cases h
    | ok ndb₁ =>
      cases he : driverAccepts e.updated with
      | true => rfl
      | false =>
        rw [insert_of_refused hv ht he] at h
        cases h

/-- An entry whose address has a row changes no link. -/
theorem Kept.sameLinks_insert (hk : Kept P ndb) {e : Entry} {r : EntryRow}
    (hrow : ndb.db.row (P.store (e.address.string P)) = some r) :
    SameLinks P ndb (ndb.insert P e).1 := by
  rcases hk.insert_cases e with ⟨-, heq⟩ | ⟨-, -, t, -, heq⟩
  · rw [heq]
    exact ⟨fun _ => rfl, fun _ _ => Iff.rfl⟩
  · rw [heq]
    by_cases he : driverAccepts e.updated = true
    · have hput : ndb.db.put P e = ndb.db.overwrite P e := by simp [DB.put, he, hrow]
      refine ⟨fun c => ?_, fun s f => ?_⟩
      · simp [hput, DB.row_overwrite]
      · simp only [hput]
        exact DB.linked_overwrite.symm
    · have hput : ndb.db.put P e = ndb.db := by simp [DB.put, he]
      refine ⟨fun c => by simp only [hput], fun s f => by simp only [hput]⟩

/-- An entry of a new address that is inserted without an error has all its links. -/
theorem Kept.registers_insert (hk : Kept P ndb) {e : Entry} {n : Nat} (hcan : e.address.Canonical P)
    (hrow : ndb.db.row (P.store (e.address.string P)) = none) (hok : (ndb.insert P e).2 = .ok n) :
    Registers P (ndb.insert P e).1 e := by
  have hk' := hk.insert (e := e) fun _ => hcan
  obtain ⟨hv, he⟩ := accepted_of_insert_ok hok
  have hraw : e.address.raw.length = 20 := ((Entry.verify_eq_ok_iff e).mp hv).1.1
  obtain ⟨t, ht, -⟩ := Table.insertIntoTable_spec hk.placed.ok hk.own e.address hraw
  rw [insert_of_row_none hv (insertIntoTable_eq ht) he hrow] at hok hk' ⊢
  have hwf' := hk.wf.extend ⟨_, hraw, Address.canonical_iff.mp hcan⟩ hrow
  have hseeds : ((ndb.db.extend P e).insertSeeds P (DB.entryPairs e)).2 = .ok () := by
    rw [← DB.insertEntrySeeds_eq]
    cases hres : ((ndb.db.extend P e).insertEntrySeeds P e).2 with
    | ok u => rfl
    | error f =>
      simp only [hres] at hok
      cases hok
  have hlinked := fun p hp => hwf'.linked_of_insertSeeds_ok (DB.canonical_entryPairs hcan) hseeds
    (p := p) hp
  obtain ⟨as, has, hmem⟩ := hk'.querySeeds e.address
  obtain ⟨as', has', hmem'⟩ := hk'.querySeeding e.address
  have hself : (((ndb.db.extend P e).insertEntrySeeds P e).1.row
      (P.store (e.address.string P))).isSome := by
    rw [DB.row_of_entries_eq (DB.insertEntrySeeds_entries _ e), DB.row_extend, hrow, if_pos rfl]
    rfl
  rw [DB.rawAddress_store hcan hraw] at hmem hmem'
  constructor
  · intro i hi _
    refine ⟨as, has, (hmem i).mpr ⟨hself, ?_⟩⟩
    exact hlinked (e.address, { raw := i }) (List.mem_append_right _ (List.mem_map_of_mem hi))
  · intro i hi _
    refine ⟨as', has', (hmem' i).mpr ⟨hself, ?_⟩⟩
    exact hlinked ({ raw := i }, e.address) (List.mem_append_left _ (List.mem_map_of_mem hi))

end NetDB

end Zif.Dht
