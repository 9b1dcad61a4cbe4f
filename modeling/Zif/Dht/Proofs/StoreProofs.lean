import Zif.Dht.NetDb

/-!
# Proofs: writing to the peer store

`DB.put` is what `Insert` does to the database with an entry that passed `Verify` (`insert_db`): it
overwrites the row of the address, or adds one and then links the seeds. The lemmas below say which
rows this leaves behind.
-/

namespace Zif.Dht

open Go

variable {P : Prims}

namespace DB

variable {db : DB} {e : Entry} {c : Cell}

/-- The rows after `sqlUpdateEntry`. -/
def overwrite (P : Prims) (db : DB) (e : Entry) : DB :=
  { db with entries := db.entries.map fun r =>
      if r.address = P.store (e.address.string P) then setColumns P r e else r }

/-- The rows after `insertIntoDB` on an address without a row. -/
def extend (P : Prims) (db : DB) (e : Entry) : DB :=
  let id := nextId (db.entries.map EntryRow.id)
  { db with
    entries := db.entries ++ [newRow P id (P.store (e.address.string P)) e]
    fts := if db.fts.any fun r => r.docid = id then db.fts else db.fts ++ [⟨id, e.name, e.desc⟩] }

/-- What `Insert` does to the database with a verified entry. -/
def put (P : Prims) (db : DB) (e : Entry) : DB :=
  if !driverAccepts e.updated then db
  else
    match db.row (P.store (e.address.string P)) with
    | some _ => db.overwrite P e
    | none => ((db.extend P e).insertEntrySeeds P e).1

theorem row_eq_none : db.row c = none ↔ ∀ r ∈ db.entries, r.address ≠ c := by
  simp [row]

theorem address_of_row {r : EntryRow} (h : db.row c = some r) : r.address = c := by
  simpa using List.find?_some h

theorem mem_of_row {r : EntryRow} (h : db.row c = some r) : r ∈ db.entries :=
  List.mem_of_find?_eq_some h

/-- The update affects a row exactly when there is one. -/
theorem updateEntry_eq (he : driverAccepts e.updated = true) :
    db.updateEntry P (e.address.string P) e =
      .ok (db.overwrite P e, db.entries.countP fun r => r.address = P.store (e.address.string P)) := by
  simp [updateEntry, he, overwrite]

theorem countP_pos_iff :
    0 < db.entries.countP (fun r => r.address = c) ↔ ∃ r, db.row c = some r := by
  rw [List.countP_pos_iff, ← Option.isSome_iff_exists, row, List.find?_isSome]

theorem overwrite_of_row_none (h : db.row (P.store (e.address.string P)) = none) :
    db.overwrite P e = db := by
  rw [row_eq_none] at h
  have hmap : (db.entries.map fun r =>
      if r.address = P.store (e.address.string P) then setColumns P r e else r) = db.entries := by
    conv_rhs => rw [← List.map_id db.entries]
    exact List.map_congr_left fun r hr => if_neg (h r hr)
  rw [overwrite, hmap]

theorem insertIntoDB_of_row_none (he : driverAccepts e.updated = true)
    (h : db.row (P.store (e.address.string P)) = none) :
    db.insertIntoDB P e = .ok (db.extend P e, 1) := by
  simp [insertIntoDB, he, h, extend]

/-! ## Links leave the rows alone -/

/-- `InsertSeed` changes the table `seed` only. -/
theorem insertSeed_tables {db' : DB} {a s : Address} (h : db.insertSeed P a s = .ok db') :
    db'.entries = db.entries ∧ db'.fts = db.fts := by
  unfold insertSeed at h
  cases ha : db.queryIdByAddress P (a.string P) with
  | error f => simp [ha, bind, Except.bind] at h
  | ok i =>
    cases hb : db.queryIdByAddress P (s.string P) with
    | error f => simp [ha, hb, bind, Except.bind] at h
    | ok j =>
      simp only [ha, hb, bind, Except.bind, Except.ok.injEq] at h
      rw [← h, addSeedRow]
      split <;> exact ⟨rfl, rfl⟩

theorem insertSeeds_tables (links : List (Address × Address)) :
    (db.insertSeeds P links).1.entries = db.entries ∧ (db.insertSeeds P links).1.fts = db.fts := by
  induction links generalizing db with
  | nil => exact ⟨rfl, rfl⟩
  | cons link links ih =>
    obtain ⟨a, s⟩ := link
    unfold insertSeeds
    cases h : db.insertSeed P a s with
    | error f => exact ⟨rfl, rfl⟩
    | ok db' =>
      obtain ⟨hentries, hfts⟩ := insertSeed_tables h
      exact ⟨ih.1.trans hentries, ih.2.trans hfts⟩

theorem insertSeeds_entries (links : List (Address × Address)) :
    (db.insertSeeds P links).1.entries = db.entries :=
  (insertSeeds_tables links).1

theorem insertEntrySeeds_entries (db : DB) (e : Entry) :
    (db.insertEntrySeeds P e).1.entries = db.entries :=
  insertSeeds_entries _

/-! ## Rows after a write -/

theorem setColumns_address (r : EntryRow) : (setColumns P r e).address = r.address := rfl

theorem row_overwrite (c : Cell) : (db.overwrite P e).row c = (db.row c).map fun r =>
    if r.address = P.store (e.address.string P) then setColumns P r e else r := by
  unfold overwrite row
  simp only
  rw [List.find?_map]
  congr 1
  congr 1
  funext r
  simp only [Function.comp]
  split <;> rfl

theorem row_of_entries_eq {db' : DB} (h : db'.entries = db.entries) (c : Cell) :
    db'.row c = db.row c := by
  rw [row, row, h]

theorem row_extend (c : Cell) : (db.extend P e).row c = (db.row c).or
    (if P.store (e.address.string P) = c then
      some (newRow P (nextId (db.entries.map EntryRow.id)) (P.store (e.address.string P)) e)
    else none) := by
  unfold extend row
  simp only
  rw [List.find?_append, List.find?_singleton]
  congr 1
  by_cases h : P.store (e.address.string P) = c
  · simp [h, newRow, setColumns]
  · simp [h, newRow, setColumns]

/-- The row of another address stays as it is. -/
theorem row_put_of_ne (hc : c ≠ P.store (e.address.string P)) : (db.put P e).row c = db.row c := by
  unfold put
  split
  · rfl
  · split
    · rw [row_overwrite]
      cases hr : db.row c with
      | none => rfl
      | some r =>
        rw [Option.map_some, if_neg]
        rwa [address_of_row hr]
    · rw [row_of_entries_eq (insertEntrySeeds_entries _ e), row_extend, if_neg hc.symm, Option.or_none]

/-- The row of the entry's own address carries the entry. -/
theorem row_put_self (db : DB) (he : driverAccepts e.updated = true) :
    ∃ r, (db.put P e).row (P.store (e.address.string P)) = some (setColumns P r e) ∧
      ∀ r', db.row (P.store (e.address.string P)) = some r' → r = r' := by
  unfold put
  rw [if_neg (by simp [he])]
  cases hr : db.row (P.store (e.address.string P)) with
  | some r =>
    refine ⟨r, ?_, fun r' h => by injection h⟩
    simp only
    rw [row_overwrite, hr, Option.map_some, if_pos (address_of_row hr)]
  | none =>
    simp only
    rw [row_of_entries_eq (insertEntrySeeds_entries _ e), row_extend, hr, if_pos rfl]
    exact ⟨_, rfl, fun r' h => by simp at h⟩

/-- Every row afterwards is an old one, or carries the entry under its address. -/
theorem mem_put {r : EntryRow} (h : r ∈ (db.put P e).entries) :
    r ∈ db.entries ∨
      ∃ r₀, r = setColumns P r₀ e ∧ r.address = P.store (e.address.string P) := by
  unfold put at h
  split at h
  · exact Or.inl h
  · split at h
    · obtain ⟨r₀, hr₀, rfl⟩ := List.mem_map.mp h
      split
      · rename_i haddr
        exact Or.inr ⟨r₀, rfl, haddr⟩
      · exact Or.inl hr₀
    · rw [insertEntrySeeds_entries] at h
      rcases List.mem_append.mp h with h | h
      · exact Or.inl h
      · rw [List.mem_singleton] at h
        exact Or.inr ⟨_, h, by rw [h]; rfl⟩

/-! ## What is read back -/

/-- The three outcomes of a query. -/
theorem query_eq_ok {a : Address} {found : Option (Entry × Nat)} (h : db.query P a = .ok found) :
    (db.row (P.store (a.string P)) = none ∧ found = none) ∨
      ∃ r decoded seeds seeding, db.row (P.store (a.string P)) = some r ∧
        Address.decodeAddress r.address.load = .ok decoded ∧ db.querySeeds r.id = .ok seeds ∧
        db.querySeeding r.id = .ok seeding ∧
        found = some (readRow r decoded seeds seeding, r.id) := by
  unfold query at h
  cases hr : db.row (P.store (a.string P)) with
  | none =>
    simp only [hr, Except.ok.injEq] at h
    exact Or.inl ⟨rfl, h.symm⟩
  | some r =>
    right
    cases hd : Address.decodeAddress r.address.load with
    | error f => simp [hr, hd, bind, Except.bind] at h
    | ok decoded =>
      cases hs : db.querySeeds r.id with
      | error f => simp [hr, hd, hs, bind, Except.bind] at h
      | ok seeds =>
        cases hg : db.querySeeding r.id with
        | error f => simp [hr, hd, hs, hg, bind, Except.bind] at h
        | ok seeding =>
          simp only [hr, hd, hs, hg, bind, Except.bind, Except.ok.injEq] at h
          exact ⟨r, decoded, seeds, seeding, rfl, hd, hs, hg, h.symm⟩

theorem query_of_row {a : Address} {r : EntryRow} {decoded : Address} {seeds seeding : List Address}
    (hr : db.row (P.store (a.string P)) = some r)
    (hd : Address.decodeAddress r.address.load = .ok decoded)
    (hs : db.querySeeds r.id = .ok seeds) (hg : db.querySeeding r.id = .ok seeding) :
    db.query P a = .ok (some (readRow r decoded seeds seeding, r.id)) := by
  simp [query, hr, hd, hs, hg, bind, Except.bind]

/-- Overwriting a row changes neither its seeds nor what it is seeding. -/
theorem selectSeeds_overwrite (id : Nat) : (db.overwrite P e).selectSeeds id = db.selectSeeds id := by
  unfold selectSeeds overwrite
  simp only
  congr 1
  funext s
  rw [List.filter_map, List.map_map]
  have hid : ((fun r : EntryRow => decide (r.id = s.seed)) ∘ fun r =>
      if r.address = P.store (e.address.string P) then setColumns P r e else r) =
      fun r => decide (r.id = s.seed) := by
    funext r
    simp only [Function.comp]
    split <;> rfl
  rw [hid]
  refine List.map_congr_left fun r _ => ?_
  simp only [Function.comp]
  split <;> rfl

theorem selectSeeding_overwrite (id : Nat) :
    (db.overwrite P e).selectSeeding id = db.selectSeeding id := by
  unfold selectSeeding overwrite
  simp only
  rw [List.flatMap_map]
  congr 1
  funext r
  split <;> rfl

end DB

theorem NetDB.insertIntoTable_eq {ndb : NetDB} {a : Address} {t : Table}
    (h : Table.insertIntoTable ndb.addr ndb.table a = .ok t) :
    ndb.insertIntoTable a = .ok { ndb with table := t } := by
  simp [insertIntoTable, h, bind, Except.bind]

/-- `Query` changes the routing table only. -/
theorem NetDB.query_db (ndb : NetDB) (a : Address) : (ndb.query P a).1.db = ndb.db := by
  unfold NetDB.query
  cases ndb.db.query P a with
  | error f => rfl
  | ok found =>
    cases found with
    | none => rfl
    | some kv =>
      simp only [NetDB.insertIntoTable]
      cases Table.insertIntoTable ndb.addr ndb.table kv.1.address with
      | error f => rfl
      | ok t => rfl

section Update

variable {ndb : NetDB} {e : Entry} (hv : e.verify P = .ok ())

include hv

/-- The driver refuses a time with the high bit set. -/
theorem NetDB.update_of_refused (he : driverAccepts e.updated = false) :
    ndb.update P e = .error (.error (highBitError "$11")) := by
  simp [update, hv, DB.updateEntry, he, bind, Except.bind]

theorem NetDB.update_of_row {r : EntryRow} (he : driverAccepts e.updated = true)
    (hr : ndb.db.row (P.store (e.address.string P)) = some r) :
    ∃ affected > 0, ndb.update P e = .ok ({ ndb with db := ndb.db.overwrite P e }, affected) := by
  refine ⟨_, DB.countP_pos_iff.mpr ⟨r, hr⟩, ?_⟩
  simp only [update, hv, bind, Except.bind]
  rw [DB.updateEntry_eq he]

/-- Without a row there is nothing to update. -/
theorem NetDB.update_of_row_none (he : driverAccepts e.updated = true)
    (hr : ndb.db.row (P.store (e.address.string P)) = none) : ndb.update P e = .ok (ndb, 0) := by
  have hzero : (ndb.db.entries.countP fun r => r.address = P.store (e.address.string P)) = 0 := by
    refine Nat.eq_zero_of_not_pos fun hpos => ?_
    obtain ⟨r, hr'⟩ := DB.countP_pos_iff.mp hpos
    rw [hr] at hr'
    cases hr'
  simp only [update, hv, bind, Except.bind]
  rw [DB.updateEntry_eq he, hzero, DB.overwrite_of_row_none hr]

end Update

/-- `Insert` of a verified entry whose address has a row. -/
theorem NetDB.insert_of_row {ndb ndb₁ : NetDB} {e : Entry} {r : EntryRow} (hv : e.verify P = .ok ())
    (ht : ndb.insertIntoTable e.address = .ok ndb₁) (he : driverAccepts e.updated = true)
    (hr : ndb₁.db.row (P.store (e.address.string P)) = some r) :
    ∃ affected, ndb.insert P e = ({ ndb₁ with db := ndb₁.db.overwrite P e }, .ok affected) := by
  obtain ⟨affected, hpos, hupdate⟩ := update_of_row hv he hr
  refine ⟨affected, ?_⟩
  unfold insert
  simp only [hv, ht, hupdate, if_pos hpos]

/-- `Insert` of a verified entry whose address has no row: the result is that of linking the seeds. -/
theorem NetDB.insert_of_row_none {ndb ndb₁ : NetDB} {e : Entry} (hv : e.verify P = .ok ())
    (ht : ndb.insertIntoTable e.address = .ok ndb₁) (he : driverAccepts e.updated = true)
    (hr : ndb₁.db.row (P.store (e.address.string P)) = none) :
    ndb.insert P e = ({ ndb₁ with db := ((ndb₁.db.extend P e).insertEntrySeeds P e).1 },
      ((ndb₁.db.extend P e).insertEntrySeeds P e).2.map fun _ => 1) := by
  unfold insert
  simp only [hv, ht, update_of_row_none hv he hr, Nat.lt_irrefl, if_false]
  rw [DB.insertIntoDB_of_row_none he hr]

/-- `Insert` of a verified entry with a time that the driver refuses. -/
theorem NetDB.insert_of_refused {ndb ndb₁ : NetDB} {e : Entry} (hv : e.verify P = .ok ())
    (ht : ndb.insertIntoTable e.address = .ok ndb₁) (he : driverAccepts e.updated = false) :
    ndb.insert P e = (ndb₁, .error (.error (highBitError "$11"))) := by
  unfold insert
  simp only [hv, ht, update_of_refused hv he]

/-- `Insert` of a verified entry. -/
theorem NetDB.insert_of_verified {ndb ndb₁ : NetDB} {e : Entry} (hv : e.verify P = .ok ())
    (ht : ndb.insertIntoTable e.address = .ok ndb₁) :
    (ndb.insert P e).1 = { ndb₁ with db := ndb₁.db.put P e } := by
  cases he : driverAccepts e.updated with
  | true =>
    cases hr : ndb₁.db.row (P.store (e.address.string P)) with
    | some r =>
      obtain ⟨affected, hins⟩ := insert_of_row hv ht he hr
      rw [hins, DB.put, if_neg (by simp [he]), hr]
    | none => rw [insert_of_row_none hv ht he hr, DB.put, if_neg (by simp [he]), hr]
  | false => rw [insert_of_refused hv ht he, DB.put, if_pos (by simp [he])]

/-- `Insert` of a verified entry without links succeeds. -/
theorem NetDB.insert_ok {ndb ndb₁ : NetDB} {e : Entry} (hv : e.verify P = .ok ())
    (ht : ndb.insertIntoTable e.address = .ok ndb₁) (he : driverAccepts e.updated = true)
    (hseeds : e.seeds = []) (hseeding : e.seeding = []) :
    ∃ affected, (ndb.insert P e).2 = .ok affected := by
  cases hr : ndb₁.db.row (P.store (e.address.string P)) with
  | some r =>
    obtain ⟨affected, hins⟩ := insert_of_row hv ht he hr
    exact ⟨affected, by rw [hins]⟩
  | none =>
    rw [insert_of_row_none hv ht he hr]
    simp only [DB.insertEntrySeeds, hseeds, hseeding, List.map_nil, List.append_nil, DB.insertSeeds]
    exact ⟨1, rfl⟩

/-- `Insert` leaves the database alone, or puts the verified entry into it. -/
theorem NetDB.insert_db (ndb : NetDB) (e : Entry) :
    (ndb.insert P e).1.db = ndb.db ∨
      e.verify P = .ok () ∧ (ndb.insert P e).1.db = ndb.db.put P e := by
  cases hv : e.verify P with
  | error f =>
    left
    simp [insert, hv]
  | ok u =>
    cases ht : Table.insertIntoTable ndb.addr ndb.table e.address with
    | error f =>
      left
      simp [insert, hv, insertIntoTable, ht, bind, Except.bind]
    | ok t =>
      right
      refine ⟨rfl, ?_⟩
      rw [insert_of_verified hv (insertIntoTable_eq ht)]

end Zif.Dht
