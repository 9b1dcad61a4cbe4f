import Zif.Dht.Proofs.FaultsProofs

/-!
# Proofs: the routing table and the database in step

`Insert` puts the address into the routing table before it writes the row. `Written` says what it leaves in
the database, whichever of its statements fail. If the row is written, every address of the routing table has
one, so `FindClosest` finds an entry for each; if it is not, the address stays without (`inStep_iff`).
-/

namespace Zif.Dht

open Go Runs

variable {P : Prims} {faults : Faults} {ndb : NetDB} {e : Entry}

namespace DB

variable {db db' : DB}

/-! ## What `Insert` leaves in the database -/

/-- The database after `Insert` of a verified entry on an engine that can fail. -/
inductive Written (P : Prims) (faults : Faults) (db : DB) (e : Entry) : DB → Prop where
  /-- A statement that would write the row is refused, by the driver or by the engine. -/
  | refused (h : driverAccepts e.updated = false ∨ faults.updateEntry ≠ none ∨ faults.insertEntry ≠ none) :
      Written P faults db e db
  | updated {r : EntryRow} (hr : db.row (P.store (e.address.string P)) = some r) :
      Written P faults db e (db.overwrite P e)
  /-- The row is added. The full text table may be as before, and some of the links may be missing. -/
  | added {base : DB} (h : driverAccepts e.updated = true ∧ faults.updateEntry = none ∧ faults.insertEntry = none)
      (hr : db.row (P.store (e.address.string P)) = none)
      (hentries : base.entries = (db.extend P e).entries) (hseeds : base.seeds = db.seeds)
      (pairs : List (Address × Address)) :
      Written P faults db e (base.insertSeedsWith P faults.insertSeed 0 pairs).1

theorem Wf.of_tables (hwf : Wf P db) (hentries : db'.entries = db.entries) (hseeds : db'.seeds = db.seeds) :
    Wf P db' := by
  have hlinks : db'.links = db.links := by rw [DB.links, DB.links, hseeds]
  exact ⟨hentries ▸ hwf.ids, hentries ▸ hwf.canonical, hentries ▸ hwf.addresses,
    hentries ▸ hlinks ▸ hwf.links⟩

theorem Wf.insertSeedsWith (hwf : Wf P db) (fails : Nat → Option String) (n : Nat)
    (ps : List (Address × Address)) : Wf P (db.insertSeedsWith P fails n ps).1 := by
  induction ps generalizing db n with
  | nil => exact hwf
  | cons p ps ih =>
    obtain ⟨entry, seed⟩ := p
    rw [DB.insertSeedsWith]
    cases hf : fails n with
    | some msg => exact hwf
    | none =>
      cases hcall : db.insertSeed P entry seed with
      | error f => simpa only [orFault, hcall] using hwf
      | ok db' =>
        have hone := hwf.insertSeeds [(entry, seed)]
        simp only [DB.insertSeeds, hcall] at hone
        simpa only [orFault, hcall] using ih hone (n + 1)

theorem Written.wf (h : Written P faults db e db') (hwf : Wf P db) (hcan : e.address.Canonical P)
    (hraw : e.address.raw.length = 20) : Wf P db' := by
  cases h with
  | refused h => exact hwf
  | updated hr => exact hwf.overwrite
  | added h hr hentries hseeds pairs =>
    have hextend := hwf.extend ⟨_, hraw, Address.canonical_iff.mp hcan⟩ hr
    exact (hextend.of_tables hentries hseeds).insertSeedsWith _ _ _

/-- The addresses with a row afterwards. -/
theorem Written.known_subset (h : Written P faults db e db') : db.known ⊆ db'.known := by
  cases h with
  | refused h => exact List.Subset.refl _
  | updated hr =>
    rw [known_overwrite]
    exact List.Subset.refl _
  | added h hr hentries hseeds pairs =>
    rw [known, known, insertSeedsWith_entries, hentries, entries_extend, List.map_append]
    exact List.subset_append_left _ _

/-- If the row is written, the address is among them. -/
theorem Written.mem_known (h : Written P faults db e db') (hwf : Wf P db) (hwrites : faults.Writes P e)
    (hraw : e.address.raw.length = 20) : e.address.raw ∈ db'.known := by
  cases h with
  | refused h =>
    rcases h with h | h | h
    · rw [hwrites.accepted] at h
      cases h
    · exact absurd hwrites.updateEntry h
    · exact absurd hwrites.insertEntry h
  | updated hr =>
    rw [known_overwrite, ← hwf.row_iff, ← Address.canonical_iff.mp hwrites.canonical]
    exact ⟨_, hr⟩
  | added h hr hentries hseeds pairs =>
    have hextend := @known_extend P db e
    rw [rawAddress_store hwrites.canonical hraw] at hextend
    rw [known, insertSeedsWith_entries, hentries]
    change _ ∈ (db.extend P e).known
    rw [hextend]
    simp

end DB

namespace NetDB

theorem InOrder.insertWith_cases (hk : InOrder ndb) (faults : Faults) (e : Entry) :
    (e.verify P ≠ .ok () ∧ (ndb.insertWith P faults e).1 = ndb) ∨
      e.verify P = .ok () ∧ e.address.raw.length = 20 ∧
        ∃ t db, Table.Inserted ndb.addr e.address ndb.table t ∧ DB.Written P faults ndb.db e db ∧
          (ndb.insertWith P faults e).1 = { ndb with table := t, db := db } := by
  by_cases hv : e.verify P = .ok ()
  · have hraw : e.address.raw.length = 20 := ((Entry.verify_eq_ok_iff e).mp hv).1.1
    obtain ⟨t, ht, hins⟩ := Table.insertIntoTable_spec hk.placed.ok hk.own e.address hraw
    have hndb₁ := insertIntoTable_eq ht
    refine .inr ⟨hv, hraw, t, ?_⟩
    by_cases hno : driverAccepts e.updated = false ∨ faults.updateEntry ≠ none
    · obtain ⟨msg, heq⟩ := insertWith_of_no_update hv hndb₁ hno
      exact ⟨_, hins, .refused (hno.imp_right .inl), by rw [heq]⟩
    · obtain ⟨he, hupdate⟩ := not_or.mp hno
      rw [Bool.not_eq_false] at he
      rw [not_not] at hupdate
      cases hr : ndb.db.row (P.store (e.address.string P)) with
      | some r =>
        obtain ⟨n, heq⟩ := insertWith_of_row hv hndb₁ he hupdate hr
        exact ⟨_, hins, .updated hr, by rw [heq]⟩
      | none =>
        rcases DB.insertIntoDBWith_of_row_none faults he hr with
          ⟨msg, hi, hcall⟩ | ⟨hi, ⟨msg, db', -, hcall, hentries, hseeds⟩ | ⟨-, hcall⟩⟩
        · exact ⟨_, hins, .refused (.inr (.inr (by simp [hi]))),
            by rw [insertWith_of_insert_error hv hndb₁ he hupdate hr hcall]⟩
        · exact ⟨_, hins, .added ⟨he, hupdate, hi⟩ hr hentries hseeds [],
            by rw [insertWith_of_insert_error hv hndb₁ he hupdate hr hcall]; rfl⟩
        · exact ⟨_, hins, .added ⟨he, hupdate, hi⟩ hr rfl rfl (DB.entryPairs e),
            by rw [insertWith_of_insert_ok hv hndb₁ he hupdate hr hcall]⟩
  · refine .inl ⟨hv, ?_⟩
    unfold insertWith
    cases h : e.verify P with
    | error f => rfl
    | ok u => exact absurd h hv

/-! ## In step -/

/-- Every address of the routing table is canonical and has a row. -/
def Held (P : Prims) (ndb : NetDB) : Prop :=
  ∀ j, ∀ a ∈ ndb.table.bucket j, a.Canonical P ∧ a.raw ∈ ndb.db.known

theorem Kept.served (hk : Kept P ndb) (hheld : Held P ndb) : Served P ndb := by
  refine ⟨hk.own, hk.placed, fun j a ha => ?_⟩
  obtain ⟨hcan, hknown⟩ := hheld j a ha
  obtain ⟨r, hr, hraw⟩ := List.mem_map.mp hknown
  have haddr : P.store (({ raw := a.raw } : Address).string P) = r.address := by
    rw [Address.string_of_encoded_nil, hk.wf.address_eq hr, hraw]
  obtain ⟨seeds, seeding, -, -, -, -, hquery⟩ := hk.wf.query hr haddr
  exact ⟨Address.canonical_iff.mp hcan, _, hquery⟩

theorem Kept.inStep (hk : Kept P ndb) (hheld : Held P ndb) : InStep P ndb where
  row j a ha := (hk.wf.row_iff a.raw).mpr (hheld j a ha).2
  closest _ _ _ h := (hk.served hheld).none_not_mem_findClosest h

/-- Inserting an address into the routing table keeps it in step if the address is known. -/
theorem Held.inserted (hheld : Held P ndb) (hp : Table.Placed ndb.addr ndb.table) {addr : Address}
    {t : Table} {db : DB} (hins : Table.Inserted ndb.addr addr ndb.table t)
    (hsub : ndb.db.known ⊆ db.known) (hcan : addr.Canonical P) (hknown : addr.raw ∈ db.known) :
    Held P { ndb with table := t, db := db } := by
  intro j a ha
  rcases hins.mem_bucket hp ha with hold | ⟨rfl, -⟩
  · exact ⟨(hheld j a hold).1, hsub (hheld j a hold).2⟩
  · exact ⟨hcan, hknown⟩

theorem held_new (own : Address) : Held P (new own) := by
  intro j a ha
  simp [new, Table.bucket_new] at ha

/-- One call with an entry whose row is written, or with one that fails `Verify`. -/
theorem kept_held_afterWith {c : EngineCall} (hk : Kept P ndb) (hheld : Held P ndb)
    (hc : c.Admitted fun e faults => e.verify P = .ok () → faults.Writes P e) :
    Kept P (ndb.afterWith P c) ∧ Held P (ndb.afterWith P c) := by
  cases c with
  | insert e faults =>
    rcases hk.insertWith_cases (P := P) faults e with ⟨-, heq⟩ | ⟨hv, hraw, t, db, hins, hwritten, heq⟩
    · rw [afterWith, heq]
      exact ⟨hk, hheld⟩
    · have hwrites := hc hv
      rw [afterWith, heq]
      exact ⟨⟨⟨hk.own, hk.placed.inserted hins hraw⟩, hwritten.wf hk.wf hwrites.canonical hraw⟩,
        hheld.inserted hk.placed hins hwritten.known_subset hwrites.canonical
          (hwritten.mem_known hk.wf hwrites hraw)⟩
  | insertSeed entry seed fails =>
    cases fails with
    | some msg => exact ⟨hk, hheld⟩
    | none =>
      rw [afterWith, insertSeed_fst]
      refine ⟨⟨⟨hk.own, hk.placed⟩, hk.wf.insertSeeds _⟩, fun j a ha => ?_⟩
      rw [DB.known, DB.insertSeeds_entries]
      exact hheld j a ha
  | query a fails =>
    cases fails with
    | some msg => exact ⟨hk, hheld⟩
    | none =>
      rw [afterWith]
      refine ⟨hk.query a, ?_⟩
      rcases hk.query_cases a with ⟨-, heq⟩ | ⟨r, hr, -, t, e, hins, -, heq⟩
      · rwa [heq]
      · rw [heq]
        exact hheld.inserted hk.placed hins (List.Subset.refl _) (.inl rfl) (List.mem_map_of_mem hr)

/-- An entry that goes into a new store is in step with it only if its row is written. -/
theorem writes_of_inStep {own : Address} (hown : own.raw.length = 20) (hv : e.verify P = .ok ())
    (h : InStep P ((new own).afterWith P (.insert e faults))) : faults.Writes P e := by
  have hk : Kept P (new own) := kept_new hown
  rcases hk.insertWith_cases (P := P) faults e with ⟨hno, -⟩ | ⟨-, hraw, t, db, hins, hwritten, heq⟩
  · exact absurd hv hno
  have hmem : e.address ∈ t.bucket (Table.bucketOf (new own).addr e.address) := by
    rw [hins.bucket_here hk.placed]
    simp [new, Table.bucket_new, Recency.promote, bucketSize]
  rw [afterWith, heq] at h
  obtain ⟨r, hrow⟩ := h.row _ _ hmem
  have hr := DB.mem_of_row hrow
  cases hwritten with
  | refused hrefused => cases hr
  | updated hold => cases hold
  | added hstatements hnone hentries hseeds pairs =>
    obtain ⟨haccepted, hupdate, hinsert⟩ := hstatements
    rw [DB.insertSeedsWith_entries, hentries, DB.entries_extend] at hr
    rcases List.mem_append.mp hr with hold | hnew
    · cases hold
    · have haddr := DB.address_of_row hrow
      rw [List.mem_singleton.mp hnew, Address.store_encodeRaw P hraw] at haddr
      exact ⟨Address.canonical_iff.mpr (DB.store_eq_text haddr), haccepted, hupdate, hinsert⟩

/-- The routing table and the database stay in step through every run of calls, with entries from a class
and with the statements that may fail for them, exactly when for each entry of the class that passes
`Verify` the address is canonical, the driver takes the time, and neither the `UPDATE` nor the `INSERT` of its
row fails. -/
theorem inStep_iff (P : Prims) (own : Address) (hown : own.raw.length = 20)
    (admits : Entry → Faults → Prop) :
    (∀ calls : List EngineCall, (∀ c ∈ calls, c.Admitted admits) →
        InStep P (run (afterWith P) (new own) calls)) ↔
      ∀ e faults, admits e faults → e.verify P = .ok () → faults.Writes P e := by
  constructor
  · intro hruns e faults he hv
    exact writes_of_inStep hown hv (hruns [.insert e faults] (by simpa [EngineCall.Admitted] using he))
  · intro hadm calls hcalls
    have hcalls' : ∀ c ∈ calls, c.Admitted fun e faults => e.verify P = .ok () → faults.Writes P e := by
      intro c hc
      have hc' := hcalls c hc
      cases c with
      | insert e faults => exact hadm e faults hc'
      | insertSeed entry seed fails => trivial
      | query a fails => trivial
    have hinv : Kept P (run (afterWith P) (new own) calls) ∧ Held P (run (afterWith P) (new own) calls) :=
      (always_of_forall hcalls').invariant (I := fun ndb => Kept P ndb ∧ Held P ndb)
        ⟨kept_new hown, held_new own⟩ fun ndb c h hc => kept_held_afterWith h.1 h.2 hc
    exact hinv.1.inStep hinv.2

/-- The theorem for one entry, inserted and asked for in any order, while the statements on the full text table
and on the links may fail. -/
theorem inStep_iff_one :
    (sampleAddress 0).raw.length = 20 ∧
      ∀ calls : List EngineCall, (∀ c ∈ calls, c.Admitted fun e faults =>
          e = sampleEntry 1 1 7 ∧ faults.updateEntry = none ∧ faults.insertEntry = none) →
        InStep .sample (run (afterWith .sample) (new (sampleAddress 0)) calls) := by
  refine ⟨by rfl, (inStep_iff .sample (sampleAddress 0) (by rfl) _).mpr ?_⟩
  rintro e faults ⟨rfl, hupdate, hinsert⟩ -
  exact ⟨.inl rfl, by decide, hupdate, hinsert⟩

/-- Three ways for an entry that passes `Verify` to go into the routing table without a row under its
address: a time that the driver refuses and an `UPDATE` that fails, after which `FindClosest` returns nil, and
another text preset for the address. -/
theorem table_without_row :
    let late := sampleEntry 1 1 (2 ^ 63)
    let preset := Entry.signedBy .sample [1]
      { sampleEntry 1 1 7 with address := ⟨(sampleAddress 1).raw, [90]⟩ }
    let locked : Faults := { Faults.none with updateEntry := some "database is locked" }
    let store := fun e faults => run (afterWith .sample) (new (sampleAddress 0)) [.insert e faults]
    late.verify .sample = .ok () ∧ preset.verify .sample = .ok () ∧
      (sampleEntry 1 1 7).verify .sample = .ok () ∧
      ¬ InStep .sample (store late .none) ∧ ¬ InStep .sample (store preset .none) ∧
      ¬ InStep .sample (store (sampleEntry 1 1 7) locked) ∧
      ((store late .none).findClosest .sample (sampleAddress 1)).2 = .ok [none, none] ∧
      ((store (sampleEntry 1 1 7) locked).findClosest .sample (sampleAddress 1)).2 = .ok [none, none] := by
  intro late preset locked store
  have hlate : late.verify .sample = .ok () := verify_sampleEntry 1 1 (2 ^ 63) []
  have hpreset : preset.verify .sample = .ok () := by decide +kernel
  have hother : ¬ Address.Canonical .sample preset.address := by decide +kernel
  have hgood : (sampleEntry 1 1 7).verify .sample = .ok () := verify_sampleEntry 1 1 7 []
  refine ⟨hlate, hpreset, hgood, fun h => ?_, fun h => ?_, fun h => ?_, by decide +kernel, by decide +kernel⟩
  · exact absurd (writes_of_inStep (by rfl) hlate h).accepted (by decide +kernel)
  · exact hother (writes_of_inStep (by rfl) hpreset h).canonical
  · exact absurd (writes_of_inStep (by rfl) hgood h).updateEntry (by decide)

end NetDB

end Zif.Dht
