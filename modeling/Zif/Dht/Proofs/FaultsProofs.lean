import Zif.Dht.Faults
import Zif.Dht.Proofs.SeedProofs

/-!
# Proofs: `Insert` is not all or nothing

`Insert` changes the routing table before it asks the database, and the table `entry` before it links
the seeds, and takes neither back. `allOrNothing_iff` gives the entries, stores and failing statements
with which an error means that nothing was stored.
-/

namespace Zif.Dht

open Go

variable {P : Prims} {faults : Faults} {ndb : NetDB} {e : Entry}

/-! ## Linking seeds -/

namespace DB

variable {db : DB} {fails : Nat → Option String} {ps : List (Address × Address)}

theorem insertSeedsWith_entries (n : Nat) :
    (db.insertSeedsWith P fails n ps).1.entries = db.entries := by
  induction ps generalizing db n with
  | nil => rfl
  | cons p ps ih =>
    obtain ⟨entry, seed⟩ := p
    rw [insertSeedsWith]
    cases hcall : orFault (fails n) (db.insertSeed P entry seed) with
    | error f => rfl
    | ok db' =>
      simp only
      rw [ih]
      cases hf : fails n with
      | some msg =>
        rw [hf] at hcall
        cases hcall
      | none =>
        rw [hf] at hcall
        exact (insertSeed_tables hcall).1

/-- The loops end without an error if no statement fails and all addresses have a row. -/
theorem insertSeedsWith_ok_iff (n : Nat) : (db.insertSeedsWith P fails n ps).2 = .ok () ↔
    (∀ k < ps.length, fails (n + k) = none) ∧ ∀ p ∈ ps, (resolve P db p).isSome := by
  induction ps generalizing db n with
  | nil => simp [insertSeedsWith]
  | cons p ps ih =>
    obtain ⟨entry, seed⟩ := p
    rw [insertSeedsWith, insertSeed_eq]
    cases hf : fails n with
    | some msg =>
      refine iff_of_false (fun h => by cases h) fun h => ?_
      have := h.1 0 (by simp)
      rw [Nat.add_zero, hf] at this
      cases this
    | none =>
      cases hres : resolve P db (entry, seed) with
      | none =>
        refine iff_of_false (fun h => by cases h) fun h => ?_
        have := h.2 (entry, seed) List.mem_cons_self
        rw [hres] at this
        cases this
      | some l =>
        have hresolve : ∀ p, resolve P (db.addSeedRow l.1 l.2) p = resolve P db p := by
          intro p
          rw [resolve, row_of_entries_eq (addSeedRow_entries l.1 l.2),
            row_of_entries_eq (addSeedRow_entries l.1 l.2)]
          rfl
        simp only [orFault]
        rw [ih]
        simp only [hresolve, List.length_cons, List.mem_cons, forall_eq_or_imp, hres, Option.isSome_some,
          true_and]
        refine and_congr_left fun _ => ⟨fun h k hk => ?_, fun h k hk => ?_⟩
        · cases k with
          | zero => exact hf
          | succ k =>
            rw [Nat.add_comm k 1, ← Nat.add_assoc]
            exact h k (by omega)
        · rw [Nat.add_assoc, Nat.add_comm 1 k]
          exact h (k + 1) (by omega)

theorem insertSeedsWith_ne_panic (n : Nat) : (db.insertSeedsWith P fails n ps).2 ≠ .error .panic := by
  induction ps generalizing db n with
  | nil =>
    intro h
    cases h
  | cons p ps ih =>
    obtain ⟨entry, seed⟩ := p
    rw [insertSeedsWith, insertSeed_eq]
    cases fails n with
    | some msg =>
      intro h
      cases h
    | none =>
      cases resolve P db (entry, seed) with
      | none =>
        intro h
        cases h
      | some l => exact ih (n + 1)

/-- The row of the entry itself is there when its seeds are linked. -/
theorem isSome_row_extend (hrow : db.row (P.store (e.address.string P)) = none) (i : Bytes) :
    ((db.extend P e).row (P.store (e.address.string P))).isSome ∧
      (((db.extend P e).row (P.store (({ raw := i } : Address).string P))).isSome ↔
        Findable P db e i) := by
  rw [row_extend, row_extend, hrow, if_pos rfl, Address.string_of_encoded_nil]
  refine ⟨rfl, ?_⟩
  unfold Findable
  cases hi : db.row (P.store (Address.encodeRaw P i)) with
  | some r => simp
  | none =>
    rw [Option.none_or]
    by_cases heq : P.store (e.address.string P) = P.store (Address.encodeRaw P i)
    · rw [if_pos heq]
      simp [heq]
    · rw [if_neg heq]
      simp [Ne.symm heq]

theorem isSome_resolve_iff {p : Address × Address} : (resolve P db p).isSome ↔
    (db.row (P.store (p.1.string P))).isSome ∧ (db.row (P.store (p.2.string P))).isSome := by
  unfold resolve
  cases db.row (P.store (p.1.string P)) with
  | none => simp
  | some r =>
    cases db.row (P.store (p.2.string P)) with
    | none => simp
    | some r' => simp

/-- All links of an entry can be made exactly if the addresses it names are findable. -/
theorem isSome_resolve_entryPairs_iff (hrow : db.row (P.store (e.address.string P)) = none) :
    (∀ p ∈ entryPairs e, (resolve P (db.extend P e) p).isSome) ↔
      (∀ i ∈ e.seeding, Findable P db e i) ∧ ∀ i ∈ e.seeds, Findable P db e i := by
  unfold entryPairs
  simp only [List.mem_append, List.mem_map, or_imp, forall_and, forall_exists_index, and_imp,
    forall_apply_eq_imp_iff₂, isSome_resolve_iff]
  have h := fun i => isSome_row_extend hrow i
  simp only [(h []).1, (h _).2, implies_true, true_and, and_true]

end DB

/-! ## The routing table -/

/-- An insertion leaves the bucket as it is exactly if the address is in front already. -/
theorem touch_eq_self_iff (l : List Address) (a : Address) :
    Recency.touch Address.raw bucketSize l a = l ↔ l.head? = some a := by
  rw [Table.touch_eq_cons]
  cases l with
  | nil => simp
  | cons b l =>
    rw [List.cons.injEq, List.head?_cons, Option.some.injEq]
    constructor
    · exact fun h => h.1.symm
    · rintro rfl
      simp [Table.roomFor, List.findIdx?_cons]

theorem Table.Inserted.bucket_eq_iff {own addr : Address} {t t' : Table}
    (hi : Table.Inserted own addr t t') (ht : Table.Ok t) :
    (∀ j, t'.bucket j = t.bucket j) ↔ (t.bucket (Table.bucketOf own addr)).head? = some addr := by
  rw [← touch_eq_self_iff, ← hi.here]
  constructor
  · exact fun h => h _
  · intro h j
    by_cases hj : j = Table.bucketOf own addr
    · rw [hj, h]
    · exact hi.bucket_other ht hj

theorem atFront_iff {a : Address} (hown : ndb.addr.raw.length = 20) (ha : a.raw.length = 20) :
    AtFront ndb a ↔ (ndb.table.bucket (Table.bucketOf ndb.addr a)).head? = some a := by
  constructor
  · rintro ⟨n, hn, h⟩
    rwa [Table.bucketOf_eq_of_index hown ha hn]
  · intro h
    exact ⟨_, Table.index_eq hown ha, h⟩

/-! ## `Insert` -/

/-- An error before the first change of the database leaves a changed routing table, unless the address
was in front. -/
theorem allOrNothing_of_early {ndb₁ : NetDB} {msg : String}
    (heq : ndb.insertWith P faults e = (ndb₁, .error (.error msg))) (hdb : ndb₁.db = ndb.db) :
    AllOrNothing P faults ndb e ↔ ∀ j, ndb₁.table.bucket j = ndb.table.bucket j := by
  unfold AllOrNothing
  rw [heq]
  constructor
  · exact fun h => (h msg rfl).1
  · exact fun h _ _ => ⟨h, hdb⟩

/-- A row that was added is not taken back. -/
theorem not_allOrNothing_of_added {ndb₁ : NetDB} {msg : String}
    (heq : ndb.insertWith P faults e = (ndb₁, .error (.error msg)))
    (hentries : ndb₁.db.entries = (ndb.db.extend P e).entries) : ¬AllOrNothing P faults ndb e := by
  intro h
  have hdb := (h msg (by rw [heq])).2
  rw [heq] at hdb
  have hlen := congrArg (fun db => db.entries.length) hdb
  simp only [hentries, DB.extend, List.length_append, List.length_singleton] at hlen
  omega

theorem allOrNothing_of_ok {ndb₁ : NetDB} {n : Nat}
    (heq : ndb.insertWith P faults e = (ndb₁, .ok n)) : AllOrNothing P faults ndb e := by
  intro msg h
  rw [heq] at h
  cases h

section Verified

variable {ndb₁ : NetDB} (hv : e.verify P = .ok ())
  (ht : ndb.insertIntoTable e.address = .ok ndb₁)

include hv ht

/-- The update is refused, by the driver or by the engine. -/
theorem insertWith_of_no_update (h : driverAccepts e.updated = false ∨ faults.updateEntry ≠ none) :
    ∃ msg, ndb.insertWith P faults e = (ndb₁, .error (.error msg)) := by
  unfold NetDB.insertWith
  simp only [hv, ht]
  cases hf : faults.updateEntry with
  | some msg => exact ⟨msg, rfl⟩
  | none =>
    rcases h with h | h
    · exact ⟨highBitError "$11", by simp only [orFault, NetDB.update_of_refused hv h]⟩
    · exact absurd hf h

variable (he : driverAccepts e.updated = true) (hupdate : faults.updateEntry = none)

include he hupdate

theorem insertWith_of_row {r : EntryRow} (hr : ndb₁.db.row (P.store (e.address.string P)) = some r) :
    ∃ n, ndb.insertWith P faults e = ({ ndb₁ with db := ndb₁.db.overwrite P e }, .ok n) := by
  obtain ⟨affected, hpos, heq⟩ := NetDB.update_of_row hv he hr
  refine ⟨affected, ?_⟩
  unfold NetDB.insertWith
  simp only [hv, ht, hupdate, orFault, heq, if_pos hpos]

variable (hr : ndb₁.db.row (P.store (e.address.string P)) = none)

include hr

theorem insertWith_of_insert_error {db : DB} {f : Fault}
    (h : ndb₁.db.insertIntoDBWith P faults e = (db, .error f)) :
    ndb.insertWith P faults e = ({ ndb₁ with db }, .error f) := by
  unfold NetDB.insertWith
  simp only [hv, ht, hupdate, orFault, NetDB.update_of_row_none hv he hr, Nat.lt_irrefl, if_false, h]

theorem insertWith_of_insert_ok {db : DB} {n : Nat}
    (h : ndb₁.db.insertIntoDBWith P faults e = (db, .ok n)) :
    ndb.insertWith P faults e =
      ({ ndb₁ with db := (db.insertSeedsWith P faults.insertSeed 0 (DB.entryPairs e)).1 },
        (db.insertSeedsWith P faults.insertSeed 0 (DB.entryPairs e)).2.map fun _ => n) := by
  unfold NetDB.insertWith
  simp only [hv, ht, hupdate, orFault, NetDB.update_of_row_none hv he hr, Nat.lt_irrefl, if_false, h]
  rfl

end Verified

/-- The entry is not stored if the first statement fails; if the second one fails, its row stays. -/
theorem DB.insertIntoDBWith_of_row_none {db : DB} (faults : Faults) (he : driverAccepts e.updated = true)
    (hr : db.row (P.store (e.address.string P)) = none) :
    (∃ msg, faults.insertEntry = some msg ∧ db.insertIntoDBWith P faults e = (db, .error (.error msg))) ∨
      faults.insertEntry = none ∧
        ((∃ msg db', faults.insertFtsEntry = some msg ∧
            db.insertIntoDBWith P faults e = (db', .error (.error msg)) ∧
            db'.entries = (db.extend P e).entries ∧ db'.seeds = db.seeds) ∨
          faults.insertFtsEntry = none ∧
            db.insertIntoDBWith P faults e = (db.extend P e, .ok 1)) := by
  unfold DB.insertIntoDBWith
  simp only [he, Bool.not_true, Bool.false_eq_true, if_false, hr]
  cases hi : faults.insertEntry with
  | some msg => exact .inl ⟨msg, rfl, rfl⟩
  | none =>
    cases hf : faults.insertFtsEntry with
    | some msg => exact .inr ⟨rfl, .inl ⟨msg, _, rfl, rfl, rfl, rfl⟩⟩
    | none => exact .inr ⟨rfl, .inr ⟨rfl, rfl⟩⟩

/-- Once the row is added, the links decide. -/
theorem allOrNothing_of_linking {ndb₁ : NetDB} {db : DB}
    (heq : ndb.insertWith P faults e =
      ({ ndb₁ with db := (db.insertSeedsWith P faults.insertSeed 0 (DB.entryPairs e)).1 },
        (db.insertSeedsWith P faults.insertSeed 0 (DB.entryPairs e)).2.map fun _ => 1))
    (hdb : db = ndb.db.extend P e) (hr : ndb.db.row (P.store (e.address.string P)) = none) :
    AllOrNothing P faults ndb e ↔
      (∀ n < e.seeding.length + e.seeds.length, faults.insertSeed n = none) ∧
        (∀ i ∈ e.seeding, Findable P ndb.db e i) ∧ ∀ i ∈ e.seeds, Findable P ndb.db e i := by
  have hlen : (DB.entryPairs e).length = e.seeding.length + e.seeds.length := by
    simp [DB.entryPairs]
  have hiff : (db.insertSeedsWith P faults.insertSeed 0 (DB.entryPairs e)).2 = .ok () ↔ _ :=
    DB.insertSeedsWith_ok_iff 0
  rw [hlen, hdb, DB.isSome_resolve_entryPairs_iff hr, ← hdb] at hiff
  simp only [Nat.zero_add] at hiff
  rw [← hiff]
  cases hlinks : (db.insertSeedsWith P faults.insertSeed 0 (DB.entryPairs e)).2 with
  | ok u =>
    rw [hlinks] at heq
    exact iff_of_true (allOrNothing_of_ok heq) rfl
  | error f =>
    rw [hlinks] at heq
    cases f with
    | panic => exact absurd hlinks (DB.insertSeedsWith_ne_panic 0)
    | error msg =>
      refine iff_of_false (not_allOrNothing_of_added heq ?_) (fun h => by cases h)
      rw [← hdb]
      exact DB.insertSeedsWith_entries 0

/-- **When an error of `Insert` means that nothing was stored.** In every store whose table is in order,
for every entry and every choice of statements that fail: exactly if the entry fails `Verify` or it
fails early, with its address in front of its bucket already. -/
theorem allOrNothing_iff (P : Prims) (faults : Faults) (ndb : NetDB) (hown : ndb.addr.raw.length = 20)
    (hok : Table.Ok ndb.table) (e : Entry) :
    AllOrNothing P faults ndb e ↔ (e.verify P = .ok () → FailsEarly P faults ndb e) := by
  cases hv : e.verify P with
  | error f =>
    refine iff_of_true ?_ (fun h => by cases h)
    intro msg _
    rw [NetDB.insertWith, hv]
    exact ⟨fun _ => rfl, rfl⟩
  | ok u =>
    have hraw : e.address.raw.length = 20 := ((Entry.verify_eq_ok_iff e).mp hv).1.1
    obtain ⟨t, ht, hins⟩ := Table.insertIntoTable_spec hok hown e.address hraw
    have hndb₁ := NetDB.insertIntoTable_eq ht
    have hsame : (∀ j, t.bucket j = ndb.table.bucket j) ↔ AtFront ndb e.address := by
      rw [hins.bucket_eq_iff hok, atFront_iff hown hraw]
    rw [imp_iff_right (show Except.ok u = Except.ok () from rfl), FailsEarly]
    by_cases hno : driverAccepts e.updated = false ∨ faults.updateEntry ≠ none
    · obtain ⟨msg, heq⟩ := insertWith_of_no_update hv hndb₁ hno
      rw [if_pos hno, allOrNothing_of_early heq rfl, ← hsame]
    · rw [if_neg hno]
      obtain ⟨he, hupdate⟩ := not_or.mp hno
      rw [Bool.not_eq_false] at he
      rw [not_not] at hupdate
      cases hr : ndb.db.row (P.store (e.address.string P)) with
      | some r =>
        obtain ⟨n, heq⟩ := insertWith_of_row hv hndb₁ he hupdate hr
        exact iff_of_true (allOrNothing_of_ok heq) trivial
      | none =>
        rw [if_neg (by simp)]
        rcases DB.insertIntoDBWith_of_row_none faults he hr with
          ⟨msg, hi, hcall⟩ | ⟨hi, ⟨msg, db', hf, hcall, hentries, -⟩ | ⟨hf, hcall⟩⟩
        · rw [if_pos (by simp [hi]),
            allOrNothing_of_early (insertWith_of_insert_error hv hndb₁ he hupdate hr hcall) rfl, ← hsame]
        · rw [if_neg (by simp [hi])]
          refine iff_of_false (not_allOrNothing_of_added
            (insertWith_of_insert_error hv hndb₁ he hupdate hr hcall) hentries) fun h => ?_
          rw [hf] at h
          cases h.1
        · rw [if_neg (by simp [hi]), allOrNothing_of_linking
            (insertWith_of_insert_ok hv hndb₁ he hupdate hr hcall) rfl hr]
          simp only [hf, true_and]

/-- An update that the driver refuses, of the entry that is in front of its bucket. -/
theorem allOrNothing_late_update :
    let ndb := ((NetDB.new (sampleAddress 0)).insert .sample (sampleEntry 1 1 7)).1
    (ndb.insertWith .sample .none (sampleEntry 1 1 (2 ^ 63))).2 = .error (.error (highBitError "$11")) ∧
      AllOrNothing .sample .none ndb (sampleEntry 1 1 (2 ^ 63)) := by
  intro ndb
  have hk : NetDB.Kept .sample ndb := (NetDB.kept_new (by rfl)).insert fun _ => .inl rfl
  obtain ⟨hlate, hrefused, hindex, hfront⟩ : (ndb.insertWith .sample .none (sampleEntry 1 1 (2 ^ 63))).2 =
        .error (.error (highBitError "$11")) ∧
      driverAccepts (sampleEntry 1 1 (2 ^ 63)).updated = false ∧
      Table.index ndb.addr (sampleEntry 1 1 (2 ^ 63)).address = .ok (0 : Nat) ∧
      (ndb.table.bucket 0).head? = some (sampleEntry 1 1 (2 ^ 63)).address := by decide +kernel
  refine ⟨hlate, (allOrNothing_iff .sample .none ndb hk.own hk.placed.ok
    (sampleEntry 1 1 (2 ^ 63))).mpr fun _ => ?_⟩
  rw [FailsEarly, if_pos (.inl hrefused)]
  exact ⟨0, hindex, hfront⟩

/-- Three errors that leave something behind in a new store: a time that the driver refuses leaves the
address in the routing table, a peer without a row among those the entry is seeding leaves the row, and
so does a failure of the full text table. -/
theorem insert_leaves_traces :
    let ndb := NetDB.new (sampleAddress 0)
    let late := sampleEntry 1 1 (2 ^ 63)
    let seeding := sampleEntry 1 1 7 [(sampleAddress 2).raw]
    let full : Faults := { Faults.none with insertFtsEntry := some "database or disk is full" }
    ((ndb.insert .sample late).2 = .error (.error (highBitError "$11")) ∧
        (ndb.insert .sample late).1.table.bucket 0 = [sampleAddress 1] ∧
        ¬AllOrNothing .sample .none ndb late) ∧
      ((ndb.insert .sample seeding).2 = .error (.error "sql: no rows in result set") ∧
        (ndb.insert .sample seeding).1.db.entries.length = 1 ∧
        ¬AllOrNothing .sample .none ndb seeding) ∧
      ¬AllOrNothing .sample full ndb (sampleEntry 1 1 7) := by
  intro ndb late seeding full
  -- the errors, and what is left behind by each
  obtain ⟨⟨hlate, hseeding, hfull⟩, htable, hrow, hfts⟩ :
      ((ndb.insertWith .sample .none late).2 = .error (.error (highBitError "$11")) ∧
        (ndb.insertWith .sample .none seeding).2 = .error (.error "sql: no rows in result set") ∧
        (ndb.insertWith .sample full (sampleEntry 1 1 7)).2 =
          .error (.error "database or disk is full")) ∧
      (ndb.insertWith .sample .none late).1.table.bucket 0 ≠ ndb.table.bucket 0 ∧
      (ndb.insertWith .sample .none seeding).1.db ≠ ndb.db ∧
      (ndb.insertWith .sample full (sampleEntry 1 1 7)).1.db ≠ ndb.db := by decide +kernel
  have hplain : (ndb.insert .sample late).2 = .error (.error (highBitError "$11")) ∧
      (ndb.insert .sample late).1.table.bucket 0 = [sampleAddress 1] ∧
      (ndb.insert .sample seeding).2 = .error (.error "sql: no rows in result set") ∧
      (ndb.insert .sample seeding).1.db.entries.length = 1 := by decide +kernel
  obtain ⟨hlate', hbucket, hseeding', hlength⟩ := hplain
  refine ⟨⟨hlate', hbucket, fun h => htable ((h _ hlate).1 0)⟩,
    ⟨hseeding', hlength, fun h => hrow (h _ hseeding).2⟩, fun h => hfts (h _ hfull).2⟩

/-! ## An engine that does not fail -/

theorem DB.insertSeedsWith_none (db : DB) (n : Nat) (ps : List (Address × Address)) :
    db.insertSeedsWith P (fun _ => none) n ps = db.insertSeeds P ps := by
  induction ps generalizing db n with
  | nil => rfl
  | cons p ps ih =>
    obtain ⟨entry, seed⟩ := p
    rw [DB.insertSeedsWith, DB.insertSeeds]
    cases db.insertSeed P entry seed with
    | error f => rfl
    | ok db' => exact ih db' (n + 1)

/-- `insertWith` is `Insert` when no statement fails. -/
theorem insertWith_none (P : Prims) (ndb : NetDB) (e : Entry) :
    ndb.insertWith P .none e = ndb.insert P e := by
  unfold NetDB.insertWith NetDB.insert
  cases e.verify P with
  | error f => rfl
  | ok u =>
    cases ndb.insertIntoTable e.address with
    | error f => rfl
    | ok ndb₁ =>
      simp only [Faults.none, orFault]
      cases ndb₁.update P e with
      | error f => rfl
      | ok updated =>
        obtain ⟨ndb₂, affected⟩ := updated
        simp only [DB.insertIntoDBWith, DB.insertIntoDB, DB.insertEntrySeeds, DB.insertSeedsWith_none]
        split
        · rfl
        · cases driverAccepts e.updated with
          | false => rfl
          | true =>
            cases ndb₂.db.row (P.store (e.address.string P)) with
            | none => rfl
            | some r => rfl

end Zif.Dht
