import Zif.Node.Writers
import Zif.Dht.Proofs.EntryProofs
import Zif.Dht.Proofs.LinkProofs
import Zif.Dht.Proofs.TableProofs

/-!
# Proofs: what a bootstrap stores

`Client.Bootstrap` returns at the first `Insert` that fails, and `Insert` fails for a new entry that
names a peer without a row. The row of that entry is there nevertheless, but not those of the entries
behind it, so what a bootstrap stores depends on the order of its list (`bootstrap_stores_iff`).
-/

namespace Zif.Dht.DB

open Go

variable {P : Prims} {db : DB}

theorem mem_rowCells {c : Cell} : c ∈ db.rowCells ↔ ∃ r, db.row c = some r := by
  rw [rowCells, List.mem_map, ← Option.isSome_iff_exists, row, List.find?_isSome]
  simp

theorem rowCells_overwrite (e : Entry) : (db.overwrite P e).rowCells = db.rowCells := by
  unfold rowCells overwrite
  rw [List.map_map]
  refine List.map_congr_left fun r _ => ?_
  simp only [Function.comp]
  split <;> rfl

theorem rowCells_insertEntrySeeds_extend (e : Entry) :
    ((db.extend P e).insertEntrySeeds P e).1.rowCells = db.rowCells ++ [P.store (e.address.string P)] := by
  rw [rowCells, insertEntrySeeds_entries, extend, List.map_append]
  rfl

theorem resolve_isSome (p : Address × Address) : (resolve P db p).isSome ↔
    P.store (p.1.string P) ∈ db.rowCells ∧ P.store (p.2.string P) ∈ db.rowCells := by
  rw [mem_rowCells, mem_rowCells]
  unfold resolve
  cases db.row (P.store (p.1.string P)) with
  | none => simp
  | some r =>
    cases db.row (P.store (p.2.string P)) with
    | none => simp
    | some r' => simp

/-- The loop of `insertEntrySeeds` succeeds when all its addresses have rows, and returns an error
otherwise. -/
theorem insertSeeds_snd (ps : List (Address × Address)) :
    (db.insertSeeds P ps).2 =
      if ∀ p ∈ ps, (resolve P db p).isSome then .ok ()
      else .error (.error "sql: no rows in result set") := by
  induction ps generalizing db with
  | nil => simp [insertSeeds]
  | cons p ps ih =>
    obtain ⟨a, s⟩ := p
    rw [insertSeeds, insertSeed_eq]
    cases hres : resolve P db (a, s) with
    | none => simp [hres]
    | some l =>
      simp only
      have hsame : ∀ q, resolve P (db.addSeedRow l.1 l.2) q = resolve P db q := by
        intro q
        unfold resolve
        rw [row_of_entries_eq (addSeedRow_entries _ _), row_of_entries_eq (addSeedRow_entries _ _)]
      rw [ih]
      simp only [hsame, List.forall_mem_cons, hres, Option.isSome_some, true_and]

end Zif.Dht.DB

namespace Zif.Node

open Go Dht

variable {P : Prims} {ndb : NetDB} {known known' : List Cell} {own : Address} {e : Entry}

/-! ## One insertion -/

/-- The links of a new entry can all be made when the peers that it names have rows, or are the entry
itself. -/
theorem insertEntrySeeds_extend_snd (db : DB) (e : Entry) :
    ((db.extend P e).insertEntrySeeds P e).2 =
      if ∀ i ∈ e.seeding ++ e.seeds, rowKey P { raw := i } ∈ rowKey P e.address :: db.rowCells then .ok ()
      else .error (.error "sql: no rows in result set") := by
  have hknown : ∀ c, c ∈ (db.extend P e).rowCells ↔ c ∈ rowKey P e.address :: db.rowCells := by
    intro c
    rw [DB.rowCells, DB.extend, List.map_append, List.mem_append, List.mem_cons, Or.comm]
    exact or_congr_left (by rw [List.map_singleton, List.mem_singleton]; rfl)
  rw [DB.insertEntrySeeds, DB.insertSeeds_snd]
  refine if_congr ?_ rfl rfl
  simp only [List.forall_mem_append, List.forall_mem_map, DB.resolve_isSome, hknown]
  simp [rowKey]

/-- What `Insert` of a valid entry does to the cells with a row, and when it fails. -/
structure Inserts (P : Prims) (ndb : NetDB) (e : Entry) : Prop where
  addr : (ndb.insert P e).1.addr = ndb.addr
  table : Table.Ok (ndb.insert P e).1.table
  known : ∀ c, c ∈ (ndb.insert P e).1.db.rowCells ↔ c ∈ knownAfter P ndb.db.rowCells e
  ok : Insertable P ndb.db.rowCells e → ∃ affected, (ndb.insert P e).2 = .ok affected
  error : ¬ Insertable P ndb.db.rowCells e → ∃ msg, (ndb.insert P e).2 = .error (.error msg)

theorem insert_spec (hown : ndb.addr.raw.length = 20) (hok : Table.Ok ndb.table)
    (hv : e.verify P = .ok ()) : Inserts P ndb e := by
  have hraw : e.address.raw.length = 20 := ((Entry.verify_eq_ok_iff e).mp hv).1.1
  obtain ⟨t, ht, hins⟩ := Table.insertIntoTable_spec hok hown e.address hraw
  have htable := NetDB.insertIntoTable_eq ht
  cases he : driverAccepts e.updated with
  | false =>
    have hcall := NetDB.insert_of_refused hv htable he
    refine ⟨by rw [hcall], by rw [hcall]; exact hins.ok, ?_, ?_, ?_⟩
    · intro c
      rw [hcall, knownAfter, he]
      rfl
    · intro h
      exact absurd h.1 (by simp [he])
    · intro _
      exact ⟨_, by rw [hcall]⟩
  | true =>
    cases hr : ndb.db.row (P.store (e.address.string P)) with
    | some r =>
      obtain ⟨affected, hcall⟩ := NetDB.insert_of_row hv htable he hr
      have hmem : rowKey P e.address ∈ ndb.db.rowCells := DB.mem_rowCells.mpr ⟨r, hr⟩
      refine ⟨by rw [hcall], by rw [hcall]; exact hins.ok, ?_, ?_, ?_⟩
      · intro c
        rw [hcall, knownAfter, if_pos he, List.mem_cons, DB.rowCells_overwrite]
        exact ⟨Or.inr, fun h => h.elim (fun h => h ▸ hmem) id⟩
      · intro _
        exact ⟨affected, by rw [hcall]⟩
      · intro h
        exact absurd ⟨he, Or.inl hmem⟩ h
    | none =>
      have hcall := NetDB.insert_of_row_none hv htable he hr
      have hnew : rowKey P e.address ∉ ndb.db.rowCells := by
        intro hmem
        obtain ⟨r, hr'⟩ := DB.mem_rowCells.mp hmem
        rw [rowKey, hr] at hr'
        cases hr'
      have hiff : Insertable P ndb.db.rowCells e ↔
          ∀ i ∈ e.seeding ++ e.seeds, rowKey P { raw := i } ∈ rowKey P e.address :: ndb.db.rowCells :=
        ⟨fun h => h.2.resolve_left hnew, fun h => ⟨he, Or.inr h⟩⟩
      refine ⟨by rw [hcall], by rw [hcall]; exact hins.ok, ?_, ?_, ?_⟩
      · intro c
        rw [hcall, knownAfter, if_pos he]
        simp only
        rw [DB.rowCells_insertEntrySeeds_extend, List.mem_append, List.mem_singleton, Or.comm]
        exact List.mem_cons.symm
      · intro h
        rw [hcall]
        simp only
        rw [insertEntrySeeds_extend_snd, if_pos (hiff.mp h)]
        exact ⟨1, rfl⟩
      · intro h
        rw [hcall]
        simp only
        rw [insertEntrySeeds_extend_snd, if_neg (fun hall => h (hiff.mpr hall))]
        exact ⟨_, rfl⟩

/-! ## Only which cells have a row matters -/

theorem insertable_congr (h : ∀ c, c ∈ known ↔ c ∈ known') (e : Entry) :
    Insertable P known e ↔ Insertable P known' e := by
  simp only [Insertable, List.mem_cons, h]

theorem mem_knownAfter_congr (h : ∀ c, c ∈ known ↔ c ∈ known') (e : Entry) (c : Cell) :
    c ∈ knownAfter P known e ↔ c ∈ knownAfter P known' e := by
  unfold knownAfter
  split
  · rw [List.mem_cons, List.mem_cons, h]
  · exact h c

theorem mem_knownAfter_of_mem {c : Cell} (h : c ∈ known) (e : Entry) : c ∈ knownAfter P known e := by
  unfold knownAfter
  split
  · exact List.mem_cons_of_mem _ h
  · exact h

theorem reachesAll_congr {peers : List (Option Entry)} (h : ∀ c, c ∈ known ↔ c ∈ known') :
    ReachesAll P own known peers ↔ ReachesAll P own known' peers := by
  induction peers generalizing known known' with
  | nil => exact Iff.rfl
  | cons i peers ih =>
    cases i with
    | none => exact Iff.rfl
    | some i =>
      unfold ReachesAll
      split
      · exact ih h
      · split
        · exact Iff.rfl
        · exact ih h
        · rw [insertable_congr h, ih (mem_knownAfter_congr h i)]
          simp only [mem_knownAfter_congr h]

/-! ## The loop -/

theorem usablePeer_cons {peers : List (Option Entry)} {i : Option Entry} :
    UsablePeer P own (i :: peers) e ↔
      (i = some e ∧ e.address.equals own = false ∧ e.verify P = .ok ()) ∨ UsablePeer P own peers e := by
  unfold UsablePeer
  rw [List.mem_cons, or_and_right, eq_comm]

/-- The peer at the front is skipped. -/
theorem usablePeer_skip {peers : List (Option Entry)} {i : Entry}
    (hskip : i.address.equals own = true ∨ i.verify P ≠ .ok ()) :
    UsablePeer P own (some i :: peers) e ↔ UsablePeer P own peers e := by
  rw [usablePeer_cons]
  refine or_iff_right ?_
  rintro ⟨heq, hself, hv⟩
  rw [Option.some.injEq] at heq
  subst heq
  rcases hskip with h | h
  · rw [h] at hself
    cases hself
  · exact h hv

/-- The loop goes on after a peer that it skips. -/
theorem bootstrap_skip {peers : List (Option Entry)} {i : Entry}
    (hskip : i.address.equals ndb.addr = true ∨ ∃ msg, i.verify P = .error (.error msg)) :
    bootstrap P ndb (some i :: peers) = bootstrap P ndb peers := by
  rw [bootstrap, bootstrapPeer]
  by_cases hself : i.address.equals ndb.addr = true
  · rw [if_pos hself]
  · obtain ⟨msg, hmsg⟩ := hskip.resolve_left hself
    rw [if_neg hself, hmsg]

theorem bootstrap_panic {peers : List (Option Entry)} {i : Entry}
    (hself : i.address.equals ndb.addr = false) (hv : i.verify P = .error .panic) :
    bootstrap P ndb (some i :: peers) = (ndb, .error .panic) := by
  simp [bootstrap, bootstrapPeer, hself, hv]

/-- The loop goes on after an insertion that succeeds. -/
theorem bootstrap_insert {peers : List (Option Entry)} {i : Entry} {affected : Nat}
    (hself : i.address.equals ndb.addr = false) (hv : i.verify P = .ok ())
    (hcall : (ndb.insert P i).2 = .ok affected) :
    bootstrap P ndb (some i :: peers) = bootstrap P (ndb.insert P i).1 peers := by
  rcases hins : ndb.insert P i with ⟨ndb', res⟩
  rw [hins] at hcall
  simp only at hcall
  simp [bootstrap, bootstrapPeer, hself, hv, hins, hcall]

/-- The loop ends with an insertion that fails. -/
theorem bootstrap_insert_error {peers : List (Option Entry)} {i : Entry} {f : Fault}
    (hself : i.address.equals ndb.addr = false) (hv : i.verify P = .ok ())
    (hcall : (ndb.insert P i).2 = .error f) :
    bootstrap P ndb (some i :: peers) = ((ndb.insert P i).1, .error f) := by
  rcases hins : ndb.insert P i with ⟨ndb', res⟩
  rw [hins] at hcall
  simp only at hcall
  simp [bootstrap, bootstrapPeer, hself, hv, hins, hcall]

/-- A row is never lost. -/
theorem rowCells_bootstrap {c : Cell} {peers : List (Option Entry)}
    (hown : ndb.addr.raw.length = 20) (hok : Table.Ok ndb.table) (h : c ∈ ndb.db.rowCells) :
    c ∈ (bootstrap P ndb peers).1.db.rowCells := by
  induction peers generalizing ndb with
  | nil => exact h
  | cons i peers ih =>
    cases i with
    | none => exact h
    | some i =>
      cases hself : i.address.equals ndb.addr with
      | true =>
        rw [bootstrap_skip (Or.inl hself)]
        exact ih hown hok h
      | false =>
        cases hv : i.verify P with
        | error f =>
          cases f with
          | panic =>
            rw [bootstrap_panic hself hv]
            exact h
          | error msg =>
            rw [bootstrap_skip (Or.inr ⟨msg, hv⟩)]
            exact ih hown hok h
        | ok u =>
          have hins := insert_spec hown hok hv
          have hmem := (hins.known c).mpr (mem_knownAfter_of_mem h i)
          cases hcall : (ndb.insert P i).2 with
          | error f =>
            rw [bootstrap_insert_error hself hv hcall]
            exact hmem
          | ok affected =>
            rw [bootstrap_insert hself hv hcall]
            exact ih (by rw [hins.addr]; exact hown) hins.table hmem

theorem bootstraps_iff {peers : List (Option Entry)} : Bootstraps P ndb peers ↔
    (bootstrap P ndb peers).2 ≠ .error .panic ∧ ∀ e, UsablePeer P ndb.addr peers e →
      rowKey P e.address ∈ (bootstrap P ndb peers).1.db.rowCells := by
  simp only [DB.mem_rowCells]
  exact ⟨fun h => ⟨h.returns, h.stores⟩, fun h => ⟨h.1, h.2⟩⟩

theorem bootstraps_skip {peers : List (Option Entry)} {i : Entry}
    (hskip : i.address.equals ndb.addr = true ∨ ∃ msg, i.verify P = .error (.error msg)) :
    Bootstraps P ndb (some i :: peers) ↔ Bootstraps P ndb peers := by
  have husable : ∀ e, UsablePeer P ndb.addr (some i :: peers) e ↔ UsablePeer P ndb.addr peers e :=
    fun e => usablePeer_skip (hskip.imp_right fun ⟨msg, hmsg⟩ => by simp [hmsg])
  rw [bootstraps_iff, bootstraps_iff, bootstrap_skip hskip]
  simp only [husable]

/-- The entry at the front has its row, and the rest of the list is up to the rest of the loop. -/
theorem bootstraps_insert {peers : List (Option Entry)} {i : Entry} (hown : ndb.addr.raw.length = 20)
    (hok : Table.Ok ndb.table) (hself : i.address.equals ndb.addr = false) (hv : i.verify P = .ok ())
    (hi : Insertable P ndb.db.rowCells i) :
    Bootstraps P ndb (some i :: peers) ↔ Bootstraps P (ndb.insert P i).1 peers := by
  have hins := insert_spec hown hok hv
  obtain ⟨affected, hcall⟩ := hins.ok hi
  have hfront : rowKey P i.address ∈ (bootstrap P (ndb.insert P i).1 peers).1.db.rowCells := by
    refine rowCells_bootstrap (by rw [hins.addr]; exact hown) hins.table ((hins.known _).mpr ?_)
    rw [knownAfter, if_pos hi.1]
    exact List.mem_cons_self
  rw [bootstraps_iff, bootstraps_iff, bootstrap_insert hself hv hcall, hins.addr]
  refine and_congr_right fun _ => forall_congr' fun e => ?_
  rw [usablePeer_cons, or_imp, and_iff_right]
  rintro ⟨heq, -, -⟩
  rw [Option.some.injEq] at heq
  exact heq ▸ hfront

/-- Nothing is stored behind an entry whose insertion fails. -/
theorem bootstraps_insert_error {peers : List (Option Entry)} {i : Entry}
    (hown : ndb.addr.raw.length = 20) (hok : Table.Ok ndb.table)
    (hself : i.address.equals ndb.addr = false) (hv : i.verify P = .ok ())
    (hi : ¬ Insertable P ndb.db.rowCells i) :
    Bootstraps P ndb (some i :: peers) ↔ ∀ e, UsablePeer P ndb.addr (some i :: peers) e →
      rowKey P e.address ∈ knownAfter P ndb.db.rowCells i := by
  have hins := insert_spec hown hok hv
  obtain ⟨msg, hcall⟩ := hins.error hi
  rw [bootstraps_iff, bootstrap_insert_error hself hv hcall]
  simp only [hins.known]
  exact and_iff_right (by simp)

/-- A bootstrap stores every peer it can use exactly when it gets to all of them: no nil and no panic
of `Verify` is in front of it, and the first entry that names a peer without a row (or has a time that
the driver refuses) has nothing behind it that is not stored already. -/
theorem bootstrap_stores_iff (ndb : NetDB) (hown : ndb.addr.raw.length = 20)
    (hok : Table.Ok ndb.table) (peers : List (Option Entry)) :
    Bootstraps P ndb peers ↔ ReachesAll P ndb.addr ndb.db.rowCells peers := by
  induction peers generalizing ndb with
  | nil =>
    rw [bootstraps_iff]
    simp [bootstrap, ReachesAll, UsablePeer]
  | cons i peers ih =>
    cases i with
    | none =>
      rw [bootstraps_iff]
      simp [bootstrap, bootstrapPeer, ReachesAll]
    | some i =>
      rw [ReachesAll]
      cases hself : i.address.equals ndb.addr with
      | true => rw [bootstraps_skip (Or.inl hself), if_pos rfl, ih ndb hown hok]
      | false =>
        rw [if_neg (by simp)]
        cases hv : i.verify P with
        | error f =>
          cases f with
          | panic =>
            rw [bootstraps_iff, bootstrap_panic hself hv]
            simp
          | error msg => rw [bootstraps_skip (Or.inr ⟨msg, hv⟩), ih ndb hown hok]
        | ok u =>
          by_cases hi : Insertable P ndb.db.rowCells i
          · have hins := insert_spec hown hok hv
            rw [bootstraps_insert hown hok hself hv hi,
              ih _ (by rw [hins.addr]; exact hown) hins.table, hins.addr, reachesAll_congr hins.known]
            simp [hi]
          · rw [bootstraps_insert_error hown hok hself hv hi]
            simp [hi]

theorem reachesAll_insertable {peers : List (Option Entry)} {i : Entry}
    (hself : i.address.equals own = false) (hv : i.verify P = .ok ()) (hi : Insertable P known i) :
    ReachesAll P own known (some i :: peers) ↔ ReachesAll P own (knownAfter P known i) peers := by
  rw [ReachesAll, if_neg (by simp [hself]), hv]
  exact ⟨fun h => h.1 hi, fun h => ⟨fun _ => h, fun hnot => absurd hi hnot⟩⟩

/-- A valid entry that names another peer as its seed. -/
def seededEntry : Entry := { sampleEntry 1 1 7 with seeds := [(sampleAddress 2).raw] }

theorem verify_seededEntry : seededEntry.verify .sample = .ok () :=
  Entry.verify_withSeeds (by decide) (verify_sampleEntry 1 1 7 [])

/-- The peer that an entry names comes before the entry. -/
theorem bootstrap_stores_iff_ordered :
    Bootstraps .sample (NetDB.new (sampleAddress 0)) [some (sampleEntry 2 2 7), some seededEntry] := by
  have hfirst : Insertable .sample [] (sampleEntry 2 2 7) := ⟨rfl, Or.inr (fun _ hi => by cases hi)⟩
  have hsecond : Insertable .sample [rowKey .sample (sampleAddress 2)] seededEntry := by
    refine ⟨rfl, Or.inr fun i hi => ?_⟩
    obtain rfl := List.mem_singleton.mp hi
    exact List.mem_cons_of_mem _ (List.mem_singleton.mpr rfl)
  have hself : (sampleEntry 2 2 7).address.equals (sampleAddress 0) = false ∧
      seededEntry.address.equals (sampleAddress 0) = false := by decide +kernel
  have hafter : knownAfter .sample [] (sampleEntry 2 2 7) = [rowKey .sample (sampleAddress 2)] :=
    if_pos hfirst.1
  refine (bootstrap_stores_iff (NetDB.new (sampleAddress 0)) (by rfl) Table.ok_new _).mpr ?_
  change ReachesAll .sample (sampleAddress 0) [] _
  rw [reachesAll_insertable hself.1 (verify_sampleEntry 2 2 7 []) hfirst, hafter,
    reachesAll_insertable hself.2 verify_seededEntry hsecond, ReachesAll]
  trivial

/-- In the other order the bootstrap returns an error after the first entry, and the second one, which
is valid, has no row. A nil element makes it panic. -/
theorem seed_behind_not_stored :
    (sampleEntry 2 2 7).verify .sample = .ok () ∧ seededEntry.verify .sample = .ok () ∧
      (bootstrap .sample (NetDB.new (sampleAddress 0))
        [some seededEntry, some (sampleEntry 2 2 7)]).2 =
          .error (.error "sql: no rows in result set") ∧
      (bootstrap .sample (NetDB.new (sampleAddress 0))
        [some seededEntry, some (sampleEntry 2 2 7)]).1.db.row
          (rowKey .sample (sampleAddress 2)) = none ∧
      ¬ Bootstraps .sample (NetDB.new (sampleAddress 0))
        [some seededEntry, some (sampleEntry 2 2 7)] ∧
      (bootstrap .sample (NetDB.new (sampleAddress 0)) [none]).2 = .error .panic ∧
      ¬ Bootstraps .sample (NetDB.new (sampleAddress 0)) [none] := by
  have hvalid := verify_sampleEntry 2 2 7 []
  obtain ⟨herror, hrow, hother⟩ : (bootstrap .sample (NetDB.new (sampleAddress 0))
          [some seededEntry, some (sampleEntry 2 2 7)]).2 =
        .error (.error "sql: no rows in result set") ∧
      (bootstrap .sample (NetDB.new (sampleAddress 0))
        [some seededEntry, some (sampleEntry 2 2 7)]).1.db.row
          (rowKey .sample (sampleAddress 2)) = none ∧
      (sampleEntry 2 2 7).address.equals (sampleAddress 0) = false := by decide +kernel
  refine ⟨hvalid, verify_seededEntry, herror, hrow, fun h => ?_, rfl, fun h => h.returns rfl⟩
  obtain ⟨r, hr⟩ := h.stores (sampleEntry 2 2 7) ⟨by simp, hother, hvalid⟩
  have haddr : (sampleEntry 2 2 7).address = sampleAddress 2 := rfl
  rw [haddr, hrow] at hr
  cases hr

end Zif.Node
