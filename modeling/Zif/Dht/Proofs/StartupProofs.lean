import Zif.Dht.Startup
import Zif.Dht.Proofs.EntryProofs
import Zif.Dht.Proofs.StoreProofs
import Zif.Dht.Proofs.TableProofs

/-!
# Proofs: starting up

The entries that `QueryLatest` returns have no address, so none of them passes `Verify`, and the
routing table is as empty after `NewDHT` as before (`newDHT_eq`).
-/

namespace Zif.Dht

open Go

variable {P : Prims}

/-- The entries of `QueryLatest` have no address. -/
theorem DB.raw_of_queryLatest {db : DB} {es : List Entry} (h : db.queryLatest = .ok es) :
    ∀ e ∈ es, e.address.raw = [] := by
  unfold DB.queryLatest at h
  generalize db.selectLatest = rows at h
  induction rows generalizing es with
  | nil =>
    cases h
    intro e he
    cases he
  | cons r rows ih =>
    rw [List.mapM_cons] at h
    cases hs : db.querySeeds r.id with
    | error f => simp [hs, bind, Except.bind] at h
    | ok seeds =>
      cases hg : db.querySeeding r.id with
      | error f => simp [hs, hg, bind, Except.bind] at h
      | ok seeding =>
        simp only [hs, hg, bind, Except.bind] at h ih
        split at h
        · cases h
        · rename_i es' htail
          cases h
          intro e he
          rcases List.mem_cons.mp he with rfl | he
          · rfl
          · exact ih htail e he

/-- `Insert` refuses an entry without an address. -/
theorem NetDB.insert_of_raw_nil (ndb : NetDB) {e : Entry} (he : e.address.raw = []) :
    ndb.insert P e = (ndb, .error (.error "Address size invalid")) := by
  have hv : e.verify P = .error (.error "Address size invalid") := by
    rw [Entry.verify, if_pos (by rw [he]; decide)]
  rw [NetDB.insert, hv]

theorem NetDB.insertLatest_of_raw_nil {es : List Entry} (hes : ∀ e ∈ es, e.address.raw = [])
    (ndb : NetDB) : ndb.insertLatest P es = .ok ndb := by
  induction es with
  | nil => rfl
  | cons e es ih =>
    rw [NetDB.insertLatest, ndb.insert_of_raw_nil (hes e List.mem_cons_self)]
    exact ih fun e' he' => hes e' (List.mem_cons_of_mem e he')

/-- When `NewDHT` returns, it returns the store with the routing table it started with. -/
theorem newDHT_eq {addr : Address} {db : DB} {ndb : NetDB} (h : newDHT P addr db = .ok ndb) :
    ndb = ⟨addr, Table.new, db⟩ := by
  unfold newDHT at h
  cases hq : db.queryLatest with
  | error f =>
    cases f with
    | error msg =>
      simp only [hq] at h
      cases h
      rfl
    | panic =>
      simp only [hq] at h
      cases h
  | ok es =>
    simp only [hq] at h
    rw [NetDB.insertLatest_of_raw_nil (DB.raw_of_queryLatest hq)] at h
    cases h
    rfl

/-- **The routing table is not refilled.** Whatever the database holds, the table is empty once
`NewDHT` returns. So it contains the addresses of the latest rows whose entries pass `Verify` only if
there are none. -/
theorem refills_iff (P : Prims) (addr : Address) (db : DB) :
    (∀ ndb, newDHT P addr db = .ok ndb → ∀ j, ndb.table.bucket j = []) ∧
      (Refills P addr db ↔
        ∀ r ∈ db.selectLatest, ∀ e, db.storedEntry r = .ok e → e.verify P ≠ .ok ()) := by
  have hempty : ∀ ndb, newDHT P addr db = .ok ndb → ∀ j, ndb.table.bucket j = [] := by
    intro ndb h j
    rw [newDHT_eq h]
    exact Table.bucket_new j
  refine ⟨hempty, ?_, ?_⟩
  · intro hfull r hr e he hv
    obtain ⟨ndb, hnew, j, a, ha, -⟩ := hfull r hr e he hv
    rw [hempty ndb hnew j] at ha
    cases ha
  · intro hnone r hr e he hv
    exact absurd hv (hnone r hr e he)

/-- A database with one entry, put there by `Insert`. The entry passes `Verify` as it is stored, and the
routing table is empty after the next start. -/
theorem latest_entry_not_refilled :
    let db := ((NetDB.new (sampleAddress 0)).insert .sample (sampleEntry 1 1 7)).1.db
    (∃ r ∈ db.selectLatest, ∃ e, db.storedEntry r = .ok e ∧ e.verify .sample = .ok () ∧
        e.address.raw = (sampleAddress 1).raw) ∧
      newDHT .sample (sampleAddress 0) db = .ok ⟨sampleAddress 0, Table.new, db⟩ ∧
      ¬Refills .sample (sampleAddress 0) db := by
  intro db
  obtain ⟨hlatest, hread, hnew⟩ : db.selectLatest = [DB.newRow .sample 1
        (Prims.sample.store ((sampleAddress 1).string .sample)) (sampleEntry 1 1 7)] ∧
      db.storedEntry (DB.newRow .sample 1
        (Prims.sample.store ((sampleAddress 1).string .sample)) (sampleEntry 1 1 7)) =
          .ok { sampleEntry 1 1 7 with address := { raw := (sampleAddress 1).raw } } ∧
      newDHT .sample (sampleAddress 0) db = .ok ⟨sampleAddress 0, Table.new, db⟩ := by decide +kernel
  have hstored : ∃ e, db.storedEntry (DB.newRow .sample 1
      (Prims.sample.store ((sampleAddress 1).string .sample)) (sampleEntry 1 1 7)) = .ok e ∧
      e.verify .sample = .ok () ∧ e.address.raw = (sampleAddress 1).raw :=
    ⟨_, hread, verify_sampleEntry 1 1 7 [], rfl⟩
  obtain ⟨e, he, hv, hraw⟩ := hstored
  refine ⟨⟨_, by rw [hlatest]; exact List.mem_singleton_self _, e, he, hv, hraw⟩, hnew, ?_⟩
  intro hfull
  obtain ⟨ndb, hnew', j, a, ha, -⟩ := hfull _ (by rw [hlatest]; exact List.mem_singleton_self _) e he hv
  rw [newDHT_eq hnew', show (⟨sampleAddress 0, Table.new, db⟩ : NetDB).table = Table.new from rfl,
    Table.bucket_new] at ha
  cases ha

end Zif.Dht
