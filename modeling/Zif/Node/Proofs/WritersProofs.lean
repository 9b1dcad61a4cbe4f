import Zif.Node.Writers
import Zif.Dht.Proofs.AddressProofs
import Zif.Dht.Proofs.EntryProofs
import Zif.Dht.Proofs.StoreProofs
import Zif.Lib.Proofs.RunsProofs

/-!
# Proofs: what the writers store

Whatever the network sends, a step either leaves the database alone or puts in the entry it was sent,
which has passed `Verify` (`step_db`). Nothing else guards a row, so the two promises one would expect
of the store come down to conditions on the entries themselves: that an address belongs to the key
that signs for it (`run_bound`), and that a row never goes back in time (`run_fresh`).
-/

namespace Zif.Node

open Go Dht Runs

variable {P : Prims} {ndb : NetDB}

/-! ## What a step stores -/

theorem dropError_fst {α : Type} (call : NetDB × Result α) : (dropError call).1 = call.1 := by
  rcases call with ⟨ndb', (_ | _) | _⟩ <;> rfl

theorem eq_of_handshakeRecieve {header entry : Entry} {cookie signature : Bytes}
    (h : handshakeRecieve P header cookie signature = .ok entry) : entry = header := by
  unfold handshakeRecieve at h
  cases hv : header.verify P with
  | error f => simp [hv, bind, Except.bind] at h
  | ok u =>
    cases hs : P.ed25519Verify header.publicKey cookie signature with
    | error f => simp [hv, hs, bind, Except.bind] at h
    | ok verified => cases verified <;> simp_all [bind, Except.bind]

theorem eq_of_getEntry {address : Address} {reply entry : Entry}
    (h : getEntry P address reply = .ok entry) : entry = reply := by
  unfold getEntry clientQuery at h
  cases hv : reply.verify P with
  | error f => simp [hv, bind, Except.bind] at h
  | ok u =>
    simp only [hv, bind, Except.bind] at h
    split at h
    · simp at h
    · injection h with h
      exact h.symm

theorem db_query_of_query {a : Address} {ndb' : NetDB} {found : Option (Entry × Nat)}
    (h : ndb.query P a = (ndb', .ok found)) : ndb.db.query P a = .ok found := by
  unfold NetDB.query at h
  cases hq : ndb.db.query P a with
  | error f => simp [hq] at h
  | ok found' =>
    rcases found' with _ | ⟨e, id⟩
    · simp only [hq, Prod.mk.injEq, Except.ok.injEq] at h
      rw [h.2]
    · simp only [hq] at h
      split at h <;> simp_all

/-- The explorer stores an entry it has no row for, or one that is newer or has more seeds. -/
theorem explore_db (ndb : NetDB) (i : Entry) : (explore P ndb i).1.db = ndb.db ∨
    i.verify P = .ok () ∧ (explore P ndb i).1.db = ndb.db.put P i ∧
      ∃ found, ndb.db.query P i.address = .ok found ∧ ∀ current id, found = some (current, id) →
        i.updated > current.updated ∨ i.seeds.length > current.seeds.length := by
  unfold explore
  have hdb := NetDB.query_db (P := P) ndb i.address
  rcases hq : ndb.query P i.address with ⟨ndb', (_ | _) | found⟩
  · rw [hq] at hdb
    exact Or.inl hdb
  · rw [hq] at hdb
    exact Or.inl hdb
  · rw [hq] at hdb
    simp only at hdb ⊢
    have hfound := db_query_of_query hq
    have hinsert : (dropError (ndb'.insert P i)).1.db = ndb.db ∨
        i.verify P = .ok () ∧ (dropError (ndb'.insert P i)).1.db = ndb.db.put P i := by
      rw [dropError_fst, ← hdb]
      exact NetDB.insert_db ndb' i
    split
    · exact Or.inl hdb
    · rcases found with _ | ⟨current, id⟩
      · exact hinsert.imp_right fun h => ⟨h.1, h.2, none, hfound, by simp⟩
      · simp only
        split
        · rename_i hnewer
          refine hinsert.imp_right fun h => ⟨h.1, h.2, some (current, id), hfound, ?_⟩
          intro c id' heq
          rw [Option.some.injEq, Prod.mk.injEq] at heq
          exact Or.inl (heq.1 ▸ hnewer)
        · split
          · rename_i hmore
            refine hinsert.imp_right fun h => ⟨h.1, h.2, some (current, id), hfound, ?_⟩
            intro c id' heq
            rw [Option.some.injEq, Prod.mk.injEq] at heq
            exact Or.inr (heq.1 ▸ hmore)
          · exact Or.inl hdb

/-- A step leaves the database alone or puts in the verified entry it was sent. -/
theorem step_db (ndb : NetDB) (ev : Event) : (step P ndb ev).db = ndb.db ∨
    ∃ e, ev.entry = some e ∧ e.verify P = .ok () ∧ (step P ndb ev).db = ndb.db.put P e := by
  cases ev with
  | announce e =>
    have h := NetDB.insert_db (P := P) ndb e
    have hfst : (handleAnnounce P ndb e).1 = (ndb.insert P e).1 := by
      unfold handleAnnounce
      rcases ndb.insert P e with ⟨ndb', (_ | _) | affected⟩
      · rfl
      · rfl
      · simp only
        split <;> rfl
    rw [← hfst] at h
    exact h.imp_right fun h => ⟨e, rfl, h⟩
  | handshake header cookie signature reply =>
    simp only [step, handleHandshake]
    cases hh : handshakeRecieve P header cookie signature with
    | error f => exact Or.inl rfl
    | ok header' =>
      simp only
      cases he : getEntry P header'.address reply with
      | error f => exact Or.inl rfl
      | ok entry =>
        simp only [dropError_fst]
        rw [eq_of_getEntry he]
        exact (NetDB.insert_db ndb reply).imp_right fun h => ⟨reply, rfl, h⟩
  | connect header cookie signature =>
    simp only [step, connect]
    cases hh : handshakeRecieve P header cookie signature with
    | error f => exact Or.inl rfl
    | ok entry =>
      simp only [dropError_fst]
      rw [eq_of_handshakeRecieve hh]
      exact (NetDB.insert_db ndb header).imp_right fun h => ⟨header, rfl, h⟩
  | bootstrap i =>
    simp only [step, bootstrapPeer]
    cases i with
    | none => exact Or.inl rfl
    | some i =>
      simp only
      have h := (NetDB.insert_db (P := P) ndb i).imp_right fun h =>
        (⟨i, rfl, h⟩ : ∃ e, (Event.bootstrap (some i)).entry = some e ∧ e.verify P = .ok () ∧
          (ndb.insert P i).1.db = ndb.db.put P e)
      split
      · exact Or.inl rfl
      · split
        · exact Or.inl rfl
        · exact Or.inl rfl
        · split <;> simp_all
  | explore i => exact (explore_db ndb i).imp_right fun h => ⟨i, rfl, h.1, h.2.1⟩

/-! ## Who a row belongs to -/

/-- Every row is stored under the address of its own public key. -/
def Bound (P : Prims) (db : DB) : Prop :=
  ∀ r ∈ db.entries, r.address = P.store ((Address.newAddress P r.publicKey).string P)

/-- The check that nothing makes: the address of an entry is the one its key stands for. -/
def OwnsAddress (P : Prims) (e : Entry) : Prop :=
  e.address.string P = (Address.newAddress P e.publicKey).string P

theorem bound_put {db : DB} {e : Entry} (hdb : Bound P db) (he : OwnsAddress P e) :
    Bound P (db.put P e) := by
  intro r hr
  rcases DB.mem_put hr with h | ⟨r₀, rfl, haddr⟩
  · exact hdb r h
  · rw [haddr, he]
    rfl

theorem bound_step {ev : Event} (hdb : Bound P ndb.db)
    (hev : ∀ e, ev.entry = some e → e.verify P = .ok () → OwnsAddress P e) :
    Bound P (step P ndb ev).db := by
  rcases step_db (P := P) ndb ev with h | ⟨e, hentry, hverify, h⟩
  · rwa [h]
  · rw [h]
    exact bound_put hdb (hev e hentry hverify)

/-- **When rows belong to their keys.** If every entry that the network sends and that passes `Verify`
carries the address of its own key, then so does every row, in every state the node reaches. -/
theorem run_bound (P : Prims) (addr : Address) (evs : List Event)
    (hevs : ∀ ev ∈ evs, ∀ e, ev.entry = some e → e.verify P = .ok () → OwnsAddress P e)
    (pre post : List Event) (hpre : evs = pre ++ post) : Bound P (runFrom P addr pre).db := by
  have hall : ∀ ev ∈ pre, ∀ e, ev.entry = some e → e.verify P = .ok () → OwnsAddress P e :=
    fun ev hev => hevs ev (by simp [hpre, hev])
  exact (always_of_forall hall).invariant (I := fun ndb : NetDB => Bound P ndb.db)
    (by simp [Bound, NetDB.new, DB.new]) fun ndb ev hdb hev => bound_step hdb hev

/-- An honest announce. -/
theorem run_bound_honest :
    Bound .sample (runFrom .sample (sampleAddress 0) [.announce (sampleEntry 1 1 7)]).db := by
  refine run_bound .sample (sampleAddress 0) [.announce (sampleEntry 1 1 7)] ?_ _ [] (by simp)
  intro ev hev e he _
  rw [List.mem_singleton] at hev
  subst hev
  injection he with he
  subst he
  exact (Address.canonical_iff.mp (Address.canonical_newAddress .sample _)).symm

/-- An announce signed with another key takes over the row of an address. -/
theorem announce_takes_over_row :
    (sampleEntry 1 1 7).verify .sample = .ok () ∧ (sampleEntry 1 2 7).verify .sample = .ok () ∧
      (runFrom .sample (sampleAddress 0)
        [.announce (sampleEntry 1 1 7), .announce (sampleEntry 1 2 7)]).db.entries.map
        (fun r => (r.address, r.publicKey)) =
          [(Prims.sample.store ((sampleAddress 1).string .sample), Prims.sample.edPublic [2])] ∧
      ¬ Bound .sample (runFrom .sample (sampleAddress 0)
        [.announce (sampleEntry 1 1 7), .announce (sampleEntry 1 2 7)]).db := by
  refine ⟨verify_sampleEntry 1 1 7 [], verify_sampleEntry 1 2 7 [], ?_⟩
  unfold Bound
  decide +kernel

/-! ## How old a row is -/

/-- No row is lost, and none gets an earlier time of update. -/
def NoRollback (db db' : DB) : Prop :=
  ∀ c r, db.row c = some r → ∃ r', db'.row c = some r' ∧ r.updated ≤ r'.updated

theorem NoRollback.refl (db : DB) : NoRollback db db := fun _ r h => ⟨r, h, UInt64.le_refl _⟩

theorem NoRollback.trans {db db' db'' : DB} (h : NoRollback db db') (h' : NoRollback db' db'') :
    NoRollback db db'' := by
  intro c r hr
  obtain ⟨r', hr', hle⟩ := h c r hr
  obtain ⟨r'', hr'', hle'⟩ := h' c r' hr'
  exact ⟨r'', hr'', UInt64.le_trans hle hle'⟩

/-- The signed columns of a row, as they are read back. -/
def SameSigned (e e' : Entry) : Prop :=
  e.name = e'.name ∧ e.desc = e'.desc ∧ e.publicAddress = e'.publicAddress ∧
    e.publicKey = e'.publicKey ∧ e.port = e'.port ∧ e.postCount = e'.postCount ∧
    e.updated = e'.updated ∧ e.collectionHash = e'.collectionHash

/-- When the explorer takes an entry for its seeds alone, the stored entry keeps what is signed and
has the seeds of both. -/
def KeepsCurrent (P : Prims) (ndb : NetDB) (ev : Event) : Prop :=
  ∀ i current id, ev = .explore i → ndb.db.query P i.address = .ok (some (current, id)) →
    i.updated ≤ current.updated → current.seeds.length < i.seeds.length → i.verify P = .ok () →
    ∃ e, (step P ndb ev).db.query P i.address = .ok (some (e, id)) ∧ SameSigned e current ∧
      e.address = current.address ∧ e.seeding = current.seeding ∧
      ∀ s, s ∈ e.seeds ↔ s ∈ current.seeds ∨ s ∈ i.seeds

/-- The condition on a step: the entry it stores is no older than the row it overwrites. The explorer
checks this itself, but not for an entry it takes for its seeds; such an entry has to be the stored
one, with no seed that is not known and with texts that the columns give back as they are. -/
def Fresh (P : Prims) (ndb : NetDB) : Event → Prop
  | .explore i => i.verify P = .ok () →
    ∀ current id, ndb.db.query P i.address = .ok (some (current, id)) →
      i.updated ≤ current.updated → current.seeds.length < i.seeds.length →
      SameSigned i current ∧ (∀ s ∈ i.seeds, s ∈ current.seeds) ∧
        P.ReadsBack i.name ∧ P.ReadsBack i.desc ∧ P.ReadsBack i.publicAddress
  | ev => ∀ e, ev.entry = some e → e.verify P = .ok () → driverAccepts e.updated = true →
    ∀ r, ndb.db.row (P.store (e.address.string P)) = some r → r.updated ≤ e.updated

theorem noRollback_put {db : DB} {e : Entry}
    (h : driverAccepts e.updated = true →
      ∀ r, db.row (P.store (e.address.string P)) = some r → r.updated ≤ e.updated) :
    NoRollback db (db.put P e) := by
  intro c r hr
  by_cases he : driverAccepts e.updated = true
  · by_cases hc : c = P.store (e.address.string P)
    · subst hc
      obtain ⟨r₀, hrow, -⟩ := DB.row_put_self db he
      exact ⟨_, hrow, h he r hr⟩
    · exact ⟨r, by rw [DB.row_put_of_ne hc, hr], UInt64.le_refl _⟩
  · exact ⟨r, by rw [DB.put, if_pos (by simp [he]), hr], UInt64.le_refl _⟩

theorem noRollback_step {ev : Event} (h : Fresh P ndb ev) : NoRollback ndb.db (step P ndb ev).db := by
  cases ev with
  | explore i =>
    rcases explore_db (P := P) ndb i with hdb | ⟨hverify, hdb, found, hquery, hreason⟩
    · rw [step, hdb]
      exact NoRollback.refl _
    · rw [step, hdb]
      refine noRollback_put fun _ r hr => ?_
      rcases DB.query_eq_ok hquery with ⟨hnone, -⟩ | ⟨r', decoded, seeds, seeding, hr', -, -, -, hfound⟩
      · simp [hnone] at hr
      · rw [hr] at hr'
        cases hr'
        subst hfound
        rcases hreason _ _ rfl with hnewer | hmore
        · exact UInt64.le_of_lt hnewer
        · rcases UInt64.le_total r.updated i.updated with hle | hle
          · exact hle
          · obtain ⟨⟨-, -, -, -, -, -, hupdated, -⟩, -⟩ := h hverify _ _ hquery hle hmore
            rw [hupdated]
            exact UInt64.le_refl _
  | announce e | handshake header cookie signature reply | connect header cookie signature
  | bootstrap i =>
    rcases step_db (P := P) ndb _ with hdb | ⟨e, hentry, hverify, hdb⟩
    · rw [hdb]
      exact NoRollback.refl _
    · rw [hdb]
      exact noRollback_put (h e hentry hverify)

theorem keepsCurrent_step {ev : Event} (h : Fresh P ndb ev) : KeepsCurrent P ndb ev := by
  rintro i current id rfl hquery hle hmore hverify
  obtain ⟨hsame, hseeds, hnameBack, hdescBack, hpubBack⟩ := h hverify current id hquery hle hmore
  have hunion : ∀ s, s ∈ current.seeds ↔ s ∈ current.seeds ∨ s ∈ i.seeds :=
    fun s => ⟨Or.inl, fun hs => hs.elim (fun h => h) (hseeds s)⟩
  have hunchanged : ∃ e, ndb.db.query P i.address = .ok (some (e, id)) ∧ SameSigned e current ∧
      e.address = current.address ∧ e.seeding = current.seeding ∧
      ∀ s, s ∈ e.seeds ↔ s ∈ current.seeds ∨ s ∈ i.seeds :=
    ⟨current, hquery, ⟨rfl, rfl, rfl, rfl, rfl, rfl, rfl, rfl⟩, rfl, rfl, hunion⟩
  rcases explore_db (P := P) ndb i with hdb | ⟨-, hdb, -⟩
  · rwa [step, hdb]
  · rw [step, hdb]
    by_cases he : driverAccepts i.updated = true
    · rcases DB.query_eq_ok hquery with ⟨-, hnone⟩ | ⟨r, decoded, seeds, seeding, hr, hd, hs, hg, hfound⟩
      · simp at hnone
      · rw [Option.some.injEq, Prod.mk.injEq] at hfound
        obtain ⟨rfl, rfl⟩ := hfound
        have hput : ndb.db.put P i = ndb.db.overwrite P i := by
          rw [DB.put, if_neg (by simp [he]), hr]
        obtain ⟨hname, hdesc, hpub, hkey, hport, hcount, hupdated, hhash⟩ := hsame
        have hrow : (ndb.db.overwrite P i).row (P.store (i.address.string P)) =
            some (DB.setColumns P r i) := by
          rw [DB.row_overwrite, hr, Option.map_some, if_pos (DB.address_of_row hr)]
        refine ⟨DB.readRow (DB.setColumns P r i) decoded seeds seeding, ?_, ?_, rfl, rfl, hunion⟩
        · rw [hput]
          exact DB.query_of_row hrow hd (by rwa [DB.querySeeds, DB.selectSeeds_overwrite])
            (by rwa [DB.querySeeding, DB.selectSeeding_overwrite])
        · refine ⟨?_, ?_, ?_, hkey, hport, hcount, hupdated, hhash⟩
          · exact hnameBack.trans hname
          · exact hdescBack.trans hdesc
          · exact hpubBack.trans hpub
    · rwa [DB.put, if_pos (by simp [he])]

/-- **When rows do not go back in time.** In a run all of whose steps are `Fresh`, the time of update
of a row never decreases between two states of the run, and entries taken for their seeds keep what is
signed and join the seeds. -/
theorem run_fresh (P : Prims) (addr : Address) (evs : List Event)
    (hevs : Always (step P) (Fresh P) (NetDB.new addr) evs) :
    (∀ pre mid post, evs = pre ++ mid ++ post →
      NoRollback (runFrom P addr pre).db (runFrom P addr (pre ++ mid)).db) ∧
    Always (step P) (KeepsCurrent P) (NetDB.new addr) evs := by
  constructor
  · rintro pre mid post rfl
    have hmid : Always (step P) (Fresh P) (runFrom P addr pre) mid := hevs.left.right
    have hrun : runFrom P addr (pre ++ mid) = run (step P) (runFrom P addr pre) mid := run_append mid
    rw [hrun]
    exact hmid.invariant (I := fun ndb : NetDB => NoRollback (runFrom P addr pre).db ndb.db)
      (NoRollback.refl _) fun ndb ev hI hev => hI.trans (noRollback_step hev)
  · exact fun pre ev post hsplit => keepsCurrent_step (hevs pre ev post hsplit)

/-- An entry and a later one of the same peer. -/
theorem run_fresh_later :
    NoRollback (runFrom .sample (sampleAddress 0) [.announce (sampleEntry 1 1 7)]).db
      (runFrom .sample (sampleAddress 0)
        [.announce (sampleEntry 1 1 7), .announce (sampleEntry 1 1 9)]).db := by
  have hfresh : ∀ ndb : NetDB, ∀ e : Entry,
      (ndb.db.row (Prims.sample.store (e.address.string .sample))).all
        (fun r => decide (r.updated ≤ e.updated)) = true → Fresh .sample ndb (.announce e) := by
    intro ndb e hall e' he _ _ r hr
    injection he with he
    subst he
    simpa [hr] using hall
  refine (run_fresh .sample (sampleAddress 0)
    [.announce (sampleEntry 1 1 7), .announce (sampleEntry 1 1 9)] ?_).1
    [.announce (sampleEntry 1 1 7)] [.announce (sampleEntry 1 1 9)] [] rfl
  exact .cons (hfresh _ _ rfl) (.cons (hfresh _ _ (by decide +kernel)) always_nil)

/-- A replayed announce takes a row back in time, and so does an old entry that the explorer finds
with one more seed. -/
theorem old_entry_rolls_back :
    let older := { sampleEntry 1 1 7 with seeds := [(sampleAddress 2).raw] }
    (runFrom .sample (sampleAddress 0) [.announce (sampleEntry 1 1 9)]).db.entries.map
        EntryRow.updated = [9] ∧
      (runFrom .sample (sampleAddress 0)
        [.announce (sampleEntry 1 1 9), .announce (sampleEntry 1 1 7)]).db.entries.map
          EntryRow.updated = [7] ∧
      (runFrom .sample (sampleAddress 0)
        [.announce (sampleEntry 1 1 9), .explore older]).db.entries.map EntryRow.updated = [7] ∧
      ¬ NoRollback (runFrom .sample (sampleAddress 0) [.announce (sampleEntry 1 1 9)]).db
        (runFrom .sample (sampleAddress 0)
          [.announce (sampleEntry 1 1 9), .explore older]).db := by
  intro older
  obtain ⟨hfirst, hreplay, hafter, hrow⟩ :
      (runFrom .sample (sampleAddress 0) [.announce (sampleEntry 1 1 9)]).db.entries.map
          EntryRow.updated = [9] ∧
        (runFrom .sample (sampleAddress 0)
          [.announce (sampleEntry 1 1 9), .announce (sampleEntry 1 1 7)]).db.entries.map
            EntryRow.updated = [7] ∧
        (runFrom .sample (sampleAddress 0)
          [.announce (sampleEntry 1 1 9), .explore older]).db.entries.map EntryRow.updated = [7] ∧
        ((runFrom .sample (sampleAddress 0) [.announce (sampleEntry 1 1 9)]).db.row
          (Prims.sample.store ((sampleAddress 1).string .sample))).map EntryRow.updated = some 9 := by
    decide +kernel
  refine ⟨hfirst, hreplay, hafter, fun h => ?_⟩
  obtain ⟨r, hr, hr9⟩ := Option.map_eq_some_iff.mp hrow
  obtain ⟨r', hr', hle⟩ := h _ r hr
  have hmem : r'.updated ∈ (runFrom .sample (sampleAddress 0)
      [.announce (sampleEntry 1 1 9), .explore older]).db.entries.map EntryRow.updated :=
    List.mem_map_of_mem (DB.mem_of_row hr')
  rw [hafter, List.mem_singleton] at hmem
  rw [hr9, hmem] at hle
  exact absurd hle (by decide)

end Zif.Node
