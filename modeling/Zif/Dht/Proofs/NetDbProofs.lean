import Zif.Dht.Proofs.TableProofs

/-!
# Proofs: queries of the peer store

An address has a row when `Query` finds it. Such a query changes nothing in the database, returns the
entry of that address and moves the address to the front of its bucket (`query_of_hasRow`).
-/

namespace Zif.Dht

open Go Recency

variable {P : Prims}

namespace Table

variable {own addr : Address} {t t' : Table}

theorem Inserted.bucket_here (hi : Inserted own addr t t') (hp : Placed own t) :
    t'.bucket (bucketOf own addr) =
      (promote Address.raw (t.bucket (bucketOf own addr)) addr).take bucketSize := by
  rw [hi.here, touch_eq_take (by decide) (hp.distinct _) (hp.length_le _)]

/-- An insertion brings in no other address. -/
theorem Inserted.mem_bucket (hi : Inserted own addr t t') (hp : Placed own t) {j : Nat} {a : Address}
    (ha : a ∈ t'.bucket j) : a ∈ t.bucket j ∨ (a = addr ∧ j = bucketOf own addr) := by
  by_cases hj : j = bucketOf own addr
  · subst hj
    rw [hi.bucket_here hp] at ha
    rcases mem_promote.mp (List.mem_of_mem_take ha) with h | h
    · exact Or.inr ⟨h, rfl⟩
    · exact Or.inl h.1
  · rw [hi.bucket_other hp.ok hj] at ha
    exact Or.inl ha

/-- Insertions keep the table in order. -/
theorem Placed.inserted (hp : Placed own t) (hi : Inserted own addr t t')
    (ha : addr.raw.length = 20) : Placed own t' := by
  refine ⟨hi.ok, fun j => ?_, fun j => ?_, fun j a haj => ?_, fun j a haj => ?_⟩
  · by_cases hj : j = bucketOf own addr
    · subst hj
      rw [hi.bucket_here hp]
      exact ((hp.distinct _).promote addr).sublist ((List.take_sublist _ _).map _)
    · rw [hi.bucket_other hp.ok hj]
      exact hp.distinct j
  · by_cases hj : j = bucketOf own addr
    · subst hj
      rw [hi.bucket_here hp, List.length_take]
      exact Nat.min_le_left _ _
    · rw [hi.bucket_other hp.ok hj]
      exact hp.length_le j
  · rcases hi.mem_bucket hp haj with h | ⟨rfl, -⟩
    · exact hp.raw_length j a h
    · exact ha
  · rcases hi.mem_bucket hp haj with h | ⟨rfl, rfl⟩
    · exact hp.home j a h
    · rfl

/-- Inserting an address that is present moves it to the front. -/
theorem Inserted.raws_eq (hp : Placed own t) (hi : Inserted own addr t t')
    (hmem : addr.raw ∈ t.raws (bucketOf own addr)) :
    t'.raws (bucketOf own addr) = promote id (t.raws (bucketOf own addr)) addr.raw := by
  unfold raws at hmem ⊢
  rw [hi.here, map_touch_of_mem (by decide) (hp.distinct _) (hp.length_le _) hmem]

end Table

/-- A cached text that is that of the bytes changes nothing. -/
theorem HasRow.query_eq {db : DB} {a : Address} (h : HasRow P db a) :
    db.query P a = db.query P { raw := a.raw } := by
  unfold DB.query
  rw [h.1, Address.string_of_encoded_nil]

theorem HasRow.of_raw {db : DB} {a : Address} (h : HasRow P db a) : HasRow P db { raw := a.raw } :=
  ⟨Address.string_of_encoded_nil P a.raw, h.2⟩

/-- The entry found for a 20-byte address carries that address. -/
theorem DB.query_address {db : DB} {raw : Bytes} (hraw : raw.length = 20) {e : Entry} {id : Nat}
    (h : db.query P { raw } = .ok (some (e, id))) : e.address = { raw } := by
  unfold DB.query at h
  rw [Address.string_of_encoded_nil] at h
  cases hrow : db.row (P.store (Address.encodeRaw P raw)) with
  | none => simp [hrow] at h
  | some r =>
    have haddr : r.address = P.store (Address.encodeRaw P raw) := by
      simpa using List.find?_some hrow
    rw [Address.store_encodeRaw P hraw] at haddr
    have hdecode : Address.decodeAddress r.address.load = .ok { raw } := by
      rw [haddr]
      exact Address.decodeAddress_encodeRaw P raw
    simp only [hrow, hdecode] at h
    cases hseeds : db.querySeeds r.id with
    | error f => simp [hseeds, bind, Except.bind] at h
    | ok seeds =>
      cases hseeding : db.querySeeding r.id with
      | error f => simp [hseeds, hseeding, bind, Except.bind] at h
      | ok seeding =>
        simp only [hseeds, hseeding, bind, Except.bind, Except.ok.injEq, Option.some.injEq,
          Prod.mk.injEq] at h
        rw [← h.1]
        rfl

namespace NetDB

variable {ndb : NetDB} {a : Address}

/-- A query that finds a row moves the address to the front and changes nothing else. -/
theorem query_of_hasRow (hp : Table.Placed ndb.addr ndb.table) (hown : ndb.addr.raw.length = 20)
    (ha : a.raw.length = 20) (hrow : HasRow P ndb.db a) :
    ∃ t e id, ndb.query P a = ({ ndb with table := t }, .ok (some (e, id))) ∧
      e.address = { raw := a.raw } ∧ ndb.db.found P a.raw = some e ∧
      Table.Inserted ndb.addr { raw := a.raw } ndb.table t := by
  have hsame := hrow.query_eq
  obtain ⟨-, ⟨e, id⟩, hfound⟩ := hrow
  have haddr := DB.query_address ha hfound
  obtain ⟨t, hins, hspec⟩ := Table.insertIntoTable_spec hp.ok hown { raw := a.raw } ha
  refine ⟨t, e, id, ?_, haddr, by rw [DB.found, hfound]; rfl, hspec⟩
  simp only [query, hsame, hfound, haddr, insertIntoTable, hins]
  rfl

end NetDB

end Zif.Dht
