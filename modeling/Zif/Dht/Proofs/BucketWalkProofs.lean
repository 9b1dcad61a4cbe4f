import Zif.Dht.Proofs.ClosestProofs

/-!
# Proofs: walking over a bucket that its own queries reorder

`queryAddresses` and the inner loops of `FindClosest` range over a bucket while each `Query` moves the
address it is called with to the front of that bucket. They are meant to ask for every address once and
to return the entries in the order of the bucket. The first query shifts the array under the loop, so
that holds for buckets of at most two addresses only (`walk_in_bucket_order_iff`).
-/

namespace Zif.Dht

open Go Recency

variable {P : Prims}

namespace NetDB

variable {ndb : NetDB} {j : Nat} {s : Slice}

/-- `queryAddresses` over the slice `s` asks for the addresses `raws`, each in its turn, and returns
what there is for them. -/
def AsksInOrder (P : Prims) (ndb : NetDB) (s : Slice) (raws : List Bytes) : Prop :=
  (rangeQueried P none s s.len 0 ndb []).map Address.raw = raws ∧
    ∃ ndb', ndb.queryAddresses P s = (ndb', .ok (raws.map (ndb.db.found P)))

/-- The inner loop over bucket `j`, entered with the result `ret`, asks for the addresses `raws`, each
in its turn, and appends what there is for them. -/
def ScansInOrder (P : Prims) (ndb : NetDB) (j : Nat) (ret : List (Option Entry)) (raws : List Bytes) :
    Prop :=
  (∃ s, ndb.table.buckets[j]? = some s ∧
    (rangeQueried P (some bucketSize) s s.len 0 ndb ret).map Address.raw = raws) ∧
    ∃ ndb', ndb.scanBucket P j ret = (ndb', .ok (ret ++ raws.map (ndb.db.found P)))

theorem asksInOrder_iff (hs : ServedAt P ndb j) (hj : ndb.table.buckets[j]? = some s)
    (raws : List Bytes) : AsksInOrder P ndb s raws ↔ shifted (ndb.table.raws j) = raws := by
  obtain ⟨ndb', hmeets⟩ := rangeQuery_bucketAt none [] hs hj
  have hqueried : (rangeQueried P none s s.len 0 ndb []).map Address.raw =
      shifted (ndb.table.raws j) := hmeets.queried
  constructor
  · rintro ⟨hraws, -⟩
    rw [← hqueried, hraws]
  · rintro rfl
    exact ⟨hqueried, ndb', hmeets.result⟩

theorem scansInOrder_iff (hs : ServedAt P ndb j) (hj : ndb.table.buckets[j]? = some s)
    (ret : List (Option Entry)) (raws : List Bytes) : ScansInOrder P ndb j ret raws ↔
      (shifted (ndb.table.raws j)).take (bucketSize - ret.length) = raws := by
  obtain ⟨ndb', hmeets⟩ := rangeQuery_bucketAt (some bucketSize) ret hs hj
  have hqueried : (rangeQueried P (some bucketSize) s s.len 0 ndb ret).map Address.raw =
      (shifted (ndb.table.raws j)).take (bucketSize - ret.length) := hmeets.queried
  constructor
  · rintro ⟨⟨s', hs', hraws⟩, -⟩
    rw [hj] at hs'
    cases hs'
    rw [← hqueried, hraws]
  · rintro rfl
    refine ⟨⟨s, hj, hqueried⟩, ndb', ?_⟩
    rw [scanBucket, hj]
    exact hmeets.result

end NetDB

/-- **When a walk over a bucket is not disturbed by its own queries.** For every table that insertions
build and every bucket whose addresses have rows: `queryAddresses` asks for each address once and
returns the entries in order exactly if there are at most two addresses, and so does an inner loop of
`FindClosest`, unless there is room for one more result at most. -/
theorem walk_in_bucket_order_iff (P : Prims) (own : Address) (hown : own.raw.length = 20)
    (as : List Address) (has : ∀ a ∈ as, a.raw.length = 20) (t : Table)
    (hrun : as.foldlM (Table.insertIntoTable own) Table.new = .ok t) (db : DB) (j : Nat) (s : Slice)
    (hj : t.buckets[j]? = some s) (hrow : ∀ a ∈ t.bucket j, HasRow P db a) :
    (NetDB.AsksInOrder P ⟨own, t, db⟩ s (t.raws j) ↔ (t.bucket j).length ≤ 2) ∧
      ∀ ret, NetDB.ScansInOrder P ⟨own, t, db⟩ j ret ((t.raws j).take (bucketSize - ret.length)) ↔
        (t.bucket j).length ≤ 2 ∨ bucketSize ≤ ret.length + 1 := by
  obtain ⟨t', hrun', hp, -⟩ := Table.bucket_foldlM hown as has
  rw [hrun] at hrun'
  cases hrun'
  have hs : NetDB.ServedAt P ⟨own, t, db⟩ j := ⟨hown, hp, hrow⟩
  have hlen : (t.raws j).length = (t.bucket j).length := List.length_map _
  refine ⟨?_, fun ret => ?_⟩
  · rw [NetDB.asksInOrder_iff hs hj, ← hlen]
    exact shifted_eq_self_iff (hp.distinct j)
  · rw [NetDB.scansInOrder_iff hs hj, ← hlen]
    refine (take_shifted_eq_iff (hp.distinct j) _).trans (or_congr_right ?_)
    omega

open Table in
/-- A bucket of two peers. -/
theorem walk_in_bucket_order_two :
    ∃ t s, [lastByte 4, lastByte 5].foldlM (insertIntoTable (lastByte 0)) new = .ok t ∧
      t.buckets[157]? = some s ∧ t.bucket 157 = [lastByte 5, lastByte 4] ∧
      NetDB.AsksInOrder .sample ⟨lastByte 0, t, sampleRows⟩ s (t.raws 157) := by
  have hown : (lastByte 0).raw.length = 20 := by decide
  obtain ⟨t, hrun, hp, hbucket⟩ := bucket_foldlM hown [lastByte 4, lastByte 5] (by decide)
  obtain ⟨s, hs⟩ := hp.ok.exists_slice (show 157 < 160 by decide)
  have hview : t.bucket 157 = [lastByte 5, lastByte 4] := by
    rw [hbucket 157]
    decide +kernel
  have hrow : ∀ a ∈ t.bucket 157, HasRow .sample sampleRows a := by
    rw [hview]
    intro a ha
    refine hasRow_sampleRows a ?_
    simp only [List.mem_cons] at ha ⊢
    tauto
  have h := (walk_in_bucket_order_iff .sample (lastByte 0) hown [lastByte 4, lastByte 5]
    (by decide) t hrun sampleRows 157 s hs hrow).1
  exact ⟨t, s, hrun, hs, hview, h.mpr (by rw [hview]; decide)⟩

open Table in
/-- In a bucket of three peers the second is never asked for and the third is asked for twice. -/
theorem walk_skips_second_peer :
    ∃ t s ndb' ret, [lastByte 4, lastByte 5, lastByte 6].foldlM (insertIntoTable (lastByte 0)) new = .ok t ∧
      t.buckets[157]? = some s ∧ t.bucket 157 = [lastByte 6, lastByte 5, lastByte 4] ∧
      NetDB.queryAddresses .sample ⟨lastByte 0, t, sampleRows⟩ s = (ndb', .ok ret) ∧
      entryRaws ret = [some (lastByte 6).raw, some (lastByte 4).raw, some (lastByte 4).raw] ∧
      ¬NetDB.AsksInOrder .sample ⟨lastByte 0, t, sampleRows⟩ s (t.raws 157) := by
  have hown : (lastByte 0).raw.length = 20 := by decide
  obtain ⟨t, hrun, hp, hbucket⟩ := bucket_foldlM hown [lastByte 4, lastByte 5, lastByte 6] (by decide)
  have hserved := served_of_run hown (by decide) hasRow_sampleRows hrun
  obtain ⟨s, hs⟩ := hp.ok.exists_slice (show 157 < 160 by decide)
  have hview : t.bucket 157 = [lastByte 6, lastByte 5, lastByte 4] := by
    rw [hbucket 157]
    decide +kernel
  have hraws : t.raws 157 = [(lastByte 6).raw, (lastByte 5).raw, (lastByte 4).raw] := by
    rw [raws, hview]
    rfl
  obtain ⟨ndb', ret, hwalk, hret, -⟩ := NetDB.rangeQuery_bucket none [] hserved hs
  refine ⟨t, s, ndb', ret, hrun, hs, hview, hwalk, ?_, ?_⟩
  · have hmet : entryRaws ret = (shifted (t.raws 157)).map some := by
      simpa [entryRaws, NetDB.cut] using hret
    rw [hmet, hraws]
    rfl
  · rw [NetDB.asksInOrder_iff (hserved.servedAt 157) hs]
    show shifted (t.raws 157) ≠ t.raws 157
    rw [hraws]
    decide

end Zif.Dht
