import Zif.Dht.Proofs.BucketOrderProofs
import Zif.Dht.Proofs.ClosestProofs

/-!
# Proofs: the own address in the table

`FindClosest` only reorders the buckets of the table (`findClosest_keeps`), and it walks over the bucket of its
target twice. A node that has its own address in the table therefore finds itself twice when it looks for
the addresses closest to its own (`two_le_count_closestRaws`), and in a small table it finds itself whatever it
looks for (`mem_closestRaws_of_small`).
-/

namespace Zif.Dht

open Go Recency

variable {P : Prims}

/-! ## FindClosest keeps the addresses -/

namespace NetDB

variable {ndb ndb' : NetDB}

/-- The buckets hold the same addresses, in another order. -/
structure Keeps (P : Prims) (ndb ndb' : NetDB) : Prop where
  addr : ndb'.addr = ndb.addr
  served : Served P ndb'
  raws : ∀ j, (ndb'.table.raws j).Perm (ndb.table.raws j)

theorem Keeps.refl (hs : Served P ndb) : Keeps P ndb ndb := ⟨rfl, hs, fun _ => List.Perm.refl _⟩

theorem Keeps.trans {ndb'' : NetDB} (h : Keeps P ndb ndb') (h' : Keeps P ndb' ndb'') : Keeps P ndb ndb'' :=
  ⟨h'.addr.trans h.addr, h'.served, fun j => (h'.raws j).trans (h.raws j)⟩

theorem Walked.keeps {j : Nat} {met : List Bytes} (h : Walked P ndb ndb' j met) (hs : Served P ndb)
    (hmet : ∀ x ∈ met, x ∈ ndb.table.raws j) : Keeps P ndb ndb' := by
  refine ⟨h.addr, h.served, fun i => ?_⟩
  by_cases hi : i = j
  · subst hi
    rw [h.here]
    exact perm_foldl_promote met (hs.placed.nodup_raws i) hmet
  · rw [h.other i hi]

theorem scanBuckets_keeps {js : List Nat} (ret : List (Option Entry)) (hs : Served P ndb)
    (hjs : ∀ j ∈ js, j < 160) : Keeps P ndb (ndb.scanBuckets P js ret).1 := by
  induction js generalizing ndb ret with
  | nil => exact .refl hs
  | cons j js ih =>
    obtain ⟨ndb₁, ret₁, hrun, -, hwalk⟩ := scanBucket_spec ret hs (hjs j List.mem_cons_self)
    have hkeeps := hwalk.keeps hs fun x hx => mem_of_mem_shifted (List.mem_of_mem_take hx)
    rw [scanBuckets, hrun]
    exact hkeeps.trans (ih ret₁ hkeeps.served fun i hi => hjs i (List.mem_cons_of_mem j hi))

theorem scan_keeps {n : Nat} (hn : n < 160) (fuel i : Nat) (ret : List (Option Entry)) (hs : Served P ndb) :
    Keeps P ndb (scan P 160 n fuel i ndb ret).1 := by
  induction fuel generalizing i ndb ret with
  | zero => exact .refl hs
  | succ fuel ih =>
    unfold scan
    split
    · have hlt : ∀ j ∈ besides n i, j < 160 := by
        intro j hj
        rw [mem_besides] at hj
        omega
      have hkeeps := scanBuckets_keeps ret hs hlt
      rw [scanStep_eq]
      split
      · next h => rwa [h] at hkeeps
      · next h =>
        rw [h] at hkeeps
        exact hkeeps.trans (ih _ _ hkeeps.served)
    · exact .refl hs

theorem findClosest_keeps (hs : Served P ndb) {target : Address} (ht : target.raw.length = 20) :
    Keeps P ndb (ndb.findClosest P target).1 := by
  have hlt : Table.bucketOf ndb.addr target < 160 := Table.bucketOf_lt _ _
  obtain ⟨s, hslice⟩ := hs.placed.ok.exists_slice hlt
  unfold findClosest
  rw [Table.index_eq hs.own ht]
  simp only
  rw [Table.slot_eq hslice]
  simp only
  split
  · obtain ⟨ndb', ret, hrun, -, hwalk⟩ := rangeQuery_bucket none [] hs hslice
    rw [queryAddresses, hrun]
    exact hwalk.keeps hs fun x hx => mem_of_mem_shifted hx
  · rw [ht]
    exact scan_keeps hlt _ _ _ hs

end NetDB

/-! ## The own address in the table -/

namespace Table

variable {own : Address} {t : Table}

theorem bucketOf_own (own : Address) : bucketOf own own = 159 := by
  rw [bucketOf, Address.distance, Nat.xor_self, Nat.log2_zero]

/-- Besides the own address there is one other at most in its bucket. -/
theorem Placed.length_raws_own_le (hp : Placed own t) (hown : own.raw.length = 20) :
    (t.raws 159).length ≤ 2 := by
  have hmem : ∀ r ∈ t.raws 159, r.length = 20 ∧ BigEndian.value r ^^^ BigEndian.value own.raw < 2 := by
    intro r hr
    obtain ⟨a, ha, rfl⟩ := List.mem_map.mp hr
    have hlen := hp.raw_length 159 a ha
    have hhome := hp.home 159 a ha
    have hlog := log2_distance_lt hlen hown
    rw [bucketOf] at hhome
    exact ⟨hlen, BigEndian.lt_two_pow_of_log2_lt (k := 1) (by rw [Address.distance] at hhome hlog; omega)⟩
  have hinj : ((t.raws 159).map fun r => BigEndian.value r ^^^ BigEndian.value own.raw).Nodup := by
    refine (hp.nodup_raws 159).map_on fun x hx y hy hxy => ?_
    exact BigEndian.value_injective ((hmem x hx).1.trans (hmem y hy).1.symm) (Nat.xor_left_injective hxy)
  have hsub : ((t.raws 159).map fun r => BigEndian.value r ^^^ BigEndian.value own.raw) ⊆ [0, 1] := by
    intro d hd
    obtain ⟨r, hr, rfl⟩ := List.mem_map.mp hd
    have hlt := (hmem r hr).2
    simp only [List.mem_cons, List.not_mem_nil, or_false]
    omega
  have hle := (hinj.subperm hsub).length_le
  rwa [List.length_map] at hle

/-- A walk over its bucket meets the own address once. -/
theorem Placed.count_shifted (hp : Placed own t) (hown : own.raw.length = 20) (hmem : own.raw ∈ t.raws 159) :
    (shifted (t.raws 159)).count own.raw = 1 := by
  rw [shifted_of_length_le_two (hp.length_raws_own_le hown)]
  exact List.count_eq_one_of_mem (hp.nodup_raws 159) hmem

/-- A table whose addresses are all among a few has few addresses. -/
theorem Placed.tableLen_le (hp : Placed own t) {known : List Bytes}
    (hknown : ∀ j, ∀ a ∈ t.bucket j, a.raw ∈ known) : t.tableLen ≤ known.length := by
  have hsub : (((List.range 160).flatMap t.bucket).map Address.raw) ⊆ known := by
    intro r hr
    obtain ⟨a, ha, rfl⟩ := List.mem_map.mp hr
    obtain ⟨j, -, ha⟩ := List.mem_flatMap.mp ha
    exact hknown j a ha
  have hle := (hp.nodup.subperm hsub).length_le
  have hlen : (((List.range 160).flatMap t.bucket).map Address.raw).length = t.tableLen := by
    have hperm := ((perm_cons_outward (n := 0) (by decide)).map fun j => (t.bucket j).length).sum_eq
    rw [tableLen_eq hp (n := 0) (by decide), List.length_map, List.length_flatMap, ← hperm]
    rfl
  rwa [hlen] at hle

end Table

/-! ## The entries to choose from -/

section Names

variable {own : Address} {t : Table}

/-- The search for the addresses closest to the own one meets it twice. -/
theorem two_le_count_closestRaws (hp : Table.Placed own t) (hown : own.raw.length = 20)
    (hmem : own.raw ∈ t.raws 159) : 2 ≤ (closestRaws t 159).count own.raw := by
  have hle := hp.length_raws_own_le hown
  have hwalk : (walkOver (t.raws 159)).Perm (t.raws 159) := perm_walkOver (hp.nodup_raws 159)
  have hshort : (t.raws 159).length + (walkOver (t.raws 159)).length ≤ bucketSize := by
    rw [hwalk.length_eq, bucketSize]
    omega
  rw [closestRaws, if_neg (by rw [bucketSize]; omega),
    take_append_of_length_le _ (by rwa [List.length_append, length_shifted, length_shifted]),
    List.count_append, List.count_append, hp.count_shifted hown hmem,
    shifted_of_length_le_two (by rwa [hwalk.length_eq]), hwalk.count_eq,
    List.count_eq_one_of_mem (hp.nodup_raws 159) hmem]
  omega

/-- In a small table every search meets the own address. -/
theorem mem_closestRaws_of_small (hp : Table.Placed own t) (hown : own.raw.length = 20)
    (hmem : own.raw ∈ t.raws 159) (hsmall : t.tableLen ≤ 10) {n : Nat} (hn : n < 160) :
    own.raw ∈ closestRaws t n := by
  have hlen := tableLen_eq hp hn
  have hraws : (t.raws n).length = (t.bucket n).length := List.length_map _
  have hwalk : (walkOver (t.raws n)).Perm (t.raws n) := perm_walkOver (hp.nodup_raws n)
  have hmet : own.raw ∈ shifted (t.raws 159) := by
    rwa [shifted_of_length_le_two (hp.length_raws_own_le hown)]
  rw [closestRaws, if_neg (by rw [bucketSize]; omega), List.take_of_length_le]
  · by_cases h : n = 159
    · subst h
      exact List.mem_append_left _ (List.mem_append_left _ hmet)
    · exact List.mem_append_right _ (List.mem_flatMap.mpr ⟨159, (mem_outward hn).mpr ⟨by decide, Ne.symm h⟩, hmet⟩)
  · rw [List.length_append, List.length_append, length_shifted, length_shifted, hwalk.length_eq, length_metIn,
      bucketSize]
    omega

theorem mem_raws_of_mem_closestRaws (hp : Table.Placed own t) {n : Nat} (h : own.raw ∈ closestRaws t n) :
    own.raw ∈ t.raws 159 := by
  have hsome : ∃ j, own.raw ∈ t.raws j := by
    unfold closestRaws at h
    split at h
    · exact ⟨n, mem_of_mem_shifted h⟩
    · rcases List.mem_append.mp (List.mem_of_mem_take h) with h | h
      · rcases List.mem_append.mp h with h | h
        · exact ⟨n, mem_of_mem_shifted h⟩
        · exact ⟨n, (perm_walkOver (hp.nodup_raws n)).mem_iff.mp (mem_of_mem_shifted h)⟩
      · obtain ⟨j, -, hj⟩ := mem_metIn h
        exact ⟨j, hj⟩
  obtain ⟨j, hj⟩ := hsome
  obtain ⟨a, ha, hraw⟩ := List.mem_map.mp hj
  have hhome := hp.home j a ha
  rw [Table.bucketOf_congr hraw, Table.bucketOf_own] at hhome
  rwa [← hhome] at hj

theorem closestRaws_ne_nil (hp : Table.Placed own t) {j : Nat} (hj : j < 160) (hpeer : t.raws j ≠ []) :
    closestRaws t 159 ≠ [] := by
  have hhere := tableLen_eq hp hj
  have hlast := tableLen_eq hp (n := 159) (by decide)
  have hpos : 0 < (t.raws j).length := List.length_pos_iff.mpr hpeer
  have hraws : ∀ i, (t.raws i).length = (t.bucket i).length := fun i => List.length_map _
  rw [hraws j] at hpos
  refine List.length_pos_iff.mp ?_
  unfold closestRaws
  split
  · next hfull =>
    rw [length_shifted, hfull]
    decide
  · rw [List.length_take, List.length_append, List.length_append, length_shifted, length_metIn, hraws 159, bucketSize]
    omega

end Names

end Zif.Dht
