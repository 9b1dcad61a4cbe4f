import Zif.Dht.Proofs.TableProofs

/-!
# Proofs: bucket numbers and distance

The number of a bucket orders the distance to every target: the target's own bucket comes first, and of
the other addresses those in earlier buckets than the target's come last. A full bucket is therefore
what `FindClosest` takes it for, the 20 closest addresses of the table.
-/

namespace Zif.Dht.Table

open Go Address

variable {own t : Address} {T : Table}

/-- All addresses of the table. -/
def addresses (T : Table) : List Address := (List.range 160).flatMap T.bucket

theorem mem_addresses {a : Address} : a ∈ T.addresses ↔ ∃ j < 160, a ∈ T.bucket j := by
  simp [addresses]

/-- The addresses of the table that are strictly closer to `t` than `a`. -/
def nearer (T : Table) (t a : Address) : List Address :=
  T.addresses.filter fun b => Address.closer t b a = .ok true

theorem Placed.nodup_addresses (hp : Placed own T) : T.addresses.Nodup := hp.nodup.of_map

theorem Placed.raw_length_of_mem (hp : Placed own T) {a : Address} (ha : a ∈ T.addresses) :
    a.raw.length = 20 := by
  obtain ⟨j, -, hj⟩ := mem_addresses.mp ha
  exact hp.raw_length j a hj

theorem Placed.mem_bucket_iff (hp : Placed own T) {a : Address} (ha : a ∈ T.addresses) (n : Nat) :
    a ∈ T.bucket n ↔ bucketOf own a = n := by
  obtain ⟨j, -, hj⟩ := mem_addresses.mp ha
  constructor
  · exact hp.home n a
  · intro hn
    rw [← hn, hp.home j a hj]
    exact hj

theorem closer_eq_true_iff {a b : Address} (ht : t.raw.length = 20) (ha : a.raw.length = 20)
    (hb : b.raw.length = 20) : closer t a b = .ok true ↔ distance a t < distance b t := by
  rw [closer_eq (ha.trans ht.symm) (hb.trans ht.symm)]
  simp

/-- In a table with a full bucket for `t`, fewer than 20 addresses are closer to `t` than `a` exactly
if `a` is in that bucket. -/
theorem Placed.mem_full_bucket_iff (hp : Placed own T) (hown : own.raw.length = 20)
    (ht : t.raw.length = 20) (hfull : (T.bucket (bucketOf own t)).length = bucketSize) {a : Address}
    (ha : a ∈ T.addresses) :
    a ∈ T.bucket (bucketOf own t) ↔ (T.nearer t a).length < bucketSize := by
  have hlen := hp.raw_length_of_mem ha
  have hnodup : (T.bucket (bucketOf own t)).Nodup := (hp.distinct _).of_map
  constructor
  · -- whatever is closer lies in the bucket too, and is not `a`
    intro hmem
    have hsub : T.nearer t a ⊆ (T.bucket (bucketOf own t)).erase a := by
      intro b hb
      obtain ⟨hbT, hcloser⟩ := List.mem_filter.mp hb
      have hbl := hp.raw_length_of_mem hbT
      have hlt := (closer_eq_true_iff ht hbl hlen).mp (of_decide_eq_true hcloser)
      have hne : b ≠ a := by
        rintro rfl
        exact Nat.lt_irrefl _ hlt
      refine (List.mem_erase_of_ne hne).mpr ((hp.mem_bucket_iff hbT _).mpr ?_)
      by_contra hother
      have := distance_lt_of_bucketOf hown ht hlen hbl ((hp.mem_bucket_iff ha _).mp hmem) hother
      omega
    have hle := ((hp.nodup_addresses.filter _).subperm hsub).length_le
    rw [List.length_erase_of_mem hmem, hfull] at hle
    exact Nat.lt_of_le_of_lt hle (by decide)
  · -- the whole bucket is closer than an address outside it
    intro hfew
    by_contra hmem
    have hother : bucketOf own a ≠ bucketOf own t := fun h => hmem ((hp.mem_bucket_iff ha _).mpr h)
    have hsub : T.bucket (bucketOf own t) ⊆ T.nearer t a := by
      intro b hb
      have hbl := hp.raw_length _ b hb
      refine List.mem_filter.mpr ⟨mem_addresses.mpr ⟨_, bucketOf_lt own t, hb⟩, decide_eq_true ?_⟩
      exact (closer_eq_true_iff ht hbl hlen).mpr
        (distance_lt_of_bucketOf hown ht hbl hlen (hp.home _ b hb) hother)
    have hle := (hnodup.subperm hsub).length_le
    rw [hfull] at hle
    omega

/-- **Bucket numbers order the distance to every target.** The addresses with the target's number are
closer to the target than all others, and those with a smaller number than the target are farther than
all those with a larger one than theirs. So in every table that insertions build, a full bucket is the
set of the 20 addresses closest to any target that belongs to it. -/
theorem index_orders_distance (own : Address) (hown : own.raw.length = 20) :
    (∀ t a b : Address, t.raw.length = 20 → a.raw.length = 20 → b.raw.length = 20 →
      ∃ k i j : Int, index own t = .ok k ∧ index own a = .ok i ∧ index own b = .ok j ∧
        (i = k → j ≠ k → closer t a b = .ok true) ∧
        (i > k → k > j → closer t a b = .ok true) ∧
        (k > i → i > j → closer t a b = .ok true)) ∧
    ∀ as : List Address, (∀ a ∈ as, a.raw.length = 20) →
      ∃ T, as.foldlM (insertIntoTable own) new = .ok T ∧
        ∀ (t : Address) (n : Nat), t.raw.length = 20 → index own t = .ok (n : Int) →
          (T.bucket n).length = 20 →
            ((T.bucket n).map Address.raw).Nodup ∧
            ∀ a ∈ T.addresses, a ∈ T.bucket n ↔ (T.nearer t a).length < 20 := by
  refine ⟨fun t a b ht ha hb => ?_, fun as has => ?_⟩
  · refine ⟨bucketOf own t, bucketOf own a, bucketOf own b, index_eq hown ht, index_eq hown ha,
      index_eq hown hb, fun hik hjk => ?_, fun hik hkj => ?_, fun hki hij => ?_⟩
    · exact (closer_eq_true_iff ht ha hb).mpr
        (distance_lt_of_bucketOf hown ht ha hb (by exact_mod_cast hik) (by exact_mod_cast hjk))
    · exact (closer_eq_true_iff ht ha hb).mpr
        (distance_lt_of_bucketOf_lt hown ht ha (by omega) (by omega))
    · exact (closer_eq_true_iff ht ha hb).mpr
        (distance_lt_of_bucketOf_lt hown ht ha (by omega) (by omega))
  · obtain ⟨T, hrun, hp, -⟩ := bucket_foldlM hown as has
    refine ⟨T, hrun, fun t n ht hn hfull => ?_⟩
    obtain rfl := bucketOf_eq_of_index hown ht hn
    exact ⟨hp.distinct _, fun a ha => hp.mem_full_bucket_iff hown ht hfull ha⟩

/-- The order at the addresses 4, 2 and 1 seen from 0: they lie in the buckets 157, 158 and 159. -/
theorem index_orders_distance_small :
    ∃ k i j : Int, index (lastByte 0) (lastByte 2) = .ok k ∧ index (lastByte 0) (lastByte 1) = .ok i ∧
      index (lastByte 0) (lastByte 4) = .ok j ∧ i > k ∧ k > j ∧
      closer (lastByte 2) (lastByte 1) (lastByte 4) = .ok true := by
  obtain ⟨k, i, j, hk, hi, hj, -, hmid, -⟩ := (index_orders_distance (lastByte 0) (by decide)).1
    (lastByte 2) (lastByte 1) (lastByte 4) (by decide) (by decide) (by decide)
  have hk' : index (lastByte 0) (lastByte 2) = .ok 158 := by decide +kernel
  have hi' : index (lastByte 0) (lastByte 1) = .ok 159 := by decide +kernel
  have hj' : index (lastByte 0) (lastByte 4) = .ok 157 := by decide +kernel
  rw [hk'] at hk
  rw [hi'] at hi
  rw [hj'] at hj
  injection hk with hk
  injection hi with hi
  injection hj with hj
  subst hk hi hj
  exact ⟨158, 159, 157, hk', hi', hj', by decide, by decide, hmid (by decide) (by decide)⟩

end Zif.Dht.Table
