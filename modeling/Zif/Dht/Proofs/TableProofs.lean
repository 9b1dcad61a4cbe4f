import Zif.Dht.Proofs.AddressProofs
import Zif.Go.Proofs.SliceProofs
import Zif.Lib.Proofs.RecencyProofs

/-!
# Proofs: the routing table

Each bucket has a backing array of its own (`Table.Ok`). Inserting an address is `Recency.touch` on
its bucket and leaves the others alone (`insertIntoTable_spec`), so after any run of insertions a
bucket holds the most recent addresses of its distance class (`bucket_foldl`).

The specification also says what happens to memory: the old array of the bucket is shifted in place
and abandoned, every other array stays as it is.
-/

namespace Zif.Dht.Table

open Go Recency

variable {own addr : Address} {t : Table}

/-- The table has one bucket for each bit, and no two buckets share an array. -/
structure Ok (t : Table) : Prop where
  size : t.buckets.length = 160
  valid : ∀ s ∈ t.buckets, t.heap.Valid s
  separate : (t.buckets.map Slice.ptr).Nodup

theorem ok_new : Ok new := by
  refine ⟨by simp [new, addressBinarySize], ?_, ?_⟩
  · intro s hs
    obtain ⟨n, hn, rfl⟩ := List.mem_map.mp hs
    refine ⟨?_, Nat.zero_le _⟩
    simpa [new] using hn
  · have hmap : new.buckets.map Slice.ptr = List.range (addressBinarySize * 8) := by
      simp [new, Function.comp_def]
    rw [hmap]
    exact List.nodup_range

theorem bucket_new (i : Nat) : new.bucket i = [] := by
  unfold bucket
  split
  · rename_i s hs
    obtain ⟨n, -, rfl⟩ := List.mem_map.mp (List.mem_of_getElem? hs)
    simp [Heap.view]
  · rfl

theorem bucket_eq {i : Nat} {s : Slice} (hs : t.buckets[i]? = some s) :
    t.bucket i = t.heap.view s := by
  simp [bucket, hs]

theorem Ok.exists_slice (ht : Ok t) {i : Nat} (hi : i < 160) : ∃ s, t.buckets[i]? = some s :=
  ⟨_, List.getElem?_eq_getElem (by rw [ht.size]; exact hi)⟩

theorem Ok.length_bucket (ht : Ok t) {i : Nat} {s : Slice} (hs : t.buckets[i]? = some s) :
    (t.bucket i).length = s.len := by
  rw [bucket_eq hs, (ht.valid s (List.mem_of_getElem? hs)).length_view]

/-- Different buckets have different arrays. -/
theorem Ok.ptr_ne (ht : Ok t) {i j : Nat} {s s' : Slice} (hs : t.buckets[i]? = some s)
    (hs' : t.buckets[j]? = some s') (hij : i ≠ j) : s.ptr ≠ s'.ptr := by
  intro hptr
  have hi : (t.buckets.map Slice.ptr)[i]? = some s.ptr := by simp [hs]
  have hj : (t.buckets.map Slice.ptr)[j]? = some s'.ptr := by simp [hs']
  rw [← hptr] at hj
  have hlt := (List.getElem?_eq_some_iff.mp hi).1
  exact hij ((List.getElem?_inj hlt ht.separate).mp (hi.trans hj.symm))

/-! ## Making room and moving to the front -/

/-- The elements of a bucket once there is room for an address. -/
def roomFor (l : List Address) (addr : Address) : List Address :=
  match l.findIdx? fun x => x.raw = addr.raw with
  | some n => l.take n ++ l.drop (n + 1)
  | none => if l.length = bucketSize then l.take (l.length - 1) else l

theorem touch_eq_cons (l : List Address) (addr : Address) :
    touch Address.raw bucketSize l addr = addr :: roomFor l addr := by
  unfold touch roomFor
  cases l.findIdx? fun x => x.raw = addr.raw <;> rfl

variable {h : Heap Address} {s : Slice}

/-- Making room works in place: same array, same number of arrays, all other arrays untouched. -/
theorem makeRoom_spec (addr : Address) (hs : h.Valid s) :
    (makeRoom h s addr).2.Valid (makeRoom h s addr).1 ∧
    (makeRoom h s addr).2.view (makeRoom h s addr).1 = roomFor (h.view s) addr ∧
    (makeRoom h s addr).2.arrays.length = h.arrays.length ∧
    ∀ p, p ≠ s.ptr → (makeRoom h s addr).2.array p = h.array p := by
  have hlen := hs.length_view
  have hle := hs.2
  have hkey : (fun i : Address => i.equals addr) = fun x => decide (x.raw = addr.raw) := rfl
  unfold makeRoom roomFor
  rw [hkey]
  cases hfound : (h.view s).findIdx? fun x => x.raw = addr.raw with
  | some found =>
    have hlt := (List.findIdx?_eq_some_iff_getElem.mp hfound).1
    rw [hlen] at hlt
    have hpre : h.Valid ⟨s.ptr, found⟩ := ⟨hs.1, show found ≤ (h.array s.ptr).length by omega⟩
    have hview : h.view ⟨s.ptr, found⟩ = (h.view s).take found := by
      simp only [Heap.view, List.take_take]
      congr 1
      omega
    have hroom : found + ((h.view s).drop (found + 1)).length ≤ (h.array s.ptr).length := by
      rw [List.length_drop, hlen]
      omega
    refine ⟨Heap.valid_append hpre, ?_, ?_, ?_⟩
    · simp only
      rw [Heap.view_append hpre, hview]
    · simp only
      rw [Heap.append_of_room hroom]
      simp
    · intro p hp
      simp only
      rw [Heap.append_of_room hroom]
      exact Heap.array_write_of_ne hp
  | none =>
    simp only
    by_cases hfull : s.len = bucketSize
    · rw [hlen, if_pos hfull, if_pos hfull]
      refine ⟨⟨hs.1, show s.len - 1 ≤ (h.array s.ptr).length by omega⟩, ?_, rfl, fun _ _ => rfl⟩
      simp only [Heap.view, List.take_take]
      congr 1
      omega
    · rw [hlen, if_neg hfull, if_neg hfull]
      exact ⟨hs, rfl, rfl, fun _ _ => rfl⟩

/-- Making room does not change the length of the bucket's array. -/
theorem length_array_makeRoom (addr : Address) (hs : h.Valid s) :
    ((makeRoom h s addr).2.array s.ptr).length = (h.array s.ptr).length := by
  have hlen := hs.length_view
  have hle := hs.2
  unfold makeRoom
  cases hfound : (h.view s).findIdx? fun i => i.equals addr with
  | some found =>
    have hlt := (List.findIdx?_eq_some_iff_getElem.mp hfound).1
    have hroom : found + ((h.view s).drop (found + 1)).length ≤ (h.array s.ptr).length := by
      rw [List.length_drop, hlen]
      omega
    simp only
    rw [Heap.append_of_room hroom]
    exact Heap.length_array_write hs.1 hroom
  | none =>
    simp only
    split <;> rfl

/-- Moving to the front allocates: the new slice lives behind all existing arrays. -/
theorem consSlice_spec (addr : Address) (hs : h.Valid s) :
    (consSlice h addr s).2.Valid (consSlice h addr s).1 ∧
    (consSlice h addr s).2.view (consSlice h addr s).1 = addr :: h.view s ∧
    h.arrays.length ≤ (consSlice h addr s).1.ptr ∧
    h.arrays.length ≤ (consSlice h addr s).2.arrays.length ∧
    ∀ p < h.arrays.length, (consSlice h addr s).2.array p = h.array p := by
  have hlit := Heap.valid_alloc_self h [addr]
  have hold : (h.alloc [addr]).2.view s = h.view s := Heap.view_alloc_of_lt hs.1
  have hptr : (h.alloc [addr]).1.ptr = h.arrays.length := rfl
  have hgrow := Heap.length_le_append (h.alloc [addr]).2 (h.alloc [addr]).1
    ((h.alloc [addr]).2.view s)
  rw [Heap.length_alloc] at hgrow
  refine ⟨Heap.valid_append hlit, ?_, ?_, Nat.le_of_succ_le hgrow, ?_⟩
  · unfold consSlice
    rw [Heap.view_append hlit, Heap.view_alloc_self, hold]
    rfl
  · unfold consSlice Heap.append
    simp only
    split
    · exact hptr.ge
    · simp [Heap.alloc]
  · intro p hp
    have hne : p ≠ (h.alloc [addr]).1.ptr := by rw [hptr]; omega
    unfold consSlice
    rw [Heap.array_append_of_ne (by simp; omega) hne, Heap.array_alloc_of_lt hp]

/-! ## Insertion -/

/-- What an insertion into bucket `n` does to the table. -/
structure InsertedAt (n : Nat) (addr : Address) (t t' : Table) : Prop where
  ok : Ok t'
  /-- The bucket of the address is touched. -/
  here : t'.bucket n = touch Address.raw bucketSize (t.bucket n) addr
  /-- The other buckets keep their slices. -/
  other : ∀ j, j ≠ n → t'.buckets[j]? = t.buckets[j]?
  /-- The bucket moves to an array that did not exist before. -/
  fresh : ∀ s', t'.buckets[n]? = some s' → t.heap.arrays.length ≤ s'.ptr
  /-- Arrays are never freed. -/
  grows : t.heap.arrays.length ≤ t'.heap.arrays.length
  /-- Only the bucket's old array is written. -/
  frame : ∀ s, t.buckets[n]? = some s → ∀ p < t.heap.arrays.length, p ≠ s.ptr →
    t'.heap.array p = t.heap.array p
  /-- The old array after making room. -/
  old : ∀ s, t.buckets[n]? = some s → t'.heap.array s.ptr = (makeRoom t.heap s addr).2.array s.ptr

/-- What one insertion does to the table. -/
structure Inserted (own addr : Address) (t t' : Table) : Prop where
  ok : Ok t'
  /-- The bucket of the address is touched. -/
  here : t'.bucket (bucketOf own addr) = touch Address.raw bucketSize (t.bucket (bucketOf own addr)) addr
  /-- The other buckets keep their slices. -/
  other : ∀ j, j ≠ bucketOf own addr → t'.buckets[j]? = t.buckets[j]?
  /-- The bucket moves to an array that did not exist before. -/
  fresh : ∀ s', t'.buckets[bucketOf own addr]? = some s' → t.heap.arrays.length ≤ s'.ptr
  /-- Arrays are never freed. -/
  grows : t.heap.arrays.length ≤ t'.heap.arrays.length
  /-- Only the bucket's old array is written. -/
  frame : ∀ s, t.buckets[bucketOf own addr]? = some s → ∀ p < t.heap.arrays.length, p ≠ s.ptr →
    t'.heap.array p = t.heap.array p
  /-- The old array after making room. -/
  old : ∀ s, t.buckets[bucketOf own addr]? = some s →
    t'.heap.array s.ptr = (makeRoom t.heap s addr).2.array s.ptr

theorem InsertedAt.inserted {t' : Table} (h : InsertedAt (bucketOf own addr) addr t t') :
    Inserted own addr t t' :=
  ⟨h.ok, h.here, h.other, h.fresh, h.grows, h.frame, h.old⟩

theorem slot_eq {n : Nat} {s : Slice} (hs : t.buckets[n]? = some s) : t.slot (n : Int) = .ok (n, s) := by
  simp [slot, hs]

theorem slot_of_neg {i : Int} (hi : i < 0) : t.slot i = .error .panic := if_pos hi

/-- An address without a byte, or longer than `own`, has no place in the table. -/
theorem insertIntoTable_panic (t : Table) {a : Address}
    (hlen : ¬(0 < a.raw.length ∧ a.raw.length ≤ own.raw.length)) :
    insertIntoTable own t a = .error .panic := by
  unfold insertIntoTable
  rcases index_cases own a with ⟨-, hi⟩ | ⟨-, i, hneg, hi⟩ | ⟨hlen', -⟩
  · rw [hi]
    rfl
  · rw [hi]
    show (t.slot i >>= _) = _
    rw [slot_of_neg hneg]
    rfl
  · exact absurd hlen' hlen

/-- The only way to fail is to go out of range. -/
theorem insertIntoTable_error {a : Address} {f : Fault} (h : insertIntoTable own t a = .error f) :
    f = .panic := by
  by_cases hlen : 0 < a.raw.length ∧ a.raw.length ≤ own.raw.length
  · rcases index_cases own a with ⟨hlong, -⟩ | ⟨hzero, -⟩ | ⟨-, n, -, hi⟩
    · omega
    · omega
    · unfold insertIntoTable at h
      cases hs : t.buckets[n]? with
      | some s =>
        simp only [hi, slot_eq hs, bind, Except.bind] at h
        cases h
      | none =>
        have hslot : t.slot (n : Int) = .error .panic := by simp [slot, hs]
        simp only [hi, hslot, bind, Except.bind] at h
        cases h
        rfl
  · rw [insertIntoTable_panic t hlen] at h
    cases h
    rfl

/-- Inserting an address whose bucket number is in range. -/
theorem insertIntoTable_at (ht : Ok t) {n : Nat} (hn : n < 160)
    (hindex : index own addr = .ok (n : Int)) :
    ∃ t', insertIntoTable own t addr = .ok t' ∧ InsertedAt n addr t t' := by
  obtain ⟨s, hs⟩ := ht.exists_slice hn
  have hsv := ht.valid s (List.mem_of_getElem? hs)
  obtain ⟨hrv, hrview, hrlen, hrframe⟩ := makeRoom_spec addr hsv
  obtain ⟨hcv, hcview, hcptr, hclen, hcframe⟩ := consSlice_spec addr hrv
  rw [hrlen] at hcptr hclen
  set room := makeRoom t.heap s addr with hroom
  set front := consSlice room.2 addr room.1 with hfront
  have hlt : n < t.buckets.length := by rw [ht.size]; exact hn
  refine ⟨{ heap := front.2, buckets := t.buckets.set n front.1 }, ?_, ?_⟩
  · rw [insertIntoTable, hindex]
    show (t.slot _ >>= _) = _
    rw [slot_eq hs]
    rfl
  have hget : (t.buckets.set n front.1)[n]? = some front.1 := by
    simp [hlt]
  have hframe : ∀ p < t.heap.arrays.length, p ≠ s.ptr → front.2.array p = t.heap.array p := by
    intro p hp hne
    rw [hcframe p (by omega), hrframe p hne]
  have hother : ∀ j, j ≠ n → (t.buckets.set n front.1)[j]? = t.buckets[j]? :=
    fun j hj => List.getElem?_set_ne hj.symm
  refine ⟨⟨?_, ?_, ?_⟩, ?_, hother, ?_, hclen, ?_, ?_⟩
  · simp [ht.size]
  · -- every bucket is valid: the new one by construction, the others since their arrays are kept
    intro s' hs'
    obtain ⟨j, hj⟩ := List.mem_iff_getElem?.mp hs'
    by_cases hjn : j = n
    · subst hjn
      rw [hget] at hj
      cases hj
      exact hcv
    · rw [hother j hjn] at hj
      have hv := ht.valid s' (List.mem_of_getElem? hj)
      exact (hv.of_array_eq hclen (hframe _ hv.1 (ht.ptr_ne hj hs hjn))).1
  · -- the new array is not one of the old ones
    rw [List.map_set]
    apply List.Nodup.set ht.separate
    intro hmem
    obtain ⟨s', hs', hptr⟩ := List.mem_map.mp hmem
    have := (ht.valid s' hs').1
    omega
  · show bucket _ _ = _
    rw [bucket_eq (t := { heap := front.2, buckets := t.buckets.set n front.1 }) hget,
      touch_eq_cons, bucket_eq hs]
    show front.2.view front.1 = _
    rw [hcview, hrview]
  · intro s' hs'
    rw [hget] at hs'
    cases hs'
    exact hcptr
  · intro s' hs' p hp hne
    rw [hs] at hs'
    cases hs'
    exact hframe p hp hne
  · intro s' hs'
    rw [hs] at hs'
    cases hs'
    exact hcframe s.ptr (by have := hsv.1; omega)

/-- A slice that was valid before an insertion is valid after it. -/
theorem InsertedAt.valid {t' : Table} {n : Nat} (hi : InsertedAt n addr t t') (ht : Ok t) (hn : n < 160)
    (hs : t.heap.Valid s) : t'.heap.Valid s := by
  obtain ⟨s₀, hs₀⟩ := ht.exists_slice hn
  by_cases hptr : s.ptr = s₀.ptr
  · have hold := hi.old s₀ hs₀
    have hlen := length_array_makeRoom addr (ht.valid s₀ (List.mem_of_getElem? hs₀))
    refine ⟨Nat.lt_of_lt_of_le hs.1 hi.grows, ?_⟩
    rw [hptr, hold, hlen, ← hptr]
    exact hs.2
  · exact (hs.of_array_eq hi.grows (hi.frame s₀ hs₀ s.ptr hs.1 hptr)).1

/-- Inserting a 20-byte address never goes out of range. -/
theorem insertIntoTable_spec (ht : Ok t) (hown : own.raw.length = 20) (addr : Address)
    (ha : addr.raw.length = 20) :
    ∃ t', insertIntoTable own t addr = .ok t' ∧ Inserted own addr t t' := by
  obtain ⟨t', hrun, hins⟩ := insertIntoTable_at ht (bucketOf_lt own addr) (index_eq hown ha)
  exact ⟨t', hrun, hins.inserted⟩

/-- The other buckets keep their addresses. -/
theorem Inserted.bucket_other {t' : Table} (hi : Inserted own addr t t') (ht : Ok t) {j : Nat}
    (hj : j ≠ bucketOf own addr) : t'.bucket j = t.bucket j := by
  unfold bucket
  rw [hi.other j hj]
  split
  · rename_i s' hs'
    obtain ⟨s, hs⟩ := ht.exists_slice (bucketOf_lt own addr)
    have hv := ht.valid s' (List.mem_of_getElem? hs')
    exact (hv.of_array_eq hi.grows (hi.frame s hs _ hv.1 (ht.ptr_ne hs' hs hj))).2
  · rfl

/-! ## Runs of insertions -/

/-- A run of insertions touches each bucket with the addresses that belong to it, in order. -/
theorem foldlM_insertIntoTable (hown : own.raw.length = 20) {as : List Address}
    (has : ∀ a ∈ as, a.raw.length = 20) (ht : Ok t) :
    ∃ t', as.foldlM (insertIntoTable own) t = .ok t' ∧ Ok t' ∧
      ∀ j, t'.bucket j =
        (as.filter fun a => bucketOf own a = j).foldl (touch Address.raw bucketSize) (t.bucket j) := by
  induction as generalizing t with
  | nil => exact ⟨t, rfl, ht, fun _ => rfl⟩
  | cons a as ih =>
    obtain ⟨t₁, hstep, hins⟩ := insertIntoTable_spec ht hown a (has a (by simp))
    obtain ⟨t', hrun, hok, hbucket⟩ := ih (fun x hx => has x (by simp [hx])) hins.ok
    refine ⟨t', ?_, hok, fun j => ?_⟩
    · rw [List.foldlM_cons, hstep]
      exact hrun
    · rw [hbucket j]
      by_cases hj : bucketOf own a = j
      · subst hj
        rw [List.filter_cons_of_pos (by simp), List.foldl_cons, hins.here]
      · rw [List.filter_cons_of_neg (by simpa using hj), hins.bucket_other ht (Ne.symm hj)]

/-- What holds of every table that insertions build: the addresses of a bucket are distinct, sit
where they belong, and are at most `BucketSize`. -/
structure Placed (own : Address) (t : Table) : Prop where
  ok : Ok t
  distinct : ∀ j, Distinct Address.raw (t.bucket j)
  length_le : ∀ j, (t.bucket j).length ≤ bucketSize
  raw_length : ∀ j, ∀ a ∈ t.bucket j, a.raw.length = 20
  home : ∀ j, ∀ a ∈ t.bucket j, bucketOf own a = j

/-- After a run of insertions into a new table, a bucket holds the most recent of the addresses that
belong to it. -/
theorem bucket_foldlM (hown : own.raw.length = 20) (as : List Address)
    (has : ∀ a ∈ as, a.raw.length = 20) :
    ∃ t, as.foldlM (insertIntoTable own) new = .ok t ∧ Placed own t ∧
      ∀ j, t.bucket j =
        (recent Address.raw (as.filter fun a => bucketOf own a = j)).take bucketSize := by
  obtain ⟨t, hrun, hok, hbucket⟩ := foldlM_insertIntoTable hown has ok_new
  have hlru : ∀ j, t.bucket j =
      (recent Address.raw (as.filter fun a => bucketOf own a = j)).take bucketSize := by
    intro j
    rw [hbucket j, bucket_new, foldl_touch (by decide)]
  have hmem : ∀ j, ∀ a ∈ t.bucket j, a ∈ as ∧ bucketOf own a = j := by
    intro j a ha
    rw [hlru j] at ha
    simpa using mem_of_mem_recent (List.mem_of_mem_take ha)
  refine ⟨t, hrun, ⟨hok, fun j => ?_, fun j => ?_, fun j a ha => ?_, fun j a ha => ?_⟩, hlru⟩
  · rw [hlru j]
    exact (distinct_recent _).sublist ((List.take_sublist _ _).map _)
  · rw [hlru j, List.length_take]
    exact Nat.min_le_left _ _
  · exact has a (hmem j a ha).1
  · exact (hmem j a ha).2

/-- Different buckets have no address in common. -/
theorem Placed.disjoint (hp : Placed own t) {i j : Nat} (hij : i ≠ j) :
    ((t.bucket i).map Address.raw).Disjoint ((t.bucket j).map Address.raw) := by
  intro r hi hj
  obtain ⟨a, ha, har⟩ := List.mem_map.mp hi
  obtain ⟨b, hb, hbr⟩ := List.mem_map.mp hj
  apply hij
  rw [← hp.home i a ha, ← hp.home j b hb]
  exact bucketOf_congr (har.trans hbr.symm)

theorem Placed.nodup (hp : Placed own t) :
    (((List.range 160).flatMap t.bucket).map Address.raw).Nodup := by
  rw [List.map_flatMap, List.nodup_flatMap]
  constructor
  · exact fun j _ => hp.distinct j
  · exact List.nodup_range.imp fun hij => hp.disjoint hij

/-- **The routing table is an exact LRU for each distance class.** For every run of insertions of
20-byte addresses, bucket `i` is the first 20 elements of the repeat-free, most-recent-first list of
the inserted addresses whose distance to `own` has `i` leading zeroes. -/
theorem insertIntoTable_run_lru (own : Address) (hown : own.raw.length = 20) (as : List Address)
    (has : ∀ a ∈ as, a.raw.length = 20) :
    ∃ t, as.foldlM (insertIntoTable own) new = .ok t ∧
      (∀ i < 160, t.bucket i =
        (recent Address.raw (as.filter fun a => index own a = .ok (i : Int))).take 20) ∧
      (∀ i < 160, (t.bucket i).length ≤ 20) ∧
      (((List.range 160).flatMap t.bucket).map Address.raw).Nodup ∧
      (∀ i < 160, ∀ a ∈ t.bucket i, index own a = .ok (i : Int)) ∧
      ∀ a : Address, a.raw.length = 20 → ∃ i : Nat, i < 160 ∧ index own a = .ok (i : Int) := by
  obtain ⟨t, hrun, hp, hlru⟩ := bucket_foldlM hown as has
  refine ⟨t, hrun, fun i _ => ?_, fun i _ => hp.length_le i, hp.nodup, fun i _ a ha => ?_,
    fun a ha => ⟨bucketOf own a, bucketOf_lt own a, index_eq hown ha⟩⟩
  · have hfilter : (as.filter fun a => index own a = .ok (i : Int)) =
        as.filter fun a => bucketOf own a = i := by
      apply List.filter_congr
      intro a ha
      rw [index_eq hown (has a ha), decide_eq_decide]
      constructor
      · intro h
        injection h with h
        exact_mod_cast h
      · intro h
        rw [h]
    rw [hfilter, hlru i]
    rfl
  · rw [index_eq hown (hp.raw_length i a ha), hp.home i a ha]

/-- The address that ends in the byte `b` and is zero elsewhere. -/
def lastByte (b : UInt8) : Address := { raw := List.replicate 19 0 ++ [b] }

/-- Three insertions into one bucket, the second of which is repeated. -/
theorem insertIntoTable_run_lru_four :
    let as := [lastByte 4, lastByte 5, lastByte 6, lastByte 5]
    ∃ t, as.foldlM (insertIntoTable (lastByte 0)) new = .ok t ∧
      (∀ i < 160, t.bucket i =
        (recent Address.raw (as.filter fun a => index (lastByte 0) a = .ok (i : Int))).take 20) ∧
      t.bucket 157 = [lastByte 5, lastByte 6, lastByte 4] := by
  obtain ⟨t, hrun, hbucket, -⟩ := insertIntoTable_run_lru (lastByte 0) (by decide)
    [lastByte 4, lastByte 5, lastByte 6, lastByte 5] (by decide)
  refine ⟨t, hrun, hbucket, ?_⟩
  rw [hbucket 157 (by decide)]
  decide +kernel

end Zif.Dht.Table
