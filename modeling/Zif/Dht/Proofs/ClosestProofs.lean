import Zif.Dht.Proofs.FindClosestProofs

/-!
# Proofs: what FindClosest returns

`findClosest_spec` gives the addresses `FindClosest` returns as a function of the table. The two
promises about them then become conditions on the table: `findClosest_complete_iff` and
`findClosest_leavesOutFarther_iff`.
-/

namespace Zif.Dht

open Go Recency

variable {P : Prims}

/-! ## The order of the scan -/

theorem outwardFrom_eq_outward {n : Nat} (hn : n < 160) :
    NetDB.outwardFrom n 1 (n + 160) = outward n := by
  have hnil : (List.range' 161 n).flatMap (besides n) = [] := by
    rw [List.flatMap_eq_nil_iff]
    intro i hi
    rw [List.mem_range'_1] at hi
    rw [List.eq_nil_iff_forall_not_mem]
    intro j hj
    rw [NetDB.mem_besides] at hj
    omega
  rw [NetDB.outwardFrom, outward, Nat.add_comm n 160, ← List.range'_append_1, List.flatMap_append,
    hnil, List.append_nil]

theorem mem_outward {n j : Nat} (hn : n < 160) : j ∈ outward n ↔ j < 160 ∧ j ≠ n := by
  simp only [outward, List.mem_flatMap, List.mem_range'_1, NetDB.mem_besides]
  constructor
  · rintro ⟨i, hi, h⟩
    omega
  · rintro ⟨hj, hne⟩
    rcases Nat.lt_or_gt_of_ne hne with hlt | hgt
    · exact ⟨n - j, by omega, Or.inl (by omega)⟩
    · exact ⟨j - n, by omega, Or.inr (by omega)⟩

theorem nodup_outward {n : Nat} : (outward n).Nodup := by
  rw [outward, List.nodup_flatMap]
  constructor
  · intro i hi
    rw [List.mem_range'_1] at hi
    exact NetDB.nodup_besides (by omega)
  · refine List.Pairwise.imp_of_mem ?_ (List.nodup_range' 1 Nat.one_pos)
    intro i k hi hk hik j hji hjk
    rw [List.mem_range'_1] at hi hk
    rw [NetDB.mem_besides] at hji hjk
    omega

/-- The scan visits every bucket: the target's own first, then all others. -/
theorem perm_cons_outward {n : Nat} (hn : n < 160) : (n :: outward n).Perm (List.range 160) := by
  refine (List.perm_ext_iff_of_nodup ?_ List.nodup_range).mpr fun j => ?_
  · exact List.nodup_cons.mpr ⟨fun h => ((mem_outward hn).mp h).2 rfl, nodup_outward⟩
  · rw [List.mem_cons, mem_outward hn, List.mem_range]
    omega

/-! ## The result -/

/-- The addresses `FindClosest` returns for a target of bucket `n`. -/
def closestRaws (t : Table) (n : Nat) : List Bytes :=
  if (t.raws n).length = bucketSize then shifted (t.raws n)
  else (shifted (t.raws n) ++ shifted (walkOver (t.raws n)) ++ metIn t (outward n)).take bucketSize

/-- A cut behind the first list only cuts the second. -/
theorem take_append_of_length_le {c : Nat} {xs : List Bytes} (ys : List Bytes) (hxs : xs.length ≤ c) :
    (xs ++ ys).take c = xs ++ ys.take (c - xs.length) := by
  rw [List.take_append, List.take_of_length_le hxs]

namespace NetDB

variable {ndb : NetDB}

/-- The exact result of `FindClosest`. -/
theorem findClosest_spec (hs : Served P ndb) (target : Address) (ht : target.raw.length = 20) :
    ∃ ndb' ret, ndb.findClosest P target = (ndb', .ok ret) ∧
      entryRaws ret = (closestRaws ndb.table (Table.bucketOf ndb.addr target)).map some := by
  set n := Table.bucketOf ndb.addr target with hn
  have hlt : n < 160 := Table.bucketOf_lt _ _
  obtain ⟨s, hslice⟩ := hs.placed.ok.exists_slice hlt
  have hlen : (ndb.table.raws n).length = s.len := by
    rw [Table.raws, List.length_map, hs.placed.ok.length_bucket hslice]
  have hle : (ndb.table.raws n).length ≤ bucketSize := by
    rw [Table.raws, List.length_map]
    exact hs.placed.length_le n
  unfold findClosest closestRaws
  rw [Table.index_eq hs.own ht]
  simp only
  rw [← hn, Table.slot_eq hslice]
  simp only
  by_cases hfull : s.len = bucketSize
  · obtain ⟨ndb', ret, hrun, hret, -⟩ := rangeQuery_bucket none [] hs hslice
    rw [if_pos hfull, if_pos (hlen.trans hfull)]
    exact ⟨ndb', ret, hrun, by simpa [entryRaws, cut] using hret⟩
  · rw [if_neg hfull, if_neg (by rwa [hlen]), ht]
    -- the first round walks over the target's bucket twice
    obtain ⟨ndb₁, ret₁, hrun₁, hret₁, hwalk₁⟩ := scanBucket_spec [] hs hlt
    have hall : (shifted (ndb.table.raws n)).take (bucketSize - 0) = shifted (ndb.table.raws n) :=
      List.take_of_length_le (by rw [length_shifted]; exact hle)
    simp only [List.length_nil, hall, entryRaws, List.map_nil, List.nil_append] at hret₁ hwalk₁
    have hlen₁ : ret₁.length = (shifted (ndb.table.raws n)).length := by
      have := congrArg List.length hret₁
      simpa using this
    obtain ⟨ndb₂, ret₂, hrun₂, hret₂, hwalk₂⟩ := scanBucket_spec ret₁ hwalk₁.served hlt
    have hagain : ndb₁.table.raws n = walkOver (ndb.table.raws n) := hwalk₁.here
    rw [hagain] at hret₂ hwalk₂
    obtain ⟨ndb', ret, hrun, hret⟩ := scan_spec n (n + 160) 1 ret₂ hwalk₂.served (by omega) hlt
    have hself : ∀ j ∈ outward n, j ∉ [n] := fun j hj => by simpa using ((mem_outward hlt).mp hj).2
    have hmet : metIn ndb₂.table (outward n) = metIn ndb.table (outward n) := by
      rw [hwalk₂.scanned.metIn_eq hself, hwalk₁.scanned.metIn_eq hself]
    have hlen₂ : ret₂.length = ret₁.length +
        ((shifted (walkOver (ndb.table.raws n))).take (bucketSize - ret₁.length)).length := by
      rw [← length_entryRaws, hret₂, List.length_append, length_entryRaws, List.length_map]
    refine ⟨ndb', ret, ?_, ?_⟩
    · have hstep : ndb.scanStep P 160 n 0 [] = (ndb₂, .ok ret₂) := by
        rw [scanStep_eq]
        simp only [besides, Nat.zero_le, if_true, Nat.sub_zero, Nat.add_zero, hlt,
          List.singleton_append, scanBuckets, hrun₁, hrun₂]
      show scan P 160 n (n + 160 + 1) 0 ndb [] = _
      rw [scan, if_pos ⟨Or.inl (Nat.zero_le n), by decide⟩, hstep]
      exact hrun
    · rw [hret, outwardFrom_eq_outward hlt, hmet, hret₂, hlen₂, Nat.sub_add_eq, List.append_assoc,
        ← List.map_append, take_append_take, hlen₁]
      rw [show entryRaws ret₁ = (shifted (ndb.table.raws n)).map some from hret₁, ← List.map_append]
      congr 1
      rw [List.append_assoc (shifted _)]
      exact (take_append_of_length_le _ (by rw [length_shifted]; exact hle)).symm

end NetDB

/-! ## Repeated and lost peers -/

namespace Table

variable {own : Address} {t : Table}

theorem Placed.nodup_raws (hp : Placed own t) (j : Nat) : (t.raws j).Nodup := hp.distinct j

theorem Placed.length_raws_le (hp : Placed own t) (j : Nat) : (t.raws j).length ≤ bucketSize := by
  rw [raws, List.length_map]
  exact hp.length_le j

theorem Placed.disjoint_raws (hp : Placed own t) {i j : Nat} (hij : i ≠ j) :
    (t.raws i).Disjoint (t.raws j) := hp.disjoint hij

end Table

theorem mem_metIn {t : Table} {js : List Nat} {r : Bytes} (h : r ∈ metIn t js) :
    ∃ j ∈ js, r ∈ t.raws j := by
  obtain ⟨j, hj, hr⟩ := List.mem_flatMap.mp h
  exact ⟨j, hj, mem_of_mem_shifted hr⟩

theorem length_metIn (t : Table) (js : List Nat) : (metIn t js).length = heldIn t js := by
  simp [metIn, heldIn, length_shifted, Table.raws, List.length_flatMap]

theorem tableLen_eq {own : Address} {t : Table} (hp : Table.Placed own t) {n : Nat} (hn : n < 160) :
    t.tableLen = (t.bucket n).length + heldIn t (outward n) := by
  have hsum : t.tableLen = heldIn t (List.range 160) := by
    unfold Table.tableLen heldIn
    congr 1
    apply List.ext_getElem?
    intro i
    rw [List.getElem?_map, List.getElem?_map]
    by_cases hi : i < 160
    · obtain ⟨s, hs⟩ := hp.ok.exists_slice hi
      rw [hs, List.getElem?_range hi]
      simp [hp.ok.length_bucket hs]
    · rw [List.getElem?_eq_none (by rw [hp.ok.size]; omega), List.getElem?_eq_none (by simp; omega)]
      rfl
  have hperm := ((perm_cons_outward hn).map fun j => (t.bucket j).length).sum_eq
  rw [hsum, heldIn, ← hperm]
  rfl

/-- A cut walk repeats an address exactly when it reads some bucket of three addresses or more to its
end. -/
theorem nodup_take_metIn {own : Address} {t : Table} (hp : Table.Placed own t) {js : List Nat}
    (hjs : js.Nodup) (c : Nat) :
    ((metIn t js).take c).Nodup ↔ ∀ pre j post, js = pre ++ j :: post →
      heldIn t pre + (t.bucket j).length ≤ c → (t.bucket j).length ≤ 2 := by
  induction js generalizing c with
  | nil => simp [metIn]
  | cons i js ih =>
    obtain ⟨hi, hjs⟩ := List.nodup_cons.mp hjs
    have hlen : (t.raws i).length = (t.bucket i).length := by simp [Table.raws]
    have hsplit : (metIn t (i :: js)).take c =
        (shifted (t.raws i)).take c ++ (metIn t js).take (c - (t.bucket i).length) := by
      rw [← hlen, ← length_shifted, ← List.take_append]
      rfl
    have hdisj : ((shifted (t.raws i)).take c).Disjoint
        ((metIn t js).take (c - (t.bucket i).length)) := by
      intro r hr hr'
      obtain ⟨j, hj, hrj⟩ := mem_metIn (List.mem_of_mem_take hr')
      have hij : i ≠ j := fun h => hi (h ▸ hj)
      exact hp.disjoint_raws hij (mem_of_mem_shifted (List.mem_of_mem_take hr)) hrj
    have hfirst : ((shifted (t.raws i)).take c).Nodup ↔
        ((t.bucket i).length ≤ c → (t.bucket i).length ≤ 2) := by
      rw [← hlen]
      constructor
      · intro hnodup hle
        rw [List.take_of_length_le (by rwa [length_shifted])] at hnodup
        by_contra hgt
        exact not_nodup_shifted (by omega) hnodup
      · intro h
        exact nodup_take_shifted (hp.nodup_raws i) (by omega)
    rw [hsplit, List.nodup_append', hfirst, ih hjs]
    constructor
    · rintro ⟨h1, h2, -⟩ pre j post heq
      cases pre with
      | nil =>
        rw [List.nil_append, List.cons.injEq] at heq
        rw [← heq.1]
        simpa [heldIn] using h1
      | cons k pre =>
        rw [List.cons_append, List.cons.injEq] at heq
        have := h2 pre j post heq.2
        rw [← heq.1]
        simp only [heldIn, List.map_cons, List.sum_cons] at this ⊢
        omega
    · intro h
      refine ⟨?_, fun pre j post heq => ?_, hdisj⟩
      · simpa [heldIn] using h [] i js rfl
      · have := h (i :: pre) j post (by rw [heq]; rfl)
        simp only [heldIn, List.map_cons, List.sum_cons] at this ⊢
        omega

/-- The result repeats no address exactly when the target's bucket is empty and the scan reads no
larger bucket to its end. -/
theorem nodup_closestRaws {own : Address} {t : Table} (hp : Table.Placed own t) (n : Nat) :
    (closestRaws t n).Nodup ↔ t.bucket n = [] ∧ ReadsOnlyShort t n := by
  have hle := hp.length_raws_le n
  unfold closestRaws
  by_cases hempty : t.raws n = []
  · have hb : t.bucket n = [] := by simpa [Table.raws] using hempty
    rw [hempty, if_neg (by decide)]
    simp only [walkOver, shifted, List.foldl_nil, List.nil_append]
    rw [nodup_take_metIn hp nodup_outward]
    simp [hb, ReadsOnlyShort]
  · have hb : t.bucket n ≠ [] := by simpa [Table.raws] using hempty
    simp only [hb, false_and, iff_false]
    by_cases hfull : (t.raws n).length = bucketSize
    · rw [if_pos hfull]
      exact not_nodup_shifted (by rw [hfull]; decide)
    · -- the second walk starts with the address the first one ended with
      rw [if_neg hfull, List.append_assoc,
        take_append_of_length_le _ (by rw [length_shifted]; exact hle), length_shifted]
      obtain ⟨x, rest, hwalk, hx⟩ := exists_walkOver_eq_cons hempty
      have hpos : bucketSize - (t.raws n).length = bucketSize - (t.raws n).length - 1 + 1 := by omega
      rw [hwalk, shifted, List.cons_append, hpos, List.take_succ_cons]
      intro hnodup
      exact (List.nodup_append'.mp hnodup).2.2 hx (by simp)

theorem length_closestRaws_of_empty {own : Address} {t : Table} (hp : Table.Placed own t) {n : Nat}
    (hn : n < 160) (hempty : t.bucket n = []) :
    (closestRaws t n).length = min bucketSize t.tableLen := by
  have hraws : t.raws n = [] := by rw [Table.raws, hempty]; rfl
  rw [closestRaws, hraws, if_neg (by decide), tableLen_eq hp hn, hempty]
  simp [walkOver, shifted, length_metIn]

/-! ## The two promises as conditions on the result -/

theorem complete_iff {t : Table} {ret : List (Option Entry)} {rs : List Bytes}
    (hret : entryRaws ret = rs.map some) :
    Complete t ret ↔ rs.Nodup ∧ rs.length = min bucketSize t.tableLen := by
  have hnone : none ∉ ret := by
    intro h
    have : none ∈ entryRaws ret := List.mem_map.mpr ⟨none, h, rfl⟩
    simp [hret] at this
  have hlen : ret.length = rs.length := by
    have := congrArg List.length hret
    simpa [entryRaws] using this
  rw [Complete, hret, List.nodup_map_iff (Option.some_injective _), hlen]
  simp [hnone]

theorem leavesOutFarther_iff {t : Table} {target : Address} {ret : List (Option Entry)}
    {rs : List Bytes} (hret : entryRaws ret = rs.map some) :
    LeavesOutFarther t target ret ↔ ∀ j, ∀ a ∈ t.bucket j, a.raw ∉ rs →
      ∀ r ∈ rs, Address.closer target a { raw := r } = .ok false := by
  have hmem : ∀ r, some r ∈ entryRaws ret ↔ r ∈ rs := by
    intro r
    rw [hret]
    simp
  unfold LeavesOutFarther
  refine forall₃_congr fun j a _ => ?_
  rw [hmem]
  refine imp_congr_right fun _ => ⟨fun h r hr => ?_, fun h e he => ?_⟩
  · obtain ⟨x, hx, hxr⟩ := List.mem_map.mp ((hmem r).mpr hr)
    obtain ⟨e, rfl, her⟩ := Option.map_eq_some_iff.mp hxr
    rw [← her]
    exact h e hx
  · exact h _ ((hmem _).mp (List.mem_map.mpr ⟨some e, he, rfl⟩))

/-! ## Peers that are left out -/

section Closer

variable {own target : Address} {t : Table}

theorem closer_false_iff {a : Address} {r : Bytes} (ht : target.raw.length = 20)
    (ha : a.raw.length = 20) (hr : r.length = 20) :
    Address.closer target a { raw := r } = .ok false ↔
      Address.distance { raw := r } target ≤ Address.distance a target := by
  rw [Address.closer_eq (ha.trans ht.symm) (hr.trans ht.symm)]
  simp

/-- An address of the target's bucket is closer than one of another bucket. -/
theorem Table.Placed.closer_own (hp : Table.Placed own t) (hown : own.raw.length = 20)
    (ht : target.raw.length = 20) {j : Nat} (hj : j ≠ Table.bucketOf own target) {a : Address}
    (ha : a ∈ t.bucket j) {r : Bytes} (hr : r ∈ t.raws (Table.bucketOf own target)) :
    Address.closer target a { raw := r } = .ok false := by
  obtain ⟨b, hb, rfl⟩ := List.mem_map.mp hr
  have hlt : Address.distance { raw := b.raw } target < Address.distance a target :=
    Table.distance_lt_of_bucketOf (a := { raw := b.raw }) hown ht (hp.raw_length _ b hb)
      (hp.raw_length j a ha) (hp.home _ b hb) (by rwa [hp.home j a ha])
  rw [closer_false_iff ht (hp.raw_length j a ha) (hp.raw_length _ b hb)]
  exact hlt.le

/-- From a bucket with more than ten addresses everything is returned but its second address. -/
theorem mem_closestRaws_of_gt (hp : Table.Placed own t) {n : Nat} {a b : Bytes} {l : List Bytes}
    (hraws : t.raws n = a :: b :: l) (hgt : 10 < (t.raws n).length) (x : Bytes) :
    x ∈ closestRaws t n ↔ x ∈ t.raws n ∧ x ≠ b := by
  have hd := hp.nodup_raws n
  have hle := hp.length_raws_le n
  have hlen : (t.raws n).length = l.length + 2 := by rw [hraws]; rfl
  have hl : l ≠ [] := fun h => by simp [h] at hlen; omega
  have hperm := perm_walkOver hd
  rw [hraws] at hd
  have hfirst : x ∈ shifted (t.raws n) ↔ x ∈ t.raws n ∧ x ≠ b := by
    constructor
    · intro hx
      refine ⟨mem_of_mem_shifted hx, fun hxb => ?_⟩
      rw [hraws, hxb] at hx
      exact not_mem_shifted_second hl hd hx
    · rintro ⟨hx, hxb⟩
      rw [hraws] at hx ⊢
      exact mem_shifted_cons_cons hx hxb
  unfold closestRaws
  split
  · exact hfirst
  · have hcut : bucketSize - (t.raws n).length ≤ l.length := by
      rw [hlen]
      simp only [bucketSize]
      omega
    rw [List.append_assoc, take_append_of_length_le _ (by rw [length_shifted]; exact hle),
      length_shifted, List.take_append_of_le_length (by rw [length_shifted, hperm.length_eq]; omega),
      List.mem_append, hfirst]
    constructor
    · rintro (h | h)
      · exact h
      · refine ⟨hperm.mem_iff.mp (mem_of_mem_shifted (List.mem_of_mem_take h)), fun hxb => ?_⟩
        rw [hraws] at h hcut
        exact not_mem_take_shifted_walkOver hl hd hcut (hxb ▸ h)
    · exact Or.inl

/-- With at most ten addresses in the target's bucket, all of them are returned, and the scan fills
the places that two walks over them leave. -/
theorem mem_closestRaws_of_le (hp : Table.Placed own t) {n : Nat} (hle : (t.raws n).length ≤ 10)
    (x : Bytes) : x ∈ closestRaws t n ↔
      x ∈ t.raws n ∨ x ∈ (metIn t (outward n)).take (bucketSize - 2 * (t.raws n).length) := by
  have hd := hp.nodup_raws n
  have hperm := perm_walkOver hd
  have hlen : (shifted (t.raws n) ++ shifted (walkOver (t.raws n))).length = 2 * (t.raws n).length := by
    rw [List.length_append, length_shifted, length_shifted, hperm.length_eq]
    omega
  rw [closestRaws, if_neg (by simp only [bucketSize]; omega),
    take_append_of_length_le _ (by rw [hlen]; simp only [bucketSize]; omega), hlen,
    List.mem_append, List.mem_append]
  refine or_congr_left ⟨?_, mem_shifted_or_shifted_walkOver hd⟩
  rintro (h | h)
  · exact mem_of_mem_shifted h
  · exact hperm.mem_iff.mp (mem_of_mem_shifted h)

variable {ret : List (Option Entry)}

/-- A large target bucket: the promise is about its second address alone. -/
theorem leavesOutFarther_iff_of_gt (hp : Table.Placed own t) (hown : own.raw.length = 20)
    (ht : target.raw.length = 20) (hgt : 10 < (t.bucket (Table.bucketOf own target)).length)
    (hret : entryRaws ret = (closestRaws t (Table.bucketOf own target)).map some) :
    LeavesOutFarther t target ret ↔ SecondFarthest t target (Table.bucketOf own target) := by
  set n := Table.bucketOf own target with hn
  obtain ⟨a, b, l, hb⟩ : ∃ a b l, t.bucket n = a :: b :: l := by
    match h : t.bucket n, hgt with
    | a :: b :: l, _ => exact ⟨a, b, l, rfl⟩
  have hraws : t.raws n = a.raw :: b.raw :: l.map Address.raw := by rw [Table.raws, hb]; rfl
  have hmem := mem_closestRaws_of_gt hp hraws (by rw [Table.raws, List.length_map]; exact hgt)
  have hbmem : b ∈ t.bucket n := by simp [hb]
  rw [leavesOutFarther_iff hret]
  have hsecond : (t.bucket n)[1]? = some b := by rw [hb]; rfl
  constructor
  · intro h s hs x hx
    rw [hsecond, Option.some.injEq] at hs
    subst hs
    by_cases hxb : x.raw = b.raw
    · show Address.closer target b { raw := x.raw } = _
      rw [hxb, closer_false_iff ht (hp.raw_length n b hbmem) (hp.raw_length n b hbmem)]
      exact le_refl _
    · exact h n b hbmem (fun hmb => ((hmem _).mp hmb).2 rfl) x.raw
        ((hmem _).mpr ⟨List.mem_map_of_mem hx, hxb⟩)
  · intro h j x hx hxr r hr
    obtain ⟨hrn, -⟩ := (hmem r).mp hr
    by_cases hj : j = n
    · subst hj
      have hxb : x.raw = b.raw := by
        by_contra hne
        exact hxr ((hmem _).mpr ⟨List.mem_map_of_mem hx, hne⟩)
      obtain ⟨y, hy, rfl⟩ := List.mem_map.mp hrn
      have := h b hsecond y hy
      have hsame : Address.closer target x { raw := y.raw } = Address.closer target b y := by
        simp only [Address.closer, Address.xor, hxb]
      rw [hsame, this]
    · exact hp.closer_own hown ht hj hx hrn

/-- A small target bucket: the promise is about the other buckets alone. -/
theorem leavesOutFarther_iff_of_le (hp : Table.Placed own t) (hown : own.raw.length = 20)
    (ht : target.raw.length = 20) (hle : (t.bucket (Table.bucketOf own target)).length ≤ 10)
    (hret : entryRaws ret = (closestRaws t (Table.bucketOf own target)).map some) :
    LeavesOutFarther t target ret ↔ ScanNearest t target (Table.bucketOf own target) := by
  set n := Table.bucketOf own target with hn
  have hlt : n < 160 := Table.bucketOf_lt _ _
  have hlen : (t.raws n).length = (t.bucket n).length := by rw [Table.raws, List.length_map]
  have hmem := mem_closestRaws_of_le hp (hlen.trans_le hle)
  rw [hlen] at hmem
  rw [leavesOutFarther_iff hret]
  unfold ScanNearest
  simp only
  constructor
  · intro h i j hi hj a ha b hb hna hnb
    refine h i a ha (fun hmem' => ?_) b.raw ((hmem _).mpr (Or.inr hnb))
    rcases (hmem _).mp hmem' with h' | h'
    · exact hp.disjoint_raws hi (List.mem_map_of_mem ha) h'
    · exact hna h'
  · intro h i a ha hna r hr
    rw [hmem, not_or] at hna
    have hi : i ≠ n := fun hin => hna.1 (List.mem_map_of_mem (hin ▸ ha))
    rcases (hmem r).mp hr with hrn | hrm
    · exact hp.closer_own hown ht hi ha hrn
    · obtain ⟨j, hj, hrj⟩ := mem_metIn (List.mem_of_mem_take hrm)
      obtain ⟨b, hb, rfl⟩ := List.mem_map.mp hrj
      exact h i j hi ((mem_outward hlt).mp hj).2 a ha b hb hna.2 hrm

end Closer

/-! ## FindClosest on a table built by insertions -/

section Run

variable {own target : Address} {as : List Address} {db : DB} {t : Table}

/-- A table built by insertions of addresses that have a row is in order. -/
theorem served_of_run (hown : own.raw.length = 20) (has : ∀ a ∈ as, a.raw.length = 20)
    (hrow : ∀ a ∈ as, HasRow P db a) (hrun : as.foldlM (Table.insertIntoTable own) Table.new = .ok t) :
    NetDB.Served P ⟨own, t, db⟩ := by
  obtain ⟨t', hrun', hp, hlru⟩ := Table.bucket_foldlM hown as has
  rw [hrun] at hrun'
  cases hrun'
  refine ⟨hown, hp, fun j a ha => hrow a ?_⟩
  have ha' : a ∈ t.bucket j := ha
  rw [hlru j] at ha'
  exact (List.mem_filter.mp (mem_of_mem_recent (List.mem_of_mem_take ha'))).1

/-- A database with a row for each of the given addresses and nothing else. -/
def rowsFor (P : Prims) (raws : List Bytes) : DB where
  entries := raws.mapIdx fun i raw =>
    { id := i + 1, address := .text (Address.encodeRaw P raw), name := .text [], desc := .text [],
      publicAddress := .text [], port := 0, publicKey := [], signature := [], collectionHash := [],
      postCount := 0, seedCount := 0, seedingCount := 0, updated := 0, seen := 0 }
  seeds := []
  fts := []

theorem hasRow_rowsFor {raws : List Bytes} (hraws : ∀ r ∈ raws, r.length = 20) {r : Bytes}
    (hr : r ∈ raws) : HasRow P (rowsFor P raws) { raw := r } := by
  refine ⟨Address.string_of_encoded_nil P r, ?_⟩
  have hfind : ((rowsFor P raws).row (P.store (({ raw := r } : Address).string P))).isSome := by
    rw [Address.string_of_encoded_nil, Address.store_encodeRaw P (hraws r hr), DB.row,
      List.find?_isSome]
    obtain ⟨i, hi, hget⟩ := List.getElem_of_mem hr
    refine ⟨_, List.mem_mapIdx.mpr ⟨i, hi, rfl⟩, ?_⟩
    simp [hget]
  obtain ⟨row, hrow⟩ := Option.isSome_iff_exists.mp hfind
  have haddr : row.address = P.store (({ raw := r } : Address).string P) := by
    simpa using List.find?_some hrow
  rw [Address.string_of_encoded_nil, Address.store_encodeRaw P (hraws r hr)] at haddr
  refine ⟨(DB.readRow row { raw := r } [] [], row.id), ?_⟩
  have hseeds : (rowsFor P raws).querySeeds row.id = .ok [] := rfl
  have hseeding : (rowsFor P raws).querySeeding row.id = .ok [] := by
    have : (rowsFor P raws).selectSeeding row.id = [] := by
      simp [DB.selectSeeding, rowsFor]
    rw [DB.querySeeding, this]
    rfl
  have hdecode : Address.decodeAddress row.address.load = .ok { raw := r } := by
    rw [haddr]
    exact Address.decodeAddress_encodeRaw P r
  simp only [DB.query, hrow, hdecode, hseeds, hseeding]
  rfl

/-- The table after insertions into a new one. -/
theorem exists_run (own : Address) (hown : own.raw.length = 20) (as : List Address)
    (has : ∀ a ∈ as, a.raw.length = 20) :
    ∃ t, as.foldlM (Table.insertIntoTable own) Table.new = .ok t := by
  obtain ⟨t, hrun, -⟩ := Table.bucket_foldlM hown as has
  exact ⟨t, hrun⟩

open Table in
/-- The rows of the peers of the examples below. -/
def sampleRows : DB := rowsFor .sample [(lastByte 4).raw, (lastByte 5).raw, (lastByte 6).raw]

open Table in
theorem hasRow_sampleRows : ∀ a ∈ [lastByte 4, lastByte 5, lastByte 6],
    HasRow .sample sampleRows a := by
  intro a ha
  have hraw : a.raw ∈ [(lastByte 4).raw, (lastByte 5).raw, (lastByte 6).raw] := by
    simpa using List.mem_map_of_mem (f := Address.raw) ha
  have henc : a = { raw := a.raw } := by
    fin_cases ha <;> rfl
  rw [henc]
  exact hasRow_rowsFor (by decide) hraw

/-- **When FindClosest repeats and loses no peer.** On a table built by insertions, for a target of
bucket `n`: exactly when that bucket is empty and the scan reads no bucket of three addresses or more
to its end. -/
theorem findClosest_complete_iff (P : Prims) (own target : Address) (hown : own.raw.length = 20)
    (ht : target.raw.length = 20) (as : List Address) (has : ∀ a ∈ as, a.raw.length = 20) (db : DB)
    (hrow : ∀ a ∈ as, HasRow P db a) (t : Table)
    (hrun : as.foldlM (Table.insertIntoTable own) Table.new = .ok t) (n : Nat)
    (hn : Table.index own target = .ok (n : Int)) :
    ∃ ndb' ret, NetDB.findClosest P ⟨own, t, db⟩ target = (ndb', .ok ret) ∧
      (Complete t ret ↔ t.bucket n = [] ∧ ReadsOnlyShort t n) := by
  have hs := served_of_run hown has hrow hrun
  obtain ⟨ndb', ret, hfind, hret⟩ := NetDB.findClosest_spec hs target ht
  have hbucket := Table.bucketOf_eq_of_index hown ht hn
  subst hbucket
  refine ⟨ndb', ret, hfind, ?_⟩
  rw [complete_iff hret, nodup_closestRaws hs.placed]
  constructor
  · exact fun h => h.1
  · exact fun h => ⟨h, length_closestRaws_of_empty hs.placed (Table.bucketOf_lt _ _) h.1⟩

open Table in
/-- Two peers far from the target. -/
theorem findClosest_complete_iff_two :
    ∃ t ndb' ret, [lastByte 4, lastByte 5].foldlM (insertIntoTable (lastByte 0)) new = .ok t ∧
      NetDB.findClosest .sample ⟨lastByte 0, t, sampleRows⟩ (lastByte 1) = (ndb', .ok ret) ∧
      (Complete t ret ↔ t.bucket 159 = [] ∧ ReadsOnlyShort t 159) := by
  obtain ⟨t, hrun⟩ := exists_run (lastByte 0) (by decide) [lastByte 4, lastByte 5] (by decide)
  obtain ⟨ndb', ret, h⟩ := findClosest_complete_iff .sample (lastByte 0) (lastByte 1) (by decide)
    (by decide) [lastByte 4, lastByte 5] (by decide) sampleRows
    (fun a ha => hasRow_sampleRows a (by simp only [List.mem_cons] at ha ⊢; tauto)) t hrun 159
    (by decide +kernel)
  exact ⟨t, ndb', ret, hrun, h⟩

open Table in
/-- A single peer is returned twice when the target belongs to its bucket. -/
theorem findClosest_repeats_peer :
    ∃ t ndb' ret, [lastByte 4].foldlM (insertIntoTable (lastByte 0)) new = .ok t ∧
      (∀ a ∈ [lastByte 4], HasRow .sample sampleRows a) ∧
      NetDB.findClosest .sample ⟨lastByte 0, t, sampleRows⟩ (lastByte 5) = (ndb', .ok ret) ∧
      entryRaws ret = [some (lastByte 4).raw, some (lastByte 4).raw] ∧ ¬ Complete t ret := by
  have hrow : ∀ a ∈ [lastByte 4], HasRow .sample sampleRows a :=
    fun a ha => hasRow_sampleRows a (by simp only [List.mem_cons] at ha ⊢; tauto)
  obtain ⟨t, hrun⟩ := exists_run (lastByte 0) (by decide) [lastByte 4] (by decide)
  obtain ⟨ndb', ret, hfind, -⟩ := NetDB.findClosest_spec
    (served_of_run (by decide) (by decide) hrow hrun) (lastByte 5) (by decide)
  have heval : ([lastByte 4].foldlM (insertIntoTable (lastByte 0)) new).bind (fun t =>
      (NetDB.findClosest .sample ⟨lastByte 0, t, sampleRows⟩ (lastByte 5)).2.map entryRaws) =
      .ok [some (lastByte 4).raw, some (lastByte 4).raw] := by decide +kernel
  rw [hrun, Except.bind, hfind, Except.map, Except.ok.injEq] at heval
  refine ⟨t, ndb', ret, hrun, hrow, hfind, heval, fun hc => ?_⟩
  have hnodup := hc.2.1
  rw [heval] at hnodup
  exact absurd hnodup (by decide)

/-- **When FindClosest leaves out only farther peers.** On a table built by insertions, for a target
of bucket `n`: with more than ten addresses there, exactly when the second of them is the farthest;
otherwise exactly when the free places of the scan go to the nearest addresses of the other
buckets. -/
theorem findClosest_leavesOutFarther_iff (P : Prims) (own target : Address)
    (hown : own.raw.length = 20) (ht : target.raw.length = 20) (as : List Address)
    (has : ∀ a ∈ as, a.raw.length = 20) (db : DB) (hrow : ∀ a ∈ as, HasRow P db a) (t : Table)
    (hrun : as.foldlM (Table.insertIntoTable own) Table.new = .ok t) (n : Nat)
    (hn : Table.index own target = .ok (n : Int)) :
    ∃ ndb' ret, NetDB.findClosest P ⟨own, t, db⟩ target = (ndb', .ok ret) ∧
      (LeavesOutFarther t target ret ↔
        (10 < (t.bucket n).length → SecondFarthest t target n) ∧
        ((t.bucket n).length ≤ 10 → ScanNearest t target n)) := by
  have hs := served_of_run hown has hrow hrun
  obtain ⟨ndb', ret, hfind, hret⟩ := NetDB.findClosest_spec hs target ht
  have hbucket := Table.bucketOf_eq_of_index hown ht hn
  subst hbucket
  refine ⟨ndb', ret, hfind, ?_⟩
  rcases Nat.lt_or_ge 10 (t.bucket (Table.bucketOf own target)).length with hgt | hle
  · rw [leavesOutFarther_iff_of_gt hs.placed hown ht hgt hret]
    exact ⟨fun h => ⟨fun _ => h, fun h' => by omega⟩, fun h => h.1 hgt⟩
  · rw [leavesOutFarther_iff_of_le hs.placed hown ht hle hret]
    exact ⟨fun h => ⟨fun h' => by omega, fun _ => h⟩, fun h => h.2 hle⟩

open Table in
/-- Three peers of one bucket, and a target of another. -/
theorem findClosest_leavesOutFarther_iff_three :
    ∃ t ndb' ret,
      [lastByte 4, lastByte 5, lastByte 6].foldlM (insertIntoTable (lastByte 0)) new = .ok t ∧
      NetDB.findClosest .sample ⟨lastByte 0, t, sampleRows⟩ (lastByte 1) = (ndb', .ok ret) ∧
      (LeavesOutFarther t (lastByte 1) ret ↔
        (10 < (t.bucket 159).length → SecondFarthest t (lastByte 1) 159) ∧
        ((t.bucket 159).length ≤ 10 → ScanNearest t (lastByte 1) 159)) := by
  obtain ⟨t, hrun⟩ := exists_run (lastByte 0) (by decide)
    [lastByte 4, lastByte 5, lastByte 6] (by decide)
  obtain ⟨ndb', ret, h⟩ := findClosest_leavesOutFarther_iff .sample (lastByte 0) (lastByte 1)
    (by decide) (by decide) [lastByte 4, lastByte 5, lastByte 6] (by decide) sampleRows
    hasRow_sampleRows t hrun 159 (by decide +kernel)
  exact ⟨t, ndb', ret, hrun, h⟩

open Table in
/-- Of three peers in one bucket the closest is left out, since the first query of the walk moves it
to the place the walk has just read. -/
theorem findClosest_leaves_out_closer_peer :
    ∃ t ndb' ret,
      [lastByte 4, lastByte 5, lastByte 6].foldlM (insertIntoTable (lastByte 0)) new = .ok t ∧
      (∀ a ∈ [lastByte 4, lastByte 5, lastByte 6], HasRow .sample sampleRows a) ∧
      NetDB.findClosest .sample ⟨lastByte 0, t, sampleRows⟩ (lastByte 1) = (ndb', .ok ret) ∧
      entryRaws ret = [some (lastByte 6).raw, some (lastByte 4).raw, some (lastByte 4).raw] ∧
      ¬ LeavesOutFarther t (lastByte 1) ret := by
  obtain ⟨t, hrun, -, hlru⟩ := bucket_foldlM (show (lastByte 0).raw.length = 20 by decide)
    [lastByte 4, lastByte 5, lastByte 6] (by decide)
  obtain ⟨ndb', ret, hfind, -⟩ := NetDB.findClosest_spec
    (served_of_run (by decide) (by decide) hasRow_sampleRows hrun) (lastByte 1) (by decide)
  have heval : ([lastByte 4, lastByte 5, lastByte 6].foldlM (insertIntoTable (lastByte 0)) new).bind
      (fun t => (NetDB.findClosest .sample ⟨lastByte 0, t, sampleRows⟩ (lastByte 1)).2.map entryRaws) =
      .ok [some (lastByte 6).raw, some (lastByte 4).raw, some (lastByte 4).raw] := by decide +kernel
  rw [hrun, Except.bind, hfind, Except.map, Except.ok.injEq] at heval
  refine ⟨t, ndb', ret, hrun, hasRow_sampleRows, hfind, heval, fun hc => ?_⟩
  have hret : entryRaws ret =
      [(lastByte 6).raw, (lastByte 4).raw, (lastByte 4).raw].map some := heval
  rw [leavesOutFarther_iff hret] at hc
  have hmem : lastByte 5 ∈ t.bucket 157 := by
    rw [hlru 157]
    decide +kernel
  have hfar := hc 157 (lastByte 5) hmem (by decide) (lastByte 6).raw (by decide)
  exact absurd hfar (by decide +kernel)

end Run

end Zif.Dht
