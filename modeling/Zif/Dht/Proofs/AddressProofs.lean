import Zif.Dht.Closest
import Zif.Dht.Proofs.Base58Proofs

/-!
# Proofs: addresses

An address is known by its bytes and by its text, and the two agree exactly when no other text was
preset (`equals_iff_string_iff_canonical`).

On addresses of one length `Xor`, `Less` and `LeadingZeroes` never go out of range and are the
numeric notions: exclusive or, `<`, and the position of the leading bit.
-/

namespace Zif.Dht

open Go

namespace Address

/-! ## Text form -/

theorem string_of_encoded_nil (P : Prims) (raw : Bytes) :
    ({ raw } : Address).string P = encodeRaw P raw := by
  simp [string]

theorem canonical_iff {P : Prims} {a : Address} :
    a.Canonical P ↔ a.string P = encodeRaw P a.raw := by
  unfold Canonical string
  cases hcached : a.encoded with
  | nil => simp
  | cons b bs => simp

/-- What `Generate` caches for a new address is its text form. -/
theorem canonical_newAddress (P : Prims) (key : Bytes) : (newAddress P key).Canonical P := by
  unfold newAddress generate
  by_cases hkey : key.length = 32
  · simp [hkey, Canonical, string]
  · simp [hkey, Canonical]

theorem decodeAddress_encodeRaw (P : Prims) (raw : Bytes) :
    decodeAddress (encodeRaw P raw) = .ok { raw } := by
  rw [decodeAddress, encodeRaw, Base58.decode_encode P (by decide)]
  rfl

theorem encodeRaw_injective (P : Prims) {raw raw' : Bytes} (h : encodeRaw P raw = encodeRaw P raw') :
    raw = raw' := by
  have h1 := decodeAddress_encodeRaw P raw
  rw [h, decodeAddress_encodeRaw] at h1
  injection h1 with h1
  injection h1 with h1
  exact h1.symm

/-- SQLite stores the text form of a 20-byte address as it is. -/
theorem store_encodeRaw (P : Prims) {raw : Bytes} (hraw : raw.length = 20) :
    P.store (encodeRaw P raw) = .text (encodeRaw P raw) := by
  have hnone : P.number (encodeRaw P raw) = none :=
    P.number_plain _ ⟨90, Base58.mem_encode P hraw, by decide⟩
  rw [Prims.store, hnone]

/-- `Equals` and comparing the texts are the same, and the text is that of the bytes, exactly for two
addresses whose cached forms are their own. -/
theorem equals_iff_string_iff_canonical (P : Prims) (a b : Address) :
    ((a.equals b = true ↔ a.string P = b.string P) ∧ a.string P = encodeRaw P a.raw ∧
        b.string P = encodeRaw P b.raw) ↔ a.Canonical P ∧ b.Canonical P := by
  rw [canonical_iff, canonical_iff]
  refine ⟨And.right, fun h => ⟨?_, h⟩⟩
  obtain ⟨ha, hb⟩ := h
  rw [ha, hb, equals, decide_eq_true_iff]
  exact ⟨congrArg (encodeRaw P), encodeRaw_injective P⟩

/-- Two addresses with different bytes and the same preset text, and two with the same bytes and
different texts. -/
theorem preset_text_splits_identity :
    let a : Address := ⟨List.replicate 20 1, [90]⟩
    let b : Address := ⟨List.replicate 20 2, [90]⟩
    let c : Address := { raw := List.replicate 20 1 }
    (a.equals b = false ∧ a.string .sample = b.string .sample) ∧
      (a.equals c = true ∧ a.string .sample ≠ c.string .sample) ∧
      a.string .sample ≠ encodeRaw .sample a.raw := by
  decide +kernel

/-! ## Distance -/

theorem xorRaw_of_le {xs ys : Bytes} (hlen : xs.length ≤ ys.length) :
    xorRaw xs ys = .ok (List.zipWith (· ^^^ ·) xs ys) := by
  induction xs generalizing ys with
  | nil => simp [xorRaw]
  | cons x xs ih =>
    cases ys with
    | nil => simp at hlen
    | cons y ys =>
      rw [xorRaw, ih (by simpa using hlen)]
      rfl

theorem xorRaw_of_lt {xs ys : Bytes} (hlen : ys.length < xs.length) :
    xorRaw xs ys = .error .panic := by
  induction xs generalizing ys with
  | nil => simp at hlen
  | cons x xs ih =>
    cases ys with
    | nil => rfl
    | cons y ys =>
      rw [xorRaw, ih (by simpa using hlen)]
      rfl

theorem xor_of_le {a b : Address} (hlen : a.raw.length ≤ b.raw.length) :
    a.xor b = .ok { raw := List.zipWith (· ^^^ ·) a.raw b.raw } := by
  rw [xor, xorRaw_of_le hlen]
  rfl

theorem xor_of_lt {a b : Address} (hlen : b.raw.length < a.raw.length) :
    a.xor b = .error .panic := by
  rw [xor, xorRaw_of_lt hlen]
  rfl

theorem xor_eq {a b : Address} (hlen : a.raw.length = b.raw.length) :
    a.xor b = .ok { raw := List.zipWith (· ^^^ ·) a.raw b.raw } := xor_of_le hlen.le

theorem lessRaw_eq {xs ys : Bytes} (hlen : xs.length = ys.length) :
    lessRaw xs ys = .ok (decide (BigEndian.value xs < BigEndian.value ys)) := by
  induction xs generalizing ys with
  | nil => simp [lessRaw, List.length_eq_zero_iff.mp hlen.symm]
  | cons x xs ih =>
    cases ys with
    | nil => simp at hlen
    | cons y ys =>
      have hl : xs.length = ys.length := by simpa using hlen
      have hx := BigEndian.value_lt xs
      have hy := BigEndian.value_lt ys
      rw [lessRaw, BigEndian.value_cons, BigEndian.value_cons, ← hl]
      rw [← hl] at hy
      by_cases hxy : x = y
      · subst hxy
        rw [if_neg (by simp), ih hl]
        simp
      · have hne : x.toNat ≠ y.toNat := fun h => hxy (UInt8.toNat_inj.mp h)
        rw [if_pos hxy]
        congr 1
        rw [decide_eq_decide, UInt8.lt_iff_toNat_lt]
        rcases Nat.lt_or_gt_of_ne hne with hlt | hgt
        · have := Nat.mul_le_mul_right (256 ^ xs.length) (Nat.succ_le_of_lt hlt)
          rw [Nat.succ_mul] at this
          omega
        · have := Nat.mul_le_mul_right (256 ^ xs.length) (Nat.succ_le_of_lt hgt)
          rw [Nat.succ_mul] at this
          omega

/-- The distance between two addresses as a number. -/
def distance (a b : Address) : Nat := BigEndian.value a.raw ^^^ BigEndian.value b.raw

theorem closer_eq {t a b : Address} (ha : a.raw.length = t.raw.length)
    (hb : b.raw.length = t.raw.length) :
    closer t a b = .ok (decide (distance a t < distance b t)) := by
  have hlen : (List.zipWith (· ^^^ ·) a.raw t.raw).length =
      (List.zipWith (· ^^^ ·) b.raw t.raw).length := by
    simp [ha, hb]
  rw [closer, xor_eq ha, xor_eq hb]
  show lessRaw _ _ = _
  rw [lessRaw_eq hlen, BigEndian.value_zipWith_xor ha, BigEndian.value_zipWith_xor hb]
  rfl

/-! ## Leading zeroes -/

/-- The inner loop finds the leading bit of a byte. -/
theorem leadingBit_eq (b : UInt8) :
    leadingBit b = if b = 0 then none else some (7 - Nat.log2 b.toNat) := by
  have h : ∀ n : Fin 256, leadingBit (UInt8.ofNat n) =
      if UInt8.ofNat n = 0 then none else some (7 - Nat.log2 (UInt8.ofNat n).toNat) := by
    decide +kernel
  have hb := h ⟨b.toNat, b.toNat_lt⟩
  simpa using hb

theorem log2_le_seven (b : UInt8) : Nat.log2 b.toNat ≤ 7 := by
  by_cases hb : b.toNat = 0
  · simp [hb]
  · have := (Nat.log2_lt hb).mpr (show b.toNat < 2 ^ 8 from b.toNat_lt)
    omega

theorem leadingZeroesFrom_eq (i : Nat) (raw : Bytes) :
    leadingZeroesFrom i raw = if BigEndian.value raw = 0 then none
      else some (8 * (i + raw.length) - 1 - Nat.log2 (BigEndian.value raw)) := by
  induction raw generalizing i with
  | nil => simp [leadingZeroesFrom]
  | cons b raw ih =>
    have hpow : (256 : Nat) ^ raw.length = 2 ^ (8 * raw.length) := by
      rw [pow_mul]
      norm_num
    have hlt := BigEndian.value_lt raw
    rw [leadingZeroesFrom, leadingBit_eq, BigEndian.value_cons, hpow]
    rw [hpow] at hlt
    by_cases hb : b = 0
    · subst hb
      have hcount : 8 * (i + 1 + raw.length) = 8 * (i + (raw.length + 1)) := by omega
      simp [ih, hcount]
    · have hb0 : b.toNat ≠ 0 := fun h => hb (UInt8.toNat_inj.mp (by simpa using h))
      have hne : b.toNat * 2 ^ (8 * raw.length) + BigEndian.value raw ≠ 0 := by
        have := Nat.mul_pos (Nat.pos_of_ne_zero hb0) (Nat.two_pow_pos (8 * raw.length))
        omega
      have h7 := log2_le_seven b
      rw [if_neg hb, if_neg hne, BigEndian.log2_mul_add hb0 hlt]
      simp only [List.length_cons, Option.some.injEq]
      omega

/-- `LeadingZeroes` counts down from the position of the leading bit; 0 and 1 give the same. -/
theorem leadingZeroes_eq (a : Address) :
    a.leadingZeroes = (a.raw.length : Int) * 8 - 1 - Nat.log2 (BigEndian.value a.raw) := by
  rw [leadingZeroes, leadingZeroesFrom_eq]
  by_cases h0 : BigEndian.value a.raw = 0
  · simp [h0]
  · have hlt := BigEndian.value_lt a.raw
    rw [show (256 : Nat) = 2 ^ 8 by norm_num, ← pow_mul] at hlt
    have := (Nat.log2_lt h0).mpr hlt
    rw [if_neg h0]
    simp only [Nat.zero_add]
    omega

end Address

namespace Table

open Address

/-- The number of the bucket an address of the same length as `own` belongs to. -/
def bucketOf (own a : Address) : Nat := 159 - Nat.log2 (distance a own)

theorem log2_distance_lt {a b : Address} (ha : a.raw.length = 20) (hb : b.raw.length = 20) :
    Nat.log2 (distance a b) < 160 := by
  have h1 := BigEndian.value_lt a.raw
  have h2 := BigEndian.value_lt b.raw
  rw [ha] at h1
  rw [hb] at h2
  have hlt : distance a b < 2 ^ 160 := Nat.xor_lt_two_pow (by norm_num at *; omega) (by norm_num at *; omega)
  by_cases h0 : distance a b = 0
  · simp [h0]
  · exact (Nat.log2_lt h0).mpr hlt

theorem bucketOf_lt (own a : Address) : bucketOf own a < 160 := by
  unfold bucketOf
  omega

/-- The computed index is the bucket number; it is always in range. -/
theorem index_eq {own a : Address} (hown : own.raw.length = 20) (ha : a.raw.length = 20) :
    index own a = .ok (bucketOf own a : Int) := by
  have hlen : a.raw.length = own.raw.length := ha.trans hown.symm
  have hlog := log2_distance_lt ha hown
  rw [index, xor_eq hlen]
  show Except.ok (Address.leadingZeroes _) = _
  rw [leadingZeroes_eq, BigEndian.value_zipWith_xor hlen, List.length_zipWith, ha, hown]
  show Except.ok (_ - ((Nat.log2 (distance a own) : Nat) : Int)) = _
  unfold bucketOf
  congr 1
  omega

/-- The index of an address that is not longer than `own`. Without a byte it has the index -1. -/
theorem index_of_le {own a : Address} (ha : a.raw.length ≤ own.raw.length) :
    ∃ i : Int, index own a = .ok i ∧ i < a.raw.length * 8 ∧ (0 < a.raw.length ↔ 0 ≤ i) := by
  refine ⟨_, by rw [index, xor_of_le ha]; rfl, ?_⟩
  rw [leadingZeroes_eq]
  simp only [List.length_zipWith, Nat.min_eq_left ha]
  have hlt := BigEndian.value_lt (List.zipWith (· ^^^ ·) a.raw own.raw)
  rw [List.length_zipWith, Nat.min_eq_left ha, show (256 : Nat) = 2 ^ 8 by norm_num, ← pow_mul] at hlt
  by_cases h0 : BigEndian.value (List.zipWith (· ^^^ ·) a.raw own.raw) = 0
  · rw [h0]
    simp
    omega
  · have := (Nat.log2_lt h0).mpr hlt
    omega

/-- An address that is longer than `own` has no index, one without a byte has a negative one, and every
other has the number of a bit. -/
theorem index_cases (own a : Address) :
    own.raw.length < a.raw.length ∧ index own a = .error .panic ∨
      a.raw.length = 0 ∧ (∃ i < 0, index own a = .ok i) ∨
        (0 < a.raw.length ∧ a.raw.length ≤ own.raw.length) ∧
          ∃ n : Nat, n < a.raw.length * 8 ∧ index own a = .ok (n : Int) := by
  rcases Nat.lt_or_ge own.raw.length a.raw.length with hlong | hle
  · exact .inl ⟨hlong, by rw [index, xor_of_lt hlong]; rfl⟩
  · obtain ⟨i, hi, hlt, hnonneg⟩ := index_of_le hle
    rcases Nat.eq_zero_or_pos a.raw.length with hzero | hpos
    · have hneg := hnonneg.not.mp (by omega)
      exact .inr (.inl ⟨hzero, i, by omega, hi⟩)
    · obtain ⟨n, rfl⟩ := Int.eq_ofNat_of_zero_le (hnonneg.mp hpos)
      exact .inr (.inr ⟨⟨hpos, hle⟩, n, by omega, hi⟩)

theorem bucketOf_eq_of_index {own a : Address} {n : Nat} (hown : own.raw.length = 20)
    (ha : a.raw.length = 20) (hn : index own a = .ok (n : Int)) : bucketOf own a = n := by
  rw [index_eq hown ha] at hn
  injection hn with hn
  exact_mod_cast hn

theorem bucketOf_congr {own a b : Address} (h : a.raw = b.raw) : bucketOf own a = bucketOf own b := by
  unfold bucketOf distance
  rw [h]

/-- The distance of two addresses is that of their distances to a third. -/
theorem distance_xor_distance (x own t : Address) :
    distance x own ^^^ distance t own = distance x t := by
  unfold distance
  rw [Nat.xor_assoc, Nat.xor_comm (BigEndian.value t.raw), ← Nat.xor_assoc (BigEndian.value own.raw),
    Nat.xor_self, Nat.zero_xor]

/-- The addresses of the target's bucket are closer to the target than all others. -/
theorem distance_lt_of_bucketOf {own t a b : Address} (hown : own.raw.length = 20)
    (ht : t.raw.length = 20) (ha : a.raw.length = 20) (hb : b.raw.length = 20)
    (hsame : bucketOf own a = bucketOf own t) (hother : bucketOf own b ≠ bucketOf own t) :
    distance a t < distance b t := by
  have h1 := log2_distance_lt ht hown
  have h2 := log2_distance_lt ha hown
  have h3 := log2_distance_lt hb hown
  unfold bucketOf at hsame hother
  have hlt := BigEndian.xor_lt_of_log2 (x := distance a own) (y := distance t own)
    (z := distance b own) (by omega) (by omega)
  rwa [distance_xor_distance, distance_xor_distance] at hlt

/-- The addresses of a bucket before those of the target and of `a` are farther from the target than
`a`. -/
theorem distance_lt_of_bucketOf_lt {own t a b : Address} (hown : own.raw.length = 20)
    (ht : t.raw.length = 20) (ha : a.raw.length = 20) (hat : bucketOf own b < bucketOf own a)
    (hbt : bucketOf own b < bucketOf own t) : distance a t < distance b t := by
  have h1 := log2_distance_lt ht hown
  have h2 := log2_distance_lt ha hown
  unfold bucketOf at hat hbt
  have hlt := BigEndian.xor_lt_of_log2_lt (x := distance a own) (y := distance t own)
    (z := distance b own) (by omega) (by omega)
  rwa [distance_xor_distance, distance_xor_distance] at hlt

end Table

end Zif.Dht
