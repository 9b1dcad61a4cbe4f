import Zif.Lib.BigEndian

/-!
# Proofs: byte strings as numbers

Comparing byte strings of one length is comparing their values, and combining them byte by byte with
exclusive or is combining the values. `xor_lt_of_log2` is the fact about exclusive or that the
buckets of the routing table rest on.
-/

namespace BigEndian

open Go

/-! ## Values -/

@[simp] theorem value_nil : value [] = 0 := rfl

theorem value_cons (b : UInt8) (bs : Bytes) :
    value (b :: bs) = b.toNat * 256 ^ bs.length + value bs := by
  simp only [value, List.reverse_cons, List.map_append, List.map_cons, List.map_nil,
    Nat.ofDigits_append, Nat.ofDigits_singleton, List.length_map, List.length_reverse]
  ring

theorem value_lt (bs : Bytes) : value bs < 256 ^ bs.length := by
  induction bs with
  | nil => simp
  | cons b bs ih =>
    have hb := b.toNat_lt
    rw [value_cons, List.length_cons, pow_succ]
    nlinarith

/-- A byte string of a given length is determined by its value. -/
theorem value_injective {xs ys : Bytes} (hlen : xs.length = ys.length) (h : value xs = value ys) : xs = ys := by
  induction xs generalizing ys with
  | nil => exact (List.length_eq_zero_iff.mp hlen.symm).symm
  | cons x xs ih =>
    cases ys with
    | nil => cases hlen
    | cons y ys =>
      have hlen' : xs.length = ys.length := Nat.succ.inj hlen
      rw [value_cons, value_cons, hlen'] at h
      have hx := value_lt xs
      have hy := value_lt ys
      rw [hlen'] at hx
      have hhead : x.toNat = y.toNat := by
        have hdiv := congrArg (· / 256 ^ ys.length) h
        simpa [Nat.mul_add_div, Nat.mul_comm, Nat.div_eq_of_lt hx, Nat.div_eq_of_lt hy] using hdiv
      rw [hhead] at h
      rw [UInt8.toNat_inj.mp hhead, ih hlen' (Nat.add_left_cancel h)]

/-- A number without leading zero bytes is read back from its value. -/
theorem bytes_value {b : UInt8} {bs : Bytes} (hb : b ≠ 0) : bytes (value (b :: bs)) = b :: bs := by
  have hdigits : Nat.digits 256 (value (b :: bs)) = (b :: bs).reverse.map UInt8.toNat := by
    apply Nat.digits_ofDigits 256 (by norm_num)
    · intro l hl
      obtain ⟨x, -, rfl⟩ := List.mem_map.mp hl
      exact x.toNat_lt
    · intro h
      simp only [List.reverse_cons, List.map_append, List.map_cons, List.map_nil,
        List.getLast_append_singleton]
      intro h0
      exact hb (UInt8.toNat_inj.mp (by simpa using h0))
  rw [bytes, hdigits, ← List.map_reverse, List.reverse_reverse, List.map_map]
  exact List.map_id'' (fun x => by simp) _

/-! ## Exclusive or -/

/-- Exclusive or of two numbers that are each split at bit `k`. -/
theorem xor_split {a b c d k : Nat} (hc : c < 2 ^ k) (hd : d < 2 ^ k) :
    (a * 2 ^ k + c) ^^^ (b * 2 ^ k + d) = (a ^^^ b) * 2 ^ k + (c ^^^ d) := by
  have hcd : c ^^^ d < 2 ^ k := Nat.xor_lt_two_pow hc hd
  apply Nat.eq_of_testBit_eq
  intro i
  rw [Nat.testBit_xor, mul_comm a, mul_comm b, mul_comm (a ^^^ b),
    Nat.testBit_two_pow_mul_add _ hc, Nat.testBit_two_pow_mul_add _ hd,
    Nat.testBit_two_pow_mul_add _ hcd]
  split <;> rw [Nat.testBit_xor]

/-- Exclusive or byte by byte is exclusive or of the values. -/
theorem value_zipWith_xor {xs ys : Bytes} (hlen : xs.length = ys.length) :
    value (List.zipWith (· ^^^ ·) xs ys) = value xs ^^^ value ys := by
  induction xs generalizing ys with
  | nil => simp [List.length_eq_zero_iff.mp hlen.symm]
  | cons x xs ih =>
    cases ys with
    | nil => simp at hlen
    | cons y ys =>
      have hl : xs.length = ys.length := by simpa using hlen
      have hpow : (256 : Nat) ^ xs.length = 2 ^ (8 * xs.length) := by
        rw [pow_mul]
        norm_num
      have hx := value_lt xs
      have hy := value_lt ys
      rw [hpow] at hx
      rw [← hl, hpow] at hy
      rw [List.zipWith_cons_cons, value_cons, value_cons, value_cons, ih hl,
        List.length_zipWith, ← hl, Nat.min_self, hpow, xor_split hx hy, UInt8.toNat_xor]

/-- The leading bit of a sum whose second part lies below the first. -/
theorem log2_mul_add {b r k : Nat} (hb : b ≠ 0) (hr : r < 2 ^ k) :
    Nat.log2 (b * 2 ^ k + r) = Nat.log2 b + k := by
  have hpos : 0 < 2 ^ k := Nat.two_pow_pos k
  have hne : b * 2 ^ k + r ≠ 0 := by
    have := Nat.mul_pos (Nat.pos_of_ne_zero hb) hpos
    omega
  rw [Nat.log2_eq_iff hne]
  obtain ⟨hlo, hhi⟩ := (Nat.log2_eq_iff hb).mp rfl
  constructor
  · rw [pow_add]
    have := Nat.mul_le_mul_right (2 ^ k) hlo
    omega
  · have hstep := Nat.mul_le_mul_right (2 ^ k) (Nat.succ_le_of_lt hhi)
    rw [show b.log2 + k + 1 = (b.log2 + 1) + k by omega, pow_add]
    have : (b.succ) * 2 ^ k = b * 2 ^ k + 2 ^ k := Nat.succ_mul b (2 ^ k)
    omega

theorem lt_two_pow_of_log2_lt {n k : Nat} (h : Nat.log2 n < k) : n < 2 ^ k := by
  by_cases hn : n = 0
  · subst hn
    exact Nat.two_pow_pos k
  · exact (Nat.log2_lt hn).mp h

/-- Exclusive or with a number below the leading bit keeps that bit. -/
theorem two_pow_le_xor {x y k : Nat} (hx : Nat.log2 x = k) (hk : x ≠ 0) (hy : y < 2 ^ k) :
    2 ^ k ≤ x ^^^ y := by
  apply Nat.ge_two_pow_of_testBit
  rw [Nat.testBit_xor, Nat.testBit_lt_two_pow hy, ← hx, Nat.testBit_log2 hk]
  rfl

/-- Two numbers with one leading bit lose it when they are combined. -/
theorem xor_lt_of_log2_eq {x y k : Nat} (hx : Nat.log2 x = k) (hy : Nat.log2 y = k) (hx0 : x ≠ 0)
    (hy0 : y ≠ 0) : x ^^^ y < 2 ^ k := by
  apply Nat.lt_pow_two_of_testBit
  intro i hi
  rw [Nat.testBit_xor]
  rcases Nat.eq_or_lt_of_le hi with rfl | hlt
  · have h1 := Nat.testBit_log2 hx0
    have h2 := Nat.testBit_log2 hy0
    rw [hx] at h1
    rw [hy] at h2
    rw [h1, h2]
    rfl
  · rw [Nat.testBit_lt_two_pow (lt_two_pow_of_log2_lt (by omega)),
      Nat.testBit_lt_two_pow (lt_two_pow_of_log2_lt (by omega))]
    rfl

/-- If `z` has a bit above all those of `x` and `y`, `x` is nearer to `y` than `z` is. -/
theorem xor_lt_of_log2_lt {x y z : Nat} (hx : Nat.log2 x < Nat.log2 z) (hy : Nat.log2 y < Nat.log2 z) :
    x ^^^ y < z ^^^ y := by
  have hz0 : z ≠ 0 := by
    rintro rfl
    simp at hx
  have h1 := Nat.xor_lt_two_pow (lt_two_pow_of_log2_lt hx) (lt_two_pow_of_log2_lt hy)
  have h2 := two_pow_le_xor rfl hz0 (lt_two_pow_of_log2_lt hy)
  omega

/-- If `x` has the leading bit position of `y` and `z` has another one, `x` is nearer to `y` than
`z` is. The position of 0 counts as 0, like that of 1. -/
theorem xor_lt_of_log2 {x y z : Nat} (hx : Nat.log2 x = Nat.log2 y) (hz : Nat.log2 z ≠ Nat.log2 y) :
    x ^^^ y < z ^^^ y := by
  rcases Nat.lt_or_gt_of_ne hz with hlt | hgt
  · -- `y` has a bit that `z` lacks
    have hy0 : y ≠ 0 := by
      rintro rfl
      simp at hlt
    have hx0 : x ≠ 0 := by
      rintro rfl
      rw [← hx] at hlt
      simp at hlt
    have h1 := xor_lt_of_log2_eq hx rfl hx0 hy0
    have h2 := two_pow_le_xor rfl hy0 (lt_two_pow_of_log2_lt hlt)
    rw [Nat.xor_comm] at h2
    omega
  · exact xor_lt_of_log2_lt (hx.trans_lt hgt) hgt

/-! ## Bits -/

@[simp] theorem length_byteBits (b : UInt8) : (byteBits b).length = 8 := by simp [byteBits]

@[simp] theorem length_bits (bs : Bytes) : (bits bs).length = 8 * bs.length := by
  induction bs with
  | nil => rfl
  | cons b bs ih =>
    rw [bits, List.flatMap_cons, List.length_append, length_byteBits, ← bits, ih, List.length_cons]
    omega

/-- The bits of an exclusive or are those that differ. -/
theorem bits_zipWith_xor {xs ys : Bytes} (hlen : xs.length = ys.length) :
    bits (List.zipWith (· ^^^ ·) xs ys) = List.zipWith (· != ·) (bits xs) (bits ys) := by
  induction xs generalizing ys with
  | nil => simp [bits]
  | cons x xs ih =>
    cases ys with
    | nil => simp at hlen
    | cons y ys =>
      have hbyte : byteBits (x ^^^ y) = List.zipWith (· != ·) (byteBits x) (byteBits y) := by
        simp [byteBits, List.zipWith_map, List.zipWith_self]
      rw [List.zipWith_cons_cons, bits, List.flatMap_cons, ← bits, ih (by simpa using hlen), hbyte,
        ← List.zipWith_append (by simp)]
      rfl

/-- Bit strings of one length are the same, or the first bit in which they differ follows their common
prefix. -/
theorem findIdx?_zipWith_ne {as bs : List Bool} (hlen : as.length = bs.length) :
    as = bs ∧ (List.zipWith (· != ·) as bs).findIdx? id = none ∧ commonPrefix as bs = as.length ∨
      (List.zipWith (· != ·) as bs).findIdx? id = some (commonPrefix as bs) ∧
        commonPrefix as bs < as.length := by
  induction as generalizing bs with
  | nil => exact .inl ⟨(List.length_eq_zero_iff.mp hlen.symm).symm, rfl, rfl⟩
  | cons a as ih =>
    cases bs with
    | nil => simp at hlen
    | cons b bs =>
      by_cases hab : a = b
      · subst hab
        rw [List.zipWith_cons_cons, List.findIdx?_cons, commonPrefix, if_pos rfl, if_neg (by simp)]
        rcases ih (by simpa using hlen) with ⟨rfl, hnone, hall⟩ | ⟨hsome, hlt⟩
        · exact .inl ⟨rfl, by rw [hnone]; rfl, by rw [hall]; rfl⟩
        · exact .inr ⟨by rw [hsome]; rfl, by simpa using hlt⟩
      · rw [List.zipWith_cons_cons, List.findIdx?_cons, commonPrefix, if_neg hab, if_pos (by simpa using hab)]
        exact .inr ⟨rfl, by simp⟩

theorem commonPrefix_comm (as bs : List Bool) : commonPrefix as bs = commonPrefix bs as := by
  induction as generalizing bs with
  | nil => cases bs <;> rfl
  | cons a as ih =>
    cases bs with
    | nil => rfl
    | cons b bs => simp only [commonPrefix, ih bs, eq_comm]

end BigEndian
