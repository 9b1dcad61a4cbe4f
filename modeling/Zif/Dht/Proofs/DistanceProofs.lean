import Zif.Dht.Proofs.AddressProofs

/-!
# Proofs: addresses as numbers

`Less` and `LeadingZeroes` read an address of any length as a big-endian number, and the bucket an address
belongs to is told by the bits it has in common with the node's own. The count of leading zeroes ends one
before the number of bits, so that the distances 0 and 1 share a bucket.
-/

namespace Zif.Dht

open Go BigEndian

namespace Address

variable {x : Address}

/-! ## The leading bit -/

theorem leadingBit_eq_findIdx? (b : UInt8) : leadingBit b = (byteBits b).findIdx? id := by
  have h : ∀ n : Fin 256, leadingBit (UInt8.ofNat n) = (byteBits (UInt8.ofNat n)).findIdx? id := by
    decide +kernel
  have hb := h ⟨b.toNat, b.toNat_lt⟩
  simpa using hb

/-- The two loops look for the first bit that is set. -/
theorem leadingZeroesFrom_eq_findIdx? (i : Nat) (raw : Bytes) :
    leadingZeroesFrom i raw = ((bits raw).findIdx? id).map (i * 8 + ·) := by
  induction raw generalizing i with
  | nil => rfl
  | cons b raw ih =>
    rw [leadingZeroesFrom, leadingBit_eq_findIdx?, bits, List.flatMap_cons, ← bits, List.findIdx?_append,
      length_byteBits]
    cases (byteBits b).findIdx? id with
    | some j => rfl
    | none =>
      have hshift : ((i * 8 + ·) ∘ (· + 8)) = ((i + 1) * 8 + ·) := by
        funext j
        simp only [Function.comp_apply]
        omega
      rw [Option.none_or, Option.map_map, hshift]
      exact ih (i + 1)

/-- The count is `n`, short of its end, for the numbers with `n` zeroes and then a one. -/
theorem leadingZeroes_eq_iff {n : Nat} (hn : n < 8 * x.raw.length - 1) :
    x.leadingZeroes = n ↔
      2 ^ (8 * x.raw.length - 1 - n) ≤ value x.raw ∧ value x.raw < 2 ^ (8 * x.raw.length - n) := by
  rw [leadingZeroes_eq, show 8 * x.raw.length - n = 8 * x.raw.length - 1 - n + 1 by omega]
  by_cases hzero : value x.raw = 0
  · have hpos := Nat.two_pow_pos (8 * x.raw.length - 1 - n)
    rw [hzero, Nat.log2_zero]
    omega
  · rw [← Nat.log2_eq_iff hzero]
    omega

/-- The end of the count stands for 1 and for 0. -/
theorem leadingZeroes_eq_last_iff (hpos : 1 ≤ x.raw.length) :
    x.leadingZeroes = (8 * x.raw.length - 1 : Nat) ↔ value x.raw ≤ 1 := by
  rw [leadingZeroes_eq]
  by_cases hzero : value x.raw = 0
  · rw [hzero, Nat.log2_zero]
    omega
  · have hlog : Nat.log2 (value x.raw) = 0 ↔ 2 ^ 0 ≤ value x.raw ∧ value x.raw < 2 ^ 1 :=
      Nat.log2_eq_iff hzero
    omega

end Address

namespace Table

open Address

/-- The bucket of an address is the length of the prefix it has in common with the node's own. -/
theorem index_eq_commonPrefix {own a : Address} (hlen : a.raw.length = own.raw.length)
    (hpos : 1 ≤ a.raw.length) :
    index own a =
      .ok ((min (commonPrefix (bits a.raw) (bits own.raw)) (8 * a.raw.length - 1) : Nat) : Int) := by
  rw [index, xor_eq hlen]
  show Except.ok (leadingZeroes _) = _
  rw [leadingZeroes, leadingZeroesFrom_eq_findIdx?, bits_zipWith_xor hlen]
  have hbits : (bits a.raw).length = (bits own.raw).length := by simp [hlen]
  rcases findIdx?_zipWith_ne hbits with ⟨-, hnone, hall⟩ | ⟨hsome, hlt⟩
  · rw [hnone, hall]
    simp only [Option.map_none, List.length_zipWith, ← hlen, Nat.min_self, length_bits]
    congr 1
    omega
  · rw [length_bits] at hlt
    rw [hsome]
    simp only [Option.map_some]
    congr 1
    omega

/-- **Less, LeadingZeroes and the bucket index.** On byte strings of one length, with at least one byte, `Less`
compares the numbers they stand for; `LeadingZeroes` is `n < 8L - 1` exactly for the numbers from `2 ^ (8L-1-n)`
up to `2 ^ (8L-n)`, and `8L - 1` exactly for 0 and 1; the bucket index is symmetric, and is the length of the
common prefix of the bits, at most `8L - 1`. -/
theorem less_leadingZeroes_numeric (x y : Address) (hlen : x.raw.length = y.raw.length)
    (hpos : 1 ≤ x.raw.length) :
    x.less y = .ok (decide (value x.raw < value y.raw)) ∧
      (∀ n < 8 * x.raw.length - 1, x.leadingZeroes = (n : Int) ↔
        2 ^ (8 * x.raw.length - 1 - n) ≤ value x.raw ∧ value x.raw < 2 ^ (8 * x.raw.length - n)) ∧
      (x.leadingZeroes = (8 * x.raw.length - 1 : Nat) ↔ value x.raw ≤ 1) ∧
      index x y = index y x ∧
      index x y =
        .ok ((min (commonPrefix (bits x.raw) (bits y.raw)) (8 * x.raw.length - 1) : Nat) : Int) := by
  refine ⟨lessRaw_eq hlen, fun n hn => leadingZeroes_eq_iff hn, leadingZeroes_eq_last_iff hpos, ?_, ?_⟩
  · rw [index_eq_commonPrefix hlen.symm (hlen ▸ hpos), index_eq_commonPrefix hlen hpos, hlen,
      commonPrefix_comm]
  · rw [index_eq_commonPrefix hlen.symm (hlen ▸ hpos), hlen, commonPrefix_comm]

/-- Two addresses of two bytes that have their first 14 bits in common. -/
theorem less_leadingZeroes_numeric_two :
    Address.less { raw := [1, 4] } { raw := [1, 6] } = .ok true ∧
      Address.leadingZeroes { raw := [1, 4] } = 7 ∧
      index { raw := [1, 4] } { raw := [1, 6] } = .ok 14 := by
  obtain ⟨hless, hzeroes, -, -, hindex⟩ :=
    less_leadingZeroes_numeric { raw := [1, 4] } { raw := [1, 6] } rfl (by decide)
  refine ⟨?_, ?_, ?_⟩
  · rw [hless]
    decide +kernel
  · exact (hzeroes 7 (by decide)).mpr (by decide +kernel)
  · rw [hindex]
    decide +kernel

end Table

end Zif.Dht
