import Zif.Go.Basic

/-!
# Proofs: decimal numbers

`strconv.Atoi` undoes `strconv.Itoa` on every 64-bit integer (`atoi_itoa`), and what `Itoa` writes
consists of digits and possibly a minus sign.
-/

namespace Go

theorem toNat_digit {d : Nat} (h : d < 10) : (UInt8.ofNat (48 + d)).toNat = 48 + d := by
  rw [UInt8.toNat_ofNat', Nat.mod_eq_of_lt (by omega)]

theorem isDigit_digit {d : Nat} (h : d < 10) : isDigit (UInt8.ofNat (48 + d)) = true := by
  rw [isDigit, toNat_digit h]
  simp
  omega

theorem decimal_of_pos {n : Nat} (hn : n ≠ 0) :
    decimal n = (Nat.digits 10 n).reverse.map fun d => UInt8.ofNat (48 + d) := by
  rw [decimal, if_neg hn]

theorem decimal_ne_nil (n : Nat) : decimal n ≠ [] := by
  by_cases hn : n = 0
  · simp [decimal, hn]
  · rw [decimal_of_pos hn]
    simpa [Nat.digits_ne_nil_iff_ne_zero] using hn

theorem isDigit_of_mem_decimal {n : Nat} {b : UInt8} (hb : b ∈ decimal n) : isDigit b = true := by
  by_cases hn : n = 0
  · simp only [decimal, hn, if_true, List.mem_singleton] at hb
    rw [hb]
    rfl
  · rw [decimal_of_pos hn] at hb
    obtain ⟨d, hd, rfl⟩ := List.mem_map.mp hb
    exact isDigit_digit (Nat.digits_lt_base (by decide) (List.mem_reverse.mp hd))

/-- Reading the digits of a number gives the number. -/
theorem digitsVal_decimal (n : Nat) : digitsVal (decimal n) = some n := by
  have hall : (decimal n).all isDigit = true :=
    List.all_eq_true.mpr fun b hb => isDigit_of_mem_decimal hb
  have hne : (decimal n).isEmpty = false := by
    simpa using decimal_ne_nil n
  rw [digitsVal, if_neg (by simp [hall, hne])]
  by_cases hn : n = 0
  · simp [decimal, hn]
  · have hdigits : (decimal n).reverse.map (fun b => b.toNat - 48) = Nat.digits 10 n := by
      rw [decimal_of_pos hn, ← List.map_reverse, List.reverse_reverse, List.map_map]
      refine (List.map_congr_left fun d hd => ?_).trans (List.map_id _)
      show (UInt8.ofNat (48 + d)).toNat - 48 = d
      rw [toNat_digit (Nat.digits_lt_base (by decide) hd)]
      omega
    rw [hdigits, Nat.ofDigits_digits]

/-- `Atoi` on text that starts with a digit. -/
theorem atoi_of_digit {b : UInt8} {t : Bytes} (hb : isDigit b = true) :
    atoi (b :: t) =
      (digitsVal (b :: t)).bind fun v => if v < 2 ^ 63 then some (Int64.ofInt v) else none := by
  unfold atoi
  split
  · rename_i heq
    injection heq with heq
    rw [heq] at hb
    exact absurd hb (by decide)
  · rename_i heq
    injection heq with heq
    rw [heq] at hb
    exact absurd hb (by decide)
  · rfl

theorem atoi_decimal {n : Nat} (hn : n < 2 ^ 63) : atoi (decimal n) = some (Int64.ofInt n) := by
  cases hdec : decimal n with
  | nil => exact absurd hdec (decimal_ne_nil n)
  | cons b t =>
    rw [atoi_of_digit (isDigit_of_mem_decimal (n := n) (by simp [hdec])), ← hdec,
      digitsVal_decimal]
    exact if_pos hn

/-- `Atoi` undoes `Itoa`. -/
theorem atoi_itoa (n : Int64) : atoi (itoa n.toInt) = some n := by
  have hlo := n.le_toInt
  have hhi := n.toInt_lt
  by_cases hneg : n.toInt < 0
  · have habs : -(n.toInt.natAbs : Int) = n.toInt := by omega
    rw [itoa, if_pos hneg]
    show (digitsVal (decimal n.toInt.natAbs)).bind _ = _
    rw [digitsVal_decimal]
    show (if n.toInt.natAbs ≤ 2 ^ 63 then some (Int64.ofInt (-(n.toInt.natAbs : Int))) else none) = _
    rw [if_pos (by omega), habs, Int64.ofInt_toInt]
  · have habs : (n.toInt.natAbs : Int) = n.toInt := by omega
    rw [itoa, if_neg hneg, atoi_decimal (by omega), habs, Int64.ofInt_toInt]

/-- Any byte but a digit and the minus sign is missing from what `Itoa` writes. -/
theorem not_mem_itoa {b : UInt8} (hdigit : isDigit b = false) (hminus : b ≠ 45) (n : Int) :
    b ∉ itoa n := by
  have hdec : b ∉ decimal n.natAbs := by
    intro hb
    rw [isDigit_of_mem_decimal hb] at hdigit
    cases hdigit
  rw [itoa]
  split
  · simp [hminus, hdec]
  · exact hdec

end Go
