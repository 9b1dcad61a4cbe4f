import Zif.Lib.Proofs.BigEndianProofs
import Zif.Lib.Proofs.DecodingProofs
import Zif.Msgpack.Decode

/-!
# Proofs: MessagePack, numbers and lengths

Every number is read back, and every length below 2^32.
-/

namespace Msgpack

open Go Decoding

/-! ## Bytes of a number -/

@[simp] theorem length_bigEndian (k n : Nat) : (bigEndian k n).length = k := by
  induction k with
  | zero => rfl
  | succ k ih => rw [bigEndian, List.length_cons, ih]

theorem value_bigEndian (k n : Nat) : BigEndian.value (bigEndian k n) = n % 256 ^ k := by
  induction k with
  | zero => simp [bigEndian, Nat.mod_one]
  | succ k ih =>
    rw [bigEndian, BigEndian.value_cons, length_bigEndian, ih, UInt8.toNat_ofNat',
      Nat.mod_pow_succ (b := 256), Nat.add_comm, Nat.mul_comm]

/-- A number that is cut to its lowest `k` bytes. -/
theorem decodes_bigEndian_mod (k n : Nat) :
    Decodes (decodeBigEndian k) (bigEndian k n) (n % 256 ^ k) := by
  have hread := decodes_readN (bigEndian k n)
  rw [length_bigEndian] at hread
  have hvalue := hread.bind_pure (g := BigEndian.value)
  rw [value_bigEndian] at hvalue
  exact hvalue

/-- A code that is followed by a number of `k` bytes. -/
theorem decodes_write {α : Type} {k n : Nat} {c : UInt8} {f : UInt8 → Decoder α} {g : Nat → α}
    (hf : f c = decodeBigEndian k >>= fun n => pure (g n)) :
    Decodes (readByte >>= f) (write k c n) (g (n % 256 ^ k)) := by
  apply Decodes.code
  rw [hf]
  exact (decodes_bigEndian_mod k n).bind_pure

/-! ## Integers -/

/-- A single byte that is a small number. -/
theorem decodes_fixedNum {α : Type} {c : UInt8} {f : UInt8 → Decoder α} {a : α} (hf : f c = pure a) :
    Decodes (readByte >>= f) [c] a := by
  apply Decodes.code
  rw [hf]
  exact .pure a

theorem isFixedNum_ne_null {c : UInt8} (h : isFixedNum c = true) : c ≠ Code.null := by
  rintro rfl
  revert h
  decide

theorem uint_fixedNum {c : UInt8} (h : isFixedNum c = true) :
    uint c = pure c.toInt8.toInt64.toUInt64 := by
  unfold uint
  rw [if_neg (isFixedNum_ne_null h), if_pos h]

theorem int_fixedNum {c : UInt8} (h : isFixedNum c = true) : int c = pure c.toInt8.toInt64 := by
  unfold int
  rw [if_neg (isFixedNum_ne_null h), if_pos h]

theorem toInt_eq_bmod (v : Int64) : v.toInt = (v.toUInt64.toNat : Int).bmod (2 ^ 64) :=
  BitVec.toInt_eq_toNat_bmod v.toBitVec

/-- The byte of a number from -32 to 127 is the number, and is read with its sign. -/
theorem fixedNum_toUInt8 {v : Int64} (hlow : -32 ≤ v.toInt) (hhigh : v.toInt ≤ 127) :
    isFixedNum v.toUInt64.toUInt8 = true ∧ v.toUInt64.toUInt8.toInt8.toInt64 = v := by
  have hv := toInt_eq_bmod v
  have hlt := v.toUInt64.toNat_lt
  rw [Int.bmod_def] at hv
  constructor
  · simp only [isFixedNum, Bool.or_eq_true, decide_eq_true_eq, UInt8.le_iff_toNat_le,
      UInt64.toNat_toUInt8, ge_iff_le]
    have h127 : Code.posFixedNumHigh.toNat = 127 := rfl
    have h224 : Code.negFixedNumLow.toNat = 224 := rfl
    omega
  · have hbyte : v.toUInt64.toUInt8.toInt8.toInt = (v.toUInt64.toNat : Int).bmod (2 ^ 8) := by
      rw [UInt64.toUInt8, UInt8.toInt8_ofNat', Int8.toInt_ofNat']
      rfl
    rw [← Int64.toInt_inj, Int8.toInt_toInt64, hbyte, Int.bmod_def]
    omega

theorem fixedNum_of_le {v : UInt64} (h : v ≤ 127) :
    isFixedNum v.toUInt8 = true ∧ v.toUInt8.toInt8.toInt64.toUInt64 = v := by
  have hle : v.toNat ≤ 127 := h
  have hint : v.toInt64.toInt = v.toNat := by
    rw [toInt_eq_bmod, UInt64.toUInt64_toInt64, Int.bmod_def]
    omega
  obtain ⟨hcode, hvalue⟩ := fixedNum_toUInt8 (v := v.toInt64) (by omega) (by omega)
  rw [UInt64.toUInt64_toInt64] at hcode hvalue
  exact ⟨hcode, by rw [hvalue, UInt64.toUInt64_toInt64]⟩

/-- A number without a sign, for a decoder that reads all codes as numbers. -/
theorem decodes_unsigned {α : Type} {f : UInt8 → Decoder α} {g : UInt64 → α}
    (hfixed : ∀ c, isFixedNum c = true → f c = pure (g c.toInt8.toInt64.toUInt64))
    (h8 : f Code.uint8 = decodeBigEndian 1 >>= fun n => pure (g (.ofNat n)))
    (h16 : f Code.uint16 = decodeBigEndian 2 >>= fun n => pure (g (.ofNat n)))
    (h32 : f Code.uint32 = decodeBigEndian 4 >>= fun n => pure (g (.ofNat n)))
    (h64 : f Code.uint64 = decodeBigEndian 8 >>= fun n => pure (g (.ofNat n))) (v : UInt64) :
    Decodes (readByte >>= f) (encodeUint64 v) (g v) := by
  have hmod : ∀ k, v.toNat < 256 ^ k → UInt64.ofNat (v.toNat % 256 ^ k) = v := by
    intro k hk
    rw [Nat.mod_eq_of_lt hk, UInt64.ofNat_toNat]
  rw [encodeUint64]
  split_ifs with hv8 hv16 hv32 hv64
  · obtain ⟨hcode, hvalue⟩ := fixedNum_of_le hv8
    have h := decodes_fixedNum (hfixed _ hcode)
    rwa [hvalue] at h
  · have h := decodes_write (n := v.toNat) h8
    rwa [hmod 1 (Nat.lt_succ_of_le hv16)] at h
  · have h := decodes_write (n := v.toNat) h16
    rwa [hmod 2 (Nat.lt_succ_of_le hv32)] at h
  · have h := decodes_write (n := v.toNat) h32
    rwa [hmod 4 (Nat.lt_succ_of_le hv64)] at h
  · have h := decodes_write (n := v.toNat) h64
    rwa [hmod 8 v.toNat_lt] at h

theorem decodes_encodeUint64 (v : UInt64) : Decodes decodeUint64 (encodeUint64 v) v :=
  decodes_unsigned (g := id) (fun _ => uint_fixedNum) rfl rfl rfl rfl v

/-- A negative number that fits into `k` bytes with its sign. -/
theorem bmod_of_negative {v : Int64} {k : Nat} (hk : k ∈ [1, 2, 4]) (hneg : v.toInt < 0)
    (hlow : -(2 ^ (8 * k - 1)) ≤ v.toInt) :
    ((v.toUInt64.toNat % 256 ^ k : Nat) : Int).bmod (2 ^ (8 * k)) = v.toInt := by
  have hv := toInt_eq_bmod v
  have hlt := v.toUInt64.toNat_lt
  rw [Int.bmod_def] at hv ⊢
  fin_cases hk <;> norm_num at hlow ⊢ <;> omega

theorem toInt_neg_of_not {v : Int64} (h : ¬ v ≥ 0) : v.toInt < 0 :=
  not_le.mp fun hle => h (Int64.le_iff_toInt_le.mpr hle)

theorem decodes_encodeInt64 (v : Int64) : Decodes decodeInt64 (encodeInt64 v) v := by
  rw [encodeInt64]
  split_ifs with h0 h32 h8 h16 h64
  · have h := decodes_unsigned (g := UInt64.toInt64)
      (fun c hc => (int_fixedNum hc).trans (by rw [Int64.toInt64_toUInt64])) rfl rfl rfl rfl v.toUInt64
    rwa [Int64.toInt64_toUInt64] at h
  all_goals have hneg := toInt_neg_of_not h0
  · obtain ⟨hcode, hvalue⟩ := fixedNum_toUInt8 (Int64.le_iff_toInt_le.mp h32) (by omega)
    have h := decodes_fixedNum (int_fixedNum hcode)
    rwa [hvalue] at h
  · have hvalue : (UInt8.ofNat (v.toUInt64.toNat % 256 ^ 1)).toInt8.toInt64 = v := by
      rw [← Int64.toInt_inj, Int8.toInt_toInt64, UInt8.toInt8_ofNat', Int8.toInt_ofNat']
      exact bmod_of_negative (k := 1) (by simp) hneg (Int64.le_iff_toInt_le.mp h8)
    have h := decodes_write (n := v.toUInt64.toNat) (f := int) (c := Code.int8) rfl
    rwa [hvalue] at h
  · have hvalue : (UInt16.ofNat (v.toUInt64.toNat % 256 ^ 2)).toInt16.toInt64 = v := by
      rw [← Int64.toInt_inj, Int16.toInt_toInt64, UInt16.toInt16_ofNat', Int16.toInt_ofNat']
      exact bmod_of_negative (k := 2) (by simp) hneg (Int64.le_iff_toInt_le.mp h16)
    have h := decodes_write (n := v.toUInt64.toNat) (f := int) (c := Code.int16) rfl
    rwa [hvalue] at h
  · have hvalue : (UInt32.ofNat (v.toUInt64.toNat % 256 ^ 4)).toInt32.toInt64 = v := by
      rw [← Int64.toInt_inj, Int32.toInt_toInt64, UInt32.toInt32_ofNat', Int32.toInt_ofNat']
      exact bmod_of_negative (k := 4) (by simp) hneg (Int64.le_iff_toInt_le.mp h64)
    have h := decodes_write (n := v.toUInt64.toNat) (f := int) (c := Code.int32) rfl
    rwa [hvalue] at h
  · have hvalue : (UInt64.ofNat (v.toUInt64.toNat % 256 ^ 8)).toInt64 = v := by
      rw [Nat.mod_eq_of_lt (b := 256 ^ 8) v.toUInt64.toNat_lt, UInt64.ofNat_toNat, Int64.toInt64_toUInt64]
    have h := decodes_write (n := v.toUInt64.toNat) (f := int) (c := Code.int64) rfl
    rwa [hvalue] at h

/-! ## Lengths -/

/-- A length that is part of the code. -/
theorem decodes_fixedLen {f : UInt8 → Decoder (Option Nat)} {low : UInt8} {l : Nat}
    (hf : f (low ||| UInt8.ofNat l) = pure (some l)) :
    Decodes (readByte >>= f) [low ||| UInt8.ofNat l] (some l) :=
  decodes_fixedNum hf

/-- A length of `k` bytes. -/
theorem decodes_writeLen {f : UInt8 → Decoder (Option Nat)} {k l : Nat} {code : UInt8}
    (hf : f code = decodeBigEndian k >>= fun n => pure (some n)) (hl : l < 256 ^ k) :
    Decodes (readByte >>= f) (write k code l) (some l) := by
  have h := decodes_write (n := l) hf
  rwa [Nat.mod_eq_of_lt hl] at h

theorem bytesLen_fixedString : ∀ l < 32, bytesLen (Code.fixedStrLow ||| UInt8.ofNat l) = pure (some l) := by
  intro l hl
  interval_cases l <;> rfl

theorem arrayLen_fixedArray : ∀ l < 16, arrayLen (Code.fixedArrayLow ||| UInt8.ofNat l) = pure (some l) := by
  intro l hl
  interval_cases l <;> rfl

theorem mapLen_fixedMap : ∀ l < 16, mapLen (Code.fixedMapLow ||| UInt8.ofNat l) = pure (some l) := by
  intro l hl
  interval_cases l <;> rfl

theorem decodes_encodeStrLen {l : Nat} (h : l < 2 ^ 32) :
    Decodes (readByte >>= bytesLen) (encodeStrLen l) (some l) := by
  rw [encodeStrLen]
  split_ifs with h5 h8 h16
  · exact decodes_fixedLen (bytesLen_fixedString l h5)
  · exact decodes_writeLen rfl h8
  · exact decodes_writeLen rfl h16
  · exact decodes_writeLen rfl h

theorem decodes_encodeBytesLen {l : Nat} (h : l < 2 ^ 32) :
    Decodes (readByte >>= bytesLen) (encodeBytesLen l) (some l) := by
  rw [encodeBytesLen]
  split_ifs with h8 h16
  · exact decodes_writeLen rfl h8
  · exact decodes_writeLen rfl h16
  · exact decodes_writeLen rfl h

theorem decodes_encodeArrayLen {l : Nat} (h : l < 2 ^ 32) :
    Decodes (readByte >>= arrayLen) (encodeArrayLen l) (some l) := by
  rw [encodeArrayLen]
  split_ifs with h4 h16
  · exact decodes_fixedLen (arrayLen_fixedArray l h4)
  · exact decodes_writeLen rfl h16
  · exact decodes_writeLen rfl h

theorem decodes_encodeMapLen {l : Nat} (h : l < 2 ^ 32) :
    Decodes (readByte >>= mapLen) (encodeMapLen l) (some l) := by
  rw [encodeMapLen]
  split_ifs with h4 h16
  · exact decodes_fixedLen (mapLen_fixedMap l h4)
  · exact decodes_writeLen rfl h16
  · exact decodes_writeLen rfl h

end Msgpack
