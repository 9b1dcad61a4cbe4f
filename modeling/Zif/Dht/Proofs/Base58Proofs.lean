import Zif.Dht.Base58
import Zif.Lib.Proofs.BigEndianProofs

/-!
# Proofs: `base58check`

Decoding undoes encoding, for every payload. The text form of a 20-byte payload starts with `Z`, so
SQLite never takes it for a number.
-/

namespace Zif.Base58

open Go

/-! ## Digits -/

/-- Each digit is decoded to its own value. -/
theorem decodeMap_alphabet {d : Nat} (hd : d < 58) : decodeMap (alphabet.getD d 0) = some d := by
  have h : ∀ d : Fin 58, decodeMap (alphabet.getD d 0) = some d.val := by decide +kernel
  exact h ⟨d, hd⟩

/-- Only the digit 0 is written as `1`. -/
theorem alphabet_ne_one {d : Nat} (hd : d < 58) (h0 : d ≠ 0) : alphabet.getD d 0 ≠ 49 := by
  have h : ∀ d : Fin 58, d.val ≠ 0 → alphabet.getD d 0 ≠ 49 := by decide +kernel
  exact h ⟨d, hd⟩ h0

/-- The loop of `DecodeToBig` on a string of digits, most significant first. -/
theorem decodeToBigFrom_map {ds : List Nat} (hds : ∀ d ∈ ds, d < 58) (i n : Nat) :
    decodeToBigFrom i n (ds.map fun d => alphabet.getD d 0) =
      .ok (n * 58 ^ ds.length + Nat.ofDigits 58 ds.reverse) := by
  induction ds generalizing i n with
  | nil => simp [decodeToBigFrom]
  | cons d ds ih =>
    have hd : d < 58 := hds d (by simp)
    rw [List.map_cons, decodeToBigFrom, decodeMap_alphabet hd]
    simp only
    rw [ih (fun x hx => hds x (by simp [hx])), List.reverse_cons, Nat.ofDigits_append,
      Nat.ofDigits_singleton, List.length_reverse, List.length_cons]
    congr 1
    ring

theorem decodeToBig_encodeBig (n : Nat) : decodeToBig (encodeBig n) = .ok n := by
  have hlt : ∀ d ∈ (Nat.digits 58 n).reverse, d < 58 := fun d hd =>
    Nat.digits_lt_base (by norm_num) (List.mem_reverse.mp hd)
  rw [decodeToBig, encodeBig, decodeToBigFrom_map hlt, List.reverse_reverse, Nat.ofDigits_digits]
  simp

/-- The base 58 form of a positive number does not start with `1`. -/
theorem takeWhile_encodeBig {n : Nat} (hn : n ≠ 0) : (encodeBig n).takeWhile (· = 49) = [] := by
  have hne : Nat.digits 58 n ≠ [] := Nat.digits_ne_nil_iff_ne_zero.mpr hn
  have hlast := Nat.getLast_digit_ne_zero 58 hn
  have hlt := Nat.digits_lt_base (b := 58) (by norm_num) (List.getLast_mem hne)
  have hrev : (Nat.digits 58 n).reverse =
      (Nat.digits 58 n).getLast hne :: (Nat.digits 58 n).dropLast.reverse := by
    conv_lhs => rw [← List.dropLast_append_getLast hne]
    simp
  have hchar := alphabet_ne_one hlt hlast
  rw [encodeBig, hrev, List.map_cons, List.takeWhile_cons_of_neg (by simpa using hchar)]

/-! ## The loops of `EncodeBig` -/

theorem appendDigits_eq (dst : Bytes) (n : Nat) :
    appendDigits dst n = dst ++ (Nat.digits 58 n).map fun d => alphabet.getD d 0 := by
  induction n using Nat.strong_induction_on generalizing dst with
  | _ n ih =>
    rw [appendDigits]
    by_cases hn : n > 0
    · rw [if_pos hn, ih (n / 58) (Nat.div_lt_self hn (by norm_num)),
        Nat.digits_def' (by norm_num) hn, List.map_cons, List.append_assoc]
      rfl
    · obtain rfl : n = 0 := by omega
      simp

/-- One exchange of the second loop. -/
theorem swap_ends (a m b : Bytes) (x y : UInt8) :
    (((a ++ (x :: (m ++ [y])) ++ b).set a.length y).set (a.length + m.length + 1) x) =
      (a ++ [y]) ++ m ++ ([x] ++ b) := by
  have hy : a.length + m.length + 1 = (a ++ [y] ++ m).length := by
    simp
    omega
  have h1 : (a ++ (x :: (m ++ [y])) ++ b).set a.length y = (a ++ [y] ++ m) ++ y :: b := by simp
  rw [h1, hy, List.set_append_right _ _ (Nat.le_refl _)]
  simp

/-- The second loop turns round what lies between its indices. -/
theorem swapFrom_eq (a m b : Bytes) :
    swapFrom (a ++ m ++ b) a.length (a.length + m.length - 1) = a ++ m.reverse ++ b := by
  -- each exchange takes one element off both ends of the middle
  induction m using List.bidirectionalRec generalizing a b with
  | nil =>
    rw [swapFrom, if_neg (by simp)]
    rfl
  | singleton x =>
    rw [swapFrom, if_neg (by simp)]
    rfl
  | cons_append x m y ih =>
    have hj : a.length + (x :: (m ++ [y])).length - 1 = a.length + m.length + 1 := by
      simp
      omega
    have hx : (a ++ (x :: (m ++ [y])) ++ b).getD a.length 0 = x := by simp
    have hy : (a ++ (x :: (m ++ [y])) ++ b).getD (a.length + m.length + 1) 0 = y := by
      have : a ++ (x :: (m ++ [y])) ++ b = (a ++ x :: m) ++ (y :: b) := by simp
      rw [this, List.getD_append_right _ _ _ _ (by simp; omega)]
      have h0 : a.length + m.length + 1 - (a ++ x :: m).length = 0 := by simp
      rw [h0]
      rfl
    rw [hj, swapFrom, if_pos (by omega), hx, hy, swap_ends]
    have hnext := ih (a ++ [y]) ([x] ++ b)
    have hlen : (a ++ [y]).length = a.length + 1 := by simp
    rw [hlen, show a.length + 1 + m.length - 1 = a.length + m.length + 1 - 1 by omega] at hnext
    rw [hnext]
    simp

/-- `EncodeBig` appends the digits, the most significant one first. -/
theorem encodeBigOnto_eq (dst : Bytes) (n : Nat) : encodeBigOnto dst n = dst ++ encodeBig n := by
  have h := swapFrom_eq dst ((Nat.digits 58 n).map fun d => alphabet.getD d 0) []
  rw [List.append_nil, List.append_nil, ← List.length_append, ← appendDigits_eq] at h
  rw [encodeBigOnto, h, encodeBig, List.map_reverse]

/-! ## The round trip -/

theorem withChecksum_length (P : Prims) (pre : UInt8) (data : Bytes) :
    (withChecksum P pre data).length = data.length + 5 := by
  simp [withChecksum, P.sha256_length]

theorem decode_encode (P : Prims) {pre : UInt8} (hpre : pre ≠ 0) (data : Bytes) :
    decode (encode P pre data) = .ok data := by
  have hcons : withChecksum P pre data =
      pre :: (data ++ (P.sha256 (P.sha256 (pre :: data))).take 4) := rfl
  have hbytes : BigEndian.bytes (BigEndian.value (withChecksum P pre data)) =
      withChecksum P pre data := by
    rw [hcons]
    exact BigEndian.bytes_value hpre
  have hpos : BigEndian.value (withChecksum P pre data) ≠ 0 := by
    intro h0
    rw [h0] at hbytes
    rw [hcons] at hbytes
    simp [BigEndian.bytes] at hbytes
  have henc : encode P pre data = encodeBig (BigEndian.value (withChecksum P pre data)) := by
    simp [encode, hcons, hpre]
  rw [henc, decode, decodeToBig_encodeBig, takeWhile_encodeBig hpos]
  show (if (BigEndian.bytes (BigEndian.value (withChecksum P pre data))).length < 4 then _
    else _) = _
  have htake : (withChecksum P pre data).take (data.length + 1) = pre :: data := by
    rw [withChecksum]
    exact List.take_left' (by simp)
  rw [hbytes, withChecksum_length, if_neg (by omega), Nat.add_sub_assoc (by omega), htake]
  rfl

/-! ## What is accepted -/

/-- The string has a byte that is no base 58 digit. -/
def Illegal (s : Bytes) : Prop := ∃ b ∈ s, decodeMap b = none

instance : DecidablePred Illegal := fun s =>
  inferInstanceAs (Decidable (∃ b ∈ s, decodeMap b = none))

theorem decodeToBigFrom_illegal {s : Bytes} (h : Illegal s) (i n : Nat) :
    ∃ k, decodeToBigFrom i n s =
      .error (.error ("illegal base58 data at input byte " ++ toString (i + k))) := by
  induction s generalizing i n with
  | nil =>
    obtain ⟨b, hb, _⟩ := h
    cases hb
  | cons c s ih =>
    rw [decodeToBigFrom]
    cases hc : decodeMap c with
    | none => exact ⟨0, rfl⟩
    | some d =>
      have hs : Illegal s := by
        obtain ⟨b, hb, hnone⟩ := h
        rcases List.mem_cons.mp hb with rfl | hb
        · rw [hnone] at hc
          cases hc
        · exact ⟨b, hb, hnone⟩
      obtain ⟨k, hk⟩ := ih hs (i + 1) (n * 58 + d)
      refine ⟨k + 1, ?_⟩
      simp only [hk]
      rw [Nat.add_assoc, Nat.add_comm 1 k]

theorem decodeToBigFrom_legal {s : Bytes} (h : ¬Illegal s) (i n : Nat) :
    ∃ m, decodeToBigFrom i n s = .ok m := by
  induction s generalizing i n with
  | nil => exact ⟨n, rfl⟩
  | cons c s ih =>
    rw [decodeToBigFrom]
    cases hc : decodeMap c with
    | none => exact absurd ⟨c, List.mem_cons_self, hc⟩ h
    | some d =>
      exact ih (fun ⟨b, hb, hnone⟩ => h ⟨b, List.mem_cons_of_mem _ hb, hnone⟩) _ _

/-- A byte outside the alphabet is reported, whatever else the string contains. -/
theorem decode_illegal {s : Bytes} (h : Illegal s) :
    ∃ k, decode s =
      .error (.error ("illegal base58 data at input byte " ++ toString (k : Nat))) := by
  obtain ⟨k, hk⟩ := decodeToBigFrom_illegal h 0 0
  refine ⟨0 + k, ?_⟩
  rw [decode, decodeToBig, hk]
  rfl

/-- No other string is reported: it is decoded, or the daemon stops. -/
theorem decode_legal {s : Bytes} (h : ¬Illegal s) :
    decode s = .error .panic ∨ ∃ data, decode s = .ok data := by
  obtain ⟨n, hn⟩ := decodeToBigFrom_legal h 0 0
  rw [decode, decodeToBig, hn]
  simp only [bind, Except.bind]
  split
  · exact .inl rfl
  · cases List.replicate (s.takeWhile (· = 49)).length 0 ++
        (BigEndian.bytes n).take ((BigEndian.bytes n).length - 4) with
    | nil => exact .inl rfl
    | cons _ data => exact .inr ⟨data, rfl⟩

/-! ## The leading character -/

/-- With the version byte `0x51`, a 20-byte payload has the base 58 digit 32 in front. -/
theorem leading_digit {v : Nat} (hlo : 0x51 * 256 ^ 24 ≤ v) (hhi : v < 0x52 * 256 ^ 24) :
    32 ∈ Nat.digits 58 v := by
  have hdiv : v / 58 ^ 33 = 32 := by
    rw [Nat.div_eq_iff (by norm_num)]
    constructor <;> norm_num at * <;> omega
  have hget : (Nat.digits 58 v).getD 33 0 = 32 := by
    rw [Nat.getD_digits v 33 (by norm_num), hdiv]
  by_cases hlen : 33 < (Nat.digits 58 v).length
  · rw [List.getD_eq_getElem _ _ hlen] at hget
    rw [← hget]
    exact List.getElem_mem hlen
  · rw [List.getD_eq_default _ _ (by omega)] at hget
    exact absurd hget (by norm_num)

/-- The text form of a 20-byte payload contains the letter `Z`. -/
theorem mem_encode (P : Prims) {data : Bytes} (hlen : data.length = 20) :
    90 ∈ encode P 0x51 data := by
  have hcons : withChecksum P 0x51 data =
      0x51 :: (data ++ (P.sha256 (P.sha256 (0x51 :: data))).take 4) := rfl
  have htail : (data ++ (P.sha256 (P.sha256 (0x51 :: data))).take 4).length = 24 := by
    simp [P.sha256_length, hlen]
  have hval := BigEndian.value_cons 0x51 (data ++ (P.sha256 (P.sha256 (0x51 :: data))).take 4)
  have hlt := BigEndian.value_lt (data ++ (P.sha256 (P.sha256 (0x51 :: data))).take 4)
  rw [htail] at hval hlt
  have h51 : (0x51 : UInt8).toNat = 0x51 := rfl
  rw [h51, ← hcons] at hval
  have hmem := leading_digit (v := BigEndian.value (withChecksum P 0x51 data)) (by omega) (by omega)
  have hZ : alphabet.getD 32 0 = 90 := by decide +kernel
  rw [encode, ← hZ]
  exact List.mem_append_right _ (List.mem_map_of_mem (List.mem_reverse.mpr hmem))

end Zif.Base58
