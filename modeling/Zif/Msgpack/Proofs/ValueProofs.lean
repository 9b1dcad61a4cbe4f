import Zif.Msgpack.Proofs.StructProofs
import Zif.Msgpack.Value

/-!
# Proofs: MessagePack, values of any type

`DecodeInterface` comes to what `load` says for every value that is shorter than 2^32 bytes and has no more levels
than it may go down (`comes_value`). Only for nil it gives nil, and without an extension inside the value there is no
error.
-/

namespace Msgpack

open Go Decoding

variable {next : Decoder AnyValue}

/-! ## Values without others inside -/

theorem decodes_hashable {α : Type} {d : Decoder α} {bs : Bytes} {a : α} (h : Decodes d bs a) :
    Decodes (hashable d) bs .hashable :=
  h.map.bind_pure

theorem interfaceAt_fixedNum {c : UInt8} (h : isFixedNum c = true) : interfaceAt next c = pure .hashable := by
  unfold interfaceAt
  rw [if_pos h]

theorem decodes_interface_uint (v : UInt64) :
    Decodes (readByte >>= interfaceAt next) (encodeUint64 v) .hashable := by
  have h := decodes_encodeUint64 v
  rw [encodeUint64] at h ⊢
  split_ifs at h ⊢ with hv
  · exact decodes_fixedNum (interfaceAt_fixedNum (fixedNum_of_le hv).1)
  · exact Decodes.code (decodes_hashable h.tail)
  · exact Decodes.code (decodes_hashable h.tail)
  · exact Decodes.code (decodes_hashable h.tail)
  · exact Decodes.code (decodes_hashable h.tail)

theorem decodes_interface_int (v : Int64) :
    Decodes (readByte >>= interfaceAt next) (encodeInt64 v) .hashable := by
  have h := decodes_encodeInt64 v
  rw [encodeInt64] at h ⊢
  split_ifs at h ⊢ with h0 hv
  · exact decodes_interface_uint _
  · have hneg := toInt_neg_of_not h0
    have hcode := (fixedNum_toUInt8 (Int64.le_iff_toInt_le.mp hv) (by omega)).1
    exact decodes_fixedNum (interfaceAt_fixedNum hcode)
  · exact Decodes.code (decodes_hashable h.tail)
  · exact Decodes.code (decodes_hashable h.tail)
  · exact Decodes.code (decodes_hashable h.tail)
  · exact Decodes.code (decodes_hashable h.tail)

theorem decodes_interface_nil : Decodes (readByte >>= interfaceAt next) encodeNil .nil :=
  Decodes.code (.pure _)

theorem decodes_interface_bool (v : Bool) :
    Decodes (readByte >>= interfaceAt next) (encodeBool v) .hashable := by
  cases v <;> exact Decodes.code (.pure _)

theorem decodes_interface_float (bits : Nat) :
    Decodes (readByte >>= interfaceAt next) (write 4 Code.float bits) .hashable :=
  Decodes.code (decodes_hashable (decodes_bigEndian_mod 4 bits))

theorem decodes_interface_double (bits : Nat) :
    Decodes (readByte >>= interfaceAt next) (write 8 Code.double bits) .hashable :=
  Decodes.code (decodes_hashable (decodes_bigEndian_mod 8 bits))

theorem interfaceAt_fixedString : ∀ l < 32, interfaceAt next (Code.fixedStrLow ||| UInt8.ofNat l) =
    hashable (string (Code.fixedStrLow ||| UInt8.ofNat l)) := by
  intro l hl
  interval_cases l <;> rfl

theorem decodes_interface_str {v : Bytes} (hv : v.length < 2 ^ 32) :
    Decodes (readByte >>= interfaceAt next) (encodeString v) .hashable := by
  have h := decodes_encodeString hv
  rw [encodeString, encodeStrLen] at h ⊢
  split_ifs at h ⊢ with h5
  · refine Decodes.code ?_
    rw [interfaceAt_fixedString _ h5]
    exact decodes_hashable h.tail
  · exact Decodes.code (decodes_hashable h.tail)
  · exact Decodes.code (decodes_hashable h.tail)
  · exact Decodes.code (decodes_hashable h.tail)

theorem decodes_interface_bin {v : Bytes} (hv : v.length < 2 ^ 32) :
    Decodes (readByte >>= interfaceAt next) (encodeBytes (some v)) .unhashable := by
  have h : Decodes decodeBytes (encodeBytes (some v)) (some v) :=
    decodes_encodeBytes fun b hb => Option.some.inj hb ▸ hv
  rw [encodeBytes, encodeBytesLen] at h ⊢
  split_ifs at h ⊢
  · exact Decodes.code h.tail.map.bind_pure
  · exact Decodes.code h.tail.map.bind_pure
  · exact Decodes.code h.tail.map.bind_pure

/-! ## Arrays and maps -/

theorem interfaceAt_fixedArray : ∀ l < 16, interfaceAt next (Code.fixedArrayLow ||| UInt8.ofNat l) =
    decodeSlice next (Code.fixedArrayLow ||| UInt8.ofNat l) := by
  intro l hl
  interval_cases l <;> rfl

theorem interfaceAt_fixedMap : ∀ l < 16, interfaceAt next (Code.fixedMapLow ||| UInt8.ofNat l) =
    decodeMap next (Code.fixedMapLow ||| UInt8.ofNat l) := by
  intro l hl
  interval_cases l <;> rfl

theorem comes_interface_array {l : Nat} {bs : Bytes} {r : Result Unit} (hl : l < 2 ^ 32)
    (h : Comes (times l (discard next)) bs r) :
    Comes (readByte >>= interfaceAt next) (encodeArrayLen l ++ bs) (r >>= fun _ => .ok .unhashable) := by
  have hlen := decodes_encodeArrayLen hl
  have hslice : Comes (readByte >>= decodeSlice next) (encodeArrayLen l ++ bs)
      (r >>= fun _ => .ok .unhashable) := by
    unfold decodeSlice
    exact hlen.bind_comes h.bind_pure
  rw [encodeArrayLen] at hslice ⊢
  split_ifs at hslice ⊢ with h4
  · change Comes (interfaceAt next _) bs _
    rw [interfaceAt_fixedArray l h4]
    exact hslice
  · exact hslice
  · exact hslice

theorem comes_interface_map {l : Nat} {bs : Bytes} {r : Result Unit} (hl : l < 2 ^ 32)
    (h : Comes (times l (do
      let mk ← next
      let _ ← next
      assignKey mk)) bs r) :
    Comes (readByte >>= interfaceAt next) (encodeMapLen l ++ bs) (r >>= fun _ => .ok .unhashable) := by
  have hlen := decodes_encodeMapLen hl
  have hmap : Comes (readByte >>= decodeMap next) (encodeMapLen l ++ bs) (r >>= fun _ => .ok .unhashable) := by
    unfold decodeMap
    exact hlen.bind_comes h.bind_pure
  rw [encodeMapLen] at hmap ⊢
  split_ifs at hmap ⊢ with h4
  · change Comes (interfaceAt next _) bs _
    rw [interfaceAt_fixedMap l h4]
    exact hmap
  · exact hmap
  · exact hmap

theorem comes_assignKey (mk : AnyValue) :
    Comes (assignKey mk) [] (if mk = .unhashable then .error .panic else .ok ()) := by
  cases mk with
  | nil => exact (Decodes.pure ()).comes
  | hashable => exact (Decodes.pure ()).comes
  | unhashable => exact fun rest => ⟨rest, rfl, fun _ h => by cases h⟩

/-! ## Extensions -/

/-- Some length is read; nothing depends on which. -/
theorem decodes_encodeExtLen (l : Nat) : ∃ n, Decodes (readByte >>= extLen) (encodeExtLen l) n := by
  unfold encodeExtLen
  split_ifs
  · exact ⟨1, Decodes.code (.pure 1)⟩
  · exact ⟨2, Decodes.code (.pure 2)⟩
  · exact ⟨4, Decodes.code (.pure 4)⟩
  · exact ⟨8, Decodes.code (.pure 8)⟩
  · exact ⟨16, Decodes.code (.pure 16)⟩
  · exact ⟨_, Decodes.code (decodes_bigEndian_mod 1 l)⟩
  · exact ⟨_, Decodes.code (decodes_bigEndian_mod 2 l)⟩
  · exact ⟨_, Decodes.code (decodes_bigEndian_mod 4 l)⟩

/-- The length and the number of the type are read, and what follows is left. -/
theorem comes_interface_ext (extId : UInt8) (data : Bytes) :
    Comes (readByte >>= interfaceAt next) (encodeExtLen data.length ++ extId :: data)
      (.error (unregistered extId)) := by
  have hext : Comes (readByte >>= ext) (encodeExtLen data.length ++ extId :: data)
      (.error (unregistered extId)) := by
    obtain ⟨n, hlen⟩ := decodes_encodeExtLen data.length
    unfold ext
    exact hlen.bind_comes fun rest => ⟨data ++ rest, rfl, fun _ h => by cases h⟩
  rw [encodeExtLen] at hext ⊢
  split_ifs at hext ⊢ <;> exact hext

namespace Value

theorem length_encode_pos (v : Value) : 0 < v.encode.length := by
  cases v with
  | nil => exact Nat.one_pos
  | bool v => cases v <;> exact Nat.one_pos
  | int v => exact Coder.length_encodeInt64_pos v
  | uint v => exact Coder.length_encodeUint64_pos v
  | float bits => exact Nat.succ_pos _
  | double bits => exact Nat.succ_pos _
  | str v => exact Coder.faithful_string.pos v
  | bin v => exact Coder.faithful_bytes.pos (some v)
  | array elems =>
    rw [encode, List.length_append]
    exact Nat.add_pos_left (Coder.length_encodeArrayLen_pos _) _
  | map pairs =>
    rw [encode, List.length_append]
    exact Nat.add_pos_left (Coder.length_encodeMapLen_pos _) _
  | ext extId data =>
    rw [encode, List.length_append, List.length_cons]
    omega

theorem length_le_encodeElems (vs : List Value) : vs.length ≤ (encodeElems vs).length := by
  induction vs with
  | nil => exact Nat.le_refl 0
  | cons v vs ih =>
    have hpos := v.length_encode_pos
    rw [encodeElems, List.length_append, List.length_cons]
    omega

theorem length_le_encodePairs (ps : List (Value × Value)) : ps.length ≤ (encodePairs ps).length := by
  induction ps with
  | nil => exact Nat.le_refl 0
  | cons p ps ih =>
    have hpos := p.1.length_encode_pos
    rw [encodePairs, List.length_append, List.length_append, List.length_cons]
    omega

mutual

/-- There are no more levels than bytes. -/
theorem height_le_length : ∀ v : Value, v.height ≤ v.encode.length
  | array elems => by
    have hlen := Coder.length_encodeArrayLen_pos elems.length
    have helems := heightElems_le_length elems
    rw [height, encode, List.length_append]
    omega
  | map pairs => by
    have hlen := Coder.length_encodeMapLen_pos pairs.length
    have hpairs := heightPairs_le_length pairs
    rw [height, encode, List.length_append]
    omega
  | nil | bool _ | int _ | uint _ | float _ | double _ | str _ | bin _ | ext _ _ => length_encode_pos _

theorem heightElems_le_length : ∀ vs : List Value, heightElems vs ≤ (encodeElems vs).length
  | [] => Nat.le_refl 0
  | v :: vs => by
    have hv := height_le_length v
    have hvs := heightElems_le_length vs
    rw [heightElems, encodeElems, List.length_append]
    omega

theorem heightPairs_le_length : ∀ ps : List (Value × Value), heightPairs ps ≤ (encodePairs ps).length
  | [] => Nat.le_refl 0
  | (k, v) :: ps => by
    have hk := height_le_length k
    have hv := height_le_length v
    have hps := heightPairs_le_length ps
    rw [heightPairs, encodePairs, List.length_append, List.length_append]
    omega

end

mutual

/-- What a value comes to. -/
theorem comes_value : ∀ (v : Value) (levels : Nat), v.height ≤ levels → v.encode.length < 2 ^ 32 →
    Comes (decodeInterface levels) v.encode v.load
  | v, 0, hheight, _ => by cases v <;> simp [height] at hheight
  | nil, _ + 1, _, _ => decodes_interface_nil.comes
  | bool v, _ + 1, _, _ => (decodes_interface_bool v).comes
  | int v, _ + 1, _, _ => (decodes_interface_int v).comes
  | uint v, _ + 1, _, _ => (decodes_interface_uint v).comes
  | float bits, _ + 1, _, _ => (decodes_interface_float bits).comes
  | double bits, _ + 1, _, _ => (decodes_interface_double bits).comes
  | str v, _ + 1, _, hlen => by
    rw [encode, encodeString, List.length_append] at hlen
    exact (decodes_interface_str (by omega)).comes
  | bin v, _ + 1, _, hlen => by
    rw [encode, encodeBytes, List.length_append] at hlen
    exact (decodes_interface_bin (by omega)).comes
  | array elems, levels + 1, hheight, hlen => by
    rw [encode, List.length_append] at hlen
    rw [height] at hheight
    have hcount := length_le_encodeElems elems
    exact comes_interface_array (by omega) (comes_elems elems levels (by omega) (by omega))
  | map pairs, levels + 1, hheight, hlen => by
    rw [encode, List.length_append] at hlen
    rw [height] at hheight
    have hcount := length_le_encodePairs pairs
    exact comes_interface_map (by omega) (comes_pairs pairs levels (by omega) (by omega))
  | ext extId data, _ + 1, _, _ => comes_interface_ext extId data

theorem comes_elems : ∀ (vs : List Value) (levels : Nat), heightElems vs ≤ levels →
    (encodeElems vs).length < 2 ^ 32 →
    Comes (times vs.length (discard (decodeInterface levels))) (encodeElems vs) (loadElems vs)
  | [], _, _, _ => (Decodes.pure ()).comes
  | v :: vs, levels, hheight, hlen => by
    rw [encodeElems, List.length_append] at hlen
    rw [heightElems] at hheight
    have hv := (comes_value v levels (by omega) (by omega)).bind_pure (g := fun _ => ())
    have hvs := comes_elems vs levels (by omega) (by omega)
    have hload : loadElems (v :: vs) = ((v.load >>= fun _ => .ok ()) >>= fun _ => loadElems vs) := by
      rw [loadElems]
      cases v.load <;> rfl
    rw [hload]
    exact hv.bind fun _ _ => hvs

theorem comes_pairs : ∀ (ps : List (Value × Value)) (levels : Nat), heightPairs ps ≤ levels →
    (encodePairs ps).length < 2 ^ 32 →
    Comes (times ps.length (do
      let mk ← decodeInterface levels
      let _ ← decodeInterface levels
      assignKey mk)) (encodePairs ps) (loadPairs ps)
  | [], _, _, _ => (Decodes.pure ()).comes
  | (k, v) :: ps, levels, hheight, hlen => by
    rw [encodePairs, List.length_append, List.length_append] at hlen
    rw [heightPairs] at hheight
    have hk := comes_value k levels (by omega) (by omega)
    have hv := comes_value v levels (by omega) (by omega)
    have hps := comes_pairs ps levels (by omega) (by omega)
    have hpair := hk.bind fun mk _ => hv.bind fun _ _ => comes_assignKey mk
    rw [List.append_nil] at hpair
    rw [encodePairs, ← List.append_assoc]
    exact hpair.bind fun _ _ => hps

end

/-! ## Which values there is no error for -/

theorem load_nil_iff (v : Value) : v.load = .ok .nil ↔ v = nil := by
  constructor
  · intro h
    cases v with
    | nil => rfl
    | array elems =>
      rw [load] at h
      cases hload : loadElems elems <;> rw [hload] at h <;> cases h
    | map pairs =>
      rw [load] at h
      cases hload : loadPairs pairs <;> rw [hload] at h <;> cases h
    | _ => cases h
  · rintro rfl
    rfl

/-- There is no error, though there may be a panic. -/
def Errorless {α : Type} (r : Result α) : Prop := ∀ msg, r ≠ .error (.error msg)

theorem Errorless.bind {α β : Type} {r : Result α} {f : α → Result β} (h : Errorless r)
    (hf : ∀ a, Errorless (f a)) : Errorless (r >>= f) := by
  intro msg heq
  cases r with
  | ok a => exact hf a msg heq
  | error e =>
    refine h msg ?_
    injection heq with heq
    rw [heq]

theorem errorless_ok {α : Type} (a : α) : Errorless (.ok a) := fun _ h => by cases h

mutual

theorem Plain.load : ∀ v : Value, v.Plain → Errorless v.load
  | nil, _ | bool _, _ | int _, _ | uint _, _ | float _, _ | double _, _ | str _, _ | bin _, _ => errorless_ok _
  | array elems, h => (PlainElems.load elems h).bind fun _ => errorless_ok _
  | map pairs, h => (PlainPairs.load pairs h).bind fun _ => errorless_ok _

theorem PlainElems.load : ∀ vs : List Value, PlainElems vs → Errorless (loadElems vs)
  | [], _ => errorless_ok _
  | v :: vs, h => (Plain.load v h.1).bind fun _ => PlainElems.load vs h.2

theorem PlainPairs.load : ∀ ps : List (Value × Value), PlainPairs ps → Errorless (loadPairs ps)
  | [], _ => errorless_ok _
  | (k, v) :: ps, h => by
    refine Errorless.bind ((Plain.load k h.1).bind fun mk => (Plain.load v h.2.1).bind fun _ => ?_) fun _ =>
      PlainPairs.load ps h.2.2
    intro msg heq
    split_ifs at heq
    cases heq

end

end Value

end Msgpack
