import Zif.Msgpack.Proofs.NumberProofs
import Zif.Msgpack.Struct

/-!
# Proofs: MessagePack, types

What a `Coder` writes it reads back (`Coder.Reads`), into a variable of any value and whatever follows; a
struct does so if its fields do (`reads_struct`). None of the decoders panics.
-/

namespace Msgpack

open Go Decoding

/-! ## Strings -/

theorem decodes_bytes {len v : Bytes} (hlen : Decodes (readByte >>= bytesLen) len (some v.length)) :
    Decodes decodeBytes (len ++ v) (some v) := by
  unfold decodeBytes bytes
  exact hlen.bind_bind (decodes_readN v).bind_pure

theorem decodes_encodeString {v : Bytes} (h : v.length < 2 ^ 32) :
    Decodes decodeString (encodeString v) v := by
  have hbytes := decodes_bytes (decodes_encodeStrLen h)
  have hstring := hbytes.bind_bind (g := fun b => pure (b.getD [])) (.pure _)
  rwa [List.append_nil] at hstring

theorem decodes_encodeBytes {v : Option Bytes} (h : ∀ b ∈ v, b.length < 2 ^ 32) :
    Decodes decodeBytes (encodeBytes v) v := by
  cases v with
  | none => exact Decodes.code (.pure none)
  | some b => exact decodes_bytes (decodes_encodeBytesLen (h b rfl))

namespace Coder

variable {α : Type} {c : Coder α} {zero : α}

/-- A value is read back, whatever the variable holds. -/
def Reads (c : Coder α) (v : α) : Prop := ∀ old, Decodes (c.decode old) (c.encode v) v

theorem reads_string {v : Bytes} (h : v.length < 2 ^ 32) : string.Reads v :=
  fun _ => decodes_encodeString h

theorem reads_bytes {v : Option Bytes} (h : ∀ b ∈ v, b.length < 2 ^ 32) : bytes.Reads v :=
  fun _ => decodes_encodeBytes h

theorem reads_int (v : Int64) : int.Reads v := fun _ => decodes_encodeInt64 v

theorem reads_uint (v : UInt64) : uint.Reads v := fun _ => decodes_encodeUint64 v

/-! ## Slices and pointers -/

theorem decodes_elems {l : List α} (h : ∀ a ∈ l, c.Reads a) (old : List α) :
    Decodes (decodeElems c zero l.length old) (l.flatMap c.encode) l := by
  induction l generalizing old with
  | nil => exact .pure []
  | cons a l ih =>
    have htail := (ih (fun b hb => h b (.tail a hb)) old.tail).bind_pure (g := (a :: ·))
    exact (h a (.head l) (old.headD zero)).bind htail

theorem reads_slice {v : Option (List α)} (hlen : ∀ l ∈ v, l.length < 2 ^ 32)
    (h : ∀ l ∈ v, ∀ a ∈ l, c.Reads a) : (slice c zero).Reads v := by
  intro old
  cases v with
  | none => exact Decodes.code (.pure none)
  | some l => exact (decodes_encodeArrayLen (hlen l rfl)).bind (decodes_elems (h l rfl) _).bind_pure

theorem reads_strings {l : List Bytes} (hlen : l.length < 2 ^ 32) (h : ∀ a ∈ l, string.Reads a) :
    strings.Reads (some l) :=
  fun _ => (decodes_encodeArrayLen hlen).bind (decodes_elems h []).bind_pure

/-- What a pointer points to does not begin like a nil. -/
theorem reads_ptr {v : Option α} (h : ∀ a ∈ v, c.Reads a)
    (hcode : ∀ a ∈ v, ∃ b bs, c.encode a = b :: bs ∧ b ≠ Code.null) : (ptr c zero).Reads v := by
  intro old
  cases v with
  | none =>
    apply Decodes.peek
    exact Decodes.code (.pure none)
  | some a =>
    obtain ⟨b, bs, hencode, hb⟩ := hcode a rfl
    have hread := (h a rfl (old.getD zero)).bind_pure (g := some)
    rw [hencode] at hread
    change Decodes _ (c.encode a) _
    rw [hencode]
    apply Decodes.peek
    rw [if_neg hb]
    exact hread

end Coder

/-! ## Structs -/

section Struct

variable {σ : Type} {fields : List (StructField σ)} {levels : Nat} {zero s : σ}

theorem StructField.decodes {f : StructField σ} (h : f.coder.Reads (f.get s)) (old : σ) :
    Decodes (f.decode old) (f.encode s) (f.set old (f.get s)) :=
  (h (f.get old)).bind_pure

theorem decodes_structLen {bs : Bytes} {n : Nat} (h : Decodes (readByte >>= mapLen) bs (some n)) :
    Decodes (readByte >>= structLen) bs (some n, false) := by
  cases bs with
  | nil => cases h []
  | cons c bs =>
    apply Decodes.code
    intro rest
    have hlen : Decodes (do return (← mapLen c, false)) bs (some n, false) :=
      Decodes.bind_pure (g := fun n => (n, false)) fun rest => h rest
    exact outcome_tryCatch_ok (hlen rest)

/-- The names of the fields of a struct: no two are the same. -/
structure Names (names : List String) : Prop where
  nodup : (names.map utf8).Nodup
  length_key : ∀ n ∈ names, (utf8 n).length < 2 ^ 32
  length_lt : names.length < 2 ^ 32

instance (names : List String) : Decidable (Names names) :=
  decidable_of_iff ((names.map utf8).Nodup ∧ (∀ n ∈ names, (utf8 n).length < 2 ^ 32) ∧
    names.length < 2 ^ 32) ⟨fun ⟨h, h', h''⟩ => ⟨h, h', h''⟩, fun ⟨h, h', h''⟩ => ⟨h, h', h''⟩⟩

theorem find?_key {f : StructField σ} (hkeys : (fields.map StructField.key).Nodup) (hf : f ∈ fields) :
    fields.find? (·.key == f.key) = some f := by
  induction fields with
  | nil => cases hf
  | cons g fields ih =>
    rw [List.map_cons, List.nodup_cons] at hkeys
    rw [List.find?_cons]
    rcases List.mem_cons.mp hf with rfl | hf
    · rw [beq_self_eq_true]
    · have hne : (g.key == f.key) = false :=
        beq_false_of_ne fun heq => hkeys.1 (heq ▸ List.mem_map_of_mem hf)
      rw [hne]
      exact ih hkeys.2 hf

/-- A field of a map is found by its name. -/
theorem outcome_mapFields (levels : Nat) (hnames : Names (fields.map StructField.name)) {f : StructField σ}
    (hf : f ∈ fields) (n : Nat) (old : σ) (bs : Bytes) :
    outcome (decodeMapFields fields levels (n + 1) old) (encodeString f.key ++ bs) =
      outcome (f.decode old >>= decodeMapFields fields levels n) bs := by
  have hkeys : (fields.map StructField.key).Nodup := List.map_map (f := StructField.name) ▸ hnames.nodup
  have hlen : f.key.length < 2 ^ 32 := hnames.length_key _ (List.mem_map_of_mem hf)
  rw [decodeMapFields, outcome_bind_ok (decodes_encodeString hlen bs), find?_key hkeys hf]

/-- The fields of a map that holds fields of the struct, by their names. -/
theorem decodes_mapFields (levels : Nat) (hnames : Names (fields.map StructField.name))
    (present : List (StructField σ)) (hpresent : present ⊆ fields)
    (h : ∀ f ∈ present, f.coder.Reads (f.get s)) (old : σ) :
    Decodes (decodeMapFields fields levels present.length old)
      (present.flatMap fun f => encodeString f.key ++ f.encode s)
      (present.foldl (fun t f => f.set t (f.get s)) old) := by
  induction present generalizing old with
  | nil => exact .pure old
  | cons f present ih =>
    intro rest
    have hrest := ih (fun g hg => hpresent (.tail f hg)) (fun g hg => h g (.tail f hg)) (f.set old (f.get s))
    rw [List.flatMap_cons, List.append_assoc, List.append_assoc, List.length_cons,
      outcome_mapFields levels hnames (hpresent (.head present)),
      outcome_bind_ok (StructField.decodes (h f (.head present)) old _)]
    exact hrest rest

/-- A struct is read back, when a variable of which all fields are set holds it. -/
theorem reads_struct (hnames : Names (fields.map StructField.name)) (hset : ∀ old, fields.foldl (fun t f => f.set t (f.get s)) old = s)
    (h : ∀ f ∈ fields, f.coder.Reads (f.get s)) : (Coder.struct fields levels zero).Reads s := by
  intro old
  have hmap := decodes_mapFields levels hnames fields (List.Subset.refl fields) h old
  rw [hset] at hmap
  exact (decodes_structLen (decodes_encodeMapLen (by simpa using hnames.length_lt))).bind hmap

/-- A struct of one field, which is read into the variable as it is. -/
theorem decodes_single {f : StructField σ} {old : σ} (hname : f.key.length < 2 ^ 32)
    (h : Decodes (f.coder.decode (f.get old)) (f.encode s) (f.get s)) :
    Decodes (decodeStruct [f] levels zero old) (encodeStruct [f] s) (f.set old (f.get s)) := by
  refine (decodes_structLen (decodes_encodeMapLen (l := 1) (by decide))).bind ?_
  rw [List.flatMap_cons, List.append_assoc]
  refine (decodes_encodeString hname).bind ?_
  simp only [List.find?_cons, beq_self_eq_true]
  exact (Decodes.bind_pure h).bind (.pure _)

/-- A struct does not begin like a nil. -/
theorem encodeStruct_head (fields : List (StructField σ)) (s : σ) :
    ∃ b bs, encodeStruct fields s = b :: bs ∧ b ≠ Code.null := by
  rw [encodeStruct, encodeMapLen]
  split_ifs with h4 h16
  · refine ⟨_, _, rfl, ?_⟩
    generalize fields.length = l at h4
    interval_cases l <;> decide
  · exact ⟨_, _, rfl, by decide⟩
  · exact ⟨_, _, rfl, by decide⟩

end Struct

/-! ## What a decoder depends on -/

section Alike

variable {σ : Type} {fields fields' : List (StructField σ)} {levels : Nat} {zero : σ}

/-- Fields that are decoded in one way. -/
structure Alike (f g : StructField σ) : Prop where
  name : f.name = g.name
  decode : ∀ s, f.decode s = g.decode s

theorem find?_alike (h : List.Forall₂ Alike fields fields') (key : Bytes) :
    Option.Rel Alike (fields.find? (·.key == key)) (fields'.find? (·.key == key)) := by
  induction h with
  | nil => exact .none
  | @cons f g fs gs hfg _ ih =>
    have hkey : f.key = g.key := congrArg utf8 hfg.name
    rw [List.find?_cons, List.find?_cons, hkey]
    cases g.key == key with
    | true => exact .some hfg
    | false => exact ih

theorem decodeMapFields_alike (h : List.Forall₂ Alike fields fields') (n : Nat) (s : σ) :
    decodeMapFields fields levels n s = decodeMapFields fields' levels n s := by
  induction n generalizing s with
  | zero => rfl
  | succ n ih =>
    rw [decodeMapFields, decodeMapFields]
    refine congrArg _ (funext fun name => ?_)
    have hfind := find?_alike h name
    generalize fields.find? (·.key == name) = x at hfind ⊢
    generalize fields'.find? (·.key == name) = y at hfind ⊢
    cases hfind with
    | none => simp only [ih]
    | some hfg => simp only [hfg.decode s, ih]

theorem decodeArrayFields_alike (h : List.Forall₂ Alike fields fields') (n : Nat) (s : σ) :
    decodeArrayFields levels fields n s = decodeArrayFields levels fields' n s := by
  induction h generalizing n s with
  | nil => rfl
  | cons hfg _ ih =>
    cases n with
    | zero => rfl
    | succ n => simp only [decodeArrayFields, hfg.decode s, ih]

/-- A struct is decoded by the names of its fields and their decoders. -/
theorem decodeStruct_alike (h : List.Forall₂ Alike fields fields') (s : σ) :
    decodeStruct fields levels zero s = decodeStruct fields' levels zero s := by
  unfold decodeStruct
  refine congrArg _ (funext fun r => ?_)
  obtain ⟨_ | n, _ | _⟩ := r
  · rfl
  · rfl
  · exact decodeMapFields_alike h n s
  · exact decodeArrayFields_alike h n s

theorem Coder.decodeElems_alike {α : Type} {c c' : Coder α} {zero : α} (h : c.decode = c'.decode) (n : Nat)
    (old : List α) : decodeElems c zero n old = decodeElems c' zero n old := by
  induction n generalizing old with
  | zero => rfl
  | succ n ih => simp only [decodeElems, h, ih]

theorem Coder.slice_alike {α : Type} {c c' : Coder α} {zero : α} (h : c.decode = c'.decode) :
    (slice c zero).decode = (slice c' zero).decode := by
  funext old
  simp only [slice, decodeElems_alike h]

theorem Coder.ptr_alike {α : Type} {c c' : Coder α} {zero : α} (h : c.decode = c'.decode) :
    (ptr c zero).decode = (ptr c' zero).decode := by
  funext old
  simp only [ptr, h]

theorem Coder.alike {α : Type} {name : String} {c c' : Coder α} {get : σ → α} {set : σ → α → σ}
    (h : c.decode = c'.decode) : Alike ⟨name, α, c, get, set⟩ ⟨name, α, c', get, set⟩ :=
  ⟨rfl, fun s => by simp only [StructField.decode, h]⟩

end Alike

/-! ## Short encodings -/

namespace Coder

variable {α : Type} {c : Coder α} {zero : α}

/-- What has an encoding below 2^32 bytes is read back, and no encoding is empty. -/
structure Faithful (c : Coder α) : Prop where
  reads : ∀ v, (c.encode v).length < 2 ^ 32 → c.Reads v
  pos : ∀ v, 0 < (c.encode v).length

theorem length_write (k : Nat) (code : UInt8) (n : Nat) : (write k code n).length = k + 1 := by
  rw [write, List.length_cons, length_bigEndian]

theorem length_encodeStrLen_pos (l : Nat) : 0 < (encodeStrLen l).length := by
  unfold encodeStrLen
  split_ifs <;> simp [length_write]

theorem length_encodeBytesLen_pos (l : Nat) : 0 < (encodeBytesLen l).length := by
  unfold encodeBytesLen
  split_ifs <;> simp [length_write]

theorem length_encodeArrayLen_pos (l : Nat) : 0 < (encodeArrayLen l).length := by
  unfold encodeArrayLen
  split_ifs <;> simp [length_write]

theorem length_encodeMapLen_pos (l : Nat) : 0 < (encodeMapLen l).length := by
  unfold encodeMapLen
  split_ifs <;> simp [length_write]

theorem length_encodeUint64_pos (v : UInt64) : 0 < (encodeUint64 v).length := by
  unfold encodeUint64
  split_ifs <;> simp [length_write]

theorem length_encodeInt64_pos (v : Int64) : 0 < (encodeInt64 v).length := by
  unfold encodeInt64
  split_ifs
  · exact length_encodeUint64_pos _
  all_goals simp [length_write]

theorem faithful_string : string.Faithful where
  reads v h := by
    have hlen := length_encodeStrLen_pos v.length
    rw [show string.encode v = encodeStrLen v.length ++ v from rfl, List.length_append] at h
    exact reads_string (by omega)
  pos v := by
    have hlen := length_encodeStrLen_pos v.length
    rw [show string.encode v = encodeStrLen v.length ++ v from rfl, List.length_append]
    omega

theorem faithful_bytes : bytes.Faithful where
  reads v h := by
    refine reads_bytes fun b hb => ?_
    obtain rfl : v = some b := hb
    rw [show bytes.encode (some b) = encodeBytesLen b.length ++ b from rfl, List.length_append] at h
    omega
  pos v := by
    cases v with
    | none => exact Nat.one_pos
    | some b =>
      have hlen := length_encodeBytesLen_pos b.length
      rw [show bytes.encode (some b) = encodeBytesLen b.length ++ b from rfl, List.length_append]
      omega

theorem faithful_int : int.Faithful := ⟨fun v _ => reads_int v, length_encodeInt64_pos⟩

theorem faithful_uint : uint.Faithful := ⟨fun v _ => reads_uint v, length_encodeUint64_pos⟩

theorem decodes_byteArray {n : Nat} {v : Bytes} (hv : v.length = n) (hn : n < 2 ^ 32) :
    Decodes (decodeByteArray n) (encodeBytes (some v)) v := by
  subst hv
  refine (decodes_encodeBytesLen hn).bind ?_
  simp only [gt_iff_lt, lt_irrefl, if_false]
  exact decodes_readN v

theorem faithful_byteArray (n : Nat) : (byteArray n).Faithful where
  reads v h old := by
    change (encodeBytesLen v.toList.length ++ v.toList).length < 2 ^ 32 at h
    rw [List.length_append, Vector.length_toList] at h
    have hread := (decodes_byteArray v.length_toList (by omega)).bind_pure
      (g := fun bs : Bytes => Vector.ofFn fun i : Fin n => bs.getD i old[i])
    have hall : (Vector.ofFn fun i : Fin n => v.toList.getD i old[i]) = v := by
      ext i hi
      simp
    rw [hall] at hread
    exact hread
  pos v := by
    have hlen := length_encodeBytesLen_pos v.toList.length
    change 0 < (encodeBytesLen v.toList.length ++ v.toList).length
    rw [List.length_append]
    omega

/-- There are no more elements than bytes, and no element is longer than all of them. -/
theorem Faithful.elems (h : c.Faithful) {l : List α} (hl : (l.flatMap c.encode).length < 2 ^ 32) :
    l.length < 2 ^ 32 ∧ ∀ a ∈ l, c.Reads a := by
  constructor
  · refine lt_of_le_of_lt ?_ hl
    rw [List.length_flatMap, ← List.length_map (f := fun a => (c.encode a).length)]
    refine List.length_le_sum_of_one_le _ fun n hn => ?_
    obtain ⟨a, -, rfl⟩ := List.mem_map.mp hn
    exact h.pos a
  · intro a ha
    exact h.reads a ((List.sublist_flatten_of_mem (List.mem_map_of_mem ha)).length_le.trans_lt hl)

theorem Faithful.slice (h : c.Faithful) : (slice c zero).Faithful where
  reads v hv := by
    have helems : ∀ l ∈ v, l.length < 2 ^ 32 ∧ ∀ a ∈ l, c.Reads a := by
      intro l hl
      obtain rfl : v = some l := hl
      change (encodeArrayLen l.length ++ l.flatMap c.encode).length < 2 ^ 32 at hv
      rw [List.length_append] at hv
      exact h.elems (by omega)
    exact reads_slice (fun l hl => (helems l hl).1) fun l hl => (helems l hl).2
  pos v := by
    cases v with
    | none => exact Nat.one_pos
    | some l =>
      have hlen := length_encodeArrayLen_pos l.length
      change 0 < (encodeArrayLen l.length ++ l.flatMap c.encode).length
      rw [List.length_append]
      omega

theorem Faithful.ptr (h : c.Faithful) (hcode : ∀ a, ∃ b bs, c.encode a = b :: bs ∧ b ≠ Code.null) :
    (ptr c zero).Faithful where
  reads v hv := by
    refine reads_ptr (fun a ha => ?_) fun a _ => hcode a
    obtain rfl : v = some a := ha
    exact h.reads a hv
  pos v := by
    cases v with
    | none => exact Nat.one_pos
    | some a => exact h.pos a

variable {σ : Type} {fields : List (StructField σ)} {levels : Nat} {z : σ}

theorem faithful_struct (hnames : Names (fields.map StructField.name))
    (hset : ∀ s old, fields.foldl (fun t f => f.set t (f.get s)) old = s)
    (h : ∀ f ∈ fields, f.coder.Faithful) : (struct fields levels z).Faithful where
  reads s hs := by
    refine reads_struct hnames (hset s) fun f hf => (h f hf).reads _ ?_
    have hmem : encodeString f.key ++ f.encode s ∈
        fields.map fun f => encodeString f.key ++ f.encode s := List.mem_map_of_mem hf
    have hsub : List.Sublist (f.encode s) (encodeStruct fields s) :=
      ((List.sublist_append_right _ _).trans (List.sublist_flatten_of_mem hmem)).trans
        (List.sublist_append_right _ _)
    exact hsub.length_le.trans_lt hs
  pos s := by
    obtain ⟨b, bs, hs, -⟩ := encodeStruct_head fields s
    change 0 < (encodeStruct fields s).length
    rw [hs]
    exact Nat.succ_pos _

end Coder

/-! ## No panics -/

theorem safe_invalidCode {α : Type} (c : UInt8) (what : String) : Safe (invalidCode c what : Decoder α) :=
  safe_throw _

theorem safe_bigEndian {α : Type} (k : Nat) (g : Nat → α) :
    Safe (decodeBigEndian k >>= fun n => pure (g n)) :=
  ((safe_readN k).bind fun _ => .pure _).bind fun _ => .pure _

theorem safe_uint (c : UInt8) : Safe (uint c) := by
  unfold uint
  split_ifs
  · exact .pure _
  · exact .pure _
  · split <;> with_reducible first | exact safe_bigEndian _ _ | exact safe_invalidCode c _

theorem safe_int (c : UInt8) : Safe (int c) := by
  unfold int
  split_ifs
  · exact .pure _
  · exact .pure _
  · split <;> with_reducible first | exact safe_bigEndian _ _ | exact safe_invalidCode c _

theorem safe_bytesLen (c : UInt8) : Safe (bytesLen c) := by
  unfold bytesLen
  split_ifs
  · exact .pure _
  · exact .pure _
  · split <;> with_reducible first | exact safe_bigEndian _ _ | exact safe_invalidCode c _

theorem safe_arrayLen (c : UInt8) : Safe (arrayLen c) := by
  unfold arrayLen
  split_ifs
  · exact .pure _
  · exact .pure _
  · split <;> with_reducible first | exact safe_bigEndian _ _ | exact safe_invalidCode c _

theorem safe_mapLen (c : UInt8) : Safe (mapLen c) := by
  unfold mapLen
  split_ifs
  · exact .pure _
  · exact .pure _
  · exact safe_bigEndian _ _
  · exact safe_bigEndian _ _
  · exact safe_invalidCode c _

theorem safe_extLen (c : UInt8) : Safe (extLen c) := by
  unfold extLen
  split <;> first
    | exact .pure _
    | exact (safe_readN _).bind fun _ => .pure _
    | exact safe_invalidCode c _

theorem safe_bytes (c : UInt8) : Safe (bytes c) := by
  refine (safe_bytesLen c).bind fun n => ?_
  cases n with
  | none => exact .pure _
  | some n => exact (safe_readN n).bind fun _ => .pure _

theorem safe_decodeString : Safe decodeString :=
  safe_readByte.bind fun c => (safe_bytes c).bind fun _ => .pure _

theorem safe_skipN (n : Nat) : Safe (skipN n) := (safe_readN n).map

theorem safe_skipBytes (c : UInt8) : Safe (skipBytes c) := (safe_bytes c).map

theorem safe_skipExt (c : UInt8) : Safe (skipExt c) := (safe_extLen c).bind fun n => safe_skipN n

theorem safe_skipMap {next : Decoder Unit} (h : Safe next) (c : UInt8) : Safe (skipMap next c) :=
  (safe_mapLen c).bind fun _ => (h.bind fun _ => h).times _

theorem safe_skipSlice {next : Decoder Unit} (h : Safe next) (c : UInt8) : Safe (skipSlice next c) :=
  (safe_arrayLen c).bind fun _ => h.times _

theorem safe_skipAt {next : Decoder Unit} (h : Safe next) (c : UInt8) : Safe (skipAt next c) := by
  unfold skipAt
  split_ifs
  · exact .pure _
  · exact safe_skipMap h c
  · exact safe_skipSlice h c
  · exact safe_skipBytes c
  · split <;> with_reducible first
      | exact .pure _
      | exact safe_skipN _
      | exact safe_skipBytes _
      | exact safe_skipSlice h _
      | exact safe_skipMap h _
      | exact safe_skipExt _
      | exact safe_throw _

theorem safe_skip (levels : Nat) : Safe (skip levels) := by
  induction levels with
  | zero => exact safe_endOfInput
  | succ levels ih => exact safe_readByte.bind fun c => safe_skipAt ih c

/-- A decoder never panics, whatever the variable holds. -/
def Coder.Safe {α : Type} (c : Coder α) : Prop := ∀ old, Decoding.Safe (c.decode old)

theorem StructField.safe {σ : Type} {f : StructField σ} (h : f.coder.Safe) (s : σ) : Decoding.Safe (f.decode s) :=
  (h _).bind fun _ => .pure _

namespace Coder

variable {α : Type} {c : Coder α} {zero : α}

theorem safe_string : string.Safe := fun _ => safe_decodeString

theorem safe_bytes : bytes.Safe := fun _ => safe_readByte.bind Msgpack.safe_bytes

theorem safe_int : int.Safe := fun _ => safe_readByte.bind Msgpack.safe_int

theorem safe_uint : uint.Safe := fun _ => safe_readByte.bind Msgpack.safe_uint

theorem safe_byteArray (n : Nat) : (byteArray n).Safe := by
  intro old
  refine Decoding.Safe.bind ((safe_readByte.bind safe_bytesLen).bind fun k => ?_) fun _ => .pure _
  cases k with
  | none => exact .pure _
  | some k =>
    dsimp only
    split_ifs
    · exact safe_throw _
    · exact safe_readN k

theorem Safe.elems (h : c.Safe) (n : Nat) (old : List α) :
    Decoding.Safe (decodeElems c zero n old) := by
  induction n generalizing old with
  | zero => exact .pure _
  | succ n ih => exact (h _).bind fun _ => (ih _).bind fun _ => .pure _

theorem Safe.slice (h : c.Safe) : (slice c zero).Safe := by
  intro old
  refine (safe_readByte.bind safe_arrayLen).bind fun n => ?_
  cases n with
  | none => exact .pure _
  | some n => exact (h.elems n _).bind fun _ => .pure _

theorem safe_strings : strings.Safe := by
  intro old
  refine (safe_readByte.bind safe_arrayLen).bind fun n => ?_
  cases n with
  | none => exact .pure _
  | some n => exact (safe_string.elems n _).bind fun _ => .pure _

theorem Safe.ptr (h : c.Safe) : (ptr c zero).Safe := by
  intro old
  refine safe_peekByte.bind fun b => ?_
  split_ifs
  · exact safe_readByte.map.bind fun _ => .pure _
  · exact (h _).bind fun _ => .pure _

variable {σ : Type} {fields : List (StructField σ)} {levels : Nat} {z : σ}

theorem safe_mapFields (h : ∀ f ∈ fields, f.coder.Safe) (n : Nat) (s : σ) :
    Decoding.Safe (decodeMapFields fields levels n s) := by
  induction n generalizing s with
  | zero => exact .pure _
  | succ n ih =>
    refine safe_decodeString.bind fun name => ?_
    cases hfind : fields.find? (·.key == name) with
    | none => exact (safe_skip levels).bind fun _ => ih s
    | some f => exact (StructField.safe (h f (List.mem_of_find?_eq_some hfind)) s).bind fun _ => ih _

theorem safe_arrayFields (fs : List (StructField σ)) (h : ∀ f ∈ fs, f.coder.Safe) (n : Nat) (s : σ) :
    Decoding.Safe (decodeArrayFields levels fs n s) := by
  induction fs generalizing n s with
  | nil =>
    cases n with
    | zero => exact .pure _
    | succ n => exact ((safe_skip levels).times _).bind fun _ => .pure _
  | cons f fs ih =>
    cases n with
    | zero => exact .pure _
    | succ n =>
      exact (StructField.safe (h f (.head fs)) s).bind fun _ => ih (fun g hg => h g (.tail f hg)) n _

theorem safe_structLen (c : UInt8) : Decoding.Safe (structLen c) :=
  ((safe_mapLen c).bind fun _ => .pure _).tryCatch fun _ =>
    ((safe_arrayLen c).bind fun _ => .pure _).tryCatch fun _ => safe_throw _

theorem safe_struct (h : ∀ f ∈ fields, f.coder.Safe) : (struct fields levels z).Safe := by
  intro old
  refine (safe_readByte.bind safe_structLen).bind fun r => ?_
  obtain ⟨_ | n, _ | _⟩ := r
  · exact .pure _
  · exact .pure _
  · exact safe_mapFields h n old
  · exact safe_arrayFields fields h n old

end Coder

end Msgpack
