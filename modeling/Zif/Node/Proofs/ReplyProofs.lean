import Zif.Node.Reply
import Zif.Dht.Proofs.EntryProofs
import Zif.Proto.Proofs.HandshakeProofs

/-!
# Proofs: the size of a reply

The limit on the content is the one that matters: a content within it makes a message within the limit of
the connection (`replyFits_of_content`). For entries that the store gives back, its length is a sum over their
fields, in which each link counts for 22 bytes (`encodedEntries_eq`); `Verify` allows a hundred thousand seeds
in one entry.
-/

namespace Zif.Node

open Go Dht

variable {P : Prims} {nilHash : Bool} {pairs : List (Option Entry)}

/-! ## What an encoding adds to the bytes -/

theorem le_encodedBytes (l : Nat) : l ≤ encodedBytes l := by
  unfold encodedBytes
  omega

theorem le_encodedString (l : Nat) : l ≤ Proto.encodedString l := by
  unfold Proto.encodedString
  omega

theorem le_encodedHash (nilHash : Bool) (h : Bytes) : h.length ≤ encodedHash nilHash h := by
  unfold encodedHash
  split
  · rename_i hempty
    rw [Bool.and_eq_true, List.isEmpty_iff] at hempty
    simp [hempty.2]
  · exact le_encodedBytes _

theorem rawList_le (l : List Bytes) : rawList l ≤ encodedList l := by
  have hsum : rawList l ≤ (l.map fun i => encodedBytes i.length).sum :=
    List.sum_le_sum fun i _ => le_encodedBytes i.length
  unfold encodedList
  omega

theorem rawEntry_le (e : Entry) : rawEntry e ≤ encodedEntry nilHash e := by
  have hraw := le_encodedBytes e.address.raw.length
  have hencoded := le_encodedString e.address.encoded.length
  have hname := le_encodedString e.name.length
  have hdesc := le_encodedString e.desc.length
  have hpublic := le_encodedString e.publicAddress.length
  have hkey := le_encodedBytes e.publicKey.length
  have hsignature := le_encodedBytes e.signature.length
  have hhash := le_encodedHash nilHash e.collectionHash
  have hseeds := rawList_le e.seeds
  have hseeding := rawList_le e.seeding
  unfold rawEntry encodedEntry encodedAddress
  omega

/-- The bytes of the fields are a lower bound of the length. -/
theorem rawEntries_le (nilHash : Bool) (pairs : List (Option Entry)) :
    rawEntries pairs ≤ encodedEntries nilHash pairs := by
  have hsum : rawEntries pairs ≤ (pairs.map fun i => i.elim 1 (encodedEntry nilHash)).sum := by
    refine List.sum_le_sum fun i _ => ?_
    cases i with
    | none => exact Nat.zero_le 1
    | some e => exact rawEntry_le e
  unfold encodedEntries
  omega

/-! ## The limits -/

/-- What the message adds to its content fits between the two limits. -/
theorem encodedLength_entriesMessage_le
    (h : encodedEntries nilHash pairs ≤ maxMessageContentSize) :
    (entriesMessage nilHash pairs).encodedLength ≤ Proto.maxMessageSize := by
  have hbytes := Proto.encodedBytes_le (encodedEntries nilHash pairs)
  have hheader : Proto.encodedString protoDhtEntries.utf8ByteSize = 12 := by decide
  simp only [entriesMessage, Proto.Message.encodedLength, hheader, encodedName,
    Proto.maxMessageSize]
  rw [maxMessageContentSize] at h
  omega

/-- The content is what decides. -/
theorem replyFits_of_content (codec : Proto.Codec) (cut : String)
    (h : encodedEntries nilHash pairs ≤ maxMessageContentSize) : ReplyFits codec nilHash cut pairs := by
  have hwire := encodedLength_entriesMessage_le h
  refine ⟨hwire, h, ?_⟩
  rw [receiveEntries, if_pos (Proto.reads_of_le hwire), if_pos h]
  rfl

/-! ## Entries of the store -/

theorem rawList_eq {l : List Bytes} (h : ∀ i ∈ l, i.length = 20) : rawList l = 20 * l.length := by
  rw [rawList, List.map_congr_left h, List.map_const', List.sum_replicate, smul_eq_mul, Nat.mul_comm]

/-- An address in a list takes two bytes more than it has. -/
theorem encodedList_eq {l : List Bytes} (h : ∀ i ∈ l, i.length = 20) : encodedList l = linksLength l.length := by
  have hlengths : ∀ i ∈ l, encodedBytes i.length = 22 := by
    intro i hi
    rw [h i hi]
    rfl
  rw [encodedList, linksLength, List.map_congr_left hlengths, List.map_const', List.sum_replicate,
    smul_eq_mul, Nat.mul_comm]

theorem encodedHash_eq (nilHash : Bool) (h : Bytes) : encodedHash nilHash h = hashLength nilHash h.length := by
  cases h <;> rfl

/-- What `Verify` leaves no choice about, and what it does. -/
theorem ReplyEntry.encodedEntry_eq {e : Entry} (h : ReplyEntry P e) :
    encodedEntry nilHash e = fieldsLength nilHash e := by
  obtain ⟨⟨hraw, -⟩, hkey, hsignature, -⟩ := (Entry.verify_eq_ok_iff e).mp h.verified
  have haddress : encodedAddress e.address = 36 := by
    rw [encodedAddress, hraw, h.encoded]
    rfl
  have hkey' : encodedBytes e.publicKey.length = 34 := by rw [hkey]; rfl
  have hsignature' : encodedBytes e.signature.length = 66 := by rw [hsignature]; rfl
  have hseeds := encodedList_eq fun i hi => h.links i (List.mem_append_left _ hi)
  have hseeding := encodedList_eq fun i hi => h.links i (List.mem_append_right _ hi)
  rw [encodedEntry, fieldsLength, haddress, hkey', hsignature', hseeds, hseeding, encodedHash_eq]
  simp only [encodedName]
  omega

theorem encodedEntries_eq (hserved : ∀ e, some e ∈ pairs → ReplyEntry P e) :
    encodedEntries nilHash pairs = contentLength nilHash pairs := by
  rw [encodedEntries, contentLength]
  congr 2
  refine List.map_congr_left fun i hi => ?_
  cases i with
  | none => rfl
  | some e => exact (hserved e hi).encodedEntry_eq

/-- A reply with entries of the store fits exactly when its content, counted from the lengths of their fields
and the numbers of their links, has at most 4194304 bytes. It does not when the bytes of the fields alone are
too many. -/
theorem replyFits_iff (P : Prims) (codec : Proto.Codec) (nilHash : Bool) (cut : String)
    (pairs : List (Option Entry)) (hserved : ∀ e, some e ∈ pairs → ReplyEntry P e) :
    (ReplyFits codec nilHash cut pairs ↔ contentLength nilHash pairs ≤ 4194304) ∧
      (maxMessageContentSize < rawEntries pairs → ¬ ReplyFits codec nilHash cut pairs) := by
  constructor
  · rw [← encodedEntries_eq hserved]
    exact ⟨fun h => h.content, replyFits_of_content codec cut⟩
  · intro hraw hfits
    have hle := rawEntries_le nilHash pairs
    have hcontent := hfits.content
    omega

/-! ## Three popular peers -/

/-- The binary address of the seed number `i`. -/
def seedAddress (i : Nat) : Bytes :=
  List.replicate 17 0 ++ [UInt8.ofNat (i / 65536), UInt8.ofNat (i / 256), UInt8.ofNat i]

/-- The entry of a peer with the seeds; they are not signed. -/
def popularEntry (seeds : List Bytes) (k : UInt8) : Entry := { sampleEntry k k 7 with seeds }

/-- Three bytes are enough to tell as many peers apart as an entry may have seeds. -/
theorem seedAddress_injOn {x y : Nat} (hx : x < maxEntrySeeds) (hy : y < maxEntrySeeds)
    (h : seedAddress x = seedAddress y) : x = y := by
  simp only [seedAddress, List.append_cancel_left_eq, List.cons.injEq, and_true] at h
  have hbytes := h.imp (congrArg UInt8.toNat) (And.imp (congrArg UInt8.toNat) (congrArg UInt8.toNat))
  simp only [UInt8.toNat_ofNat'] at hbytes
  simp only [maxEntrySeeds] at hx hy
  omega

section Popular

variable {seeds : List Bytes} (hlength : seeds.length = maxEntrySeeds)

include hlength

theorem verify_popularEntry (k : UInt8) : (popularEntry seeds k).verify .sample = .ok () :=
  Entry.verify_withSeeds hlength.le (verify_sampleEntry k k 7 [])

theorem le_rawEntry_popularEntry (h : ∀ i ∈ seeds, i.length = 20) (k : UInt8) :
    2000000 ≤ rawEntry (popularEntry seeds k) := by
  have hseeds : rawList (popularEntry seeds k).seeds = 20 * maxEntrySeeds := by
    rw [popularEntry, rawList_eq h, hlength]
  rw [rawEntry, hseeds, maxEntrySeeds]
  omega

end Popular

theorem replyEntry_popularEntry {seeds : List Bytes} (hlength : seeds.length ≤ maxEntrySeeds)
    (h : ∀ i ∈ seeds, i.length = 20) (k : UInt8) : ReplyEntry .sample (popularEntry seeds k) := by
  refine ⟨Entry.verify_withSeeds hlength (verify_sampleEntry k k 7 []), rfl, fun i hi => ?_⟩
  rw [show (popularEntry seeds k).seeding = [] from rfl, List.append_nil] at hi
  exact h i hi

theorem fieldsLength_popularEntry (seeds : List Bytes) (k : UInt8) :
    fieldsLength false (popularEntry seeds k) = 260 + linksLength seeds.length := by
  show 246 + 2 + 1 + 2 + 2 + 1 + 1 + 3 + 1 + linksLength seeds.length + 1 = _
  omega

/-- Two entries with 95000 seeds each fit into a reply. -/
theorem replyFits_iff_two : ∃ seeds : List Bytes, seeds.length = 95000 ∧
    ∀ codec cut, ReplyFits codec false cut ([1, 2].map fun k => some (popularEntry seeds k)) := by
  obtain ⟨seeds, hlength, hbytes⟩ : ∃ seeds : List Bytes,
      seeds.length = 95000 ∧ ∀ i ∈ seeds, i.length = 20 :=
    ⟨List.replicate 95000 (seedAddress 0), List.length_replicate, fun i hi => by
      rw [List.eq_of_mem_replicate hi]
      rfl⟩
  refine ⟨seeds, hlength, fun codec cut => ?_⟩
  refine (replyFits_iff .sample codec false cut _ fun e he => ?_).1.mpr ?_
  · obtain ⟨k, -, hk⟩ := List.mem_map.mp he
    cases hk
    exact replyEntry_popularEntry (by rw [hlength, maxEntrySeeds]; omega) hbytes k
  · simp only [contentLength, List.map_cons, List.map_nil, Option.elim_some, fieldsLength_popularEntry, hlength,
      List.length_cons, List.length_nil]
    decide

/-- Three valid entries with a hundred thousand seeds each make a reply that exceeds both limits. -/
theorem three_popular_do_not_fit : ∃ seeds : List Bytes,
    seeds.Nodup ∧ seeds.length = maxEntrySeeds ∧ (∀ i ∈ seeds, i.length = 20) ∧
      (∀ k ∈ [1, 2, 3], (popularEntry seeds k).verify .sample = .ok ()) ∧
      ∀ codec nilHash cut,
        Proto.maxMessageSize < encodedEntries nilHash ([1, 2, 3].map fun k => some (popularEntry seeds k)) ∧
        ¬ ReplyFits codec nilHash cut ([1, 2, 3].map fun k => some (popularEntry seeds k)) := by
  obtain ⟨seeds, hnodup, hlength, hbytes⟩ : ∃ seeds : List Bytes,
      seeds.Nodup ∧ seeds.length = maxEntrySeeds ∧ ∀ i ∈ seeds, i.length = 20 := by
    refine ⟨(List.range maxEntrySeeds).map seedAddress, ?_, ?_, ?_⟩
    · refine List.Nodup.map_on ?_ List.nodup_range
      intro x hx y hy
      exact seedAddress_injOn (List.mem_range.mp hx) (List.mem_range.mp hy)
    · rw [List.length_map, List.length_range]
    · intro i hi
      obtain ⟨n, -, rfl⟩ := List.mem_map.mp hi
      simp [seedAddress]
  refine ⟨seeds, hnodup, hlength, hbytes, ?_, fun codec nilHash cut => ?_⟩
  · exact fun k _ => verify_popularEntry hlength k
  · have hone := le_rawEntry_popularEntry hlength hbytes 1
    have htwo := le_rawEntry_popularEntry hlength hbytes 2
    have hthree := le_rawEntry_popularEntry hlength hbytes 3
    have hraw : 6000000 ≤ rawEntries ([1, 2, 3].map fun k => some (popularEntry seeds k)) := by
      simp only [rawEntries, List.map_cons, List.map_nil, Option.elim_some, List.sum_cons, List.sum_nil]
      omega
    have hle := rawEntries_le nilHash ([1, 2, 3].map fun k => some (popularEntry seeds k))
    refine ⟨by rw [Proto.maxMessageSize]; omega, fun hfits => ?_⟩
    have hcontent := hfits.content
    rw [maxMessageContentSize] at hcontent
    omega

end Zif.Node
