import Zif.Node.Proofs.ReplyProofs
import Zif.Proto.Proofs.WireProofs

/-!
# Proofs: the lengths of messages

The lengths that the model of replies reckons with are the lengths of the encodings, and what its client
makes of a reply is what comes out of the bytes.
-/

namespace Zif.Proto.Wire

open Go Dht Data Decoding Buffered Msgpack

/-! ## Lengths -/

theorem length_encodeUint64 (v : UInt64) : (encodeUint64 v).length = Node.encodedInt v.toNat := by
  have h127 : v ≤ 127 ↔ (v.toNat : Int) ≤ 127 := by rw [UInt64.le_iff_toNat_le]; exact Int.ofNat_le.symm
  have h255 : v ≤ 0xff ↔ (v.toNat : Int) ≤ 255 := by rw [UInt64.le_iff_toNat_le]; exact Int.ofNat_le.symm
  have h65535 : v ≤ 0xffff ↔ (v.toNat : Int) ≤ 65535 := by
    rw [UInt64.le_iff_toNat_le]; exact Int.ofNat_le.symm
  have h4294967295 : v ≤ 0xffffffff ↔ (v.toNat : Int) ≤ 4294967295 := by
    rw [UInt64.le_iff_toNat_le]; exact Int.ofNat_le.symm
  rw [encodeUint64, Node.encodedInt, if_pos (Int.natCast_nonneg _)]
  simp only [h127, h255, h65535, h4294967295]
  split_ifs <;> simp [Coder.length_write]

theorem length_encodeInt64 (v : Int64) : (encodeInt64 v).length = Node.encodedInt v.toInt := by
  have h0 : v ≥ 0 ↔ 0 ≤ v.toInt := Int64.le_iff_toInt_le
  have h32 : v ≥ -32 ↔ -32 ≤ v.toInt := Int64.le_iff_toInt_le
  have h128 : v ≥ -128 ↔ -128 ≤ v.toInt := Int64.le_iff_toInt_le
  have h32768 : v ≥ -32768 ↔ -32768 ≤ v.toInt := Int64.le_iff_toInt_le
  have h2147483648 : v ≥ -2147483648 ↔ -2147483648 ≤ v.toInt := Int64.le_iff_toInt_le
  rw [encodeInt64]
  simp only [h0, h32, h128, h32768, h2147483648]
  by_cases hv : 0 ≤ v.toInt
  · have htoNat : (v.toUInt64.toNat : Int) = v.toInt := by
      have hmod := toInt_eq_bmod v
      have hlt := v.toUInt64.toNat_lt
      rw [Int.bmod_def] at hmod
      omega
    rw [if_pos hv, length_encodeUint64, htoNat]
  · rw [if_neg hv, Node.encodedInt, if_neg hv]
    split_ifs <;> simp [Coder.length_write]

theorem length_encodeString (v : Bytes) : (encodeString v).length = encodedString v.length := by
  rw [encodeString, encodeStrLen, List.length_append, encodedString]
  split_ifs <;> simp [Coder.length_write]

theorem length_encodeBytes (v : Bytes) : (encodeBytes (some v)).length = Node.encodedBytes v.length := by
  rw [encodeBytes, encodeBytesLen, List.length_append, Node.encodedBytes]
  split_ifs <;> simp [Coder.length_write]

theorem length_encodeArrayLen (l : Nat) : (encodeArrayLen l).length = encodedArray l := by
  rw [encodeArrayLen, encodedArray]
  split_ifs <;> simp [Coder.length_write]

/-! ## Structs -/

/-- The empty slices of an entry that may be nil: a collection hash that the driver has read. -/
def stored (nilHash : Bool) : Nils := ⟨false, false, false, nilHash, false, false, false⟩

theorem length_byteSlice (v : Bytes) : ((byteSlice false).encode v).length = Node.encodedBytes v.length :=
  length_encodeBytes v

theorem length_hash (nilHash : Bool) (h : Bytes) :
    ((byteSlice nilHash).encode h).length = Node.encodedHash nilHash h := by
  change (encodeBytes (orNil nilHash h)).length = _
  rw [orNil, Node.encodedHash]
  split_ifs
  · rfl
  · exact length_encodeBytes h

theorem length_links (nilHash : Bool) (l : List Bytes) :
    ((links (stored nilHash) false).encode l).length = Node.encodedList l := by
  change (encodeArrayLen l.length ++ l.flatMap fun i => (byteSlice false).encode i).length = _
  rw [List.length_append, length_encodeArrayLen, List.length_flatMap, Node.encodedList]
  simp only [length_byteSlice]

/-- The length of the names of the fields of a struct. -/
def lengthNames (names : List String) : Nat := (names.map fun n => (encodeString (utf8 n)).length).sum

theorem length_struct {σ : Type} (fields : List (StructField σ)) (s : σ) :
    (encodeStruct fields s).length = (encodeMapLen fields.length).length +
      (lengthNames (fields.map StructField.name) + (fields.map fun f => (f.encode s).length).sum) := by
  rw [encodeStruct, List.length_append, List.length_flatMap, lengthNames, List.map_map, ← List.sum_map_add]
  simp only [List.length_append]
  rfl

theorem length_address (a : Address) : ((address false).encode a).length = Node.encodedAddress a := by
  have hnames : lengthNames ["Raw", "Encoded"] = 12 := by decide
  refine (length_struct (addressFields false) a).trans ?_
  change 1 + (lengthNames ["Raw", "Encoded"] + [((byteSlice false).encode a.raw).length,
    (encodeString a.encoded).length].sum) = _
  rw [hnames, length_byteSlice, length_encodeString, Node.encodedAddress]
  simp only [Node.encodedName, List.sum_cons, List.sum_nil]
  omega

theorem length_entry (nilHash : Bool) (e : Entry) :
    ((entry (stored nilHash)).encode e).length = Node.encodedEntry nilHash e := by
  have hnames : lengthNames ["Address", "Name", "Desc", "PublicAddress", "PublicKey", "PostCount", "Updated",
    "Signature", "CollectionHash", "Port", "Seeds", "Seeding", "Seen"] = 109 := by decide
  refine (length_struct (entryFields (stored nilHash)) e).trans ?_
  change 1 + (lengthNames ["Address", "Name", "Desc", "PublicAddress", "PublicKey", "PostCount", "Updated",
    "Signature", "CollectionHash", "Port", "Seeds", "Seeding", "Seen"] +
    [((address false).encode e.address).length, (encodeString e.name).length, (encodeString e.desc).length,
      (encodeString e.publicAddress).length, ((byteSlice false).encode e.publicKey).length,
      (encodeInt64 e.postCount).length, (encodeUint64 e.updated).length,
      ((byteSlice false).encode e.signature).length, ((byteSlice nilHash).encode e.collectionHash).length,
      (encodeInt64 e.port).length, ((links (stored nilHash) false).encode e.seeds).length,
      ((links (stored nilHash) false).encode e.seeding).length, (encodeInt64 e.seen).length].sum) = _
  rw [hnames, length_address, length_encodeString, length_encodeString, length_encodeString, length_byteSlice,
    length_encodeInt64, length_encodeUint64, length_byteSlice, length_hash, length_encodeInt64, length_links,
    length_links, length_encodeInt64, Node.encodedEntry]
  simp only [Node.encodedName, List.sum_cons, List.sum_nil]
  omega

theorem length_entries (nilHash : Bool) (pairs : List (Option Entry)) :
    ((entries (stored nilHash) false).encode pairs).length = Node.encodedEntries nilHash pairs := by
  change (encodeArrayLen pairs.length ++ pairs.flatMap
    (Coder.ptr (entry (stored nilHash)) zeroEntry).encode).length = _
  have helem : ∀ i : Option Entry, ((Coder.ptr (entry (stored nilHash)) zeroEntry).encode i).length =
      i.elim 1 (Node.encodedEntry nilHash) := by
    rintro (_ | e)
    · rfl
    · exact length_entry nilHash e
  rw [List.length_append, length_encodeArrayLen, List.length_flatMap, Node.encodedEntries]
  simp only [helem]

/-! ## Replies -/

/-- The reply of `HandleFindClosest`. -/
def entriesReply (nilHash : Bool) (pairs : List (Option Entry)) : Message :=
  ⟨utf8 Node.protoDhtEntries, none, [], some ((entries (stored nilHash) false).encode pairs)⟩

theorem length_entriesReply (nilHash : Bool) (pairs : List (Option Entry)) :
    (message.encode (entriesReply nilHash pairs)).length =
      (Node.entriesMessage nilHash pairs).encodedLength := by
  have hnames : lengthNames ["Header", "Stream", "Client", "From", "Compression", "Content"] = 46 := by decide
  have hheader : (encodeString (utf8 Node.protoDhtEntries)).length = 12 := by decide
  have hsize : encodedString Node.protoDhtEntries.utf8ByteSize = 12 := by decide
  refine (length_struct messageFields (entriesReply nilHash pairs)).trans ?_
  change 1 + (lengthNames ["Header", "Stream", "Client", "From", "Compression", "Content"] +
    [(encodeString (utf8 Node.protoDhtEntries)).length, 1, 1, 1, 1,
      (encodeBytes (some ((entries (stored nilHash) false).encode pairs))).length].sum) = _
  rw [hnames, hheader, length_encodeBytes, length_entries, Proto.Message.encodedLength, Node.entriesMessage]
  simp only [Node.encodedName, List.sum_cons, List.sum_nil, hsize]
  omega

/-- What the client gets out of the bytes of a reply below `MaxMessageSize` is what it gets in the model of replies,
which knows their lengths only, with one of the two errors for a content that is cut. -/
theorem findClosestReply_eq (codec : Codec) (parts : (asked got : Nat) → Bool) (broken : String) {nilHash : Bool}
    {pairs : List (Option Entry)} {pieces : List Bytes} {tail : Bytes} (hpieces : ∀ c ∈ pieces, c ≠ [])
    (hbytes : pieces.flatten = message.encode (entriesReply nilHash pairs) ++ tail)
    (hlen : (Node.entriesMessage nilHash pairs).encodedLength < maxMessageSize) :
    ∃ cut ∈ cutErrors, findClosestReply parts broken pieces =
      Node.clientFindClosest (Node.receiveEntries codec nilHash cut pairs) := by
  have hwire : (message.encode (entriesReply nilHash pairs)).length < maxMessageSize :=
    (length_entriesReply nilHash pairs).trans_lt hlen
  have hready : Ready (newClient pieces) (message.encode (entriesReply nilHash pairs) ++ tail) :=
    hbytes ▸ ready_newClient hpieces
  have hread := (readMessage_ready hready hwire (outcome_message (hwire.trans (by decide)))).1
  have hreads : Talk.reads codec (Node.entriesMessage nilHash pairs) = true := by
    rw [Talk.reads, decide_eq_true hlen.le, Bool.true_or]
  have hwrite : (entriesReply nilHash pairs).content =
      Message.write (k := .entries) (stored nilHash) false pairs := rfl
  have hlength : ((Kind.coder (stored nilHash) false .entries).encode pairs).length =
      Node.encodedEntries nilHash pairs := length_entries nilHash pairs
  rw [findClosestReply, hread]
  simp only [Node.receiveEntries, if_pos hreads, Node.clientFindClosest]
  rcases Nat.lt_or_ge Node.maxMessageContentSize (Node.encodedEntries nilHash pairs) with hlt | hle
  · have hle := length_content_le hwrite
    obtain ⟨err, herr, hcut⟩ := content_cut parts hwrite (hle.trans_lt (hwire.trans (by decide)))
      (hlength ▸ hlt)
    refine ⟨err, herr, hcut.trans ?_⟩
    rw [if_neg (not_le.mpr hlt)]
    rfl
  · refine ⟨"EOF", .head _, (content_read hwrite (hlength ▸ hle)).trans ?_⟩
    rw [if_pos hle]
    rfl

/-- A reply with the entries of two peers, and a nil. -/
def popularPairs (seeds : List Bytes) : List (Option Entry) :=
  [some (Node.popularEntry seeds 1), none, some (Node.popularEntry seeds 2)]

/-- Its bytes. -/
def popularReply (seeds : List Bytes) : Bytes := message.encode (entriesReply false (popularPairs seeds))

theorem length_popularPairs {seeds : List Bytes} (hseeds : seeds.length ≤ maxEntrySeeds)
    (hbytes : ∀ i ∈ seeds, i.length = 20) :
    Node.encodedEntries false (popularPairs seeds) = 522 + 2 * Node.linksLength seeds.length := by
  have harray : encodedArray 3 = 1 := by decide
  have hserved : ∀ e, some e ∈ popularPairs seeds → Node.ReplyEntry .sample e := by
    intro e he
    simp only [popularPairs, List.mem_cons, Option.some.injEq, reduceCtorEq, List.not_mem_nil, or_false,
      false_or] at he
    rcases he with rfl | rfl <;> exact Node.replyEntry_popularEntry hseeds hbytes _
  rw [Node.encodedEntries_eq hserved, Node.contentLength, popularPairs]
  simp only [List.map_cons, List.map_nil, Option.elim_some, Option.elim_none, Node.fieldsLength_popularEntry,
    List.sum_cons, List.sum_nil, List.length_cons, List.length_nil, Nat.reduceAdd, harray]
  omega

/-- Two entries with a seed each arrive. With a hundred thousand seeds each, the content is beyond the limit for
contents, though the message is not beyond the one for messages, and nothing arrives. -/
theorem findClosestReply_popular : ∃ few many : List Bytes, few.length = 1 ∧ many.length = maxEntrySeeds ∧
    findClosestReply (fun _ _ => false) "" [(popularReply few).take 7, (popularReply few).drop 7] =
      .ok (popularPairs few) ∧
    ∃ err ∈ cutErrors, findClosestReply (fun _ _ => false) "" [popularReply many] = .error (.error err) := by
  obtain ⟨many, hmany, hbytes⟩ : ∃ seeds : List Bytes,
      seeds.length = maxEntrySeeds ∧ ∀ i ∈ seeds, i.length = 20 :=
    ⟨List.replicate maxEntrySeeds (Node.seedAddress 0), List.length_replicate, fun i hi => by
      rw [List.eq_of_mem_replicate hi]
      rfl⟩
  let codec : Codec := ⟨fun _ => 0, fun _ => false⟩
  refine ⟨[Node.seedAddress 3], many, rfl, hmany, ?_, ?_⟩
  · have hlength : Node.encodedEntries false (popularPairs [Node.seedAddress 3]) = _ :=
      length_popularPairs (by decide) (by decide)
    have hlen : (Node.entriesMessage false (popularPairs [Node.seedAddress 3])).encodedLength < maxMessageSize := by
      rw [Proto.Message.encodedLength, Node.entriesMessage, hlength]
      decide
    have hpieces : ∀ c ∈ [(popularReply [Node.seedAddress 3]).take 7, (popularReply [Node.seedAddress 3]).drop 7],
        c ≠ [] := by decide
    have hflat : [(popularReply [Node.seedAddress 3]).take 7, (popularReply [Node.seedAddress 3]).drop 7].flatten =
        popularReply [Node.seedAddress 3] ++ [] := by simp
    obtain ⟨cut, -, hread⟩ := findClosestReply_eq codec (fun _ _ => false) "" hpieces hflat hlen
    rw [hread, Node.receiveEntries, hlength]
    rfl
  · have hlength := length_popularPairs hmany.le hbytes
    rw [hmany] at hlength
    have hlen : (Node.entriesMessage false (popularPairs many)).encodedLength < maxMessageSize := by
      rw [Proto.Message.encodedLength, Node.entriesMessage, hlength]
      decide
    have hflat : [popularReply many].flatten = popularReply many ++ [] := by simp
    have hpieces : ∀ c ∈ [popularReply many], c ≠ [] := by
      intro c hc
      rw [List.mem_singleton.mp hc, ← List.length_pos_iff]
      exact faithful_message.pos _
    obtain ⟨cut, hcut, hread⟩ := findClosestReply_eq codec (fun _ _ => false) "" hpieces hflat hlen
    have hlt : ¬ 522 + 2 * Node.linksLength maxEntrySeeds ≤ Node.maxMessageContentSize := by decide
    refine ⟨cut, hcut, ?_⟩
    rw [hread, Node.receiveEntries, hlength, if_neg hlt]
    split_ifs <;> rfl

end Zif.Proto.Wire
