import Zif.Lib.Proofs.ChunksProofs
import Zif.Msgpack.Proofs.StructProofs
import Zif.Msgpack.Proofs.ValueProofs
import Zif.Proto.Wire

/-!
# Proofs: messages as bytes

Every struct that is sent is read back, if its encoding is shorter than 2^32 bytes. From this follow what
`Message.Read` makes of the content that `Message.Write` has made (`content_read`, `content_cut`), and that messages
are read one by one from a connection, however it cuts them (`readMessages_sent`).

No content makes `Message.Read` panic. What `ReadMessage` comes to for a message that has something in the field
`Stream` depends on the value there only (`outcome_withStream`).
-/

namespace Zif.Proto.Wire

open Go Dht Data Decoding Buffered Msgpack

/-! ## Slices that can be nil -/

section Lists

variable {α : Type} {c : Coder (Option (List α))} {isNil : Bool}

theorem getD_orNil (isNil : Bool) (l : List α) : (orNil isNil l).getD [] = l := by
  rw [orNil]
  split_ifs with h
  · rw [Bool.and_eq_true, List.isEmpty_iff] at h
    exact h.2.symm
  · rfl

theorem faithful_lists (h : c.Faithful) : (lists c isNil).Faithful where
  reads l hl old := by
    have hread := (h.reads _ hl (some old)).bind_pure (g := fun l => l.getD [])
    rwa [getD_orNil] at hread
  pos l := h.pos _

theorem safe_lists (h : c.Safe) : (lists c isNil).Safe := fun _ => (h _).bind fun _ => .pure _

end Lists

/-! ## Structs are read back -/

variable {nils : Nils} {isNil : Bool}

theorem faithful_byteSlice : (byteSlice isNil).Faithful := faithful_lists Coder.faithful_bytes

theorem names_address : Names ["Raw", "Encoded"] := by decide

theorem faithful_address : (address isNil).Faithful := by
  refine Coder.faithful_struct names_address (fun _ _ => rfl) ?_
  intro f hf
  fin_cases hf
  · exact faithful_byteSlice
  · exact Coder.faithful_string

theorem faithful_links : (links nils isNil).Faithful := faithful_lists faithful_byteSlice.slice

theorem names_entry : Names ["Address", "Name", "Desc", "PublicAddress", "PublicKey", "PostCount", "Updated",
    "Signature", "CollectionHash", "Port", "Seeds", "Seeding", "Seen"] := by decide

theorem faithful_entry : (entry nils).Faithful := by
  refine Coder.faithful_struct names_entry (fun _ _ => rfl) ?_
  intro f hf
  fin_cases hf
  · exact faithful_address
  · exact Coder.faithful_string
  · exact Coder.faithful_string
  · exact Coder.faithful_string
  · exact faithful_byteSlice
  · exact Coder.faithful_int
  · exact Coder.faithful_uint
  · exact faithful_byteSlice
  · exact faithful_byteSlice
  · exact Coder.faithful_int
  · exact faithful_links
  · exact faithful_links
  · exact Coder.faithful_int

theorem faithful_entries : (entries nils isNil).Faithful :=
  faithful_lists (faithful_entry.ptr fun e => encodeStruct_head (entryFields nils) e).slice

theorem names_post : Names ["Id", "InfoHash", "Title", "Size", "FileCount", "Seeders", "Leechers",
    "UploadDate", "Tags", "Meta"] := by decide

theorem faithful_post : (Coder.struct postFields levels Post.zero).Faithful := by
  refine Coder.faithful_struct names_post (fun _ _ => rfl) ?_
  intro f hf
  fin_cases hf
  · exact Coder.faithful_int
  · exact Coder.faithful_string
  · exact Coder.faithful_string
  · exact Coder.faithful_int
  · exact Coder.faithful_int
  · exact Coder.faithful_int
  · exact Coder.faithful_int
  · exact Coder.faithful_int
  · exact Coder.faithful_string
  · exact Coder.faithful_string

theorem faithful_posts : (posts isNil).Faithful :=
  faithful_lists (faithful_post.ptr fun p => encodeStruct_head postFields p).slice

theorem names_requestPiece : Names ["Address", "Id", "Length"] := by decide

theorem faithful_requestPiece : requestPiece.Faithful := by
  refine Coder.faithful_struct names_requestPiece (fun _ _ => rfl) ?_
  intro f hf
  fin_cases hf
  · exact Coder.faithful_string
  · exact Coder.faithful_int
  · exact Coder.faithful_int

theorem names_searchQuery : Names ["Query", "Page"] := by decide

theorem faithful_searchQuery : searchQuery.Faithful := by
  refine Coder.faithful_struct names_searchQuery (fun _ _ => rfl) ?_
  intro f hf
  fin_cases hf
  · exact Coder.faithful_string
  · exact Coder.faithful_int

theorem names_collection : Names ["Hash", "HashList", "Size", "Signature"] := by decide

theorem faithful_collection : (collection nils isNil).Faithful := by
  refine Coder.faithful_struct names_collection (fun _ _ => rfl) ?_
  intro f hf
  fin_cases hf
  · exact faithful_byteSlice
  · exact faithful_byteSlice
  · exact Coder.faithful_int
  · exact faithful_byteSlice

/-- A list of strings is read into an empty one. -/
theorem decodes_strings {l : List Bytes} (h : ((lists .strings isNil).encode l).length < 2 ^ 32) :
    Decodes ((lists .strings isNil).decode []) ((lists .strings isNil).encode l) l := by
  change (Coder.strings.encode (orNil isNil l)).length < 2 ^ 32 at h
  have hread : Decodes (Coder.strings.decode (some [])) (Coder.strings.encode (orNil isNil l)) (some l) := by
    rw [orNil] at h ⊢
    split_ifs at h ⊢ with hnil
    · obtain rfl : l = [] := List.isEmpty_iff.mp (Bool.and_eq_true_iff.mp hnil).2
      exact Decodes.code (.pure _)
    · change (encodeArrayLen l.length ++ l.flatMap Coder.string.encode).length < 2 ^ 32 at h
      rw [List.length_append] at h
      obtain ⟨hlen, helems⟩ := Coder.faithful_string.elems (l := l) (by omega)
      exact Coder.reads_strings hlen helems _
  exact hread.bind_pure

theorem decodes_capabilities {c : Capabilities} (h : ((capabilities isNil).encode c).length < 2 ^ 32) :
    Decodes ((capabilities isNil).decode ⟨[]⟩) ((capabilities isNil).encode c) c := by
  have hname : (utf8 "Compression").length < 2 ^ 32 := by decide
  refine decodes_single hname (decodes_strings (lt_of_le_of_lt ?_ h))
  refine (List.sublist_append_right (encodeString (utf8 "Compression")) _).length_le.trans ?_
  refine le_trans (le_of_eq ?_) (List.sublist_append_right (encodeMapLen 1) _).length_le
  rw [List.flatMap_cons, List.flatMap_nil, List.append_nil]
  rfl

/-! ## Nil makes no difference -/

theorem decode_address (a b : Bool) : (address a).decode = (address b).decode := by
  funext s
  refine decodeStruct_alike ?_ s
  exact .cons (Coder.alike rfl) (.cons (Coder.alike rfl) .nil)

theorem decode_lists {α : Type} {c c' : Coder (Option (List α))} (h : c.decode = c'.decode)
    (a b : Bool) : (lists c a).decode = (lists c' b).decode := by
  funext old
  simp only [lists, h]

theorem decode_links (nils nils' : Nils) (a b : Bool) : (links nils a).decode = (links nils' b).decode := by
  have h : (byteSlice nils.links).decode = (byteSlice nils'.links).decode := rfl
  exact decode_lists (Coder.slice_alike h) a b

theorem decode_entry (nils nils' : Nils) : (entry nils).decode = (entry nils').decode := by
  funext s
  refine decodeStruct_alike ?_ s
  refine .cons (Coder.alike (decode_address _ _)) ?_
  refine .cons (Coder.alike rfl) (.cons (Coder.alike rfl) (.cons (Coder.alike rfl) ?_))
  refine .cons (Coder.alike rfl) (.cons (Coder.alike rfl) (.cons (Coder.alike rfl) ?_))
  refine .cons (Coder.alike rfl) (.cons (Coder.alike rfl) (.cons (Coder.alike rfl) ?_))
  refine .cons (Coder.alike (decode_links nils nils' _ _)) ?_
  exact .cons (Coder.alike (decode_links nils nils' _ _)) (.cons (Coder.alike rfl) .nil)

theorem decode_kind (nils nils' : Nils) (a b : Bool) (k : Kind) :
    (k.coder nils a).decode = (k.coder nils' b).decode := by
  cases k with
  | address => exact decode_address _ _
  | entry => exact decode_entry nils nils'
  | entries => exact decode_lists (Coder.slice_alike (Coder.ptr_alike (decode_entry nils nils'))) a b
  | capabilities =>
    funext s
    refine decodeStruct_alike ?_ s
    exact .cons (Coder.alike (decode_lists rfl a b)) .nil
  | posts => exact decode_lists rfl a b
  | requestPiece => rfl
  | searchQuery => rfl
  | page => rfl
  | collection =>
    funext s
    refine decodeStruct_alike ?_ s
    exact .cons (Coder.alike rfl) (.cons (Coder.alike rfl) (.cons (Coder.alike rfl) (.cons (Coder.alike rfl) .nil)))
  | byteArray n => rfl
  | text => rfl

/-! ## Contents -/

theorem decodes_kind (k : Kind) (v : k.type) (h : ((k.coder nils isNil).encode v).length < 2 ^ 32) :
    Decodes ((k.coder .none false).decode k.zero) ((k.coder nils isNil).encode v) v := by
  rw [decode_kind .none nils false isNil]
  cases k with
  | address => exact faithful_address.reads v h _
  | entry => exact faithful_entry.reads v h _
  | entries => exact faithful_entries.reads v h _
  | capabilities => exact decodes_capabilities h
  | posts => exact faithful_posts.reads v h _
  | requestPiece => exact faithful_requestPiece.reads v h _
  | searchQuery => exact faithful_searchQuery.reads v h _
  | page => exact Coder.reads_int v _
  | collection => exact faithful_collection.reads v h _
  | byteArray n => exact (Coder.faithful_byteArray n).reads v h _
  | text => exact Coder.faithful_string.reads v h _

theorem safe_address : (address isNil).Safe := by
  refine Coder.safe_struct fun f hf => ?_
  fin_cases hf
  · exact safe_lists Coder.safe_bytes
  · exact Coder.safe_string

theorem safe_links : (links nils isNil).Safe := safe_lists (safe_lists Coder.safe_bytes).slice

theorem safe_entry : (entry nils).Safe := by
  refine Coder.safe_struct fun f hf => ?_
  fin_cases hf
  · exact safe_address
  · exact Coder.safe_string
  · exact Coder.safe_string
  · exact Coder.safe_string
  · exact safe_lists Coder.safe_bytes
  · exact Coder.safe_int
  · exact Coder.safe_uint
  · exact safe_lists Coder.safe_bytes
  · exact safe_lists Coder.safe_bytes
  · exact Coder.safe_int
  · exact safe_links
  · exact safe_links
  · exact Coder.safe_int

theorem safe_post : (Coder.struct postFields levels Post.zero).Safe := by
  refine Coder.safe_struct fun f hf => ?_
  fin_cases hf <;> first | exact Coder.safe_int | exact Coder.safe_string

theorem safe_kind (k : Kind) : (k.coder nils isNil).Safe := by
  cases k with
  | address => exact safe_address
  | entry => exact safe_entry
  | entries => exact safe_lists safe_entry.ptr.slice
  | capabilities =>
    refine Coder.safe_struct fun f hf => ?_
    fin_cases hf
    exact safe_lists Coder.safe_strings
  | posts => exact safe_lists safe_post.ptr.slice
  | requestPiece =>
    refine Coder.safe_struct fun f hf => ?_
    fin_cases hf <;> first | exact Coder.safe_int | exact Coder.safe_string
  | searchQuery =>
    refine Coder.safe_struct fun f hf => ?_
    fin_cases hf <;> first | exact Coder.safe_int | exact Coder.safe_string
  | page => exact Coder.safe_int
  | collection =>
    refine Coder.safe_struct fun f hf => ?_
    fin_cases hf <;> first | exact Coder.safe_int | exact safe_lists Coder.safe_bytes
  | byteArray n => exact Coder.safe_byteArray n
  | text => exact Coder.safe_string

variable {parts : (asked got : Nat) → Bool} {k : Kind} {m : Message} {v : k.type}

/-- A content within the limit is what was written. -/
theorem content_read (hm : m.content = Message.write nils isNil v)
    (hle : ((k.coder nils isNil).encode v).length ≤ Node.maxMessageContentSize) : m.read parts k = .ok v := by
  have hall := decodes_kind k v (hle.trans_lt (by decide)) []
  rw [List.append_nil] at hall
  rw [Message.read, hm, Message.write]
  simp only [List.take_of_length_le hle, hall]

/-- The errors of input that is too short. -/
def cutErrors : List String := ["EOF", "unexpected EOF"]

theorem cutError_mem (request : Nat × Nat) : Message.cutError parts request ∈ cutErrors := by
  unfold Message.cutError
  split_ifs
  · exact .head _
  · exact .tail _ (.head _)

/-- A content beyond the limit is cut, and too short then. -/
theorem content_cut (parts : (asked got : Nat) → Bool) (hm : m.content = Message.write nils isNil v)
    (h : ((k.coder nils isNil).encode v).length < 2 ^ 32)
    (hlt : Node.maxMessageContentSize < ((k.coder nils isNil).encode v).length) :
    ∃ err ∈ cutErrors, m.read parts k = .error (.error err) := by
  have hnone := (decodes_kind k v h).take hlt
  have hread : m.read parts k = .error (.error (Message.cutError parts
      (((k.coder .none false).decode k.zero).run.lacking
        (((k.coder nils isNil).encode v).take Node.maxMessageContentSize)))) := by
    rw [Message.read, hm, Message.write]
    simp only [hnone]
  exact ⟨_, cutError_mem _, hread⟩

/-- Whatever another node sends as a content, reading it does not panic. -/
theorem read_ne_panic (parts : (asked got : Nat) → Bool) (m : Message) (k : Kind) :
    m.read parts k ≠ .error .panic := by
  intro h
  rw [Message.read] at h
  cases hcontent : m.content with
  | none =>
    rw [hcontent] at h
    cases h
  | some b =>
    rw [hcontent] at h
    cases ho : outcome ((k.coder .none false).decode k.zero) (b.take Node.maxMessageContentSize) with
    | none =>
      simp only [ho] at h
      cases h
    | some r =>
      obtain ⟨r, rest⟩ := r
      simp only [ho] at h
      exact safe_kind k k.zero _ rest (h ▸ ho)

/-! ## Messages -/

theorem exists_levels : ∃ n, levels = n + 1 := ⟨maxMessageSize + 4095, rfl⟩

theorem faithful_stream : stream.Faithful where
  reads _ _ _ := by
    obtain ⟨n, hn⟩ := exists_levels
    change Decodes (decodeInterface levels >>= assignStream) encodeNil ()
    rw [hn]
    exact decodes_interface_nil.bind (.pure ())
  pos _ := Nat.one_pos

theorem names_client : Names [] := by decide

theorem faithful_client : client.Faithful :=
  Coder.Faithful.ptr (Coder.faithful_struct names_client (fun _ _ => rfl) fun f hf => by cases hf)
    fun _ => encodeStruct_head [] ()

theorem names_message : Names ["Header", "Stream", "Client", "From", "Compression", "Content"] := by decide

theorem faithful_message : message.Faithful := by
  refine Coder.faithful_struct names_message (fun _ _ => rfl) ?_
  intro f hf
  fin_cases hf
  · exact Coder.faithful_string
  · exact faithful_stream
  · exact faithful_client
  · exact faithful_address.ptr fun a => encodeStruct_head (addressFields false) a
  · exact Coder.faithful_string
  · exact Coder.faithful_bytes

/-- Between two messages: the limit is as it was set, and no read of the connection gives nothing. -/
structure Ready (cl : Reader UInt8) (bytes : Bytes) : Prop where
  all : cl.all = bytes
  left : cl.left = maxMessageSize
  solid : cl.Solid

theorem ready_newClient {pieces : List Bytes} (h : ∀ c ∈ pieces, c ≠ []) :
    Ready (newClient pieces) pieces.flatten :=
  ⟨rfl, rfl, h⟩

/-- How decoding ends does not depend on how the bytes arrive. -/
theorem readMessage_ready {cl : Reader UInt8} {bytes tail : Bytes} {r : Result Message}
    (h : Ready cl (bytes ++ tail)) (hlen : bytes.length < maxMessageSize)
    (hon : outcome (message.decode zeroMessage) bytes = some (r, rest)) :
    (readMessage cl).1 = some r ∧ Ready (readMessage cl).2 (rest ++ tail) := by
  have hall := Parse.on_append hon tail
  rw [← h.all] at hall
  have hallowed : cl.all.length < (rest ++ tail).length + cl.allowed := by
    rw [h.all, List.length_append, List.length_append, Reader.allowed, h.left]
    omega
  obtain ⟨cl', hrun, hcl', hsolid⟩ := Reader.run_complete h.solid (by decide : 0 < bufferSize) hall hallowed
  rw [readMessage, hrun]
  exact ⟨rfl, hcl', rfl, hsolid⟩

theorem outcome_message {m : Message} (h : (message.encode m).length < 2 ^ 32) :
    outcome (message.decode zeroMessage) (message.encode m) = some (.ok m, []) := by
  have hread := faithful_message.reads m h zeroMessage []
  rwa [List.append_nil] at hread

/-- Messages that are sent one after the other are read one after the other, however the connection cuts
or joins them, and what follows them is still to be read. -/
theorem readMessages_sent {ms : List Message} {pieces : List Bytes} {tail : Bytes}
    (hpieces : ∀ c ∈ pieces, c ≠ []) (hbytes : pieces.flatten = ms.flatMap message.encode ++ tail)
    (hlen : ∀ m ∈ ms, (message.encode m).length < maxMessageSize) :
    (readMessages ms.length (newClient pieces)).1 = ms.map (fun m => some (.ok m)) ∧
      (readMessages ms.length (newClient pieces)).2.all = tail := by
  have hready : Ready (newClient pieces) (ms.flatMap message.encode ++ tail) :=
    hbytes ▸ ready_newClient hpieces
  generalize newClient pieces = cl at hready
  clear hbytes hpieces
  induction ms generalizing cl with
  | nil => exact ⟨rfl, hready.all⟩
  | cons m ms ih =>
    have hm := hlen m (.head ms)
    rw [List.flatMap_cons, List.append_assoc] at hready
    obtain ⟨hread, hnext⟩ := readMessage_ready hready hm (outcome_message (hm.trans (by decide)))
    obtain ⟨hms, hrest⟩ := ih (fun m' hm' => hlen m' (.tail m hm')) (readMessage cl).2 hnext
    rw [List.length_cons, readMessages, List.map_cons]
    exact ⟨by rw [hread, hms], hrest⟩

theorem length_content_le {m : Message} {b : Bytes} (hm : m.content = some b) :
    b.length ≤ (message.encode m).length := by
  have hmem : encodeString (utf8 "Content") ++ encodeBytes m.content ∈ messageFields.map fun f =>
      encodeString f.key ++ f.encode m :=
    .tail _ (.tail _ (.tail _ (.tail _ (.tail _ (.head _)))))
  have hsub : List.Sublist (encodeBytes m.content) (message.encode m) :=
    ((List.sublist_append_right _ _).trans (List.sublist_flatten_of_mem hmem)).trans
      (List.sublist_append_right _ _)
  refine le_trans ?_ hsub.length_le
  rw [hm]
  change _ ≤ (encodeBytesLen _ ++ _).length
  rw [List.length_append]
  exact Nat.le_add_left _ _

/-- What a node that has got the message reads: the value, if it is within the limit, and an error otherwise. -/
structure Sent.Read (parts : (asked got : Nat) → Bool) (s : Sent) : Prop where
  empty : s.content = none → ∀ k, s.message.read parts k = .error (.error "Message has no content")
  value : ∀ c, s.content = some c → c.encode.length ≤ Node.maxMessageContentSize →
    s.message.read parts c.kind = .ok c.value
  cut : ∀ c, s.content = some c → Node.maxMessageContentSize < c.encode.length →
    ∃ err ∈ cutErrors, s.message.read parts c.kind = .error (.error err)

theorem content_message {s : Sent} {c : Content} (hc : s.content = some c) :
    s.message.content = Message.write c.nils c.isNil c.value := by
  rw [Sent.message, hc]
  rfl

theorem read_of_length {s : Sent} (hlen : (message.encode s.message).length < maxMessageSize) :
    s.Read parts where
  empty hnone k := by
    rw [Message.read, Sent.message, hnone]
    rfl
  value c hc hle := content_read (content_message hc) hle
  cut c hc hlt := by
    have hle : c.encode.length ≤ _ := length_content_le (content_message hc)
    exact content_cut parts (content_message hc) (hle.trans_lt (hlen.trans (by decide))) hlt

/-- Whatever a node sends on a connection arrives: the messages one by one and as they are, however the
connection cuts or joins them, if each is shorter than `MaxMessageSize`. Their contents are the values that were
sent, except for those that are beyond the limit, which are refused. -/
theorem sent_received (parts : (asked got : Nat) → Bool) {ss : List Sent} {pieces : List Bytes} {tail : Bytes}
    (hpieces : ∀ c ∈ pieces, c ≠ [])
    (hbytes : pieces.flatten = ss.flatMap (fun s => message.encode s.message) ++ tail)
    (hlen : ∀ s ∈ ss, (message.encode s.message).length < maxMessageSize) :
    (readMessages ss.length (newClient pieces)).1 = ss.map (fun s => some (.ok s.message)) ∧
      (readMessages ss.length (newClient pieces)).2.all = tail ∧ ∀ s ∈ ss, s.Read parts := by
  have hmap : ss.flatMap (fun s => message.encode s.message) = (ss.map Sent.message).flatMap message.encode :=
    (List.flatMap_map Sent.message message.encode ss).symm
  obtain ⟨hread, hrest⟩ := readMessages_sent hpieces (hbytes.trans (by rw [hmap])) fun m hm => by
    obtain ⟨s, hs, rfl⟩ := List.mem_map.mp hm
    exact hlen s hs
  rw [List.length_map, List.map_map] at hread
  rw [List.length_map] at hrest
  exact ⟨hread, hrest, fun s hs => read_of_length (hlen s hs)⟩

/-- A request for the entry of an address. -/
def sampleQuery : Sent :=
  ⟨utf8 "dht.query", some ⟨.address, (⟨[1, 2, 3], []⟩ : Address), .none, false⟩⟩

/-- A message without a content. -/
def sampleOk : Sent := ⟨utf8 "ok", none⟩

/-- Cookies of 20 bytes are sent as slices; this one has two bytes. -/
def sampleCookie : Sent := ⟨utf8 "cookie", some ⟨.byteArray 2, (#v[7, 8] : Vector UInt8 2), .none, false⟩⟩

/-- Three messages that arrive cut in the middle of the first. -/
def sampleBytes : Bytes := [sampleQuery, sampleOk, sampleCookie].flatMap fun s => message.encode s.message

theorem sent_received_cut :
    (readMessages 3 (newClient [sampleBytes.take 10, sampleBytes.drop 10])).1 =
        [some (.ok sampleQuery.message), some (.ok sampleOk.message), some (.ok sampleCookie.message)] ∧
      sampleQuery.message.read (fun _ _ => false) .address = .ok (⟨[1, 2, 3], []⟩ : Address) ∧
      sampleCookie.message.read (fun _ _ => false) (.byteArray 2) = .ok (#v[7, 8] : Vector UInt8 2) := by
  have hcut : ∀ c ∈ [sampleBytes.take 10, sampleBytes.drop 10], c ≠ [] := by decide
  have hbytes : [sampleBytes.take 10, sampleBytes.drop 10].flatten =
      [sampleQuery, sampleOk, sampleCookie].flatMap (fun s => message.encode s.message) ++ [] := by
    simp [sampleBytes]
  have hall : ∀ s ∈ [sampleQuery, sampleOk, sampleCookie],
      (message.encode s.message).length < maxMessageSize := by decide
  obtain ⟨hread, -, hcontent⟩ := sent_received (fun _ _ => false) hcut hbytes hall
  exact ⟨hread, (hcontent sampleQuery (.head _)).value _ rfl (by decide),
    (hcontent sampleCookie (.tail _ (.tail _ (.head _)))).value _ rfl (by decide)⟩

/-! ## What is in the field `Stream` -/

/-- What comes of a value in the field `Stream`, and after it: nothing is assigned for nil, and for no other value
can it be. -/
def streamResult {α : Type} (v : Value) (after : α) : Result α :=
  v.load >>= fun a => if a = .nil then .ok after else .error .panic

theorem comes_assignStream (a : AnyValue) :
    Comes (assignStream a) [] (if a = .nil then .ok () else .error .panic) := by
  cases a with
  | nil => exact (Decodes.pure ()).comes
  | hashable => exact fun rest => ⟨rest, rfl, fun _ h => by cases h⟩
  | unhashable => exact fun rest => ⟨rest, rfl, fun _ h => by cases h⟩

theorem comes_stream {v : Value} (hlen : v.encode.length ≤ maxMessageSize) :
    Comes (stream.decode ()) v.encode (streamResult v ()) := by
  have hlevels : maxMessageSize ≤ levels := Nat.le_add_right _ _
  have hload := v.comes_value levels (v.height_le_length.trans (hlen.trans hlevels)) (hlen.trans_lt (by decide))
  have hassign := hload.bind fun a _ => comes_assignStream a
  rwa [List.append_nil] at hassign

/-- It is a fault for all values but nil. -/
theorem streamResult_of_ne_nil {v : Value} (hv : v ≠ .nil) :
    ∃ e, ∀ {α : Type} (after : α), streamResult v after = .error e := by
  cases hload : v.load with
  | error e => exact ⟨e, fun after => by rw [streamResult, hload]; rfl⟩
  | ok a =>
    have ha : a ≠ .nil := fun hnil => hv ((Value.load_nil_iff v).mp (hnil ▸ hload))
    refine ⟨.panic, fun after => ?_⟩
    rw [streamResult, hload]
    exact if_neg ha

theorem encodeWithStream_nil (m : Message) : encodeWithStream .nil m = message.encode m := by
  refine congrArg (encodeMapLen _ ++ ·) (List.flatMap_congr fun f hf => ?_)
  fin_cases hf <;> rfl

theorem encodeWithStream_eq (v : Value) (m : Message) :
    ∃ others, encodeWithStream v m =
      encodeMapLen 6 ++ (encodeString headerField.key ++ (encodeString m.header ++
        (encodeString streamField.key ++ (v.encode ++ others)))) := by
  refine ⟨(messageFields.drop 2).flatMap fun f =>
    encodeString f.key ++ if f.name = "Stream" then v.encode else f.encode m, ?_⟩
  rw [← List.append_assoc (encodeString streamField.key), ← List.append_assoc (encodeString headerField.key)]
  rfl

/-- Decoding goes no further than the field `Stream`. -/
theorem outcome_withStream {v : Value} {e : Fault} (he : streamResult v () = .error e) (m : Message)
    (hlen : (encodeWithStream v m).length < maxMessageSize) :
    ∃ rest, outcome (message.decode zeroMessage) (encodeWithStream v m) = some (.error e, rest) := by
  obtain ⟨others, heq⟩ := encodeWithStream_eq v m
  rw [heq] at hlen ⊢
  simp only [List.length_append] at hlen
  have hstruct := decodes_structLen (decodes_encodeMapLen (l := 6) (by decide))
  have hnames : Names (messageFields.map StructField.name) := names_message
  have hheader : headerField.coder.Reads (headerField.get m) := by
    refine Coder.faithful_string.reads m.header (lt_of_lt_of_le (b := maxMessageSize) ?_ (by decide))
    change (encodeString m.header).length < maxMessageSize
    omega
  obtain ⟨rest, hstream, -⟩ := comes_stream (v := v) (by omega) others
  rw [he] at hstream
  refine ⟨rest, ?_⟩
  calc outcome (message.decode zeroMessage) _
      = outcome (decodeMapFields messageFields levels 6 zeroMessage) _ := outcome_bind_ok (hstruct _)
    _ = outcome (headerField.decode zeroMessage >>= decodeMapFields messageFields levels 5) _ :=
        outcome_mapFields levels hnames (.head _) 5 zeroMessage _
    _ = outcome (decodeMapFields messageFields levels 5 _) _ :=
        outcome_bind_ok (StructField.decodes hheader zeroMessage _)
    _ = outcome (streamField.decode _ >>= decodeMapFields messageFields levels 4) _ :=
        outcome_mapFields levels hnames (.tail _ (.head _)) 4 _ _
    _ = some (.error e, rest) := outcome_bind_error (outcome_bind_error hstream)

/-- What `ReadMessage` comes to for a message with any value in the field `Stream`: the message for nil, the error
of an extension that decoding the value gets to, and otherwise a panic. Without an extension in it, the value makes
`ReadMessage` panic exactly if it is not nil. -/
theorem readMessage_stream {v : Value} {m : Message} {pieces : List Bytes} {tail : Bytes}
    (hpieces : ∀ c ∈ pieces, c ≠ []) (hbytes : pieces.flatten = encodeWithStream v m ++ tail)
    (hlen : (encodeWithStream v m).length < maxMessageSize) :
    (readMessage (newClient pieces)).1 = some (streamResult v m) ∧
      (v.Plain → ((readMessage (newClient pieces)).1 = some (.error .panic) ↔ v ≠ .nil)) := by
  have hready : Ready (newClient pieces) (encodeWithStream v m ++ tail) :=
    hbytes ▸ ready_newClient hpieces
  have hread : (readMessage (newClient pieces)).1 = some (streamResult v m) := by
    by_cases hv : v = .nil
    · subst hv
      rw [encodeWithStream_nil] at hready hlen
      exact (readMessage_ready hready hlen (outcome_message (hlen.trans (by decide)))).1
    · obtain ⟨e, he⟩ := streamResult_of_ne_nil hv
      obtain ⟨rest, hfault⟩ := outcome_withStream (he ()) m hlen
      rw [he m]
      exact (readMessage_ready hready hlen hfault).1
  refine ⟨hread, fun hplain => ?_⟩
  rw [hread, Option.some.injEq]
  constructor
  · rintro hpanic rfl
    cases hpanic
  · intro hv
    obtain ⟨e, he⟩ := streamResult_of_ne_nil hv
    have herrorless : Value.Errorless (streamResult v m) := by
      refine (Value.Plain.load v hplain).bind fun a msg h => ?_
      split_ifs at h
      cases h
    cases e with
    | panic => exact he m
    | error msg => exact absurd (he m) (herrorless msg)

/-- A string, which makes `ReadMessage` panic, and an extension, which does not. -/
theorem readMessage_stream_string :
    (readMessage (newClient [encodeWithStream (.str []) zeroMessage])).1 = some (.error .panic) ∧
      (readMessage (newClient [encodeWithStream (.array [.ext 5 [1]]) zeroMessage])).1 =
        some (.error (.error "msgpack: unregistered ext id 5")) := by
  have hstr : (encodeWithStream (.str []) zeroMessage).length < maxMessageSize := by decide
  have hext : (encodeWithStream (.array [.ext 5 [1]]) zeroMessage).length < maxMessageSize := by decide
  have hpieces : ∀ c ∈ [encodeWithStream (.str []) zeroMessage], c ≠ [] := by decide
  have hpieces' : ∀ c ∈ [encodeWithStream (.array [.ext 5 [1]]) zeroMessage], c ≠ [] := by decide
  have hne : Value.str [] ≠ .nil := fun h => by cases h
  exact ⟨((readMessage_stream hpieces (List.append_nil _).symm hstr).2 trivial).mpr hne,
    (readMessage_stream hpieces' (List.append_nil _).symm hext).1⟩

end Zif.Proto.Wire
