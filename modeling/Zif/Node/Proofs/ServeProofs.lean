import Zif.Lib.Proofs.CallProofs
import Zif.Node.Serve
import Zif.Proto.Proofs.WireLengthProofs

/-!
# Proofs: serving requests

Contents within the limit of `Message.Read` make messages within that of a client (`Small.fits`), so what
one side sends the other reads (`new_read`). Each request is routed to its handler (`route_message`), and
the first message that the handler writes is what the client makes its answer of (`handle_eq`).
-/

namespace Zif.Proto.Wire

open Go Msgpack

/-! ## Messages that are read -/

namespace Message

variable {m : Message} {style : Style} {parts : (asked got : Nat) → Bool} {header : String} {k : Kind} {v : k.type}

/-- What the messages of requests and replies have in common. -/
structure Short (m : Message) : Prop where
  header : m.header.length < 32
  sender : m.sender = none
  compression : m.compression = []

theorem short_bare (h : (utf8 header).length < 32) : (bare header).Short := ⟨h, rfl, rfl⟩

theorem short_new (h : (utf8 header).length < 32) : (new style header k v).Short := ⟨h, rfl, rfl⟩

theorem small_bare : (bare header).Small := by
  intro b hb
  cases hb

theorem length_small_le (h : m.Small) :
    (encodeBytes m.content).length ≤ Node.maxMessageContentSize + 5 := by
  cases hcontent : m.content with
  | none => exact (by decide : 1 ≤ Node.maxMessageContentSize + 5)
  | some b =>
    have hb := h b hcontent
    rw [length_encodeBytes, Node.encodedBytes]
    split_ifs <;> omega

/-- The rest of a message takes little room. -/
theorem Small.fits (h : m.Small) (hshort : m.Short) : m.Fits := by
  obtain ⟨header, sender, compression, content⟩ := m
  obtain ⟨hheader, rfl, rfl⟩ := hshort
  have hnames : lengthNames ["Header", "Stream", "Client", "From", "Compression", "Content"] = 46 := by decide
  have hlen : (message.encode ⟨header, none, [], content⟩).length =
      1 + (lengthNames ["Header", "Stream", "Client", "From", "Compression", "Content"] +
        [(encodeString header).length, 1, 1, 1, 1, (encodeBytes content).length].sum) :=
    length_struct messageFields ⟨header, none, [], content⟩
  have hcontent : (encodeBytes content).length ≤ Node.maxMessageContentSize + 5 := length_small_le h
  have hsize : Node.maxMessageContentSize + 100 ≤ maxMessageSize := by decide
  have hstring : (encodeString header).length = 1 + header.length := by
    rw [length_encodeString, encodedString, if_pos hheader]
  rw [Fits, hlen, hnames, hstring]
  simp only [List.sum_cons, List.sum_nil]
  simp only at hheader
  omega

theorem arrived_small (h : m.Small) (hshort : m.Short) : arrived (some m) = .ok m := by
  rw [arrived, Option.filter_some, if_pos (decide_eq_true (h.fits hshort))]

/-- The content of a message that is small enough is read. -/
theorem new_read (h : (new style header k v).Small) : (new style header k v).read parts k = .ok v :=
  content_read rfl (h _ rfl)

end Message

end Zif.Proto.Wire

namespace Zif.Node

open Go Dht Data Msgpack Proto Proto.Wire

variable {P : Prims} {a : Around} {sender : Address} {style : Style}
  {other : LocalPeer → Wire.Message → Handled} {lp : LocalPeer}

/-! ## Routing -/

namespace Request

/-- The handler of a request. -/
def handle (P : Prims) (a : Around) (sender : Address) (lp : LocalPeer) :
    Request → Wire.Message → Handled
  | announce _ => Serve.handleAnnounce P a lp
  | query _ => Serve.handleQuery P a lp
  | findClosest _ => Serve.handleFindClosest P a lp
  | search _ => Serve.handleSearch a lp
  | recent _ => Serve.handleRecent a lp
  | popular _ => Serve.handlePopular a lp
  | addPeer _ => Serve.handleAddPeer P a sender lp

/-- The headers are told apart. -/
theorem route_message (r : Request) :
    Serve.routeMessage P a sender other lp (r.message style) = r.handle P a sender lp (r.message style) := by
  have hheaders : ([protoRequestAddPeer, protoRequestPiece, protoRequestHashList, protoPopular, protoRecent,
      protoSearch, protoDhtFindClosest, protoDhtQuery, protoDhtAnnounce].map utf8).Nodup := by decide
  simp only [List.map_cons, List.map_nil, List.nodup_cons, List.mem_cons, List.not_mem_nil, or_false,
    not_or] at hheaders
  cases r <;> simp [Serve.routeMessage, message, Wire.Message.new, handle, hheaders]

theorem short_message (r : Request) : (r.message style).Short := by
  cases r <;> exact Message.short_new (by decide)

/-! ## What the client makes of a reply -/

/-- The end of the functions of `Client`. -/
def reply (P : Prims) (style : Style) : (r : Request) → Wire.Message → Result r.Answer
  | announce _ => Client.expectOk "Peer did not respond with ok"
  | query _ => fun er =>
    if er.header = utf8 Node.protoNo then .error (.error "Peer returned no")
    else do
      let entry ← er.read style.parts .entry
      (Node.clientQuery P entry).map some
  | findClosest _ => fun closest => closest.read style.parts .entries
  | search _ | recent _ | popular _ => fun posts => posts.read style.parts .posts
  | addPeer _ => Client.expectOk "Peer add request failed"

theorem client_eq (r : Request) : ∃ next, r.client P style = .write (r.message style) next ∧
    next true = .read fun m => .done (Message.arrived m >>= r.reply P style) := by
  cases r <;> exact ⟨_, rfl, rfl⟩

/-! ## Handlers -/

theorem withContent_new {header : String} {k : Wire.Kind} {v : k.type}
    (h : (Message.new style header k v).Small) (handle : k.type → Handled) :
    Serve.withContent a lp (.new style header k v) k handle = handle v := by
  rw [Serve.withContent, Message.new_read h]

/-- A message without content is read, and is `ok` or is not. -/
theorem arrived_bare {header err : String} (h : (utf8 header).length < 32) :
    (Message.arrived (some (.bare header)) >>= Client.expectOk err) =
      if utf8 header = utf8 Proto.protoOk then .ok () else .error (.error err) := by
  rw [Message.arrived_small Message.small_bare (Message.short_bare h)]
  rfl

/-- A message with a content is read. -/
theorem arrived_new {α : Type} {header : String} {k : Wire.Kind} {v : k.type}
    (h : (Message.new style header k v).Small) (hheader : (utf8 header).length < 32)
    (f : Wire.Message → Result α) :
    (Message.arrived (some (.new style header k v)) >>= f) = f (.new style header k v) := by
  rw [Message.arrived_small h (Message.short_new hheader)]
  rfl

/-- The first message of a handler can be read. -/
def FirstSmall (h : Handled) : Prop := ∀ m, h.replies.head? = some m → m.Small

/-- The peer and the answer are those of the call. -/
def Agrees (P : Prims) (a : Around) (style : Style) (sender : Address) (lp : LocalPeer) (r : Request)
    (h : Handled) : Prop :=
  h.after = (r.call P a sender lp).1 ∧
    (Message.arrived h.replies.head? >>= r.reply P style) = (r.call P a sender lp).2

theorem agrees_announce {entry : Entry} (h : ((announce entry).message style).Small) :
    Agrees P a style sender lp (announce entry) (Serve.handleAnnounce P a lp ((announce entry).message style)) := by
  have hne : utf8 Proto.protoNo ≠ utf8 Proto.protoOk := by decide
  rw [message, Serve.handleAnnounce, withContent_new h, Agrees, call]
  obtain ⟨dht, res⟩ := Node.handleAnnounce P lp.dht entry
  match res with
  | .ok () => exact ⟨rfl, (arrived_bare (by decide)).trans (if_pos rfl)⟩
  | .error .panic => exact ⟨rfl, rfl⟩
  | .error (.error err) => exact ⟨rfl, (arrived_bare (by decide)).trans (if_neg hne)⟩

/-- The client makes of an entry what it makes of the message with it. -/
theorem reply_entry {address : Address} {e : Entry}
    (h : (Message.new a.style protoDhtQuery .entry e).Small) :
    (Message.arrived (some (.new a.style protoDhtQuery .entry e)) >>= (query address).reply P style) =
      clientQueryReply P (.ok ⟨protoDhtQuery, .ok e⟩) := by
  have hheader : (Message.new a.style protoDhtQuery .entry e).header ≠ utf8 Node.protoNo :=
    (by decide : utf8 protoDhtQuery ≠ utf8 Node.protoNo)
  have hne : protoDhtQuery ≠ protoNo := by decide
  rw [arrived_new h (by decide)]
  simp only [reply, clientQueryReply, if_neg hheader, if_neg hne, Message.new_read h]
  rfl

theorem reply_no (address : Address) (content : Except String Entry) :
    (Message.arrived (some (.bare Node.protoNo)) >>= (query address).reply P style) =
      clientQueryReply P (.ok ⟨protoNo, content⟩) := by
  have hheader : (Wire.Message.bare Node.protoNo).header = utf8 Node.protoNo := rfl
  rw [Message.arrived_small Message.small_bare (Message.short_bare (by decide))]
  simp only [reply, clientQueryReply, bind, Except.bind, if_pos hheader, if_true]
  rfl

theorem agrees_query {address : Address} (h : ((query address).message style).Small)
    (hfirst : FirstSmall (Serve.handleQuery P a lp ((query address).message style))) :
    Agrees P a style sender lp (query address) (Serve.handleQuery P a lp ((query address).message style)) := by
  rw [message, Serve.handleQuery, withContent_new h] at hfirst ⊢
  rw [Agrees, call, LocalPeer.handleQuery]
  by_cases hown : address.equals lp.dht.addr = true
  · rw [if_pos hown] at hfirst ⊢
    rw [if_pos hown]
    exact ⟨rfl, reply_entry (hfirst _ rfl)⟩
  · rw [if_neg hown] at hfirst ⊢
    rw [if_neg hown]
    generalize lp.dht.query P address = out at hfirst ⊢
    match out, hfirst with
    | (dht, .error .panic), _ => exact ⟨rfl, rfl⟩
    | (dht, .error (.error err)), _ => exact ⟨rfl, rfl⟩
    | (dht, .ok none), _ => exact ⟨rfl, reply_no address (.error "Message has no content")⟩
    | (dht, .ok (some (kv, _))), hfirst => exact ⟨rfl, reply_entry (hfirst _ rfl)⟩

theorem agrees_findClosest {address : Address} (h : ((findClosest address).message style).Small)
    (hfirst : FirstSmall (Serve.handleFindClosest P a lp ((findClosest address).message style))) :
    Agrees P a style sender lp (findClosest address)
      (Serve.handleFindClosest P a lp ((findClosest address).message style)) := by
  rw [message, Serve.handleFindClosest, withContent_new h] at hfirst ⊢
  rw [Agrees, call, LocalPeer.handleFindClosest]
  generalize lp.dht.findClosest P address = out at hfirst ⊢
  match out, hfirst with
  | (dht, .error .panic), _ => exact ⟨rfl, rfl⟩
  | (dht, .error (.error err)), _ => exact ⟨rfl, rfl⟩
  | (dht, .ok pairs), hfirst =>
    have hsmall := hfirst _ rfl
    exact ⟨rfl, (arrived_new hsmall (by decide) _).trans (Message.new_read hsmall)⟩

/-- The handlers that send posts. -/
theorem agrees_posts {posts : Result (List Post)} (hfirst : FirstSmall (Serve.sendPosts a lp posts)) :
    (Serve.sendPosts a lp posts).after = (callPosts lp posts).1 ∧
      (Message.arrived (Serve.sendPosts a lp posts).replies.head? >>= fun m => m.read style.parts .posts) =
        (callPosts lp posts).2 := by
  match posts, hfirst with
  | .error .panic, _ => exact ⟨rfl, rfl⟩
  | .error (.error err), _ => exact ⟨rfl, rfl⟩
  | .ok posts, hfirst =>
    have hsmall := hfirst _ rfl
    exact ⟨rfl, (arrived_new hsmall (by decide) _).trans (Message.new_read hsmall)⟩

theorem agrees_addPeer {address : Address} (h : ((addPeer address).message style).Small) :
    Agrees P a style sender lp (addPeer address)
      (Serve.handleAddPeer P a sender lp ((addPeer address).message style)) := by
  have hread : (⟨((addPeer address).message style).read a.style.parts .address, sender, a.savedAt, a.writeFails⟩ :
      AddPeerRequest) = ⟨.ok address, sender, a.savedAt, a.writeFails⟩ :=
    congrArg (AddPeerRequest.mk · sender a.savedAt a.writeFails) (Message.new_read h)
  rw [Serve.handleAddPeer, hread, Agrees, call]
  generalize lp.handleAddPeer P ⟨.ok address, sender, a.savedAt, a.writeFails⟩ = out
  match out with
  | (lp', .ok ()) => exact ⟨rfl, (arrived_bare (by decide)).trans (if_pos rfl)⟩
  | (lp', .error .panic) => exact ⟨rfl, rfl⟩
  | (lp', .error (.error err)) => exact ⟨rfl, rfl⟩

/-- A handler does what the call does, and its first message is the answer. -/
theorem handle_eq (r : Request) (h : (r.message style).Small)
    (hfirst : FirstSmall (r.handle P a sender lp (r.message style))) :
    Agrees P a style sender lp r (r.handle P a sender lp (r.message style)) := by
  cases r with
  | announce entry => exact agrees_announce h
  | query address => exact agrees_query h hfirst
  | findClosest address => exact agrees_findClosest h hfirst
  | addPeer address => exact agrees_addPeer h
  | search sq =>
    rw [handle, message, Serve.handleSearch, withContent_new h] at hfirst ⊢
    exact agrees_posts hfirst
  | recent page =>
    rw [handle, message, Serve.handleRecent, withContent_new h] at hfirst ⊢
    exact agrees_posts hfirst
  | popular page =>
    rw [handle, message, Serve.handlePopular, withContent_new h] at hfirst ⊢
    exact agrees_posts hfirst

/-! ## Requests over streams -/

/-- **A request over a stream is a call of its handler.** In every order in which the two sides take their
steps both come to an end: the peer is then what the handler makes of it, and the client has the answer.
It is enough that the contents of the request and of the first reply are within the limit of
`Message.Read`. -/
theorem request_settles (P : Prims) (a : Around) (sender : Address) (style : Style)
    (other : LocalPeer → Wire.Message → Handled) (lp : LocalPeer) (r : Request) (fuel : Nat)
    (hrequest : (r.message style).Small)
    (hreply : ∀ m, (Serve.routeMessage P a sender other lp (r.message style)).replies.head? = some m →
      m.Small) :
    (Session.start (r.client P style).closing
      (Serve.handleStream P a sender other (fuel + 2) lp)).Settles
        (r.call P a sender lp).2 (r.call P a sender lp).1 := by
  rw [route_message] at hreply
  obtain ⟨hafter, hanswer⟩ := handle_eq r hrequest hreply
  obtain ⟨next, hclient, hnext⟩ := @client_eq P style r
  have hhandle : Serve.handleMessage P a sender other (.ok lp) (r.message style) =
      some ((r.call P a sender lp).1, (r.handle P a sender lp (r.message style)).replies) := by
    simp only [Serve.handleMessage, Message.arrived_small hrequest r.short_message, route_message, hafter]
  rw [hclient, ← hanswer]
  exact Session.settles_call hhandle hnext fuel

/-- A peer with one post. -/
def publisher : LocalPeer where
  entry := Wire.zeroEntry
  privateKey := []
  database := ⟨[⟨1, .text [97], .text [98], 0, 1, 2, 3, 4, .text [], .text []⟩], 1⟩
  collection := .new
  dht := .new ⟨[], []⟩

/-- Nothing fails around it. -/
def calm : Around :=
  ⟨⟨.none, false, fun _ _ => false⟩, true, fun _ _ _ => .ok [], none, id, 0, none⟩

theorem request_settles_recent :
    (Session.start ((recent 0).client Prims.sample ⟨.none, true, fun _ _ => false⟩).closing
      (Serve.handleStream Prims.sample calm ⟨[], []⟩ (fun lp _ => ⟨lp, [], .ok ()⟩) 2 publisher)).Settles
        (.ok [some ⟨1, [97], [98], 0, 1, 2, 3, 4, [], []⟩]) (.ok publisher) := by
  refine request_settles Prims.sample calm ⟨[], []⟩ ⟨.none, true, fun _ _ => false⟩ _ publisher (recent 0) 0 ?_ ?_
  · intro b hb
    cases hb
    decide
  · intro m hm b hb
    cases hm
    cases hb
    decide

end Request

end Zif.Node
