import Zif.Lib.Call
import Zif.Node.Resolve
import Zif.Proto.Wire

/-!
# Requests of a client

The functions of `Client` that send one message and read one. Each runs on a stream of its own, which
`Peer` closes afterwards.

A read fails at the end of the stream, and so does the read of a message that is longer than the limit;
the buffer of a new client is empty, so nothing beyond the limit is read.
-/

namespace Zif.Proto

/-- `ProtoSearch`. -/
def protoSearch : String := "search"

/-- `ProtoRecent`. -/
def protoRecent : String := "recent"

/-- `ProtoPopular`. -/
def protoPopular : String := "popular"

/-- `ProtoRequestHashList`. -/
def protoRequestHashList : String := "req.hashlist"

/-- `ProtoRequestPiece`. -/
def protoRequestPiece : String := "req.piece"

/-- `ProtoRequestAddPeer`. -/
def protoRequestAddPeer : String := "req.addpeer"

/-- `ProtoPosts`. -/
def protoPosts : String := "posts"

/-- `ProtoDhtAnnounce`. -/
def protoDhtAnnounce : String := "dht.announce"

/-- `ProtoDhtFindClosest`. -/
def protoDhtFindClosest : String := "dht.findclosest"

namespace Wire

open Go Dht Data Msgpack

/-! ## Messages -/

/-- What is left open about the encoder and the decoder of a node: which of the empty slices it sends are nil, and
where the parts of a long text end that it reads. -/
structure Style where
  nils : Nils
  isNil : Bool
  parts : (asked got : Nat) → Bool

namespace Message

/-- A message without content. -/
def bare (header : String) : Message := ⟨utf8 header, none, [], none⟩

/-- A message with a content. -/
def new (style : Style) (header : String) (k : Kind) (v : k.type) : Message :=
  ⟨utf8 header, none, [], write style.nils style.isNil v⟩

/-- The message is within the limit of a new client. -/
def Fits (m : Message) : Prop := (message.encode m).length ≤ maxMessageSize

instance : DecidablePred Fits := fun m =>
  inferInstanceAs (Decidable ((message.encode m).length ≤ maxMessageSize))

/-- The content is within the limit of `Message.Read`. -/
def Small (m : Message) : Prop := ∀ b, m.content = some b → b.length ≤ Node.maxMessageContentSize

/-- `Client.ReadMessage` on what arrives, if anything does. -/
def arrived (m : Option Message) : Result Message :=
  match m.filter (decide <| Fits ·) with
  | none => .error (.error "EOF")
  | some m => .ok m

end Message

/-! ## Requests -/

namespace Client

variable (P : Prims) (style : Style)

/-- What the functions below have in common: the error of writing or reading is returned. -/
def exchange {α : Type} (msg : Message) (reply : Message → Result α) : Proc Message (Result α) :=
  Proc.exchange msg (.error (.error "stream closed")) fun m => Message.arrived m >>= reply

/-- What is made of an answer that should be `ok`. -/
def expectOk (err : String) (m : Message) : Result Unit :=
  if m.header = utf8 protoOk then .ok () else .error (.error err)

/-- `Client.Announce`. -/
def announce (e : Entry) : Proc Message (Result Unit) :=
  exchange (.new style protoDhtAnnounce .entry e) (expectOk "Peer did not respond with ok")

/-- `Client.FindClosest`. -/
def findClosest (address : Address) : Proc Message (Result (List (Option Entry))) :=
  exchange (.new style protoDhtFindClosest .address address) fun closest => closest.read style.parts .entries

/-- `Client.Query`. -/
def query (address : Address) : Proc Message (Result (Option Entry)) :=
  exchange (.new style Node.protoDhtQuery .address address) fun er =>
    if er.header = utf8 Node.protoNo then .error (.error "Peer returned no")
    else do
      let entry ← er.read style.parts .entry
      (Node.clientQuery P entry).map some

/-- `Client.Search`. The error of writing is dropped; the read fails then. -/
def search (sq : MessageSearchQuery) : Proc Message (Result (List (Option Post))) :=
  .write (.new style protoSearch .searchQuery sq) fun _ =>
    .read fun m => .done (Message.arrived m >>= fun recv => recv.read style.parts .posts)

/-- `Client.Recent`. -/
def recent (page : Int64) : Proc Message (Result (List (Option Post))) :=
  exchange (.new style protoRecent .page page) fun posts => posts.read style.parts .posts

/-- `Client.Popular`. -/
def popular (page : Int64) : Proc Message (Result (List (Option Post))) :=
  exchange (.new style protoPopular .page page) fun posts => posts.read style.parts .posts

/-- `Client.RequestAddPeer`. -/
def requestAddPeer (addr : Address) : Proc Message (Result Unit) :=
  exchange (.new style protoRequestAddPeer .address addr) (expectOk "Peer add request failed")

end Client

end Wire

end Zif.Proto
