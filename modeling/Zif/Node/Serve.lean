import Zif.Data.Pages
import Zif.Node.AddPeer
import Zif.Proto.Client

/-!
# Serving requests

`Server.HandleStream` reads the messages of a stream and passes each to its handler, which writes its
answer to the stream; the stream is closed then. An error of a handler is logged, and the other side meets
the end of the stream. A panic ends the process, and the connection with it.

A request is what a client asks for, apart from messages: `Request.call` is what it gets when the handler
is simply called.
-/

namespace Zif.Node

open Go Dht Data Msgpack Proto
open Proto.Wire (Style MessageSearchQuery Client.announce Client.query Client.findClosest Client.search
  Client.recent Client.popular Client.requestAddPeer)

/-- What happens around a peer while it handles a message. -/
structure Around where
  /-- How it encodes and decodes. -/
  style : Style
  /-- The order in which the engine reads rows with the same key. -/
  backwards : Bool
  /-- What the full text index finds. -/
  docids : Bytes → Int64 → Int64 → Except String (List UInt64)
  /-- How a query for a page of posts fails, if it does. -/
  queryFails : Option QueryFailure
  /-- What the engine makes of a sum that is out of the range of its integers. -/
  real : Int → Int
  /-- The time `SignEntry` reads. -/
  savedAt : UInt64
  /-- The error of writing `entry.json`, if that fails. -/
  writeFails : Option String

/-- What a handler leaves: the peer, the messages it has written and what it returns. -/
structure Handled where
  peer : LocalPeer
  replies : List Wire.Message
  result : Result Unit

/-- The peer after a handler; a panic has ended the process. -/
def Handled.after (h : Handled) : Result LocalPeer :=
  match h.result with
  | .error .panic => .error .panic
  | _ => .ok h.peer

namespace Serve

variable (P : Prims) (a : Around) (sender : Address)

/-! ## Handlers -/

/-- The content is read first; a handler returns the error of that. -/
def withContent (lp : LocalPeer) (msg : Wire.Message) (k : Wire.Kind) (handle : k.type → Handled) :
    Handled :=
  match msg.read a.style.parts k with
  | .error f => ⟨lp, [], .error f⟩
  | .ok v => handle v

/-- `HandleAnnounce`. -/
def handleAnnounce (lp : LocalPeer) (msg : Wire.Message) : Handled :=
  withContent a lp msg .entry fun entry =>
    match Node.handleAnnounce P lp.dht entry with
    | (dht, .ok ()) => ⟨{ lp with dht }, [.bare Proto.protoOk], .ok ()⟩
    | (dht, .error .panic) => ⟨{ lp with dht }, [], .error .panic⟩
    | (dht, .error (.error err)) => ⟨{ lp with dht }, [.bare Proto.protoNo], .error (.error err)⟩

/-- `HandleQuery`. Without a row the content of the second message is nil. -/
def handleQuery (lp : LocalPeer) (msg : Wire.Message) : Handled :=
  withContent a lp msg .address fun address =>
    if address.equals lp.dht.addr then
      ⟨lp, [.new a.style protoDhtQuery .entry lp.entry], .ok ()⟩
    else
      match lp.dht.query P address with
      | (dht, .error f) => ⟨{ lp with dht }, [], .error f⟩
      | (dht, .ok none) =>
        ⟨{ lp with dht }, [.bare protoNo, ⟨utf8 protoDhtQuery, none, [], some encodeNil⟩], .ok ()⟩
      | (dht, .ok (some (kv, _))) =>
        ⟨{ lp with dht }, [.new a.style protoDhtQuery .entry kv], .ok ()⟩

/-- `HandleFindClosest`. -/
def handleFindClosest (lp : LocalPeer) (msg : Wire.Message) : Handled :=
  withContent a lp msg .address fun address =>
    match lp.dht.findClosest P address with
    | (dht, .error f) => ⟨{ lp with dht }, [], .error f⟩
    | (dht, .ok pairs) => ⟨{ lp with dht }, [.new a.style protoDhtEntries .entries pairs], .ok ()⟩

/-- The end of the handlers that send posts. -/
def sendPosts (lp : LocalPeer) (posts : Result (List Post)) : Handled :=
  match posts with
  | .error f => ⟨lp, [], .error f⟩
  | .ok posts => ⟨lp, [.new a.style protoPosts .posts (posts.map some)], .ok ()⟩

/-- `HandleSearch`. -/
def handleSearch (lp : LocalPeer) (msg : Wire.Message) : Handled :=
  withContent a lp msg .searchQuery fun sq =>
    sendPosts a lp (lp.database.search a.docids sq.query sq.page 25)

/-- `HandleRecent`. -/
def handleRecent (lp : LocalPeer) (msg : Wire.Message) : Handled :=
  withContent a lp msg .page fun page =>
    sendPosts a lp (lp.database.queryRecent a.backwards page a.queryFails)

/-- `HandlePopular`. -/
def handlePopular (lp : LocalPeer) (msg : Wire.Message) : Handled :=
  withContent a lp msg .page fun page =>
    sendPosts a lp (lp.database.queryPopular a.backwards a.real page a.queryFails)

/-- `HandleAddPeer`, with the address of the connection. -/
def handleAddPeer (lp : LocalPeer) (msg : Wire.Message) : Handled :=
  match lp.handleAddPeer P ⟨msg.read a.style.parts .address, sender, a.savedAt, a.writeFails⟩ with
  | (lp, .ok ()) => ⟨lp, [.bare Proto.protoOk], .ok ()⟩
  | (lp, .error f) => ⟨lp, [], .error f⟩

/-! ## The stream -/

variable (other : LocalPeer → Wire.Message → Handled)

/-- `RouteMessage`. The handlers of hash lists and pieces are `other`. -/
def routeMessage (lp : LocalPeer) (msg : Wire.Message) : Handled :=
  if msg.header = utf8 protoDhtAnnounce then handleAnnounce P a lp msg
  else if msg.header = utf8 protoDhtQuery then handleQuery P a lp msg
  else if msg.header = utf8 protoDhtFindClosest then handleFindClosest P a lp msg
  else if msg.header = utf8 protoSearch then handleSearch a lp msg
  else if msg.header = utf8 protoRecent then handleRecent a lp msg
  else if msg.header = utf8 protoPopular then handlePopular a lp msg
  else if msg.header = utf8 protoRequestHashList then other lp msg
  else if msg.header = utf8 protoRequestPiece then other lp msg
  else if msg.header = utf8 protoRequestAddPeer then handleAddPeer P a sender lp msg
  else ⟨lp, [], .ok ()⟩

/-- One round of the loop of `HandleStream`. A message that cannot be read ends it. -/
def handleMessage (s : Result LocalPeer) (msg : Wire.Message) :
    Option (Result LocalPeer × List Wire.Message) :=
  match s, Wire.Message.arrived (some msg) with
  | .ok lp, .ok msg =>
    let h := routeMessage P a sender other lp msg
    some (h.after, h.replies)
  | _, _ => none

/-- `HandleStream`, for at most `fuel` messages. -/
def handleStream (fuel : Nat) (lp : LocalPeer) : Proc Wire.Message (Result LocalPeer) :=
  Proc.serve (handleMessage P a sender other) fuel (.ok lp)

end Serve

/-! ## Requests as calls -/

/-- What a client can ask for. -/
inductive Request where
  | announce (entry : Entry)
  | query (address : Address)
  | findClosest (address : Address)
  | search (sq : MessageSearchQuery)
  | recent (page : Int64)
  | popular (page : Int64)
  | addPeer (address : Address)

namespace Request

/-- The type of the answer. -/
def Answer : Request → Type
  | announce _ | addPeer _ => Unit
  | query _ => Option Entry
  | findClosest _ => List (Option Entry)
  | search _ | recent _ | popular _ => List (Option Post)

variable (P : Prims)

/-- The function of `Client` for the request. -/
def client (style : Style) : (r : Request) → Proc Wire.Message (Result r.Answer)
  | announce entry => Client.announce style entry
  | query address => Client.query P style address
  | findClosest address => Client.findClosest style address
  | search sq => Client.search style sq
  | recent page => Client.recent style page
  | popular page => Client.popular style page
  | addPeer address => Client.requestAddPeer style address

/-- The message of the request. -/
def message (style : Style) : Request → Wire.Message
  | announce entry => .new style protoDhtAnnounce .entry entry
  | query address => .new style protoDhtQuery .address address
  | findClosest address => .new style protoDhtFindClosest .address address
  | search sq => .new style protoSearch .searchQuery sq
  | recent page => .new style protoRecent .page page
  | popular page => .new style protoPopular .page page
  | addPeer address => .new style protoRequestAddPeer .address address

/-- A method of the peer is called: the peer afterwards, and what the caller has. The caller does not
learn of an error, it gets no answer. -/
def answered {α : Type} (out : LocalPeer × Result α) : Result LocalPeer × Except String α :=
  match out with
  | (lp, .ok v) => (.ok lp, .ok v)
  | (_, .error .panic) => (.error .panic, .error "EOF")
  | (lp, .error (.error _)) => (.ok lp, .error "EOF")

/-- What the caller has, as a result. -/
def toResult {α : Type} : Except String α → Result α
  | .ok v => .ok v
  | .error err => .error (.error err)

/-- The posts of a page, as they are called for. -/
def callPosts (lp : LocalPeer) (posts : Result (List Post)) :
    Result LocalPeer × Result (List (Option Post)) :=
  let out := answered (lp, posts.map fun posts => posts.map some)
  (out.1, toResult out.2)

/-- The request as a call of the handler. -/
def call (a : Around) (sender : Address) (lp : LocalPeer) :
    (r : Request) → Result LocalPeer × Result r.Answer
  | announce entry =>
    match Node.handleAnnounce P lp.dht entry with
    | (dht, .ok ()) => (.ok { lp with dht }, .ok ())
    | (_, .error .panic) => (.error .panic, .error (.error "EOF"))
    | (dht, .error (.error _)) =>
      (.ok { lp with dht }, .error (.error "Peer did not respond with ok"))
  | query address =>
    let out := answered (lp.handleQuery P address)
    (out.1, clientQueryReply P out.2)
  | findClosest address =>
    let out := answered (lp.handleFindClosest P address)
    (out.1, clientFindClosest out.2)
  | search sq => callPosts lp (lp.database.search a.docids sq.query sq.page 25)
  | recent page => callPosts lp (lp.database.queryRecent a.backwards page a.queryFails)
  | popular page => callPosts lp (lp.database.queryPopular a.backwards a.real page a.queryFails)
  | addPeer address =>
    let out := answered (lp.handleAddPeer P ⟨.ok address, sender, a.savedAt, a.writeFails⟩)
    (out.1, toResult out.2)

end Request

end Zif.Node
