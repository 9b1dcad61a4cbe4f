import Zif.Data.Post
import Zif.Msgpack.Struct
import Zif.Msgpack.Value
import Zif.Proto.Server

/-!
# Messages as bytes

The structs that two nodes exchange, as MessagePack values. A message has a header and a content; the
content is the encoding of another struct, and is decoded when it is known what it should be.

In the structs of the model a nil slice is an empty one. Which of the empty slices of a struct are nil is
a parameter of its encoding, and makes no difference to what is decoded.

`Message.Stream` has the type of an interface. Whatever another node puts there is decoded, and then
assigned to the field, which panics for all values but nil.
-/

namespace Zif.Proto.Wire

open Go Dht Data Decoding Buffered Msgpack

/-! ## Slices that can be nil -/

/-- An empty slice is written as nil, or as a slice of length zero. -/
def orNil {α : Type} (isNil : Bool) (l : List α) : Option (List α) :=
  if isNil && l.isEmpty then none else some l

/-- The coder of a slice that is a list here. -/
def lists {α : Type} (c : Coder (Option (List α))) (isNil : Bool) : Coder (List α) where
  encode l := c.encode (orNil isNil l)
  decode old := do
    return (← c.decode (some old)).getD []

/-- `[]byte`. -/
def byteSlice (isNil : Bool) : Coder Bytes := lists .bytes isNil

/-! ## Structs -/

/-- The number of levels that the decoder of a message can go down: there are no more bytes. -/
def levels : Nat := maxMessageSize + bufferSize

/-- The fields of `Address`. -/
def addressFields (nilRaw : Bool) : List (StructField Address) :=
  [⟨"Raw", _, byteSlice nilRaw, fun a => a.raw, fun a v => { a with raw := v }⟩,
   ⟨"Encoded", _, .string, fun a => a.encoded, fun a v => { a with encoded := v }⟩]

/-- `dht.Address`. -/
def address (nilRaw : Bool) : Coder Address := .struct (addressFields nilRaw) levels ⟨[], []⟩

/-- Which empty slices of an entry are nil, or of another struct with fields of these names. -/
structure Nils where
  raw : Bool
  publicKey : Bool
  signature : Bool
  collectionHash : Bool
  seeds : Bool
  seeding : Bool
  /-- The elements of `Seeds` and `Seeding`. -/
  links : Bool

/-- No empty slice is nil; a decoder does not depend on it. -/
def Nils.none : Nils := ⟨false, false, false, false, false, false, false⟩

/-- `Entry{}`. -/
def zeroEntry : Entry := ⟨⟨[], []⟩, [], [], [], [], 0, 0, [], [], 0, [], [], 0⟩

/-- `[][]byte`. -/
def links (nils : Nils) (isNil : Bool) : Coder (List Bytes) :=
  lists (.slice (byteSlice nils.links) []) isNil

/-- The fields of `Entry`. -/
def entryFields (nils : Nils) : List (StructField Entry) :=
  [⟨"Address", _, address nils.raw, fun e => e.address, fun e v => { e with address := v }⟩,
   ⟨"Name", _, .string, fun e => e.name, fun e v => { e with name := v }⟩,
   ⟨"Desc", _, .string, fun e => e.desc, fun e v => { e with desc := v }⟩,
   ⟨"PublicAddress", _, .string, fun e => e.publicAddress, fun e v => { e with publicAddress := v }⟩,
   ⟨"PublicKey", _, byteSlice nils.publicKey, fun e => e.publicKey, fun e v => { e with publicKey := v }⟩,
   ⟨"PostCount", _, .int, fun e => e.postCount, fun e v => { e with postCount := v }⟩,
   ⟨"Updated", _, .uint, fun e => e.updated, fun e v => { e with updated := v }⟩,
   ⟨"Signature", _, byteSlice nils.signature, fun e => e.signature, fun e v => { e with signature := v }⟩,
   ⟨"CollectionHash", _, byteSlice nils.collectionHash, fun e => e.collectionHash,
    fun e v => { e with collectionHash := v }⟩,
   ⟨"Port", _, .int, fun e => e.port, fun e v => { e with port := v }⟩,
   ⟨"Seeds", _, links nils nils.seeds, fun e => e.seeds, fun e v => { e with seeds := v }⟩,
   ⟨"Seeding", _, links nils nils.seeding, fun e => e.seeding, fun e v => { e with seeding := v }⟩,
   ⟨"Seen", _, .int, fun e => e.seen, fun e v => { e with seen := v }⟩]

/-- `dht.Entry`. -/
def entry (nils : Nils) : Coder Entry := .struct (entryFields nils) levels zeroEntry

/-- `[]*dht.Entry`. -/
def entries (nils : Nils) (isNil : Bool) : Coder (List (Option Entry)) :=
  lists (.slice (.ptr (entry nils) zeroEntry) none) isNil

/-- The fields of `Post`. -/
def postFields : List (StructField Post) :=
  [⟨"Id", _, .int, fun p => p.id, fun p v => { p with id := v }⟩,
   ⟨"InfoHash", _, .string, fun p => p.infoHash, fun p v => { p with infoHash := v }⟩,
   ⟨"Title", _, .string, fun p => p.title, fun p v => { p with title := v }⟩,
   ⟨"Size", _, .int, fun p => p.size, fun p v => { p with size := v }⟩,
   ⟨"FileCount", _, .int, fun p => p.fileCount, fun p v => { p with fileCount := v }⟩,
   ⟨"Seeders", _, .int, fun p => p.seeders, fun p v => { p with seeders := v }⟩,
   ⟨"Leechers", _, .int, fun p => p.leechers, fun p v => { p with leechers := v }⟩,
   ⟨"UploadDate", _, .int, fun p => p.uploadDate, fun p v => { p with uploadDate := v }⟩,
   ⟨"Tags", _, .string, fun p => p.tags, fun p v => { p with tags := v }⟩,
   ⟨"Meta", _, .string, fun p => p.metadata, fun p v => { p with metadata := v }⟩]

/-- `[]*data.Post`. -/
def posts (isNil : Bool) : Coder (List (Option Post)) :=
  lists (.slice (.ptr (.struct postFields levels Post.zero) Post.zero) none) isNil

/-- `MessageCapabilities`. -/
def capabilities (isNil : Bool) : Coder Capabilities :=
  .struct [⟨"Compression", _, lists .strings isNil, fun c => c.compression,
    fun c v => { c with compression := v }⟩] levels ⟨[]⟩

/-- `MessageRequestPiece`. -/
def requestPiece : Coder Node.MessageRequestPiece :=
  .struct [⟨"Address", _, .string, fun m => m.address, fun m v => { m with address := v }⟩,
    ⟨"Id", _, .int, fun m => m.id, fun m v => { m with id := v }⟩,
    ⟨"Length", _, .int, fun m => m.length, fun m v => { m with length := v }⟩] levels ⟨[], 0, 0⟩

/-- `MessageSearchQuery`. -/
structure MessageSearchQuery where
  query : Bytes
  page : Int64
  deriving DecidableEq, Repr

/-- `MessageCollection`. -/
structure MessageCollection where
  hash : Bytes
  hashList : Bytes
  size : Int64
  signature : Bytes
  deriving DecidableEq, Repr

/-- The fields of `MessageCollection`. -/
def collectionFields (nils : Nils) (isNil : Bool) : List (StructField MessageCollection) :=
  [⟨"Hash", _, byteSlice nils.collectionHash, fun m => m.hash, fun m v => { m with hash := v }⟩,
   ⟨"HashList", _, byteSlice isNil, fun m => m.hashList, fun m v => { m with hashList := v }⟩,
   ⟨"Size", _, .int, fun m => m.size, fun m v => { m with size := v }⟩,
   ⟨"Signature", _, byteSlice nils.signature, fun m => m.signature, fun m v => { m with signature := v }⟩]

/-- The encoding of a hash list. -/
def collection (nils : Nils) (isNil : Bool) : Coder MessageCollection :=
  .struct (collectionFields nils isNil) levels ⟨[], [], 0, []⟩

/-- The encoding of a search. -/
def searchQuery : Coder MessageSearchQuery :=
  .struct [⟨"Query", _, .string, fun m => m.query, fun m v => { m with query := v }⟩,
    ⟨"Page", _, .int, fun m => m.page, fun m v => { m with page := v }⟩] levels ⟨[], 0⟩

/-! ## Messages -/

/-- `Message`, without the stream and the client, which are set by the node that has read it. -/
structure Message where
  header : Bytes
  sender : Option Address
  compression : Bytes
  content : Option Bytes
  deriving DecidableEq, Repr

/-- `var msg Message`. -/
def zeroMessage : Message := ⟨[], none, [], none⟩

/-- `interfaceValue` of the field `Stream`, which no decoded value can be assigned to. -/
def assignStream : AnyValue → Decoder Unit
  | .nil => return
  | _ => throw .panic

/-- The field `Stream`, an interface. It is nil in a message that is sent. -/
def stream : Coder Unit := ⟨fun _ => encodeNil, fun _ => decodeInterface levels >>= assignStream⟩

/-- The field `Client`, a pointer to a struct without exported fields. It is nil in a message that is
sent. -/
def client : Coder (Option Unit) := .ptr (.struct [] levels ()) ()

/-- The first field of `Message`. -/
def headerField : StructField Message :=
  ⟨"Header", _, .string, fun m => m.header, fun m v => { m with header := v }⟩

/-- The second field of `Message`. -/
def streamField : StructField Message := ⟨"Stream", _, stream, fun _ => (), fun m _ => m⟩

/-- The fields of `Message`; `From` is nil in a message that is sent. -/
def messageFields : List (StructField Message) :=
  [headerField, streamField,
   ⟨"Client", _, client, fun _ => none, fun m _ => m⟩,
   ⟨"From", _, .ptr (address false) ⟨[], []⟩, fun m => m.sender, fun m v => { m with sender := v }⟩,
   ⟨"Compression", _, .string, fun m => m.compression, fun m v => { m with compression := v }⟩,
   ⟨"Content", _, .bytes, fun m => m.content, fun m v => { m with content := v }⟩]

/-- `proto.Message`. -/
def message : Coder Message := .struct messageFields levels zeroMessage

/-- A message of another program, which has put a value into the field `Stream`. -/
def encodeWithStream (v : Value) (m : Message) : Bytes :=
  encodeMapLen messageFields.length ++ messageFields.flatMap fun f =>
    encodeString f.key ++ if f.name = "Stream" then v.encode else f.encode m

/-! ## Contents -/

/-- What the content of a message can be. -/
inductive Kind where
  | address
  | entry
  | entries
  | capabilities
  | posts
  | requestPiece
  | searchQuery
  | page
  | collection
  /-- A cookie of 20 bytes or a signature of 64, sent as a slice and read as an array. -/
  | byteArray (n : Nat)
  /-- The text of an error. -/
  | text
  deriving DecidableEq, Repr

namespace Kind

/-- The type of a content. -/
def type : Kind → Type
  | address => Address
  | entry => Entry
  | entries => List (Option Entry)
  | capabilities => Capabilities
  | posts => List (Option Post)
  | requestPiece => Node.MessageRequestPiece
  | searchQuery => MessageSearchQuery
  | page => Int64
  | collection => MessageCollection
  | byteArray n => Vector UInt8 n
  | text => Bytes

/-- The encoding of a content. -/
def coder (nils : Nils) (isNil : Bool) : (k : Kind) → Coder k.type
  | address => Wire.address nils.raw
  | entry => Wire.entry nils
  | entries => Wire.entries nils isNil
  | capabilities => Wire.capabilities isNil
  | posts => Wire.posts isNil
  | requestPiece => Wire.requestPiece
  | searchQuery => Wire.searchQuery
  | page => .int
  | collection => Wire.collection nils isNil
  | byteArray n => .byteArray n
  | text => .string

/-- The value of a variable that a content is decoded into. -/
def zero : (k : Kind) → k.type
  | address => (⟨[], []⟩ : Address)
  | entry => zeroEntry
  | entries => ([] : List (Option Entry))
  | capabilities => (⟨[]⟩ : Capabilities)
  | posts => ([] : List (Option Post))
  | requestPiece => (⟨[], 0, 0⟩ : Node.MessageRequestPiece)
  | searchQuery => (⟨[], 0⟩ : MessageSearchQuery)
  | page => (0 : Int64)
  | collection => (⟨[], [], 0, []⟩ : MessageCollection)
  | byteArray n => Vector.replicate n (0 : UInt8)
  | text => ([] : Bytes)

end Kind

namespace Message

/-- `Message.Write`: the content. -/
def write {k : Kind} (nils : Nils) (isNil : Bool) (v : k.type) : Option Bytes :=
  some ((k.coder nils isNil).encode v)

/-- `bytesAllocLimit`. -/
def bytesAllocLimit : Nat := 1024 * 1024

/-- The error for a request of which too little was there. `io.ReadFull` gives `EOF` if nothing was, and
`unexpected EOF` if a part was. What is longer than `bytesAllocLimit` is asked for in parts, between which the error is
`EOF` as well; where they end depends on the buffer of the decoder, and is the parameter `parts`. -/
def cutError (parts : (asked got : Nat) → Bool) (request : Nat × Nat) : String :=
  if request.2 = 0 ∨ (bytesAllocLimit < request.1 ∧ parts request.1 request.2) then "EOF" else "unexpected EOF"

/-- `Message.Read` into a new variable. -/
def read (parts : (asked got : Nat) → Bool) (m : Message) (k : Kind) : Result k.type :=
  match m.content with
  | none => .error (.error "Message has no content")
  | some b =>
    let d := (k.coder .none false).decode k.zero
    match outcome d (b.take Node.maxMessageContentSize) with
    | none => .error (.error (cutError parts (d.run.lacking (b.take Node.maxMessageContentSize))))
    | some (r, _) => r

end Message

/-- A value that a node sends. -/
structure Content where
  kind : Kind
  value : kind.type
  nils : Nils
  isNil : Bool

/-- The bytes of the value. -/
def Content.encode (c : Content) : Bytes := (c.kind.coder c.nils c.isNil).encode c.value

/-- The header of a message that a node sends, and what `Message.Write` was called with, if it was. -/
structure Sent where
  header : Bytes
  content : Option Content

/-- The message. -/
def Sent.message (s : Sent) : Message :=
  ⟨s.header, none, [], s.content.bind fun c => Message.write c.nils c.isNil c.value⟩

/-! ## The connection -/

/-- `Client.ReadMessage` on what has arrived: the message, or how decoding it ended, or neither when the
connection ends before. The limit is set again after each message. -/
def readMessage (cl : Reader UInt8) : Option (Result Message) × Reader UInt8 :=
  let r := cl.run bufferSize (message.decode zeroMessage).run
  (r.1, ⟨r.2.buf, maxMessageSize, r.2.src⟩)

/-- `n` messages, one after the other. -/
def readMessages : (n : Nat) → Reader UInt8 → List (Option (Result Message)) × Reader UInt8
  | 0, cl => ([], cl)
  | n + 1, cl =>
    let r := readMessages n (readMessage cl).2
    ((readMessage cl).1 :: r.1, r.2)

/-- `Client.FindClosest`, from the reply on, on a connection that has just been opened; `broken` is the error of a
connection that ends before the reply does. -/
def findClosestReply (parts : (asked got : Nat) → Bool) (broken : String) (pieces : List Bytes) :
    Result (List (Option Entry)) :=
  match (readMessage (newClient pieces)).1 with
  | none => .error (.error broken)
  | some (.error f) => .error f
  | some (.ok closest) => closest.read parts .entries

end Zif.Proto.Wire
