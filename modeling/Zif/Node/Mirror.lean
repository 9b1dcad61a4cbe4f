import Zif.Data.Collection
import Zif.Dht.NetDb
import Zif.Node.PieceStream

/-!
# Mirroring a peer

`Peer.Mirror` fetches the entry of a peer, then its hash list, which is checked against the collection
hash in the entry, and then the pieces from the last one it may not have in full. Each piece is checked
against the hash list and handed to `InsertPieces`, which runs beside it.

The outcomes of the network and of the file system during a call are collected in a `Session`. Streams
deliver what was written to them. Of the message encoding its length matters, since a reader gives up
after `MaxMessageContentSize` bytes, and that a field can be given twice: the second value is read into
the array of the first. The database engine does not fail.
-/

namespace Zif.Node

open Go Dht Data

/-! ## Messages -/

/-- `MessageCollection`; `Hash` and `Signature` are never set. -/
structure MessageCollection where
  hashList : Buffer UInt8
  size : Int64

/-- `MessageRequestPiece`. -/
structure MessageRequestPiece where
  address : Bytes
  id : Int64
  length : Int64

/-- `MaxMessageContentSize`. -/
def maxMessageContentSize : Nat := 1024 * 1024 * 4

/-- The length of an encoded integer. -/
def encodedInt (v : Int) : Nat :=
  if 0 ≤ v then
    if v ≤ 127 then 1 else if v ≤ 255 then 2 else if v ≤ 65535 then 3
    else if v ≤ 4294967295 then 5 else 9
  else if -32 ≤ v then 1 else if -128 ≤ v then 2 else if -32768 ≤ v then 3
  else if -2147483648 ≤ v then 5 else 9

/-- The length of an encoded byte string of `l` bytes. -/
def encodedBytes (l : Nat) : Nat := (if l < 256 then 2 else if l < 65536 then 3 else 5) + l

/-- The length of an encoded string of `l < 32` bytes, such as a field name. -/
def encodedName (l : Nat) : Nat := 1 + l

/-- The length of an encoded collection message: a map of the four fields `Hash`, `HashList`, `Size`
and `Signature`, the first and the last of them nil. -/
def encodedCollection (hashListLen : Nat) (size : Int) : Nat :=
  1 + (encodedName 4 + 1) + (encodedName 8 + encodedBytes hashListLen) +
    (encodedName 4 + encodedInt size) + (encodedName 9 + 1)

/-- A field of an encoded collection message. -/
inductive CollectionField where
  /-- `HashList`, which can be nil. -/
  | hashList (value : Option Bytes)
  /-- `Size`. -/
  | size (value : Int64)
  /-- `Hash`, `Signature`, or a field that is skipped. -/
  | other

/-- The content of a collection message: the fields in the order they are in, and the length of their
encoding. -/
structure CollectionContent where
  fields : List CollectionField
  length : Nat

/-- `readN` of the message decoder, which reads the bytes `b` into a slice that may have a value
already. An array that is large enough is used again, and keeps what is behind the new end. -/
def readN (grow : Nat → Nat) (buf : Buffer UInt8) (b : Bytes) : Buffer UInt8 :=
  if h : b.length ≤ buf.array.length then
    ⟨b ++ buf.array.drop b.length, b.length, by simp⟩
  else Buffer.empty.append grow 0 b

namespace MessageCollection

variable (P : Prims) (grow : Nat → Nat)

/-- `Message.Write` of a collection. -/
def write (mhl : MessageCollection) : CollectionContent where
  fields := [.other, .hashList (some mhl.hashList.view), .size mhl.size, .other]
  length := encodedCollection mhl.hashList.len mhl.size.toInt

/-- One field is decoded. -/
def readField (mhl : MessageCollection) : CollectionField → MessageCollection
  | .hashList none => { mhl with hashList := Buffer.empty }
  | .hashList (some b) => { mhl with hashList := readN grow mhl.hashList b }
  | .size n => { mhl with size := n }
  | .other => mhl

/-- `Message.Read` into a collection. -/
def read (content : CollectionContent) : Result MessageCollection :=
  if content.length > maxMessageContentSize then .error (.error "unexpected EOF")
  else .ok (content.fields.foldl (readField grow) ⟨Buffer.empty, 0⟩)

/-- `hash.Write(mhl.HashList[32*i : (32*i)+32])`. -/
def writeBlock (mhl : MessageCollection) (written : Bytes) (i : Nat) : Result Bytes :=
  match mhl.hashList.sliceAt (32 * i) (32 * i + 32) with
  | some block => .ok (written ++ block)
  | none => .error .panic

/-- `MessageCollection.Verify`. -/
def verify (mhl : MessageCollection) (root : Bytes) : Result Unit := do
  let written ← (List.range mhl.size.toInt.toNat).foldlM mhl.writeBlock []
  if P.sha3 written ≠ root then .error (.error "Invalid hash list") else .ok ()

/-- `MessageCollection{HashList: c.HashList, Size: len(c.HashList) / 32}`. -/
def ofCollection (c : Collection) : MessageCollection :=
  ⟨c.hashList, Int64.ofNat (c.hashList.len / 32)⟩

/-- `Verify` goes over the whole list and nothing else: it does not go out of range, and it accepts a list of
`Size` blocks with this hash and no other. -/
structure Exact (mhl : MessageCollection) (root : Bytes) : Prop where
  inRange : mhl.verify P root ≠ .error .panic
  accepts : mhl.verify P root = .ok () ↔
    (mhl.hashList.len : Int) = 32 * mhl.size.toInt ∧ P.sha3 mhl.hashList.view = root

end MessageCollection

/-! ## The peer that is asked -/

/-- The parts of the peer's `LocalPeer` that its handlers read. -/
structure Server where
  address : Address
  dht : NetDB
  collection : Collection
  database : Database
  /-- The databases of the peers it has mirrored. -/
  databases : List (Bytes × Database)
  /-- The files `collection.dat` of the peers it has mirrored. -/
  collectionFiles : List (Bytes × Bytes)

namespace Server

variable (P : Prims)

/-- `HandleHashList`. -/
def handleHashList (srv : Server) (address : Address) : Result MessageCollection :=
  match (srv.dht.query P address).2 with
  | .error f => .error f
  | .ok entry =>
    let reply := fun hashList : Buffer UInt8 =>
      (⟨hashList, Int64.ofNat (hashList.len / 32)⟩ : MessageCollection)
    if address.equals srv.address then .ok (reply srv.collection.hashList)
    else if entry.isSome then
      match srv.collectionFiles.lookup (address.string P) with
      | some hl => .ok (reply (Buffer.ofList hl))
      | none => .error (.error "no such file or directory")
    else .error (.error "Cannot return collection hash list")

/-- `HandlePiece`: what is written to the stream. -/
def handlePiece (srv : Server) (mrp : MessageRequestPiece) : Result Bytes :=
  if mrp.address = srv.address.string P then
    .ok (pieceStream (srv.database.queryPiecePosts mrp.id mrp.length))
  else
    match srv.databases.lookup mrp.address with
    | some db => .ok (pieceStream (db.queryPiecePosts mrp.id mrp.length))
    | none => .error (.error "Piece not found")

end Server

/-! ## The peer that mirrors -/

/-- What the network and the file system do during a call of `Mirror`. An error is given by its
text. -/
structure Session where
  ping : Option String
  /-- The entry, asked for from the peer or, if the peer is a seed, by `Query`. -/
  entry : Result Entry
  openStream : Option String
  /-- The reply to a request for the hash list. -/
  hashList : Address → Result CollectionContent
  saveCollection : Option String
  openPieceStream : Option String
  /-- The reply to a request for pieces. -/
  pieces : MessageRequestPiece → Option Bytes
  requestAddPeer : Option String

/-- `if err != nil { return err }`. -/
def ifErr (err : Option String) (db : Database) (next : Database × Result Unit) :
    Database × Result Unit :=
  match err with
  | some msg => (db, .error (.error msg))
  | none => next

variable (P : Prims) (grow : Nat → Nat)

/-- `Client.Collection`. -/
def clientCollection (reply : Result CollectionContent) (entry : Entry) :
    Result MessageCollection := do
  let content ← reply
  let mhl ← MessageCollection.read grow content
  mhl.verify P entry.collectionHash
  .ok mhl

/-- The loop of `Mirror` over the pieces, from piece `i` of the hash list on. -/
def receivePieces (hashList : Buffer UInt8) : Nat → Writer → List Piece → Writer × Result Unit
  | _, w, [] => (w, .ok ())
  | i, w, piece :: pieces =>
    match hashList.sliceAt (32 * i) (32 * i + 32) with
    | none => (w, .error .panic)
    | some hash =>
      if hash ≠ piece.hash P then (w, .error (.error "Piece hash mismatch"))
      else receivePieces hashList (i + 1) (w.receive P piece) pieces

/-- The first piece `Mirror` asks for. -/
def since (db : Database) : Nat :=
  let currentStore := Paging.count pieceSize db.postCount
  if currentStore ≠ 0 then currentStore - 1 else 0

/-- `Mirror` from the count of the posts on. When the loop is left early, `InsertPieces` never gets
the nil that makes it commit. -/
def download (db : Database) (s : Session) (entry : Entry) (mcol : MessageCollection) :
    Database × Result Unit :=
  if Int64.ofNat db.postCount = entry.postCount then (db, .ok ())
  else
    ifErr s.openPieceStream db <|
      let request := ⟨entry.address.string P, Int64.ofNat (since db), mcol.size⟩
      match receivePieces P mcol.hashList 0 (Writer.start db)
          (clientPieces (s.pieces request) mcol.size) with
      | (w, .error f) => (w.committed, .error f)
      | (w, .ok ()) => ifErr s.requestAddPeer w.commit.committed (w.commit.committed, .ok ())

/-- `Peer.Mirror`: the database it leaves, once `InsertPieces` is through, and its result. -/
def mirror (db : Database) (s : Session) : Database × Result Unit :=
  ifErr s.ping db <|
    match s.entry with
    | .error f => (db, .error f)
    | .ok entry =>
      ifErr s.openStream db <|
        match clientCollection P grow (s.hashList entry.address) entry with
        | .error f => (db, .error f)
        | .ok mcol => ifErr s.saveCollection db (download P db s entry mcol)

/-! ## What is handed over -/

/-- The pieces that the loop of `Mirror` hands to `InsertPieces`, from piece `i` of the hash list on. -/
def handedPieces (hashList : Buffer UInt8) : Nat → List Piece → List Piece
  | _, [] => []
  | i, piece :: pieces =>
    match hashList.sliceAt (32 * i) (32 * i + 32) with
    | none => []
    | some hash =>
      if hash ≠ piece.hash P then [] else piece :: handedPieces hashList (i + 1) pieces

/-- The pieces that come from the peer during a call of `Mirror`. -/
def sentPieces (db : Database) (s : Session) (entry : Entry) (mcol : MessageCollection) : List Piece :=
  clientPieces (s.pieces ⟨entry.address.string P, Int64.ofNat (since db), mcol.size⟩) mcol.size

/-- What a call of `Mirror` hands to `InsertPieces`. -/
def handedOver (db : Database) (s : Session) : List Piece :=
  match s.ping, s.entry, s.openStream with
  | none, .ok entry, none =>
    match clientCollection P grow (s.hashList entry.address) entry, s.saveCollection,
        s.openPieceStream with
    | .ok mcol, none, none =>
      if Int64.ofNat db.postCount = entry.postCount then []
      else handedPieces P mcol.hashList 0 (sentPieces P db s entry mcol)
    | _, _, _ => []
  | _, _, _ => []

/-- The hash list that `Mirror` saves as `collection.dat`, and serves on. -/
def savedList (s : Session) : Option Bytes :=
  match s.ping, s.entry, s.openStream with
  | none, .ok entry, none =>
    match clientCollection P grow (s.hashList entry.address) entry with
    | .ok mcol => some mcol.hashList.view
    | .error _ => none
  | _, _, _ => none

/-- Block `i` of a hash list, if the list is long enough to have it. -/
def MessageCollection.block (mhl : MessageCollection) (i : Nat) : Option Bytes :=
  if 32 * (i + 1) ≤ mhl.hashList.len then some ((mhl.hashList.view.drop (32 * i)).take 32) else none

/-- The first `n` blocks, if the list is long enough to have them. -/
def MessageCollection.blocks (mhl : MessageCollection) (n : Nat) : Option Bytes :=
  if 32 * n ≤ mhl.hashList.len then some (mhl.hashList.view.take (32 * n)) else none

/-- The piece is the one that the hash list has at `i`, and the hash list is the one of the entry. -/
structure Listed (entry : Entry) (mcol : MessageCollection) (i : Nat) (piece : Piece) : Prop where
  lt_size : i < mcol.size.toInt.toNat
  block : mcol.block i = some (P.sha3 (piece.posts.flatMap Piece.textOf))
  root : (mcol.blocks mcol.size.toInt.toNat).map P.sha3 = some entry.collectionHash

/-! ## An honest peer -/

/-- The posts of a peer: numbered from one, with different info hashes, and with texts that contain no
separator. -/
structure Index (remote : Database) : Prop where
  numbered : remote.Numbered
  unique : (remote.rows.map Row.infoHash).Nodup
  noBar : ∀ r ∈ remote.rows, ∀ text ∈ r.texts, bar ∉ text.load

/-- The peer `srv` answers for the posts in `remote`, which the entry describes: it has the hashes of
the pieces as its hash list, it sends these posts, and the entry has their number and the hash of the
hash list. -/
structure Publishes (srv : Server) (entry : Entry) (remote : Database) : Prop where
  index : Index remote
  hashList : ∃ hl : Buffer UInt8, hl.view = remote.pieceHashes P ∧
    srv.handleHashList P entry.address = .ok ⟨hl, Int64.ofNat (hl.len / 32)⟩
  pieces : ∀ id length, srv.handlePiece P ⟨entry.address.string P, id, length⟩ =
    .ok (pieceStream (remote.queryPiecePosts id length))
  root : entry.collectionHash = P.sha3 (remote.pieceHashes P)
  postCount : entry.postCount.toInt = remote.rows.length

/-- A session with the peer `srv` in which nothing fails. A handler that returns an error closes its
stream. -/
def honestSession (srv : Server) (entry : Entry) : Session where
  ping := none
  entry := .ok entry
  openStream := none
  hashList address :=
    match srv.handleHashList P address with
    | .ok reply => .ok reply.write
    | .error _ => .error (.error "EOF")
  saveCollection := none
  openPieceStream := none
  pieces mrp := (srv.handlePiece P mrp).toOption
  requestAddPeer := none

/-- Mirroring returns without an error, and the database ends with the rows of `remote`. -/
def Completes (db : Database) (s : Session) (remote : Database) : Prop :=
  (mirror P grow db s).2 = .ok () ∧ (mirror P grow db s).1.rows = remote.rows

/-- The hash list of `n` posts fits into a message. -/
def HashListFits (n : Nat) : Prop :=
  encodedCollection (32 * Paging.count pieceSize n) (Paging.count pieceSize n) ≤ maxMessageContentSize

/-- What is sent is stored again as it was: the info hashes of all posts, and every text of the posts after
the first `m`. -/
structure Settled (remote : Database) (m : Nat) : Prop where
  infoHash : ∀ r ∈ remote.rows, P.store r.infoHash.load = r.infoHash
  texts : ∀ r ∈ remote.rows.drop m, ∀ text ∈ r.texts, P.store text.load = text

/-- The hash list fits into a message; and the mirror with the first `m` posts is complete already, or it has
at most one piece and the posts are stored as they were. -/
def Mirrorable (remote : Database) (m : Nat) : Prop :=
  HashListFits remote.rows.length ∧ (m = remote.rows.length ∨ m ≤ pieceSize ∧ Settled P remote m)

/-- No info hash that is sent is stored as that of another post. -/
def Unmistaken (remote : Database) : Prop :=
  ∀ r ∈ remote.rows, ∀ r' ∈ remote.rows, P.store r.infoHash.load = r'.infoHash → r = r'

/-- No later piece has the hash of the first one. -/
def Separated (remote : Database) : Prop :=
  ∀ i, 0 < i → i < Paging.count pieceSize remote.rows.length →
    P.sha3 (remote.pieceText i) ≠ P.sha3 (remote.pieceText 0)

end Zif.Node
