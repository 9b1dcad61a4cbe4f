import Zif.Data.Database

/-!
# Pieces on the wire

A peer answers a request for pieces with the posts themselves, each field followed by `|`, and a post
with id `-1` at the end (`HandlePiece`). The other side reads field by field and cuts the posts into
pieces (`Client.Pieces`). It stops reading a piece after 1000 posts, at the id `-1`, or when the stream
ends in the middle of a post; then it goes on with the next piece, as many as were asked for.

The gzip layer is left out.
-/

namespace Zif.Node

open Go Data

/-! ## Writing -/

/-- The post that ends a stream. -/
def endPost : Post where
  id := -1
  infoHash := []
  title := []
  size := 0
  fileCount := 0
  seeders := 0
  leechers := 0
  uploadDate := 0
  tags := []
  metadata := []

/-- What `HandlePiece` writes for the posts it reads off the channel. -/
def pieceStream (posts : List Post) : Bytes :=
  posts.flatMap (fun post => post.write [bar] [] true) ++ endPost.write [bar] [] true

/-! ## Reading -/

/-- `ErrorReader`: the bytes to come, and whether `Err` is set. -/
structure ErrorReader where
  rest : Bytes
  err : Bool
  deriving DecidableEq, Repr

/-- `ErrorReader.ReadString`. Each call sets `Err` anew. -/
def ErrorReader.readString (er : ErrorReader) (delim : UInt8) : Bytes × ErrorReader :=
  if delim ∈ er.rest then
    (er.rest.takeWhile (· ≠ delim), ⟨(er.rest.dropWhile (· ≠ delim)).drop 1, false⟩)
  else ([], ⟨[], true⟩)

/-- The closure `convert` of `Client.Pieces`: zero for what is not a number. -/
def convert (val : Bytes) : Int64 := (atoi val).getD 0

/-- How a round of the inner loop of `Client.Pieces` ends. -/
inductive Round where
  /-- With a post. -/
  | post (p : Post)
  /-- By leaving the loop, at the id `-1` or at an error. -/
  | leave
  deriving DecidableEq, Repr

/-- A round of the inner loop. Only the error of the last read is looked at. -/
def readPost (er : ErrorReader) : Round × ErrorReader :=
  let (idText, er) := er.readString bar
  let id := convert idText
  if id = -1 then (.leave, er)
  else
    let (infoHash, er) := er.readString bar
    let (title, er) := er.readString bar
    let (size, er) := er.readString bar
    let (fileCount, er) := er.readString bar
    let (seeders, er) := er.readString bar
    let (leechers, er) := er.readString bar
    let (uploadDate, er) := er.readString bar
    let (tags, er) := er.readString bar
    let (metadata, er) := er.readString bar
    if er.err then (.leave, er)
    else (.post { id, infoHash, title, size := convert size, fileCount := convert fileCount,
                  seeders := convert seeders, leechers := convert leechers,
                  uploadDate := convert uploadDate, tags, metadata }, er)

/-- The inner loop, with room for `left` more posts. -/
def readPosts : Nat → Piece → ErrorReader → Piece × ErrorReader
  | 0, piece, er => (piece, er)
  | left + 1, piece, er =>
    match readPost er with
    | (.post p, er) => readPosts left (piece.addDropping true p) er
    | (.leave, er) => (piece, er)

/-- The outer loop. -/
def readPieces : Nat → ErrorReader → List Piece
  | 0, _ => []
  | length + 1, er =>
    let (piece, er) := readPosts pieceSize (Piece.setup 0) er
    piece :: readPieces length er

/-- `Client.Pieces`: the pieces sent on the channel. `stream` is what the peer sends; without it there
is no gzip header and the channel is closed. -/
def clientPieces (stream : Option Bytes) (length : Int64) : List Piece :=
  match stream with
  | none => []
  | some stream => readPieces length.toInt.toNat ⟨stream, false⟩

end Zif.Node
