import Zif.Prims

/-!
# Posts and pieces

A post describes one torrent. A peer numbers its posts and cuts them into pieces of `pieceSize`; a
piece is known by the hash of the texts of its posts, written with the separator `|` and without the
counts of seeders and leechers, which change.

A running SHA3 state is the byte string written to it so far. `Post.Json` is left out.
-/

namespace Zif.Data

open Go

/-- `PieceSize`. -/
def pieceSize : Nat := 1000

/-- The byte `|`. -/
def bar : UInt8 := 124

/-- `Post`. -/
structure Post where
  id : Int64
  infoHash : Bytes
  title : Bytes
  size : Int64
  fileCount : Int64
  seeders : Int64
  leechers : Int64
  uploadDate : Int64
  tags : Bytes
  metadata : Bytes
  deriving DecidableEq, Repr

namespace Post

/-- `Post.Write`: what is written. -/
def write (p : Post) (sep term : Bytes) (seedLeech : Bool) : Bytes :=
  itoa p.id.toInt ++ sep ++ p.infoHash ++ sep ++ p.title ++ sep ++ itoa p.size.toInt ++ sep ++
    itoa p.fileCount.toInt ++
    (if seedLeech then sep ++ itoa p.seeders.toInt ++ sep ++ itoa p.leechers.toInt else []) ++
    sep ++ itoa p.uploadDate.toInt ++ sep ++ p.tags ++ sep ++ p.metadata ++ sep ++ term

/-- `var post Post`. -/
def zero : Post := ⟨0, [], [], 0, 0, 0, 0, 0, [], []⟩

/-- The fields that are text. -/
def texts (p : Post) : List Bytes := [p.infoHash, p.title, p.tags, p.metadata]

/-- No text contains the separator. -/
def Plain (p : Post) : Prop := ∀ text ∈ p.texts, bar ∉ text

instance : DecidablePred Plain := fun p => inferInstanceAs (Decidable (∀ text ∈ p.texts, bar ∉ text))

/-- The posts agree on everything but the counts of seeders and leechers. -/
def SameData (p q : Post) : Prop :=
  p.id = q.id ∧ p.infoHash = q.infoHash ∧ p.title = q.title ∧ p.size = q.size ∧
    p.fileCount = q.fileCount ∧ p.uploadDate = q.uploadDate ∧ p.tags = q.tags ∧
    p.metadata = q.metadata

/-- `Post.Valid` at the time `now`. -/
def valid (p : Post) (now : Int64) : Result Unit :=
  if p.title.length > 140 then .error (.error "Title too long")
  else if p.uploadDate > now then .error (.error "Upload data cannot be in the future")
  else .ok ()

end Post

/-- `Piece`. -/
structure Piece where
  id : UInt64
  posts : List Post
  /-- What the field `hash` has been fed. -/
  written : Bytes
  deriving DecidableEq, Repr

namespace Piece

/-- A piece after `Setup`. -/
def setup (id : UInt64) : Piece := ⟨id, [], []⟩

/-- The bytes `Add` feeds to the hash of the piece: `post.String("|", "", false)`. -/
def textOf (post : Post) : Bytes := post.write [bar] [] false

/-- `Piece.Add`. -/
def add (p : Piece) (post : Post) (store : Bool) : Result Piece :=
  if p.posts.length > pieceSize then .error (.error "Piece full")
  else .ok { p with
    posts := if store then p.posts ++ [post] else p.posts
    written := p.written ++ textOf post }

/-- `piece.Add(post, store)` as a statement: its error is dropped. -/
def addDropping (store : Bool) (p : Piece) (post : Post) : Piece :=
  match p.add post store with
  | .ok p' => p'
  | .error _ => p

/-- `Piece.Hash`. -/
def hash (P : Prims) (p : Piece) : Bytes := P.sha3 p.written

/-- The hash has been fed the texts of the posts, as it is when each of them was stored. -/
def Filled (p : Piece) : Prop := p.written = p.posts.flatMap textOf

end Piece

end Zif.Data
