import Zif.Data.Post
import Zif.Lib.Paging

/-!
# The database of posts

One SQLite table, `post`. Rows are listed in rowid order, which is the order the engine scans them
in; a new row gets the largest id plus one, and `INSERT OR IGNORE` skips a post whose info hash, as
it is stored, is already there. The text columns are declared `STRING`, so they hold a `Cell`.

One connection is used throughout, which is what `LastInsertId` refers to. The full text index, which
is kept in a table of its own, and the queries of the search pages are left out.
-/

namespace Zif.Data

open Go

/-- A row of the table `post`. -/
structure Row where
  id : Int64
  infoHash : Cell
  title : Cell
  size : Int64
  fileCount : Int64
  seeders : Int64
  leechers : Int64
  uploadDate : Int64
  tags : Cell
  metadata : Cell
  deriving DecidableEq, Repr

/-- The text columns. -/
def Row.texts (r : Row) : List Cell := [r.infoHash, r.title, r.tags, r.metadata]

/-- `rows.Scan` into a post. -/
def Row.scan (r : Row) : Post where
  id := r.id
  infoHash := r.infoHash.load
  title := r.title.load
  size := r.size
  fileCount := r.fileCount
  seeders := r.seeders
  leechers := r.leechers
  uploadDate := r.uploadDate
  tags := r.tags.load
  metadata := r.metadata.load

/-- The row that is stored for a post; the id of the post itself is not read. -/
def Post.toRow (P : Prims) (id : Int64) (p : Post) : Row where
  id := id
  infoHash := P.store p.infoHash
  title := P.store p.title
  size := p.size
  fileCount := p.fileCount
  seeders := p.seeders
  leechers := p.leechers
  uploadDate := p.uploadDate
  tags := P.store p.tags
  metadata := P.store p.metadata

/-- `Database`: the table, and the rowid of the last row this connection inserted. -/
structure Database where
  rows : List Row
  lastInsertId : Int64
  deriving DecidableEq, Repr

namespace Database

/-- A database that has just been created. -/
def new : Database := ⟨[], 0⟩

/-- The statement `sql_count_post`; `NULL` on an empty table, which leaves the result at zero. -/
def postCount (db : Database) : Nat :=
  match db.rows.getLast? with
  | none => 0
  | some r => r.id.toInt.toNat

/-- The rowid of the next row. -/
def nextId (db : Database) : Int64 :=
  match db.rows.getLast? with
  | none => 1
  | some r => r.id + 1

/-- The statement `sql_query_paged_post`: the rows after `id`, at most `limit` of them. A negative
limit is none. -/
def pagedPost (db : Database) (id limit : Int64) : List Row :=
  let rest := db.rows.filter fun r => id < r.id
  if limit < 0 then rest else rest.take limit.toInt.toNat

variable (P : Prims)

/-- The statement `sql_insert_post`. -/
def insert (db : Database) (post : Post) : Database :=
  if db.rows.any fun r => r.infoHash = P.store post.infoHash then db
  else ⟨db.rows ++ [post.toRow P db.nextId], db.nextId⟩

/-- The posts are inserted one after the other. -/
def insertAll (db : Database) (posts : List Post) : Database :=
  posts.foldl (fun db post => db.insert P post) db

/-- `InsertPost`: the database, the id and the error. `fails` is the error of the engine, if the
statement fails. -/
def insertPost (db : Database) (post : Post) (fails : Option String) :
    Database × Int64 × Option String :=
  match fails with
  | some err => (db, -1, some err)
  | none => (db.insert P post, (db.insert P post).lastInsertId, none)

/-- `QueryPiece`, when the engine does not fail. The product wraps around, and the driver takes the
`uint` for an `int64`. -/
def queryPiece (db : Database) (id : UInt64) (store : Bool) : Result Piece :=
  .ok (((db.pagedPost (id * UInt64.ofNat pieceSize).toInt64 (Int64.ofNat pieceSize)).map
    Row.scan).foldl (Piece.addDropping store) (Piece.setup id))

/-- `QueryPostId`, when the engine does not fail. Each row that is found is read into the same post. -/
def queryPostId (db : Database) (id : UInt64) : Result Post :=
  .ok ((db.rows.filter fun r => r.id = id.toInt64).foldl (fun _ r => r.scan) Post.zero)

/-- `QueryPiecePosts`: the posts that are sent on the channel. -/
def queryPiecePosts (db : Database) (start length : Int64) : List Post :=
  (db.pagedPost (start * Int64.ofNat pieceSize)
    (start + Int64.ofNat pieceSize * length)).map Row.scan

/-! ### Changing rows -/

/-- `UPDATE post SET ... WHERE id = ?`. -/
def updateWhere (db : Database) (id : Int64) (set : Row → Row) : Database :=
  { db with rows := db.rows.map fun r => if r.id = id then set r else r }

/-- Running an `UPDATE`; `fails` is the error of the engine, if the statement fails. -/
def execUpdate (db : Database) (id : Int64) (set : Row → Row) (fails : Option String) :
    Database × Result Unit :=
  match fails with
  | some err => (db, .error (.error err))
  | none => (db.updateWhere id set, .ok ())

/-- `AddMeta`. -/
def addMeta (db : Database) (pid : Int64) (value : Bytes) (fails : Option String) :
    Database × Result Unit :=
  db.execUpdate pid (fun r => { r with metadata := P.store value }) fails

/-- An `UPDATE` with two arguments of type `uint`, which the driver takes for `int64`. -/
def execCount (db : Database) (id count : UInt64) (set : Int64 → Row → Row) (fails : Option String) :
    Database × Result Unit :=
  db.execUpdate id.toInt64 (set count.toInt64) fails

/-- `SetSeeders`. -/
def setSeeders (db : Database) (id seeders : UInt64) (fails : Option String) : Database × Result Unit :=
  db.execCount id seeders (fun n r => { r with seeders := n }) fails

/-- `SetLeechers`. -/
def setLeechers (db : Database) (id leechers : UInt64) (fails : Option String) :
    Database × Result Unit :=
  db.execCount id leechers (fun n r => { r with leechers := n }) fails

/-! ### What a hash list is of -/

/-- The ids are `1, 2, 3, ...`. -/
def Numbered (db : Database) : Prop := Paging.Numbered (fun r : Row => r.id.toInt) 0 db.rows

/-- The ids are positive and ascend, and there is an id after the last one. -/
structure Ascending (db : Database) : Prop where
  pos : ∀ r ∈ db.rows, 0 < r.id.toInt
  lt : db.rows.Pairwise fun r r' => r.id.toInt < r'.id.toInt
  next : db.postCount + 1 < 2 ^ 63

/-- A range of posts is the posts of the pieces in it, one after the other. -/
def RangeIsPieces (db : Database) (start length : Int64) : Prop :=
  ∃ pieces, (List.range length.toInt.toNat).mapM
      (fun i => db.queryPiece (UInt64.ofNat (start.toInt.toNat + i)) true) = .ok pieces ∧
    db.queryPiecePosts start length = pieces.flatMap Piece.posts

/-- A post that is inserted has its texts when it is queried by the id that was returned. -/
def KeepsTexts (db : Database) (post : Post) : Prop :=
  ∃ p, (db.insertPost P post none).1.queryPostId (db.insertPost P post none).2.1.toUInt64 = .ok p ∧
    p.texts = post.texts

/-- The rows of piece `i`: those with an id in `(1000 i, 1000 (i + 1)]`. -/
def pieceRows (db : Database) (i : Nat) : List Row :=
  db.rows.filter fun r => (pieceSize * i : Int) < r.id.toInt ∧ r.id.toInt ≤ pieceSize * (i + 1)

/-- The text of piece `i`. -/
def pieceText (db : Database) (i : Nat) : Bytes :=
  (db.pieceRows i).flatMap fun r => Piece.textOf r.scan

/-- The hashes of all pieces. -/
def pieceHashes (db : Database) : Bytes :=
  (List.range (Paging.count pieceSize db.rows.length)).flatMap fun i => P.sha3 (db.pieceText i)

end Database

/-! ## Storing pieces from a channel -/

/-- The state of `InsertPieces`. -/
structure Writer where
  /-- What has been committed: the database as others see it. -/
  committed : Database
  /-- The database as the open transaction sees it. -/
  tx : Database
  /-- The pieces in the open transaction. -/
  n : Nat

namespace Writer

/-- A fresh transaction. -/
def start (db : Database) : Writer := ⟨db, db, 0⟩

/-- `tx.Commit()`, and a fresh transaction. -/
def commit (w : Writer) : Writer := ⟨w.tx, w.tx, 0⟩

/-- One round of the loop of `InsertPieces`. -/
def receive (P : Prims) (w : Writer) (piece : Piece) : Writer :=
  let w := if w.n = 99 then w.commit else w
  { w with tx := piece.posts.foldl (fun db post => db.insert P post) w.tx, n := w.n + 1 }

end Writer

/-- `InsertPieces`, when no statement fails: the pieces are those received before the channel is closed
or a `nil` comes. The full text index is made at the end. -/
def Database.insertPieces (P : Prims) (db : Database) (pieces : List Piece) : Database :=
  (pieces.foldl (Writer.receive P) (Writer.start db)).commit.committed

/-! ## Histories -/

/-- A call that stores posts. -/
inductive Change where
  /-- `InsertPost`, with the error of the engine if there is one. -/
  | insertPost (post : Post) (fails : Option String)
  /-- An `InsertPieces` that completes. -/
  | insertPieces (pieces : List Piece)

/-- The posts that are handed to the engine and not refused by it. -/
def Change.posts : Change → List Post
  | .insertPost post none => [post]
  | .insertPost _ (some _) => []
  | .insertPieces pieces => pieces.flatMap Piece.posts

/-- The database after a call. -/
def Database.change (P : Prims) (db : Database) : Change → Database
  | .insertPost post fails => (db.insertPost P post fails).1
  | .insertPieces pieces => db.insertPieces P pieces

end Zif.Data
