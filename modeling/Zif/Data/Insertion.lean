import Zif.Data.Database

/-!
# `InsertPieces` on an engine that can fail

`InsertPieces` stores pieces in transactions of 99. A transaction that is open when the function returns is
committed by a deferred function, which also makes the full text index and sets the result. `Engine` says
which of the statements fail; a statement that fails changes nothing, and a transaction whose commit fails is
rolled back.

The full text index itself, and closing the channel, are left out.
-/

namespace Zif.Data

open Go

/-- The errors of the statements, where they fail: of each `Begin`, `Commit` and `Exec` by its number, and of
preparing the statement of `GenerateFts`. -/
structure Engine where
  beginTx : Nat → Option String
  commit : Nat → Option String
  exec : Nat → Option String
  prepare : Option String

/-- No statement fails. -/
def Engine.sound : Engine := ⟨fun _ => none, fun _ => none, fun _ => none, none⟩

/-- `*sql.Tx`. -/
inductive Tx where
  /-- Open; the database as the transaction sees it. -/
  | active (db : Database)
  /-- Committed or rolled back. -/
  | done
  /-- The pointer that comes with an error of `Begin`. -/
  | null
  deriving DecidableEq, Repr

/-- The error of using a transaction that is done. -/
def errTxDone : String := "sql: Transaction has already been committed or rolled back"

/-- The state of `InsertPieces`. -/
structure Insertion where
  /-- What has been committed: the database as others see it. -/
  committed : Database
  tx : Tx
  /-- The pieces in the open transaction. -/
  n : Nat
  /-- How many statements there have been so far. -/
  begins : Nat
  commits : Nat
  execs : Nat
  deriving DecidableEq, Repr

namespace Insertion

variable (P : Prims) (eng : Engine)

/-- `tx, err = db.conn.Begin()`. -/
def beginTx (s : Insertion) : Insertion × Result Unit :=
  match eng.beginTx s.begins with
  | some err => ({ s with tx := .null, begins := s.begins + 1 }, .error (.error err))
  | none => ({ s with tx := .active s.committed, begins := s.begins + 1 }, .ok ())

/-- `tx.Commit()`. -/
def commit (s : Insertion) : Insertion × Result Unit :=
  match s.tx with
  | .null => (s, .error .panic)
  | .done => (s, .error (.error errTxDone))
  | .active db =>
    match eng.commit s.commits with
    | some err => ({ s with tx := .done, commits := s.commits + 1 }, .error (.error err))
    | none => ({ s with committed := db, tx := .done, commits := s.commits + 1 }, .ok ())

/-- `tx.Exec(sql_insert_post, ...)`. -/
def exec (s : Insertion) (post : Post) : Insertion × Result Unit :=
  match s.tx with
  | .null => (s, .error .panic)
  | .done => (s, .error (.error errTxDone))
  | .active db =>
    match eng.exec s.execs with
    | some err => ({ s with execs := s.execs + 1 }, .error (.error err))
    | none => ({ s with tx := .active (db.insert P post), execs := s.execs + 1 }, .ok ())

/-- The loop over the posts of a piece. -/
def execAll (s : Insertion) : List Post → Insertion × Result Unit
  | [] => (s, .ok ())
  | post :: posts =>
    match s.exec P eng post with
    | (s, .error f) => (s, .error f)
    | (s, .ok ()) => s.execAll posts

/-- The transaction is committed after 99 pieces, and a new one begun. -/
def rollOver (s : Insertion) : Insertion × Result Unit :=
  if s.n = 99 then
    match s.commit eng with
    | (s, .error f) => (s, .error f)
    | (s, .ok ()) =>
      match s.beginTx eng with
      | (s, .error f) => (s, .error f)
      | (s, .ok ()) => ({ s with n := 0 }, .ok ())
  else (s, .ok ())

/-- One round of the loop over the pieces. -/
def receive (s : Insertion) (piece : Piece) : Insertion × Result Unit :=
  match s.rollOver eng with
  | (s, .error f) => (s, .error f)
  | (s, .ok ()) =>
    match s.execAll P eng piece.posts with
    | (s, .error f) => (s, .error f)
    | (s, .ok ()) => ({ s with n := s.n + 1 }, .ok ())

/-- The loop over the pieces that come before a `nil`, which is how the caller ends it: were the channel closed
instead, the `close(pieces)` of the deferred function would panic. -/
def receiveAll (s : Insertion) : List Piece → Insertion × Result Unit
  | [] => (s, .ok ())
  | piece :: pieces =>
    match s.receive P eng piece with
    | (s, .error f) => (s, .error f)
    | (s, .ok ()) => s.receiveAll pieces

/-- `GenerateFts`. The error of running its statement is dropped. -/
def generateFts : Result Unit :=
  match eng.prepare with
  | some err => .error (.error err)
  | none => .ok ()

/-- The deferred function. The transaction is done after `Commit`, so that `Rollback` has no effect, and the
result is that of `GenerateFts`. -/
def deferred (s : Insertion) : Insertion × Result Unit :=
  match s.commit eng with
  | (s, .error .panic) => (s, .error .panic)
  | (s, _) => (s, generateFts eng)

/-- `InsertPieces`. The deferred function is not there yet when the first `Begin` fails. -/
def insertPieces (db : Database) (pieces : List Piece) : Insertion × Result Unit :=
  match beginTx eng ⟨db, .null, 0, 0, 0, 0⟩ with
  | (s, .error f) => (s, .error f)
  | (s, .ok ()) => (s.receiveAll P eng pieces).1.deferred eng

/-- A `Begin`, `Commit` or `Exec` has failed. -/
def Failed (s : Insertion) : Prop :=
  (∃ k < s.begins, (eng.beginTx k).isSome) ∨ (∃ k < s.commits, (eng.commit k).isSome) ∨
    ∃ k < s.execs, (eng.exec k).isSome

/-- The database has the posts of the first pieces, each of them whole. -/
def WholePieces (db : Database) (pieces : List Piece) (db' : Database) : Prop :=
  ∃ k, db'.rows = (db.insertAll P ((pieces.take k).flatMap Piece.posts)).rows

/-- If a statement fails, an error is returned and no piece is there in part. -/
def Reports (db : Database) (pieces : List Piece) : Prop :=
  let out := insertPieces P eng db pieces
  out.1.Failed eng → (∃ err, out.2 = .error (.error err)) ∧ WholePieces P db pieces out.1.committed

/-- An `Exec` has failed within a piece, and the posts before it have been committed. Some of these were new,
and so are some of the posts from there on. -/
structure LeavesPart (db : Database) (pieces : List Piece) (s : Insertion) : Prop where
  exec : (eng.exec (s.execs - 1)).isSome
  commit : eng.commit (s.commits - 1) = none
  divided : ∃ before piece after pre post, pieces = before ++ piece :: after ∧ piece.posts = pre ++ post ∧
    s.execs = (before.flatMap Piece.posts ++ pre).length + 1 ∧
    let base := db.insertAll P (before.flatMap Piece.posts)
    (base.insertAll P pre).rows ≠ base.rows ∧
      ((base.insertAll P pre).insertAll P post).rows ≠ (base.insertAll P pre).rows

end Insertion

/-! ## Resuming -/

/-- The row is the one that is stored for a post, up to the counts of seeders and leechers. -/
structure Post.StoredAs (P : Prims) (p : Post) (r : Row) : Prop where
  id : r.id = p.id
  infoHash : r.infoHash = P.store p.infoHash
  title : r.title = P.store p.title
  size : r.size = p.size
  fileCount : r.fileCount = p.fileCount
  uploadDate : r.uploadDate = p.uploadDate
  tags : r.tags = P.store p.tags
  metadata : r.metadata = P.store p.metadata

/-- The pieces of a list of posts. -/
def Piece.cut (posts : List Post) : List Piece :=
  (List.range (Paging.count pieceSize posts.length)).map fun i =>
    ⟨UInt64.ofNat i, Paging.page pieceSize posts i, (Paging.page pieceSize posts i).flatMap textOf⟩

end Zif.Data
