import Zif.Data.Database
import Zif.Lib.Ranking

/-!
# Pages of posts

`QueryRecent` and `QueryPopular` give the posts in pages of 25: the newest first, or those of the newest
10000 that are shared by most peers first. A page is worked out anew for each call, so posts that are
stored between two calls move the ones that come after them to later pages.

The engine reads the table along its rowids, or backwards along an index; rows with the same key stay in
the order they are read in. That order is a parameter.

A query can fail before its first row, and then its error is returned. It can also fail while its rows are read, and
nobody asks for the error of that: the page has the rows that were read before, and there is no error.
-/

namespace Zif.Data

open Go

/-- `page_size`. -/
def pageSize : Nat := 25

/-- The number of posts that `sql_query_popular_post` looks at. -/
def popularLimit : Nat := 10000

/-- `LIMIT ?,?`. A negative offset is none, and so is a negative limit. -/
def limit (offset count : Int64) (rows : List Row) : List Row :=
  let rest := rows.drop offset.toInt.toNat
  if count < 0 then rest else rest.take count.toInt.toNat

/-- How a query fails. -/
inductive QueryFailure where
  /-- `Query` returns an error. -/
  | query (err : String)
  /-- `Next` is false after this number of rows. -/
  | rows (read : Nat)

/-- `seeders + leechers`. A sum that is out of the range of integers is a real number; `real` is what comes of the
sum then. -/
def sqlSum (real : Int → Int) (x y : Int64) : Int :=
  let sum := x.toInt + y.toInt
  if -2 ^ 63 ≤ sum ∧ sum < 2 ^ 63 then sum else real sum

namespace Database

variable (backwards : Bool) (real : Int → Int)

/-- The table, in the order it is read in. -/
def scanned (db : Database) : List Row := if backwards then db.rows.reverse else db.rows

/-- The statement `sql_query_recent_post`, without its limit. -/
def recentPost (db : Database) : List Row :=
  Ranking.byKey (fun r => r.uploadDate.toInt) (db.scanned backwards)

/-- The statement `sql_query_popular_post`, without its last limit. -/
def popularPost (db : Database) : List Row :=
  Ranking.byKey (fun r => sqlSum real r.seeders r.leechers) ((db.recentPost backwards).take popularLimit)

/-- `PaginatedQuery`; the product wraps around. -/
def paginatedQuery (query : List Row) (page : Int64) (fails : Option QueryFailure) : Result (List Post) :=
  let rows := limit (Int64.ofNat pageSize * page) (Int64.ofNat pageSize) query
  match fails with
  | some (.query err) => .error (.error err)
  | some (.rows read) => .ok ((rows.take read).map Row.scan)
  | none => .ok (rows.map Row.scan)

/-- `QueryRecent`. -/
def queryRecent (db : Database) (page : Int64) (fails : Option QueryFailure) : Result (List Post) :=
  paginatedQuery (db.recentPost backwards) page fails

/-- `QueryPopular`. -/
def queryPopular (db : Database) (page : Int64) (fails : Option QueryFailure) : Result (List Post) :=
  paginatedQuery (db.popularPost backwards real) page fails

/-- `Search`. What the full text index finds for a text, an offset and a limit is `docids`, as far as it is read;
the posts are then read one by one. -/
def search (docids : Bytes → Int64 → Int64 → Except String (List UInt64)) (db : Database) (query : Bytes)
    (page pageSize : Int64) : Result (List Post) :=
  match docids query (page * pageSize) pageSize with
  | .error err => .error (.error err)
  | .ok ids => ids.mapM db.queryPostId

end Database

/-! ## Reading while others write -/

/-- A call that changes the table. -/
inductive Write where
  | change (c : Change)
  | addMeta (pid : Int64) (value : Bytes) (fails : Option String)
  | setSeeders (id seeders : UInt64) (fails : Option String)
  | setLeechers (id leechers : UInt64) (fails : Option String)

/-- The database after such a call. -/
def Database.write (P : Prims) (db : Database) : Write → Database
  | .change c => db.change P c
  | .addMeta pid value fails => (db.addMeta P pid value fails).1
  | .setSeeders id seeders fails => (db.setSeeders id seeders fails).1
  | .setLeechers id leechers fails => (db.setLeechers id leechers fails).1

/-- Someone who asks for one page of recent posts after the other, until one is empty. -/
structure Reading where
  db : Database
  /-- The page that is asked for next. -/
  page : Nat
  /-- The posts of the pages before. -/
  posts : List Post
  /-- A page was empty. -/
  ended : Bool

namespace Reading

/-- The first page has not been asked for. -/
def start (db : Database) : Reading := ⟨db, 0, [], false⟩

/-- Something happens to the database: a write, or a request for the next page. -/
inductive Access where
  | write (w : Write)
  | next (fails : Option QueryFailure)

variable (P : Prims) (backwards : Bool)

/-- What comes of an access. After an error the same page can be asked for again. -/
def step (r : Reading) : Access → Reading
  | .write w => { r with db := r.db.write P w }
  | .next fails =>
    if r.ended then r
    else
      match r.db.queryRecent backwards (Int64.ofNat r.page) fails with
      | .error _ => r
      | .ok [] => { r with ended := true }
      | .ok (post :: posts) => { r with page := r.page + 1, posts := r.posts ++ post :: posts }

end Reading

end Zif.Data
