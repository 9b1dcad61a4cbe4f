import Zif.Dht.Entry
import Zif.Dht.Table

/-!
# The peer store

`NetDB` keeps the entries of other peers: a routing table in memory and three SQLite tables, `entry`,
`seed` and the full text table `ftsEntry`. The statements of `sql.go` are functions on the tables;
rows are listed in rowid order, and a new row gets the largest id plus one.

Two orders matter, and neither query has an `ORDER BY`. The seeds of an entry come out in the order
of the rows of `seed` (a scan of that table); what an entry is seeding comes out in the order of the
entries' ids (a search of the index that `UNIQUE(seed, for)` creates).
-/

namespace Zif.Dht

open Go

/-- A row of the table `entry`. -/
structure EntryRow where
  id : Nat
  address : Cell
  name : Cell
  desc : Cell
  publicAddress : Cell
  port : Int64
  publicKey : Bytes
  signature : Bytes
  collectionHash : Bytes
  postCount : Int64
  seedCount : Nat
  seedingCount : Nat
  updated : UInt64
  seen : Int64
  deriving DecidableEq, Repr

/-- A row of the table `seed`: the entry `seed` is a seed for the entry `seedFor`. -/
structure SeedRow where
  id : Nat
  seed : Nat
  seedFor : Nat
  deriving DecidableEq, Repr

/-- A row of the table `ftsEntry`. -/
structure FtsRow where
  docid : Nat
  name : Bytes
  desc : Bytes
  deriving DecidableEq, Repr

/-- The rowid of the next row. -/
def nextId (ids : List Nat) : Nat := ids.foldl max 0 + 1

/-- The database of a `NetDB`. -/
structure DB where
  entries : List EntryRow
  seeds : List SeedRow
  fts : List FtsRow
  deriving DecidableEq, Repr

namespace DB

variable (P : Prims)

/-- The database `NewNetDB` creates. -/
def new : DB := ⟨[], [], []⟩

/-- The row with the given address, if there is one; `address` is unique. -/
def row (db : DB) (address : Cell) : Option EntryRow := db.entries.find? fun r => r.address = address

/-- The columns both `sqlUpdateEntry` and `sqlInsertEntry` set, on top of a row's id and address. -/
def setColumns (r : EntryRow) (e : Entry) : EntryRow :=
  { r with
    name := P.store e.name
    desc := P.store e.desc
    publicAddress := P.store e.publicAddress
    port := e.port
    publicKey := e.publicKey
    signature := e.signature
    collectionHash := e.collectionHash
    postCount := e.postCount
    seedCount := e.seeds.length
    seedingCount := e.seeding.length
    updated := e.updated
    seen := e.seen }

/-- The row `sqlInsertEntry` adds. -/
def newRow (id : Nat) (address : Cell) (e : Entry) : EntryRow :=
  setColumns P
    { id, address, name := .text [], desc := .text [], publicAddress := .text [], port := 0,
      publicKey := [], signature := [], collectionHash := [], postCount := 0, seedCount := 0,
      seedingCount := 0, updated := 0, seen := 0 } e

/-- The statement `sqlUpdateEntry`: the database afterwards and the number of rows affected. The key
of an entry that passed `Verify` is not empty, so `NOT NULL` never fires. -/
def updateEntry (db : DB) (address : Bytes) (e : Entry) : Result (DB × Nat) :=
  if !driverAccepts e.updated then .error (.error (highBitError "$11"))
  else
    let hit := fun r : EntryRow => r.address = P.store address
    .ok ({ db with entries := db.entries.map fun r => if hit r then setColumns P r e else r },
      db.entries.countP hit)

/-- `insertIntoDB`. -/
def insertIntoDB (db : DB) (e : Entry) : Result (DB × Nat) :=
  if !driverAccepts e.updated then .error (.error (highBitError "$12"))
  else
    match db.row (P.store (e.address.string P)) with
    | some _ => .ok (db, 0)
    | none =>
      let id := nextId (db.entries.map EntryRow.id)
      .ok ({ db with
              entries := db.entries ++ [newRow P id (P.store (e.address.string P)) e]
              fts := if db.fts.any fun r => r.docid = id then db.fts
                else db.fts ++ [⟨id, e.name, e.desc⟩] }, 1)

/-- The statement `sqlQueryIdByAddress`, scanned into an id. -/
def queryIdByAddress (db : DB) (address : Bytes) : Result Nat :=
  match db.row (P.store address) with
  | some r => .ok r.id
  | none => .error (.error "sql: no rows in result set")

/-- The statement `sqlInsertSeed`. -/
def addSeedRow (db : DB) (seed seedFor : Nat) : DB :=
  if db.seeds.any fun s => s.seed = seed ∧ s.seedFor = seedFor then db
  else { db with seeds := db.seeds ++ [⟨nextId (db.seeds.map SeedRow.id), seed, seedFor⟩] }

/-- `InsertSeed`. -/
def insertSeed (db : DB) (entry seed : Address) : Result DB := do
  let entryId ← db.queryIdByAddress P (entry.string P)
  let seedId ← db.queryIdByAddress P (seed.string P)
  .ok (db.addSeedRow seedId entryId)

/-- A loop of `insertEntrySeeds`: registers the given (entry, seed) pairs up to the first failure. -/
def insertSeeds (db : DB) : List (Address × Address) → DB × Result Unit
  | [] => (db, .ok ())
  | (entry, seed) :: rest =>
    match db.insertSeed P entry seed with
    | .error f => (db, .error f)
    | .ok db' => db'.insertSeeds rest

/-- `insertEntrySeeds`: first the peers this entry is a seed for, then its own seeds. -/
def insertEntrySeeds (db : DB) (e : Entry) : DB × Result Unit :=
  db.insertSeeds P
    (e.seeding.map (fun i => ({ raw := i }, e.address)) ++ e.seeds.map fun i => (e.address, { raw := i }))

/-- The statement `sqlQuerySeeds`. -/
def selectSeeds (db : DB) (id : Nat) : List Cell :=
  (db.seeds.filter fun s => s.seedFor = id).flatMap fun s =>
    (db.entries.filter fun r => r.id = s.seed).map EntryRow.address

/-- The statement `sqlQuerySeeding`. -/
def selectSeeding (db : DB) (id : Nat) : List Cell :=
  db.entries.flatMap fun r =>
    (db.seeds.filter fun s => s.seed = id ∧ s.seedFor = r.id).map fun _ => r.address

/-- The loop that scans and decodes the addresses of a result. -/
def decodeAddresses (cells : List Cell) : Result (List Address) :=
  cells.mapM fun c => Address.decodeAddress c.load

/-- `querySeeds`. -/
def querySeeds (db : DB) (id : Nat) : Result (List Address) := decodeAddresses (db.selectSeeds id)

/-- `querySeeding`. -/
def querySeeding (db : DB) (id : Nat) : Result (List Address) :=
  decodeAddresses (db.selectSeeding id)

/-- The entry read from a row, with its address decoded and its seeds as given. -/
def readRow (r : EntryRow) (address : Address) (seeds seeding : List Address) : Entry where
  address := { raw := address.raw }
  name := r.name.load
  desc := r.desc.load
  publicAddress := r.publicAddress.load
  publicKey := r.publicKey
  postCount := r.postCount
  updated := r.updated
  signature := r.signature
  collectionHash := r.collectionHash
  port := r.port
  seeds := seeds.map Address.raw
  seeding := seeding.map Address.raw
  seen := r.seen

/-- `Query` up to the re-insertion into the routing table: the entry and its id, or `none`. -/
def query (db : DB) (addr : Address) : Result (Option (Entry × Nat)) :=
  match db.row (P.store (addr.string P)) with
  | none => .ok none
  | some r => do
    let decoded ← Address.decodeAddress r.address.load
    let seeds ← db.querySeeds r.id
    let seeding ← db.querySeeding r.id
    .ok (some (readRow r decoded seeds seeding, r.id))

end DB

/-- `NetDB`. -/
structure NetDB where
  /-- The node's own address. -/
  addr : Address
  table : Table
  db : DB
  deriving DecidableEq, Repr

namespace NetDB

variable (P : Prims)

/-- `NewNetDB` on a database that does not exist yet. -/
def new (addr : Address) : NetDB := ⟨addr, Table.new, DB.new⟩

/-- `insertIntoTable`. -/
def insertIntoTable (ndb : NetDB) (addr : Address) : Result NetDB := do
  let table ← Table.insertIntoTable ndb.addr ndb.table addr
  .ok { ndb with table }

/-- `Update`. -/
def update (ndb : NetDB) (e : Entry) : Result (NetDB × Nat) := do
  e.verify P
  let (db, affected) ← ndb.db.updateEntry P (e.address.string P) e
  .ok ({ ndb with db }, affected)

/-- `InsertSeed`. -/
def insertSeed (ndb : NetDB) (entry seed : Address) : NetDB × Result Unit :=
  match ndb.db.insertSeed P entry seed with
  | .error f => (ndb, .error f)
  | .ok db => ({ ndb with db }, .ok ())

/-- `Insert`: the store afterwards, and the number of rows affected or the failure. Nothing is
undone when a later step fails. -/
def insert (ndb : NetDB) (e : Entry) : NetDB × Result Nat :=
  match e.verify P with
  | .error f => (ndb, .error f)
  | .ok () =>
    match ndb.insertIntoTable e.address with
    | .error f => (ndb, .error f)
    | .ok ndb₁ =>
      match ndb₁.update P e with
      | .error f => (ndb₁, .error f)
      | .ok (ndb₂, affected) =>
        if affected > 0 then (ndb₂, .ok affected)
        else
          match ndb₂.db.insertIntoDB P e with
          | .error f => (ndb₂, .error f)
          | .ok (db, affected) =>
            let (db', res) := db.insertEntrySeeds P e
            ({ ndb₂ with db := db' }, res.map fun _ => affected)

/-- `Query`. A row that is found is moved to the front of its bucket. -/
def query (ndb : NetDB) (addr : Address) : NetDB × Result (Option (Entry × Nat)) :=
  match ndb.db.query P addr with
  | .error f => (ndb, .error f)
  | .ok none => (ndb, .ok none)
  | .ok (some (e, id)) =>
    match ndb.insertIntoTable e.address with
    | .error f => (ndb, .error f)
    | .ok ndb' => (ndb', .ok (some (e, id)))

/-! ## Closest peers -/

/-- A loop `for _, i := range as { kv, _, err := ndb.Query(i); ... }` from element `n` on, with
`todo` elements to go. The elements are read while earlier queries have already changed the table.
With a limit the loop stops once the result is that long. -/
def rangeQuery (limit : Option Nat) (as : Slice) :
    (todo n : Nat) → NetDB → List (Option Entry) → NetDB × Result (List (Option Entry))
  | 0, _, ndb, ret => (ndb, .ok ret)
  | todo + 1, n, ndb, ret =>
    if limit.any fun l => ret.length ≥ l then (ndb, .ok ret)
    else
      match ndb.table.heap.read as n with
      | none => (ndb, .error .panic)
      | some i =>
        match ndb.query P i with
        | (ndb', .error .panic) => (ndb', .error .panic)
        | (ndb', .error (.error _)) => rangeQuery limit as todo (n + 1) ndb' ret
        | (ndb', .ok kv) => rangeQuery limit as todo (n + 1) ndb' (ret ++ [kv.map Prod.fst])

/-- `queryAddresses`. -/
def queryAddresses (ndb : NetDB) (as : Slice) : NetDB × Result (List (Option Entry)) :=
  rangeQuery P none as as.len 0 ndb []

/-- An inner loop of `FindClosest`: the bucket `i`, up to `BucketSize` results. -/
def scanBucket (ndb : NetDB) (i : Nat) (ret : List (Option Entry)) :
    NetDB × Result (List (Option Entry)) :=
  match ndb.table.buckets[i]? with
  | none => (ndb, .error .panic)
  | some s => rangeQuery P (some bucketSize) s s.len 0 ndb ret

/-- The body of the outer loop of `FindClosest`: the bucket `i` places to the left of `index`, then
the one `i` places to the right. -/
def scanStep (bits index i : Nat) (ndb : NetDB) (ret : List (Option Entry)) :
    NetDB × Result (List (Option Entry)) :=
  let left := if i ≤ index then ndb.scanBucket P (index - i) ret else (ndb, .ok ret)
  match left with
  | (ndb', .error f) => (ndb', .error f)
  | (ndb', .ok ret') =>
    if index + i < bits then ndb'.scanBucket P (index + i) ret' else (ndb', .ok ret')

/-- The outer loop of `FindClosest` from distance `i` on. Its condition fails for good once `i` has
passed both ends of the table, so `fuel` only has to be that large. -/
def scan (bits index : Nat) :
    (fuel i : Nat) → NetDB → List (Option Entry) → NetDB × Result (List (Option Entry))
  | 0, _, ndb, ret => (ndb, .ok ret)
  | fuel + 1, i, ndb, ret =>
    if (i ≤ index ∨ index + i ≤ bits) ∧ ret.length < bucketSize then
      match ndb.scanStep P bits index i ret with
      | (ndb', .error f) => (ndb', .error f)
      | (ndb', .ok ret') => scan bits index fuel (i + 1) ndb' ret'
    else (ndb, .ok ret)

/-- `FindClosest`. -/
def findClosest (ndb : NetDB) (addr : Address) : NetDB × Result (List (Option Entry)) :=
  match Table.index ndb.addr addr with
  | .error f => (ndb, .error f)
  | .ok i =>
    match ndb.table.slot i with
    | .error f => (ndb, .error f)
    | .ok (n, s) =>
      if s.len = bucketSize then ndb.queryAddresses P s
      else ndb.scan P (addr.raw.length * 8) n (n + addr.raw.length * 8 + 1) 0 []

end NetDB

end Zif.Dht
