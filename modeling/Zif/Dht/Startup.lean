import Zif.Dht.NetDb

/-!
# Starting up

The routing table lives in memory only. `NewDHT` opens the database of an earlier run with an empty
table and inserts the entries of the latest rows again, which is to fill the table from them.

A row is read back twice: by `Query`, which decodes the address of the row into the entry, and by
`QueryLatest`, which scans it into a variable of its own.
-/

namespace Zif.Dht

open Go

namespace DB

/-- The statement `sqlQueryLatest`. -/
def selectLatest (db : DB) : List EntryRow :=
  (db.entries.mergeSort fun r r' => decide (r'.id ≤ r.id)).take 20

/-- `QueryLatest`. The field `Address` of the entries stays empty. -/
def queryLatest (db : DB) : Result (List Entry) :=
  db.selectLatest.mapM fun r => do
    let seeds ← db.querySeeds r.id
    let seeding ← db.querySeeding r.id
    .ok (readRow r { raw := [] } seeds seeding)

/-- The entry a row stores, as `Query` reads it. -/
def storedEntry (db : DB) (r : EntryRow) : Result Entry := do
  let decoded ← Address.decodeAddress r.address.load
  let seeds ← db.querySeeds r.id
  let seeding ← db.querySeeding r.id
  .ok (readRow r decoded seeds seeding)

end DB

variable (P : Prims)

/-- The loop of `NewDHT`, which drops the errors of `Insert`. -/
def NetDB.insertLatest : List Entry → NetDB → Result NetDB
  | [], ndb => .ok ndb
  | i :: entries, ndb =>
    match ndb.insert P i with
    | (_, .error .panic) => .error .panic
    | (ndb, _) => insertLatest entries ndb

/-- `NewDHT` on the database of an earlier run. After an error of `QueryLatest` there are no entries to
insert. -/
def newDHT (addr : Address) (db : DB) : Result NetDB :=
  let ndb : NetDB := ⟨addr, Table.new, db⟩
  match db.queryLatest with
  | .error .panic => .error .panic
  | .error (.error _) => .ok ndb
  | .ok entries => ndb.insertLatest P entries

/-- Each of the 20 latest rows whose entry passes `Verify` has its address in the routing table that
`NewDHT` returns. -/
def Refills (addr : Address) (db : DB) : Prop :=
  ∀ r ∈ db.selectLatest, ∀ e, db.storedEntry r = .ok e → e.verify P = .ok () →
    ∃ ndb, newDHT P addr db = .ok ndb ∧ ∃ j, ∃ a ∈ ndb.table.bucket j, a.raw = e.address.raw

end Zif.Dht
