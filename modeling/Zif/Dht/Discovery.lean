import Zif.Dht.NetDb
import Zif.Lib.Arrival
import Zif.Lib.Runs

/-!
# Learning of peers

A store learns of peers by `Insert` and keeps what is asked for by `Query` in front. Three things are
expected of it: that the routing table lists no peer the database does not know (`InStep`), that the
order in which entries arrive does not matter (`SameStore`), and that the seeds an entry names are
registered (`Registers`).
-/

namespace Zif.Dht

open Go

variable (P : Prims)

namespace NetDB

/-- `Query` for the id of an address, and then the links of that id. Without a row the id is -1, which
no link has. -/
def queryLinks (select : DB → Nat → Result (List Address)) (ndb : NetDB) (addr : Address) :
    NetDB × Result (List Address) :=
  match ndb.query P addr with
  | (ndb, .error f) => (ndb, .error f)
  | (ndb, .ok none) => (ndb, .ok [])
  | (ndb, .ok (some (_, id))) => (ndb, select ndb.db id)

/-- `QuerySeeds`. -/
def querySeeds : NetDB → Address → NetDB × Result (List Address) := queryLinks P DB.querySeeds

/-- `QuerySeeding`. -/
def querySeeding : NetDB → Address → NetDB × Result (List Address) := queryLinks P DB.querySeeding

/-- A call of the store. -/
inductive Call where
  | insert (e : Entry)
  | insertSeed (entry seed : Address)
  | query (addr : Address)

/-- The store after a call, whether or not the call fails. -/
def after (ndb : NetDB) : Call → NetDB
  | .insert e => (ndb.insert P e).1
  | .insertSeed entry seed => (ndb.insertSeed P entry seed).1
  | .query addr => (ndb.query P addr).1

/-- The entries are inserted one after the other. -/
def insertAll (ndb : NetDB) (es : List Entry) : NetDB := es.foldl (fun ndb e => (ndb.insert P e).1) ndb

end NetDB

/-- The entries of the calls are among those admitted. -/
def NetDB.Call.Admitted (admits : Entry → Prop) : NetDB.Call → Prop
  | .insert e => admits e
  | _ => True

/-- The address has a row under its text form. -/
def DB.Knows (db : DB) (raw : Bytes) : Prop :=
  ∃ r, db.row (P.store (Address.encodeRaw P raw)) = some r

/-- Every address of the routing table has a row, and no result of `FindClosest` is nil. -/
structure InStep (ndb : NetDB) : Prop where
  row : ∀ j, ∀ a ∈ ndb.table.bucket j, ndb.db.Knows P a.raw
  closest : ∀ target ndb' ret, ndb.findClosest P target = (ndb', .ok ret) → none ∉ ret

/-! ## Orders of arrival -/

/-- A row without its id, which is local to the database. -/
def EntryRow.columns (r : EntryRow) : EntryRow := { r with id := 0 }

/-- Both are lists of the same addresses, in any order. -/
def SameAddresses : Result (List Address) → Result (List Address) → Prop
  | .ok as, .ok as' => ∀ raw, raw ∈ as.map Address.raw ↔ raw ∈ as'.map Address.raw
  | _, _ => False

/-- The stores have the same entries, with the same seeds, seeding the same peers. -/
structure SameStore (ndb ndb' : NetDB) : Prop where
  rows : ∀ c, (ndb.db.row c).map EntryRow.columns = (ndb'.db.row c).map EntryRow.columns
  seeds : ∀ a, SameAddresses (ndb.querySeeds P a).2 (ndb'.querySeeds P a).2
  seeding : ∀ a, SameAddresses (ndb.querySeeding P a).2 (ndb'.querySeeding P a).2

/-- The links an entry asks for, from a seed to the peer it is a seed for, in the order they are
registered in. -/
def Entry.links (e : Entry) : List (Bytes × Bytes) :=
  e.seeding.map (fun i => (e.address.raw, i)) ++ e.seeds.map fun i => (i, e.address.raw)

/-- The entries that the driver takes are order free. -/
def OrderFree (es : List Entry) : Prop :=
  Arrival.OrderFree (fun e : Entry => e.address.raw) Entry.links
    (es.filter fun e => driverAccepts e.updated)

/-! ## Registering seeds -/

/-- The pairs of an entry and its seed that a loop of `insertEntrySeeds` registers without an error. -/
def DB.completed (db : DB) : List (Address × Address) → List (Bytes × Bytes)
  | [] => []
  | (entry, seed) :: rest =>
    match db.insertSeed P entry seed with
    | .error _ => []
    | .ok db' => (entry.raw, seed.raw) :: db'.completed rest

/-- The calls of `InsertSeed` that complete without an error within a call of the store: the call
itself, or those `Insert` makes for a row it has added. -/
def NetDB.completed (ndb : NetDB) : NetDB.Call → List (Bytes × Bytes)
  | .insertSeed entry seed => ndb.db.completed P [(entry, seed)]
  | .query _ => []
  | .insert e =>
    match e.verify P with
    | .error _ => []
    | .ok () =>
      match ndb.insertIntoTable e.address with
      | .error _ => []
      | .ok ndb₁ =>
        match ndb₁.update P e with
        | .error _ => []
        | .ok (ndb₂, affected) =>
          if affected > 0 then []
          else
            match ndb₂.db.insertIntoDB P e with
            | .error _ => []
            | .ok (db, _) =>
              db.completed P (e.seeding.map (fun i => ({ raw := i }, e.address)) ++
                e.seeds.map fun i => (e.address, { raw := i }))

/-- In the run of the calls on a new store, some `InsertSeed` for the two addresses completes without
an error. -/
def Completes (own : Address) (calls : List NetDB.Call) (entry seed : Bytes) : Prop :=
  ∃ pre c post, calls = pre ++ c :: post ∧
    (entry, seed) ∈ (Runs.run (NetDB.after P) (NetDB.new own) pre).completed P c

/-- The addresses of a call have no other text than that of their bytes. -/
def NetDB.Call.Canonical : NetDB.Call → Prop
  | .insert e => e.address.Canonical P
  | .insertSeed entry seed => entry.Canonical P ∧ seed.Canonical P
  | .query _ => True

/-- A result that is a list with the address in it. -/
def Lists (res : Result (List Address)) (raw : Bytes) : Prop :=
  ∃ as, res = .ok as ∧ raw ∈ as.map Address.raw

/-- The seeds the entry names and the peers it is seeding are found under its address, as far as they
have a row. -/
def Registers (ndb : NetDB) (e : Entry) : Prop :=
  (∀ i ∈ e.seeds, ndb.db.Knows P i → Lists (ndb.querySeeds P e.address).2 i) ∧
    ∀ i ∈ e.seeding, ndb.db.Knows P i → Lists (ndb.querySeeding P e.address).2 i

end Zif.Dht
