import Zif.Dht.Discovery

/-!
# `Insert` on an engine that can fail

`Insert` writes to the routing table and then to three tables of the database, without a transaction.
`Faults` says which of the statements the engine refuses; a refused statement changes nothing.
`insertWith` is `Insert` on such an engine, and `afterWith` any call of the store.
-/

namespace Zif.Dht

open Go

/-- The errors of the statements of one `Insert`, where they fail. -/
structure Faults where
  updateEntry : Option String
  insertEntry : Option String
  insertFtsEntry : Option String
  /-- The statements of the `n`-th call of `InsertSeed`. -/
  insertSeed : Nat → Option String

/-- No statement fails. -/
def Faults.none : Faults := ⟨.none, .none, .none, fun _ => .none⟩

/-- A statement that may fail. -/
def orFault {α : Type} (fault : Option String) (call : Result α) : Result α :=
  match fault with
  | some msg => .error (.error msg)
  | none => call

variable (P : Prims)

namespace DB

/-- `insertIntoDB`. A failure of the second statement leaves the row of the first. -/
def insertIntoDBWith (faults : Faults) (db : DB) (e : Entry) : DB × Result Nat :=
  if !driverAccepts e.updated then (db, .error (.error (highBitError "$12")))
  else
    match faults.insertEntry with
    | some msg => (db, .error (.error msg))
    | none =>
      match db.row (P.store (e.address.string P)) with
      | some _ => (db, .ok 0)
      | none =>
        let id := nextId (db.entries.map EntryRow.id)
        let db := { db with entries := db.entries ++ [newRow P id (P.store (e.address.string P)) e] }
        match faults.insertFtsEntry with
        | some msg => (db, .error (.error msg))
        | none =>
          ({ db with
              fts := if db.fts.any fun r => r.docid = id then db.fts
                else db.fts ++ [⟨id, e.name, e.desc⟩] }, .ok 1)

/-- The loops of `insertEntrySeeds` from the `n`-th call of `InsertSeed` on. -/
def insertSeedsWith (fails : Nat → Option String) (n : Nat) (db : DB) :
    List (Address × Address) → DB × Result Unit
  | [] => (db, .ok ())
  | (entry, seed) :: rest =>
    match orFault (fails n) (db.insertSeed P entry seed) with
    | .error f => (db, .error f)
    | .ok db' => db'.insertSeedsWith fails (n + 1) rest

end DB

/-- `Insert`. -/
def NetDB.insertWith (faults : Faults) (ndb : NetDB) (e : Entry) : NetDB × Result Nat :=
  match e.verify P with
  | .error f => (ndb, .error f)
  | .ok () =>
    match ndb.insertIntoTable e.address with
    | .error f => (ndb, .error f)
    | .ok ndb₁ =>
      match orFault faults.updateEntry (ndb₁.update P e) with
      | .error f => (ndb₁, .error f)
      | .ok (ndb₂, affected) =>
        if affected > 0 then (ndb₂, .ok affected)
        else
          match ndb₂.db.insertIntoDBWith P faults e with
          | (db, .error f) => ({ ndb₂ with db }, .error f)
          | (db, .ok affected) =>
            let (db', res) := db.insertSeedsWith P faults.insertSeed 0
              (e.seeding.map (fun i => ({ raw := i }, e.address)) ++
                e.seeds.map fun i => (e.address, { raw := i }))
            ({ ndb₂ with db := db' }, res.map fun _ => affected)

/-! ## Calls on such an engine -/

/-- A call of the store, with the errors of its statements. -/
inductive NetDB.EngineCall where
  | insert (e : Entry) (faults : Faults)
  | insertSeed (entry seed : Address) (fails : Option String)
  | query (addr : Address) (fails : Option String)

/-- The store after a call. `InsertSeed` and `Query` return the error of a statement before they have
changed anything. -/
def NetDB.afterWith (ndb : NetDB) : NetDB.EngineCall → NetDB
  | .insert e faults => (ndb.insertWith P faults e).1
  | .insertSeed _ _ (some _) => ndb
  | .insertSeed entry seed none => (ndb.insertSeed P entry seed).1
  | .query _ (some _) => ndb
  | .query addr none => (ndb.query P addr).1

/-- The entries of the calls, with the statements that fail for them, are among those admitted. -/
def NetDB.EngineCall.Admitted (admits : Entry → Faults → Prop) : NetDB.EngineCall → Prop
  | .insert e faults => admits e faults
  | _ => True

/-- `Insert` of the entry writes its row under its own address: the address is canonical, the driver takes
its time, and neither of the statements that write the row fails. -/
structure Faults.Writes (faults : Faults) (e : Entry) : Prop where
  canonical : e.address.Canonical P
  accepted : driverAccepts e.updated = true
  updateEntry : faults.updateEntry = .none
  insertEntry : faults.insertEntry = .none

/-! ## All or nothing -/

/-- If `Insert` returns an error, the routing table and the tables of the database are as before. -/
def AllOrNothing (faults : Faults) (ndb : NetDB) (e : Entry) : Prop :=
  ∀ msg, (ndb.insertWith P faults e).2 = .error (.error msg) →
    (∀ j, (ndb.insertWith P faults e).1.table.bucket j = ndb.table.bucket j) ∧
      (ndb.insertWith P faults e).1.db = ndb.db

/-- The address is in front of its bucket already, with the same cached text. -/
def AtFront (ndb : NetDB) (addr : Address) : Prop :=
  ∃ n : Nat, Table.index ndb.addr addr = .ok (n : Int) ∧ (ndb.table.bucket n).head? = some addr

/-- `InsertSeed` finds the address once the row of the entry is there. -/
def Findable (db : DB) (e : Entry) (i : Bytes) : Prop :=
  (∃ r, db.row (P.store (Address.encodeRaw P i)) = some r) ∨
    P.store (Address.encodeRaw P i) = P.store (e.address.string P)

/-- What has to hold for an entry that passes `Verify`. If a statement fails that comes before the
first change of the database, the routing table must have the address in front already. Once the row is
added nothing may fail. -/
def FailsEarly (faults : Faults) (ndb : NetDB) (e : Entry) : Prop :=
  if driverAccepts e.updated = false ∨ faults.updateEntry ≠ none then AtFront ndb e.address
  else if (ndb.db.row (P.store (e.address.string P))).isSome then True
  else if faults.insertEntry ≠ none then AtFront ndb e.address
  else faults.insertFtsEntry = none ∧
    (∀ n < e.seeding.length + e.seeds.length, faults.insertSeed n = none) ∧
    (∀ i ∈ e.seeding, Findable P ndb.db e i) ∧ ∀ i ∈ e.seeds, Findable P ndb.db e i

end Zif.Dht
