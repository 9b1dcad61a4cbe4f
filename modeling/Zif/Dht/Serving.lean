import Zif.Dht.NetDb
import Zif.Lib.Runs

/-!
# What the store serves

A node answers queries with what it reads back from its tables, and the other side checks the
signature. Of what is signed, the list of peers an entry is seeding is not stored as a list: it comes
out of the table `seed`, which entries of other peers and `InsertSeed` fill as well. `KeepsServed` is
the condition on a call under which what is read back stays what was signed.
-/

namespace Zif.Dht

open Go

variable (P : Prims)

/-- A call that writes to the store. -/
inductive StoreCall where
  | insert (e : Entry)
  | insertSeed (entry seed : Address)
  deriving DecidableEq, Repr

/-- The store after a call. -/
def NetDB.call (ndb : NetDB) : StoreCall → NetDB
  | .insert e => (ndb.insert P e).1
  | .insertSeed entry seed => (ndb.insertSeed P entry seed).1

/-- The store together with the entry last accepted for each address. -/
structure Ledger where
  ndb : NetDB
  last : Cell → Option Entry

/-- The start: a new store, and no entry accepted yet. -/
def Ledger.new (addr : Address) : Ledger := ⟨NetDB.new addr, fun _ => none⟩

/-- A call, with the entry it stores recorded. -/
def Ledger.call (s : Ledger) (c : StoreCall) : Ledger where
  ndb := s.ndb.call P c
  last :=
    match c with
    | .insert e =>
      if e.verify P = .ok () ∧ driverAccepts e.updated = true then
        Function.update s.last (P.store (e.address.string P)) (some e)
      else s.last
    | .insertSeed _ _ => s.last

/-- The binary address in a column. -/
def rawAddress (c : Cell) : Bytes :=
  match Address.decodeAddress c.load with
  | .ok a => a.raw
  | .error _ => []

/-- The addresses that have a row, in the order of the rows. -/
def DB.known (db : DB) : List Bytes := db.entries.map fun r => rawAddress r.address

/-- The addresses of the peers that the row `id` is linked to as a seed, in the order of the rows. -/
def DB.seedingRaws (db : DB) (id : Nat) : List Bytes :=
  (db.selectSeeding id).map rawAddress

/-- The columns of the entry are read back as they were written. -/
def ReadsBack (e : Entry) : Prop :=
  (∃ raw : Bytes, raw.length = 20 ∧ e.address.string P = Address.encodeRaw P raw) ∧
    (P.store e.name).load = e.name ∧ (P.store e.desc).load = e.desc ∧
    (P.store e.publicAddress).load = e.publicAddress

/-- The links of the entry's row will be the peers it is signed to be seeding, and no other row's
links change.

If there is a row, its links stay as they are. If there is none, the links are made from the entry:
the peers it is seeding have to be known and listed in the order of their rows, none of them may have
the largest number of seeds already, and the seeds of the entry that are known must not become links
of their own. -/
def SeedingFits (db : DB) (e : Entry) : Prop :=
  match db.row (P.store (e.address.string P)) with
  | some r => e.seeding.flatten = (db.seedingRaws r.id).flatten
  | none =>
    let own := rawAddress (P.store (e.address.string P))
    e.seeding.Sublist (db.known ++ [own]) ∧
      (∀ r ∈ db.entries, rawAddress r.address ∈ e.seeding →
        (db.selectSeeds r.id).length < maxEntrySeeds) ∧
      ∀ i ∈ e.seeds.takeWhile (fun i => i ∈ db.known ++ [own]), i = own ∧ own ∈ e.seeding

/-- The condition on a call under which all rows are still served as they were signed. -/
def KeepsServed (s : Ledger) : StoreCall → Prop
  | .insert e => e.verify P = .ok () → driverAccepts e.updated = true →
    ReadsBack P e ∧ SeedingFits P s.ndb.db e
  | .insertSeed entry seed => ∀ r r', s.ndb.db.row (P.store (entry.string P)) = some r →
    s.ndb.db.row (P.store (seed.string P)) = some r' →
    ∃ link ∈ s.ndb.db.seeds, link.seed = r'.id ∧ link.seedFor = r.id

end Zif.Dht
