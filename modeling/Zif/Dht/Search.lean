import Zif.Dht.NetDb

/-!
# Searching for entries

`SearchPeer` gives the addresses of the entries whose name or description matches a query, page by page. Which
texts a query matches, and the order in which the engine comes upon the rows that match, are parameters.

The statement `sqlSearchEntries` compares the id of an entry with a subquery, which stands for the first of its
rows, and skips as many rows as the number of the page. The subquery reads the full text table, which has the
texts that an entry had when it was added; an update of the entry leaves them. When the engine fails over a query
that is malformed, `addresses.Next` is false from the start, and nobody asks for the error: the page is empty.
-/

namespace Zif.Dht

open Go

/-- What the full text engine decides. -/
structure FtsEngine where
  /-- The query is one that the engine can read. -/
  wellFormed : (query : Bytes) → Bool
  /-- `text MATCH query`, for a query that is well formed. -/
  isMatch : (query text : Bytes) → Bool
  /-- The order in which the rows that match are given. -/
  order : List FtsRow → List FtsRow
  order_perm : ∀ rows, (order rows).Perm rows
  /-- The engine fails before it comes to a row. It need not look at the second query when the first one gives
  it a row. -/
  fails : (name desc : Bytes) → List FtsRow → Bool
  malformed_of_fails : ∀ name desc rows, fails name desc rows = true →
    wellFormed name = false ∨ wellFormed desc = false

/-- `name MATCH ? OR desc MATCH ?`, for a row with these texts. -/
def FtsEngine.hits (E : FtsEngine) (name desc : Bytes) (nameText descText : Bytes) : Bool :=
  (E.wellFormed name && E.isMatch name nameText) || (E.wellFormed desc && E.isMatch desc descText)

/-- `LIMIT skip,count`. A negative number of rows to skip counts as 0. -/
def sqlLimit {α : Type} (skip : Int64) (count : Nat) (rows : List α) : List α :=
  (rows.drop skip.toInt.toNat).take count

/-- The address of the entry can be decoded. -/
def EntryRow.Decodes (r : EntryRow) : Prop := ∃ a, Address.decodeAddress r.address.load = .ok a

namespace DB

variable (E : FtsEngine)

/-- The subquery of `sqlSearchEntries`. -/
def matchingDocids (db : DB) (name desc : Bytes) : List Nat :=
  (E.order (db.fts.filter fun r => E.hits name desc r.name r.desc)).map FtsRow.docid

/-- The value of the subquery; `none` when it has no row, and when the engine fails. -/
def firstDocid (db : DB) (name desc : Bytes) : Option Nat :=
  if E.fails name desc db.fts then none else (db.matchingDocids E name desc).head?

/-- The statement `sqlSearchEntries`: the rows that `Next` gives. -/
def searchEntries (db : DB) (name desc : Bytes) (skip : Int64) (count : Nat) : List Cell :=
  sqlLimit skip count
    ((db.entries.filter fun r => db.firstDocid E name desc = some r.id).map EntryRow.address)

/-- `SearchPeer`. -/
def searchPeer (db : DB) (name desc : Bytes) (page : Int64) : Result (List Address) :=
  decodeAddresses (db.searchEntries E name desc page 25)

/-! ## What a search should give -/

/-- The entries that match the query, by the texts that they have. -/
def matchingEntries (db : DB) (name desc : Bytes) : List EntryRow :=
  db.entries.filter fun r => E.hits name desc r.name.load r.desc.load

/-- The pages 0, 1, 2 and so on are blocks of at most 25 addresses, and together they have the address of each
entry that matches exactly once. The number of a page is an `int`. -/
def PagesPartition (db : DB) (name desc : Bytes) : Prop :=
  ∃ (pages : Nat → List Address) (n : Nat), n ≤ 2 ^ 63 ∧
    (∀ p < 2 ^ 63, db.searchPeer E name desc (Int64.ofNat p) = .ok (pages p)) ∧
    (∀ p < 2 ^ 63, (pages p).length ≤ 25) ∧ (∀ p < 2 ^ 63, n ≤ p → pages p = []) ∧
    (((List.range n).flatMap pages).map Except.ok).Perm
      ((db.matchingEntries E name desc).map fun r => Address.decodeAddress r.address.load)

/-- The entries that match are those with the value of the subquery for their id, and their addresses can be
decoded. -/
structure FindsMatches (db : DB) (name desc : Bytes) : Prop where
  first : ∀ r ∈ db.entries,
    E.hits name desc r.name.load r.desc.load = true ↔ db.firstDocid E name desc = some r.id
  decodes : ∀ r ∈ db.matchingEntries E name desc, r.Decodes

/-- Different entries have different addresses. -/
def Distinct (db : DB) : Prop :=
  ∀ r ∈ db.entries, ∀ r' ∈ db.entries, ∀ a, Address.decodeAddress r.address.load = .ok a →
    Address.decodeAddress r'.address.load = .ok a → r = r'

/-- The full text table has the texts of the entries: none has been changed since it was added, and none is read
back in another form than it was given in. -/
def Current (db : DB) : Prop :=
  ∀ f ∈ db.fts, ∀ r ∈ db.entries, r.id = f.docid → f.name = r.name.load ∧ f.desc = r.desc.load

instance decidableCurrent (db : DB) : Decidable db.Current :=
  inferInstanceAs (Decidable (∀ f ∈ db.fts, ∀ r ∈ db.entries, r.id = f.docid →
    f.name = r.name.load ∧ f.desc = r.desc.load))

/-- The ids are unique, and the rows of the full text table are about the entries, at least one about each. -/
structure Tabled (db : DB) : Prop where
  ids : (db.entries.map EntryRow.id).Nodup
  indexed : ∀ f ∈ db.fts, ∃ r ∈ db.entries, r.id = f.docid
  covered : ∀ r ∈ db.entries, ∃ f ∈ db.fts, f.docid = r.id

end DB

end Zif.Dht
