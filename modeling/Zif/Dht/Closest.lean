import Zif.Dht.NetDb
import Zif.Lib.Recency

/-!
# What the closest peers are

The specification `FindClosest` is measured against: it names every peer at most once and none of
them is missing (`Complete`), and whatever it leaves out is no closer to the target than what it
returns (`LeavesOutFarther`).

The outward scan is described by the order in which it visits the buckets (`outward`) and by what a
walk over a bucket meets while its own queries reorder it (`metIn`).
-/

namespace Zif.Dht

open Go Recency

/-- `a.Xor(t).Less(b.Xor(t))`: `a` is strictly closer to `t` than `b`. -/
def Address.closer (t a b : Address) : Result Bool := do
  let x ← a.xor t
  let y ← b.xor t
  x.less y

/-- `Query` finds the address: its cached text is that of its bytes, and there is a row for it. -/
def HasRow (P : Prims) (db : DB) (a : Address) : Prop :=
  a.string P = Address.encodeRaw P a.raw ∧ ∃ found, db.query P { raw := a.raw } = .ok (some found)

/-- The entry `Query` finds for a binary address. -/
def DB.found (P : Prims) (db : DB) (raw : Bytes) : Option Entry :=
  match db.query P { raw } with
  | .ok kv => kv.map Prod.fst
  | .error _ => none

/-- The addresses that the loop `rangeQuery` calls `Query` on, in order. -/
def NetDB.rangeQueried (P : Prims) (limit : Option Nat) (as : Slice) :
    (todo n : Nat) → NetDB → List (Option Entry) → List Address
  | 0, _, _, _ => []
  | todo + 1, n, ndb, ret =>
    if limit.any fun l => ret.length ≥ l then []
    else
      match ndb.table.heap.read as n with
      | none => []
      | some i =>
        i :: match ndb.query P i with
          | (_, .error .panic) => []
          | (ndb', .error (.error _)) => rangeQueried P limit as todo (n + 1) ndb' ret
          | (ndb', .ok kv) => rangeQueried P limit as todo (n + 1) ndb' (ret ++ [kv.map Prod.fst])

/-- The addresses of bucket `j`, as binary addresses. -/
def Table.raws (t : Table) (j : Nat) : List Bytes := (t.bucket j).map Address.raw

/-- The binary addresses of the entries of a result. -/
def entryRaws (ret : List (Option Entry)) : List (Option Bytes) :=
  ret.map (Option.map fun e => e.address.raw)

/-- Every result is a peer, no peer occurs twice, and there are as many as the table can give. -/
def Complete (t : Table) (ret : List (Option Entry)) : Prop :=
  none ∉ ret ∧ (entryRaws ret).Nodup ∧ ret.length = min bucketSize t.tableLen

/-- No address of the table that is left out is strictly closer to `target` than one returned. -/
def LeavesOutFarther (t : Table) (target : Address) (ret : List (Option Entry)) : Prop :=
  ∀ j, ∀ a ∈ t.bucket j, some a.raw ∉ entryRaws ret →
    ∀ e, some e ∈ ret → Address.closer target a e.address = .ok false

/-! ## The outward scan -/

/-- The buckets at distance `i` from bucket `n`, left before right. -/
def besides (n i : Nat) : List Nat :=
  (if i ≤ n then [n - i] else []) ++ if n + i < 160 then [n + i] else []

/-- The buckets other than `n` in the order of the scan: one to the left, one to the right, two to
the left, and so on. -/
def outward (n : Nat) : List Nat := (List.range' 1 160).flatMap (besides n)

/-- What the buckets `js` hold, in the order walks over them meet it: of a bucket with three
addresses or more the second is skipped and the last comes twice. -/
def metIn (t : Table) (js : List Nat) : List Bytes := js.flatMap fun j => shifted (t.raws j)

/-- The number of addresses in the buckets `js`. -/
def heldIn (t : Table) (js : List Nat) : Nat := (js.map fun j => (t.bucket j).length).sum

/-- The scan reads no bucket of three addresses or more to its end: behind the buckets before it
there are not enough free places in the result for all of it. -/
def ReadsOnlyShort (t : Table) (n : Nat) : Prop :=
  ∀ pre j post, outward n = pre ++ j :: post →
    heldIn t pre + (t.bucket j).length ≤ bucketSize → (t.bucket j).length ≤ 2

/-- The second address of the target's bucket is the farthest one in it. -/
def SecondFarthest (t : Table) (target : Address) (n : Nat) : Prop :=
  ∀ s, (t.bucket n)[1]? = some s → ∀ b ∈ t.bucket n, Address.closer target s b = .ok false

/-- Outside the target's bucket, the addresses at the first places of the scan that the two walks
over the target's bucket leave free are no farther than those that are not there. -/
def ScanNearest (t : Table) (target : Address) (n : Nat) : Prop :=
  let places := (metIn t (outward n)).take (bucketSize - 2 * (t.bucket n).length)
  ∀ i j, i ≠ n → j ≠ n → ∀ a ∈ t.bucket i, ∀ b ∈ t.bucket j, a.raw ∉ places → b.raw ∈ places →
    Address.closer target a b = .ok false

end Zif.Dht
