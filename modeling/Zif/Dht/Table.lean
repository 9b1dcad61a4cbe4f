import Zif.Dht.Address
import Zif.Go.Slice

/-!
# The routing table

One bucket of addresses for each bit of an address; an address goes into the bucket numbered by the
leading zeroes of its distance to the node's own address. The buckets are Go slices, and moving an
address to the front shifts the elements of the old backing array in place before the bucket moves
to a fresh one, so the table is modelled together with the memory its buckets live in.

Writing the table to `./data/table.dat` after each insertion is left out.
-/

namespace Zif.Dht

open Go

/-- `BucketSize`. -/
def bucketSize : Nat := 20

/-- The field `table` of `NetDB`, with its memory. -/
structure Table where
  /-- The backing arrays of the buckets. -/
  heap : Heap Address
  /-- The buckets. -/
  buckets : List Slice
  deriving DecidableEq, Repr

namespace Table

/-- The table `NewNetDB` allocates: each bucket is empty, with room for `BucketSize` addresses. -/
def new : Table where
  heap := ⟨List.replicate (addressBinarySize * 8) (List.replicate bucketSize { raw := [] })⟩
  buckets := (List.range (addressBinarySize * 8)).map fun n => ⟨n, 0⟩

/-- The addresses in bucket `i`, front first. -/
def bucket (t : Table) (i : Nat) : List Address :=
  match t.buckets[i]? with
  | some s => t.heap.view s
  | none => []

/-- `TableLen`. -/
def tableLen (t : Table) : Nat := (t.buckets.map Slice.len).sum

/-- `addr.Xor(&ndb.addr).LeadingZeroes()`, the bucket an address belongs to. -/
def index (own addr : Address) : Result Int := do
  let d ← addr.xor own
  .ok d.leadingZeroes

/-- The access `ndb.table[index]`. -/
def slot (t : Table) (i : Int) : Result (Nat × Slice) :=
  if i < 0 then .error .panic
  else match t.buckets[i.toNat]? with
    | some s => .ok (i.toNat, s)
    | none => .error .panic

/-- `bucket = append(bucket[:found], bucket[found+1:]...)` when the address is already there, or
`bucket = bucket[:len(bucket)-1]` when it is not and the bucket is full. -/
def makeRoom (h : Heap Address) (s : Slice) (addr : Address) : Slice × Heap Address :=
  match (h.view s).findIdx? fun i => i.equals addr with
  | some found => h.append ⟨s.ptr, found⟩ ((h.view s).drop (found + 1))
  | none => if s.len = bucketSize then (⟨s.ptr, s.len - 1⟩, h) else (s, h)

/-- `append([]Address{addr}, bucket...)`. -/
def consSlice (h : Heap Address) (addr : Address) (s : Slice) : Slice × Heap Address :=
  let lit := h.alloc [addr]
  lit.2.append lit.1 (lit.2.view s)

/-- `insertIntoTable`. -/
def insertIntoTable (own : Address) (t : Table) (addr : Address) : Result Table := do
  let i ← index own addr
  let (n, s) ← t.slot i
  let room := makeRoom t.heap s addr
  let front := consSlice room.2 addr room.1
  .ok { heap := front.2, buckets := t.buckets.set n front.1 }

end Table

end Zif.Dht
