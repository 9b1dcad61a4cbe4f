import Zif.Dht.Entry
import Zif.Go.Slice

/-!
# Searching for seeds

`find`, in `SeedManager.findSeeds`, asks the seeds of the entry that is tracked for the seeds they know of. Those
that are new are candidates; each is resolved, and only those are meant to be added whose entry names the
tracked address among those it seeds for, so that nobody can be made a seed by others.

The loop that checks the candidates goes over the slice while it takes elements out of it. The indices it goes
over are those of the slice at the start, and what it reads is what the backing array holds by then.

`QueryEntry` before the search and `DHT.Insert` after it are left out. `MergeSeeds` does for a node's own entry
(`QuerySelf`) what `SliceDiff` does here.
-/

namespace Zif.Node

open Go Dht

/-- `util.SliceDiff`: everything in `two` that is not in `one`. The array that is made is large enough for
both, so that `append` never moves to another one. -/
def sliceDiff (one two : List Bytes) : Buffer Bytes :=
  two.foldl (fun result i => if one.contains i then result else result.append id [] [i])
    (Buffer.make [] (one.length + two.length))

/-- `util.MergeSeeds`: what is in `one` or in `two`, in the order of the keys of a map. -/
def mergeSeeds (order : MapOrder Bytes) (one two : List Bytes) : List Bytes :=
  let encountered := one.foldl (fun encountered i => insert i encountered) ∅
  order.keys (two.foldl (fun encountered i => insert i encountered) encountered)

/-- What the check of a candidate finds out. -/
inductive Verdict where
  /-- `Resolve` fails. -/
  | failed
  /-- The entry does not name the tracked address. -/
  | fake
  | genuine
  deriving DecidableEq, Repr

/-- The verdict on a candidate, from what `Resolve` gives for it: an entry, unless it fails. -/
def verdict (track : Address) : Option Entry → Verdict
  | none => .failed
  | some entry => if entry.seeding.any (track.raw == ·) then .genuine else .fake

/-- The removal of the candidate at index `n`. -/
def removeCandidate (result : Buffer Bytes) (n : Nat) : Option (Buffer Bytes) :=
  if result.len - 1 ≤ n then result.truncate n else result.delete n

/-- One round of the loop over the candidates; `none` is a panic. A candidate that cannot be resolved is
removed, and then the index it was at is deleted once more. -/
def checkCandidate (v : Bytes → Verdict) (result : Buffer Bytes) (n : Nat) : Option (Buffer Bytes) :=
  result.array[n]?.bind fun i =>
    match v i with
    | .genuine => some result
    | .fake => removeCandidate result n
    | .failed => (removeCandidate result n).bind fun result => result.delete n

/-- The loop over the candidates. -/
def checkCandidates (v : Bytes → Verdict) (result : Buffer Bytes) : Option (Buffer Bytes) :=
  (List.range result.len).foldlM (checkCandidate v) result

/-- The seeds of the entry after one of them has been asked, and has answered with these seeds. -/
def addSeeds (track : Address) (resolve : Bytes → Option Entry) (seeds queried : List Bytes) :
    Result (List Bytes) :=
  match checkCandidates (fun i => verdict track (resolve i)) (sliceDiff seeds queried) with
  | none => .error .panic
  | some result => if 0 < result.len then .ok (seeds ++ result.view) else .ok seeds

/-- What happens around one round of `find`. -/
structure SeedQuery where
  /-- The seeds in the entry that the seed answers with, if it can be connected to and does answer. -/
  queried : Option (List Bytes)
  /-- What `Resolve` gives for the candidates. -/
  resolve : Bytes → Option Entry

/-- One round of `find`. -/
def findRound (own track : Address) (query : Nat → SeedQuery) (seeds : List Bytes) (seed : Bytes × Nat) :
    Result (List Bytes) :=
  if seed.1 = own.raw then .ok seeds
  else
    match (query seed.2).queried with
    | none => .ok seeds
    | some queried => addSeeds track (query seed.2).resolve seeds queried

/-- `find`: the seeds of the entry afterwards. It goes over those that were there before. -/
def findSeeds (own track : Address) (query : Nat → SeedQuery) (seeds : List Bytes) : Result (List Bytes) :=
  seeds.zipIdx.foldlM (findRound own track query) seeds

/-! ## What the check comes to -/

/-- The candidates that the loop keeps, when the last one is genuine. The one behind a fake moves up and is not
looked at. Behind one that failed, one is removed and the next is not looked at. -/
def keptCandidates (v : Bytes → Verdict) : List Bytes → List Bytes
  | [] => []
  | c :: rest =>
    match v c, rest with
    | .genuine, rest => c :: keptCandidates v rest
    | .fake, x :: rest => x :: keptCandidates v rest
    | .failed, _ :: y :: rest => y :: keptCandidates v rest
    | _, _ => []

/-- The verdicts for which the loop is right about all candidates: a fake comes before a genuine one, and one
that failed before another bad one and then a genuine one. -/
def Fortunate : List Verdict → Prop
  | [] => True
  | .genuine :: rest => Fortunate rest
  | .fake :: .genuine :: rest => Fortunate rest
  | .failed :: .fake :: .genuine :: rest => Fortunate rest
  | .failed :: .failed :: .genuine :: rest => Fortunate rest
  | _ => False

end Zif.Node
