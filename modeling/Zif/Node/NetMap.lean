import Zif.Dht.Closest

/-!
# The map of the network

`CreateNetMap` draws a map from an entry on: it follows the list of peers that an entry is seeding, and
theirs, with two maps to know the nodes and the links that it has drawn already. Its result is for a drawing
library, which takes the text of an address as the id of a node.

The recursion is as deep as `fuel`; `none` stands for a call that needs more.
-/

namespace Zif.Node

open Go Dht

/-- `MapNode`. -/
structure MapNode where
  address : Bytes
  name : Bytes
  deriving DecidableEq, Repr

/-- `MapLink`. -/
structure MapLink where
  source : Bytes
  target : Bytes
  deriving DecidableEq, Repr

/-- What all calls share: the store, and the keys of the maps `currentNodes` and `currentLinks`. -/
structure MapState where
  ndb : NetDB
  currentNodes : Finset Bytes
  currentLinks : Finset Bytes

/-- The nodes and the links of a call. -/
structure NetMap where
  nodes : List MapNode
  links : List MapLink
  deriving DecidableEq, Repr

variable (P : Prims)

/-- The node of an entry. -/
def mapNode (e : Entry) : MapNode := ⟨e.address.string P, e.name⟩

/-- The function `createMap` in `CreateNetMap`, for the peer `i` that `entry` is seeding. The result of a
query is used without a test for nil. The errors that it returns are dropped. -/
def createMap (self : Entry → MapState → Option (MapState × Result NetMap)) (entry : Entry) (i : Bytes)
    (s : MapState) (m : NetMap) : Option (MapState × Result NetMap) :=
  match s.ndb.query P { raw := i } with
  | (ndb, .error .panic) => some ({ s with ndb }, .error .panic)
  | (ndb, .error (.error _)) => some ({ s with ndb }, .ok m)
  | (ndb, .ok none) => some ({ s with ndb }, .error .panic)
  | (ndb, .ok (some (e, _))) =>
    let key := e.address.raw ++ entry.address.raw
    if key ∈ s.currentLinks then some ({ s with ndb }, .ok m)
    else
      let links := m.links ++ [⟨e.address.string P, entry.address.string P⟩]
      let currentLinks := insert key s.currentLinks
      if e.address.raw ∈ s.currentNodes then
        some (⟨ndb, s.currentNodes, currentLinks⟩, .ok ⟨m.nodes, links⟩)
      else
        match self e ⟨ndb, insert e.address.raw s.currentNodes, currentLinks⟩ with
        | none => none
        | some (s', .error f) => some (s', .error f)
        | some (s', .ok n) => some (s', .ok ⟨m.nodes ++ [mapNode P e] ++ n.nodes, links ++ n.links⟩)

/-- The loop of `CreateNetMap` over what an entry is seeding. -/
def mapSeeding (self : Entry → MapState → Option (MapState × Result NetMap)) (entry : Entry) :
    List Bytes → MapState → NetMap → Option (MapState × Result NetMap)
  | [], s, m => some (s, .ok m)
  | i :: seeding, s, m =>
    match createMap P self entry i s m with
    | none => none
    | some (s', .error f) => some (s', .error f)
    | some (s', .ok m') => mapSeeding self entry seeding s' m'

/-- `CreateNetMap`. -/
def createNetMap : Nat → Entry → MapState → Option (MapState × Result NetMap)
  | 0, _, _ => none
  | fuel + 1, entry, s =>
    mapSeeding P (createNetMap fuel) entry entry.seeding s
      ⟨if entry.address.raw ∈ s.currentNodes then [] else [mapNode P entry], []⟩

/-! ## What the map should show -/

/-- The peers that the entry of an address is seeding. -/
def seedingOf (db : DB) (raw : Bytes) : List Bytes := ((db.found P raw).map Entry.seeding).getD []

/-- `y` is among what `x` is seeding. -/
def Seeds (db : DB) (x y : Bytes) : Prop := y ∈ seedingOf P db x

/-- The node of an address. -/
def nodeOf (db : DB) (raw : Bytes) : MapNode :=
  ⟨Address.encodeRaw P raw, ((db.found P raw).map Entry.name).getD []⟩

/-- Entries are stored under 20-byte addresses, and every peer that one of them is seeding has one. -/
structure SeedingStored (db : DB) : Prop where
  length : ∀ raw e, db.found P raw = some e → raw.length = 20
  stored : ∀ raw e, db.found P raw = some e → ∀ i ∈ e.seeding, ∃ e', db.found P i = some e'

end Zif.Node
