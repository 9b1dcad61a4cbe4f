import Zif.Node.NetMap
import Zif.Dht.Proofs.DiscoveryProofs
import Zif.Lib.Proofs.TraversalProofs

/-!
# Proofs: the map of the network

On a store whose entries are seeding stored peers, `CreateNetMap` is a depth-first traversal of the graph
of what is seeding what (`createNetMap_visit`). So it ends, and draws every link that can be reached once
(`createNetMap_complete`). Nodes are drawn at two places and only one of them marks what it draws; an
entry that can be reached from itself is drawn twice if the map is started there.
-/

namespace Zif.Dht

open Go

variable {P : Prims} {db : DB} {raw : Bytes} {e : Entry}

theorem DB.found_eq_some : db.found P raw = some e ↔ ∃ id, db.query P { raw } = .ok (some (e, id)) := by
  unfold DB.found
  cases db.query P { raw } with
  | error f => simp
  | ok kv => rcases kv with _ | ⟨e', id⟩ <;> simp

/-- The address of a row that is found is known. -/
theorem DB.mem_known_of_found (hraw : raw.length = 20) (h : db.found P raw = some e) :
    raw ∈ db.known := by
  obtain ⟨id, hquery⟩ := found_eq_some.mp h
  rcases query_eq_ok hquery with ⟨-, hnone⟩ | ⟨r, -, -, -, hrow, -⟩
  · cases hnone
  · refine List.mem_map.mpr ⟨r, mem_of_row hrow, ?_⟩
    rw [address_of_row hrow, Address.string_of_encoded_nil, Address.store_encodeRaw P hraw,
      rawAddress_text]

/-- A query for an entry that is stored. -/
theorem NetDB.InOrder.query_found {ndb : NetDB} (hk : InOrder ndb) (hraw : raw.length = 20)
    (h : ndb.db.found P raw = some e) : ∃ ndb' id, ndb.query P { raw } = (ndb', .ok (some (e, id))) ∧
      e.address = { raw } ∧ ndb'.db = ndb.db ∧ InOrder ndb' := by
  obtain ⟨id, hquery⟩ := DB.found_eq_some.mp h
  have hrow : HasRow P ndb.db { raw } := ⟨Address.string_of_encoded_nil P raw, (e, id), hquery⟩
  obtain ⟨t, e', id', hcall, haddr, hfound, hins⟩ := query_of_hasRow hk.placed hk.own hraw hrow
  have heq : e' = e := Option.some.inj (hfound.symm.trans h)
  subst heq
  exact ⟨_, id', hcall, haddr, rfl, ⟨hk.own, hk.placed.inserted hins hraw⟩⟩

end Zif.Dht

namespace Zif.Node

open Go Dht Traversal Relation

variable {P : Prims} {db : DB}

/-! ## The map is a traversal -/

/-- The link of an arc. -/
def linkOf (P : Prims) (a : Bytes × Bytes) : MapLink := ⟨Address.encodeRaw P a.1, Address.encodeRaw P a.2⟩

/-- What is drawn for a report. -/
def drawn (P : Prims) (db : DB) (out : Report Bytes) : NetMap :=
  ⟨out.nodes.map (nodeOf P db), out.arcs.map (linkOf P)⟩

/-- The two maps are the two sets of the traversal. A key of `currentLinks` is two addresses of 20 bytes in
one string. -/
structure Draws (db : DB) (s : MapState) (t : State Bytes) : Prop where
  db_eq : s.ndb.db = db
  inOrder : NetDB.InOrder s.ndb
  nodes : s.currentNodes = t.marked
  links : ∀ y x : Bytes, y.length = 20 → (y ++ x ∈ s.currentLinks ↔ (y, x) ∈ t.arcs)

/-- The two recursions go the same way. -/
def Follows (P : Prims) (db : DB) (self : Entry → MapState → Option (MapState × Result NetMap))
    (visit : Bytes → State Bytes → Option (State Bytes × Report Bytes)) : Prop :=
  ∀ x e s t t' out, db.found P x = some e → Draws db s t → visit x t = some (t', out) →
    ∃ s', self e s = some (s', .ok (drawn P db out)) ∧ Draws db s' t'

theorem Draws.insert {s : MapState} {t : State Bytes} (h : Draws db s t) {x y : Bytes}
    (hy : y.length = 20) (a b : Bytes) (ha : a.length = 20) :
    a ++ b ∈ insert (y ++ x) s.currentLinks ↔ (a, b) ∈ insert (y, x) t.arcs := by
  have hkey : a ++ b = y ++ x ↔ a = y ∧ b = x := by
    refine ⟨fun heq => List.append_inj heq (ha.trans hy.symm), ?_⟩
    rintro ⟨rfl, rfl⟩
    rfl
  rw [Finset.mem_insert, Finset.mem_insert, h.links a b ha, Prod.mk.injEq, hkey]

section Graph

variable (hstored : SeedingStored P db) {x y : Bytes} {e : Entry} {s : MapState} {t t' : State Bytes}
  {out out' : Report Bytes} {self : Entry → MapState → Option (MapState × Result NetMap)}
  {visit : Bytes → State Bytes → Option (State Bytes × Report Bytes)}

include hstored

theorem SeedingStored.address_eq (hx : db.found P x = some e) : e.address = { raw := x } := by
  obtain ⟨id, hquery⟩ := DB.found_eq_some.mp hx
  exact DB.query_address (hstored.length x e hx) hquery

theorem SeedingStored.mapNode_eq (hx : db.found P x = some e) : mapNode P e = nodeOf P db x := by
  rw [mapNode, nodeOf, hstored.address_eq hx, hx, Address.string_of_encoded_nil]
  rfl

theorem createMap_follow (hself : Follows P db self visit) (hx : db.found P x = some e)
    (hy : y ∈ e.seeding) (hd : Draws db s t) (h : follow visit x y t out = some (t', out')) :
    ∃ s', createMap P self e y s (drawn P db out) = some (s', .ok (drawn P db out')) ∧
      Draws db s' t' := by
  obtain ⟨e', hfound⟩ := hstored.stored x e hx y hy
  have hlength := hstored.length y e' hfound
  obtain ⟨ndb', id, hcall, haddr, hdb, hinOrder⟩ :=
    hd.inOrder.query_found hlength (by rw [hd.db_eq]; exact hfound)
  rw [hd.db_eq] at hdb
  simp only [createMap, hcall, hstored.address_eq hx, haddr, Address.string_of_encoded_nil,
    hd.links y x hlength, hd.nodes]
  unfold follow at h
  split at h
  · rename_i hmet
    cases h
    rw [if_pos hmet]
    exact ⟨_, rfl, hdb, hinOrder, rfl, hd.links⟩
  · rename_i hnew
    rw [if_neg hnew]
    split at h
    · rename_i hmarked
      cases h
      rw [if_pos hmarked]
      refine ⟨⟨ndb', t.marked, insert (y ++ x) s.currentLinks⟩, ?_, hdb, hinOrder, rfl,
        hd.insert hlength⟩
      simp [drawn, linkOf]
    · rename_i hmarked
      obtain ⟨⟨t₁, found⟩, hvisit, heq⟩ := Option.map_eq_some_iff.mp h
      cases heq
      obtain ⟨s', hcall', hd'⟩ := hself y e' ⟨ndb', insert y t.marked, insert (y ++ x) s.currentLinks⟩
        _ _ _ hfound ⟨hdb, hinOrder, rfl, hd.insert hlength⟩ hvisit
      rw [if_neg hmarked, hcall']
      exact ⟨s', by simp [drawn, linkOf, hstored.mapNode_eq hfound], hd'⟩

theorem mapSeeding_followAll (hself : Follows P db self visit) (hx : db.found P x = some e)
    {ys : List Bytes} (hys : ∀ y ∈ ys, y ∈ e.seeding) (hd : Draws db s t)
    (h : followAll visit x ys t out = some (t', out')) :
    ∃ s', mapSeeding P self e ys s (drawn P db out) = some (s', .ok (drawn P db out')) ∧
      Draws db s' t' := by
  induction ys generalizing s t out with
  | nil =>
    cases h
    exact ⟨s, rfl, hd⟩
  | cons y ys ih =>
    obtain ⟨⟨t₁, out₁⟩, hfollow, hrest⟩ := Option.bind_eq_some_iff.mp h
    obtain ⟨s₁, hmap, hd₁⟩ := createMap_follow hstored hself hx (hys y (by simp)) hd hfollow
    rw [mapSeeding, hmap]
    exact ih (fun z hz => hys z (List.mem_cons_of_mem _ hz)) hd₁ hrest

/-- `CreateNetMap` draws what the traversal reports. -/
theorem createNetMap_visit (fuel : Nat) :
    Follows P db (createNetMap P fuel) (Traversal.visit (seedingOf P db) fuel) := by
  induction fuel with
  | zero =>
    intro x e s t t' out _ _ h
    cases h
  | succ fuel ih =>
    intro x e s t t' out hx hd h
    have hseeding : seedingOf P db x = e.seeding := by rw [seedingOf, hx]; rfl
    rw [Traversal.visit, hseeding] at h
    have hstart : (⟨if e.address.raw ∈ s.currentNodes then [] else [mapNode P e], []⟩ : NetMap) =
        drawn P db ⟨if x ∈ t.marked then [] else [x], []⟩ := by
      rw [hstored.address_eq hx, hstored.mapNode_eq hx, hd.nodes]
      unfold drawn
      split <;> rfl
    rw [createNetMap, hstart]
    exact mapSeeding_followAll hstored ih hx (fun y hy => hy) hd h

/-- The traversal ends. -/
theorem visit_isSome_of_stored (hx : db.found P x = some e) {fuel : Nat}
    (hfuel : db.entries.length < fuel) :
    ∃ r, Traversal.visit (seedingOf P db) fuel x ⟨∅, ∅⟩ = some r := by
  have hmem : ∀ {z e}, db.found P z = some e → z ∈ db.known.toFinset.filter
      fun z => (db.found P z).isSome := by
    intro z e hz
    rw [Finset.mem_filter, List.mem_toFinset, hz]
    exact ⟨DB.mem_known_of_found (hstored.length z e hz) hz, rfl⟩
  refine visit_isSome (U := db.known.toFinset.filter fun z => (db.found P z).isSome) ?_ (hmem hx) ?_
  · intro z hz y hy
    obtain ⟨e', he'⟩ := Option.isSome_iff_exists.mp (Finset.mem_filter.mp hz).2
    rw [seedingOf, he'] at hy
    obtain ⟨e'', he''⟩ := hstored.stored z e' he' y hy
    exact hmem he''
  · calc ((db.known.toFinset.filter fun z => (db.found P z).isSome) \ (∅ : Finset Bytes)).card
        ≤ db.known.toFinset.card :=
          Finset.card_le_card (Finset.sdiff_subset.trans (Finset.filter_subset _ _))
      _ ≤ db.known.length := List.toFinset_card_le _
      _ = db.entries.length := List.length_map _
      _ < fuel := hfuel

end Graph

/-- What `CreateNetMap` draws with empty maps. -/
theorem createNetMap_drawn {ndb : NetDB} (hk : ndb.InOrder) (hstored : SeedingStored P ndb.db)
    {root : Bytes} {entry : Entry} (hroot : ndb.db.found P root = some entry) {fuel : Nat}
    (hfuel : ndb.db.entries.length < fuel) : ∃ s' t' out,
      createNetMap P fuel entry ⟨ndb, ∅, ∅⟩ = some (s', .ok (drawn P ndb.db out)) ∧
        Traversal.visit (seedingOf P ndb.db) fuel root ⟨∅, ∅⟩ = some (t', out) := by
  obtain ⟨⟨t', out⟩, hvisit⟩ := visit_isSome_of_stored hstored hroot hfuel
  obtain ⟨s', hcall, -⟩ := createNetMap_visit hstored fuel root entry ⟨ndb, ∅, ∅⟩ ⟨∅, ∅⟩ t' out hroot
    ⟨rfl, hk, rfl, by simp⟩ hvisit
  exact ⟨s', t', out, hcall, hvisit⟩

theorem linkOf_injective : Function.Injective (linkOf P) := by
  intro a b h
  rw [linkOf, linkOf, MapLink.mk.injEq] at h
  exact Prod.ext (Address.encodeRaw_injective P h.1) (Address.encodeRaw_injective P h.2)

/-! ## Every store that only canonical addresses were stored in -/

/-- What an entry is seeding is read from the rows of the peers. -/
theorem seedingStored_of_wf (hwf : DB.Wf P db) : SeedingStored P db := by
  have hrow : ∀ raw e, db.found P raw = some e → ∃ r ∈ db.entries, r.address =
      .text (Address.encodeRaw P raw) ∧ raw.length = 20 ∧
        e.seeding = (db.selectSeeding r.id).map rawAddress := by
    intro raw e h
    obtain ⟨id, hquery⟩ := DB.found_eq_some.mp h
    rcases DB.query_eq_ok hquery with ⟨-, hnone⟩ | ⟨r, decoded, seeds, seeding, hr, -, -, hs, heq⟩
    · cases hnone
    · have hmem := DB.mem_of_row hr
      obtain ⟨raw', hlength, htext⟩ := hwf.canonical r hmem
      have hstore := (DB.address_of_row hr).symm.trans htext
      rw [Address.string_of_encoded_nil] at hstore
      have hsame := Address.encodeRaw_injective P (DB.store_eq_text hstore)
      subst hsame
      obtain ⟨-, seeding', -, hs', -, hraws, -⟩ := hwf.query hmem (hwf.store_rawAddress hmem)
      rw [hs] at hs'
      cases hs'
      cases heq
      exact ⟨r, hmem, htext, hlength, hraws⟩
  refine ⟨fun raw e h => ?_, fun raw e h i hi => ?_⟩
  · obtain ⟨r, -, -, hlength, -⟩ := hrow raw e h
    exact hlength
  · obtain ⟨r, -, -, -, hseeding⟩ := hrow raw e h
    rw [hseeding] at hi
    obtain ⟨c, hc, rfl⟩ := List.mem_map.mp hi
    obtain ⟨r', hr', rfl, -⟩ := DB.mem_selectSeeding.mp hc
    obtain ⟨seeds, seeding, -, -, -, -, hquery⟩ := hwf.query hr' (hwf.store_rawAddress hr')
    exact ⟨_, DB.found_eq_some.mpr ⟨_, hquery⟩⟩

/-- A store with some entries. -/
def sampleStore (es : List Entry) : NetDB :=
  Runs.run (NetDB.after .sample) (NetDB.new (sampleAddress 0)) (es.map .insert)

theorem kept_sampleStore {es : List Entry} (h : ∀ e ∈ es, e.address.encoded = []) :
    NetDB.Kept .sample (sampleStore es) := by
  refine NetDB.kept_run (by rfl) fun c hc => ?_
  obtain ⟨e, he, rfl⟩ := List.mem_map.mp hc
  exact fun _ => Or.inl (h e he)

/-- A peer that is seeding another one. -/
def chainStore : NetDB := sampleStore [sampleEntry 1 1 7, sampleEntry 2 2 7 [(sampleAddress 1).raw]]

/-- Two peers that are seeding each other. -/
def mutualStore : NetDB :=
  sampleStore [sampleEntry 1 1 7,
    { sampleEntry 2 2 7 [(sampleAddress 1).raw] with seeds := [(sampleAddress 1).raw] }]

theorem kept_chainStore : NetDB.Kept .sample chainStore :=
  kept_sampleStore fun e he => by rcases List.mem_pair.mp he with rfl | rfl <;> rfl

theorem kept_mutualStore : NetDB.Kept .sample mutualStore :=
  kept_sampleStore fun e he => by rcases List.mem_pair.mp he with rfl | rfl <;> rfl

/-- The map that is started at the second of the two: it is drawn first and last. -/
theorem createNetMap_mutualStore :
    mutualStore.db.entries.length < 3 ∧
      ((mutualStore.db.found .sample (sampleAddress 2).raw).bind fun entry =>
        (createNetMap .sample 3 entry ⟨mutualStore, ∅, ∅⟩).map fun r =>
          r.2.map fun m => m.nodes.map MapNode.address) =
        some (.ok [(sampleAddress 2).string .sample, (sampleAddress 1).string .sample,
          (sampleAddress 2).string .sample]) := by
  decide +kernel

/-! ## The results -/

/-- `CreateNetMap` with empty maps ends. Its links are those of the entries that can be reached, each drawn
once; its nodes are these entries, and so both ends of every link are nodes. -/
theorem createNetMap_complete (ndb : NetDB) (hk : ndb.InOrder) (hstored : SeedingStored P ndb.db)
    (root : Bytes) (entry : Entry) (hroot : ndb.db.found P root = some entry) (fuel : Nat)
    (hfuel : ndb.db.entries.length < fuel) :
    ∃ s m, createNetMap P fuel entry ⟨ndb, ∅, ∅⟩ = some (s, .ok m) ∧
      m.links.Nodup ∧
      (∀ l, l ∈ m.links ↔ ∃ x y, ReflTransGen (Seeds P ndb.db) root x ∧ Seeds P ndb.db x y ∧
        l = ⟨Address.encodeRaw P y, Address.encodeRaw P x⟩) ∧
      (∀ n, n ∈ m.nodes ↔ ∃ x, ReflTransGen (Seeds P ndb.db) root x ∧ n = nodeOf P ndb.db x) ∧
      ∀ l ∈ m.links, l.source ∈ m.nodes.map MapNode.address ∧
        l.target ∈ m.nodes.map MapNode.address := by
  obtain ⟨s, t, out, hcall, hvisit⟩ := createNetMap_drawn hk hstored hroot hfuel
  obtain ⟨hnodup, harcs⟩ := visit_arcs hvisit
  obtain ⟨rest, hnodes, -, hrest⟩ := visit_nodes hvisit
  have hlinks : ∀ l, l ∈ (drawn P ndb.db out).links ↔ ∃ x y, ReflTransGen (Seeds P ndb.db) root x ∧
      Seeds P ndb.db x y ∧ l = ⟨Address.encodeRaw P y, Address.encodeRaw P x⟩ := by
    intro l
    rw [drawn, List.mem_map]
    constructor
    · rintro ⟨⟨y, x⟩, ha, rfl⟩
      exact ⟨x, y, ((harcs _).mp ha).1, ((harcs _).mp ha).2, rfl⟩
    · rintro ⟨x, y, hx, hxy, rfl⟩
      exact ⟨(y, x), (harcs _).mpr ⟨hx, hxy⟩, rfl⟩
  have hreached : ∀ x, x ∈ out.nodes ↔ ReflTransGen (Seeds P ndb.db) root x := by
    intro x
    rw [hnodes, List.mem_cons, hrest, reflTransGen_iff_eq_or_transGen]
    rfl
  have hdrawn : ∀ n, n ∈ (drawn P ndb.db out).nodes ↔
      ∃ x, ReflTransGen (Seeds P ndb.db) root x ∧ n = nodeOf P ndb.db x := by
    intro n
    rw [drawn, List.mem_map]
    simp only [hreached, eq_comm]
  have hend : ∀ x, ReflTransGen (Seeds P ndb.db) root x →
      Address.encodeRaw P x ∈ (drawn P ndb.db out).nodes.map MapNode.address :=
    fun x hx => List.mem_map.mpr ⟨nodeOf P ndb.db x, (hdrawn _).mpr ⟨x, hx, rfl⟩, rfl⟩
  refine ⟨s, drawn P ndb.db out, hcall, hnodup.map linkOf_injective, hlinks, hdrawn, fun l hl => ?_⟩
  obtain ⟨x, y, hx, hxy, rfl⟩ := (hlinks l).mp hl
  exact ⟨hend y (hx.tail hxy), hend x hx⟩

/-- The map of two peers that are seeding each other. -/
theorem createNetMap_complete_mutual : ∃ entry s m,
    mutualStore.db.found .sample (sampleAddress 2).raw = some entry ∧
      createNetMap .sample 3 entry ⟨mutualStore, ∅, ∅⟩ = some (s, .ok m) ∧ m.links.Nodup := by
  obtain ⟨hrows, hmap⟩ := createNetMap_mutualStore
  obtain ⟨entry, hentry, -⟩ := Option.bind_eq_some_iff.mp hmap
  obtain ⟨s, m, hcall, hlinks, -⟩ := createNetMap_complete mutualStore kept_mutualStore.toInOrder
    (seedingStored_of_wf kept_mutualStore.wf) (sampleAddress 2).raw entry hentry 3 hrows
  exact ⟨entry, s, m, hentry, hcall, hlinks⟩

/-- A node is drawn twice exactly when the entry that the map is started at can be reached from itself. -/
theorem createNetMap_nodes_nodup_iff (ndb : NetDB) (hk : ndb.InOrder)
    (hstored : SeedingStored P ndb.db) (root : Bytes) (entry : Entry)
    (hroot : ndb.db.found P root = some entry) (fuel : Nat)
    (hfuel : ndb.db.entries.length < fuel) :
    ∃ s m, createNetMap P fuel entry ⟨ndb, ∅, ∅⟩ = some (s, .ok m) ∧
      ((m.nodes.map MapNode.address).Nodup ↔ ¬ TransGen (Seeds P ndb.db) root root) := by
  obtain ⟨s, t, out, hcall, hvisit⟩ := createNetMap_drawn hk hstored hroot hfuel
  obtain ⟨rest, hnodes, hnodup, hrest⟩ := visit_nodes hvisit
  refine ⟨s, drawn P ndb.db out, hcall, ?_⟩
  have haddresses : (drawn P ndb.db out).nodes.map MapNode.address =
      out.nodes.map (Address.encodeRaw P) := List.map_map
  rw [haddresses, List.nodup_map_iff fun _ _ h => Address.encodeRaw_injective P h, hnodes,
    List.nodup_cons, and_iff_left hnodup, hrest]
  rfl

/-- A map that is started at a peer which nobody is seeding. -/
theorem createNetMap_nodes_nodup_iff_chain : ∃ entry s m,
    chainStore.db.found .sample (sampleAddress 2).raw = some entry ∧
      createNetMap .sample 3 entry ⟨chainStore, ∅, ∅⟩ = some (s, .ok m) ∧
      (m.nodes.map MapNode.address).Nodup := by
  obtain ⟨hfound, hrows, hseeding⟩ : (chainStore.db.found .sample (sampleAddress 2).raw).isSome ∧
      chainStore.db.entries.length < 3 ∧
      seedingOf .sample chainStore.db (sampleAddress 2).raw = [(sampleAddress 1).raw] ∧
      seedingOf .sample chainStore.db (sampleAddress 1).raw = [] ∧
      (sampleAddress 1).raw ≠ (sampleAddress 2).raw := by decide +kernel
  obtain ⟨entry, hentry⟩ := Option.isSome_iff_exists.mp hfound
  obtain ⟨s, m, hcall, hnodup⟩ := createNetMap_nodes_nodup_iff chainStore kept_chainStore.toInOrder
    (seedingStored_of_wf kept_chainStore.wf) (sampleAddress 2).raw entry hentry 3 hrows
  refine ⟨entry, s, m, hentry, hcall, hnodup.mpr fun hcycle => ?_⟩
  obtain ⟨x, hx, hrest⟩ := TransGen.head'_iff.mp hcycle
  rw [Seeds, hseeding.1, List.mem_singleton] at hx
  subst hx
  rcases hrest.cases_head with heq | ⟨y, hy, -⟩
  · exact hseeding.2.2 heq
  · rw [Seeds, hseeding.2.1] at hy
    cases hy

/-- Two peers that are seeding each other: the one that the map is started at is drawn first and last. -/
theorem root_drawn_twice : ∃ entry s m,
    mutualStore.db.found .sample (sampleAddress 2).raw = some entry ∧
      createNetMap .sample 3 entry ⟨mutualStore, ∅, ∅⟩ = some (s, .ok m) ∧
      m.nodes.map MapNode.address = [(sampleAddress 2).string .sample,
        (sampleAddress 1).string .sample, (sampleAddress 2).string .sample] ∧
      ¬ (m.nodes.map MapNode.address).Nodup := by
  obtain ⟨entry, hentry, hrest⟩ := Option.bind_eq_some_iff.mp createNetMap_mutualStore.2
  obtain ⟨⟨s, res⟩, hcall, hres⟩ := Option.map_eq_some_iff.mp hrest
  cases res with
  | error f => cases hres
  | ok m =>
    have hnodes : m.nodes.map MapNode.address = [(sampleAddress 2).string .sample,
        (sampleAddress 1).string .sample, (sampleAddress 2).string .sample] := by
      injection hres
    refine ⟨entry, s, m, hentry, hcall, hnodes, ?_⟩
    rw [hnodes]
    simp

end Zif.Node
