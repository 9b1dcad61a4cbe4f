import Zif.Dht.Proofs.SeedProofs

/-!
# Proofs: seeds and seeding are one relation

`QuerySeeds` and `QuerySeeding` read one table from its two sides. In every run of calls with canonical
addresses, what they list is the set of pairs for which some `InsertSeed` completed without an error,
whether it was called directly or by `Insert` (`seeds_relation`).
-/

namespace Zif.Dht

open Go Arrival Runs

variable {P : Prims}

namespace DB

variable {db : DB} {e : Entry} {s f : Bytes} {ps : List (Address × Address)}

/-! ## Each link once -/

theorem nodup_foldl_addLink {ls xs : List (Nat × Nat)} (h : ls.Nodup) : (xs.foldl addLink ls).Nodup := by
  induction xs generalizing ls with
  | nil => exact h
  | cons x xs ih =>
    refine ih ?_
    unfold addLink
    split
    · exact h
    · rename_i hnew
      exact h.append (List.nodup_singleton x) (by simpa using hnew)

theorem nodup_links_insertSeeds (h : db.links.Nodup) : (db.insertSeeds P ps).1.links.Nodup := by
  rw [insertSeeds_links]
  exact nodup_foldl_addLink h

theorem nodup_links_put (h : db.links.Nodup) : (db.put P e).links.Nodup := by
  unfold put
  split
  · exact h
  · split
    · exact h
    · exact nodup_links_insertSeeds h

/-- The addresses of different rows are different. -/
theorem Wf.eq_of_rawAddress (hwf : Wf P db) {r r' : EntryRow} (hr : r ∈ db.entries)
    (hr' : r' ∈ db.entries) (h : rawAddress r.address = rawAddress r'.address) : r = r' :=
  List.inj_on_of_nodup_map hwf.nodup_known hr hr' h

theorem Wf.nodup_selectSeeds (hwf : Wf P db) (hlinks : db.links.Nodup) (id : Nat) :
    ((db.selectSeeds id).map rawAddress).Nodup := by
  rw [selectSeeds_eq, List.map_flatMap, List.nodup_flatMap]
  constructor
  · intro l _
    rw [List.map_map]
    exact hwf.nodup_known.sublist (List.filter_sublist.map _)
  · refine List.Pairwise.imp_of_mem ?_ (hlinks.filter _)
    intro l l' hl hl' hne raw hraw hraw'
    simp only [List.map_map] at hraw hraw'
    obtain ⟨r, hr, rfl⟩ := List.mem_map.mp hraw
    obtain ⟨r', hr', heq⟩ := List.mem_map.mp hraw'
    obtain ⟨hr, hid⟩ := List.mem_filter.mp hr
    obtain ⟨hr', hid'⟩ := List.mem_filter.mp hr'
    obtain rfl := hwf.eq_of_rawAddress hr' hr heq
    -- both links go from this row to `id`
    have hf := (List.mem_filter.mp hl).2
    have hf' := (List.mem_filter.mp hl').2
    simp only [decide_eq_true_eq] at hid hid' hf hf'
    exact hne (Prod.ext (hid.symm.trans hid') (hf.trans hf'.symm))

theorem Wf.nodup_selectSeeding (hwf : Wf P db) (hlinks : db.links.Nodup) (id : Nat) :
    ((db.selectSeeding id).map rawAddress).Nodup := by
  rw [selectSeeding_eq, List.map_flatMap, List.nodup_flatMap]
  constructor
  · intro r _
    rw [List.map_map]
    refine (hlinks.filter _).map_on ?_
    intro l hl l' hl' _
    have h := (List.mem_filter.mp hl).2
    have h' := (List.mem_filter.mp hl').2
    simp only [decide_eq_true_eq] at h h'
    exact Prod.ext (h.1.trans h'.1.symm) (h.2.trans h'.2.symm)
  · refine List.Pairwise.imp_of_mem ?_ hwf.ids.of_map
    intro r r' hr hr' hne raw hraw hraw'
    simp only [List.map_map] at hraw hraw'
    obtain ⟨_, -, rfl⟩ := List.mem_map.mp hraw
    obtain ⟨_, -, heq⟩ := List.mem_map.mp hraw'
    exact hne (hwf.eq_of_rawAddress hr hr' heq.symm)

/-! ## What a call registers -/

/-- The pairs that are registered are the links that are admitted. -/
theorem Wf.completed_eq (hwf : Wf P db) (hps : ∀ p ∈ ps, p.1.Canonical P ∧ p.2.Canonical P) :
    db.completed P ps = (admitted db.known (ps.map rawPair)).map Prod.swap := by
  induction ps generalizing db with
  | nil => rfl
  | cons p ps ih =>
    obtain ⟨a, s⟩ := p
    have hp := hps (a, s) List.mem_cons_self
    have hres := hwf.resolve_eq hp.1 hp.2
    rw [completed, insertSeed_eq, hres, List.map_cons, admitted_cons]
    by_cases hknown : s.raw ∈ db.known ∧ a.raw ∈ db.known
    · have hdb : (db.insertSeeds P [(a, s)]).1 = db.addSeedRow (db.idOf P s.raw) (db.idOf P a.raw) := by
        rw [DB.insertSeeds, insertSeed_eq, hres, if_pos hknown]
        rfl
      have hwf' := hwf.insertSeeds [(a, s)]
      rw [hdb] at hwf'
      have hrest := ih hwf' fun q hq => hps q (List.mem_cons_of_mem _ hq)
      rw [known_of_entries_eq (addSeedRow_entries _ _)] at hrest
      rw [if_pos hknown, if_pos (show (rawPair (a, s)).1 ∈ _ ∧ (rawPair (a, s)).2 ∈ _ from hknown)]
      simp only [hrest, List.map_cons]
      rfl
    · rw [if_neg hknown, if_neg (show ¬((rawPair (a, s)).1 ∈ _ ∧ (rawPair (a, s)).2 ∈ _) from hknown)]
      rfl

theorem Wf.mem_completed (hwf : Wf P db) (hps : ∀ p ∈ ps, p.1.Canonical P ∧ p.2.Canonical P) :
    (f, s) ∈ db.completed P ps ↔ (s, f) ∈ admitted db.known (ps.map rawPair) := by
  rw [hwf.completed_eq hps, List.mem_map]
  constructor
  · rintro ⟨⟨s', f'⟩, hmem, heq⟩
    cases heq
    exact hmem
  · intro h
    exact ⟨(s, f), h, rfl⟩

/-- Loops over pairs link what they register. -/
theorem Wf.linked_insertSeeds_iff (hwf : Wf P db)
    (hps : ∀ p ∈ ps, p.1.Canonical P ∧ p.2.Canonical P) :
    Linked P (db.insertSeeds P ps).1 s f ↔ Linked P db s f ∨ (f, s) ∈ db.completed P ps := by
  rw [hwf.linked_insertSeeds hps, hwf.mem_completed hps]

end DB

namespace NetDB

variable {ndb : NetDB} {s f : Bytes}

/-! ## One call -/

theorem completed_of_verify_ne {e : Entry} (hv : e.verify P ≠ .ok ()) :
    ndb.completed P (.insert e) = [] := by
  cases h : e.verify P with
  | error f => simp only [completed, h]
  | ok u => exact absurd h hv

/-- What `Insert` registers for an entry that passes `Verify`. -/
theorem completed_of_verified {ndb₁ : NetDB} {e : Entry} (hv : e.verify P = .ok ())
    (ht : ndb.insertIntoTable e.address = .ok ndb₁) :
    ndb.completed P (.insert e) =
      if driverAccepts e.updated = true ∧ ndb₁.db.row (P.store (e.address.string P)) = none then
        (ndb₁.db.extend P e).completed P (DB.entryPairs e)
      else [] := by
  unfold completed
  simp only [hv, ht]
  cases he : driverAccepts e.updated with
  | true =>
    cases hr : ndb₁.db.row (P.store (e.address.string P)) with
    | some r =>
      obtain ⟨affected, hpos, hupdate⟩ := update_of_row hv he hr
      simp only [hupdate, if_pos hpos]
      rw [if_neg (by simp)]
    | none =>
      simp only [update_of_row_none hv he hr, Nat.lt_irrefl, if_false]
      rw [DB.insertIntoDB_of_row_none he hr, if_pos ⟨trivial, trivial⟩]
      rfl
  | false =>
    simp only [update_of_refused hv he]
    rw [if_neg (by simp)]

/-- `Insert` links what it registers. -/
theorem Kept.linked_insert (hk : Kept P ndb) {e : Entry} (hcan : e.address.Canonical P) :
    DB.Linked P (ndb.insert P e).1.db s f ↔
      DB.Linked P ndb.db s f ∨ (f, s) ∈ ndb.completed P (.insert e) := by
  rcases hk.insert_cases e with ⟨hno, heq⟩ | ⟨hv, hraw, t, -, heq⟩
  · rw [heq, completed_of_verify_ne hno]
    simp
  obtain ⟨t', ht', -⟩ := Table.insertIntoTable_spec hk.placed.ok hk.own e.address hraw
  rw [heq, completed_of_verified hv (insertIntoTable_eq ht')]
  simp only [DB.put]
  by_cases he : driverAccepts e.updated = true
  · rw [if_neg (by simp [he])]
    cases hr : ndb.db.row (P.store (e.address.string P)) with
    | some r =>
      rw [if_neg (by simp), DB.linked_overwrite]
      simp
    | none =>
      have hwf := hk.wf.extend ⟨_, hraw, Address.canonical_iff.mp hcan⟩ hr
      rw [if_pos ⟨he, rfl⟩]
      simp only
      rw [DB.insertEntrySeeds_eq, hwf.linked_insertSeeds_iff (DB.canonical_entryPairs hcan),
        hk.wf.linked_extend hcan hraw hr]
  · rw [if_pos (by simpa using he), if_neg fun h => he h.1]
    simp

/-- A call links what it registers, and nothing else. -/
theorem Kept.linked_after (hk : Kept P ndb) {c : Call} (hc : c.Canonical P) :
    DB.Linked P (ndb.after P c).db s f ↔ DB.Linked P ndb.db s f ∨ (f, s) ∈ ndb.completed P c := by
  cases c with
  | insert e => exact hk.linked_insert hc
  | insertSeed entry seed =>
    rw [NetDB.after, insertSeed_fst, completed]
    refine hk.wf.linked_insertSeeds_iff fun p hp => ?_
    rw [List.mem_singleton.mp hp]
    exact hc
  | query a =>
    rw [NetDB.after, query_db, completed]
    simp

theorem nodup_links_after (h : ndb.db.links.Nodup) (c : Call) : (ndb.after P c).db.links.Nodup := by
  cases c with
  | insert e =>
    rw [NetDB.after]
    rcases insert_db (P := P) ndb e with heq | ⟨-, heq⟩
    · rwa [heq]
    · rw [heq]
      exact DB.nodup_links_put h
  | insertSeed entry seed =>
    rw [NetDB.after, insertSeed_fst]
    exact DB.nodup_links_insertSeeds h
  | query a => rwa [NetDB.after, query_db]

/-! ## Runs -/

theorem nodup_links_run (own : Address) (calls : List Call) :
    (run (after P) (new own) calls).db.links.Nodup := by
  refine run_invariant (I := fun ndb : NetDB => ndb.db.links.Nodup) ?_
    (fun ndb c h => nodup_links_after h c) calls
  simp [new, DB.new, DB.links]

theorem completes_append {own : Address} {calls : List Call} {c : Call} :
    Completes P own (calls ++ [c]) f s ↔
      Completes P own calls f s ∨ (f, s) ∈ (run (after P) (new own) calls).completed P c := by
  constructor
  · rintro ⟨pre, c', post, heq, h⟩
    rcases List.eq_nil_or_concat post with rfl | ⟨post, c'', rfl⟩
    · obtain ⟨rfl, hc⟩ := List.append_inj' heq rfl
      cases hc
      exact .inr h
    · rw [List.concat_eq_append, ← List.cons_append, ← List.append_assoc] at heq
      exact .inl ⟨pre, c', post, (List.append_inj' heq rfl).1, h⟩
  · rintro (⟨pre, c', post, rfl, h⟩ | h)
    · exact ⟨pre, c', post ++ [c], by simp, h⟩
    · exact ⟨calls, c, [], rfl, h⟩

theorem kept_run_of_canonical {own : Address} (hown : own.raw.length = 20) {calls : List Call}
    (hcalls : ∀ c ∈ calls, c.Canonical P) : Kept P (run (after P) (new own) calls) := by
  refine kept_run hown fun c hc => ?_
  have hcan := hcalls c hc
  cases c with
  | insert e => exact fun _ => hcan
  | insertSeed entry seed => trivial
  | query a => trivial

/-- After a run, the links are the pairs that were registered. -/
theorem linked_run {own : Address} (hown : own.raw.length = 20) {calls : List Call}
    (hcalls : ∀ c ∈ calls, c.Canonical P) :
    DB.Linked P (run (after P) (new own) calls).db s f ↔ Completes P own calls f s := by
  induction calls using List.reverseRecOn with
  | nil =>
    refine iff_of_false ?_ ?_
    · rintro ⟨hs, -⟩
      cases hs
    · rintro ⟨pre, c, post, heq, -⟩
      simp at heq
  | append_singleton calls c ih =>
    have hbefore : ∀ c' ∈ calls, c'.Canonical P := fun c' hc' => hcalls c' (by simp [hc'])
    have hk := kept_run_of_canonical hown hbefore
    rw [run_append, run_cons, run_nil, hk.linked_after (hcalls c (by simp)), ih hbefore,
      completes_append]

/-! ## What is listed -/

/-- Without doubled links no address is listed twice. -/
theorem Kept.nodup_queries (hk : Kept P ndb) (hlinks : ndb.db.links.Nodup) (a : Address) :
    (∃ as, (ndb.querySeeds P a).2 = .ok as ∧ (as.map Address.raw).Nodup) ∧
      ∃ as, (ndb.querySeeding P a).2 = .ok as ∧ (as.map Address.raw).Nodup := by
  rcases hk.query_cases a with ⟨-, hquery⟩ | ⟨r, hr, haddr, t, e, -, -, hquery⟩
  · exact ⟨⟨[], by rw [NetDB.querySeeds, NetDB.queryLinks, hquery], List.nodup_nil⟩,
      ⟨[], by rw [NetDB.querySeeding, NetDB.queryLinks, hquery], List.nodup_nil⟩⟩
  · obtain ⟨seeds, seeding, hseeds, hseeding, hraws, hraws', -⟩ := hk.wf.query hr haddr.symm
    refine ⟨⟨seeds, ?_, ?_⟩, ⟨seeding, ?_, ?_⟩⟩
    · rw [NetDB.querySeeds, NetDB.queryLinks, hquery]
      exact hseeds
    · rw [hraws]
      exact hk.wf.nodup_selectSeeds hlinks r.id
    · rw [NetDB.querySeeding, NetDB.queryLinks, hquery]
      exact hseeding
    · rw [hraws']
      exact hk.wf.nodup_selectSeeding hlinks r.id

/-- `InsertSeed` registers no other pair than its own. -/
theorem Kept.linked_insertSeed (hk : Kept P ndb) {entry seed : Address} (hentry : entry.Canonical P)
    (hseed : seed.Canonical P) (hne : (f, s) ≠ (entry.raw, seed.raw)) :
    DB.Linked P (ndb.insertSeed P entry seed).1.db s f ↔ DB.Linked P ndb.db s f := by
  have hafter := hk.linked_after (s := s) (f := f) (c := .insertSeed entry seed) ⟨hentry, hseed⟩
  refine hafter.trans (or_iff_left fun h => ?_)
  rw [completed, DB.completed] at h
  split at h
  · cases h
  · rw [DB.completed, List.mem_singleton] at h
    exact hne h

/-- The addresses with a row stay the same. -/
theorem knows_insertSeed (entry seed : Address) (raw : Bytes) :
    (ndb.insertSeed P entry seed).1.db.Knows P raw ↔ ndb.db.Knows P raw := by
  rw [insertSeed_fst]
  unfold DB.Knows
  rw [DB.row_of_entries_eq (DB.insertSeeds_entries [(entry, seed)])]

end NetDB

open NetDB

/-- **Seeds and seeding are one relation.** After every run of calls with canonical addresses: a peer is
listed as a seed of another exactly if that one is listed as what it is seeding, and exactly if some
`InsertSeed` of the two has completed without an error; nobody is listed twice; and one more
`InsertSeed` changes the answers for its own pair only. -/
theorem seeds_relation (P : Prims) (own : Address) (hown : own.raw.length = 20)
    (calls : List NetDB.Call) (hcalls : ∀ c ∈ calls, c.Canonical P) :
    let ndb := run (NetDB.after P) (NetDB.new own) calls
    ∀ a s : Address, a.Canonical P → s.Canonical P → ndb.db.Knows P a.raw → ndb.db.Knows P s.raw →
      (Lists (ndb.querySeeds P a).2 s.raw ↔ Lists (ndb.querySeeding P s).2 a.raw) ∧
      (Lists (ndb.querySeeds P a).2 s.raw ↔ Completes P own calls a.raw s.raw) ∧
      (∃ as, (ndb.querySeeds P a).2 = .ok as ∧ (as.map Address.raw).Nodup) ∧
      (∃ as, (ndb.querySeeding P s).2 = .ok as ∧ (as.map Address.raw).Nodup) ∧
      ∀ entry seed : Address, entry.Canonical P → seed.Canonical P →
        (a.raw, s.raw) ≠ (entry.raw, seed.raw) →
        (Lists ((ndb.insertSeed P entry seed).1.querySeeds P a).2 s.raw ↔
          Lists (ndb.querySeeds P a).2 s.raw) ∧
        (Lists ((ndb.insertSeed P entry seed).1.querySeeding P s).2 a.raw ↔
          Lists (ndb.querySeeding P s).2 a.raw) := by
  intro ndb a s ha hs harow hsrow
  have hk : Kept P ndb := kept_run_of_canonical hown hcalls
  have hlinks : ndb.db.links.Nodup := nodup_links_run own calls
  refine ⟨?_, ?_, (hk.nodup_queries hlinks a).1, (hk.nodup_queries hlinks s).2, ?_⟩
  · rw [hk.lists_querySeeds ha harow, hk.lists_querySeeding hs hsrow]
  · rw [hk.lists_querySeeds ha harow]
    exact linked_run hown hcalls
  · intro entry seed hentry hseed hne
    have hk' : Kept P (ndb.insertSeed P entry seed).1 := hk.after (c := .insertSeed entry seed) trivial
    have harow' := (knows_insertSeed entry seed a.raw).mpr harow
    have hsrow' := (knows_insertSeed entry seed s.raw).mpr hsrow
    rw [hk'.lists_querySeeds ha harow', hk'.lists_querySeeding hs hsrow', hk.lists_querySeeds ha harow,
      hk.lists_querySeeding hs hsrow, hk.linked_insertSeed hentry hseed hne]
    exact ⟨Iff.rfl, Iff.rfl⟩

/-- Two peers, the second of which is registered twice as a seed of the first. -/
theorem seeds_relation_two :
    let calls : List NetDB.Call := [.insert (sampleEntry 1 1 7), .insert (sampleEntry 2 2 7),
      .insertSeed (sampleAddress 1) (sampleAddress 2), .insertSeed (sampleAddress 1) (sampleAddress 2)]
    let ndb := run (NetDB.after .sample) (NetDB.new (sampleAddress 0)) calls
    Lists (ndb.querySeeds .sample (sampleAddress 1)).2 (sampleAddress 2).raw ∧
      Lists (ndb.querySeeding .sample (sampleAddress 2)).2 (sampleAddress 1).raw ∧
      Completes .sample (sampleAddress 0) calls (sampleAddress 1).raw (sampleAddress 2).raw := by
  intro calls ndb
  have hcan : ∀ k, (sampleAddress k).Canonical .sample := fun _ => .inl rfl
  have hcalls : ∀ c ∈ calls, c.Canonical .sample := by
    intro c hc
    simp only [calls, List.mem_cons, List.not_mem_nil, or_false] at hc
    rcases hc with rfl | rfl | rfl | rfl
    · exact hcan 1
    · exact hcan 2
    · exact ⟨hcan 1, hcan 2⟩
    · exact ⟨hcan 1, hcan 2⟩
  obtain ⟨hrows, hseeds⟩ : (∀ k ∈ [(1 : UInt8), 2],
        (ndb.db.row (Prims.sample.store (Address.encodeRaw .sample (sampleAddress k).raw))).isSome) ∧
      (ndb.querySeeds .sample (sampleAddress 1)).2 = .ok [{ raw := (sampleAddress 2).raw }] := by
    decide +kernel
  have hknows : ∀ k ∈ [(1 : UInt8), 2], ndb.db.Knows .sample (sampleAddress k).raw :=
    fun k hk => Option.isSome_iff_exists.mp (hrows k hk)
  have hlists : Lists (ndb.querySeeds .sample (sampleAddress 1)).2 (sampleAddress 2).raw :=
    ⟨_, hseeds, by simp⟩
  obtain ⟨hboth, hcompletes, -⟩ := seeds_relation .sample (sampleAddress 0) (by rfl) calls hcalls
    (sampleAddress 1) (sampleAddress 2) (hcan 1) (hcan 2) (hknows 1 (by simp)) (hknows 2 (by simp))
  exact ⟨hlists, hboth.mp hlists, hcompletes.mp hlists⟩

end Zif.Dht
