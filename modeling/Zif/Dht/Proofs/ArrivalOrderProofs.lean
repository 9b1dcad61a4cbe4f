import Zif.Dht.Proofs.SeedProofs

/-!
# Proofs: the order in which entries arrive

Inserting entries of different addresses into a new store is a sequence of arrivals: the rows are the
entries, and the links are those the arrivals make (`Kept.arrived`). So the store does not depend on
the order exactly when the entries are order free.
-/

namespace Zif.Dht

open Go

variable {P : Prims}

/-- What an accepted entry of a new address does to the rows. -/
theorem DB.row_put_fresh {db : DB} {e : Entry}
    (hrow : db.row (P.store (e.address.string P)) = none)
    (he : driverAccepts e.updated = true) (c : Cell) (x : EntryRow) :
    ((db.put P e).row c).map EntryRow.columns = some x ↔
      (db.row c).map EntryRow.columns = some x ∨
        P.store (e.address.string P) = c ∧ x = DB.newRow P 0 c e := by
  unfold DB.put
  rw [if_neg (by simp [he]), hrow]
  simp only
  rw [DB.row_of_entries_eq (DB.insertEntrySeeds_entries _ e), DB.row_extend]
  by_cases hc : P.store (e.address.string P) = c
  · subst hc
    rw [hrow, if_pos rfl]
    simp only [Option.none_or, Option.map_some, Option.map_none, Option.some.injEq, reduceCtorEq,
      true_and, false_or]
    exact eq_comm
  · rw [if_neg hc, Option.or_none]
    simp [hc]

/-! ## Inserting one after the other -/

/-- The entry passes `Verify` and its address is canonical. -/
def Entry.Sound (P : Prims) (e : Entry) : Prop := e.verify P = .ok () ∧ e.address.Canonical P

theorem Entry.ends_of_mem_links (e : Entry) :
    ∀ l ∈ e.links, l.1 = e.address.raw ∨ l.2 = e.address.raw := by
  intro l hl
  rcases List.mem_append.mp hl with hl | hl
  · obtain ⟨i, -, rfl⟩ := List.mem_map.mp hl
    exact .inl rfl
  · obtain ⟨i, -, rfl⟩ := List.mem_map.mp hl
    exact .inr rfl

namespace NetDB

variable {ndb : NetDB}

/-- What inserting an entry of a new address does. -/
structure Arrived (P : Prims) (ndb ndb' : NetDB) (es : List Entry) : Prop where
  kept : Kept P ndb'
  known : ndb'.db.known = ndb.db.known ++ es.map fun e => e.address.raw
  linked : ∀ s f, DB.Linked P ndb'.db s f ↔ DB.Linked P ndb.db s f ∨
    (s, f) ∈ Arrival.links (fun e : Entry => e.address.raw) Entry.links ndb.db.known es
  rows : ∀ c x, (ndb'.db.row c).map EntryRow.columns = some x ↔
    (ndb.db.row c).map EntryRow.columns = some x ∨
      ∃ e ∈ es, P.store (e.address.string P) = c ∧ x = DB.newRow P 0 c e

theorem Kept.arrived_nil (hk : Kept P ndb) : Arrived P ndb ndb [] :=
  ⟨hk, by simp, by simp [Arrival.links], by simp⟩

theorem Kept.arrived_one (hk : Kept P ndb) {e : Entry} (he : e.Sound P)
    (hnew : e.address.raw ∉ ndb.db.known) :
    Arrived P ndb (ndb.insert P e).1 (if driverAccepts e.updated then [e] else []) := by
  obtain ⟨hv, hcan⟩ := he
  have hkept := hk.insert (e := e) fun _ => hcan
  rcases hk.insert_cases e with ⟨hno, -⟩ | ⟨-, hraw, t, -, heq⟩
  · exact absurd hv hno
  have hrow : ndb.db.row (P.store (e.address.string P)) = none := by
    have hnone := hk.wf.row_of_not_known hnew
    rwa [Address.string_of_encoded_nil, ← Address.canonical_iff.mp hcan] at hnone
  by_cases hacc : driverAccepts e.updated = true
  · rw [if_pos hacc]
    have hwf' := hk.wf.extend ⟨_, hraw, Address.canonical_iff.mp hcan⟩ hrow
    have hput : ndb.db.put P e = ((ndb.db.extend P e).insertEntrySeeds P e).1 := by
      simp [DB.put, hacc, hrow]
    have hknown : (ndb.db.extend P e).known = ndb.db.known ++ [e.address.raw] := by
      rw [DB.known_extend, DB.rawAddress_store hcan hraw]
    refine ⟨hkept, ?_, fun s f => ?_, fun c x => ?_⟩
    · rw [heq, hk.wf.known_put hcan hraw hacc, if_neg hnew]
      rfl
    · rw [heq, hput, DB.insertEntrySeeds_eq, hwf'.linked_insertSeeds (DB.canonical_entryPairs hcan),
        DB.map_rawPair_entryPairs, hk.wf.linked_extend hcan hraw hrow, hknown]
      simp [Arrival.links]
    · rw [heq]
      simpa using DB.row_put_fresh hrow hacc c x
  · have hput : ndb.db.put P e = ndb.db := by simp [DB.put, hacc]
    rw [if_neg hacc]
    rw [heq, hput] at hkept ⊢
    exact ⟨hkept, by simp, by simp [Arrival.links, DB.Linked, DB.idOf, DB.links], by simp⟩

theorem Arrived.trans {ndb' ndb'' : NetDB} {xs ys : List Entry} (h : Arrived P ndb ndb' xs)
    (h' : Arrived P ndb' ndb'' ys) : Arrived P ndb ndb'' (xs ++ ys) := by
  refine ⟨h'.kept, ?_, fun s f => ?_, fun c x => ?_⟩
  · rw [h'.known, h.known, List.map_append, List.append_assoc]
  · rw [h'.linked, h.linked, h.known, Arrival.links_append, List.mem_append, or_assoc]
  · rw [h'.rows, h.rows, or_assoc]
    simp only [List.mem_append, or_and_right, exists_or]

/-- The whole sequence, by induction on it: each entry arrives at a store that does not know it. -/
theorem Kept.arrived (hk : Kept P ndb) {es : List Entry} (hes : ∀ e ∈ es, e.Sound P)
    (hnodup : (es.map fun e => e.address.raw).Nodup)
    (hnew : ∀ e ∈ es, e.address.raw ∉ ndb.db.known) :
    Arrived P ndb (ndb.insertAll P es) (es.filter fun e => driverAccepts e.updated) := by
  induction es generalizing ndb with
  | nil => exact hk.arrived_nil
  | cons e es ih =>
    rw [List.map_cons, List.nodup_cons] at hnodup
    have hone := hk.arrived_one (hes e List.mem_cons_self) (hnew e List.mem_cons_self)
    have hrest : ∀ x ∈ es, x.address.raw ∉ (ndb.insert P e).1.db.known := by
      intro x hx
      have hx' := hnew x (List.mem_cons_of_mem e hx)
      have hne : x.address.raw ≠ e.address.raw := fun h => hnodup.1 (List.mem_map.mpr ⟨x, hx, h⟩)
      rw [hone.known]
      split <;> simp [hx', hne]
    have hall := hone.trans (ih hone.kept (fun x hx => hes x (List.mem_cons_of_mem e hx)) hnodup.2 hrest)
    have hfilter : (e :: es).filter (fun e => driverAccepts e.updated) =
        (if driverAccepts e.updated then [e] else []) ++
          es.filter fun e => driverAccepts e.updated := by
      rw [List.filter_cons]
      split <;> rfl
    rw [hfilter]
    exact hall

/-! ## Equal stores -/

section Same

variable {own : Address} {ndb₁ ndb₂ : NetDB} {xs ys : List Entry}

theorem Arrived.linked_new (h : Arrived P (new own) ndb₁ xs) (s f : Bytes) :
    DB.Linked P ndb₁.db s f ↔
      (s, f) ∈ Arrival.links (fun e : Entry => e.address.raw) Entry.links [] xs := by
  rw [h.linked]
  simp [DB.Linked, DB.known, new, DB.new]

theorem Arrived.linked_of_same (h₁ : Arrived P (new own) ndb₁ xs) (h₂ : Arrived P (new own) ndb₂ ys)
    (hperm : xs.Perm ys) (hsame : ∀ a, SameAddresses (ndb₁.querySeeds P a).2 (ndb₂.querySeeds P a).2)
    {s f : Bytes} : DB.Linked P ndb₁.db s f ↔ DB.Linked P ndb₂.db s f := by
  have hknown : ∀ raw, raw ∈ ndb₁.db.known ↔ raw ∈ ndb₂.db.known := by
    intro raw
    rw [h₁.known, h₂.known, List.mem_append, List.mem_append, (hperm.map _).mem_iff]
  by_cases hf : f ∈ ndb₁.db.known
  · have hcan : Address.Canonical P { raw := f } := .inl rfl
    rw [← h₁.kept.lists_querySeeds hcan ((h₁.kept.wf.row_iff f).mpr hf),
      ← h₂.kept.lists_querySeeds hcan ((h₂.kept.wf.row_iff f).mpr ((hknown f).mp hf))]
    exact (hsame { raw := f }).lists_iff s
  · exact ⟨fun h => absurd h.2.1 hf, fun h => absurd ((hknown f).mpr h.2.1) hf⟩

theorem Arrived.sameStore_iff (h₁ : Arrived P (new own) ndb₁ xs) (h₂ : Arrived P (new own) ndb₂ ys)
    (hperm : xs.Perm ys) : SameStore P ndb₁ ndb₂ ↔
      ∀ l, l ∈ Arrival.links (fun e : Entry => e.address.raw) Entry.links [] xs ↔
        l ∈ Arrival.links (fun e : Entry => e.address.raw) Entry.links [] ys := by
  constructor
  · rintro hsame ⟨s, f⟩
    rw [← h₁.linked_new, ← h₂.linked_new]
    exact h₁.linked_of_same h₂ hperm hsame.seeds
  · intro hlinks
    have hlinked : ∀ s f, DB.Linked P ndb₁.db s f ↔ DB.Linked P ndb₂.db s f := by
      intro s f
      rw [h₁.linked_new, h₂.linked_new]
      exact hlinks (s, f)
    have hrows : ∀ c, (ndb₁.db.row c).map EntryRow.columns = (ndb₂.db.row c).map EntryRow.columns := by
      intro c
      refine Option.ext fun x => ?_
      rw [h₁.rows, h₂.rows]
      simp only [hperm.mem_iff]
    have hlinks : SameLinks P ndb₁ ndb₂ :=
      ⟨fun c => by rw [← Option.isSome_map, hrows c, Option.isSome_map], hlinked⟩
    exact ⟨hrows, hlinks.querySeeds h₁.kept h₂.kept, hlinks.querySeeding h₁.kept h₂.kept⟩

end Same

/-- Entries of different addresses, canonical and verified, make the same store in every order exactly
when they are order free. -/
theorem insertAll_same_iff (P : Prims) (own : Address) (hown : own.raw.length = 20) (es : List Entry)
    (hnodup : (es.map fun e => e.address.raw).Nodup) (hverify : ∀ e ∈ es, e.verify P = .ok ())
    (hcan : ∀ e ∈ es, e.address.Canonical P) :
    (∀ es₁ es₂, es₁.Perm es → es₂.Perm es →
        SameStore P ((new own).insertAll P es₁) ((new own).insertAll P es₂)) ↔ OrderFree es := by
  let taken := fun e : Entry => driverAccepts e.updated
  have harrived : ∀ {xs}, xs.Perm es →
      Arrived P (new own) ((new own).insertAll P xs) (xs.filter taken) := by
    intro xs hperm
    refine (kept_new hown).arrived (fun e he => ?_) ((hperm.map _).nodup_iff.mpr hnodup) ?_
    · exact ⟨hverify e (hperm.subset he), hcan e (hperm.subset he)⟩
    · simp [new, DB.known, DB.new]
  have hsub : ((es.filter taken).map fun e => e.address.raw).Nodup :=
    hnodup.sublist (List.filter_sublist.map _)
  rw [OrderFree, ← Arrival.links_iff_orderFree Entry.ends_of_mem_links hsub]
  constructor
  · intro hsame ys zs hys hzs
    -- the entries the driver refuses come last
    have hlast : ∀ {xs}, xs.Perm (es.filter taken) → (xs ++ es.filter (!taken ·)).Perm es ∧
        (xs ++ es.filter (!taken ·)).filter taken = xs := by
      intro xs hxs
      refine ⟨(hxs.append_right _).trans (List.filter_append_perm taken es), ?_⟩
      have hall : ∀ e ∈ xs, taken e := fun e he => (List.mem_filter.mp (hxs.subset he)).2
      rw [List.filter_append, List.filter_eq_self.mpr hall, List.filter_filter]
      simp
    obtain ⟨hpermy, hy⟩ := hlast hys
    obtain ⟨hpermz, hz⟩ := hlast hzs
    have hay := harrived hpermy
    have haz := harrived hpermz
    rw [hy] at hay
    rw [hz] at haz
    exact (hay.sameStore_iff haz (hys.trans hzs.symm)).mp (hsame _ _ hpermy hpermz)
  · intro hlinks es₁ es₂ h₁ h₂
    refine ((harrived h₁).sameStore_iff (harrived h₂) ((h₁.trans h₂.symm).filter taken)).mpr ?_
    exact hlinks _ _ (h₁.filter taken) (h₂.filter taken)

/-- Two entries that name each other arrive in either order. -/
theorem insertAll_same_iff_two :
    let raw := fun k => (sampleAddress k).raw
    let es := [sampleEntry 1 1 7 [raw 2],
      Entry.signedBy .sample [2] { sampleEntry 2 2 7 with seeds := [raw 1] }]
    (es.map fun e => e.address.raw).Nodup ∧ (∀ e ∈ es, e.verify .sample = .ok ()) ∧
      ∀ es₁ es₂, es₁.Perm es → es₂.Perm es →
        SameStore .sample ((new (sampleAddress 0)).insertAll .sample es₁)
          ((new (sampleAddress 0)).insertAll .sample es₂) := by
  intro raw es
  have hverify : ∀ e ∈ es, e.verify .sample = .ok () := by
    intro e he
    rcases List.mem_pair.mp he with rfl | rfl
    · exact verify_sampleEntry 1 1 7 [raw 2]
    · exact Entry.verify_withSeeds (e := sampleEntry 2 2 7) (by decide) (verify_sampleEntry 2 2 7 [])
  have hcan : ∀ e ∈ es, e.address.Canonical .sample := by
    intro e he
    rcases List.mem_pair.mp he with rfl | rfl <;> exact .inl rfl
  have hnodup : (es.map fun e => e.address.raw).Nodup := by decide +kernel
  refine ⟨hnodup, hverify, (insertAll_same_iff .sample (sampleAddress 0) (by rfl) es hnodup hverify
    hcan).mpr ⟨?_, ?_, ?_⟩⟩
  · decide +kernel
  · decide +kernel
  · decide +kernel

/-- Three entries that agree on their links: 1 has the seeds 2 and 3. When 3 arrives first, 1 has to
stop at 2, which has no row yet, and the link to 3 is never made. -/
theorem link_lost_by_order :
    let raw := fun k => (sampleAddress k).raw
    let e₁ := Entry.signedBy .sample [1] { sampleEntry 1 1 7 with seeds := [raw 2, raw 3] }
    let e₂ := sampleEntry 2 2 7 [raw 1]
    let e₃ := sampleEntry 3 3 7 [raw 1]
    let store := fun es => (new (sampleAddress 0)).insertAll .sample es
    (∀ e ∈ [e₁, e₂, e₃], e.verify .sample = .ok ()) ∧
      ((store [e₁, e₂, e₃]).querySeeds .sample (sampleAddress 1)).2 =
        .ok [{ raw := raw 2 }, { raw := raw 3 }] ∧
      ((store [e₃, e₁, e₂]).querySeeds .sample (sampleAddress 1)).2 = .ok [{ raw := raw 2 }] ∧
      ¬ SameStore .sample (store [e₁, e₂, e₃]) (store [e₃, e₁, e₂]) := by
  intro raw e₁ e₂ e₃ store
  have hverify : ∀ e ∈ [e₁, e₂, e₃], e.verify .sample = .ok () := by
    intro e he
    rcases List.mem_cons.mp he with rfl | he
    · exact Entry.verify_withSeeds (e := sampleEntry 1 1 7) (by decide) (verify_sampleEntry 1 1 7 [])
    · rcases List.mem_pair.mp he with rfl | rfl <;> exact verify_sampleEntry _ _ 7 [raw 1]
  obtain ⟨hfirst, hsecond, hne⟩ : ((store [e₁, e₂, e₃]).querySeeds .sample (sampleAddress 1)).2 =
        .ok [{ raw := raw 2 }, { raw := raw 3 }] ∧
      ((store [e₃, e₁, e₂]).querySeeds .sample (sampleAddress 1)).2 = .ok [{ raw := raw 2 }] ∧
      raw 2 ≠ raw 3 := by decide +kernel
  refine ⟨hverify, hfirst, hsecond, fun hsame => hne ?_⟩
  have hlists := (hsame.seeds (sampleAddress 1)).lists_iff (raw 3)
  rw [hfirst, hsecond] at hlists
  simpa [Lists] using hlists

end NetDB

end Zif.Dht
