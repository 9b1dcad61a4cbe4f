import Zif.Dht.Discovery
import Zif.Dht.Proofs.EntryProofs
import Zif.Dht.Proofs.FindClosestProofs
import Zif.Dht.Proofs.LinkProofs
import Zif.Lib.Proofs.RunsProofs

/-!
# Proofs: the routing table and the database

`Kept` is what calls keep of a store as long as the addresses it is given are canonical. If every address of
the routing table has a row, too, `FindClosest` finds an entry for each (`Served`).
-/

namespace Zif.Dht

open Go Runs

variable {P : Prims}

namespace NetDB

variable {ndb ndb' : NetDB} {e : Entry} {a : Address}

/-- The node's own address has the right size, and the routing table is in order. -/
structure InOrder (ndb : NetDB) : Prop where
  own : ndb.addr.raw.length = 20
  placed : Table.Placed ndb.addr ndb.table

/-- The tables of the database are in order as well. -/
structure Kept (P : Prims) (ndb : NetDB) : Prop extends InOrder ndb where
  wf : DB.Wf P ndb.db

theorem kept_new {own : Address} (hown : own.raw.length = 20) : Kept P (new own) := by
  obtain ⟨t, hrun, hp, -⟩ := Table.bucket_foldlM hown [] (by simp)
  cases hrun
  refine ⟨⟨hown, hp⟩, ⟨?_, ?_, ?_, ?_⟩⟩ <;> simp [new, DB.new, DB.links]

/-! ## What a call does -/

/-- `Insert` does nothing with an entry that fails `Verify`; any other goes into the routing table. -/
theorem InOrder.insert_cases (hk : InOrder ndb) (e : Entry) :
    (e.verify P ≠ .ok () ∧ (ndb.insert P e).1 = ndb) ∨
      e.verify P = .ok () ∧ e.address.raw.length = 20 ∧
        ∃ t, Table.Inserted ndb.addr e.address ndb.table t ∧
          (ndb.insert P e).1 = { ndb with table := t, db := ndb.db.put P e } := by
  by_cases hv : e.verify P = .ok ()
  · have hraw : e.address.raw.length = 20 := ((Entry.verify_eq_ok_iff e).mp hv).1.1
    obtain ⟨t, ht, hins⟩ := Table.insertIntoTable_spec hk.placed.ok hk.own e.address hraw
    exact .inr ⟨hv, hraw, t, hins, insert_of_verified hv (insertIntoTable_eq ht)⟩
  · refine .inl ⟨hv, ?_⟩
    unfold insert
    cases h : e.verify P with
    | error f => rfl
    | ok u => exact absurd h hv

/-- `Query` finds nothing, or a row whose address goes into the routing table. -/
theorem Kept.query_cases (hk : Kept P ndb) (a : Address) :
    (ndb.db.row (P.store (a.string P)) = none ∧ ndb.query P a = (ndb, .ok none)) ∨
      ∃ r ∈ ndb.db.entries, r.address = P.store (a.string P) ∧
        ∃ t e, Table.Inserted ndb.addr { raw := rawAddress r.address } ndb.table t ∧
          e.address = { raw := rawAddress r.address } ∧
          ndb.query P a = ({ ndb with table := t }, .ok (some (e, r.id))) := by
  cases hrow : ndb.db.row (P.store (a.string P)) with
  | none =>
    refine .inl ⟨rfl, ?_⟩
    simp [query, DB.query, hrow]
  | some r =>
    have hr := DB.mem_of_row hrow
    have haddr := DB.address_of_row hrow
    obtain ⟨seeds, seeding, -, -, -, -, hquery⟩ := hk.wf.query hr haddr.symm
    obtain ⟨raw, hlen, htext⟩ := hk.wf.canonical r hr
    have hraw : (rawAddress r.address).length = 20 := by rw [htext, DB.rawAddress_text, hlen]
    obtain ⟨t, ht, hins⟩ := Table.insertIntoTable_spec hk.placed.ok hk.own
      { raw := rawAddress r.address } hraw
    refine .inr ⟨r, hr, haddr, t, DB.readRow r { raw := rawAddress r.address } seeds seeding, hins,
      rfl, ?_⟩
    have htable : ndb.insertIntoTable (DB.readRow r { raw := rawAddress r.address } seeds
        seeding).address = .ok { ndb with table := t } := insertIntoTable_eq ht
    simp only [query, hquery, htable]

/-- Nothing is assumed of the entry here. -/
theorem InOrder.insert (hk : InOrder ndb) (e : Entry) : InOrder (ndb.insert P e).1 := by
  rcases hk.insert_cases (P := P) e with ⟨-, heq⟩ | ⟨-, hraw, t, hins, heq⟩
  · rwa [heq]
  · rw [heq]
    exact ⟨hk.own, hk.placed.inserted hins hraw⟩

theorem Kept.insert (hk : Kept P ndb) (he : e.verify P = .ok () → e.address.Canonical P) :
    Kept P (ndb.insert P e).1 := by
  rcases hk.insert_cases e with ⟨-, heq⟩ | ⟨hv, hraw, t, hins, heq⟩
  · rwa [heq]
  · rw [heq]
    exact ⟨⟨hk.own, hk.placed.inserted hins hraw⟩, hk.wf.put (he hv) hraw⟩

theorem Kept.query (hk : Kept P ndb) (a : Address) : Kept P (ndb.query P a).1 := by
  rcases hk.query_cases a with ⟨-, heq⟩ | ⟨r, hr, -, t, e, hins, -, heq⟩
  · rwa [heq]
  · obtain ⟨raw, hlen, htext⟩ := hk.wf.canonical r hr
    have hraw : (rawAddress r.address).length = 20 := by rw [htext, DB.rawAddress_text, hlen]
    rw [heq]
    exact ⟨⟨hk.own, hk.placed.inserted hins hraw⟩, hk.wf⟩

/-- `InsertSeed` changes the links and nothing else. -/
theorem insertSeed_fst (ndb : NetDB) (entry seed : Address) :
    (ndb.insertSeed P entry seed).1 = { ndb with db := (ndb.db.insertSeeds P [(entry, seed)]).1 } := by
  unfold insertSeed
  simp only [DB.insertSeeds]
  cases ndb.db.insertSeed P entry seed with
  | error f => rfl
  | ok db => rfl

theorem Kept.after (hk : Kept P ndb) {c : Call}
    (hc : c.Admitted fun e => e.verify P = .ok () → e.address.Canonical P) : Kept P (ndb.after P c) := by
  cases c with
  | insert e => exact hk.insert hc
  | insertSeed entry seed =>
    rw [NetDB.after, insertSeed_fst]
    exact ⟨⟨hk.own, hk.placed⟩, hk.wf.insertSeeds _⟩
  | query a => exact hk.query a

theorem kept_run {own : Address} (hown : own.raw.length = 20) {calls : List Call}
    (hcalls : ∀ c ∈ calls, c.Admitted fun e => e.verify P = .ok () → e.address.Canonical P) :
    Kept P (run (after P) (new own) calls) :=
  (always_of_forall hcalls).invariant (kept_new hown) fun _ _ hk hc => hk.after hc

/-! ## What `FindClosest` keeps -/

section Queries

variable {I : NetDB → Prop} (hquery : ∀ ndb a, I ndb → I (ndb.query P a).1)

include hquery

theorem rangeQuery_invariant (limit : Option Nat) (as : Slice) (todo n : Nat)
    (ret : List (Option Entry)) (h : I ndb) : I (rangeQuery P limit as todo n ndb ret).1 := by
  induction todo generalizing n ndb ret with
  | zero => exact h
  | succ todo ih =>
    rw [rangeQuery]
    split
    · exact h
    · split
      · exact h
      · rename_i i _
        have hq := hquery ndb i h
        split
        all_goals
          rename_i heq
          rw [heq] at hq
        · exact hq
        · exact ih (n + 1) ret hq
        · exact ih (n + 1) _ hq

theorem scanBucket_invariant (j : Nat) (ret : List (Option Entry)) (h : I ndb) :
    I (ndb.scanBucket P j ret).1 := by
  unfold scanBucket
  split
  · exact h
  · exact rangeQuery_invariant hquery _ _ _ _ ret h

theorem scanStep_invariant (bits index i : Nat) (ret : List (Option Entry)) (h : I ndb) :
    I (ndb.scanStep P bits index i ret).1 := by
  have hleft : I (if i ≤ index then ndb.scanBucket P (index - i) ret else (ndb, .ok ret)).1 := by
    split
    · exact scanBucket_invariant hquery _ ret h
    · exact h
  unfold scanStep
  simp only
  split
  all_goals
    rename_i heq
    rw [heq] at hleft
  · exact hleft
  · split
    · exact scanBucket_invariant hquery _ _ hleft
    · exact hleft

theorem scan_invariant (bits index fuel i : Nat) (ret : List (Option Entry)) (h : I ndb) :
    I (scan P bits index fuel i ndb ret).1 := by
  induction fuel generalizing i ndb ret with
  | zero => exact h
  | succ fuel ih =>
    rw [scan]
    split
    · have hstep := scanStep_invariant hquery bits index i ret h
      split
      all_goals
        rename_i heq
        rw [heq] at hstep
      · exact hstep
      · exact ih (i + 1) _ hstep
    · exact h

/-- What every `Query` keeps, `FindClosest` keeps. -/
theorem findClosest_invariant (target : Address) (h : I ndb) : I (ndb.findClosest P target).1 := by
  unfold findClosest
  split
  · exact h
  · split
    · exact h
    · split
      · exact rangeQuery_invariant hquery _ _ _ _ _ h
      · exact scan_invariant hquery _ _ _ _ _ h

end Queries

theorem Kept.findClosest (hk : Kept P ndb) (target : Address) : Kept P (ndb.findClosest P target).1 :=
  findClosest_invariant (fun _ a h => h.query a) target hk

/-! ## No result is nil -/

theorem none_not_mem_of_entryRaws {ret ret' : List (Option Entry)} {l : List Bytes}
    (h : entryRaws ret' = entryRaws ret ++ l.map some) (hret : none ∉ ret) : none ∉ ret' := by
  intro hnone
  have hraw : none ∈ entryRaws ret' := List.mem_map.mpr ⟨none, hnone, rfl⟩
  rw [h, List.mem_append] at hraw
  rcases hraw with hraw | hraw
  · obtain ⟨kv, hkv, heq⟩ := List.mem_map.mp hraw
    cases kv with
    | none => exact hret hkv
    | some e => cases heq
  · simp at hraw

section Served

variable {ret ret' : List (Option Entry)}

theorem Served.scanBucket (hs : Served P ndb) (hret : none ∉ ret) {j : Nat}
    (h : ndb.scanBucket P j ret = (ndb', .ok ret')) : Served P ndb' ∧ none ∉ ret' := by
  by_cases hj : j < 160
  · obtain ⟨ndb₁, ret₁, hrun, hraws, hwalk⟩ := scanBucket_spec ret hs hj
    rw [hrun] at h
    injection h with h₁ h₂
    injection h₂ with h₂
    rw [← h₁, ← h₂]
    exact ⟨hwalk.served, none_not_mem_of_entryRaws hraws hret⟩
  · have hnone : ndb.table.buckets[j]? = none := by
      rw [List.getElem?_eq_none_iff, hs.placed.ok.size]
      omega
    rw [NetDB.scanBucket, hnone] at h
    cases h

theorem Served.scanStep (hs : Served P ndb) (hret : none ∉ ret) {bits index i : Nat}
    (h : ndb.scanStep P bits index i ret = (ndb', .ok ret')) : Served P ndb' ∧ none ∉ ret' := by
  have hleft : ∀ {ndb₁ ret₁}, (if i ≤ index then ndb.scanBucket P (index - i) ret else (ndb, .ok ret)) =
      (ndb₁, .ok ret₁) → Served P ndb₁ ∧ none ∉ ret₁ := by
    intro ndb₁ ret₁ h₁
    split at h₁
    · exact hs.scanBucket hret h₁
    · injection h₁ with h₁ h₂
      injection h₂ with h₂
      rw [← h₁, ← h₂]
      exact ⟨hs, hret⟩
  unfold NetDB.scanStep at h
  simp only at h
  split at h
  · cases h
  · rename_i ndb₁ ret₁ h₁
    obtain ⟨hs₁, hret₁⟩ := hleft h₁
    split at h
    · exact hs₁.scanBucket hret₁ h
    · injection h with h₁ h₂
      injection h₂ with h₂
      rw [← h₁, ← h₂]
      exact ⟨hs₁, hret₁⟩

theorem Served.scan (hs : Served P ndb) (hret : none ∉ ret) {bits index fuel i : Nat}
    (h : NetDB.scan P bits index fuel i ndb ret = (ndb', .ok ret')) : none ∉ ret' := by
  induction fuel generalizing i ndb ret with
  | zero =>
    injection h with h₁ h₂
    injection h₂ with h₂
    rwa [← h₂]
  | succ fuel ih =>
    rw [NetDB.scan] at h
    split at h
    · split at h
      · cases h
      · rename_i ndb₁ ret₁ hstep
        obtain ⟨hs₁, hret₁⟩ := hs.scanStep hret hstep
        exact ih hs₁ hret₁ h
    · injection h with h₁ h₂
      injection h₂ with h₂
      rwa [← h₂]

/-- When every address of the table has a row, `FindClosest` finds an entry for each. -/
theorem Served.none_not_mem_findClosest (hs : Served P ndb) {target : Address}
    (h : ndb.findClosest P target = (ndb', .ok ret')) : none ∉ ret' := by
  unfold findClosest at h
  split at h
  · cases h
  · rename_i i hindex
    split at h
    · cases h
    · rename_i n s hslot
      split at h
      · have hbucket : ndb.table.buckets[n]? = some s := by
          unfold Table.slot at hslot
          split at hslot
          · cases hslot
          · split at hslot
            · rename_i hget
              injection hslot with hslot
              injection hslot with hn hs'
              rw [← hn, ← hs', hget]
            · cases hslot
        obtain ⟨ndb₁, ret₁, hrun, hraws, -⟩ := rangeQuery_bucket none [] hs hbucket
        rw [queryAddresses, hrun] at h
        injection h with h₁ h₂
        injection h₂ with h₂
        rw [← h₂]
        exact none_not_mem_of_entryRaws hraws (by simp)
      · exact hs.scan (by simp) h

end Served

end NetDB

end Zif.Dht
