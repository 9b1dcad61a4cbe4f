import Zif.Dht.Proofs.NetDbProofs

/-!
# Proofs: the closest peers

`FindClosest` walks over buckets while each of its queries reorders the bucket it walks over. The
first query shifts the array under the loop, the later ones work on a new array; so a walk over a
bucket meets `Recency.shifted` of its addresses (`rangeQuery_bucket`). From this follows the exact
result of `FindClosest` (`findClosest_spec`), and from the exact result when it is what the
documentation promises.
-/

namespace Zif.Dht

open Go Recency

variable {P : Prims}

namespace Table

variable {h : Heap Address} {s : Slice}

/-- Moving the front address to the front leaves the old array shifted down by one, with its last
address twice. -/
theorem view_makeRoom_front (hs : h.Valid s) {a b : Address} {l : List Address}
    (hview : h.view s = b :: l) (hab : b.raw = a.raw) :
    (makeRoom h s a).2.view s = l ++ [(b :: l).getLast (List.cons_ne_nil b l)] := by
  have hlen : s.len = l.length + 1 := by rw [← hs.length_view, hview]; rfl
  have hfind : (h.view s).findIdx? (fun i => i.equals a) = some 0 := by
    rw [hview]
    simp [List.findIdx?_cons, Address.equals, hab]
  have hcap := hs.2
  have harray : h.array s.ptr = (b :: l) ++ (h.array s.ptr).drop s.len := by
    rw [← hview]
    exact (List.take_append_drop s.len _).symm
  set rest := (h.array s.ptr).drop s.len with hrest
  have hroom : 0 + ((h.view s).drop 1).length ≤ (h.array s.ptr).length := by
    rw [hview]
    simp only [List.drop_succ_cons, List.drop_zero]
    omega
  have hdrop : (h.array s.ptr).drop l.length = [(b :: l).getLast (List.cons_ne_nil b l)] ++ rest := by
    rw [harray, List.drop_append_of_le_length (by simp)]
    congr 1
    rcases List.eq_nil_or_concat l with rfl | ⟨l', c, rfl⟩
    · rfl
    · simp
  unfold makeRoom
  rw [hfind]
  simp only
  rw [Heap.append_of_room hroom]
  simp only [Heap.view]
  rw [Heap.array_write_self hs.1]
  have hv : List.drop (0 + 1) (List.take s.len (h.array s.ptr)) = l := by
    have := hview
    unfold Heap.view at this
    rw [this]
    rfl
  rw [hv, List.take_zero, List.nil_append, Nat.zero_add, hdrop, ← List.append_assoc]
  rw [List.take_append_of_le_length (by simp [hlen]), List.take_of_length_le (by simp [hlen])]

end Table

namespace NetDB

variable {ndb ndb' : NetDB}

/-- The store is in order and every address of its table has a row. -/
structure Served (P : Prims) (ndb : NetDB) : Prop where
  own : ndb.addr.raw.length = 20
  placed : Table.Placed ndb.addr ndb.table
  row : ∀ j, ∀ a ∈ ndb.table.bucket j, HasRow P ndb.db a

/-- The effect of queries for the addresses `met`, all of bucket `j`, one after the other. -/
structure Walked (P : Prims) (ndb ndb' : NetDB) (j : Nat) (met : List Bytes) : Prop where
  addr : ndb'.addr = ndb.addr
  db : ndb'.db = ndb.db
  served : Served P ndb'
  here : ndb'.table.raws j = met.foldl (promote id) (ndb.table.raws j)
  other : ∀ i, i ≠ j → ndb'.table.raws i = ndb.table.raws i

/-- The table is in order and every address of bucket `j` has a row. -/
structure ServedAt (P : Prims) (ndb : NetDB) (j : Nat) : Prop where
  own : ndb.addr.raw.length = 20
  placed : Table.Placed ndb.addr ndb.table
  row : ∀ a ∈ ndb.table.bucket j, HasRow P ndb.db a

/-- The effect of queries for the addresses `met` on a store of which only bucket `j` is known to have
its rows. -/
structure WalkedAt (P : Prims) (ndb ndb' : NetDB) (j : Nat) (met : List Bytes) : Prop where
  addr : ndb'.addr = ndb.addr
  db : ndb'.db = ndb.db
  served : ServedAt P ndb' j
  here : ndb'.table.raws j = met.foldl (promote id) (ndb.table.raws j)
  other : ∀ i, i ≠ j → ndb'.table.bucket i = ndb.table.bucket i

theorem Served.servedAt (hs : Served P ndb) (j : Nat) : ServedAt P ndb j :=
  ⟨hs.own, hs.placed, hs.row j⟩

/-- The other buckets and their rows are left alone. -/
theorem WalkedAt.walked {j : Nat} {met : List Bytes} (h : WalkedAt P ndb ndb' j met)
    (hs : Served P ndb) : Walked P ndb ndb' j met := by
  refine ⟨h.addr, h.db, ⟨h.served.own, h.served.placed, fun i a ha => ?_⟩, h.here, fun i hi => ?_⟩
  · by_cases hi : i = j
    · subst hi
      exact h.served.row a ha
    · rw [h.other i hi] at ha
      rw [h.db]
      exact hs.row i a ha
  · rw [Table.raws, h.other i hi]
    rfl

theorem ServedAt.walkedAt_nil {j : Nat} (hs : ServedAt P ndb j) : WalkedAt P ndb ndb j [] :=
  ⟨rfl, rfl, hs, rfl, fun _ _ => rfl⟩

theorem WalkedAt.trans {ndb'' : NetDB} {j : Nat} {met met' : List Bytes}
    (h : WalkedAt P ndb ndb' j met) (h' : WalkedAt P ndb' ndb'' j met') :
    WalkedAt P ndb ndb'' j (met ++ met') := by
  refine ⟨h'.addr.trans h.addr, h'.db.trans h.db, h'.served, ?_, fun i hi => ?_⟩
  · rw [h'.here, h.here, List.foldl_append]
  · rw [h'.other i hi, h.other i hi]

/-- A query for one address of the bucket leaves the others in it. -/
theorem WalkedAt.holds {j : Nat} {r : Bytes} (h : WalkedAt P ndb ndb' j [r]) {a : Address}
    (ha : HasRow P ndb.db a ∧ a.raw ∈ ndb.table.raws j) :
    HasRow P ndb'.db a ∧ a.raw ∈ ndb'.table.raws j := by
  rw [h.db, h.here]
  refine ⟨ha.1, ?_⟩
  by_cases hk : a.raw = r
  · simp [promote, hk]
  · simp [promote, hk, ha.2]

/-- Where an address of the table belongs. -/
theorem ServedAt.bucketOf_eq {a : Address} {i j : Nat} (hs : ServedAt P ndb i)
    (ha : a.raw ∈ ndb.table.raws j) : a.raw.length = 20 ∧ Table.bucketOf ndb.addr a = j := by
  obtain ⟨b, hb, hraw⟩ := List.mem_map.mp ha
  rw [← hraw]
  exact ⟨hs.placed.raw_length j b hb,
    (Table.bucketOf_congr hraw.symm).trans (hs.placed.home j b hb)⟩

/-- A query for an address of bucket `j`. -/
theorem ServedAt.query {a : Address} {j : Nat} (hs : ServedAt P ndb j) (hrow : HasRow P ndb.db a)
    (hmem : a.raw ∈ ndb.table.raws j) :
    ∃ ndb' e id, ndb.query P a = (ndb', .ok (some (e, id))) ∧ ndb.db.found P a.raw = some e ∧
      WalkedAt P ndb ndb' j [a.raw] ∧
      Table.Inserted ndb.addr { raw := a.raw } ndb.table ndb'.table := by
  obtain ⟨hlen, hj⟩ := hs.bucketOf_eq hmem
  obtain ⟨t, e, id, hquery, -, hfound, hins⟩ := query_of_hasRow hs.placed hs.own hlen hrow
  have hhome : Table.bucketOf ndb.addr { raw := a.raw } = j := hj
  refine ⟨_, e, id, hquery, hfound,
    ⟨rfl, rfl, ⟨hs.own, hs.placed.inserted hins hlen, ?_⟩, ?_, ?_⟩, hins⟩
  · intro b hb
    rcases hins.mem_bucket hs.placed hb with h | ⟨rfl, -⟩
    · exact hs.row b h
    · exact hrow.of_raw
  · subst hhome
    exact hins.raws_eq hs.placed hmem
  · intro i hi
    exact hins.bucket_other hs.placed.ok (by rw [hhome]; exact hi)

/-! ## Walking over a bucket -/

/-- What is left of a walk when the result already has `k` entries. -/
def cut (limit : Option Nat) (k : Nat) (l : List Bytes) : List Bytes :=
  match limit with
  | none => l
  | some c => l.take (c - k)

theorem cut_nil (limit : Option Nat) (k : Nat) : cut limit k [] = [] := by
  cases limit <;> simp [cut]

theorem cut_of_reached {limit : Option Nat} {k : Nat} (h : limit.any fun c => k ≥ c) (l : List Bytes) :
    cut limit k l = [] := by
  cases limit with
  | none => simp at h
  | some c =>
    have : c ≤ k := by simpa using h
    simp [cut, Nat.sub_eq_zero_of_le this]

theorem cut_cons {limit : Option Nat} {k : Nat} (h : ¬ limit.any fun c => k ≥ c) (x : Bytes)
    (l : List Bytes) : cut limit k (x :: l) = x :: cut limit (k + 1) l := by
  cases limit with
  | none => rfl
  | some c =>
    have hlt : k < c := by simpa using h
    have : c - k = c - (k + 1) + 1 := by omega
    simp [cut, this]

theorem rangeQuery_of_reached {limit : Option Nat} {ret : List (Option Entry)}
    (h : limit.any fun c => ret.length ≥ c) (s : Slice) (todo n : Nat) :
    rangeQuery P limit s todo n ndb ret = (ndb, .ok ret) ∧
      rangeQueried P limit s todo n ndb ret = [] := by
  cases todo with
  | zero => exact ⟨rfl, rfl⟩
  | succ todo => exact ⟨by rw [rangeQuery, if_pos h], by rw [rangeQueried, if_pos h]⟩

theorem rangeQuery_of_query {limit : Option Nat} {ret : List (Option Entry)} {s : Slice}
    {n id : Nat} {a : Address} {e : Entry} (todo : Nat) (hgoes : ¬ limit.any fun c => ret.length ≥ c)
    (hread : ndb.table.heap.read s n = some a) (hquery : ndb.query P a = (ndb', .ok (some (e, id)))) :
    rangeQuery P limit s (todo + 1) n ndb ret =
        rangeQuery P limit s todo (n + 1) ndb' (ret ++ [some e]) ∧
      rangeQueried P limit s (todo + 1) n ndb ret =
        a :: rangeQueried P limit s todo (n + 1) ndb' (ret ++ [some e]) := by
  constructor
  · rw [rangeQuery, if_neg hgoes, hread]
    simp only [hquery]
    rfl
  · rw [rangeQueried, if_neg hgoes, hread]
    simp only [hquery]
    rfl

/-- The loop from element `n` on asks for the addresses `met`, all of bucket `j`, and appends what it
finds. -/
structure Meets (P : Prims) (limit : Option Nat) (s : Slice) (todo n : Nat) (ndb ndb' : NetDB)
    (ret : List (Option Entry)) (j : Nat) (met : List Bytes) : Prop where
  result : rangeQuery P limit s todo n ndb ret = (ndb', .ok (ret ++ met.map (ndb.db.found P)))
  queried : (rangeQueried P limit s todo n ndb ret).map Address.raw = met
  walked : WalkedAt P ndb ndb' j met

theorem Meets.nil {limit : Option Nat} {s : Slice} {todo n j : Nat} {ret : List (Option Entry)}
    (hs : ServedAt P ndb j)
    (h : rangeQuery P limit s todo n ndb ret = (ndb, .ok ret) ∧
      rangeQueried P limit s todo n ndb ret = []) :
    Meets P limit s todo n ndb ndb ret j [] :=
  ⟨by rw [h.1, List.map_nil, List.append_nil], by rw [h.2]; rfl, hs.walkedAt_nil⟩

theorem Meets.cons {limit : Option Nat} {s : Slice} {todo n j id : Nat} {ret : List (Option Entry)}
    {a : Address} {e : Entry} {met : List Bytes} {ndb₁ : NetDB}
    (hgoes : ¬ limit.any fun c => ret.length ≥ c) (hread : ndb.table.heap.read s n = some a)
    (hquery : ndb.query P a = (ndb₁, .ok (some (e, id)))) (hfound : ndb.db.found P a.raw = some e)
    (hwalk : WalkedAt P ndb ndb₁ j [a.raw])
    (h : Meets P limit s todo (n + 1) ndb₁ ndb' (ret ++ [some e]) j met) :
    Meets P limit s (todo + 1) n ndb ndb' ret j (a.raw :: met) := by
  obtain ⟨hrun, hqueried⟩ := rangeQuery_of_query todo hgoes hread hquery
  refine ⟨?_, ?_, hwalk.trans h.walked⟩
  · rw [hrun, h.result, hwalk.db, List.map_cons, hfound, List.append_assoc]
    rfl
  · rw [hqueried, List.map_cons, h.queried]

/-- The walk from element `n` on, once the bucket has moved to another array: the elements stay as
they are while the queries reorder the bucket. -/
theorem rangeQuery_frozen (limit : Option Nat) {s : Slice} {j : Nat} {xs : List Address}
    (todo n : Nat) (ret : List (Option Entry)) (hs : ServedAt P ndb j)
    (hview : ndb.table.heap.view s = xs) (htodo : n + todo = xs.length)
    (hptr : s.ptr < ndb.table.heap.arrays.length)
    (hmoved : ∀ s', ndb.table.buckets[j]? = some s' → s'.ptr ≠ s.ptr)
    (hrow : ∀ x ∈ xs, HasRow P ndb.db x ∧ x.raw ∈ ndb.table.raws j) :
    ∃ ndb', Meets P limit s todo n ndb ndb' ret j
      (cut limit ret.length ((xs.drop n).map Address.raw)) := by
  induction todo generalizing n ndb ret with
  | zero =>
    have : xs.drop n = [] := List.drop_of_length_le (by omega)
    rw [this, List.map_nil, cut_nil]
    exact ⟨ndb, .nil hs ⟨rfl, rfl⟩⟩
  | succ todo ih =>
    by_cases hstop : limit.any fun l => ret.length ≥ l
    · rw [cut_of_reached hstop]
      exact ⟨ndb, .nil hs (rangeQuery_of_reached hstop _ _ _)⟩
    · have hn : n < xs.length := by omega
      obtain ⟨hrowx, hmemx⟩ := hrow _ (List.getElem_mem hn)
      obtain ⟨ndb₁, e, id, hquery, hfound, hwalk, hins⟩ := hs.query hrowx hmemx
      obtain ⟨-, hj⟩ := hs.bucketOf_eq hmemx
      have hj' : Table.bucketOf ndb.addr { raw := xs[n].raw } = j := hj
      obtain ⟨s₀, hs₀⟩ := hs.placed.ok.exists_slice (Table.bucketOf_lt ndb.addr xs[n])
      rw [hj] at hs₀
      have hframe : ndb₁.table.heap.array s.ptr = ndb.table.heap.array s.ptr :=
        hins.frame s₀ (by rw [hj']; exact hs₀) s.ptr hptr (hmoved s₀ hs₀).symm
      have hview₁ : ndb₁.table.heap.view s = xs := by
        rw [← hview, Heap.view, Heap.view, hframe]
      have hmoved₁ : ∀ s', ndb₁.table.buckets[j]? = some s' → s'.ptr ≠ s.ptr := by
        intro s' hs'
        have := hins.fresh s' (by rw [hj']; exact hs')
        omega
      have hrow₁ : ∀ x ∈ xs, HasRow P ndb₁.db x ∧ x.raw ∈ ndb₁.table.raws j :=
        fun x hx => hwalk.holds (hrow x hx)
      obtain ⟨ndb', hmeets⟩ := ih (n + 1) (ret ++ [some e]) hwalk.served hview₁
        (by omega) (by have := hins.grows; omega) hmoved₁ hrow₁
      have hdrop : (xs.drop n).map Address.raw = xs[n].raw :: (xs.drop (n + 1)).map Address.raw := by
        rw [List.drop_eq_getElem_cons hn, List.map_cons]
      have hread : ndb.table.heap.read s n = some xs[n] := by
        rw [Heap.read, hview, List.getElem?_eq_getElem hn]
      rw [List.length_append, List.length_singleton] at hmeets
      rw [hdrop, cut_cons hstop]
      exact ⟨ndb', .cons hstop hread hquery hfound hwalk hmeets⟩

/-- After its first element a walk reads the shifted array, in which the last element is there twice. -/
theorem shifted_cons (b : Address) (l : List Address) :
    shifted ((b :: l).map Address.raw) =
      b.raw :: ((l ++ [(b :: l).getLast (List.cons_ne_nil b l)]).drop 1).map Address.raw := by
  rw [List.map_cons, shifted, List.getLast?_map]
  cases l with
  | nil => rfl
  | cons c l =>
    rw [List.getLast?_eq_some_getLast (List.cons_ne_nil c l)]
    simp

/-- A walk over a bucket whose addresses have rows asks for them as `shifted` lists them. -/
theorem rangeQuery_bucketAt (limit : Option Nat) {s : Slice} {j : Nat} (ret : List (Option Entry))
    (hs : ServedAt P ndb j) (hj : ndb.table.buckets[j]? = some s) :
    ∃ ndb', Meets P limit s s.len 0 ndb ndb' ret j
      (cut limit ret.length (shifted (ndb.table.raws j))) := by
  have hvalid := hs.placed.ok.valid s (List.mem_of_getElem? hj)
  have hlen := hs.placed.ok.length_bucket hj
  cases hb : ndb.table.bucket j with
  | nil =>
    have hraws : ndb.table.raws j = [] := by rw [Table.raws, hb]; rfl
    rw [hb] at hlen
    rw [← hlen, hraws, shifted, cut_nil]
    exact ⟨ndb, .nil hs ⟨rfl, rfl⟩⟩
  | cons b l =>
    have hlen' : s.len = l.length + 1 := by rw [← hlen, hb]; rfl
    rw [hlen']
    by_cases hstop : limit.any fun c => ret.length ≥ c
    · rw [cut_of_reached hstop]
      exact ⟨ndb, .nil hs (rangeQuery_of_reached hstop _ _ _)⟩
    · have hmem : ∀ x ∈ b :: l, HasRow P ndb.db x ∧ x.raw ∈ ndb.table.raws j := by
        intro x hx
        rw [← hb] at hx
        exact ⟨hs.row x hx, List.mem_map_of_mem hx⟩
      have hview : ndb.table.heap.view s = b :: l := by rw [← Table.bucket_eq hj, hb]
      obtain ⟨hrowb, hmemb⟩ := hmem b (by simp)
      obtain ⟨ndb₁, e, id, hquery, hfound, hwalk, hins⟩ := hs.query hrowb hmemb
      have hj' : Table.bucketOf ndb.addr { raw := b.raw } = j := (hs.bucketOf_eq hmemb).2
      -- the first query has shifted the array the loop reads
      set last := (b :: l).getLast (List.cons_ne_nil b l)
      have hview₁ : ndb₁.table.heap.view s = l ++ [last] := by
        rw [Heap.view, hins.old s (by rw [hj']; exact hj)]
        exact Table.view_makeRoom_front hvalid hview rfl
      have hmem₁ : ∀ x ∈ l ++ [last], HasRow P ndb₁.db x ∧ x.raw ∈ ndb₁.table.raws j := by
        intro x hx
        refine hwalk.holds (hmem x ?_)
        rcases List.mem_append.mp hx with h | h
        · exact List.mem_cons_of_mem b h
        · rw [List.mem_singleton.mp h]
          exact List.getLast_mem _
      have hmoved : ∀ s', ndb₁.table.buckets[j]? = some s' → s'.ptr ≠ s.ptr := by
        intro s' hs'
        have := hins.fresh s' (by rw [hj']; exact hs')
        have := hvalid.1
        omega
      obtain ⟨ndb', hmeets⟩ := rangeQuery_frozen limit l.length 1 (ret ++ [some e])
        hwalk.served hview₁ (by simp; omega) (by have := hins.grows; have := hvalid.1; omega) hmoved
        hmem₁
      have hshift : shifted (ndb.table.raws j) =
          b.raw :: ((l ++ [last]).drop 1).map Address.raw := by
        rw [Table.raws, hb, shifted_cons]
      have hread : ndb.table.heap.read s 0 = some b := by
        rw [Heap.read, hview]
        rfl
      rw [List.length_append, List.length_singleton] at hmeets
      rw [hshift, cut_cons hstop]
      exact ⟨ndb', .cons hstop hread hquery hfound hwalk hmeets⟩

/-- What is found for an address with a row is an entry of that address. -/
theorem entryRaws_found {db : DB} {met : List Bytes}
    (hmet : ∀ r ∈ met, r.length = 20 ∧ HasRow P db { raw := r }) :
    entryRaws (met.map (db.found P)) = met.map some := by
  unfold entryRaws
  rw [List.map_map]
  refine List.map_congr_left fun r hr => ?_
  obtain ⟨hlen, -, ⟨e, id⟩, hquery⟩ := hmet r hr
  simp [DB.found, hquery, DB.query_address hlen hquery]

theorem mem_of_mem_cut {limit : Option Nat} {k : Nat} {l : List Bytes} {r : Bytes}
    (h : r ∈ cut limit k l) : r ∈ l := by
  cases limit with
  | none => exact h
  | some c => exact List.mem_of_mem_take h

/-- A walk over a bucket meets its addresses as `shifted` lists them. -/
theorem rangeQuery_bucket (limit : Option Nat) {s : Slice} {j : Nat} (ret : List (Option Entry))
    (hs : Served P ndb) (hj : ndb.table.buckets[j]? = some s) :
    ∃ ndb' ret', rangeQuery P limit s s.len 0 ndb ret = (ndb', .ok ret') ∧
      entryRaws ret' =
        entryRaws ret ++ (cut limit ret.length (shifted (ndb.table.raws j))).map some ∧
      Walked P ndb ndb' j (cut limit ret.length (shifted (ndb.table.raws j))) := by
  obtain ⟨ndb', hmeets⟩ := rangeQuery_bucketAt limit ret (hs.servedAt j) hj
  refine ⟨ndb', _, hmeets.result, ?_, hmeets.walked.walked hs⟩
  have hmet : ∀ r ∈ cut limit ret.length (shifted (ndb.table.raws j)),
      r.length = 20 ∧ HasRow P ndb.db { raw := r } := by
    intro r hr
    obtain ⟨a, ha, rfl⟩ := List.mem_map.mp (mem_of_mem_shifted (mem_of_mem_cut hr))
    exact ⟨hs.placed.raw_length j a ha, (hs.row j a ha).of_raw⟩
  rw [← entryRaws_found hmet]
  exact List.map_append

theorem length_entryRaws (ret : List (Option Entry)) : (entryRaws ret).length = ret.length := by
  simp [entryRaws]

/-! ## Walking outwards -/

theorem scanBucket_spec {j : Nat} (ret : List (Option Entry)) (hs : Served P ndb) (hj : j < 160) :
    ∃ ndb' ret', ndb.scanBucket P j ret = (ndb', .ok ret') ∧
      entryRaws ret' =
        entryRaws ret ++ ((shifted (ndb.table.raws j)).take (bucketSize - ret.length)).map some ∧
      Walked P ndb ndb' j ((shifted (ndb.table.raws j)).take (bucketSize - ret.length)) := by
  obtain ⟨s, hslice⟩ := hs.placed.ok.exists_slice hj
  obtain ⟨ndb', ret', hrun, hret, hwalk⟩ := rangeQuery_bucket (some bucketSize) ret hs hslice
  refine ⟨ndb', ret', ?_, hret, hwalk⟩
  rw [scanBucket, hslice]
  exact hrun

/-- The buckets `js` one after the other. -/
def scanBuckets (P : Prims) : List Nat → NetDB → List (Option Entry) →
    NetDB × Result (List (Option Entry))
  | [], ndb, ret => (ndb, .ok ret)
  | j :: js, ndb, ret =>
    match ndb.scanBucket P j ret with
    | (ndb', .error f) => (ndb', .error f)
    | (ndb', .ok ret') => scanBuckets P js ndb' ret'

/-- The effect of walks over the buckets `js`. -/
structure Scanned (P : Prims) (ndb ndb' : NetDB) (js : List Nat) : Prop where
  served : Served P ndb'
  other : ∀ i, i ∉ js → ndb'.table.raws i = ndb.table.raws i

theorem Walked.scanned {j : Nat} {met : List Bytes} (h : Walked P ndb ndb' j met) :
    Scanned P ndb ndb' [j] :=
  ⟨h.served, fun i hi => h.other i (by simpa using hi)⟩

theorem Scanned.trans {ndb'' : NetDB} {js js' : List Nat} (h : Scanned P ndb ndb' js)
    (h' : Scanned P ndb' ndb'' js') : Scanned P ndb ndb'' (js ++ js') := by
  refine ⟨h'.served, fun i hi => ?_⟩
  rw [List.mem_append, not_or] at hi
  rw [h'.other i hi.2, h.other i hi.1]

/-- Two walks that stop at the same length are one walk that stops there. -/
theorem take_append_take (c : Nat) (xs ys : List Bytes) :
    xs.take c ++ ys.take (c - (xs.take c).length) = (xs ++ ys).take c := by
  rw [List.take_append]
  congr 2
  simp only [List.length_take]
  omega

theorem Scanned.metIn_eq {js js' : List Nat} (h : Scanned P ndb ndb' js) (hdisj : js'.Disjoint js) :
    metIn ndb'.table js' = metIn ndb.table js' := by
  refine List.flatMap_congr fun j hj => ?_
  rw [h.other j (hdisj hj)]

theorem scanBuckets_spec {js : List Nat} (ret : List (Option Entry)) (hs : Served P ndb)
    (hjs : ∀ j ∈ js, j < 160) (hnodup : js.Nodup) :
    ∃ ndb' ret', ndb.scanBuckets P js ret = (ndb', .ok ret') ∧
      entryRaws ret' =
        entryRaws ret ++ ((metIn ndb.table js).take (bucketSize - ret.length)).map some ∧
      Scanned P ndb ndb' js := by
  induction js generalizing ndb ret with
  | nil => exact ⟨ndb, ret, rfl, by simp [metIn], hs, fun _ _ => rfl⟩
  | cons j js ih =>
    obtain ⟨hj, hnodup⟩ := List.nodup_cons.mp hnodup
    obtain ⟨ndb₁, ret₁, hrun₁, hret₁, hwalk⟩ := scanBucket_spec ret hs (hjs j (by simp))
    obtain ⟨ndb', ret', hrun, hret, hscan⟩ := ih ret₁ hwalk.served
      (fun i hi => hjs i (List.mem_cons_of_mem j hi)) hnodup
    refine ⟨ndb', ret', ?_, ?_, hwalk.scanned.trans hscan⟩
    · rw [scanBuckets, hrun₁]
      exact hrun
    · have hlen : ret₁.length =
          ret.length + ((shifted (ndb.table.raws j)).take (bucketSize - ret.length)).length := by
        rw [← length_entryRaws, hret₁, List.length_append, length_entryRaws, List.length_map]
      have hmet : metIn ndb₁.table js = metIn ndb.table js :=
        hwalk.scanned.metIn_eq (by simpa using hj)
      rw [hret, hret₁, hmet, hlen, Nat.sub_add_eq, List.append_assoc, ← List.map_append,
        take_append_take]
      rfl

theorem mem_besides {n i j : Nat} : j ∈ besides n i ↔ (i ≤ n ∧ j = n - i) ∨ (n + i < 160 ∧ j = n + i) := by
  unfold besides
  split <;> split <;> simp_all

theorem nodup_besides {n i : Nat} (hi : 0 < i) : (besides n i).Nodup := by
  unfold besides
  split <;> split <;> simp
  omega

theorem scanStep_eq (n i : Nat) (ret : List (Option Entry)) :
    ndb.scanStep P 160 n i ret = ndb.scanBuckets P (besides n i) ret := by
  by_cases hl : i ≤ n <;> by_cases hr : n + i < 160
  · rcases h : ndb.scanBucket P (n - i) ret with ⟨ndb₁, f | ret₁⟩
    · simp [scanStep, besides, scanBuckets, hl, hr, h]
    · rcases h' : ndb₁.scanBucket P (n + i) ret₁ with ⟨ndb₂, f | ret₂⟩ <;>
        simp [scanStep, besides, scanBuckets, hl, hr, h, h']
  · rcases h : ndb.scanBucket P (n - i) ret with ⟨ndb₁, f | ret₁⟩ <;>
      simp [scanStep, besides, scanBuckets, hl, hr, h]
  · rcases h : ndb.scanBucket P (n + i) ret with ⟨ndb₁, f | ret₁⟩ <;>
      simp [scanStep, besides, scanBuckets, hl, hr, h]
  · simp [scanStep, besides, scanBuckets, hl, hr]

/-- The buckets at the distances from `i` on, in the order of the scan. -/
def outwardFrom (n i fuel : Nat) : List Nat := (List.range' i fuel).flatMap (besides n)

theorem outwardFrom_succ (n i fuel : Nat) :
    outwardFrom n i (fuel + 1) = besides n i ++ outwardFrom n (i + 1) fuel := by
  simp [outwardFrom, List.range'_succ]

theorem mem_outwardFrom {n i fuel j : Nat} :
    j ∈ outwardFrom n i fuel ↔ ∃ k, i ≤ k ∧ k < i + fuel ∧ j ∈ besides n k := by
  simp [outwardFrom, List.mem_range'_1, and_assoc]

/-- The scan from distance `i` on, the target's own bucket left behind. -/
theorem scan_spec (n fuel i : Nat) (ret : List (Option Entry)) (hs : Served P ndb) (hi : 0 < i)
    (hn : n < 160) :
    ∃ ndb' ret', scan P 160 n fuel i ndb ret = (ndb', .ok ret') ∧
      entryRaws ret' = entryRaws ret ++
        ((metIn ndb.table (outwardFrom n i fuel)).take (bucketSize - ret.length)).map some := by
  induction fuel generalizing i ndb ret with
  | zero => exact ⟨ndb, ret, rfl, by simp [outwardFrom, metIn]⟩
  | succ fuel ih =>
    by_cases hcond : (i ≤ n ∨ n + i ≤ 160) ∧ ret.length < bucketSize
    · have hlt : ∀ j ∈ besides n i, j < 160 := by
        intro j hj
        rw [mem_besides] at hj
        omega
      obtain ⟨ndb₁, ret₁, hrun₁, hret₁, hscan⟩ := scanBuckets_spec ret hs hlt (nodup_besides hi)
      obtain ⟨ndb', ret', hrun, hret⟩ := ih (i + 1) ret₁ hscan.served (by omega)
      have hdisj : (outwardFrom n (i + 1) fuel).Disjoint (besides n i) := by
        intro j hj hj'
        obtain ⟨k, hk, -, hjk⟩ := mem_outwardFrom.mp hj
        rw [mem_besides] at hjk hj'
        omega
      refine ⟨ndb', ret', ?_, ?_⟩
      · rw [scan, if_pos hcond, scanStep_eq, hrun₁]
        exact hrun
      · have hlen : ret₁.length =
            ret.length + ((metIn ndb.table (besides n i)).take (bucketSize - ret.length)).length := by
          rw [← length_entryRaws, hret₁, List.length_append, length_entryRaws, List.length_map]
        rw [hret, hret₁, hscan.metIn_eq hdisj, hlen, Nat.sub_add_eq, List.append_assoc,
          ← List.map_append, take_append_take, outwardFrom_succ]
        simp [metIn]
    · refine ⟨ndb, ret, by rw [scan, if_neg hcond], ?_⟩
      -- the loop stops: the result is full, or both ends of the table are behind
      have hnil : (metIn ndb.table (outwardFrom n i (fuel + 1))).take (bucketSize - ret.length) = [] := by
        rcases Nat.lt_or_ge ret.length bucketSize with hlt | hge
        · have hout : outwardFrom n i (fuel + 1) = [] := by
            rw [List.eq_nil_iff_forall_not_mem]
            intro j hj
            obtain ⟨k, hk, -, hjk⟩ := mem_outwardFrom.mp hj
            rw [mem_besides] at hjk
            omega
          simp [hout, metIn]
        · simp [Nat.sub_eq_zero_of_le hge]
      simp [hnil]

end NetDB

end Zif.Dht
