import Zif.Dht.Proofs.DiscoveryProofs
import Zif.Go.Proofs.ResultProofs
import Zif.Node.Handlers
import Zif.Node.Resolve

/-!
# Proofs: requests for the closest peers

`FindClosest` computes an index from an address of any length, and each of its queries inserts an
address that was decoded from a stored text. With texts that are harmless everything after the first
index stays in range (`Sound`), so a request is answered exactly if its address has between 1 and 20
bytes. An entry under any other text makes a request for its own address panic.
-/

namespace Zif.Node

open Go Dht Runs

variable {P : Prims} {ndb : NetDB}

/-- What keeps queries in range: the node's own address, a table in order, and harmless texts. -/
structure Sound (ndb : NetDB) : Prop where
  own : ndb.addr.raw.length = 20
  ok : Table.Ok ndb.table
  rows : ∀ r ∈ ndb.db.entries, Harmless r.address

theorem sound_new {own : Address} (hown : own.raw.length = 20) : Sound (NetDB.new own) := by
  refine ⟨hown, Table.ok_new, fun r hr => ?_⟩
  cases hr

/-! ## Queries -/

/-- The links of a row are decoded without a panic. -/
theorem Sound.links_ne_panic (hs : Sound ndb) (id : Nat) :
    ndb.db.querySeeds id ≠ .error .panic ∧ ndb.db.querySeeding id ≠ .error .panic := by
  constructor
  · refine mapM_ne_panic fun c hc => ?_
    obtain ⟨r, hr, rfl, -⟩ := DB.mem_selectSeeds.mp hc
    exact (hs.rows r hr).1
  · refine mapM_ne_panic fun c hc => ?_
    obtain ⟨r, hr, rfl, -⟩ := DB.mem_selectSeeding.mp hc
    exact (hs.rows r hr).1

/-- The database answers a query with nothing, an error or an entry whose address has a place in the
routing table. -/
theorem Sound.db_query (hs : Sound ndb) (a : Address) :
    ndb.db.query P a = .ok none ∨ (∃ msg, ndb.db.query P a = .error (.error msg)) ∨
      ∃ e id, ndb.db.query P a = .ok (some (e, id)) ∧ 0 < e.address.raw.length ∧
        e.address.raw.length ≤ 20 := by
  have hne : ndb.db.query P a ≠ .error .panic := by
    unfold DB.query
    cases hrow : ndb.db.row (P.store (a.string P)) with
    | none =>
      intro h
      cases h
    | some r =>
      obtain ⟨hseeds, hseeding⟩ := hs.links_ne_panic r.id
      refine bind_ne_panic (hs.rows r (DB.mem_of_row hrow)).1 fun _ _ =>
        bind_ne_panic hseeds fun _ _ => bind_ne_panic hseeding fun _ _ hp => ?_
      cases hp
  cases hquery : ndb.db.query P a with
  | error f =>
    cases f with
    | error msg => exact .inr (.inl ⟨msg, rfl⟩)
    | panic => exact absurd hquery hne
  | ok found =>
    rcases DB.query_eq_ok hquery with ⟨-, rfl⟩ | ⟨r, decoded, seeds, seeding, hrow, hd, -, -, rfl⟩
    · exact .inl rfl
    · exact .inr (.inr ⟨_, _, rfl, (hs.rows r (DB.mem_of_row hrow)).2 decoded hd⟩)

/-- An address of 1 to 20 bytes has a place in the routing table. -/
theorem Sound.insertIntoTable (hs : Sound ndb) {a : Address} (hpos : 0 < a.raw.length)
    (hle : a.raw.length ≤ 20) :
    ∃ t n, n < 160 ∧ ndb.insertIntoTable a = .ok { ndb with table := t } ∧
      Table.InsertedAt n a ndb.table t := by
  have hown := hs.own
  rcases Table.index_cases ndb.addr a with ⟨hlong, -⟩ | ⟨hzero, -⟩ | ⟨-, n, hn, hi⟩
  · omega
  · omega
  · obtain ⟨t, hrun, hins⟩ := Table.insertIntoTable_at hs.ok (show n < 160 by omega) hi
    exact ⟨t, n, by omega, NetDB.insertIntoTable_eq hrun, hins⟩

/-- A query does not panic. It leaves the store sound, and every slice readable that was. -/
theorem Sound.query (hs : Sound ndb) (a : Address) :
    (ndb.query P a).2 ≠ .error .panic ∧ Sound (ndb.query P a).1 ∧
      ∀ s, ndb.table.heap.Valid s → (ndb.query P a).1.table.heap.Valid s := by
  unfold NetDB.query
  rcases hs.db_query (P := P) a with h | ⟨msg, h⟩ | ⟨e, id, h, hpos, hle⟩
  · rw [h]
    refine ⟨?_, hs, fun _ hv => hv⟩
    intro hp
    cases hp
  · rw [h]
    refine ⟨?_, hs, fun _ hv => hv⟩
    intro hp
    cases hp
  · obtain ⟨t, n, hn, hrun, hins⟩ := hs.insertIntoTable hpos hle
    simp only [h, hrun]
    refine ⟨?_, ⟨hs.own, hins.ok, hs.rows⟩, fun _ hv => hins.valid hs.ok hn hv⟩
    intro hp
    cases hp

/-! ## The loops of `FindClosest` -/

theorem Sound.rangeQuery (limit : Option Nat) {s : Slice} (todo n : Nat) (ret : List (Option Entry))
    (hs : Sound ndb) (hv : ndb.table.heap.Valid s) (hn : n + todo ≤ s.len) :
    ∃ ndb' ret', NetDB.rangeQuery P limit s todo n ndb ret = (ndb', .ok ret') ∧ Sound ndb' := by
  induction todo generalizing n ndb ret with
  | zero => exact ⟨ndb, ret, rfl, hs⟩
  | succ todo ih =>
    rw [NetDB.rangeQuery]
    by_cases hstop : limit.any fun l => ret.length ≥ l
    · rw [if_pos hstop]
      exact ⟨ndb, ret, rfl, hs⟩
    · rw [if_neg hstop]
      have hlt : n < (ndb.table.heap.view s).length := by
        rw [hv.length_view]
        omega
      rw [Heap.read, List.getElem?_eq_getElem hlt]
      obtain ⟨hne, hs', hv'⟩ := hs.query (P := P) ((ndb.table.heap.view s)[n])
      rcases hq : ndb.query P ((ndb.table.heap.view s)[n]) with ⟨ndb₁, res⟩
      rw [hq] at hne hs' hv'
      simp only [hq]
      cases res with
      | ok kv => exact ih (n + 1) _ hs' (hv' s hv) (by omega)
      | error f =>
        cases f with
        | error msg => exact ih (n + 1) _ hs' (hv' s hv) (by omega)
        | panic => exact absurd rfl hne

theorem Sound.scanBucket (hs : Sound ndb) {j : Nat} (hj : j < 160) (ret : List (Option Entry)) :
    ∃ ndb' ret', ndb.scanBucket P j ret = (ndb', .ok ret') ∧ Sound ndb' := by
  obtain ⟨s, hslice⟩ := hs.ok.exists_slice hj
  unfold NetDB.scanBucket
  simp only [hslice]
  exact hs.rangeQuery _ _ _ _ (hs.ok.valid s (List.mem_of_getElem? hslice)) (by omega)

theorem Sound.scanStep (hs : Sound ndb) {bits index i : Nat} (hbits : bits ≤ 160)
    (hindex : index < 160) (ret : List (Option Entry)) :
    ∃ ndb' ret', ndb.scanStep P bits index i ret = (ndb', .ok ret') ∧ Sound ndb' := by
  have hleft : ∃ ndb₁ ret₁, (if i ≤ index then ndb.scanBucket P (index - i) ret else (ndb, .ok ret)) =
      (ndb₁, .ok ret₁) ∧ Sound ndb₁ := by
    by_cases hi : i ≤ index
    · rw [if_pos hi]
      exact hs.scanBucket (by omega) ret
    · rw [if_neg hi]
      exact ⟨ndb, ret, rfl, hs⟩
  obtain ⟨ndb₁, ret₁, hrun, hs₁⟩ := hleft
  unfold NetDB.scanStep
  simp only [hrun]
  by_cases hi : index + i < bits
  · rw [if_pos hi]
    exact hs₁.scanBucket (by omega) ret₁
  · rw [if_neg hi]
    exact ⟨ndb₁, ret₁, rfl, hs₁⟩

theorem Sound.scan (hs : Sound ndb) {bits index : Nat} (hbits : bits ≤ 160) (hindex : index < 160)
    (fuel i : Nat) (ret : List (Option Entry)) :
    ∃ ndb' ret', NetDB.scan P bits index fuel i ndb ret = (ndb', .ok ret') ∧ Sound ndb' := by
  induction fuel generalizing i ndb ret with
  | zero => exact ⟨ndb, ret, rfl, hs⟩
  | succ fuel ih =>
    rw [NetDB.scan]
    split
    · obtain ⟨ndb₁, ret₁, hrun, hs₁⟩ := hs.scanStep (P := P) (i := i) hbits hindex ret
      simp only [hrun]
      exact ih hs₁ (i + 1) ret₁
    · exact ⟨ndb, ret, rfl, hs⟩

/-- In a sound store `FindClosest` returns a result for the addresses of 1 to 20 bytes, and panics on
all others. -/
theorem Sound.findClosest (hs : Sound ndb) (a : Address) :
    ((0 < a.raw.length ∧ a.raw.length ≤ 20) ∧
        ∃ ndb' ret, ndb.findClosest P a = (ndb', .ok ret) ∧ Sound ndb') ∨
      ¬(0 < a.raw.length ∧ a.raw.length ≤ 20) ∧ ndb.findClosest P a = (ndb, .error .panic) := by
  unfold NetDB.findClosest
  have hown := hs.own
  rcases Table.index_cases ndb.addr a with ⟨hlong, hi⟩ | ⟨hzero, i, hneg, hi⟩ | ⟨hlen, n, hn, hi⟩
  · rw [hi]
    exact .inr ⟨by omega, rfl⟩
  · rw [hi]
    simp only
    rw [Table.slot_of_neg hneg]
    exact .inr ⟨by omega, rfl⟩
  · have hlt : n < 160 := by omega
    obtain ⟨s, hslice⟩ := hs.ok.exists_slice hlt
    refine .inl ⟨by omega, ?_⟩
    simp only [hi, Table.slot_eq hslice]
    split
    · exact hs.rangeQuery _ _ _ _ (hs.ok.valid s (List.mem_of_getElem? hslice)) (by omega)
    · exact hs.scan (by omega) hlt _ _ _

theorem answers_iff (address : Address) :
    Answers P ndb address ↔ ∃ ndb' ret, ndb.findClosest P address = (ndb', .ok ret) := by
  constructor
  · rintro ⟨ndb', ret, h, -⟩
    exact ⟨ndb', ret, h⟩
  · rintro ⟨ndb', ret, h⟩
    refine ⟨ndb', ret, h, ?_, fun msg => ?_⟩
    · simp only [handleFindClosest, h]
    · simp only [handleFindClosest, h]

theorem Sound.answers_iff (hs : Sound ndb) (address : Address) :
    Answers P ndb address ↔ 0 < address.raw.length ∧ address.raw.length ≤ 20 := by
  rw [Node.answers_iff]
  rcases hs.findClosest (P := P) address with ⟨hlen, ndb', ret, h, -⟩ | ⟨hlen, h⟩
  · exact iff_of_true ⟨ndb', ret, h⟩ hlen
  · refine iff_of_false ?_ hlen
    rintro ⟨ndb', ret, h'⟩
    rw [h] at h'
    cases h'

/-! ## Runs of calls -/

/-- The entry, if the store takes it, is stored under a harmless text. -/
def StoredHarmless (P : Prims) (e : Entry) : Prop :=
  e.verify P = .ok () → driverAccepts e.updated = true → Harmless (P.store (e.address.string P))

theorem harmless_put {db : DB} {e : Entry} (hrows : ∀ r ∈ db.entries, Harmless r.address)
    (he : driverAccepts e.updated = true → Harmless (P.store (e.address.string P))) :
    ∀ r ∈ (db.put P e).entries, Harmless r.address := by
  intro r hr
  by_cases haccepts : driverAccepts e.updated = true
  · rcases DB.mem_put hr with hold | ⟨r₀, -, haddr⟩
    · exact hrows r hold
    · rw [haddr]
      exact he haccepts
  · rw [DB.put, if_pos (by simpa using haccepts)] at hr
    exact hrows r hr

theorem Sound.insert (hs : Sound ndb) {e : Entry} (he : StoredHarmless P e) :
    Sound (ndb.insert P e).1 := by
  cases hv : e.verify P with
  | error f =>
    rw [NetDB.insert, hv]
    exact hs
  | ok u =>
    have hraw : e.address.raw.length = 20 := ((Entry.verify_eq_ok_iff e).mp hv).1.1
    obtain ⟨t, n, -, hrun, hins⟩ := hs.insertIntoTable (by omega) hraw.le
    rw [NetDB.insert_of_verified hv hrun]
    exact ⟨hs.own, hins.ok, harmless_put hs.rows (he hv)⟩

theorem Sound.after (hs : Sound ndb) {c : NetDB.Call} (hc : c.Admitted (StoredHarmless P)) :
    Sound (ndb.after P c) := by
  cases c with
  | insert e => exact hs.insert hc
  | insertSeed entry seed =>
    rw [NetDB.after, NetDB.insertSeed_fst]
    refine ⟨hs.own, hs.ok, ?_⟩
    show ∀ r ∈ (DB.insertSeeds P ndb.db [(entry, seed)]).1.entries, _
    rw [DB.insertSeeds_entries]
    exact hs.rows
  | query a => exact (hs.query a).2.1

/-! ## Texts that do harm -/

theorem harmless_iff_of_error {cell : Cell} {f : Fault} (hd : Address.decodeAddress cell.load = .error f) :
    Harmless cell ↔ f ≠ .panic := by
  unfold Harmless
  rw [hd]
  constructor
  · rintro ⟨hne, -⟩ rfl
    exact hne rfl
  · refine fun hne => ⟨fun h => ?_, fun a h => ?_⟩
    · injection h with h
      exact hne h
    · cases h

theorem harmless_iff_of_ok {cell : Cell} {a : Address} (hd : Address.decodeAddress cell.load = .ok a) :
    Harmless cell ↔ 0 < a.raw.length ∧ a.raw.length ≤ 20 := by
  unfold Harmless
  rw [hd]
  constructor
  · exact fun h => h.2 a rfl
  · refine fun hlen => ⟨fun h => ?_, fun a' h => ?_⟩
    · cases h
    · cases h
      exact hlen

/-- A query for the only row of a store panics if its text does harm. -/
theorem query_panic (hown : ndb.addr.raw.length = 20) {a : Address} {r : EntryRow}
    (hrow : ndb.db.row (P.store (a.string P)) = some r)
    (hall : ∀ r' ∈ ndb.db.entries, r'.address = r.address) (hharm : ¬Harmless r.address) :
    ndb.query P a = (ndb, .error .panic) := by
  cases hd : Address.decodeAddress r.address.load with
  | error f =>
    have hpanic : f = .panic := not_not.mp fun hne => hharm ((harmless_iff_of_error hd).mpr hne)
    subst hpanic
    simp [NetDB.query, DB.query, hrow, hd, bind, Except.bind]
  | ok decoded =>
    have hlen : ¬(0 < decoded.raw.length ∧ decoded.raw.length ≤ ndb.addr.raw.length) := by
      rw [hown, ← harmless_iff_of_ok hd]
      exact hharm
    -- the row is linked to no other than itself, so its links decode
    have hcells : ∀ r' ∈ ndb.db.entries, ∃ b, Address.decodeAddress r'.address.load = .ok b := by
      intro r' hr'
      rw [hall r' hr']
      exact ⟨decoded, hd⟩
    obtain ⟨seeds, hseeds⟩ : ∃ as, ndb.db.querySeeds r.id = .ok as := by
      refine mapM_ok fun c hc => ?_
      obtain ⟨r', hr', rfl, -⟩ := DB.mem_selectSeeds.mp hc
      exact hcells r' hr'
    obtain ⟨seeding, hseeding⟩ : ∃ as, ndb.db.querySeeding r.id = .ok as := by
      refine mapM_ok fun c hc => ?_
      obtain ⟨r', hr', rfl, -⟩ := DB.mem_selectSeeding.mp hc
      exact hcells r' hr'
    have hpanic : Table.insertIntoTable ndb.addr ndb.table (DB.readRow r decoded seeds seeding).address =
        .error .panic := Table.insertIntoTable_panic ndb.table hlen
    rw [NetDB.query, DB.query_of_row hrow hd hseeds hseeding]
    simp only [NetDB.insertIntoTable, hpanic]
    rfl

/-- A request panics at the first query that does, here for the only address of its bucket. -/
theorem findClosest_panic (hown : ndb.addr.raw.length = 20) (hok : Table.Ok ndb.table) {a : Address}
    (ha : a.raw.length = 20) (hbucket : ndb.table.bucket (Table.bucketOf ndb.addr a) = [a])
    (hquery : ndb.query P a = (ndb, .error .panic)) :
    ndb.findClosest P a = (ndb, .error .panic) := by
  have hn := Table.bucketOf_lt ndb.addr a
  obtain ⟨s, hslice⟩ := hok.exists_slice hn
  have hlen : s.len = 1 := by
    rw [← hok.length_bucket hslice, hbucket]
    rfl
  have hread : ndb.table.heap.read s 0 = some a := by
    rw [Heap.read, ← Table.bucket_eq hslice, hbucket]
    rfl
  have hscan : ndb.scanBucket P (Table.bucketOf ndb.addr a) [] = (ndb, .error .panic) := by
    unfold NetDB.scanBucket
    simp only [hslice, hlen, NetDB.rangeQuery, hread, hquery]
    rfl
  unfold NetDB.findClosest
  rw [Table.index_eq hown ha]
  simp only
  rw [Table.slot_eq hslice]
  simp only
  rw [if_neg (by rw [hlen]; decide), NetDB.scan, if_pos ⟨.inl (Nat.zero_le _), by decide⟩]
  simp only [NetDB.scanStep, Nat.zero_le, if_true, Nat.sub_zero, hscan]

/-- An entry stored under a text that does harm makes a request for its own address panic. -/
theorem harmless_of_answers {own : Address} (hown : own.raw.length = 20) {e : Entry}
    (hv : e.verify P = .ok ()) (he : driverAccepts e.updated = true)
    (h : Answers P ((NetDB.new own).after P (.insert e)) e.address) :
    Harmless (P.store (e.address.string P)) := by
  by_contra hharm
  rcases (NetDB.kept_new (P := P) hown).insert_cases e with ⟨hno, -⟩ | ⟨-, hraw, t, hins, heq⟩
  · exact absurd hv hno
  have hnew : ∀ r ∈ (DB.put P DB.new e).entries, r.address = P.store (e.address.string P) := by
    intro r hr
    rcases DB.mem_put hr with hold | ⟨r₀, -, haddr⟩
    · cases hold
    · exact haddr
  obtain ⟨r, hrow, -⟩ := DB.row_put_self (P := P) DB.new he
  have haddr := DB.address_of_row hrow
  have hbucket : t.bucket (Table.bucketOf own e.address) = [e.address] := by
    have hhere := hins.here
    rw [show (NetDB.new own).table = Table.new from rfl, Table.bucket_new] at hhere
    exact hhere
  set ndb₁ : NetDB := { NetDB.new own with table := t, db := DB.put P DB.new e }
  have hquery : ndb₁.query P e.address = (ndb₁, .error .panic) :=
    query_panic hown hrow (fun r' hr' => (hnew r' hr').trans haddr.symm) (by rw [haddr]; exact hharm)
  have hpanic : ndb₁.findClosest P e.address = (ndb₁, .error .panic) :=
    findClosest_panic hown hins.ok hraw hbucket hquery
  rw [NetDB.after, heq, answers_iff] at h
  obtain ⟨ndb', ret, hret⟩ := h
  have := hpanic.symm.trans hret
  cases this

/-- **Which requests are answered.** Through all runs of calls with entries from a class, a request is
answered exactly if its address has between 1 and 20 bytes, provided every entry of the class that the
store takes is stored under a harmless text; and only then. -/
theorem requests_answered_iff (P : Prims) (own : Address) (hown : own.raw.length = 20)
    (admits : Entry → Prop) :
    (∀ calls : List NetDB.Call, (∀ c ∈ calls, c.Admitted admits) → ∀ address : Address,
        Answers P (run (NetDB.after P) (NetDB.new own) calls) address ↔
          1 ≤ address.raw.length ∧ address.raw.length ≤ 20) ↔
      ∀ e, admits e → e.verify P = .ok () → driverAccepts e.updated = true →
        Harmless (P.store (e.address.string P)) := by
  constructor
  · intro hruns e hadm hv he
    have hraw : e.address.raw.length = 20 := ((Entry.verify_eq_ok_iff e).mp hv).1.1
    refine harmless_of_answers hown hv he ?_
    exact (hruns [.insert e] (by simpa [NetDB.Call.Admitted] using hadm) e.address).mpr (by omega)
  · intro hharm calls hcalls address
    have hcalls' : ∀ c ∈ calls, c.Admitted (StoredHarmless P) := by
      intro c hc
      have hc' := hcalls c hc
      cases c with
      | insert e => exact hharm e hc'
      | insertSeed entry seed => trivial
      | query a => trivial
    have hs : Sound (run (NetDB.after P) (NetDB.new own) calls) :=
      (always_of_forall hcalls').invariant (sound_new hown) fun _ _ hs hc => hs.after hc
    exact hs.answers_iff address

/-- The theorem for one entry, inserted and asked for in any order. -/
theorem requests_answered_one :
    (sampleAddress 0).raw.length = 20 ∧
      ∀ calls : List NetDB.Call, (∀ c ∈ calls, c.Admitted fun e => e = sampleEntry 1 1 7) →
        ∀ address : Address,
          Answers .sample (run (NetDB.after .sample) (NetDB.new (sampleAddress 0)) calls) address ↔
            1 ≤ address.raw.length ∧ address.raw.length ≤ 20 := by
  refine ⟨by rfl, (requests_answered_iff .sample (sampleAddress 0) (by rfl)
    fun e => e = sampleEntry 1 1 7).mpr ?_⟩
  rintro e rfl - -
  have hdecode : Address.decodeAddress
      (Prims.sample.store ((sampleEntry 1 1 7).address.string .sample)).load =
        .ok { raw := (sampleAddress 1).raw } :=
    Address.decodeAddress_encodeRaw .sample (sampleAddress 1).raw
  have hlength := length_sampleAddress 1
  exact (harmless_iff_of_ok hdecode).mpr ⟨by rw [hlength]; decide, hlength.le⟩

/-- A request for an address without a byte stops the daemon, and so does one for an address of 21
bytes. -/
theorem request_out_of_range :
    ((NetDB.new (sampleAddress 0)).findClosest .sample { raw := [] }).2 = .error .panic ∧
      ((NetDB.new (sampleAddress 0)).findClosest .sample { raw := List.replicate 21 0 }).2 =
        .error .panic ∧
      ¬Answers .sample (NetDB.new (sampleAddress 0)) { raw := [] } ∧
      ¬Answers .sample (NetDB.new (sampleAddress 0)) { raw := List.replicate 21 0 } := by
  have hs : Sound (NetDB.new (sampleAddress 0)) := sound_new (by rfl)
  refine ⟨rfl, rfl, ?_, ?_⟩
  · rw [hs.answers_iff]
    simp
  · rw [hs.answers_iff]
    simp

end Zif.Node
