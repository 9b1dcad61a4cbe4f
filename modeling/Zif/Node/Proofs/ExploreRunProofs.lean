import Zif.Dht.Proofs.EntryProofs
import Zif.Dht.Proofs.OwnBucketProofs
import Zif.Node.Proofs.ExploreProofs

/-!
# Proofs: runs of the explorer

`explorer_goes_on` is the invariant of a run, `explorer_drains` says that the channels cannot block each other
for good. A node with its own address in a small table chooses from three entries of its own at least
(`not_refills_of_small`), and it takes three: `exploring_can_end`.
-/

namespace Zif.Node

open Go Dht Runs

variable {P : Prims}

/-- The entries of a served store: first those closest to the own address, then those closest to the random one. -/
theorem seedNames_served {dht : NetDB} (hs : NetDB.Served P dht) {random : Address}
    (hrandom : random.raw.length = 20) :
    ∃ dht₁ dht₂ names, seedNames P dht (some random) = (dht₂, .ok names) ∧ NetDB.Keeps P dht dht₁ ∧
      NetDB.Keeps P dht dht₂ ∧ entryRaws names = (closestRaws dht.table 159 ++
        closestRaws dht₁.table (Table.bucketOf dht.addr random)).map some := by
  obtain ⟨dht₁, closest, hown, hclosest⟩ := NetDB.findClosest_spec hs dht.addr hs.own
  have hkeeps := NetDB.findClosest_keeps hs hs.own
  rw [hown] at hkeeps
  obtain ⟨dht₂, closestRand, hrand, hclosestRand⟩ := NetDB.findClosest_spec hkeeps.served random hrandom
  have hkeeps' := NetDB.findClosest_keeps hkeeps.served hrandom
  rw [hrand] at hkeeps'
  refine ⟨dht₁, dht₂, closest ++ closestRand, ?_, hkeeps, hkeeps.trans hkeeps', ?_⟩
  · unfold seedNames
    simp only [hown, hrand]
  · rw [Table.bucketOf_own] at hclosest
    rw [show dht₁.addr = dht.addr from hkeeps.addr] at hclosestRand
    rw [entryRaws, List.map_append, List.map_append, ← hclosest, ← hclosestRand]
    rfl

theorem keeps_tableLen {ndb ndb' : NetDB} (h : NetDB.Keeps P ndb ndb') (hs : NetDB.Served P ndb) :
    ndb'.table.tableLen = ndb.table.tableLen := by
  have hlen : ∀ j, (ndb'.table.bucket j).length = (ndb.table.bucket j).length := by
    intro j
    have hperm := (h.raws j).length_eq
    rwa [Table.raws, Table.raws, List.length_map, List.length_map] at hperm
  rw [tableLen_eq h.served.placed (n := 0) (by decide), tableLen_eq hs.placed (n := 0) (by decide), heldIn, heldIn, hlen 0]
  simp only [hlen]

/-- The entries of the own address are not sent. -/
theorem count_le_filter {own : Address} {names : List (Option Entry)} {raws : List Bytes}
    (h : entryRaws names = raws.map some) :
    raws.count own.raw ≤ (names.filter fun i => !otherThan own i).length := by
  have hcount : raws.count own.raw = (entryRaws names).count (some own.raw) := by
    rw [h, List.count_map_of_injective _ _ (Option.some_injective _)]
  rw [hcount, entryRaws, List.count, List.countP_map, ← List.countP_eq_length_filter]
  refine List.countP_mono_left fun i _ hi => ?_
  cases i with
  | none => rfl
  | some e =>
    have hraw : e.address.raw = own.raw := by simpa using hi
    rw [otherThan, Address.equals, hraw]
    simp

/-- A small table that has the own address does not refill. -/
theorem not_refills_of_small {dht : NetDB} (hs : NetDB.Served P dht) (hown : dht.addr.raw ∈ dht.table.raws 159)
    (hsmall : dht.table.tableLen ≤ 10) {random : Address} (hrandom : random.raw.length = 20) :
    ∃ names, (seedNames P dht (some random)).2 = .ok names ∧ ¬ Explorer.Refills dht.addr names := by
  obtain ⟨dht₁, dht₂, names, hnames, hkeeps, -, hraws⟩ := seedNames_served hs hrandom
  refine ⟨names, by rw [hnames], fun hrefills => ?_⟩
  have hplaced : Table.Placed dht.addr dht₁.table := hkeeps.addr ▸ hkeeps.served.placed
  have htwice := two_le_count_closestRaws hs.placed hs.own hown
  have hagain : 1 ≤ (closestRaws dht₁.table (Table.bucketOf dht.addr random)).count dht.addr.raw := by
    refine List.count_pos_iff.mpr (mem_closestRaws_of_small hplaced hs.own ?_ ?_ (Table.bucketOf_lt _ _))
    · exact (hkeeps.raws 159).mem_iff.mpr hown
    · rwa [keeps_tableLen hkeeps hs]
  have hle := (@count_le_filter dht.addr _ _ hraws).trans hrefills.2
  rw [List.count_append] at hle
  omega

/-- A table without the own address refills, unless it is empty. -/
theorem refills_of_absent {dht : NetDB} (hs : NetDB.Served P dht) (habsent : dht.addr.raw ∉ dht.table.raws 159)
    {j : Nat} (hj : j < 160) (hpeer : dht.table.raws j ≠ []) {random : Address} (hrandom : random.raw.length = 20) :
    ∃ dht' names, seedNames P dht (some random) = (dht', .ok names) ∧ NetDB.Keeps P dht dht' ∧
      Explorer.Refills dht.addr names := by
  obtain ⟨dht₁, dht₂, names, hnames, hkeeps, hkeeps', hraws⟩ := seedNames_served hs hrandom
  have hother : ∀ i ∈ names, otherThan dht.addr i = true := by
    intro i hi
    have hmem : i.map (fun e => e.address.raw) ∈ entryRaws names := List.mem_map_of_mem hi
    rw [hraws, List.mem_map] at hmem
    obtain ⟨r, hr, hri⟩ := hmem
    cases i with
    | none => cases hri
    | some e =>
      have hne : e.address.raw ≠ dht.addr.raw := by
        intro heq
        rw [Option.map_some, heq] at hri
        rw [Option.some.inj hri, List.mem_append] at hr
        rcases hr with hr | hr
        · exact habsent (mem_raws_of_mem_closestRaws hs.placed hr)
        · exact habsent ((hkeeps.raws 159).mem_iff.mp
            (mem_raws_of_mem_closestRaws (hkeeps.addr ▸ hkeeps.served.placed) hr))
      rw [otherThan, Address.equals, decide_eq_false hne]
      rfl
  have hne : closestRaws dht.table 159 ≠ [] := closestRaws_ne_nil hs.placed hj hpeer
  refine ⟨dht₂, names, hnames, hkeeps', ?_, ?_⟩
  · obtain ⟨i, hi⟩ : ∃ i, i ∈ names := by
      refine List.exists_mem_of_ne_nil names fun hnil => hne ?_
      rw [hnil] at hraws
      exact (List.append_eq_nil_iff.mp (List.map_eq_nil_iff.mp hraws.symm)).1
    exact ⟨i, hi, hother i hi⟩
  · rw [List.filter_eq_nil_iff.mpr fun i hi => by rw [hother i hi]; decide]
    exact Nat.zero_le 2

/-! ## Tables built by insertions -/

section Insertions

variable {own : Address} {pre : List Address} {t : Table}

/-- The address that was inserted last is in its bucket. -/
theorem mem_raws_last {a : Address} (hown : own.raw.length = 20) (hpre : ∀ b ∈ pre ++ [a], b.raw.length = 20)
    (hrun : (pre ++ [a]).foldlM (Table.insertIntoTable own) Table.new = .ok t) :
    a.raw ∈ t.raws (Table.bucketOf own a) := by
  obtain ⟨t', hrun', -, hlru⟩ := Table.bucket_foldlM hown (pre ++ [a]) hpre
  cases hrun.symm.trans hrun'
  have hfilter : [a].filter (fun b => Table.bucketOf own b = Table.bucketOf own a) = [a] := by
    rw [List.filter_cons_of_pos (by simp), List.filter_nil]
  rw [Table.raws, hlru, List.filter_append, hfilter, Recency.recent_append_singleton]
  exact List.mem_map_of_mem List.mem_cons_self

/-- Only addresses that were inserted are in the table. -/
theorem mem_of_mem_bucket (hown : own.raw.length = 20) (hpre : ∀ a ∈ pre, a.raw.length = 20)
    (hrun : pre.foldlM (Table.insertIntoTable own) Table.new = .ok t) {j : Nat} {a : Address}
    (ha : a ∈ t.bucket j) : a ∈ pre := by
  obtain ⟨t', hrun', -, hlru⟩ := Table.bucket_foldlM hown pre hpre
  cases hrun.symm.trans hrun'
  rw [hlru j] at ha
  exact (List.mem_filter.mp (Recency.mem_of_mem_recent (List.mem_of_mem_take ha))).1

end Insertions

open Table in
/-- The rows of the peers of the examples below. -/
def exploreRows : DB := rowsFor .sample [(lastByte 4).raw, (lastByte 0).raw]

open Table in
theorem served_exploreRows {as : List Address} (has : ∀ a ∈ as, a ∈ [lastByte 4, lastByte 0]) {t : Table}
    (hrun : as.foldlM (insertIntoTable (lastByte 0)) new = .ok t) :
    NetDB.Served .sample ⟨lastByte 0, t, exploreRows⟩ := by
  have hlen : ∀ a ∈ [lastByte 4, lastByte 0], a.raw.length = 20 := by decide
  refine served_of_run (by decide) (fun a ha => hlen a (has a ha)) (fun a ha => ?_) hrun
  have hraw : a.raw ∈ [(lastByte 4).raw, (lastByte 0).raw] := List.mem_map_of_mem (f := Address.raw) (has a ha)
  have henc : a = { raw := a.raw } := by
    have hmem := has a ha
    fin_cases hmem <;> rfl
  rw [henc]
  exact hasRow_rowsFor (by decide) hraw

/-! ## Runs of the job -/

namespace Explorer

theorem startExploring_of_refills {dht dht' : NetDB} {random : Option Address} {names : List (Option Entry)}
    (hnames : seedNames P dht random = (dht', .ok names)) (hrefills : Refills dht.addr names) (draw : Nat → Nat) :
    ∃ i rest, startExploring P dht random draw = .ok ⟨dht', i :: rest, 0, [], 0, [.ready], .receiving, false⟩ ∧
      i.address.equals dht.addr = false := by
  obtain ⟨closest, hclosest, hany⟩ := seedExplore_of_refills (by rw [hnames]) hrefills draw
  have haddr := seedNames_addr (P := P) dht random
  rw [hnames] at haddr
  have hseed : seedExplore P dht random draw = (dht', .ok closest) := by
    rw [← hclosest]
    unfold seedExplore
    rw [hnames]
    simp only
    split <;> rfl
  obtain ⟨i, hi⟩ : ∃ i, i ∈ (closest.filter (otherThan dht'.addr)).reduceOption := by
    obtain ⟨i, hmem, hother⟩ := List.any_eq_true.mp hany
    cases i with
    | none => cases hother
    | some i => exact ⟨i, List.reduceOption_mem_iff.mpr (List.mem_filter.mpr ⟨hmem, haddr ▸ hother⟩)⟩
  cases hin : (closest.filter (otherThan dht'.addr)).reduceOption with
  | nil =>
    rw [hin] at hi
    cases hi
  | cons j rest =>
    have hj : some j ∈ closest.filter (otherThan dht'.addr) :=
      List.reduceOption_mem_iff.mp (by rw [hin]; exact List.mem_cons_self)
    have hother := List.of_mem_filter hj
    rw [otherThan, Bool.not_eq_true'] at hother
    refine ⟨j, rest, ?_, haddr ▸ hother⟩
    rw [startExploring, hseed, ← hin]

open Table in
/-- The start of a node that has one peer in its table and not itself; the next refill has entries as well. -/
theorem exists_startExploring :
    ∃ t dht i rest, [lastByte 4].foldlM (insertIntoTable (lastByte 0)) new = .ok t ∧
      NetDB.Keeps .sample ⟨lastByte 0, t, exploreRows⟩ dht ∧
      startExploring .sample ⟨lastByte 0, t, exploreRows⟩ (some (lastByte 9)) id =
        .ok ⟨dht, i :: rest, 0, [], 0, [.ready], .receiving, false⟩ ∧ i.address.equals (lastByte 0) = false ∧
      ∃ names, (seedNames .sample dht (some (lastByte 9))).2 = .ok names ∧ Refills dht.addr names := by
  have hlen : ∀ a ∈ [lastByte 4], a.raw.length = 20 := by decide
  obtain ⟨t, hrun⟩ := exists_run (lastByte 0) (by decide) [lastByte 4] hlen
  have hserved := served_exploreRows (fun a ha => List.mem_singleton.mp ha ▸ List.mem_cons_self) hrun
  have hpeer := @mem_raws_last (lastByte 0) [] t (lastByte 4) (by decide) hlen hrun
  have habsent : (lastByte 0).raw ∉ t.raws 159 := by
    intro hmem
    obtain ⟨a, ha, hraw⟩ := List.mem_map.mp hmem
    rw [List.mem_singleton.mp (mem_of_mem_bucket (by decide) hlen hrun ha)] at hraw
    exact absurd hraw (by decide)
  -- the entries to choose from are the same each time
  have hrefills : ∀ dht, NetDB.Keeps .sample ⟨lastByte 0, t, exploreRows⟩ dht →
      ∃ dht' names, seedNames .sample dht (some (lastByte 9)) = (dht', .ok names) ∧
        NetDB.Keeps .sample dht dht' ∧ Refills dht.addr names := by
    intro dht hkeeps
    refine refills_of_absent hkeeps.served ?_ (bucketOf_lt (lastByte 0) (lastByte 4)) ?_ (by decide)
    · rw [hkeeps.addr]
      exact fun h => habsent ((hkeeps.raws 159).mem_iff.mp h)
    · exact List.ne_nil_of_mem ((hkeeps.raws _).mem_iff.mpr hpeer)
  obtain ⟨dht, names, hnames, hkeeps, hr⟩ := hrefills _ (.refl hserved)
  obtain ⟨i, rest, hstart, hi⟩ := startExploring_of_refills hnames hr id
  obtain ⟨dht', names', hnames', -, hr'⟩ := hrefills dht hkeeps
  exact ⟨t, dht, i, rest, hrun, hkeeps, hstart, hi, names', by rw [hnames'], hr'⟩

/-- **The job goes on.** In a run of the job, whatever peers answer and in whatever order the goroutines and the
other writers of the store come, the own address is never explored, and what is beyond the capacity of a channel are
the values of blocked senders. If there is something to explore at the start, and as long as each refill has entries
to choose from that meet `Refills`, there is always an entry to explore or a goroutine at work. -/
theorem explorer_goes_on (P : Prims) {dht : NetDB} {random : Option Address} {draw : Nat → Nat} {s : Explorer}
    (hstart : startExploring P dht random draw = .ok s) (evs : List Event) :
    Wf dht.addr (run (Explorer.step P) s evs) ∧
      (s.input ≠ [] → Always (Explorer.step P) (RefillsAt P) s evs →
        Going (run (Explorer.step P) s evs) ∧ ¬ Dry (run (Explorer.step P) s evs)) := by
  have hwf := wf_startExploring hstart
  refine ⟨run_invariant hwf (fun _ e hs => hs.step e) evs, fun hin hrefills => ?_⟩
  have h := hrefills.invariant (I := fun t => Wf dht.addr t ∧ Going t) ⟨hwf, .inl hin⟩
    fun t e ht hr => ⟨ht.1.step e, ht.2.step ht.1 hr⟩
  exact ⟨h.2, h.2.not_dry⟩

open Table in
/-- A node that has one peer in its table and not itself. The peer does not answer, and the channel is filled
again. -/
theorem explorer_goes_on_one :
    ∃ t s, [lastByte 4].foldlM (insertIntoTable (lastByte 0)) new = .ok t ∧
      startExploring .sample ⟨lastByte 0, t, exploreRows⟩ (some (lastByte 9)) id = .ok s ∧ s.input ≠ [] ∧
      Going (run (Explorer.step .sample) s
        (List.replicate 3 (.tick 0 ⟨.error "EOF", some (lastByte 9), id, 0⟩))) := by
  obtain ⟨t, dht, i, rest, hrun, hkeeps, hstart, hi, names, hnames, hr⟩ := exists_startExploring
  have hin : i :: rest ≠ [] := List.cons_ne_nil i rest
  refine ⟨t, _, hrun, hstart, hin, ((explorer_goes_on .sample hstart _).2 hin ?_).1⟩
  have hreceived : received dht.addr i = .connecting i.address := by
    rw [received, hkeeps.addr, if_neg (by rw [hi]; decide)]
  refine .cons ?_ (.cons ?_ (.cons ?_ always_nil))
  · exact fun h => Tick.noConfusion (Option.some.inj h)
  · intro h
    simp [Explorer.step, advance, setTick, hreceived] at h
  · intro _ _
    refine ⟨names, ?_, ?_⟩
    · simp [Explorer.step, advance, setTick, hreceived, hnames]
    · simpa [Explorer.step, advance, setTick, hreceived] using hr

/-- A step of the goroutine that is there from the start, in which nothing is answered. -/
def quiet : Event := .tick 0 ⟨.ok [], none, id, 0⟩

/-- **Exploring can end while peers are known.** Take a node that has its own address in its routing table, which holds
at most ten addresses with their rows. Whenever the last goroutine at work comes to refill the channel, then for
every random address there is a shuffle after which nothing is explored any more, whatever happens later. -/
theorem exploring_can_end (P : Prims) {s : Explorer} {k : Nat} (hlast : s.LastAtWork k)
    (hserved : NetDB.Served P s.dht) (hown : s.dht.addr.raw ∈ s.dht.table.raws 159) {known : List Bytes}
    (hknown : ∀ j, ∀ a ∈ s.dht.table.bucket j, a.raw ∈ known) (hfew : known.length ≤ 10) {random : Address}
    (hrandom : random.raw.length = 20) :
    ∃ draw, ∀ reply receiver evs,
      (run (Explorer.step P) s (.tick k ⟨reply, some random, draw, receiver⟩ :: evs)).Dry := by
  have hsmall := (hserved.placed.tableLen_le hknown).trans hfew
  obtain ⟨names, hnames, hrefills⟩ := not_refills_of_small hserved hown hsmall hrandom
  obtain ⟨draw, hdry⟩ := hlast.exists_dry hnames hrefills
  exact ⟨draw, fun reply receiver evs => (hdry reply receiver).run evs⟩

open Table in
/-- A node that knows one peer. -/
theorem exploring_can_end_one :
    ∃ t, [lastByte 4, lastByte 0].foldlM (insertIntoTable (lastByte 0)) new = .ok t ∧
      ∃ draw, ∀ reply receiver evs, (run (Explorer.step .sample)
        ⟨⟨lastByte 0, t, exploreRows⟩, [], 0, [], 0, [.checking], .receiving, false⟩
        (.tick 0 ⟨reply, some (lastByte 9), draw, receiver⟩ :: evs)).Dry := by
  have hlen : ∀ a ∈ [lastByte 4, lastByte 0], a.raw.length = 20 := by decide
  obtain ⟨t, hrun⟩ := exists_run (lastByte 0) (by decide) [lastByte 4, lastByte 0] hlen
  have hown := @mem_raws_last (lastByte 0) [lastByte 4] t (lastByte 0) (by decide) hlen hrun
  rw [bucketOf_own] at hown
  have hknown : ∀ j, ∀ a ∈ t.bucket j, a.raw ∈ [lastByte 4, lastByte 0].map Address.raw := by
    intro j a ha
    exact List.mem_map_of_mem (mem_of_mem_bucket (by decide) hlen hrun ha)
  refine ⟨t, hrun, exploring_can_end .sample ?_ (served_exploreRows (fun _ => id) hrun) hown hknown
    (by decide) (by decide)⟩
  exact ⟨rfl, rfl, rfl, rfl, rfl, fun j t hj ht => by cases j <;> simp_all⟩

end Explorer

end Zif.Node
