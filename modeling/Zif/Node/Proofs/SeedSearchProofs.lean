import Zif.Dht.Proofs.EntryProofs
import Zif.Go.Proofs.SliceProofs
import Zif.Node.SeedSearch

/-!
# Proofs: which candidates are added

While the loop over the candidates goes on, the backing array holds the candidates that have been passed, those
that are still in the slice, and then copies of the last one, left behind by each removal. When the last one
is genuine, the copies do nothing, and what is left in the slice is `keptCandidates`. When it is not, the
last round reads a copy of it, at the last index there was: a fake makes the slice as long as that, and one that
failed is a panic.
-/

namespace Zif.Node

open Go Dht

variable {v : Bytes → Verdict} {b : Buffer Bytes} {front todo tail : List Bytes} {c last : Bytes} {n k : Nat}

/-! ## One round -/

theorem checkCandidate_genuine (hc : b.array[n]? = some c) (hv : v c = .genuine) :
    checkCandidate v b n = some b := by
  simp [checkCandidate, hc, hv]

theorem checkCandidate_fake (hc : b.array[n]? = some c) (hv : v c = .fake) :
    checkCandidate v b n = removeCandidate b n := by
  simp [checkCandidate, hc, hv]

theorem checkCandidate_failed (hc : b.array[n]? = some c) (hv : v c = .failed) :
    checkCandidate v b n = (removeCandidate b n).bind fun b => b.delete n := by
  simp [checkCandidate, hc, hv]

/-- The first of several rounds. -/
theorem foldlM_round {b' : Buffer Bytes} {j : Nat} (h : checkCandidate v b n = some b') :
    (List.range' n (j + 1)).foldlM (checkCandidate v) b =
      (List.range' (n + 1) j).foldlM (checkCandidate v) b' := by
  rw [List.range'_succ, List.foldlM_cons, h]
  rfl

theorem foldlM_genuine (h : ∀ m, n ≤ m → m < n + k → ∃ c, b.array[m]? = some c ∧ v c = .genuine) :
    (List.range' n k).foldlM (checkCandidate v) b = some b := by
  induction k generalizing n with
  | zero => rfl
  | succ k ih =>
    obtain ⟨c, hc, hv⟩ := h n le_rfl (by omega)
    rw [foldlM_round (checkCandidate_genuine hc hv)]
    exact ih fun m hm hlt => h m (by omega) (by omega)

/-! ## The last candidate is genuine -/

/-- The slice in the middle of the loop: what has been passed, what is still to come, and copies of the last
candidate. -/
structure Midway (b : Buffer Bytes) (front todo : List Bytes) (last : Bytes) (k : Nat) (tail : List Bytes) :
    Prop where
  array : b.array = front ++ todo ++ (List.replicate k last ++ tail)
  len : b.len = front.length + todo.length
  last : ∀ c, todo.getLast? = some c → c = last

namespace Midway

variable {rest : List Bytes}

theorem read (h : Midway b front (c :: rest) last k tail) : b.array[front.length]? = some c := by
  rw [h.array]
  simp

/-- The next candidate is passed. -/
theorem pass (h : Midway b front (c :: rest) last k tail) : Midway b (front ++ [c]) rest last k tail := by
  refine ⟨by rw [h.array]; simp, by rw [h.len]; simp; omega, fun d hd => h.last d ?_⟩
  rw [List.getLast?_cons, hd, Option.getD_some]

theorem delete (h : Midway b front (c :: rest) last k tail) :
    ∃ b', b.delete front.length = some b' ∧ Midway b' front rest last (k + 1) tail := by
  obtain ⟨d, hd⟩ := Option.isSome_iff_exists.mp (List.getLast?_isSome.mpr (List.cons_ne_nil c rest))
  obtain rfl := h.last d hd
  obtain ⟨b', hb', harray, hlen⟩ := Buffer.exists_delete h.array h.len hd
  refine ⟨b', hb', harray, hlen, fun e he => h.last e ?_⟩
  rw [List.getLast?_cons, he, Option.getD_some]

/-- A candidate that is not the last is removed. -/
theorem remove {x : Bytes} (h : Midway b front (c :: x :: rest) last k tail) :
    ∃ b', removeCandidate b front.length = some b' ∧ Midway b' front (x :: rest) last (k + 1) tail := by
  have hlen := h.len
  rw [List.length_cons, List.length_cons] at hlen
  rw [removeCandidate, if_neg (by omega)]
  exact h.delete

theorem fake {x : Bytes} (h : Midway b front (c :: x :: rest) last k tail) (hv : v c = .fake) :
    ∃ b', checkCandidate v b front.length = some b' ∧ Midway b' front (x :: rest) last (k + 1) tail := by
  obtain ⟨b', hb', h'⟩ := h.remove
  exact ⟨b', (checkCandidate_fake h.read hv).trans hb', h'⟩

/-- The one behind a candidate that failed is removed with it. -/
theorem failed {x : Bytes} (h : Midway b front (c :: x :: rest) last k tail) (hv : v c = .failed) :
    ∃ b', checkCandidate v b front.length = some b' ∧ Midway b' front rest last (k + 1 + 1) tail := by
  obtain ⟨b₁, hb₁, h₁⟩ := h.remove
  obtain ⟨b₂, hb₂, h₂⟩ := h₁.delete
  refine ⟨b₂, ?_, h₂⟩
  rw [checkCandidate_failed h.read hv, hb₁]
  exact hb₂

theorem view (h : Midway b front [] last k tail) : b.view = front := by
  rw [Buffer.view, h.array, h.len]
  simp

/-- The copies are genuine too. -/
theorem copies (h : Midway b front [] last k tail) (hlast : v last = .genuine) {j : Nat}
    (hn : front.length ≤ n) (hj : n + j ≤ front.length + k) :
    (List.range' n j).foldlM (checkCandidate v) b = some b := by
  refine foldlM_genuine fun m hm hlt => ⟨last, ?_, hlast⟩
  rw [h.array, List.append_nil, List.getElem?_append_right (by omega),
    List.getElem?_append_left (by simp; omega), List.getElem?_replicate, if_pos (by omega)]

end Midway

theorem keptCandidates_genuine (hv : v c = .genuine) (rest : List Bytes) :
    keptCandidates v (c :: rest) = c :: keptCandidates v rest := by
  simp [keptCandidates, hv]

theorem keptCandidates_fake (hv : v c = .fake) (x : Bytes) (rest : List Bytes) :
    keptCandidates v (c :: x :: rest) = x :: keptCandidates v rest := by
  simp [keptCandidates, hv]

theorem keptCandidates_failed (hv : v c = .failed) (x y : Bytes) (rest : List Bytes) :
    keptCandidates v (c :: x :: y :: rest) = y :: keptCandidates v rest := by
  simp [keptCandidates, hv]

/-- In all other cases nothing is kept. When the last one is genuine, this is one that failed with only the last
one behind it. -/
theorem eq_pair {rest : List Bytes} (hgenuine : v c = .genuine → False)
    (hfake : ∀ x tail, v c = .fake → rest = x :: tail → False)
    (hfailed : ∀ x y tail, v c = .failed → rest = x :: y :: tail → False)
    (hlast : ∀ d, (c :: rest).getLast? = some d → v d = .genuine) :
    ∃ x, rest = [x] ∧ v c = .failed ∧ v x = .genuine ∧ keptCandidates v (c :: rest) = [] := by
  rcases rest with _ | ⟨x, _ | ⟨y, rest⟩⟩
  · exact (hgenuine (hlast c rfl)).elim
  · cases hv : v c with
    | failed => exact ⟨x, rfl, rfl, hlast x rfl, by simp [keptCandidates]⟩
    | fake => exact (hfake x [] hv rfl).elim
    | genuine => exact (hgenuine hv).elim
  · cases hv : v c with
    | failed => exact (hfailed x y rest hv rfl).elim
    | fake => exact (hfake x (y :: rest) hv rfl).elim
    | genuine => exact (hgenuine hv).elim

/-- After a round the candidate at its index is `x`, and the loop goes on behind it. -/
theorem foldlM_behind {b₁ : Buffer Bytes} {x : Bytes} {kept : List Bytes} {rounds : Nat}
    (hround : checkCandidate v b front.length = some b₁)
    (h : ∃ b', (List.range' (front ++ [x]).length rounds).foldlM (checkCandidate v) b₁ = some b' ∧
      b'.view = front ++ [x] ++ kept) :
    ∃ b', (List.range' front.length (rounds + 1)).foldlM (checkCandidate v) b = some b' ∧
      b'.view = front ++ x :: kept := by
  obtain ⟨b', hb', hview⟩ := h
  rw [List.length_append, List.length_singleton] at hb'
  refine ⟨b', ?_, ?_⟩
  · rw [foldlM_round hround]
    exact hb'
  · rw [hview, List.append_assoc]
    rfl

/-- What the loop leaves in the slice. -/
theorem foldlM_kept (hlast : v last = .genuine) (todo : List Bytes) :
    ∀ {front k b}, Midway b front todo last k tail →
      ∃ b', (List.range' front.length (todo.length + k)).foldlM (checkCandidate v) b = some b' ∧
        b'.view = front ++ keptCandidates v todo := by
  induction todo using keptCandidates.induct v with
  | case1 =>
    intro front k b h
    refine ⟨b, h.copies hlast le_rfl (by simp), ?_⟩
    rw [h.view, keptCandidates, List.append_nil]
  | case2 c rest hv ih =>
    intro front k b h
    rw [keptCandidates_genuine hv, List.length_cons, Nat.add_right_comm]
    exact foldlM_behind (checkCandidate_genuine h.read hv) (ih h.pass)
  | case3 c x rest hv ih =>
    -- the one behind the fake moves up to its index
    intro front k b h
    obtain ⟨b₁, hround, h₁⟩ := h.fake hv
    have hlen : (c :: x :: rest).length + k = rest.length + (k + 1) + 1 := by
      simp only [List.length_cons]
      omega
    rw [keptCandidates_fake hv, hlen]
    exact foldlM_behind hround (ih h₁.pass)
  | case4 c x y rest hv ih =>
    intro front k b h
    obtain ⟨b₂, hround, h₂⟩ := h.failed hv
    have hlen : (c :: x :: y :: rest).length + k = rest.length + (k + 1 + 1) + 1 := by
      simp only [List.length_cons]
      omega
    rw [keptCandidates_failed hv, hlen]
    exact foldlM_behind hround (ih h₂.pass)
  | case5 c rest hgenuine hfake hfailed =>
    intro front k b h
    obtain ⟨x, rfl, hv, -, hkept⟩ := eq_pair hgenuine hfake hfailed fun d hd => by rw [h.last d hd, hlast]
    obtain ⟨b₂, hround, h₂⟩ := h.failed hv
    have hlen : [c, x].length + k = k + 1 + 1 := by
      simp only [List.length_cons, List.length_nil]
      omega
    refine ⟨b₂, ?_, ?_⟩
    · rw [hlen, foldlM_round hround]
      exact h₂.copies hlast (by omega) (by omega)
    · rw [h₂.view, hkept, List.append_nil]

/-- The loop over candidates of which the last one is genuine. -/
theorem checkCandidates_kept (hlast : v last = .genuine) (h : ∀ c, b.view.getLast? = some c → c = last) :
    ∃ b', checkCandidates v b = some b' ∧ b'.view = keptCandidates v b.view := by
  have hmidway : Midway b [] b.view last 0 (b.array.drop b.len) := by
    refine ⟨?_, by simp, h⟩
    rw [List.replicate_zero, List.nil_append, List.nil_append, Buffer.view, List.take_append_drop]
  obtain ⟨b', hb', hview⟩ := foldlM_kept hlast b.view hmidway
  refine ⟨b', ?_, hview⟩
  rw [checkCandidates, List.range_eq_range']
  simpa using hb'

/-! ## The last candidate is not genuine -/

/-- The last index there was still has the last candidate, and the slice does not reach further. -/
structure Bounded (b : Buffer Bytes) (bound : Nat) (last : Bytes) : Prop where
  len : b.len ≤ bound + 1
  last : b.array[bound]? = some last

namespace Bounded

variable {bound : Nat} {b' : Buffer Bytes}

theorem truncate (h : Bounded b bound last) (hn : n ≤ bound) (hb : b.truncate n = some b') :
    Bounded b' bound last := by
  unfold Buffer.truncate at hb
  split at hb
  · cases hb
    exact ⟨Nat.le_succ_of_le hn, h.last⟩
  · cases hb

theorem delete (h : Bounded b bound last) (hb : b.delete n = some b') : Bounded b' bound last := by
  have hlen := h.len
  unfold Buffer.delete at hb
  split at hb
  · cases hb
    have hmoved : (b.array.take n ++ b.view.drop (n + 1)).length = b.len - 1 := by
      have hcap := b.len_le
      simp
      omega
    refine ⟨by dsimp only; omega, ?_⟩
    rw [List.getElem?_append_right (by omega), hmoved, List.getElem?_drop, Nat.add_sub_cancel' (by omega)]
    exact h.last
  · cases hb

theorem remove (h : Bounded b bound last) (hn : n ≤ bound) (hb : removeCandidate b n = some b') :
    Bounded b' bound last := by
  unfold removeCandidate at hb
  split_ifs at hb
  · exact h.truncate hn hb
  · exact h.delete hb

theorem check (h : Bounded b bound last) (hn : n ≤ bound) (hb : checkCandidate v b n = some b') :
    Bounded b' bound last := by
  obtain ⟨c, hc, hround⟩ := Option.bind_eq_some_iff.mp hb
  cases hv : v c with
  | genuine =>
    rw [checkCandidate_genuine hc hv] at hb
    cases hb
    exact h
  | fake =>
    rw [checkCandidate_fake hc hv] at hb
    exact h.remove hn hb
  | failed =>
    rw [checkCandidate_failed hc hv] at hb
    obtain ⟨b₁, hb₁, hb₂⟩ := Option.bind_eq_some_iff.mp hb
    exact (h.remove hn hb₁).delete hb₂

theorem foldlM {indices : List Nat} (h : Bounded b bound last) (hn : ∀ n ∈ indices, n ≤ bound)
    (hb : indices.foldlM (checkCandidate v) b = some b') : Bounded b' bound last := by
  induction indices generalizing b with
  | nil =>
    cases hb
    exact h
  | cons n indices ih =>
    rw [List.foldlM_cons] at hb
    obtain ⟨b₁, hb₁, hb₂⟩ := Option.bind_eq_some_iff.mp hb
    exact ih (h.check (hn n List.mem_cons_self) hb₁) (fun m hm => hn m (List.mem_cons_of_mem n hm)) hb₂

/-- The last round meets the last candidate. The slice becomes as long as all but the last were. -/
theorem removeLast (h : Bounded b bound last) :
    ∃ b', removeCandidate b bound = some b' ∧ b'.array = b.array ∧ b'.len = bound := by
  have hlen := h.len
  rw [removeCandidate, if_pos (by omega)]
  exact Buffer.exists_truncate (List.getElem?_eq_some_iff.mp h.last).1.le

end Bounded

/-- The loop is that over all but the last index, and then the last. -/
theorem checkCandidates_last {init : List Bytes} (h : b.view = init ++ [last]) (v : Bytes → Verdict) :
    Bounded b init.length last ∧
      checkCandidates v b =
        ((List.range init.length).foldlM (checkCandidate v) b).bind fun b => checkCandidate v b init.length := by
  have hlen : b.len = init.length + 1 := by
    have hview := congrArg List.length h
    simpa using hview
  constructor
  · refine ⟨hlen.le, ?_⟩
    have hread : b.view[init.length]? = some last := by simp [h]
    rwa [Buffer.view, List.getElem?_take_of_lt (by omega)] at hread
  · rw [checkCandidates, hlen, List.range_succ, List.foldlM_append]
    simp

theorem checkCandidates_failed {init : List Bytes} (h : b.view = init ++ [last]) (hv : v last = .failed) :
    checkCandidates v b = none := by
  obtain ⟨hbounded, hloop⟩ := checkCandidates_last h v
  rw [hloop]
  cases hinit : (List.range init.length).foldlM (checkCandidate v) b with
  | none => rfl
  | some b₁ =>
    have h₁ := hbounded.foldlM (fun n hn => (List.mem_range.mp hn).le) hinit
    obtain ⟨b₂, hb₂, -, hlen⟩ := h₁.removeLast
    rw [Option.bind_some, checkCandidate_failed h₁.last hv, hb₂]
    exact Buffer.delete_eq_none hlen.le

theorem length_checkCandidates_fake {init : List Bytes} {b' : Buffer Bytes} (h : b.view = init ++ [last])
    (hv : v last = .fake) (hb' : checkCandidates v b = some b') : b'.view.length = init.length := by
  obtain ⟨hbounded, hloop⟩ := checkCandidates_last h v
  rw [hloop] at hb'
  obtain ⟨b₁, hb₁, hround⟩ := Option.bind_eq_some_iff.mp hb'
  have h₁ := hbounded.foldlM (fun n hn => (List.mem_range.mp hn).le) hb₁
  obtain ⟨b₂, hb₂, -, hlen⟩ := h₁.removeLast
  rw [checkCandidate_fake h₁.last hv, hb₂] at hround
  cases hround
  rw [Buffer.length_view, hlen]

/-- All but the last are genuine, and the last is a fake. -/
theorem checkCandidates_fake {init : List Bytes} (h : b.view = init ++ [last]) (hv : v last = .fake)
    (hinit : ∀ c ∈ init, v c = .genuine) : ∃ b', checkCandidates v b = some b' ∧ b'.view = init := by
  obtain ⟨hbounded, hloop⟩ := checkCandidates_last h v
  have harray : b.array = init ++ ([last] ++ b.array.drop b.len) := by
    rw [← List.append_assoc, ← h, Buffer.view, List.take_append_drop]
  have hrest : (List.range init.length).foldlM (checkCandidate v) b = some b := by
    rw [List.range_eq_range']
    refine foldlM_genuine fun m _ hm => ?_
    rw [Nat.zero_add] at hm
    refine ⟨init[m], ?_, hinit _ (List.getElem_mem hm)⟩
    rw [harray, List.getElem?_append_left hm, List.getElem?_eq_getElem hm]
  obtain ⟨b', hb', harray', hlen⟩ := hbounded.removeLast
  refine ⟨b', ?_, ?_⟩
  · rw [hloop, hrest, Option.bind_some, checkCandidate_fake hbounded.last hv, hb']
  · rw [Buffer.view, harray', harray, hlen]
    exact List.take_left' rfl

/-! ## Which candidates are kept -/

theorem keptCandidates_sublist (v : Bytes → Verdict) (l : List Bytes) : (keptCandidates v l).Sublist l := by
  induction l using keptCandidates.induct v with
  | case1 => exact List.Sublist.refl _
  | case2 c rest hv ih =>
    rw [keptCandidates_genuine hv]
    exact ih.cons_cons c
  | case3 c x rest hv ih =>
    rw [keptCandidates_fake hv]
    exact (ih.cons_cons x).cons c
  | case4 c x y rest hv ih =>
    rw [keptCandidates_failed hv]
    exact ((ih.cons_cons y).cons x).cons c
  | case5 c rest hgenuine hfake hfailed =>
    rw [keptCandidates.eq_5 v c rest hgenuine hfake hfailed]
    exact List.nil_sublist _

/-- What is kept unseen has to be genuine. -/
theorem genuine_of_kept {x : Bytes} {kept l : List Bytes} (h : x :: kept = l.filter (v · = .genuine)) :
    v x = .genuine := by
  have hmem : x ∈ l.filter (v · = .genuine) := h ▸ List.mem_cons_self
  simpa using (List.mem_filter.mp hmem).2

/-- No genuine candidate may be removed: the loop keeps no more of them than there are. -/
theorem kept_ne_cons_filter {x : Bytes} (hx : v x = .genuine) (l : List Bytes) :
    keptCandidates v l ≠ x :: l.filter (v · = .genuine) := by
  intro h
  have hsub := (keptCandidates_sublist v l).filter (v · = .genuine)
  rw [h] at hsub
  have hlen := hsub.length_le
  simp [hx] at hlen

theorem kept_eq_filter_iff (v : Bytes → Verdict) (l : List Bytes)
    (hlast : ∀ c, l.getLast? = some c → v c = .genuine) :
    keptCandidates v l = l.filter (v · = .genuine) ↔ Fortunate (l.map v) := by
  induction l using keptCandidates.induct v with
  | case1 => simp [keptCandidates, Fortunate]
  | case2 c rest hv ih =>
    have hrest := ih fun d hd => hlast d (by rw [List.getLast?_cons, hd, Option.getD_some])
    simp [keptCandidates_genuine hv, hv, Fortunate, hrest]
  | case3 c x rest hv ih =>
    have hrest := ih fun d hd => hlast d (by simp [List.getLast?_cons, hd])
    rw [keptCandidates_fake hv]
    cases hx : v x with
    | genuine => simp [hv, hx, Fortunate, hrest]
    | fake =>
      refine iff_of_false (fun h => ?_) (by simp [hv, hx, Fortunate])
      cases hx.symm.trans (genuine_of_kept h)
    | failed =>
      refine iff_of_false (fun h => ?_) (by simp [hv, hx, Fortunate])
      cases hx.symm.trans (genuine_of_kept h)
  | case4 c x y rest hv ih =>
    have hrest := ih fun d hd => hlast d (by simp [List.getLast?_cons, hd])
    rw [keptCandidates_failed hv]
    cases hy : v y with
    | genuine =>
      cases hx : v x with
      | genuine =>
        refine iff_of_false (fun h => ?_) (by simp [hv, hx, Fortunate])
        simp only [hv, hx, hy, reduceCtorEq, decide_false, Bool.false_eq_true, not_false_eq_true,
          List.filter_cons_of_neg, decide_true, List.filter_cons_of_pos, List.cons.injEq] at h
        exact kept_ne_cons_filter hy rest h.2
      | fake => simp [hv, hx, hy, Fortunate, hrest]
      | failed => simp [hv, hx, hy, Fortunate, hrest]
    | fake =>
      refine iff_of_false (fun h => ?_) (by cases hx : v x <;> simp [hv, hx, hy, Fortunate])
      cases hy.symm.trans (genuine_of_kept h)
    | failed =>
      refine iff_of_false (fun h => ?_) (by cases hx : v x <;> simp [hv, hx, hy, Fortunate])
      cases hy.symm.trans (genuine_of_kept h)
  | case5 c rest hgenuine hfake hfailed =>
    obtain ⟨x, rfl, hv, hx, hkept⟩ := eq_pair hgenuine hfake hfailed hlast
    simp [hkept, hv, hx, Fortunate]

theorem genuine_of_fortunate {vs : List Verdict} (h : Fortunate vs) :
    vs.getLast?.getD .genuine = .genuine := by
  induction vs using Fortunate.induct with
  | case1 => rfl
  | case2 rest ih => simpa [List.getLast?_cons] using ih h
  | case3 rest ih => simpa [List.getLast?_cons] using ih h
  | case4 rest ih => simpa [List.getLast?_cons] using ih h
  | case5 rest ih => simpa [List.getLast?_cons] using ih h
  | case6 vs => simp_all [Fortunate]

/-! ## The candidates -/

theorem view_sliceDiff (one two : List Bytes) :
    (sliceDiff one two).view = two.filter fun i => !one.contains i := by
  have hloop : ∀ result : Buffer Bytes,
      (two.foldl (fun result i => if one.contains i then result else result.append id [] [i]) result).view =
        result.view ++ two.filter fun i => !one.contains i := by
    induction two with
    | nil => simp
    | cons i two ih =>
      intro result
      rw [List.foldl_cons, ih]
      by_cases hmem : i ∈ one <;> simp [hmem]
  rw [sliceDiff, hloop]
  simp [Buffer.make, Buffer.view]

/-- What is appended to the seeds is what the loop leaves in the slice. -/
theorem addSeeds_eq_ok_iff {track : Address} {resolve : Bytes → Option Entry} {seeds queried l : List Bytes} :
    addSeeds track resolve seeds queried = .ok (seeds ++ l) ↔
      ∃ b, checkCandidates (fun i => verdict track (resolve i)) (sliceDiff seeds queried) = some b ∧ b.view = l := by
  unfold addSeeds
  cases checkCandidates (fun i => verdict track (resolve i)) (sliceDiff seeds queried) with
  | none => simp
  | some b =>
    have hlen := b.length_view
    by_cases hpos : 0 < b.len
    · simp [hpos]
    · have hview : b.view = [] := List.length_eq_zero_iff.mp (by omega)
      simp [hpos, hview, eq_comm]

theorem not_fortunate_concat {init : List Bytes} (hv : v last ≠ .genuine) :
    ¬ Fortunate ((init ++ [last]).map v) := by
  intro h
  have hlast := genuine_of_fortunate h
  rw [List.map_append, List.map_singleton, List.getLast?_concat, Option.getD_some] at hlast
  exact hv hlast

theorem fake_last_iff {init : List Bytes} :
    (∃ vs, (init ++ [last]).map v = vs ++ [.fake] ∧ ∀ w ∈ vs, w = .genuine) ↔
      v last = .fake ∧ ∀ c ∈ init, v c = .genuine := by
  rw [List.map_append, List.map_singleton]
  constructor
  · rintro ⟨vs, heq, hvs⟩
    obtain ⟨rfl, hlast⟩ := List.append_inj' heq rfl
    exact ⟨(List.cons.inj hlast).1, fun c hc => hvs (v c) (List.mem_map_of_mem hc)⟩
  · rintro ⟨hlast, hinit⟩
    refine ⟨init.map v, by rw [hlast], fun w hw => ?_⟩
    obtain ⟨c, hc, rfl⟩ := List.mem_map.mp hw
    exact hinit c hc

/-- The loop is right about all candidates. -/
theorem checkCandidates_iff (v : Bytes → Verdict) (b : Buffer Bytes) :
    (∃ b', checkCandidates v b = some b' ∧ b'.view = b.view.filter (v · = .genuine)) ↔
      Fortunate (b.view.map v) ∨
        ∃ vs, b.view.map v = vs ++ [.fake] ∧ ∀ w ∈ vs, w = .genuine := by
  rcases List.eq_nil_or_concat b.view with hnil | ⟨init, last, hview⟩
  · have hlen : b.len = 0 := by rw [← b.length_view, hnil, List.length_nil]
    have hloop : checkCandidates v b = some b := by
      rw [checkCandidates, hlen]
      rfl
    simp [hloop, hnil, Fortunate]
  rw [List.concat_eq_append] at hview
  have hlast : ∀ c, b.view.getLast? = some c → c = last := by
    intro c hc
    rw [hview, List.getLast?_concat] at hc
    exact (Option.some.inj hc).symm
  cases hv : v last with
  | genuine =>
    obtain ⟨b', hb', hkept⟩ := checkCandidates_kept hv hlast
    have hiff := kept_eq_filter_iff v b.view fun c hc => by rw [hlast c hc, hv]
    rw [hview] at hiff hkept ⊢
    rw [fake_last_iff, hv, ← hiff, ← hkept, hb']
    simp
  | fake =>
    rw [hview, fake_last_iff, or_iff_right (not_fortunate_concat (by rw [hv]; decide))]
    have hfilter : (init ++ [last]).filter (v · = .genuine) = init.filter (v · = .genuine) := by
      simp [hv]
    rw [hfilter]
    constructor
    · rintro ⟨b', hb', hkept⟩
      have hlen := length_checkCandidates_fake hview hv hb'
      rw [hkept, List.length_filter_eq_length_iff] at hlen
      exact ⟨hv, fun c hc => by simpa using hlen c hc⟩
    · rintro ⟨-, hinit⟩
      obtain ⟨b', hb', hkept⟩ := checkCandidates_fake hview hv hinit
      refine ⟨b', hb', hkept.trans (List.filter_eq_self.mpr fun c hc => ?_).symm⟩
      simpa using hinit c hc
  | failed =>
    rw [checkCandidates_failed hview hv, hview, fake_last_iff, hv,
      or_iff_right (not_fortunate_concat (by rw [hv]; decide))]
    simp

/-- **Which seeds are added.** For every list of seeds that is answered, and whatever `Resolve` gives for the
candidates: those that are added to the entry are those that link back, in their order, exactly when the
candidates come in a fortunate order, or only the last one is no seed and it can be resolved. -/
theorem addSeeds_iff (track : Address) (resolve : Bytes → Option Entry) (seeds queried : List Bytes) :
    let v := fun i => verdict track (resolve i)
    let candidates := (sliceDiff seeds queried).view
    addSeeds track resolve seeds queried = .ok (seeds ++ candidates.filter (v · = .genuine)) ↔
      Fortunate (candidates.map v) ∨
        ∃ vs, candidates.map v = vs ++ [.fake] ∧ ∀ w ∈ vs, w = .genuine := by
  intro v candidates
  rw [addSeeds_eq_ok_iff]
  exact checkCandidates_iff v (sliceDiff seeds queried)

/-- An entry with one seed, which answers with two seeds that do not link back. The second is not looked at in
the first round of the loop, and the second round makes room for it again: the search adds it. When the seed
answers with one that cannot be resolved, the search panics. -/
theorem fake_seed_added :
    let unlinked : SeedQuery := ⟨some [[1], [2]], fun _ => some (Entry.described [] [])⟩
    let unknown : SeedQuery := ⟨some [[1]], fun _ => none⟩
    findSeeds { raw := [8] } { raw := [9] } (fun _ => unlinked) [[7]] = .ok [[7], [2]] ∧
      findSeeds { raw := [8] } { raw := [9] } (fun _ => unknown) [[7]] = .error .panic := by
  decide

/-! ## Merging -/

theorem mem_foldl_insert (seeds : List Bytes) (s : Finset Bytes) (i : Bytes) :
    i ∈ seeds.foldl (fun encountered i => insert i encountered) s ↔ i ∈ s ∨ i ∈ seeds := by
  induction seeds generalizing s with
  | nil => simp
  | cons j seeds ih =>
    rw [List.foldl_cons, ih, Finset.mem_insert, List.mem_cons]
    tauto

theorem mem_mergeSeeds (order : MapOrder Bytes) {one two : List Bytes} {i : Bytes} :
    i ∈ mergeSeeds order one two ↔ i ∈ one ∨ i ∈ two := by
  rw [mergeSeeds, ← Multiset.mem_coe, order.keys_eq, Finset.mem_val, mem_foldl_insert, mem_foldl_insert]
  simp

theorem mem_append_sliceDiff {one two : List Bytes} {i : Bytes} :
    i ∈ one ++ (sliceDiff one two).view ↔ i ∈ one ∨ i ∈ two := by
  rw [view_sliceDiff, List.mem_append, List.mem_filter]
  by_cases hi : i ∈ one <;> simp [hi]

/-- The seeds that `SliceDiff` gives are none of the old ones, and they repeat what `two` repeats. -/
theorem nodup_append_sliceDiff_iff {one two : List Bytes} (hone : one.Nodup) :
    (one ++ (sliceDiff one two).view).Nodup ↔ ∀ i, i ∉ one → two.count i ≤ 1 := by
  have hdisjoint : ∀ i ∈ one, ∀ j ∈ (sliceDiff one two).view, i ≠ j := by
    rintro i hi j hj rfl
    rw [view_sliceDiff] at hj
    simp [hi] at hj
  have hnodup : (one ++ (sliceDiff one two).view).Nodup ↔ (sliceDiff one two).view.Nodup := by
    rw [List.nodup_append]
    exact ⟨fun h => h.2.1, fun h => ⟨hone, h, hdisjoint⟩⟩
  rw [hnodup, view_sliceDiff, List.nodup_iff_count_le_one]
  refine forall_congr' fun i => ?_
  by_cases hi : i ∈ one
  · have hout : i ∉ two.filter fun i => !one.contains i := by simp [hi]
    rw [List.count_eq_zero_of_not_mem hout]
    exact iff_of_true (Nat.zero_le 1) fun hnot => absurd hi hnot
  · simp [hi, List.count_filter]

/-- **The two ways of merging seeds.** For every list of seeds without duplicates, and every other list: adding
what `SliceDiff` gives leaves no duplicates and has the elements of `MergeSeeds`, in whatever order it goes over
its map, exactly when no seed that is new is there twice. -/
theorem sliceDiff_mergeSeeds_iff (order : MapOrder Bytes) (one two : List Bytes) (hone : one.Nodup) :
    ((one ++ (sliceDiff one two).view).Nodup ∧
        ∀ i, i ∈ one ++ (sliceDiff one two).view ↔ i ∈ mergeSeeds order one two) ↔
      ∀ i, i ∉ one → two.count i ≤ 1 := by
  rw [nodup_append_sliceDiff_iff hone]
  refine and_iff_left fun i => ?_
  rw [mem_append_sliceDiff, mem_mergeSeeds]

/-- An order there is. -/
noncomputable def sampleOrder : MapOrder Bytes where
  keys := Finset.toList
  keys_eq := Finset.coe_toList

/-- One seed is new, and there once. -/
theorem sliceDiff_mergeSeeds_iff_new :
    ([[1]] : List Bytes).Nodup ∧ ([[1]] ++ (sliceDiff [[1]] [[1], [2], [1]]).view).Nodup ∧
      [2] ∈ mergeSeeds sampleOrder [[1]] [[1], [2], [1]] := by
  have hone : ([[1]] : List Bytes).Nodup := by decide
  have hcount : ∀ i : Bytes, i ∉ ([[1]] : List Bytes) → ([[1], [2], [1]] : List Bytes).count i ≤ 1 := by
    intro i hi
    have hne : i ≠ [1] := fun h => hi (by simp [h])
    by_cases h2 : i = [2]
    · subst h2
      decide
    · simp [hne.symm, Ne.symm h2]
  obtain ⟨hnodup, hsame⟩ := (sliceDiff_mergeSeeds_iff sampleOrder [[1]] [[1], [2], [1]] hone).mpr hcount
  exact ⟨hone, hnodup, (hsame [2]).mp (by decide)⟩

/-- A seed that a remote list names twice is added twice, and by `MergeSeeds` once. -/
theorem repeated_seed_added_twice :
    (sliceDiff [] [[1], [1]]).view = [[1], [1]] ∧
      ∀ order : MapOrder Bytes, mergeSeeds order [] [[1], [1]] = [[1]] := by
  refine ⟨rfl, fun order => ?_⟩
  have hkeys : (mergeSeeds order [] [[1], [1]] : Multiset Bytes) = {[1]} := order.keys_eq _
  exact List.perm_singleton.mp (Multiset.coe_eq_coe.mp hkeys)

end Zif.Node
