import Zif.Lib.Traversal

/-!
# Proofs: depth-first traversal

`Explored` says what a part of a traversal has done; parts compose (`Explored.append`). A traversal from
nothing reports each arc that can be reached once (`visit_arcs`) and, besides the node it starts at, each
node that can be reached over an arc once (`visit_nodes`). In a finite graph it ends (`visit_isSome`).
-/

namespace Traversal

open Relation

variable {α : Type} {next : α → List α} {x y : α} {s s₁ s₂ : State α}
  {nodes nodes' : List α} {arcs arcs' : List (α × α)}

/-- A part of the traversal of what can be reached from `x` has led from `s` to `s'`, and marked the nodes
and met the arcs of the lists. -/
structure Explored (next : α → List α) (x : α) (s s' : State α) (nodes : List α)
    (arcs : List (α × α)) : Prop where
  mem_marked : ∀ y, y ∈ s'.marked ↔ y ∈ s.marked ∨ y ∈ nodes
  mem_arcs : ∀ a, a ∈ s'.arcs ↔ a ∈ s.arcs ∨ a ∈ arcs
  nodes_nodup : nodes.Nodup
  nodes_new : ∀ y ∈ nodes, y ∉ s.marked
  arcs_nodup : arcs.Nodup
  arcs_new : ∀ a ∈ arcs, a ∉ s.arcs
  /-- The nodes can be reached over an arc. -/
  nodes_reached : ∀ y ∈ nodes, TransGen (Arc next) x y
  /-- The arcs are arcs of nodes that can be reached. -/
  arcs_reached : ∀ a ∈ arcs, ReflTransGen (Arc next) x a.2 ∧ Arc next a.2 a.1
  arcs_marked : ∀ a ∈ arcs, a.1 ∈ s'.marked
  /-- All arcs of the nodes have been met. -/
  nodes_done : ∀ z ∈ nodes, ∀ y ∈ next z, (y, z) ∈ s'.arcs

namespace Explored

theorem nothing (next : α → List α) (x : α) (s : State α) : Explored next x s s [] [] := by
  constructor <;> simp

/-- One part after another. -/
theorem append (h : Explored next x s s₁ nodes arcs) (h' : Explored next x s₁ s₂ nodes' arcs') :
    Explored next x s s₂ (nodes ++ nodes') (arcs ++ arcs') where
  mem_marked y := by rw [h'.mem_marked, h.mem_marked, List.mem_append, or_assoc]
  mem_arcs a := by rw [h'.mem_arcs, h.mem_arcs, List.mem_append, or_assoc]
  nodes_nodup := by
    refine List.nodup_append'.mpr ⟨h.nodes_nodup, h'.nodes_nodup, fun y hy hy' => ?_⟩
    exact h'.nodes_new y hy' ((h.mem_marked y).mpr (Or.inr hy))
  nodes_new y hy := by
    rcases List.mem_append.mp hy with hy | hy
    · exact h.nodes_new y hy
    · exact fun hmem => h'.nodes_new y hy ((h.mem_marked y).mpr (Or.inl hmem))
  arcs_nodup := by
    refine List.nodup_append'.mpr ⟨h.arcs_nodup, h'.arcs_nodup, fun a ha ha' => ?_⟩
    exact h'.arcs_new a ha' ((h.mem_arcs a).mpr (Or.inr ha))
  arcs_new a ha := by
    rcases List.mem_append.mp ha with ha | ha
    · exact h.arcs_new a ha
    · exact fun hmem => h'.arcs_new a ha ((h.mem_arcs a).mpr (Or.inl hmem))
  nodes_reached y hy := (List.mem_append.mp hy).elim (h.nodes_reached y) (h'.nodes_reached y)
  arcs_reached a ha := (List.mem_append.mp ha).elim (h.arcs_reached a) (h'.arcs_reached a)
  arcs_marked a ha := by
    rcases List.mem_append.mp ha with ha | ha
    · exact (h'.mem_marked _).mpr (Or.inl (h.arcs_marked a ha))
    · exact h'.arcs_marked a ha
  nodes_done z hz y hy := by
    rcases List.mem_append.mp hz with hz | hz
    · exact (h'.mem_arcs _).mpr (Or.inl (h.nodes_done z hz y hy))
    · exact h'.nodes_done z hz y hy

variable [DecidableEq α]

/-- A new arc to a node that is marked. -/
theorem arc (hxy : Arc next x y) (hnew : (y, x) ∉ s.arcs) (hmarked : y ∈ s.marked) :
    Explored next x s ⟨s.marked, insert (y, x) s.arcs⟩ [] [(y, x)] where
  mem_marked := by simp
  mem_arcs a := by simp [or_comm]
  nodes_nodup := List.nodup_nil
  nodes_new := by simp
  arcs_nodup := List.nodup_singleton _
  arcs_new := by simpa using hnew
  nodes_reached := by simp
  arcs_reached := by simpa using ⟨ReflTransGen.refl, hxy⟩
  arcs_marked := by simpa using hmarked
  nodes_done := by simp

/-- A new arc to a new node, and all that was done from there. -/
theorem descend (hxy : Arc next x y) (hnew : (y, x) ∉ s.arcs) (hmarked : y ∉ s.marked)
    (h : Explored next y ⟨insert y s.marked, insert (y, x) s.arcs⟩ s₁ nodes arcs)
    (hdone : ∀ z ∈ next y, (z, y) ∈ s₁.arcs) :
    Explored next x s s₁ (y :: nodes) ((y, x) :: arcs) where
  mem_marked z := by
    rw [h.mem_marked, Finset.mem_insert, List.mem_cons]
    tauto
  mem_arcs a := by
    rw [h.mem_arcs, Finset.mem_insert, List.mem_cons]
    tauto
  nodes_nodup :=
    List.nodup_cons.mpr ⟨fun hy => h.nodes_new y hy (Finset.mem_insert_self _ _), h.nodes_nodup⟩
  nodes_new := by
    refine List.forall_mem_cons.mpr ⟨hmarked, fun z hz hmem => ?_⟩
    exact h.nodes_new z hz (Finset.mem_insert_of_mem hmem)
  arcs_nodup :=
    List.nodup_cons.mpr ⟨fun ha => h.arcs_new _ ha (Finset.mem_insert_self _ _), h.arcs_nodup⟩
  arcs_new := by
    refine List.forall_mem_cons.mpr ⟨hnew, fun a ha hmem => ?_⟩
    exact h.arcs_new a ha (Finset.mem_insert_of_mem hmem)
  nodes_reached :=
    List.forall_mem_cons.mpr ⟨.single hxy, fun z hz => .head hxy (h.nodes_reached z hz)⟩
  arcs_reached := List.forall_mem_cons.mpr ⟨⟨.refl, hxy⟩, fun a ha =>
    ⟨.head hxy (h.arcs_reached a ha).1, (h.arcs_reached a ha).2⟩⟩
  arcs_marked := List.forall_mem_cons.mpr
    ⟨(h.mem_marked y).mpr (Or.inl (Finset.mem_insert_self _ _)), h.arcs_marked⟩
  nodes_done := List.forall_mem_cons.mpr ⟨hdone, h.nodes_done⟩

end Explored

/-! ## What a traversal does -/

/-- What is asked of the traversal from a node on. -/
def Visits [DecidableEq α] (next : α → List α) (self : α → State α → Option (State α × Report α)) : Prop :=
  ∀ x s s' out, self x s = some (s', out) → ∃ nodes,
    out.nodes = (if x ∈ s.marked then [] else [x]) ++ nodes ∧
      Explored next x s s' nodes out.arcs ∧ ∀ y ∈ next x, (y, x) ∈ s'.arcs

variable [DecidableEq α] {self : α → State α → Option (State α × Report α)} {s' : State α}
  {out out' : Report α}

theorem follow_spec (hself : Visits next self) (hxy : Arc next x y)
    (h : follow self x y s out = some (s', out')) : ∃ nodes arcs,
      out'.nodes = out.nodes ++ nodes ∧ out'.arcs = out.arcs ++ arcs ∧
        Explored next x s s' nodes arcs ∧ (y, x) ∈ s'.arcs := by
  unfold follow at h
  split at h
  · rename_i hmet
    cases h
    exact ⟨[], [], by simp, by simp, .nothing next x s, hmet⟩
  · rename_i hnew
    split at h
    · rename_i hmarked
      cases h
      exact ⟨[], [(y, x)], by simp, rfl, .arc hxy hnew hmarked, Finset.mem_insert_self _ _⟩
    · rename_i hmarked
      obtain ⟨⟨s₁, found⟩, hfound, heq⟩ := Option.map_eq_some_iff.mp h
      cases heq
      obtain ⟨nodes, hnodes, hexplored, hdone⟩ := hself _ _ _ _ hfound
      rw [if_pos (Finset.mem_insert_self _ _), List.nil_append] at hnodes
      refine ⟨y :: nodes, (y, x) :: found.arcs, by simp [hnodes], by simp,
        .descend hxy hnew hmarked hexplored hdone, ?_⟩
      exact (hexplored.mem_arcs _).mpr (Or.inl (Finset.mem_insert_self _ _))

theorem followAll_spec (hself : Visits next self) {ys : List α} (hys : ∀ y ∈ ys, Arc next x y)
    (h : followAll self x ys s out = some (s', out')) : ∃ nodes arcs,
      out'.nodes = out.nodes ++ nodes ∧ out'.arcs = out.arcs ++ arcs ∧
        Explored next x s s' nodes arcs ∧ ∀ y ∈ ys, (y, x) ∈ s'.arcs := by
  induction ys generalizing s out with
  | nil =>
    cases h
    exact ⟨[], [], by simp, by simp, .nothing next x _, by simp⟩
  | cons y ys ih =>
    obtain ⟨⟨s₁, out₁⟩, hfollow, hrest⟩ := Option.bind_eq_some_iff.mp h
    obtain ⟨nodes₁, arcs₁, hnodes₁, harcs₁, hexplored₁, hmet₁⟩ :=
      follow_spec hself (hys y (by simp)) hfollow
    obtain ⟨nodes₂, arcs₂, hnodes₂, harcs₂, hexplored₂, hmet₂⟩ :=
      ih (fun z hz => hys z (List.mem_cons_of_mem _ hz)) hrest
    refine ⟨nodes₁ ++ nodes₂, arcs₁ ++ arcs₂, ?_, ?_, hexplored₁.append hexplored₂, ?_⟩
    · rw [hnodes₂, hnodes₁, List.append_assoc]
    · rw [harcs₂, harcs₁, List.append_assoc]
    · exact List.forall_mem_cons.mpr ⟨(hexplored₂.mem_arcs _).mpr (Or.inl hmet₁), hmet₂⟩

theorem visit_spec (next : α → List α) (fuel : Nat) : Visits next (visit next fuel) := by
  induction fuel with
  | zero =>
    intro x s s' out h
    cases h
  | succ fuel ih =>
    intro x s s' out h
    obtain ⟨nodes, arcs, hnodes, harcs, hexplored, hdone⟩ := followAll_spec ih (fun y hy => hy) h
    rw [List.nil_append] at harcs
    exact ⟨nodes, hnodes, harcs ▸ hexplored, hdone⟩

/-! ## From nothing -/

section Empty

variable {root : α} {fuel : Nat} (h : visit next fuel root ⟨∅, ∅⟩ = some (s', out))

include h

/-- Each arc of each node that can be reached is reported once. -/
theorem visit_arcs : out.arcs.Nodup ∧
    ∀ a, a ∈ out.arcs ↔ ReflTransGen (Arc next) root a.2 ∧ Arc next a.2 a.1 := by
  obtain ⟨nodes, -, hexplored, hdone⟩ := visit_spec next fuel _ _ _ _ h
  have hmet : ∀ a, a ∈ s'.arcs ↔ a ∈ out.arcs := by simpa using hexplored.mem_arcs
  -- the nodes whose arcs have all been met are closed under arcs
  have hall : ∀ z, ReflTransGen (Arc next) root z → ∀ y ∈ next z, (y, z) ∈ out.arcs := by
    intro z hz
    induction hz with
    | refl => exact fun y hy => (hmet _).mp (hdone y hy)
    | tail _ harc ih =>
      have hmarked := hexplored.arcs_marked _ (ih _ harc)
      have hmem := ((hexplored.mem_marked _).mp hmarked).resolve_left (by simp)
      exact fun y hy => (hmet _).mp (hexplored.nodes_done _ hmem y hy)
  exact ⟨hexplored.arcs_nodup, fun a => ⟨hexplored.arcs_reached a, fun ha => hall a.2 ha.1 a.1 ha.2⟩⟩

/-- The node it starts at is reported first, and then each node that can be reached over an arc once. -/
theorem visit_nodes : ∃ nodes, out.nodes = root :: nodes ∧ nodes.Nodup ∧
    ∀ y, y ∈ nodes ↔ TransGen (Arc next) root y := by
  obtain ⟨nodes, hnodes, hexplored, -⟩ := visit_spec next fuel _ _ _ _ h
  refine ⟨nodes, by simpa using hnodes, hexplored.nodes_nodup, fun y => ?_⟩
  refine ⟨hexplored.nodes_reached y, fun hy => ?_⟩
  obtain ⟨z, hz, harc⟩ := TransGen.tail'_iff.mp hy
  have hmarked := hexplored.arcs_marked _ (((visit_arcs h).2 (y, z)).mpr ⟨hz, harc⟩)
  exact ((hexplored.mem_marked _).mp hmarked).resolve_left (by simp)

end Empty

/-! ## In a finite graph -/

theorem followAll_isSome {U : Finset α} {fuel : Nat} (hself : Visits next self)
    (hsome : ∀ y ∈ U, ∀ s : State α, (U \ s.marked).card < fuel → ∃ r, self y s = some r)
    {ys : List α} (hys : ∀ y ∈ ys, Arc next x y ∧ y ∈ U) (hcard : (U \ s.marked).card < fuel + 1)
    (out : Report α) : ∃ r, followAll self x ys s out = some r := by
  induction ys generalizing s out with
  | nil => exact ⟨_, rfl⟩
  | cons y ys ih =>
    obtain ⟨hxy, hy⟩ := hys y (by simp)
    have hfirst : ∃ r, follow self x y s out = some r := by
      unfold follow
      split
      · exact ⟨_, rfl⟩
      · split
        · exact ⟨_, rfl⟩
        · rename_i hmarked
          have hless : (U \ insert y s.marked).card < (U \ s.marked).card := by
            refine Finset.card_lt_card (Finset.ssubset_iff_of_subset ?_ |>.mpr ⟨y, ?_, ?_⟩)
            · exact Finset.sdiff_subset_sdiff le_rfl (Finset.subset_insert _ _)
            · exact Finset.mem_sdiff.mpr ⟨hy, hmarked⟩
            · simp
          obtain ⟨r, hr⟩ := hsome y hy ⟨insert y s.marked, insert (y, x) s.arcs⟩ (by
            show (U \ insert y s.marked).card < fuel
            omega)
          exact ⟨_, by rw [hr]; rfl⟩
    obtain ⟨⟨s₁, out₁⟩, hfollow⟩ := hfirst
    obtain ⟨nodes, arcs, -, -, hexplored, -⟩ := follow_spec hself hxy hfollow
    have hle : (U \ s₁.marked).card ≤ (U \ s.marked).card := by
      refine Finset.card_le_card (Finset.sdiff_subset_sdiff le_rfl fun z hz => ?_)
      exact (hexplored.mem_marked z).mpr (Or.inl hz)
    obtain ⟨r, hr⟩ :=
      ih (s := s₁) (fun z hz => hys z (List.mem_cons_of_mem _ hz)) (by omega) out₁
    exact ⟨r, by rw [followAll, hfollow]; exact hr⟩

/-- In a finite set of nodes that no arc leads out of, the traversal is never deeper than there are nodes
left to mark. -/
theorem visit_isSome {U : Finset α} (hU : ∀ z ∈ U, ∀ y ∈ next z, y ∈ U) {fuel : Nat} (hx : x ∈ U)
    (hfuel : (U \ s.marked).card < fuel) : ∃ r, visit next fuel x s = some r := by
  induction fuel generalizing x s with
  | zero => omega
  | succ fuel ih =>
    refine followAll_isSome (visit_spec next fuel) (fun y hy s hs => ih hy hs) ?_ hfuel _
    exact fun y hy => ⟨hy, hU x hx y hy⟩

end Traversal
