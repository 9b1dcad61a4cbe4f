import Zif.Lib.Arrival

/-!
# Proofs: orders of arrival

The links of a sequence are those that each item makes with the items before it (`mem_links`). With
every order allowed, three of them decide: an item that comes last makes all its links, one that comes
first only those to itself, and one that comes second only those with the first. `OrderFree` is what
the three have to agree on (`links_iff_orderFree`).
-/

namespace Arrival

variable {ι α : Type} [DecidableEq α] {known known' : List α} {ls : List (α × α)} {l l' : α × α}

/-! ## Admitted links -/

theorem admitted_cons : admitted known (l :: ls) =
    if l.1 ∈ known ∧ l.2 ∈ known then l :: admitted known ls else [] := by
  unfold admitted
  rw [List.takeWhile_cons]
  by_cases h : l.1 ∈ known ∧ l.2 ∈ known
  · rw [if_pos h, if_pos (decide_eq_true h)]
  · rw [if_neg h, if_neg (by simpa using h)]

theorem mem_admitted_ends (h : l ∈ admitted known ls) : l.1 ∈ known ∧ l.2 ∈ known := by
  have := List.mem_takeWhile_imp h
  simpa using this

theorem admitted_initial (known : List α) (ls : List (α × α)) : admitted known ls <+: ls :=
  List.takeWhile_prefix _

/-- A prefix with known ends is admitted. -/
theorem prefix_admitted {init : List (α × α)} (hinit : init <+: ls)
    (hknown : ∀ l ∈ init, l.1 ∈ known ∧ l.2 ∈ known) : init <+: admitted known ls := by
  obtain ⟨rest, rfl⟩ := hinit
  unfold admitted
  rw [List.takeWhile_append_of_pos (by simpa using hknown)]
  exact List.prefix_append _ _

theorem admitted_mono (h : known ⊆ known') : admitted known ls ⊆ admitted known' ls :=
  (prefix_admitted (admitted_initial known ls) fun _ hl =>
    ⟨h (mem_admitted_ends hl).1, h (mem_admitted_ends hl).2⟩).subset

/-- Of two admitted parts of a list one is a part of the other. -/
theorem admitted_total (known known' : List α) (ls : List (α × α)) :
    admitted known ls ⊆ admitted known' ls ∨ admitted known' ls ⊆ admitted known ls := by
  rcases List.prefix_or_prefix_of_prefix (admitted_initial known ls) (admitted_initial known' ls)
    with h | h
  · exact .inl h.subset
  · exact .inr h.subset

/-! ## Ends -/

variable {k : α}

theorem far_of_ends {a : α} (h : l.1 = k ∨ l.2 = k) (hfar : far k l = a) :
    l = (k, a) ∨ l = (a, k) := by
  obtain ⟨s, f⟩ := l
  unfold far at hfar
  simp only at h hfar
  split at hfar
  · rename_i hs
    exact .inl (by rw [hs, hfar])
  · rename_i hs
    rcases h with h | h
    · exact absurd h hs
    · exact .inr (by rw [h, hfar])

/-- Seen from the far end, the other end is the near one. -/
theorem far_far {a : α} (h : l.1 = k ∨ l.2 = k) (hfar : far k l = a) (hne : k ≠ a) : far a l = k := by
  rcases far_of_ends h hfar with heq | heq
  · rw [heq, far, if_neg hne]
  · rw [heq, far, if_pos rfl]

theorem far_mem {ks : List α} (h : l.1 ∈ ks ∧ l.2 ∈ ks) : far k l ∈ ks := by
  unfold far
  split
  · exact h.2
  · exact h.1

/-- Both ends are `k` or the far end. -/
theorem ends_of_far (h : l.1 = k ∨ l.2 = k) {ks : List α} (hk : k ∈ ks) (hfar : far k l ∈ ks) :
    l.1 ∈ ks ∧ l.2 ∈ ks := by
  rcases far_of_ends h rfl with heq | heq
  · rw [heq]
    exact ⟨hk, hfar⟩
  · rw [heq]
    exact ⟨hfar, hk⟩

/-! ## Links of a sequence -/

variable {key : ι → α} {req : ι → List (α × α)} {xs ys zs : List ι} {x y : ι}

theorem links_append (xs ys : List ι) : links key req known (xs ++ ys) =
    links key req known xs ++ links key req (known ++ xs.map key) ys := by
  induction xs generalizing known with
  | nil => simp [links]
  | cons x xs ih => simp [links, ih]

theorem mem_links : l ∈ links key req known xs ↔
    ∃ pre x post, xs = pre ++ x :: post ∧
      l ∈ admitted (known ++ pre.map key ++ [key x]) (req x) := by
  induction xs generalizing known with
  | nil => simp [links]
  | cons x xs ih =>
    rw [links, List.mem_append, ih]
    constructor
    · rintro (h | ⟨pre, y, post, rfl, h⟩)
      · exact ⟨[], x, xs, rfl, by simpa using h⟩
      · exact ⟨x :: pre, y, post, rfl, by simpa using h⟩
    · rintro ⟨pre, y, post, heq, h⟩
      cases pre with
      | nil =>
        injection heq with hx
        subst hx
        exact .inl (by simpa using h)
      | cons z pre =>
        injection heq with hx hxs
        subst hx
        exact .inr ⟨pre, y, post, hxs, by simpa using h⟩

theorem subset_lasting {pre post : List ι} (hperm : (pre ++ x :: post).Perm xs) :
    admitted (pre.map key ++ [key x]) (req x) ⊆ lasting key req xs x := by
  refine admitted_mono fun a ha => ?_
  rw [List.mem_append, List.mem_singleton] at ha
  refine (hperm.map key).subset ?_
  rw [List.map_append, List.map_cons, List.mem_append, List.mem_cons]
  tauto

/-- A link is made by an item that lists it. -/
theorem exists_lasting (hperm : ys.Perm xs) (h : l ∈ links key req [] ys) :
    ∃ x ∈ xs, l ∈ lasting key req xs x := by
  obtain ⟨pre, x, post, rfl, hmem⟩ := mem_links.mp h
  exact ⟨x, hperm.subset (by simp), subset_lasting hperm hmem⟩

section Orders

variable (hends : ∀ x, ∀ l ∈ req x, l.1 = key x ∨ l.2 = key x)

include hends

theorem ends_of_mem_lasting (h : l ∈ lasting key req xs x) : l.1 = key x ∨ l.2 = key x :=
  hends x l ((admitted_initial _ _).subset h)

/-! ### When it does not matter -/

/-- An item that comes after the one it has links with makes all its links. -/
theorem OrderFree.mem_links_of_before (hfree : OrderFree key req xs) {pre post : List ι}
    (hperm : (pre ++ x :: post).Perm xs) (hl : l ∈ lasting key req xs x)
    (hfar : far (key x) l ≠ key x) (hbefore : far (key x) l ∈ pre.map key) :
    l ∈ links key req [] (pre ++ x :: post) := by
  have hx : x ∈ xs := hperm.subset (by simp)
  refine mem_links.mpr ⟨pre, x, post, rfl, ?_⟩
  refine (prefix_admitted (admitted_initial _ _) fun l' hl' => ?_).subset hl
  refine ends_of_far (ends_of_mem_lasting hends hl') (by simp) ?_
  by_cases hself : far (key x) l' = key x
  · simp [hself]
  · rw [← hfree.single x hx l hl l' hl' hfar hself]
    simp [hbefore]

theorem OrderFree.mem_links_iff (hfree : OrderFree key req xs) (hperm : ys.Perm xs) :
    l ∈ links key req [] ys ↔ ∃ x ∈ xs, l ∈ lasting key req xs x := by
  refine ⟨exists_lasting hperm, ?_⟩
  rintro ⟨x, hx, hl⟩
  obtain ⟨pre, post, rfl⟩ := List.append_of_mem (hperm.symm.subset hx)
  by_cases hself : far (key x) l = key x
  · -- the link to itself comes first, and needs no other item
    have hpair : l = (key x, key x) := by
      rcases far_of_ends (ends_of_mem_lasting hends hl) hself with h | h <;> exact h
    subst hpair
    obtain ⟨rest, hrest⟩ : ∃ rest, lasting key req xs x = (key x, key x) :: rest :=
      List.head?_eq_some_iff.mp (hfree.selfFirst x hx hl)
    refine mem_links.mpr ⟨pre, x, post, rfl, ?_⟩
    have hinit : [(key x, key x)] <+: req x := by
      refine List.IsPrefix.trans ?_ (admitted_initial (xs.map key) (req x))
      exact ⟨rest, hrest.symm⟩
    exact (prefix_admitted hinit (by simp)).subset (by simp)
  · have hfarmem := far_mem (k := key x) (mem_admitted_ends hl)
    obtain ⟨y, hy, hkey⟩ := List.mem_map.mp hfarmem
    have hne : y ≠ x := by
      rintro rfl
      exact hself hkey.symm
    have hyin := hperm.symm.subset hy
    rw [List.mem_append, List.mem_cons] at hyin
    rcases hyin with hpre | hyx | hpost
    · exact hfree.mem_links_of_before hends hperm hl hself (hkey ▸ List.mem_map_of_mem hpre)
    · exact absurd hyx hne
    · -- the other item comes later and asks for the link as well
      obtain ⟨mid, post, rfl⟩ := List.append_of_mem hpost
      have hly := hfree.both x hx y hy l hl hkey.symm
      have hfary := far_far (ends_of_mem_lasting hends hl) hkey.symm
        (by rw [hkey]; exact fun h => hself h.symm)
      have hsplit : pre ++ x :: (mid ++ y :: post) = (pre ++ x :: mid) ++ y :: post := by simp
      rw [hsplit] at hperm ⊢
      refine hfree.mem_links_of_before hends hperm hly ?_ ?_
      · rw [hfary, hkey]
        exact fun h => hself h.symm
      · rw [hfary]
        simp

/-! ### When it does -/

variable (hkeys : (xs.map key).Nodup)

include hkeys

/-- In a sequence that begins with an item, its link to itself is made by that item. -/
theorem admitted_of_first (hperm : (x :: zs).Perm xs)
    (h : (key x, key x) ∈ links key req [] (x :: zs)) : (key x, key x) ∈ admitted [key x] (req x) := by
  have hkeys' : ((x :: zs).map key).Nodup := (hperm.map key).nodup_iff.mpr hkeys
  rw [List.map_cons, List.nodup_cons] at hkeys'
  obtain ⟨pre, z, post, heq, hmem⟩ := mem_links.mp h
  have hz : key z = key x := by
    rcases hends z _ ((admitted_initial _ _).subset hmem) with h | h <;> exact h.symm
  cases pre with
  | nil =>
    injection heq with hx
    subst hx
    simpa using hmem
  | cons a pre =>
    injection heq with ha hrest
    have hin : z ∈ zs := hrest ▸ List.mem_append_right pre List.mem_cons_self
    exact absurd (hz ▸ List.mem_map_of_mem hin) hkeys'.1

/-- In a sequence that begins with two items, a link between them is made by the second. -/
theorem admitted_of_second (hperm : (x :: y :: zs).Perm xs)
    (hl : l = (key x, key y) ∨ l = (key y, key x)) (h : l ∈ links key req [] (x :: y :: zs)) :
    l ∈ admitted [key x, key y] (req y) := by
  have hkeys' : ((x :: y :: zs).map key).Nodup := (hperm.map key).nodup_iff.mpr hkeys
  simp only [List.map_cons, List.nodup_cons, List.mem_cons, not_or] at hkeys'
  obtain ⟨⟨hxy, hxzs⟩, hyzs, -⟩ := hkeys'
  obtain ⟨pre, z, post, heq, hmem⟩ := mem_links.mp h
  have hz : key z = key x ∨ key z = key y := by
    rcases hends z l ((admitted_initial _ _).subset hmem) with h | h <;> rcases hl with rfl | rfl
    · exact .inl h.symm
    · exact .inr h.symm
    · exact .inr h.symm
    · exact .inl h.symm
  cases pre with
  | nil =>
    -- when the first item comes, the second is not there
    injection heq with hx
    subst hx
    obtain ⟨h1, h2⟩ := mem_admitted_ends hmem
    simp only [List.map_nil, List.append_nil, List.nil_append, List.mem_singleton] at h1 h2
    rcases hl with rfl | rfl
    · exact absurd h2.symm hxy
    · exact absurd h1.symm hxy
  | cons a pre =>
    injection heq with ha hrest
    subst ha
    cases pre with
    | nil =>
      injection hrest with hy
      subst hy
      simpa using hmem
    | cons b pre =>
      -- a third item has another key
      injection hrest with hb hrest
      have hin : z ∈ zs := hrest ▸ List.mem_append_right pre List.mem_cons_self
      rcases hz with hz | hz
      · exact absurd (hz ▸ List.mem_map_of_mem hin) hxzs
      · exact absurd (hz ▸ List.mem_map_of_mem hin) hyzs

variable (hsame : ∀ ys zs, ys.Perm xs → zs.Perm xs →
  ∀ l, l ∈ links key req [] ys ↔ l ∈ links key req [] zs)

include hsame

omit hends hkeys in
/-- An item that comes last makes all its links, so they are made in every order. -/
theorem mem_links_of_lasting (hx : x ∈ xs) (hl : l ∈ lasting key req xs x) (hperm : ys.Perm xs) :
    l ∈ links key req [] ys := by
  obtain ⟨pre, post, heq⟩ := List.append_of_mem hx
  have hlast : (pre ++ post ++ [x]).Perm xs := by
    rw [heq, List.append_assoc]
    exact List.perm_append_comm.append_left pre
  rw [hsame ys _ hperm hlast]
  refine mem_links.mpr ⟨pre ++ post, x, [], rfl, ?_⟩
  refine admitted_mono (fun a ha => ?_) hl
  rw [heq] at ha
  simp only [List.map_append, List.map_cons, List.mem_append, List.mem_cons] at ha
  simp only [List.map_append, List.nil_append, List.mem_append, List.mem_singleton]
  tauto

/-- A link with another item is listed by both, behind links between the two of them only. -/
theorem admitted_of_lasting (hx : x ∈ xs) (hy : y ∈ xs) (hl : l ∈ lasting key req xs x)
    (hfar : far (key x) l = key y) (hxy : key x ≠ key y) :
    l ∈ admitted [key x, key y] (req y) := by
  have hne : y ≠ x := by
    rintro rfl
    exact hxy rfl
  obtain ⟨pre, post, heq⟩ := List.append_of_mem hx
  have hyrest : y ∈ pre ++ post := by
    rw [heq, List.mem_append, List.mem_cons] at hy
    rw [List.mem_append]
    tauto
  obtain ⟨a, b, hab⟩ := List.append_of_mem hyrest
  have hperm : (x :: y :: (a ++ b)).Perm xs := by
    rw [heq]
    refine List.Perm.trans ?_ List.perm_middle.symm
    rw [hab]
    exact List.perm_middle.symm.cons x
  exact admitted_of_second hends hkeys hperm
    (far_of_ends (ends_of_mem_lasting hends hl) hfar)
    (mem_links_of_lasting hsame hx hl hperm)

/-- So both of them list it among their lasting links. -/
theorem mem_lasting_of_far (hx : x ∈ xs) (hy : y ∈ xs) (hl : l ∈ lasting key req xs x)
    (hfar : far (key x) l = key y) : l ∈ lasting key req xs y := by
  by_cases hxy : key x = key y
  · have heq : x = y := List.inj_on_of_nodup_map hkeys hx hy hxy
    rwa [← heq]
  · refine admitted_mono ?_ (admitted_of_lasting hends hkeys hsame hx hy hl hfar hxy)
    intro a ha
    rw [List.mem_cons, List.mem_singleton] at ha
    rcases ha with rfl | rfl
    · exact List.mem_map_of_mem hx
    · exact List.mem_map_of_mem hy

/-- An item lists a link with another behind links with that one and itself only. -/
theorem admitted_far_of_lasting (hx : x ∈ xs) (hl : l ∈ lasting key req xs x)
    (hfar : far (key x) l ≠ key x) : l ∈ admitted [far (key x) l, key x] (req x) := by
  obtain ⟨y, hy, hkey⟩ := List.mem_map.mp (far_mem (k := key x) (mem_admitted_ends hl))
  have hxy : key x ≠ key y := by
    rw [hkey]
    exact fun h => hfar h.symm
  have hly := mem_lasting_of_far hends hkeys hsame hx hy hl hkey.symm
  have hfary := far_far (ends_of_mem_lasting hends hl) hkey.symm hxy
  rw [← hkey]
  exact admitted_of_lasting hends hkeys hsame hy hx hly hfary hxy.symm

/-- No item has links with two others: of the two parts behind which it lists them, the shorter one has
the other link as well. -/
theorem far_eq_of_lasting (hx : x ∈ xs) (hl : l ∈ lasting key req xs x)
    (hl' : l' ∈ lasting key req xs x) (hfar : far (key x) l ≠ key x) (hfar' : far (key x) l' ≠ key x) :
    far (key x) l = far (key x) l' := by
  have hfar_of : ∀ {a : α} {l : α × α}, l ∈ admitted [a, key x] (req x) → far (key x) l ≠ key x →
      far (key x) l = a := by
    intro a l hl hne
    have := far_mem (k := key x) (mem_admitted_ends hl)
    rw [List.mem_cons, List.mem_singleton] at this
    tauto
  have hmem := admitted_far_of_lasting hends hkeys hsame hx hl hfar
  have hmem' := admitted_far_of_lasting hends hkeys hsame hx hl' hfar'
  rcases admitted_total [far (key x) l, key x] [far (key x) l', key x] (req x) with h | h
  · exact hfar_of (h hmem) hfar
  · exact (hfar_of (h hmem') hfar').symm

/-- An item that comes first makes its link to itself, so it lists that before the others. -/
theorem head_lasting_of_self (hx : x ∈ xs) (hl : (key x, key x) ∈ lasting key req xs x) :
    (lasting key req xs x).head? = some (key x, key x) := by
  obtain ⟨pre, post, heq⟩ := List.append_of_mem hx
  have hperm : (x :: (pre ++ post)).Perm xs := by
    rw [heq]
    exact List.perm_middle.symm
  have hfirst := admitted_of_first hends hkeys hperm (mem_links_of_lasting hsame hx hl hperm)
  have hone : ∀ l ∈ admitted [key x] (req x), l = (key x, key x) := by
    intro l hl
    obtain ⟨h1, h2⟩ := mem_admitted_ends hl
    exact Prod.ext (List.mem_singleton.mp h1) (List.mem_singleton.mp h2)
  obtain ⟨rest, hrest⟩ : admitted [key x] (req x) <+: lasting key req xs x :=
    prefix_admitted (admitted_initial _ _) fun l hl => by
      rw [hone l hl]
      exact ⟨List.mem_map_of_mem hx, List.mem_map_of_mem hx⟩
  cases hlist : admitted [key x] (req x) with
  | nil => simp [hlist] at hfirst
  | cons l ls =>
    rw [← hrest, hlist, hone l (by simp [hlist])]
    rfl

theorem orderFree_of_links : OrderFree key req xs where
  both _ hx _ hy _ hl hfar := mem_lasting_of_far hends hkeys hsame hx hy hl hfar
  single _ hx _ hl _ hl' hfar hfar' := far_eq_of_lasting hends hkeys hsame hx hl hl' hfar hfar'
  selfFirst _ hx hl := head_lasting_of_self hends hkeys hsame hx hl

omit hsame in
/-- Every order makes the same links exactly when the items are order free. -/
theorem links_iff_orderFree :
    (∀ ys zs, ys.Perm xs → zs.Perm xs →
      ∀ l, l ∈ links key req [] ys ↔ l ∈ links key req [] zs) ↔ OrderFree key req xs := by
  refine ⟨orderFree_of_links hends hkeys, fun hfree ys zs hys hzs l => ?_⟩
  rw [hfree.mem_links_iff hends hys, hfree.mem_links_iff hends hzs]

end Orders

end Arrival
