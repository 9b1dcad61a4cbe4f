import Zif.Lib.Paging

/-!
# Proofs: paging

The pages of a list, put together, are the list (`flatMap_page`), and the elements of a numbered list
that come after a number are a suffix (`Numbered.filter_lt`).
-/

namespace Paging

variable {α : Type} {key : α → Int} {s size : Nat} {xs : List α}

/-! ## Counting pages -/

theorem lt_count_iff (hsize : 0 < size) (n i : Nat) : i < count size n ↔ size * i < n := by
  rw [count, Nat.lt_div_iff_mul_lt hsize, Nat.mul_comm]
  omega

theorem le_size_mul_count (hsize : 0 < size) (n : Nat) : n ≤ size * count size n := by
  have h := lt_count_iff hsize n (count size n)
  omega

/-- One page is enough for at most `size` elements. -/
theorem count_le_one_iff (hsize : 0 < size) (n : Nat) : count size n ≤ 1 ↔ n ≤ size := by
  have h := lt_count_iff hsize n 1
  omega

theorem count_pos_iff (hsize : 0 < size) (n : Nat) : 0 < count size n ↔ 0 < n := by
  simpa using lt_count_iff hsize n 0

theorem count_le_self (hsize : 0 < size) (n : Nat) : count size n ≤ n := by
  by_contra hlt
  have hmul := (lt_count_iff hsize n n).mp (by omega)
  have := Nat.le_mul_of_pos_left n hsize
  omega

/-! ## Pages -/

theorem page_map {β : Type} (f : α → β) (size : Nat) (xs : List α) (i : Nat) :
    page size (xs.map f) i = (page size xs i).map f := by
  rw [page, page, ← List.map_drop, ← List.map_take]

theorem page_eq_nil {i : Nat} (h : xs.length ≤ size * i) : page size xs i = [] := by
  rw [page, List.drop_eq_nil_of_le h, List.take_nil]

/-- The pages in the first `n` elements. -/
theorem page_take {n i : Nat} (h : size * (i + 1) ≤ n) : page size (xs.take n) i = page size xs i := by
  rw [page, page, List.drop_take, List.take_take, Nat.min_eq_left]
  rw [Nat.mul_succ] at h
  omega

/-- The pages from page `k` on. -/
theorem page_drop_mul (size : Nat) (xs : List α) (k i : Nat) :
    page size (xs.drop (size * k)) i = page size xs (k + i) := by
  rw [page, page, List.drop_drop, Nat.mul_add]

/-- In a list of blocks of one size the pages are the blocks. -/
theorem page_flatMap {k : Nat} {f : Nat → List α} (hf : ∀ i, (f i).length = size) {i : Nat}
    (hi : i < k) : page size ((List.range k).flatMap f) i = f i := by
  have hlen : ∀ j, ((List.range j).flatMap f).length = size * j := by
    intro j
    induction j with
    | zero => simp
    | succ j ih =>
      rw [List.range_succ, List.flatMap_append, List.length_append, ih]
      simp [hf, Nat.mul_succ]
  obtain ⟨j, rfl⟩ : ∃ j, k = i + 1 + j := ⟨k - (i + 1), by omega⟩
  rw [List.range_add, List.range_succ, List.flatMap_append, List.flatMap_append, List.append_assoc,
    page, ← hlen i, List.drop_left]
  simp [hf]

/-- The first pages of a list are its beginning. -/
theorem take_eq_flatMap_page (size : Nat) (xs : List α) (k : Nat) :
    (List.range k).flatMap (page size xs) = xs.take (size * k) := by
  induction k with
  | zero => simp
  | succ k ih =>
    rw [List.range_succ, List.flatMap_append, ih, Nat.mul_succ, List.take_add]
    simp [page]

theorem flatMap_page (hsize : 0 < size) (xs : List α) :
    (List.range (count size xs.length)).flatMap (page size xs) = xs := by
  rw [take_eq_flatMap_page]
  exact List.take_of_length_le (le_size_mul_count hsize xs.length)

/-! ## Numbered lists -/

theorem numbered_cons {x : α} :
    Numbered key s (x :: xs) ↔ key x = s + 1 ∧ Numbered key (s + 1) xs := by
  constructor
  · rintro (_ | ⟨hx, hxs⟩)
    exact ⟨hx, hxs⟩
  · rintro ⟨hx, hxs⟩
    exact .cons hx hxs

theorem numbered_map {β : Type} {f : α → β} {key : β → Int} :
    Numbered key s (xs.map f) ↔ Numbered (fun x => key (f x)) s xs := by
  induction xs generalizing s with
  | nil => exact ⟨fun _ => .nil, fun _ => .nil⟩
  | cons x xs ih => rw [List.map_cons, numbered_cons, numbered_cons, ih]

/-- The next element carries the next number. -/
theorem numbered_append_singleton {x : α} :
    Numbered key s (xs ++ [x]) ↔ Numbered key s xs ∧ key x = s + xs.length + 1 := by
  induction xs generalizing s with
  | nil =>
    rw [List.nil_append, numbered_cons]
    simp [Numbered.nil]
  | cons y ys ih =>
    rw [List.cons_append, numbered_cons, numbered_cons, ih, and_assoc, List.length_cons]
    push_cast
    rw [show (s : Int) + 1 + ys.length + 1 = s + (ys.length + 1) + 1 by omega]

theorem Numbered.lt_key (h : Numbered key s xs) {x : α} (hx : x ∈ xs) : (s : Int) < key x := by
  induction h with
  | nil => simp at hx
  | cons hy _ ih =>
    rcases List.mem_cons.mp hx with rfl | hmem
    · omega
    · have := ih hmem
      omega

/-- The elements with larger numbers than the `k`-th are what is left after `k` elements. -/
theorem Numbered.filter_lt (h : Numbered key s xs) (k : Nat) :
    xs.filter (fun x => (s + k : Int) < key x) = xs.drop k := by
  induction h generalizing k with
  | nil => simp
  | @cons s y ys hy hys ih =>
    cases k with
    | zero =>
      refine List.filter_eq_self.mpr fun x hx => ?_
      have := (Numbered.cons hy hys).lt_key hx
      simpa using this
    | succ k =>
      rw [List.filter_cons_of_neg (by simp; omega), List.drop_succ_cons, ← ih k]
      congr 1
      funext x
      push_cast
      rw [show (s : Int) + (k + 1) = s + 1 + k by omega]

/-- The elements with a number up to the `k`-th are the first `k`. -/
theorem Numbered.filter_le (h : Numbered key s xs) (k : Nat) :
    xs.filter (fun x => key x ≤ (s + k : Int)) = xs.take k := by
  induction h generalizing k with
  | nil => simp
  | @cons s y ys hy hys ih =>
    cases k with
    | zero =>
      simp only [List.take_zero, List.filter_eq_nil_iff]
      intro x hx
      have := (Numbered.cons hy hys).lt_key hx
      simp
      omega
    | succ k =>
      rw [List.filter_cons_of_pos (by simp; omega), List.take_succ_cons, ← ih k]
      congr 2
      funext x
      push_cast
      rw [show (s : Int) + (k + 1) = s + 1 + k by omega]

theorem Numbered.drop (h : Numbered key s xs) (k : Nat) : Numbered key (s + k) (xs.drop k) := by
  induction h generalizing k with
  | nil =>
    rw [List.drop_nil]
    exact .nil
  | @cons s y ys hy hys ih =>
    cases k with
    | zero => exact .cons hy hys
    | succ k =>
      have hrest := ih k
      rwa [show s + 1 + k = s + (k + 1) by omega] at hrest

theorem Numbered.take (h : Numbered key s xs) (k : Nat) : Numbered key s (xs.take k) := by
  induction h generalizing k with
  | nil =>
    rw [List.take_nil]
    exact .nil
  | cons hy _ ih =>
    cases k with
    | zero => exact .nil
    | succ k => exact .cons hy (ih k)

theorem Numbered.key_getElem (h : Numbered key s xs) {j : Nat} (hj : j < xs.length) :
    key xs[j] = s + j + 1 := by
  have htake := h.take (j + 1)
  rw [← List.take_append_getElem hj, numbered_append_singleton, List.length_take,
    Nat.min_eq_left hj.le] at htake
  exact htake.2

/-- A page is the range of numbers it covers. -/
theorem Numbered.filter_page (h : Numbered key 0 xs) (i : Nat) :
    xs.filter (fun x => (size * i : Int) < key x ∧ key x ≤ size * (i + 1)) = page size xs i := by
  have hdrop := h.filter_lt (size * i)
  have hpage := (h.drop (size * i)).filter_le size
  rw [page, ← hpage, ← hdrop, List.filter_filter]
  congr 1
  funext x
  push_cast
  rw [show (size : Int) * (i + 1) = 0 + size * i + size by ring]
  simp [and_comm]

theorem Numbered.key_getLast (h : Numbered key s xs) (hne : xs ≠ []) :
    key (xs.getLast hne) = s + xs.length := by
  obtain ⟨init, last, rfl⟩ : ∃ init last, xs = init ++ [last] :=
    ⟨_, _, (List.dropLast_append_getLast hne).symm⟩
  have hkey := (numbered_append_singleton.mp h).2
  simp only [List.getLast_append_singleton, List.length_append, List.length_singleton]
  push_cast
  omega

end Paging
