import Zif.Go.Slice

/-!
# Proofs: slices

What `append` leaves in the slice it returns, and which backing arrays it leaves alone: only the
array of the slice appended to can change, and only behind the end of that slice.
-/

namespace Go.Heap

variable {α : Type} {h : Heap α} {s : Slice} {xs : List α} {p : Nat}

/-! ## Allocation -/

theorem array_alloc_of_lt (hp : p < h.arrays.length) : (h.alloc xs).2.array p = h.array p := by
  simp [alloc, array, List.getD_eq_getElem?_getD, List.getElem?_append_left hp]

@[simp] theorem array_alloc_self : (h.alloc xs).2.array h.arrays.length = xs := by
  simp [alloc, array, List.getD_eq_getElem?_getD]

@[simp] theorem view_alloc_self : (h.alloc xs).2.view (h.alloc xs).1 = xs := by
  have : (h.alloc xs).2.array (h.alloc xs).1.ptr = xs := array_alloc_self
  rw [view, this]
  simp [alloc]

theorem view_alloc_of_lt (hs : s.ptr < h.arrays.length) : (h.alloc xs).2.view s = h.view s := by
  rw [view, view, array_alloc_of_lt hs]

@[simp] theorem length_alloc : (h.alloc xs).2.arrays.length = h.arrays.length + 1 := by
  simp [alloc]

theorem valid_alloc_self (h : Heap α) (xs : List α) : (h.alloc xs).2.Valid (h.alloc xs).1 := by
  constructor
  · simp [alloc]
  · have : (h.alloc xs).2.array (h.alloc xs).1.ptr = xs := array_alloc_self
    rw [this]
    simp [alloc]

/-! ## Writing -/

@[simp] theorem length_write {n : Nat} : (h.write p n xs).arrays.length = h.arrays.length := by
  simp [write]

theorem array_write_of_ne {q n : Nat} (hq : q ≠ p) : (h.write p n xs).array q = h.array q := by
  simp [write, array, List.getD_eq_getElem?_getD, List.getElem?_set_ne hq.symm]

theorem array_write_self {n : Nat} (hp : p < h.arrays.length) :
    (h.write p n xs).array p =
      (h.array p).take n ++ xs ++ (h.array p).drop (n + xs.length) := by
  simp [write, array, List.getD_eq_getElem?_getD, hp]

/-- Writing within an array does not change its length. -/
theorem length_array_write {n : Nat} (hp : p < h.arrays.length)
    (hfits : n + xs.length ≤ (h.array p).length) :
    ((h.write p n xs).array p).length = (h.array p).length := by
  rw [array_write_self hp]
  simp only [List.length_append, List.length_take, List.length_drop]
  omega

/-! ## Appending -/

theorem Valid.length_view (hs : h.Valid s) : (h.view s).length = s.len := by
  simp only [view, List.length_take]
  exact Nat.min_eq_left hs.2

/-- The slice that `append` returns holds the old elements and the new ones. -/
theorem view_append (hs : h.Valid s) :
    (h.append s xs).2.view (h.append s xs).1 = h.view s ++ xs := by
  unfold append
  split
  · rename_i hroom
    have hlen : (h.array s.ptr).take s.len ++ xs ++ (h.array s.ptr).drop (s.len + xs.length) =
        (h.view s ++ xs) ++ (h.array s.ptr).drop (s.len + xs.length) := rfl
    rw [view, array_write_self hs.1, hlen]
    exact List.take_left' (by rw [List.length_append, hs.length_view])
  · simp

/-- `append` leaves every array but that of its first argument alone. -/
theorem array_append_of_ne (hp : p < h.arrays.length) (hne : p ≠ s.ptr) :
    (h.append s xs).2.array p = h.array p := by
  unfold append
  split
  · exact array_write_of_ne hne
  · exact array_alloc_of_lt hp

/-- With room in the backing array, `append` works in place. -/
theorem append_of_room (hroom : s.len + xs.length ≤ (h.array s.ptr).length) :
    h.append s xs = (⟨s.ptr, s.len + xs.length⟩, h.write s.ptr s.len xs) := by
  rw [append, if_pos hroom]

theorem length_le_append (h : Heap α) (s : Slice) (xs : List α) :
    h.arrays.length ≤ (h.append s xs).2.arrays.length := by
  unfold append
  split <;> simp

theorem valid_append (hs : h.Valid s) : (h.append s xs).2.Valid (h.append s xs).1 := by
  unfold append
  split
  · rename_i hroom
    refine ⟨by simpa using hs.1, ?_⟩
    show s.len + xs.length ≤ ((h.write s.ptr s.len xs).array s.ptr).length
    rw [array_write_self hs.1]
    simp only [List.length_append, List.length_take, List.length_drop]
    omega
  · exact valid_alloc_self _ _

/-- A slice stays valid, with the same elements, when its array is left alone. -/
theorem Valid.of_array_eq {h' : Heap α} (hs : h.Valid s)
    (hlen : h.arrays.length ≤ h'.arrays.length) (harr : h'.array s.ptr = h.array s.ptr) :
    h'.Valid s ∧ h'.view s = h.view s := by
  refine ⟨⟨by have := hs.1; omega, by rw [harr]; exact hs.2⟩, ?_⟩
  rw [view, view, harr]

end Go.Heap

namespace Go.Buffer

variable {α : Type} {b b' : Buffer α} {xs : List α} {lo hi : Nat}

@[simp] theorem length_view (b : Buffer α) : b.view.length = b.len := by
  have := b.len_le
  simp [view, this]

@[simp] theorem view_empty : (empty : Buffer α).view = [] := rfl

@[simp] theorem len_append (grow : Nat → Nat) (zero : α) (b : Buffer α) (xs : List α) :
    (b.append grow zero xs).len = b.len + xs.length := by
  unfold append
  split <;> simp

@[simp] theorem view_append (grow : Nat → Nat) (zero : α) (b : Buffer α) (xs : List α) :
    (b.append grow zero xs).view = b.view ++ xs := by
  have hlen := b.length_view
  unfold append
  split
  · rename_i hroom
    show List.take (b.len + xs.length) (b.array.take b.len ++ xs ++ b.array.drop _) = b.view ++ xs
    have hused : (b.array.take b.len ++ xs).length = b.len + xs.length := by
      rw [List.length_append]
      exact congrArg (· + xs.length) hlen
    rw [← hused, List.take_left']
    · rfl
    · rfl
  · exact List.take_left' rfl

theorem exists_truncate {n : Nat} (h : n ≤ b.array.length) :
    ∃ b', b.truncate n = some b' ∧ b'.array = b.array ∧ b'.len = n := by
  rw [truncate, dif_pos h]
  exact ⟨_, rfl, rfl, rfl⟩

theorem delete_eq_none {n : Nat} (h : b.len ≤ n) : b.delete n = none := by
  rw [delete, dif_neg (by omega)]

/-- The rest moves up by one, and the last element of the slice is left behind it. -/
theorem exists_delete {front rest tail : List α} {x last : α} (harray : b.array = front ++ x :: rest ++ tail)
    (hlen : b.len = front.length + (rest.length + 1)) (hlast : (x :: rest).getLast? = some last) :
    ∃ b', b.delete front.length = some b' ∧ b'.array = front ++ rest ++ last :: tail ∧
      b'.len = front.length + rest.length := by
  obtain ⟨init, hinit⟩ := List.getLast?_eq_some_iff.mp hlast
  have hview : b.view = front ++ x :: rest := by
    rw [view, harray, hlen]
    exact List.take_left' (by simp)
  have hfront : b.array.take front.length = front := by
    rw [harray, List.append_assoc]
    exact List.take_left' rfl
  have hmoved : b.view.drop (front.length + 1) = rest := by
    rw [hview, ← List.drop_drop, List.drop_left' rfl, List.drop_one, List.tail_cons]
  have hleft : b.array.drop (b.len - 1) = last :: tail := by
    have hinitlen : init.length = rest.length := by
      have := congrArg List.length hinit
      simpa using this.symm
    rw [harray, hinit, hlen, ← List.append_assoc, List.append_assoc]
    exact List.drop_left' (by simp [hinitlen])
  rw [delete, dif_pos (by omega)]
  refine ⟨_, rfl, ?_, by simp [hlen]⟩
  show b.array.take front.length ++ b.view.drop (front.length + 1) ++ b.array.drop (b.len - 1) = _
  rw [hfront, hmoved, hleft]

theorem len_copyAt (h : b.copyAt lo hi xs = some b') : b'.len = b.len := by
  unfold copyAt at h
  split at h
  · injection h with h
    rw [← h]
  · cases h

/-- Overwriting a range within the slice. -/
theorem exists_copyAt (hlo : lo ≤ hi) (hhi : hi ≤ b.len) (hxs : xs.length = hi - lo) :
    ∃ b', b.copyAt lo hi xs = some b' ∧ b'.view = b.view.take lo ++ xs ++ b.view.drop hi := by
  have hcap := b.len_le
  have htake : xs.take (hi - lo) = xs := by rw [← hxs, List.take_length]
  rw [copyAt, dif_pos ⟨hlo, by omega⟩]
  refine ⟨_, rfl, ?_⟩
  show List.take b.len (b.array.take lo ++ (xs.take (hi - lo) ++ _)) = _
  rw [htake, List.drop_drop, hxs, Nat.add_sub_cancel' hlo, view, List.take_take,
    Nat.min_eq_left (by omega), List.drop_take, ← List.append_assoc, List.take_append]
  have hfront : (b.array.take lo ++ xs).length = hi := by
    simp only [List.length_append, List.length_take]
    omega
  rw [hfront, List.take_of_length_le (by omega)]

/-- A slice expression within the slice. -/
theorem sliceAt_eq (hlo : lo ≤ hi) (hhi : hi ≤ b.len) :
    b.sliceAt lo hi = some ((b.view.drop lo).take (hi - lo)) := by
  have hcap := b.len_le
  rw [sliceAt, if_pos ⟨hlo, by omega⟩, view, List.drop_take, List.take_take,
    Nat.min_eq_left (by omega)]

/-- A range that ends beyond the capacity is a panic. -/
theorem copyAt_eq_none (h : b.array.length < hi) : b.copyAt lo hi xs = none := by
  rw [copyAt, dif_neg (by omega)]

end Go.Buffer
