import Mathlib

/-!
# Go slices over shared backing arrays

A slice value is a window onto a backing array; copying the value copies the window, not the array.
Two slice values can therefore share an array, and a write through one is seen through the other.
What matters for the programs modelled here:

* `append(s, xs...)` writes behind the end of `s` *in place* when the backing array has room, and
  moves to a fresh array when it has not;
* `for _, x := range s` fixes the window once but reads each element when its turn comes.

Every slice here starts at index 0 of its array, so a window is an array together with a length; the
capacity is the length of the array. The arguments `xs` of `append` are values that were read before
anything is written, which is how `append` treats an overlapping source.

`Buffer` is the same thing for a slice that no other slice shares its array with.
-/

namespace Go

variable {α : Type}

/-- The backing arrays allocated so far; an array is addressed by its allocation number. -/
structure Heap (α : Type) where
  /-- The arrays, oldest first. -/
  arrays : List (List α)
  deriving DecidableEq, Repr

/-- A slice value: a window of `len` elements onto the array `ptr`. -/
structure Slice where
  /-- The backing array. -/
  ptr : Nat
  /-- The length of the window. -/
  len : Nat
  deriving DecidableEq, Repr

namespace Heap

/-- The backing array with address `p`. -/
def array (h : Heap α) (p : Nat) : List α := h.arrays.getD p []

/-- The elements seen through a slice. -/
def view (h : Heap α) (s : Slice) : List α := (h.array s.ptr).take s.len

/-- `s[n]`, reading the array as it is now; `none` is an index out of range. -/
def read (h : Heap α) (s : Slice) (n : Nat) : Option α := (h.view s)[n]?

/-- A fresh slice that holds `xs`. -/
def alloc (h : Heap α) (xs : List α) : Slice × Heap α :=
  (⟨h.arrays.length, xs.length⟩, ⟨h.arrays ++ [xs]⟩)

/-- Overwrites the array `p` from index `n` on with `xs`. -/
def write (h : Heap α) (p n : Nat) (xs : List α) : Heap α :=
  ⟨h.arrays.set p ((h.array p).take n ++ xs ++ (h.array p).drop (n + xs.length))⟩

/-- `append(s, xs...)`. -/
def append (h : Heap α) (s : Slice) (xs : List α) : Slice × Heap α :=
  if s.len + xs.length ≤ (h.array s.ptr).length then
    (⟨s.ptr, s.len + xs.length⟩, h.write s.ptr s.len xs)
  else
    h.alloc (h.view s ++ xs)

/-- A slice is valid when its array exists and is long enough for its window. -/
def Valid (h : Heap α) (s : Slice) : Prop :=
  s.ptr < h.arrays.length ∧ s.len ≤ (h.array s.ptr).length

end Heap

/-- A slice that owns its backing array: `len` elements of `array` are in use, the rest is spare
capacity. -/
structure Buffer (α : Type) where
  /-- The backing array, as long as the capacity. -/
  array : List α
  /-- The number of elements in use. -/
  len : Nat
  /-- The window lies within the array. -/
  len_le : len ≤ array.length

namespace Buffer

/-- The elements of the slice. -/
def view (b : Buffer α) : List α := b.array.take b.len

/-- `make([]T, 0)`. -/
def empty : Buffer α := ⟨[], 0, Nat.le_refl 0⟩

/-- A slice without spare capacity. -/
def ofList (xs : List α) : Buffer α := ⟨xs, xs.length, Nat.le_refl _⟩

/-- `append(b, xs...)`. A fresh array gets the capacity `grow` asks for, but at least what is
needed, with `zero` in the spare part. -/
def append (grow : Nat → Nat) (zero : α) (b : Buffer α) (xs : List α) : Buffer α :=
  if h : b.len + xs.length ≤ b.array.length then
    ⟨b.array.take b.len ++ xs ++ b.array.drop (b.len + xs.length), b.len + xs.length, by
      have := b.len_le
      simp
      omega⟩
  else
    let used := b.view ++ xs
    ⟨used ++ List.replicate (grow used.length - used.length) zero, used.length, by simp⟩

/-- `make([]T, 0, n)`. -/
def make (zero : α) (n : Nat) : Buffer α := ⟨List.replicate n zero, 0, Nat.zero_le _⟩

/-- `b[:n]`, which may also be longer than `b`; `none` is the panic when `n` is beyond the capacity. -/
def truncate (b : Buffer α) (n : Nat) : Option (Buffer α) :=
  if h : n ≤ b.array.length then some ⟨b.array, n, h⟩ else none

/-- `append(b[:n], b[n+1:]...)`: what is behind index `n` moves up, and the last element stays where it was
too. There is always room for it; `none` is the panic when `n` is not an index. -/
def delete (b : Buffer α) (n : Nat) : Option (Buffer α) :=
  if h : n < b.len then
    some ⟨b.array.take n ++ b.view.drop (n + 1) ++ b.array.drop (b.len - 1), b.len - 1, by
      have := b.len_le
      simp [view]
      omega⟩
  else none

/-- `b[lo:hi]`, with the same bounds as below. -/
def sliceAt (b : Buffer α) (lo hi : Nat) : Option (List α) :=
  if lo ≤ hi ∧ hi ≤ b.array.length then some ((b.array.drop lo).take (hi - lo)) else none

/-- `copy(b[lo:hi], xs)`. The bounds of a slice expression are checked against the *capacity*, not
the length; `none` is the panic when they are out of range. -/
def copyAt (b : Buffer α) (lo hi : Nat) (xs : List α) : Option (Buffer α) :=
  if h : lo ≤ hi ∧ hi ≤ b.array.length then
    some ⟨b.array.take lo ++ (xs.take (hi - lo) ++ (b.array.drop lo).drop (xs.take (hi - lo)).length),
      b.len, by
        have := b.len_le
        simp
        omega⟩
  else
    none

end Buffer

end Go
