import Mathlib

/-!
# Paging

A list cut into pages of a fixed size. When the elements carry consecutive numbers, a page can also
be found by its range of numbers, which is how a table of rows is paged.
-/

namespace Paging

variable {α : Type}

/-- The number of pages of `size` elements that `n` elements take. -/
def count (size n : Nat) : Nat := (n + size - 1) / size

/-- Page `i`. -/
def page (size : Nat) (xs : List α) (i : Nat) : List α := (xs.drop (size * i)).take size

/-- The elements are numbered one by one, the first with `s + 1`. -/
inductive Numbered (key : α → Int) : Nat → List α → Prop
  | nil {s : Nat} : Numbered key s []
  | cons {s : Nat} {x : α} {xs : List α} :
      key x = s + 1 → Numbered key (s + 1) xs → Numbered key s (x :: xs)

end Paging
