import Mathlib

/-!
# Ranking by a key

A list in descending order of a key. Elements with the same key stay in the order they were in.
-/

namespace Ranking

variable {α : Type}

/-- The elements with the largest key first. -/
def byKey (key : α → Int) (l : List α) : List α := l.insertionSort fun a b => key b ≤ key a

end Ranking
