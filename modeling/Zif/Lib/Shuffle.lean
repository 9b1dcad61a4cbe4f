import Mathlib

/-!
# Shuffling in place

A list is shuffled in one pass: each element changes places with one at or before its own position,
which is drawn.
-/

namespace Shuffle

variable {α : Type}

/-- The elements at the positions `i` and `j` change places. -/
def swap (l : List α) (i j : Nat) : List α :=
  match l[i]?, l[j]? with
  | some a, some b => (l.set i b).set j a
  | _, _ => l

/-- The pass over the first `n` elements. -/
def shuffleTo (draw : Nat → Nat) (l : List α) : (n : Nat) → List α
  | 0 => l
  | n + 1 => swap (shuffleTo draw l n) n (draw n % (n + 1))

/-- The whole pass. A number that is drawn at position `i` is taken to be at most `i`. -/
def shuffle (draw : Nat → Nat) (l : List α) : List α := shuffleTo draw l l.length

end Shuffle
