import Mathlib

/-!
# Recency lists

Objects are identified by a key. `recent` is the abstract notion: the repeat-free list of everything
used so far, most recently used first. `touch` is a bounded implementation of it: it keeps at most
`cap` objects, moves an object that is present to the front, and drops the last one to make room for
an object that is not.
-/

namespace Recency

variable {α κ : Type} [DecidableEq κ] (key : α → κ)

/-- Moves `a` to the front: the old object with its key, if there is one, is dropped. -/
def promote (l : List α) (a : α) : List α := a :: l.filter fun x => key x ≠ key a

/-- The repeat-free, most-recent-first list of the objects used, given in order of use. -/
def recent (uses : List α) : List α := uses.foldl (promote key) []

/-- The bounded implementation of `promote`. -/
def touch (cap : Nat) (l : List α) (a : α) : List α :=
  match l.findIdx? fun x => key x = key a with
  | some n => a :: (l.take n ++ l.drop (n + 1))
  | none => a :: (if l.length = cap then l.take (l.length - 1) else l)

/-- No two objects of `l` have the same key. -/
def Distinct (l : List α) : Prop := (l.map key).Nodup

/-- What a loop by position sees when its first step moves the objects behind position 0 one place
down, in place: the second object is skipped and the last one is met twice. -/
def shifted : List α → List α
  | [] => []
  | a :: l => a :: (l ++ l.getLast?.toList).tail

/-- The order in which a walk leaves a list when it promotes each object it meets. -/
def walkOver {κ : Type} [DecidableEq κ] (l : List κ) : List κ := (shifted l).foldl (promote id) l

end Recency
