import Mathlib

/-!
# Orders of arrival

Items arrive one after the other. Each brings a list of links between keys, its own and others, and
the links are made in the order of the list up to the first that has an end which has not arrived yet.
`links` is what a whole sequence of arrivals makes, and `OrderFree` the condition under which that does
not depend on the order.
-/

namespace Arrival

variable {ι α : Type} [DecidableEq α]

/-- The first links of a list, as long as both ends are known. -/
def admitted (known : List α) (ls : List (α × α)) : List (α × α) :=
  ls.takeWhile fun l => l.1 ∈ known ∧ l.2 ∈ known

variable (key : ι → α) (req : ι → List (α × α))

/-- The links that are made when the items arrive in this order, with `known` there already. -/
def links : List α → List ι → List (α × α)
  | _, [] => []
  | known, x :: xs => admitted (known ++ [key x]) (req x) ++ links (known ++ [key x]) xs

/-- The links an item makes when all others are there. -/
def lasting (xs : List ι) (x : ι) : List (α × α) := admitted (xs.map key) (req x)

/-- The end of a link other than `k`. -/
def far (k : α) (l : α × α) : α := if l.1 = k then l.2 else l.1

/-- The order of arrival does not matter: both ends of a link ask for it, no item has links with two
others, and an item with a link to itself lists that first. -/
structure OrderFree (xs : List ι) : Prop where
  both : ∀ x ∈ xs, ∀ y ∈ xs, ∀ l ∈ lasting key req xs x, far (key x) l = key y →
    l ∈ lasting key req xs y
  single : ∀ x ∈ xs, ∀ l ∈ lasting key req xs x, ∀ l' ∈ lasting key req xs x,
    far (key x) l ≠ key x → far (key x) l' ≠ key x → far (key x) l = far (key x) l'
  selfFirst : ∀ x ∈ xs, (key x, key x) ∈ lasting key req xs x →
    (lasting key req xs x).head? = some (key x, key x)

end Arrival
