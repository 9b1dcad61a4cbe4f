import Mathlib

/-!
# Depth-first traversal

A traversal of a graph that is given by the list of successors of a node. It reports the nodes and the arcs
that it meets, and remembers them in two sets. An arc that it has met is skipped; at the end of a new arc it
goes on if the node there is not marked, which it marks before. The node it is started at is reported, but
not marked.
-/

namespace Traversal

open Relation

variable {α : Type}

/-- What has been met. An arc is a pair of its end and its start. -/
structure State (α : Type) where
  marked : Finset α
  arcs : Finset (α × α)

/-- What is reported. -/
structure Report (α : Type) where
  nodes : List α
  arcs : List (α × α)

variable [DecidableEq α]

/-- The arc from `x` to `y`, with `self` to go on from `y`. -/
def follow (self : α → State α → Option (State α × Report α)) (x y : α) (s : State α) (out : Report α) :
    Option (State α × Report α) :=
  if (y, x) ∈ s.arcs then some (s, out)
  else if y ∈ s.marked then
    some (⟨s.marked, insert (y, x) s.arcs⟩, ⟨out.nodes, out.arcs ++ [(y, x)]⟩)
  else
    (self y ⟨insert y s.marked, insert (y, x) s.arcs⟩).map fun r =>
      (r.1, ⟨out.nodes ++ [y] ++ r.2.nodes, out.arcs ++ [(y, x)] ++ r.2.arcs⟩)

/-- The arcs from `x` to the nodes of a list. -/
def followAll (self : α → State α → Option (State α × Report α)) (x : α) :
    List α → State α → Report α → Option (State α × Report α)
  | [], s, out => some (s, out)
  | y :: ys, s, out => (follow self x y s out).bind fun r => followAll self x ys r.1 r.2

/-- The traversal from `x` on; `none` when it goes deeper than `fuel` allows. -/
def visit (next : α → List α) : Nat → α → State α → Option (State α × Report α)
  | 0, _, _ => none
  | fuel + 1, x, s =>
    followAll (visit next fuel) x (next x) s ⟨if x ∈ s.marked then [] else [x], []⟩

/-- There is an arc from one node to the other. -/
def Arc (next : α → List α) (x y : α) : Prop := y ∈ next x

end Traversal
