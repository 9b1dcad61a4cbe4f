import Zif.Go.Basic

/-!
# Channels

A channel holds values up to its capacity. A receiver that finds it empty blocks; how many do is part of
the state, since a send goes ahead when there is one.
-/

namespace Go

/-- A channel. -/
structure Chan (α : Type) where
  capacity : Nat
  buffer : List α
  /-- The receivers that are blocked. -/
  receivers : Nat
  closed : Bool
  deriving DecidableEq, Repr

namespace Chan

variable {α : Type}

/-- `make(chan T, capacity)`. -/
def make (capacity : Nat) : Chan α := ⟨capacity, [], 0, false⟩

/-- A send does not block. -/
def canSend (c : Chan α) : Bool :=
  c.closed || 0 < c.receivers || c.buffer.length < c.capacity

/-- A send that does not block: a receiver takes the value, or it stays in the channel. -/
def send (c : Chan α) (a : α) : Result (Chan α) :=
  if c.closed then .error .panic
  else if 0 < c.receivers then .ok { c with receivers := c.receivers - 1 }
  else .ok { c with buffer := c.buffer ++ [a] }

/-- A receive by a goroutine that drops the value. -/
def receive (c : Chan α) : Chan α :=
  match c.buffer with
  | _ :: rest => { c with buffer := rest }
  | [] => if c.closed then c else { c with receivers := c.receivers + 1 }

/-- `close`: every blocked receiver returns. -/
def close (c : Chan α) : Result (Chan α) :=
  if c.closed then .error .panic else .ok { c with receivers := 0, closed := true }

end Chan

end Go
