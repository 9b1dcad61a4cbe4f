import Mathlib

/-!
# Sessions between two parties

Two programs talk over a connection that keeps the order of messages and loses none. A program
(`Proc`) reads, writes and closes; between that it computes. Each end can be closed by its owner: the
other end first reads what is still under way and then meets the end of the stream. A write is taken by
the local end of the connection, so it fails only on an end that was closed there; that the other end
is closed shows at the next read.

`Session.Step` is one step of either party, in any order.
-/

/-- A program that talks over a connection and returns an `α`. -/
inductive Proc (M α : Type) : Type where
  /-- It returns. -/
  | done (result : α)
  /-- It waits for a message; `none` is an error, at the end of the stream or on a closed end. -/
  | read (next : Option M → Proc M α)
  /-- It sends a message, and is told whether that succeeded. -/
  | write (m : M) (next : Bool → Proc M α)
  /-- It closes its end. -/
  | close (next : Proc M α)

namespace Proc

variable {M α β : Type}

/-- Goes on with what was returned. -/
def bind : Proc M α → (α → Proc M β) → Proc M β
  | done a, f => f a
  | read next, f => read fun m => (next m).bind f
  | write m next, f => write m fun ok => (next ok).bind f
  | close next, f => close (next.bind f)

instance : Monad (Proc M) where
  pure := done
  bind := bind

/-- Runs with reads that are answered by `answer`, which has a state of its own, until the end is closed.
The state comes with the result, and whether the end is closed. -/
def runWith {σ : Type} (answer : σ → Option M × σ) : Proc M α → (closed : Bool) → σ → α × Bool × σ
  | done a, closed, s => (a, closed, s)
  | read next, true, s => (next none).runWith answer true s
  | read next, false, s => (next (answer s).1).runWith answer false (answer s).2
  | write _ next, closed, s => (next (!closed)).runWith answer closed s
  | close next, _, s => next.runWith answer true s

/-- A step of a party: the messages that wait for it, whether its end is closed, and whether the other
end is. It gives what is left of the program, the messages that still wait, those that are sent, and
whether its end is closed then; `none` when it has returned or has to wait. -/
def advance : Proc M α → List M → Bool → Bool → Option (Proc M α × List M × List M × Bool)
  | done _, _, _, _ => none
  | close next, inbox, _, _ => some (next, inbox, [], true)
  | write m next, inbox, closed, _ => some (next (!closed), inbox, if closed then [] else [m], closed)
  | read next, inbox, true, _ => some (next none, inbox, [], true)
  | read next, m :: inbox, false, _ => some (next (some m), inbox, [], false)
  | read next, [], false, true => some (next none, [], [], false)
  | read _, [], false, false => none

end Proc

/-- Two programs, the messages under way in each direction, and which ends are closed. -/
structure Session (M α β : Type) where
  left : Proc M α
  right : Proc M β
  toLeft : List M
  toRight : List M
  leftClosed : Bool
  rightClosed : Bool

namespace Session

variable {M α β : Type}

/-- A fresh connection. -/
def start (left : Proc M α) (right : Proc M β) : Session M α β := ⟨left, right, [], [], false, false⟩

/-- The two parties in the other order. -/
def swap (s : Session M α β) : Session M β α :=
  ⟨s.right, s.left, s.toRight, s.toLeft, s.rightClosed, s.leftClosed⟩

/-- The left party takes a step. -/
def StepLeft (s t : Session M α β) : Prop :=
  ∃ p inbox out closed,
    s.left.advance s.toLeft s.leftClosed s.rightClosed = some (p, inbox, out, closed) ∧
      t = ⟨p, s.right, inbox, s.toRight ++ out, closed, s.rightClosed⟩

/-- One of the parties takes a step. -/
def Step (s t : Session M α β) : Prop := s.StepLeft t ∨ s.swap.StepLeft t.swap

/-- Both parties have returned. -/
def Returned (s : Session M α β) (a : α) (b : β) : Prop := s.left = .done a ∧ s.right = .done b

end Session

/-! ## Counted steps -/

/-- A chain of `n` steps of a relation. -/
inductive Steps {σ : Type} (r : σ → σ → Prop) : Nat → σ → σ → Prop where
  | refl (s : σ) : Steps r 0 s s
  | cons {n : Nat} {s t u : σ} : r s t → Steps r n t u → Steps r (n + 1) s u
