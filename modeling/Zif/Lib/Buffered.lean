import Mathlib

/-!
# Reading through a buffer

A decoder (`Parse`) asks for single elements, looks at the next one, or asks for a number of them at
once. On a list (`Parse.on`) it is clear how much of it the decoder needs.

Here it reads from a stream that arrives in pieces, through a buffer. The buffer asks the stream for as
much as it can hold, so it can take elements that lie beyond what the decoder needs; they stay in the
buffer (`Reader.buf`), and whoever goes on reading the stream itself does not see them.
-/

namespace Buffered

variable {β α : Type}

/-- A decoder. -/
inductive Parse (β α : Type) : Type where
  /-- It returns. -/
  | done (result : α)
  /-- It gives up. -/
  | fail
  /-- The next element. -/
  | byte (next : β → Parse β α)
  /-- The next element, which is then put back. -/
  | peek (next : β → Parse β α)
  /-- The next `n` elements. -/
  | full (n : Nat) (next : List β → Parse β α)

/-- The result on a list, and the rest of the list. -/
def Parse.on : Parse β α → List β → Option (α × List β)
  | done a, bs => some (a, bs)
  | fail, _ => none
  | byte _, [] => none
  | byte next, b :: bs => (next b).on bs
  | peek _, [] => none
  | peek next, b :: bs => (next b).on (b :: bs)
  | full n next, bs => if n ≤ bs.length then (next (bs.take n)).on (bs.drop n) else none

/-- The request that a decoder ends at for want of elements: how many it asks for, and how many there are. -/
def Parse.lacking : Parse β α → List β → Nat × Nat
  | done _, _ => (0, 0)
  | fail, _ => (1, 0)
  | byte _, [] => (1, 0)
  | byte next, b :: bs => (next b).lacking bs
  | peek _, [] => (1, 0)
  | peek next, b :: bs => (next b).lacking (b :: bs)
  | full n next, bs => if n ≤ bs.length then (next (bs.take n)).lacking (bs.drop n) else (n, bs.length)

/-- The list is exactly what the decoder needs for `a`, whatever follows it. -/
def Encodes (p : Parse β α) (bs : List β) (a : α) : Prop := p.on bs = some (a, [])

/-! ## The buffer -/

/-- A buffer in front of a stream. -/
structure Reader (β : Type) where
  /-- What has been taken from the stream and not been asked for yet. -/
  buf : List β
  /-- How much may still be taken from the stream. -/
  left : Nat
  /-- The pieces that are still to arrive. -/
  src : List (List β)

namespace Reader

/-- All that is still to be read. -/
def all (r : Reader β) : List β := r.buf ++ r.src.flatten

/-- One read of the stream with room for `k` elements: at most one piece, of which the rest stays for the
next read. Nothing is read at the end of the stream, and when nothing more may be taken. -/
def fetch (r : Reader β) (k : Nat) : List β × Reader β :=
  match r.src with
  | [] => ([], r)
  | c :: cs =>
    let n := min k r.left
    (c.take n, ⟨r.buf, r.left - (c.take n).length, if c.length ≤ n then cs else c.drop n :: cs⟩)

variable (size : Nat)

/-- One read into the buffer, if it is empty. -/
def fill (r : Reader β) : Reader β :=
  if r.buf.isEmpty then ⟨(r.fetch size).1, (r.fetch size).2.left, (r.fetch size).2.src⟩ else r

/-- Takes what there is in the buffer, at most `k` elements. -/
def take (r : Reader β) (k : Nat) : List β × Reader β := (r.buf.take k, ⟨r.buf.drop k, r.left, r.src⟩)

/-- A read of at most `k` elements. It goes past an empty buffer when there is as much to read as the
buffer could hold. -/
def read (r : Reader β) (k : Nat) : List β × Reader β :=
  if r.buf.isEmpty && decide (size ≤ k) then r.fetch k else (r.fill size).take k

/-- Reads until there are `k` elements. A read that gives nothing is an error. -/
def readLoop : (fuel : Nat) → Reader β → (k : Nat) → Option (List β) × Reader β
  | _, r, 0 => (some [], r)
  | 0, r, _ + 1 => (none, r)
  | fuel + 1, r, k + 1 =>
    let (bs, r') := r.read size (k + 1)
    if bs.isEmpty then (none, r')
    else
      let (cs, r'') := readLoop fuel r' (k + 1 - bs.length)
      (cs.map (bs ++ ·), r'')

/-- Exactly `k` elements. -/
def readFull (r : Reader β) (k : Nat) : Option (List β) × Reader β := readLoop size k r k

/-- A decoder that reads through the buffer. -/
def run : Parse β α → Reader β → Option α × Reader β
  | .done a, r => (some a, r)
  | .fail, r => (none, r)
  | .byte next, r =>
    match ((r.fill size).take 1).1 with
    | [] => (none, r.fill size)
    | b :: _ => run (next b) ((r.fill size).take 1).2
  | .peek next, r =>
    match (r.fill size).buf with
    | [] => (none, r.fill size)
    | b :: _ => run (next b) (r.fill size)
  | .full n next, r =>
    match (r.readFull size n).1 with
    | none => (none, (r.readFull size n).2)
    | some bs => run (next bs) (r.readFull size n).2

end Reader

end Buffered
