import Zif.Go.Basic
import Zif.Lib.Buffered

/-!
# Decoders that fail

A `Decoder` is a `Parse` that returns a value, an error or a panic. Running out of input is not among
these: it ends the `Parse` itself.

`outcome` is what a decoder comes to on a list of bytes, and what it leaves of the list. An encoding is
read (`Decodes`) when the decoder gives the value and leaves whatever follows the encoding.
-/

namespace Buffered.Parse

variable {β α γ : Type}

/-- Goes on with what was returned. -/
def bind : Parse β α → (α → Parse β γ) → Parse β γ
  | done a, f => f a
  | fail, _ => fail
  | byte next, f => byte fun b => (next b).bind f
  | peek next, f => peek fun b => (next b).bind f
  | full n next, f => full n fun bs => (next bs).bind f

instance : Monad (Parse β) where
  pure := done
  bind := bind

end Buffered.Parse

namespace Decoding

open Go Buffered

/-- A decoder of bytes. -/
abbrev Decoder (α : Type) : Type := ExceptT Fault (Parse UInt8) α

variable {α : Type}

/-- The next byte. -/
def readByte : Decoder UInt8 := ExceptT.mk (.byte fun b => .done (.ok b))

/-- The next byte, which stays. -/
def peekByte : Decoder UInt8 := ExceptT.mk (.peek fun b => .done (.ok b))

/-- The next `n` bytes. -/
def readN (n : Nat) : Decoder Bytes := ExceptT.mk (.full n fun bs => .done (.ok bs))

/-- There is no more input. -/
def endOfInput : Decoder α := ExceptT.mk .fail

/-- One after the other, `n` times. -/
def times : (n : Nat) → Decoder Unit → Decoder Unit
  | 0, _ => pure ()
  | n + 1, d => do
    d
    times n d

/-- What a decoder comes to on a list, and the rest of the list; `none` when there is too little of it. -/
def outcome (d : Decoder α) (bs : Bytes) : Option (Result α × Bytes) := d.run.on bs

/-- The bytes are read as `a`, whatever follows them. -/
def Decodes (d : Decoder α) (bs : Bytes) (a : α) : Prop :=
  ∀ rest, outcome d (bs ++ rest) = some (.ok a, rest)

/-- On the bytes the decoder comes to `r`, whatever follows them: they are read, or there is a fault somewhere in
them. -/
def Comes (d : Decoder α) (bs : Bytes) (r : Result α) : Prop :=
  ∀ rest, ∃ rest', outcome d (bs ++ rest) = some (r, rest') ∧ ∀ a, r = .ok a → rest' = rest

/-- On no input does the decoder panic. -/
def Safe (d : Decoder α) : Prop := ∀ bs rest, outcome d bs ≠ some (.error .panic, rest)

end Decoding
