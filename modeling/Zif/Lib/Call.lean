import Zif.Lib.Session

/-!
# Calls over a session

One party sends a message and reads what comes back. The other reads messages in a loop, and for each one
sends what there is to send and closes its end.
-/

namespace Proc

variable {M α β σ : Type}

/-- Sends the messages one after the other, whether or not that succeeds. -/
def sendAll : List M → Proc M α → Proc M α
  | [], p => p
  | m :: ms, p => .write m fun _ => sendAll ms p

/-- Sends a message and reads the reply. -/
def exchange (m : M) (unsent : α) (answer : Option M → α) : Proc M α :=
  .write m fun ok => if ok then .read fun reply => .done (answer reply) else .done unsent

/-- Closes the end when the program has returned. -/
def closing (p : Proc M α) : Proc M α := p.bind fun a => .close (.done a)

/-- Handles the messages that come, at most `fuel` of them, and closes the end after each one. What
`handle` has no result for ends the loop, as does the end of the stream. -/
def serve (handle : σ → M → Option (σ × List M)) : (fuel : Nat) → σ → Proc M σ
  | 0, s => .done s
  | fuel + 1, s => .read fun m =>
    match m.bind (handle s) with
    | none => .done s
    | some (s', out) => sendAll out (.close (serve handle fuel s'))

end Proc

namespace Session

variable {M α β : Type}

/-- In every order of the steps both parties return, with these results. -/
def Settles (s : Session M α β) (a : α) (b : β) : Prop :=
  ∃ n, ∀ k u, Steps Step k s u → ∃ m t, n = k + m ∧ Steps Step m u t ∧ t.Returned a b

end Session
