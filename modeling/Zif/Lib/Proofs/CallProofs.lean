import Zif.Lib.Call
import Zif.Lib.Proofs.SessionProofs

/-!
# Proofs: calls over a session

A call is one application of the handler: in every order of the steps the caller gets the first of the
messages that are sent back, or meets the end of the stream if there are none (`settles_call`).
-/

open Proc

namespace Session

variable {M α β σ : Type}

/-- One way of running is enough. -/
theorem settles_of_runs {s t : Session M α β} {a : α} {b : β} (h : s.Runs t) (ht : t.Returned a b) :
    s.Settles a b := by
  obtain ⟨n, hn⟩ := h
  refine ⟨n, fun k u hu => ?_⟩
  obtain ⟨m, hm, hsteps⟩ := runs_alike hn ht hu
  exact ⟨m, t, hm, hsteps, ht⟩

/-- The right party sends without waiting for the left one. -/
theorem runs_sendAll (left : Proc M α) (p : Proc M β) (out inbox toRight : List M) (closed : Bool) :
    Runs ⟨left, sendAll out p, inbox, toRight, closed, false⟩
      ⟨left, p, inbox ++ out, toRight, closed, false⟩ := by
  induction out generalizing inbox with
  | nil =>
    rw [List.append_nil]
    exact .refl _
  | cons m out ih =>
    have hrest := ih (inbox ++ [m])
    rw [List.append_assoc] at hrest
    exact .step (.inr ⟨_, _, _, _, rfl, rfl⟩) hrest

/-- The right party closes its end, and so its next read fails. -/
theorem runs_close_read (left : Proc M α) (next : Option M → Proc M β) (out : List M) :
    Runs ⟨left, .close (.read next), out, [], false, false⟩ ⟨left, next none, out, [], false, true⟩ := by
  refine .step (t := ⟨left, .read next, out, [], false, true⟩) (.inr ⟨_, _, _, _, rfl, ?_⟩)
    (.step (.inr ⟨_, _, _, _, rfl, ?_⟩) (.refl _))
  · simp [swap]
  · simp [swap]

/-- The left party reads the first message, or the end of the stream. -/
theorem runs_read_head (next : Option M → Proc M α) (right : Proc M β) (out : List M) :
    Runs ⟨.read next, right, out, [], false, true⟩ ⟨next out.head?, right, out.tail, [], false, true⟩ := by
  cases out with
  | nil => exact .step (.inl ⟨_, _, _, _, rfl, rfl⟩) (.refl _)
  | cons m out => exact .step (.inl ⟨_, _, _, _, rfl, rfl⟩) (.refl _)

/-- A server reads, and goes on as the handler says. -/
theorem exists_serve (handle : σ → M → Option (σ × List M)) (fuel : Nat) (s : σ) :
    ∃ next, serve handle (fuel + 1) s = .read next ∧ ∀ m s' out, handle s m = some (s', out) →
      next (some m) = sendAll out (.close (serve handle fuel s')) := by
  refine ⟨_, rfl, fun m s' out hm => ?_⟩
  simp only [Option.bind_some, hm]

/-- **A call is one application of the handler.** -/
theorem settles_call {handle : σ → M → Option (σ × List M)} {s s' : σ} {m : M} {out : List M}
    (hm : handle s m = some (s', out)) {next : Bool → Proc M α} {answer : Option M → α}
    (hnext : next true = .read fun reply => .done (answer reply)) (fuel : Nat) :
    (start (Proc.write m next).closing (serve handle (fuel + 2) s)).Settles (answer out.head?) s' := by
  have hrequest : Runs (start (Proc.write m next).closing (serve handle (fuel + 2) s))
      (start (.read fun reply => .close (.done (answer reply)))
        (sendAll out (.close (serve handle (fuel + 1) s')))) := by
    obtain ⟨served, hserve, hserved⟩ := exists_serve handle (fuel + 1) s
    have hread := @runs_message_right M α σ m (fun ok => (next ok).closing) served
    rw [hserved m s' out hm, hnext] at hread
    rw [hserve]
    exact hread
  have hreplies := runs_sendAll (.read fun reply => .close (.done (answer reply)))
    (.close (serve handle (fuel + 1) s')) out [] [] false
  refine settles_of_runs (t := ⟨.done (answer out.head?), .done s', out.tail, [], true, true⟩)
    (hrequest.trans (hreplies.trans ?_)) ⟨rfl, rfl⟩
  refine (runs_close_read _ _ out).trans ((runs_read_head _ _ out).trans ?_)
  exact .step (.inl ⟨_, _, _, _, rfl, rfl⟩) (.refl _)

end Session
