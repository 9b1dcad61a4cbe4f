import Zif.Util.Limiter
import Zif.Lib.Proofs.RunsProofs

/-!
# Proofs: stopping a limiter

`Throttle` is closed only after the goroutine took the message of `Stop` and returned, so nothing is ever
sent on it afterwards (`Inv`). But the goroutine looks at `quit` only after a tick, and `Stop` begins with
stopping the ticker: unless a tick is left over, both wait for ever (`Hung.step`).
-/

namespace Go.Chan

variable {α : Type} {c : Chan α}

theorem send_of_open (h : c.closed = false) (a : α) : ∃ c', c.send a = .ok c' ∧ c'.closed = false ∧
    c'.capacity = c.capacity := by
  unfold send
  rw [if_neg (by simp [h])]
  split
  · exact ⟨_, rfl, h, rfl⟩
  · exact ⟨_, rfl, h, rfl⟩

/-- A send that does not block keeps to the capacity. -/
theorem length_buffer_send {c' : Chan α} {a : α} (hcan : c.canSend = true)
    (hroom : c.buffer.length ≤ c.capacity) (h : c.send a = .ok c') :
    c'.buffer.length ≤ c'.capacity := by
  unfold send at h
  split at h
  · cases h
  · rename_i hopen
    split at h
    · cases h
      exact hroom
    · rename_i hreceivers
      cases h
      simp only [canSend, Bool.or_eq_true, decide_eq_true_eq] at hcan
      simp only [List.length_append, List.length_singleton]
      rcases hcan with (hclosed | hpos) | hlt
      · exact absurd hclosed hopen
      · exact absurd hpos hreceivers
      · omega

theorem receive_closed : c.receive.closed = c.closed := by
  unfold receive
  split
  · rfl
  · split <;> rfl

theorem length_buffer_receive (hroom : c.buffer.length ≤ c.capacity) :
    c.receive.buffer.length ≤ c.receive.capacity := by
  unfold receive
  split
  · rename_i hbuffer
    rw [hbuffer, List.length_cons] at hroom
    exact Nat.le_of_succ_le hroom
  · split <;> exact hroom

end Go.Chan

namespace Zif.Util

open Go Runs

variable {τ : Type}

/-! ## A new limiter -/

/-- The loop fills the channel and never has to wait. -/
theorem fillThrottle_eq (now : Nat → τ) (todo i : Nat) (c : Chan τ) (hopen : c.closed = false)
    (hreceivers : c.receivers = 0) : fillThrottle now todo i c =
      .ok { c with buffer := c.buffer ++ (List.range' i todo).map now } := by
  induction todo generalizing i c with
  | zero => simp [fillThrottle]
  | succ todo ih =>
    have hsend : c.send (now i) = .ok { c with buffer := c.buffer ++ [now i] } := by
      simp [Chan.send, hopen, hreceivers]
    rw [fillThrottle, hsend]
    simp only [bind, Except.bind]
    rw [ih (i + 1) { c with buffer := c.buffer ++ [now i] } hopen hreceivers, List.range'_succ]
    simp

namespace Limiter

/-- What holds between the goroutine, `Stop` and the channels. -/
structure Inv (l : Limiter τ) : Prop where
  alive : l.crashed = false
  ticking : l.ticking = true ↔ l.stopping = .idle
  closed : l.throttle.closed = true ↔ l.stopping = .returned
  quit : l.refill = .returned ↔ l.stopping = .sent ∨ l.stopping = .returned
  room : l.throttle.buffer.length ≤ l.throttle.capacity

variable {l : Limiter τ}

/-- A new limiter: the tokens fit into the channel, the goroutine waits for the first tick. -/
theorem newLimiter_eq_ok {rate burst : Int64} {fill : Bool} {now : Nat → τ}
    (h : newLimiter rate burst fill now = .ok l) : ∃ size tokens, tokens.length ≤ size ∧
      l = ⟨⟨size, tokens, 0, false⟩, none, true, .receiving, .idle, false⟩ := by
  unfold newLimiter at h
  split at h
  · cases h
  · split at h
    · cases h
    · simp only [bind, Except.bind, Chan.make] at h
      rw [fillThrottle_eq now _ 0 _ rfl rfl] at h
      cases h
      refine ⟨_, _, ?_, rfl⟩
      simp only [List.nil_append, List.length_map, List.length_range']
      split
      · exact le_rfl
      · exact Nat.zero_le _

theorem inv_new {rate burst : Int64} {fill : Bool} {now : Nat → τ}
    (h : newLimiter rate burst fill now = .ok l) : l.Inv ∧ ¬ l.Hung := by
  obtain ⟨size, tokens, hfit, rfl⟩ := newLimiter_eq_ok h
  refine ⟨⟨rfl, by simp, by simp, by simp, hfit⟩, fun hung => ?_⟩
  have hidle := hung.stopping
  cases hidle

/-- The channel is open while the goroutine runs. -/
theorem Inv.open_of_running (h : l.Inv) (hrun : l.refill ≠ .returned) : l.throttle.closed = false := by
  cases hclosed : l.throttle.closed with
  | false => rfl
  | true => exact absurd (h.quit.mpr (Or.inr (h.closed.mp hclosed))) hrun

theorem Inv.choose (h : l.Inv) {t : τ} (hrefill : l.refill = .selecting t) {c : SelectCase}
    (hready : l.ready c = true) : (l.choose t c).Inv := by
  have hrun : l.refill ≠ .returned := by simp [hrefill]
  have hquit : ¬ (l.stopping = .sent ∨ l.stopping = .returned) := fun hq => hrun (h.quit.mpr hq)
  have hopen := h.open_of_running hrun
  cases c with
  | quit =>
    have hstop : l.stopping = .sending := by simpa [ready] using hready
    have hticking : l.ticking = false := by
      simpa [hstop] using h.ticking
    exact ⟨h.alive, by simp [Limiter.choose, hticking], by simp [Limiter.choose, hopen],
      by simp [Limiter.choose], h.room⟩
  | throttle =>
    obtain ⟨throttle, hsend, hopen', -⟩ := Chan.send_of_open hopen t
    have hnot : l.stopping ≠ .returned := fun hr => hquit (Or.inr hr)
    rw [Limiter.choose, hsend]
    exact ⟨h.alive, h.ticking, by simp [hopen', hnot], by simp [hquit],
      Chan.length_buffer_send hready h.room hsend⟩
  | default => exact ⟨h.alive, h.ticking, h.closed, by simp [Limiter.choose, hquit], h.room⟩

theorem Inv.stop (h : l.Inv) : l.stop.Inv := by
  have hticking := h.ticking
  have hclosed := h.closed
  have hquit := h.quit
  unfold Limiter.stop
  cases hs : l.stopping with
  | idle =>
    simp only [hs, reduceCtorEq, or_self, iff_false, iff_true] at hticking hclosed hquit
    exact ⟨h.alive, by simp, by simp [hclosed], by simp [hquit], h.room⟩
  | tickerStopped =>
    simp only [hs, reduceCtorEq, or_self, iff_false] at hticking hclosed hquit
    exact ⟨h.alive, by simp [hticking], by simp [hclosed], by simp [hquit], h.room⟩
  | sending => exact h
  | sent =>
    -- `Stop` is the only one to close the channel
    simp only [hs, reduceCtorEq, or_false, iff_false, iff_true] at hticking hclosed hquit
    have hopen : l.throttle.close = .ok { l.throttle with receivers := 0, closed := true } :=
      if_neg hclosed
    simp only [hopen]
    exact ⟨h.alive, by simp [hticking], by simp, by simp [hquit], h.room⟩
  | returned => exact h

theorem Inv.step (h : l.Inv) (e : Event τ) : (l.step e).Inv := by
  unfold Limiter.step
  rw [if_neg (by simp [h.alive])]
  cases e with
  | tick t =>
    simp only
    split
    · exact ⟨h.alive, h.ticking, h.closed, h.quit, h.room⟩
    · exact h
  | receive =>
    simp only
    split
    · rename_i hrefill _
      have hquit := h.quit
      rw [hrefill] at hquit
      simp only [reduceCtorEq, false_iff] at hquit
      exact ⟨h.alive, h.ticking, h.closed, by simp [hquit], h.room⟩
    · exact h
  | select c =>
    simp only
    split
    · rename_i hrefill
      split
      · rename_i hready
        exact h.choose hrefill hready
      · exact h
    · exact h
  | wait =>
    exact ⟨h.alive, h.ticking, by rw [Chan.receive_closed]; exact h.closed, h.quit,
      Chan.length_buffer_receive h.room⟩
  | stop => exact h.stop

/-! ## Both wait -/

/-- There is no way out: no step changes what the two are waiting for. -/
theorem Hung.step (h : l.Hung) (e : Event τ) : (l.step e).Hung := by
  obtain ⟨hstop, hrefill, hticking, hpending⟩ := h
  unfold Limiter.step
  split
  · exact ⟨hstop, hrefill, hticking, hpending⟩
  · cases e with
    | tick t =>
      simp only [hticking, Bool.false_and, Bool.false_eq_true, if_false]
      exact ⟨hstop, hrefill, hticking, hpending⟩
    | receive =>
      simp only [hrefill, hpending]
      exact ⟨hstop, hrefill, hticking, hpending⟩
    | select c =>
      simp only [hrefill]
      exact ⟨hstop, hrefill, hticking, hpending⟩
    | wait => exact ⟨hstop, hrefill, hticking, hpending⟩
    | stop =>
      simp only [Limiter.stop, hstop]
      exact ⟨hstop, hrefill, hticking, hpending⟩

theorem Inv.hung_iff (h : l.Inv) :
    l.Hung ↔ l.stopping = .sending ∧ l.refill = .receiving ∧ l.pending = none := by
  constructor
  · intro hung
    exact ⟨hung.stopping, hung.refill, hung.pending⟩
  · rintro ⟨hstop, hrefill, hpending⟩
    have hticking := h.ticking
    rw [hstop] at hticking
    exact ⟨hstop, hrefill, by simpa using hticking, hpending⟩

/-- The condition is what a step needs for the two not to end up waiting. -/
theorem Inv.answersStop_iff (h : l.Inv) (hnot : ¬ l.Hung) (e : Event τ) :
    ¬ (l.step e).Hung ↔ l.AnswersStop e := by
  rw [(h.step e).hung_iff]
  rw [h.hung_iff] at hnot
  have halive := h.alive
  cases e with
  | tick t =>
    simp only [Limiter.step, halive, AnswersStop, iff_true]
    by_cases htick : (l.ticking && l.pending.isNone) = true
    · simp [htick]
    · simpa [htick] using hnot
  | receive =>
    simp only [Limiter.step, halive, Bool.false_eq_true, if_false, AnswersStop, iff_true]
    split
    · simp
    · exact hnot
  | select c =>
    simp only [Limiter.step, halive, AnswersStop]
    cases hrefill : l.refill with
    | receiving => simpa [hrefill] using hnot
    | returned => simp [hrefill]
    | selecting t =>
      have hopen := h.open_of_running (by simp [hrefill])
      cases c with
      | quit => by_cases hs : l.stopping = .sending <;> simp [ready, Limiter.choose, hs, hrefill]
      | throttle =>
        obtain ⟨throttle, hsend, -, -⟩ := Chan.send_of_open hopen t
        by_cases hcan : l.throttle.canSend = true
        · simp [ready, Limiter.choose, hcan, hsend]
        · simp [ready, hcan, hrefill]
      | default =>
        by_cases hs : l.stopping = .sending
        · simp [ready, hs, hrefill]
        · cases hcan : l.throttle.canSend <;> simp [ready, Limiter.choose, hs, hcan]
  | wait => simpa [Limiter.step, halive, AnswersStop] using hnot
  | stop =>
    simp only [Limiter.step, halive, AnswersStop, Limiter.stop]
    cases hs : l.stopping with
    | idle => simp
    | tickerStopped => simp
    | sending => simpa [hs] using hnot
    | sent =>
      have hclosed := h.closed
      simp only [hs, reduceCtorEq, iff_false] at hclosed
      have hopen : l.throttle.close = .ok { l.throttle with receivers := 0, closed := true } :=
        if_neg hclosed
      simp [hopen]
    | returned => simp [hs]

/-- Stopping a limiter never crashes: nothing is sent on the closed `Throttle`. It does not hang as long
as no step of the run loses the last tick that can get the goroutine to `quit`. -/
theorem stop_hangs_iff (rate burst : Int64) (fill : Bool) (now : Nat → τ) (l : Limiter τ)
    (hnew : newLimiter rate burst fill now = .ok l) (evs : List (Event τ)) :
    (∀ before after, evs = before ++ after → (run step l before).crashed = false) ∧
      ((∀ before after, evs = before ++ after → ¬ (run step l before).Hung) ↔
        Always step AnswersStop l evs) := by
  have hinv := run_invariant (inv_new hnew).1 fun l e h => h.step e
  refine ⟨fun before _ _ => (hinv before).alive, ?_⟩
  rw [always_iff (I := fun l => l.Inv ∧ ¬ l.Hung) (inv_new hnew) fun l e hl =>
    (and_iff_right (hl.1.step e)).trans (hl.1.answersStop_iff hl.2 e)]
  exact forall₃_congr fun before _ _ => (and_iff_right (hinv before)).symm

/-- The limiter of `ListenStream`. -/
def sampleLimiter : Limiter Unit :=
  ⟨⟨3, [(), (), ()], 0, false⟩, none, true, .receiving, .idle, false⟩

theorem newLimiter_sample : newLimiter 250000000 3 true (fun _ => ()) = .ok sampleLimiter := by
  decide

/-- `Stop` is called while a tick is waiting, and the goroutine takes the message. -/
theorem stop_hangs_iff_tick_left :
    newLimiter 250000000 3 true (fun _ => ()) = .ok sampleLimiter ∧
      ¬ (run step sampleLimiter [.tick (), .stop, .stop, .receive, .select .quit, .stop]).Hung ∧
      (run step sampleLimiter [.tick (), .stop, .stop, .receive, .select .quit, .stop]).stopping =
        .returned := by
  have hanswers : Always step AnswersStop sampleLimiter
      [.tick (), .stop, .stop, .receive, .select .quit, .stop] := by
    refine .cons ?_ (.cons ?_ (.cons ?_ (.cons ?_ (.cons ?_ (.cons ?_ always_nil)))))
    all_goals simp [AnswersStop, sampleLimiter, step, stop, choose, ready]
  refine ⟨newLimiter_sample, ?_, by decide⟩
  exact (stop_hangs_iff 250000000 3 true (fun _ => ()) sampleLimiter newLimiter_sample _).2.mpr
    hanswers _ [] rfl

/-- `Stop` right after `NewLimiter` hangs, and nothing that happens later changes that. -/
theorem stop_at_once_hangs :
    newLimiter 250000000 3 true (fun _ => ()) = .ok sampleLimiter ∧
      (run step sampleLimiter [.stop, .stop]).Hung ∧
      ∀ evs, (run step sampleLimiter ([.stop, .stop] ++ evs)).Hung := by
  have hung : (run step sampleLimiter [.stop, .stop]).Hung := ⟨rfl, rfl, rfl, rfl⟩
  refine ⟨newLimiter_sample, hung, fun evs => ?_⟩
  rw [run_append]
  exact run_invariant hung (fun l e h => h.step e) evs

end Limiter

end Zif.Util
