import Zif.Util.Proofs.LimiterProofs

/-!
# Proofs: the tokens of a limiter

Each token that `Wait` takes was there from the start or came with a tick: a tick becomes a token in the
channel of the ticker, goes through the goroutine into `Throttle`, or to a call of `Wait` that is blocked, or
is dropped. Nothing else makes a token (`changes_step`).
-/

namespace Go.Chan

variable {α : Type} {c c' : Chan α}

/-- A send adds a value, or there is one receiver less. -/
theorem balance_send {a : α} (h : c.send a = .ok c') :
    c'.buffer.length + c.receivers = c.buffer.length + c'.receivers + 1 ∧
      c'.receivers ≤ c.receivers ∧ c'.capacity = c.capacity := by
  unfold send at h
  by_cases hclosed : c.closed = true
  · rw [if_pos hclosed] at h
    cases h
  · rw [if_neg hclosed] at h
    by_cases hpos : 0 < c.receivers
    · rw [if_pos hpos] at h
      cases h
      exact ⟨by dsimp only; omega, Nat.sub_le _ _, rfl⟩
    · rw [if_neg hpos] at h
      cases h
      refine ⟨?_, le_rfl, rfl⟩
      simp only [List.length_append, List.length_singleton]
      omega

/-- A receive takes a value, or there is one receiver more. -/
theorem balance_receive (hopen : c.closed = false) :
    c.receive.buffer.length + c.receivers + 1 = c.buffer.length + c.receive.receivers ∧
      c.receive.receivers ≤ c.receivers + 1 ∧ c.receive.capacity = c.capacity := by
  unfold receive
  split
  next hbuffer =>
    rw [hbuffer, List.length_cons]
    exact ⟨by dsimp only; omega, Nat.le_succ _, rfl⟩
  next hbuffer =>
    rw [if_neg (by simp [hopen])]
    exact ⟨Nat.add_assoc _ _ _, le_rfl, rfl⟩

end Go.Chan

namespace Zif.Util

open Go Runs

variable {τ : Type}

/-- The ticks that can come with an event. -/
def Event.ticks : Event τ → Nat
  | .tick _ => 1
  | _ => 0

/-- The calls of `Wait` that come with an event. -/
def Event.waits : Event τ → Nat
  | .wait => 1
  | _ => 0

/-- The token that the goroutine holds. -/
def Refill.tokens : Refill τ → Nat
  | .selecting _ => 1
  | _ => 0

namespace Limiter

/-- The tokens there are, in the channels and in the goroutine. -/
def tokens (l : Limiter τ) : Nat :=
  l.throttle.buffer.length + l.pending.toList.length + l.refill.tokens

/-- How the tokens and the calls of `Wait` that are blocked change. -/
structure Changes (l l' : Limiter τ) (ticks waits : Nat) : Prop where
  capacity : l'.throttle.capacity = l.throttle.capacity
  receivers : l'.throttle.receivers ≤ l.throttle.receivers + waits
  tokens : l'.tokens + l.throttle.receivers + waits ≤ l.tokens + l'.throttle.receivers + ticks
  idle : l.stopping = .idle → l'.stopping = .idle

variable {l : Limiter τ}

theorem Changes.refl (ticks : Nat) : Changes l l ticks 0 :=
  ⟨rfl, le_rfl, by omega, id⟩

theorem tokens_le (h : l.Inv) : l.tokens ≤ l.throttle.capacity + 2 := by
  have hroom := h.room
  have hpending : l.pending.toList.length ≤ 1 := by cases l.pending <;> simp
  have hrefill : l.refill.tokens ≤ 1 := by
    cases l.refill with
    | receiving => exact Nat.zero_le 1
    | selecting => exact le_rfl
    | returned => exact Nat.zero_le 1
  unfold tokens
  omega

theorem changes_choose (h : l.Inv) {t : τ} (hrefill : l.refill = .selecting t) {c : SelectCase}
    (hready : l.ready c = true) : Changes l (l.choose t c) 0 0 := by
  have hopen := h.open_of_running (by simp [hrefill])
  cases c with
  | quit =>
    have hstop : l.stopping = .sending := by simpa [ready] using hready
    refine ⟨rfl, le_rfl, ?_, fun hidle => ?_⟩
    · simp only [choose, tokens, hrefill, Refill.tokens]
      omega
    · rw [hstop] at hidle
      cases hidle
  | throttle =>
    obtain ⟨throttle, hsend, -, -⟩ := Chan.send_of_open hopen t
    obtain ⟨hbalance, hreceivers, hcapacity⟩ := Chan.balance_send hsend
    rw [choose, hsend]
    refine ⟨hcapacity, hreceivers, ?_, id⟩
    simp only [tokens, hrefill, Refill.tokens]
    omega
  | default =>
    refine ⟨rfl, le_rfl, ?_, id⟩
    simp only [choose, tokens, hrefill, Refill.tokens]
    omega

/-- A step makes no token, except for a tick. -/
theorem changes_step (h : l.Inv) {e : Event τ} (hstop : e ≠ .stop)
    (hopen : e = .wait → l.throttle.closed = false) : Changes l (l.step e) e.ticks e.waits := by
  unfold step
  rw [if_neg (by simp [h.alive])]
  cases e with
  | tick t =>
    dsimp only
    split
    next hnone =>
      refine ⟨rfl, le_rfl, ?_, id⟩
      simp only [Bool.and_eq_true, Option.isNone_iff_eq_none] at hnone
      simp only [tokens, hnone.2, Option.toList_some, Option.toList_none, List.length_singleton,
        List.length_nil, Event.ticks, Event.waits]
      omega
    next => exact .refl 1
  | receive =>
    dsimp only
    split
    next hrefill hpending =>
      refine ⟨rfl, le_rfl, ?_, id⟩
      simp only [tokens, hrefill, hpending, Refill.tokens, Option.toList_some, Option.toList_none,
        List.length_singleton, List.length_nil, Event.ticks, Event.waits]
      omega
    next => exact .refl 0
  | select c =>
    dsimp only
    split
    next t hrefill =>
      by_cases hready : l.ready c = true
      · rw [if_pos hready]
        exact changes_choose h hrefill hready
      · rw [if_neg hready]
        exact .refl 0
    next => exact .refl 0
  | wait =>
    obtain ⟨hbalance, hreceivers, hcapacity⟩ := Chan.balance_receive (hopen rfl)
    refine ⟨hcapacity, hreceivers, ?_, id⟩
    simp only [tokens, Event.ticks, Event.waits]
    omega
  | stop => exact absurd rfl hstop

/-- A step of `Stop` makes no token. -/
theorem stop_tokens (h : l.Inv) : (l.step .stop).tokens = l.tokens ∧
    (l.step .stop).throttle.receivers ≤ l.throttle.receivers ∧
    (l.step .stop).throttle.capacity = l.throttle.capacity := by
  unfold step
  rw [if_neg (by simp [h.alive])]
  dsimp only
  unfold stop
  split
  next => exact ⟨rfl, le_rfl, rfl⟩
  next => exact ⟨rfl, le_rfl, rfl⟩
  next => exact ⟨rfl, le_rfl, rfl⟩
  next hsent =>
    have hopen : ¬ l.throttle.closed = true := by simp [h.closed, hsent]
    have hclose : l.throttle.close = .ok { l.throttle with receivers := 0, closed := true } := if_neg hopen
    rw [hclose]
    exact ⟨rfl, Nat.zero_le _, rfl⟩
  next => exact ⟨rfl, le_rfl, rfl⟩

end Limiter

end Zif.Util
