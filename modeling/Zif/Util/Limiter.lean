import Zif.Go.Channel
import Zif.Lib.Runs

/-!
# Rate limiting

A `Limiter` hands out tokens through the channel `Throttle`. A goroutine refills it: it waits for a tick,
and then a `select` takes the message of `Stop` from `quit`, or puts the tick into `Throttle`, or does
neither when neither can go ahead. `quit` has no buffer, so the message is only taken while `Stop` is
blocked in sending it.

`Stop` stops the ticker first. A stopped ticker sends no more ticks and does not close its channel, which
holds one tick at most.

The state is that of the channels, of the goroutine and of one call of `Stop`; a run interleaves their
steps with the ticks and with calls of `Wait`. A panic ends the program.
-/

namespace Zif.Util

open Go

/-- Where the goroutine of `NewLimiter` is. -/
inductive Refill (τ : Type) where
  /-- Waiting for a tick. -/
  | receiving
  /-- In the `select`, with a tick. -/
  | selecting (t : τ)
  | returned
  deriving DecidableEq, Repr

/-- Where the call of `Stop` is. -/
inductive Stopping where
  /-- Not called yet. -/
  | idle
  | tickerStopped
  /-- In `l.quit <- true`. -/
  | sending
  /-- The message was taken. -/
  | sent
  | returned
  deriving DecidableEq, Repr

/-- The cases of the `select`. -/
inductive SelectCase where
  | quit
  | throttle
  | default
  deriving DecidableEq, Repr

/-- A limiter with its goroutine and the call of `Stop`. -/
structure Limiter (τ : Type) where
  throttle : Chan τ
  /-- The tick in the channel of the ticker. -/
  pending : Option τ
  /-- The ticker has not been stopped. -/
  ticking : Bool
  refill : Refill τ
  stopping : Stopping
  /-- There was a panic. -/
  crashed : Bool
  deriving DecidableEq, Repr

/-- A step of a run. -/
inductive Event (τ : Type) where
  /-- The ticker has come to the time `t`. -/
  | tick (t : τ)
  /-- The goroutine looks for a tick. -/
  | receive
  /-- The goroutine gets to its `select`, which settles for the case if that can go ahead. -/
  | select (c : SelectCase)
  /-- A call of `Wait`. -/
  | wait
  /-- The next step of `Stop`. -/
  | stop
  deriving DecidableEq, Repr

/-- The loop of `NewLimiter` that fills the channel, from round `i` on. -/
def fillThrottle {τ : Type} (now : Nat → τ) : (todo i : Nat) → Chan τ → Result (Chan τ)
  | 0, _, throttle => .ok throttle
  | todo + 1, i, throttle => do
    let throttle ← throttle.send (now i)
    fillThrottle now todo (i + 1) throttle

/-- `NewLimiter`, with the times that `time.Now` gives. A ticker needs a positive rate, a channel a size
that is not negative. -/
def newLimiter {τ : Type} (rate burst : Int64) (fill : Bool) (now : Nat → τ) : Result (Limiter τ) :=
  if rate ≤ 0 then .error .panic
  else if burst < 0 then .error .panic
  else do
    let size := burst.toInt.toNat
    let throttle ← fillThrottle now (if fill then size else 0) 0 (Chan.make size)
    .ok ⟨throttle, none, true, .receiving, .idle, false⟩

namespace Limiter

variable {τ : Type}

/-- The case can go ahead. -/
def ready (l : Limiter τ) : SelectCase → Bool
  | .quit => l.stopping = .sending
  | .throttle => l.throttle.canSend
  | .default => !(l.stopping = .sending || l.throttle.canSend)

/-- A case of the `select` on the tick `t`. -/
def choose (l : Limiter τ) (t : τ) : SelectCase → Limiter τ
  | .quit => { l with refill := .returned, stopping := .sent }
  | .throttle =>
    match l.throttle.send t with
    | .ok throttle => { l with throttle, refill := .receiving }
    | .error _ => { l with crashed := true }
  | .default => { l with refill := .receiving }

/-- `Stop`, one step. -/
def stop (l : Limiter τ) : Limiter τ :=
  match l.stopping with
  | .idle => { l with ticking := false, stopping := .tickerStopped }
  | .tickerStopped => { l with stopping := .sending }
  | .sending => l
  | .sent =>
    match l.throttle.close with
    | .ok throttle => { l with throttle, stopping := .returned }
    | .error _ => { l with crashed := true }
  | .returned => l

/-- A step. What cannot happen changes nothing. -/
def step (l : Limiter τ) (e : Event τ) : Limiter τ :=
  if l.crashed then l
  else
    match e with
    | .tick t => if l.ticking && l.pending.isNone then { l with pending := some t } else l
    | .receive =>
      match l.refill, l.pending with
      | .receiving, some t => { l with refill := .selecting t, pending := none }
      | _, _ => l
    | .select c =>
      match l.refill with
      | .selecting t => if l.ready c then l.choose t c else l
      | _ => l
    | .wait => { l with throttle := l.throttle.receive }
    | .stop => l.stop

/-- `Stop` is blocked on `quit`, and the goroutine on the stopped ticker. -/
structure Hung (l : Limiter τ) : Prop where
  stopping : l.stopping = .sending
  refill : l.refill = .receiving
  ticking : l.ticking = false
  pending : l.pending = none

/-- The step does not lose the last tick that can get the goroutine to `quit`: `Stop` comes to `quit`
while the goroutine has a tick ahead of it, and with the last one it takes the message and not the room in
`Throttle`. -/
def AnswersStop (l : Limiter τ) : Event τ → Prop
  | .stop => l.stopping = .tickerStopped → l.refill = .receiving → l.pending ≠ none
  | .select c => ∀ t, l.refill = .selecting t → l.stopping = .sending → l.pending = none →
      l.throttle.canSend = true → c ≠ .throttle
  | _ => True

end Limiter

end Zif.Util
