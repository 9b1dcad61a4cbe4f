import Zif.Util.Limiter

/-!
# Accepting streams

`Server.ListenStream` accepts the streams that a peer opens in its session, and handles each in a goroutine
of its own. After each `Accept`, also one that fails, it waits for its limiter. When `Accept` or
`SetDeadline` has failed it returns. The deferred calls are then made in reverse order:
`HandleCloseConnection` first, and `Stop` of the limiter.

A session keeps the streams that wait to be accepted in a channel; it resets those that find this channel
full. `Accept` takes the first of them. It fails when the session is shut down, or when the answer to the
peer cannot be sent; the stream is then lost.

A run interleaves the steps of the loop with those of the limiter and with what the peer does.
-/

namespace Zif.Proto.Streams

open Go Util

/-- `AcceptBacklog` of the sessions. -/
def acceptBacklog : Nat := 256

/-- The burst of the limiter. -/
def burst : Int64 := 3

/-- Where the loop is. -/
inductive Stage (σ : Type) where
  /-- In `Accept`. -/
  | accepting
  /-- In `Wait`, with what `Accept` returned: a stream, or an error. -/
  | waiting (got : Option σ)
  /-- About to call `HandleCloseConnection`. -/
  | closing
  /-- In `Stop`. -/
  | stopping
  | returned
  deriving DecidableEq, Repr

/-- The streams of a peer, with the loop and its limiter. -/
structure Loop (σ τ : Type) where
  limiter : Limiter τ
  /-- The streams that wait to be accepted. -/
  backlog : List σ
  stage : Stage σ
  /-- The streams that `HandleStream` was started on. -/
  handled : List σ
  /-- The calls of `HandleCloseConnection`. -/
  closes : Nat
  deriving DecidableEq, Repr

/-- What can happen. -/
inductive Event (σ τ : Type) where
  /-- The peer opens a stream. -/
  | opens (s : σ)
  /-- `Accept` returns a stream. -/
  | accepts
  /-- `Accept` fails, with a stream in hand or not. -/
  | fails (taken : Bool)
  /-- A step of the limiter's ticker. -/
  | tick (t : τ)
  /-- A step of the limiter's goroutine. -/
  | receive
  /-- A step of the limiter's goroutine. -/
  | select (c : SelectCase)
  /-- `Wait` has returned, and the loop goes on; `SetDeadline` succeeds or not. -/
  | goesOn (deadline : Bool)
  /-- `HandleCloseConnection` is called. -/
  | closes
  /-- The next step of `Stop`. -/
  | stops
  deriving DecidableEq, Repr

/-- The tokens that the event can give. -/
def Event.ticks {σ τ : Type} : Event σ τ → Nat
  | .tick _ => 1
  | _ => 0

namespace Loop

variable {σ τ : Type}

/-- `ListenStream` begins. -/
def start (now : Nat → τ) : Result (Loop σ τ) := do
  let limiter ← newLimiter 250000000 burst true now
  .ok ⟨limiter, [], .accepting, [], 0⟩

/-- `Accept` has returned, and `Wait` is called. -/
def wait (l : Loop σ τ) (got : Option σ) (backlog : List σ) : Loop σ τ :=
  { l with limiter := l.limiter.step .wait, backlog := backlog, stage := .waiting got }

/-- The call of `Wait` has returned. It is the only one there is. -/
def waited (l : Loop σ τ) : Bool := l.limiter.throttle.receivers = 0

/-- What follows `Wait`. -/
def goOn (l : Loop σ τ) (deadline : Bool) : Option σ → Loop σ τ
  | none => { l with stage := .closing }
  | some s =>
    if deadline then { l with stage := .accepting, handled := l.handled ++ [s] }
    else { l with stage := .closing }

/-- `Stop`, one step. -/
def stop (l : Loop σ τ) : Loop σ τ :=
  let limiter := l.limiter.step .stop
  { l with limiter, stage := if limiter.stopping = .returned then .returned else .stopping }

/-- The state after an event. What cannot happen changes nothing. -/
def step (l : Loop σ τ) : Event σ τ → Loop σ τ
  | .opens s => if l.backlog.length < acceptBacklog then { l with backlog := l.backlog ++ [s] } else l
  | .accepts =>
    match l.stage, l.backlog with
    | .accepting, s :: rest => l.wait (some s) rest
    | _, _ => l
  | .fails taken =>
    match l.stage with
    | .accepting => l.wait none (if taken then l.backlog.tail else l.backlog)
    | _ => l
  | .tick t => { l with limiter := l.limiter.step (.tick t) }
  | .receive => { l with limiter := l.limiter.step .receive }
  | .select c => { l with limiter := l.limiter.step (.select c) }
  | .goesOn deadline =>
    match l.stage with
    | .waiting got => if l.waited then l.goOn deadline got else l
    | _ => l
  | .closes =>
    match l.stage with
    | .closing => { l with stage := .stopping, closes := l.closes + 1 }
    | _ => l
  | .stops =>
    match l.stage with
    | .stopping => l.stop
    | _ => l

/-- The stream that the session takes in at this event, and does not reset. -/
def admits (l : Loop σ τ) : Event σ τ → Option σ
  | .opens s => if l.backlog.length < acceptBacklog then some s else none
  | _ => none

/-- The streams that the session takes in during a run. -/
def admitted (l : Loop σ τ) : List (Event σ τ) → List σ
  | [] => []
  | e :: evs => (l.admits e).toList ++ admitted (l.step e) evs

/-- The event concerns neither the peer nor the end of the loop. -/
def Own : Event σ τ → Prop
  | .tick _ | .receive | .select _ | .goesOn true => True
  | _ => False

end Loop

end Zif.Proto.Streams
