import Zif.Proto.Streams
import Zif.Util.Proofs.TokenProofs

/-!
# Proofs: accepting streams

The loop is the only one that waits for its limiter, and `Stop` is called only after the loop has ended
(`Inv`). So the limiter does not stop working before, and each stream that is handled has used a token.
-/

namespace Zif.Proto.Streams

open Go Util

variable {σ τ : Type}

/-- The calls of `Wait` that have not been followed up. -/
def Stage.calls : Stage σ → Nat
  | .waiting _ => 1
  | _ => 0

/-- `HandleCloseConnection` has been called. -/
def Stage.ended : Stage σ → Bool
  | .stopping | .returned => true
  | _ => false

namespace Loop

/-! ## The invariant -/

/-- What holds between the loop and its limiter. -/
structure Inv (l : Loop σ τ) : Prop where
  limiter : l.limiter.Inv
  capacity : l.limiter.throttle.capacity = 3
  receivers : l.limiter.throttle.receivers ≤ l.stage.calls
  running : l.stage.ended = false → l.limiter.stopping = .idle
  closes : l.closes = l.stage.ended.toNat

/-- The tokens that the loop can still use, that of a call of `Wait` included that has returned. -/
def credit (l : Loop σ τ) : Nat :=
  l.limiter.tokens + l.stage.calls - l.limiter.throttle.receivers

variable {l : Loop σ τ}

theorem start_eq (now : Nat → τ) : ∃ l : Loop σ τ, start now = .ok l ∧ l.Inv ∧ l.stage = .accepting ∧
    l.backlog = [] ∧ l.handled = [] ∧ l.credit = 3 := by
  have hsize : burst.toInt.toNat = 3 := by decide
  have hnew : newLimiter 250000000 burst true now =
      .ok ⟨⟨3, (List.range' 0 3).map now, 0, false⟩, none, true, .receiving, .idle, false⟩ := by
    unfold newLimiter
    rw [if_neg (by decide), if_neg (by decide)]
    simp only [if_true, hsize, fillThrottle_eq now 3 0 (Chan.make 3) rfl rfl]
    rfl
  refine ⟨⟨_, [], .accepting, [], 0⟩, by rw [start, hnew]; rfl, ⟨(Limiter.inv_new hnew).1, rfl, le_rfl,
    fun _ => rfl, rfl⟩, rfl, rfl, rfl, rfl⟩

theorem Inv.credit_le (h : l.Inv) : l.credit ≤ 6 := by
  have htokens := Limiter.tokens_le h.limiter
  have hcalls : l.stage.calls ≤ 1 := by
    cases l.stage with
    | waiting => exact le_rfl
    | accepting | closing | stopping | returned => exact Nat.zero_le 1
  rw [h.capacity] at htokens
  unfold credit
  omega

/-- The limiter makes a step of its own. -/
theorem Inv.limits (h : l.Inv) {e : Util.Event τ} (hstop : e ≠ .stop) (hwait : e ≠ .wait) :
    Inv { l with limiter := l.limiter.step e } ∧
      credit { l with limiter := l.limiter.step e } ≤ l.credit + e.ticks := by
  have hchanges := Limiter.changes_step h.limiter hstop fun hw => absurd hw hwait
  have hwaits : e.waits = 0 := by
    cases e with
    | wait => exact absurd rfl hwait
    | tick | receive | select | stop => rfl
  have hreceivers := hchanges.receivers
  have htokens := hchanges.tokens
  have hcalls := h.receivers
  rw [hwaits] at hreceivers htokens
  refine ⟨⟨h.limiter.step e, hchanges.capacity.trans h.capacity, hreceivers.trans h.receivers,
    fun hrun => hchanges.idle (h.running hrun), h.closes⟩, ?_⟩
  simp only [credit]
  omega

/-- `Accept` returns and `Wait` is called. -/
theorem Inv.wait (h : l.Inv) (hstage : l.stage = .accepting) (got : Option σ) (backlog : List σ) :
    (l.wait got backlog).Inv ∧ (l.wait got backlog).credit ≤ l.credit := by
  have hidle := h.running (by rw [hstage]; rfl)
  have hopen : l.limiter.throttle.closed = false := by
    cases hclosed : l.limiter.throttle.closed with
    | false => rfl
    | true =>
      have := h.limiter.closed.mp hclosed
      rw [hidle] at this
      cases this
  have hchanges : Limiter.Changes l.limiter (l.limiter.step .wait) 0 1 :=
    Limiter.changes_step h.limiter (by simp) fun _ => hopen
  have hnone : l.limiter.throttle.receivers = 0 := by
    have := h.receivers
    rw [hstage] at this
    exact Nat.le_zero.mp this
  have hreceivers := hchanges.receivers
  have htokens := hchanges.tokens
  rw [hnone] at hreceivers htokens
  refine ⟨⟨h.limiter.step .wait, hchanges.capacity.trans h.capacity, hreceivers, fun _ => hchanges.idle hidle,
    by rw [Loop.wait, h.closes, hstage]; rfl⟩, ?_⟩
  simp only [credit, Loop.wait, hstage, hnone, Stage.calls]
  omega

/-- What follows `Wait` leaves the limiter alone and handles one stream at most. -/
theorem goOn_spec (l : Loop σ τ) (deadline : Bool) (got : Option σ) :
    (l.goOn deadline got).limiter = l.limiter ∧ (l.goOn deadline got).closes = l.closes ∧
      (l.goOn deadline got).stage.calls = 0 ∧ (l.goOn deadline got).stage.ended = false ∧
      (l.goOn deadline got).handled.length ≤ l.handled.length + 1 := by
  unfold goOn
  cases got with
  | none => exact ⟨rfl, rfl, rfl, rfl, Nat.le_succ _⟩
  | some s =>
    cases deadline with
    | true => exact ⟨rfl, rfl, rfl, rfl, List.length_append.le⟩
    | false => exact ⟨rfl, rfl, rfl, rfl, Nat.le_succ _⟩

/-- What the loop does after `Wait` uses a token. -/
theorem Inv.goOn (h : l.Inv) {got : Option σ} (hstage : l.stage = .waiting got) (hwaited : l.waited = true)
    (deadline : Bool) : (l.goOn deadline got).Inv ∧
      (l.goOn deadline got).handled.length + (l.goOn deadline got).credit ≤ l.handled.length + l.credit := by
  have hnone : l.limiter.throttle.receivers = 0 := by simpa [waited] using hwaited
  have hidle := h.running (by rw [hstage]; rfl)
  have hcloses : l.closes = 0 := by rw [h.closes, hstage]; rfl
  obtain ⟨hlimiter, hsame, hcalls, hended, hhandled⟩ := goOn_spec l deadline got
  generalize l.goOn deadline got = l' at *
  refine ⟨⟨?_, ?_, ?_, ?_, ?_⟩, ?_⟩
  · rw [hlimiter]
    exact h.limiter
  · rw [hlimiter]
    exact h.capacity
  · rw [hlimiter, hcalls]
    exact hnone.le
  · intro _
    rw [hlimiter]
    exact hidle
  · rw [hsame, hcloses, hended]
    rfl
  · have hcall : l.stage.calls = 1 := by rw [hstage]; rfl
    unfold credit
    rw [hlimiter, hcalls, hcall, hnone]
    omega

theorem Inv.stop (h : l.Inv) (hstage : l.stage = .stopping) :
    l.stop.Inv ∧ l.stop.credit ≤ l.credit := by
  obtain ⟨htokens, hreceivers, hcapacity⟩ := Limiter.stop_tokens h.limiter
  have hnone : l.limiter.throttle.receivers = 0 := by
    have := h.receivers
    rw [hstage] at this
    exact Nat.le_zero.mp this
  have hnone' : l.stop.limiter.throttle.receivers = 0 := Nat.le_zero.mp (hnone ▸ hreceivers)
  have hcloses : l.closes = 1 := by rw [h.closes, hstage]; rfl
  have hstage' : l.stop.stage.calls = 0 ∧ l.stop.stage.ended = true := by
    unfold Loop.stop
    by_cases hreturned : (l.limiter.step .stop).stopping = .returned
    · simp only [if_pos hreturned]
      exact ⟨rfl, rfl⟩
    · simp only [if_neg hreturned]
      exact ⟨rfl, rfl⟩
  refine ⟨⟨h.limiter.step .stop, hcapacity.trans h.capacity, hnone'.le.trans (Nat.zero_le _), ?_, ?_⟩, ?_⟩
  · rw [hstage'.2]
    exact Bool.noConfusion
  · rw [hstage'.2]
    exact hcloses
  · have htokens' : l.stop.limiter.tokens = l.limiter.tokens := htokens
    have hcall : l.stage.calls = 0 := by rw [hstage]; rfl
    unfold credit
    rw [hstage'.1, hnone', htokens', hcall, hnone]

/-- Each step keeps the invariant, and a stream that is handled costs a token. -/
theorem Inv.steps (h : l.Inv) (e : Event σ τ) : (l.step e).Inv ∧
    (l.step e).handled.length + (l.step e).credit ≤ l.handled.length + l.credit + e.ticks := by
  have hsame : l.Inv ∧ l.handled.length + l.credit ≤ l.handled.length + l.credit + e.ticks :=
    ⟨h, Nat.le_add_right _ _⟩
  unfold Loop.step
  cases e with
  | opens s =>
    dsimp only
    split
    · exact ⟨⟨h.limiter, h.capacity, h.receivers, h.running, h.closes⟩, le_rfl⟩
    · exact hsame
  | accepts =>
    dsimp only
    split
    next s rest hstage hbacklog =>
      obtain ⟨hinv, hcredit⟩ := h.wait hstage (some s) rest
      exact ⟨hinv, Nat.add_le_add_left hcredit _⟩
    next => exact hsame
  | fails taken =>
    dsimp only
    split
    next hstage =>
      obtain ⟨hinv, hcredit⟩ := h.wait hstage none (if taken then l.backlog.tail else l.backlog)
      exact ⟨hinv, Nat.add_le_add_left hcredit _⟩
    next => exact hsame
  | tick t =>
    obtain ⟨hinv, hcredit⟩ := h.limits (e := .tick t) (by simp) (by simp)
    exact ⟨hinv, by rw [Nat.add_assoc]; exact Nat.add_le_add_left hcredit _⟩
  | receive =>
    obtain ⟨hinv, hcredit⟩ := h.limits (e := .receive) (by simp) (by simp)
    exact ⟨hinv, Nat.add_le_add_left hcredit _⟩
  | select c =>
    obtain ⟨hinv, hcredit⟩ := h.limits (e := .select c) (by simp) (by simp)
    exact ⟨hinv, Nat.add_le_add_left hcredit _⟩
  | goesOn deadline =>
    dsimp only
    split
    next got hstage =>
      by_cases hwaited : l.waited = true
      · rw [if_pos hwaited]
        exact h.goOn hstage hwaited deadline
      · rw [if_neg hwaited]
        exact hsame
    next => exact hsame
  | closes =>
    dsimp only
    split
    next hstage =>
      have hcloses : l.closes = 0 := by rw [h.closes, hstage]; rfl
      have hreceivers := h.receivers
      rw [hstage] at hreceivers
      refine ⟨⟨h.limiter, h.capacity, hreceivers, Bool.noConfusion, by rw [hcloses]; rfl⟩, ?_⟩
      simp only [credit, hstage, Stage.calls]
      exact le_rfl
    next => exact hsame
  | stops =>
    dsimp only
    split
    next hstage =>
      obtain ⟨hinv, hcredit⟩ := h.stop hstage
      exact ⟨hinv, Nat.add_le_add_left hcredit _⟩
    next => exact hsame

theorem inv_run (h : l.Inv) (evs : List (Event σ τ)) : (Runs.run step l evs).Inv :=
  Runs.run_invariant h (fun _ e h => (h.steps e).1) evs

/-- **The streams of a peer are limited**: however often the peer opens streams, in any part of a run at
most six more are handled than there are ticks in it, and from the start at most three more. -/
theorem streams_limited (now : Nat → τ) : ∃ l : Loop σ τ, start now = .ok l ∧
    ∀ before evs : List (Event σ τ),
      (Runs.run step l (before ++ evs)).handled.length ≤
        (Runs.run step l before).handled.length + (evs.map Event.ticks).sum + 6 ∧
      (Runs.run step l evs).handled.length ≤ (evs.map Event.ticks).sum + 3 := by
  obtain ⟨l, hstart, hinv, -, -, hhandled, hcredit⟩ := @start_eq σ τ now
  have hspent : ∀ {l : Loop σ τ}, l.Inv → ∀ evs,
      (Runs.run step l evs).handled.length + (Runs.run step l evs).credit ≤
        l.handled.length + l.credit + (evs.map Event.ticks).sum := by
    intro l h evs
    exact Runs.run_le (f := fun l => l.handled.length + l.credit) h (fun _ e h => (h.steps e).1)
      (fun _ e h => (h.steps e).2) evs
  refine ⟨l, hstart, fun before evs => ⟨?_, ?_⟩⟩
  · have hinv' := inv_run hinv before
    have := hspent hinv' evs
    have := hinv'.credit_le
    rw [Runs.run_append]
    omega
  · have := hspent hinv evs
    rw [hhandled, hcredit, List.length_nil] at this
    omega

/-- One stream has waited, and five more have been opened. With the three tokens in `Throttle` there are a
tick in the channel of the ticker and one in the goroutine. -/
def sampleLoop : Loop Nat Unit :=
  ⟨⟨⟨3, [(), (), ()], 0, false⟩, some (), true, .selecting (), .idle, false⟩, [1, 2, 3, 4, 5],
    .waiting (some 0), [], 0⟩

-- Six streams are handled without a tick.
example : Runs.run step ⟨Limiter.sampleLimiter, [], .accepting, [], 0⟩ ((List.range 6).map .opens ++
      [.accepts, .tick (), .receive, .select .throttle, .tick (), .receive, .tick ()]) = sampleLoop ∧
    (Runs.run step sampleLoop [.goesOn true, .accepts, .goesOn true, .accepts, .goesOn true, .accepts,
      .goesOn true, .accepts, .select .throttle, .goesOn true, .accepts, .receive, .select .throttle,
      .goesOn true]).handled = List.range 6 := by
  decide

/-! ## The order of the streams -/

/-- What has been accepted and not been handled: the stream of the loop, or one that was lost when it
ended. -/
def Between (l : Loop σ τ) (lost : List σ) : Prop :=
  match l.stage with
  | .accepting => lost = []
  | .waiting (some s) => lost = [s]
  | _ => lost.length ≤ 1

/-- The first streams, as they come out of a step. -/
theorem Between.step {lost : List σ} (h : l.Between lost) (e : Event σ τ) :
    ∃ lost', (l.step e).Between lost' ∧
      (l.step e).handled ++ lost' ++ (l.step e).backlog =
        l.handled ++ lost ++ l.backlog ++ (l.admits e).toList := by
  have hsame : l.admits e = none → ∃ lost', l.Between lost' ∧
      l.handled ++ lost' ++ l.backlog = l.handled ++ lost ++ l.backlog ++ (l.admits e).toList := by
    intro hnone
    exact ⟨lost, h, by rw [hnone, Option.toList_none, List.append_nil]⟩
  cases e with
  | opens s =>
    simp only [Loop.step, admits]
    by_cases hroom : l.backlog.length < acceptBacklog
    · simp only [if_pos hroom]
      exact ⟨lost, h, by simp⟩
    · simp only [if_neg hroom]
      exact ⟨lost, h, by simp⟩
  | accepts =>
    simp only [Loop.step]
    split
    next s rest hstage hbacklog =>
      obtain rfl : lost = [] := by rwa [Between, hstage] at h
      exact ⟨[s], rfl, by simp [Loop.wait, admits, hbacklog]⟩
    next => exact hsame rfl
  | fails taken =>
    simp only [Loop.step]
    split
    next hstage =>
      obtain rfl : lost = [] := by rwa [Between, hstage] at h
      cases taken with
      | true =>
        refine ⟨l.backlog.take 1, ?_, ?_⟩
        · exact List.length_take_le 1 l.backlog
        · simp [Loop.wait, admits, ← List.drop_one]
      | false => exact ⟨[], Nat.zero_le 1, by simp [Loop.wait, admits]⟩
    next => exact hsame rfl
  | tick t => exact hsame rfl
  | receive => exact hsame rfl
  | select c => exact hsame rfl
  | goesOn deadline =>
    simp only [Loop.step]
    split
    next got hstage =>
      by_cases hwaited : l.waited = true
      · simp only [if_pos hwaited]
        cases got with
        | none =>
          have hlen : lost.length ≤ 1 := by rwa [Between, hstage] at h
          exact ⟨lost, hlen, by simp [Loop.goOn, admits]⟩
        | some s =>
          obtain rfl : lost = [s] := by rwa [Between, hstage] at h
          cases deadline with
          | true => exact ⟨[], rfl, by simp [Loop.goOn, admits]⟩
          | false => exact ⟨[s], le_rfl, by simp [Loop.goOn, admits]⟩
      · simp only [if_neg hwaited]
        exact hsame rfl
    next => exact hsame rfl
  | closes =>
    simp only [Loop.step]
    split
    next hstage =>
      have hlen : lost.length ≤ 1 := by rwa [Between, hstage] at h
      exact ⟨lost, hlen, by simp [admits]⟩
    next => exact hsame rfl
  | stops =>
    simp only [Loop.step]
    split
    next hstage =>
      have hlen : lost.length ≤ 1 := by rwa [Between, hstage] at h
      refine ⟨lost, ?_, by simp [Loop.stop, admits]⟩
      unfold Between Loop.stop
      by_cases hreturned : (l.limiter.step .stop).stopping = .returned
      · simp only [if_pos hreturned]
        exact hlen
      · simp only [if_neg hreturned]
        exact hlen
    next => exact hsame rfl

theorem between_run {lost : List σ} (h : l.Between lost) (evs : List (Event σ τ)) :
    ∃ lost', (Runs.run step l evs).Between lost' ∧
      (Runs.run step l evs).handled ++ lost' ++ (Runs.run step l evs).backlog =
        l.handled ++ lost ++ l.backlog ++ l.admitted evs := by
  induction evs generalizing l lost with
  | nil => exact ⟨lost, h, by simp [admitted]⟩
  | cons e evs ih =>
    obtain ⟨next, hnext, heq⟩ := h.step e
    obtain ⟨lost', hlost', heq'⟩ := ih hnext
    exact ⟨lost', hlost', by rw [Runs.run_cons, heq', heq, admitted, List.append_assoc]⟩

theorem Between.length_le {lost : List σ} (h : l.Between lost) : lost.length ≤ 1 := by
  unfold Between at h
  split at h
  · rw [h]
    exact Nat.zero_le 1
  · rw [h]
    exact le_rfl
  · exact h

/-- **Streams are handled in the order they were opened**: those that the session took in are the streams
that were handled, at most one in between, and those that still wait; while the loop is in `Accept` there
is none in between. `HandleCloseConnection` is called once, before the limiter is stopped. -/
theorem streams_in_order (now : Nat → τ) : ∃ l : Loop σ τ, start now = .ok l ∧
    ∀ evs : List (Event σ τ),
      (∃ lost, l.admitted evs = (Runs.run step l evs).handled ++ lost ++ (Runs.run step l evs).backlog ∧
        lost.length ≤ 1 ∧ ((Runs.run step l evs).stage = .accepting → lost = [])) ∧
      (Runs.run step l evs).closes ≤ 1 ∧
      ((Runs.run step l evs).limiter.stopping ≠ .idle → (Runs.run step l evs).closes = 1) := by
  obtain ⟨l, hstart, hinv, hstage, hbacklog, hhandled, -⟩ := @start_eq σ τ now
  refine ⟨l, hstart, fun evs => ?_⟩
  have hfirst : l.Between [] := by rw [Between, hstage]
  obtain ⟨lost, hlost, heq⟩ := between_run hfirst evs
  rw [hbacklog, hhandled] at heq
  have hinv' := inv_run hinv evs
  generalize Runs.run step l evs = l' at *
  refine ⟨⟨lost, heq.symm, hlost.length_le, fun hs => by rwa [Between, hs] at hlost⟩, ?_, fun hidle => ?_⟩
  · rw [hinv'.closes]
    exact Bool.toNat_le _
  · rw [hinv'.closes]
    cases hended : l'.stage.ended with
    | true => rfl
    | false => exact absurd (hinv'.running hended) hidle

/-! ## The loop goes on -/

/-- The goroutine of the limiter hands its tick to a call of `Wait` that is blocked. -/
theorem Inv.hands_over (h : l.Inv) {t : τ} (hselecting : l.limiter.refill = .selecting t)
    (hblocked : l.waited = false) {got : Option σ} (hstage : l.stage = .waiting got) :
    (l.step (.select .throttle)).waited = true := by
  have hone : l.limiter.throttle.receivers = 1 := by
    have hle := h.receivers
    have hne : l.limiter.throttle.receivers ≠ 0 := by simpa [waited] using hblocked
    rw [hstage] at hle
    exact le_antisymm hle (Nat.pos_of_ne_zero hne)
  have hopen := h.limiter.open_of_running (by simp [hselecting])
  simp [Loop.step, Limiter.step, h.limiter.alive, hselecting, Limiter.ready, Chan.canSend, hone,
    Limiter.choose, Chan.send, hopen, waited]

theorem Inv.receives (h : l.Inv) {t : τ} (hreceiving : l.limiter.refill = .receiving)
    (hpending : l.limiter.pending = some t) (hblocked : l.waited = false) {got : Option σ}
    (hstage : l.stage = .waiting got) : (Runs.run step l [.receive, .select .throttle]).waited = true := by
  have hreceive : (l.step .receive).limiter = { l.limiter with refill := .selecting t, pending := none } := by
    simp [Loop.step, Limiter.step, h.limiter.alive, hreceiving, hpending]
  refine (h.steps .receive).1.hands_over (t := t) (by rw [hreceive]) ?_ hstage
  rw [waited, hreceive]
  exact hblocked

/-- With the next tick, if it has none, the limiter serves a call of `Wait` that is blocked. -/
theorem Inv.serves (h : l.Inv) (t : τ) {got : Option σ} (hstage : l.stage = .waiting got) :
    ∃ evs : List (Event σ τ), (∀ e ∈ evs, Own e) ∧ (Runs.run step l evs).waited = true ∧
      (Runs.run step l evs).stage = l.stage ∧ (Runs.run step l evs).handled = l.handled ∧
      (Runs.run step l evs).backlog = l.backlog := by
  by_cases hwaited : l.waited = true
  · exact ⟨[], by simp, hwaited, rfl, rfl, rfl⟩
  have hblocked : l.waited = false := by simpa using hwaited
  have hidle := h.running (by rw [hstage]; rfl)
  have hticking := h.limiter.ticking.mpr hidle
  cases hrefill : l.limiter.refill with
  | returned =>
    have := h.limiter.quit.mp hrefill
    simp [hidle] at this
  | selecting t' =>
    exact ⟨[.select .throttle], by simp [Own], h.hands_over hrefill hblocked hstage, rfl, rfl, rfl⟩
  | receiving =>
    cases hpending : l.limiter.pending with
    | some t' =>
      exact ⟨[.receive, .select .throttle], by simp [Own], h.receives hrefill hpending hblocked hstage,
        rfl, rfl, rfl⟩
    | none =>
      have htick : (l.step (.tick t)).limiter = { l.limiter with pending := some t } := by
        simp [Loop.step, Limiter.step, h.limiter.alive, hticking, hpending]
      refine ⟨[.tick t, .receive, .select .throttle], by simp [Own], ?_, rfl, rfl, rfl⟩
      refine (h.steps (.tick t)).1.receives (t := t) (by rw [htick]; exact hrefill) (by rw [htick]) ?_ hstage
      rw [waited, htick]
      exact hblocked

/-- **The loop is never stuck in `Wait`**: whatever happened, the limiter and the loop alone get a stream
that was accepted handled, and get to `HandleCloseConnection` when `Accept` has failed. -/
theorem streams_go_on (now : Nat → τ) : ∃ l : Loop σ τ, start now = .ok l ∧
    ∀ (before : List (Event σ τ)) (got : Option σ), (Runs.run step l before).stage = .waiting got →
      ∃ evs : List (Event σ τ), (∀ e ∈ evs, Own e) ∧
        (Runs.run step l (before ++ evs)).handled = (Runs.run step l before).handled ++ got.toList ∧
        (Runs.run step l (before ++ evs)).backlog = (Runs.run step l before).backlog ∧
        (Runs.run step l (before ++ evs)).stage = if got.isSome then .accepting else .closing := by
  obtain ⟨l, hstart, hinv, -⟩ := @start_eq σ τ now
  refine ⟨l, hstart, fun before got hstage => ?_⟩
  obtain ⟨evs, hown, hwaited, hstage', hhandled, hbacklog⟩ := (inv_run hinv before).serves (now 0) hstage
  refine ⟨evs ++ [.goesOn true], ?_, ?_⟩
  · intro e he
    rcases List.mem_append.mp he with he | he
    · exact hown e he
    · rw [List.mem_singleton.mp he]
      trivial
  · rw [← List.append_assoc, Runs.run_append, Runs.run_append] at *
    generalize Runs.run step (Runs.run step l before) evs = l' at *
    have hgoes : Runs.run step l' [.goesOn true] = l'.goOn true got := by
      rw [Runs.run_cons, Runs.run_nil, Loop.step, hstage', hstage]
      exact if_pos hwaited
    rw [hgoes, ← hhandled, ← hbacklog]
    cases got with
    | none => exact ⟨(List.append_nil _).symm, rfl, rfl⟩
    | some s => exact ⟨rfl, rfl, rfl⟩

end Loop

end Zif.Proto.Streams
