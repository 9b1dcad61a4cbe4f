import Zif.Lib.Session

/-!
# Proofs: sessions

A step of one party never disturbs a step of the other (`step_diamond`). So the order in which the
parties are scheduled does not matter: if one way of running a session ends, then every other way ends
in the same state after as many steps, and gets stuck nowhere (`Steps.descend`).

A session is therefore run in the most convenient order, each message being read as it is sent
(`runs_message_right`, `runs_message_left`).
-/

/-! ## Counted steps -/

section

variable {σ : Type} {r : σ → σ → Prop} {n k : Nat} {s t u : σ}

theorem Steps.trans (h : Steps r n s t) (h' : Steps r k t u) : Steps r (n + k) s u := by
  induction h with
  | refl s => simpa using h'
  | @cons n s t v hst _ ih =>
    rw [Nat.add_right_comm]
    exact .cons hst (ih h')

theorem Steps.split (h : Steps r (n + k) s u) : ∃ t, Steps r n s t ∧ Steps r k t u := by
  induction n generalizing s with
  | zero =>
    rw [Nat.zero_add] at h
    exact ⟨s, .refl s, h⟩
  | succ n ih =>
    rw [Nat.add_right_comm] at h
    cases h with
    | cons hst hrest =>
      obtain ⟨t, hn, hk⟩ := ih hrest
      exact ⟨t, .cons hst hn, hk⟩

/-- Two different steps can be completed to the same state, by one step each. -/
def Diamond (r : σ → σ → Prop) : Prop := ∀ s t u, r s t → r s u → t = u ∨ ∃ v, r t v ∧ r u v

/-- Any first step is on a way of the same length. -/
theorem Steps.after_step (hr : Diamond r) (h : Steps r n s t) (ht : ∀ x, ¬ r t x) (hsu : r s u) :
    ∃ m, n = m + 1 ∧ Steps r m u t := by
  induction h generalizing u with
  | refl s => exact absurd hsu (ht u)
  | @cons n s v t hsv hvt ih =>
    rcases hr s v u hsv hsu with rfl | ⟨w, hvw, huw⟩
    · exact ⟨n, rfl, hvt⟩
    · obtain ⟨m, rfl, hwt⟩ := ih ht hvw
      exact ⟨m + 1, rfl, .cons huw hwt⟩

/-- When one way of running ends, every way does, in the same state and after as many steps. -/
theorem Steps.descend (hr : Diamond r) (h : Steps r n s t) (ht : ∀ x, ¬ r t x) (hsu : Steps r k s u) :
    ∃ m, n = k + m ∧ Steps r m u t := by
  induction hsu generalizing n with
  | refl s => exact ⟨n, (Nat.zero_add n).symm, h⟩
  | @cons k s v u hsv _ ih =>
    obtain ⟨m, rfl, hvt⟩ := h.after_step hr ht hsv
    obtain ⟨m', rfl, hut⟩ := ih hvt
    exact ⟨m', by omega, hut⟩

end

/-! ## The parties do not disturb each other -/

namespace Proc

theorem bind_assoc {M α β γ : Type} (p : Proc M α) (f : α → Proc M β) (g : β → Proc M γ) :
    (p.bind f).bind g = p.bind fun a => (f a).bind g := by
  induction p with
  | done a => rfl
  | read next ih => exact congrArg Proc.read (funext ih)
  | write m next ih => exact congrArg (Proc.write m) (funext ih)
  | close next ih => exact congrArg Proc.close ih

variable {M α : Type} {p p' : Proc M α} {inbox inbox' out more : List M} {closed closed' other : Bool}

/-- What the other party does meanwhile: it adds messages and closes its end, unless that is closed
already. It makes no difference to a step. -/
theorem advance_more {other' : Bool} (h : p.advance inbox closed other = some (p', inbox', out, closed'))
    (hother : other = true → more = [] ∧ other' = true) :
    p.advance (inbox ++ more) closed other' = some (p', inbox' ++ more, out, closed') := by
  cases p with
  | done a => cases h
  | close next =>
    cases h
    rfl
  | write m next =>
    cases h
    rfl
  | read next =>
    cases closed with
    | true =>
      cases h
      rfl
    | false =>
      cases inbox with
      | cons m inbox =>
        cases h
        rfl
      | nil =>
        cases other with
        | true =>
          obtain ⟨rfl, rfl⟩ := hother rfl
          cases h
          rfl
        | false => cases h

/-- From a closed end nothing is sent, and it stays closed. -/
theorem advance_closed (h : p.advance inbox true other = some (p', inbox', out, closed')) :
    out = [] ∧ closed' = true := by
  cases p with
  | done a => cases h
  | close next =>
    cases h
    exact ⟨rfl, rfl⟩
  | write m next =>
    cases h
    exact ⟨rfl, rfl⟩
  | read next =>
    cases h
    exact ⟨rfl, rfl⟩

end Proc

namespace Session

variable {M α β : Type} {s t u : Session M α β}

theorem step_swap : Step s.swap t.swap ↔ Step s t := or_comm

theorem StepLeft.unique (h : s.StepLeft t) (h' : s.StepLeft u) : t = u := by
  obtain ⟨p, inbox, out, closed, hadv, rfl⟩ := h
  obtain ⟨p', inbox', out', closed', hadv', rfl⟩ := h'
  rw [hadv] at hadv'
  cases hadv'
  rfl

/-- Steps of the two parties can be exchanged. -/
theorem StepLeft.exchange (hl : s.StepLeft t) (hr : s.swap.StepLeft u.swap) :
    ∃ v : Session M α β, t.swap.StepLeft v.swap ∧ u.StepLeft v := by
  obtain ⟨p, inbox, out, closed, hp, rfl⟩ := hl
  obtain ⟨q, inbox', out', closed', hq, hu⟩ := hr
  obtain rfl : u = ⟨s.left, q, s.toLeft ++ out', inbox', s.leftClosed, closed'⟩ :=
    congrArg Session.swap hu
  refine ⟨⟨p, q, inbox ++ out', inbox' ++ out, closed, closed'⟩,
    ⟨q, inbox' ++ out, out', closed', ?_, rfl⟩, ⟨p, inbox ++ out', out, closed, ?_, rfl⟩⟩
  · refine Proc.advance_more hq fun hclosed => ?_
    change s.leftClosed = true at hclosed
    rw [hclosed] at hp
    exact Proc.advance_closed hp
  · refine Proc.advance_more hp fun hclosed => ?_
    change s.swap.left.advance s.swap.toLeft s.rightClosed s.swap.rightClosed = _ at hq
    rw [hclosed] at hq
    exact Proc.advance_closed hq

theorem step_diamond : Diamond (Step (M := M) (α := α) (β := β)) := by
  rintro s t u (ht | ht) (hu | hu)
  · exact .inl (ht.unique hu)
  · obtain ⟨v, htv, huv⟩ := ht.exchange hu
    exact .inr ⟨v, .inr htv, .inl huv⟩
  · obtain ⟨v, huv, htv⟩ := hu.exchange ht
    exact .inr ⟨v, .inl htv, .inr huv⟩
  · exact .inl (congrArg Session.swap (ht.unique hu))

/-- Nothing happens once both have returned. -/
theorem Returned.no_step {a : α} {b : β} (h : s.Returned a b) : ¬ Step s t := by
  rintro (⟨p, inbox, out, closed, hadv, -⟩ | ⟨p, inbox, out, closed, hadv, -⟩)
  · rw [h.1] at hadv
    cases hadv
  · change s.right.advance _ _ _ = _ at hadv
    rw [h.2] at hadv
    cases hadv

/-- **The order of the steps does not matter.** When one way of running a session ends with both parties
having returned, every way does, with the same results and after as many steps. -/
theorem runs_alike {a : α} {b : β} {n k : Nat} (h : Steps Step n s t) (ht : t.Returned a b)
    (hsu : Steps Step k s u) : ∃ m, n = k + m ∧ Steps Step m u t :=
  h.descend step_diamond (fun _ => ht.no_step) hsu

/-- The results do not depend on the order of the steps. -/
theorem Returned.unique {a a' : α} {b b' : β} {n k : Nat} (h : Steps Step n s t) (ht : t.Returned a b)
    (h' : Steps Step k s u) (hu : u.Returned a' b') : a = a' ∧ b = b' := by
  obtain ⟨m, -, hm⟩ := runs_alike h ht h'
  cases hm with
  | refl =>
    have hleft := ht.1.symm.trans hu.1
    have hright := ht.2.symm.trans hu.2
    injection hleft with hleft
    injection hright with hright
    exact ⟨hleft, hright⟩
  | cons hstep _ => exact absurd hstep hu.no_step

/-! ## Running a session -/

/-- `t` can be reached from `s`. -/
def Runs (s t : Session M α β) : Prop := ∃ n, Steps Step n s t

theorem Runs.refl (s : Session M α β) : s.Runs s := ⟨0, .refl s⟩

theorem Runs.trans (h : s.Runs t) (h' : t.Runs u) : s.Runs u := by
  obtain ⟨n, hn⟩ := h
  obtain ⟨k, hk⟩ := h'
  exact ⟨n + k, hn.trans hk⟩

theorem Runs.step (h : Step s t) (h' : t.Runs u) : s.Runs u := by
  obtain ⟨n, hn⟩ := h'
  exact ⟨n + 1, .cons h hn⟩

theorem Runs.swap (h : s.Runs t) : s.swap.Runs t.swap := by
  obtain ⟨n, hn⟩ := h
  induction hn with
  | refl s => exact Runs.refl _
  | cons hst _ ih => exact Runs.step (step_swap.mpr hst) ih

/-- A message from left to right, read as it is sent. -/
theorem runs_message_right {m : M} {next : Bool → Proc M α} {next' : Option M → Proc M β} :
    Runs (start (.write m next) (.read next')) (start (next true) (next' (some m))) :=
  .step (.inl ⟨_, _, _, _, rfl, rfl⟩) (.step (.inr ⟨_, _, _, _, rfl, rfl⟩) (.refl _))

/-- A message from right to left. -/
theorem runs_message_left {m : M} {next : Option M → Proc M α} {next' : Bool → Proc M β} :
    Runs (start (.read next) (.write m next')) (start (next (some m)) (next' true)) :=
  runs_message_right.swap

/-- The right party has closed its end, and nothing is under way. -/
def ended (left : Proc M α) (right : Proc M β) : Session M α β := ⟨left, right, [], [], false, true⟩

/-- The right party closes, and the left one meets the end of the stream. -/
theorem runs_close {next : Proc M β} {p : Proc M α} :
    Runs (start p (.close next)) (ended p next) :=
  .step (.inr ⟨_, _, _, _, rfl, rfl⟩) (.refl _)

theorem runs_ended_read {next : Option M → Proc M α} {q : Proc M β} :
    Runs (ended (.read next) q) (ended (next none) q) :=
  .step (.inl ⟨_, _, _, _, rfl, rfl⟩) (.refl _)

theorem runs_ended_write {m : M} {next : Bool → Proc M β} {p : Proc M α} :
    Runs (ended p (.write m next)) (ended p (next false)) :=
  .step (.inr ⟨_, _, _, _, rfl, rfl⟩) (.refl _)

end Session
