import Zif.Go.Basic

/-!
# Proofs: the outcome of several calls

A function does not panic if none of the calls it makes does; returning an error is no panic. A loop that stops at
the first failure returns exactly if no call fails.
-/

namespace Go

/-- A guard that reports an error does not panic. -/
theorem guard_eq_panic {α : Type} {c : Prop} [Decidable c] {err : String} {next : Result α} :
    (if c then .error (.error err) else next) = (.error .panic : Result α) ↔
      ¬ c ∧ next = .error .panic := by
  split <;> simp_all

theorem bind_ne_panic {α β : Type} {x : Result α} {f : α → Result β} (hx : x ≠ .error .panic)
    (hf : ∀ a, x = .ok a → f a ≠ .error .panic) : (x >>= f) ≠ .error .panic := by
  cases x with
  | error e =>
    intro hp
    injection hp with hp
    exact hx (congrArg _ hp)
  | ok a => exact hf a rfl

theorem mapM_ne_panic {α β : Type} {f : α → Result β} {l : List α}
    (h : ∀ x ∈ l, f x ≠ .error .panic) : l.mapM f ≠ .error .panic := by
  induction l with
  | nil =>
    intro hp
    cases hp
  | cons x l ih =>
    rw [List.mapM_cons]
    refine bind_ne_panic (h x List.mem_cons_self) fun b _ =>
      bind_ne_panic (ih fun y hy => h y (List.mem_cons_of_mem x hy)) fun bs _ hp => ?_
    cases hp

theorem mapM_eq_ok_iff {α β : Type} {f : α → Result β} {l : List α} {bs : List β} :
    l.mapM f = .ok bs ↔ l.map f = bs.map .ok := by
  induction l generalizing bs with
  | nil => cases bs <;> simp [pure, Except.pure]
  | cons x l ih =>
    rw [List.mapM_cons, List.map_cons]
    constructor
    · intro h
      cases hx : f x with
      | error e =>
        rw [hx] at h
        cases h
      | ok b =>
        cases hl : l.mapM f with
        | error e =>
          rw [hx, hl] at h
          cases h
        | ok bs' =>
          rw [hx, hl] at h
          cases h
          rw [List.map_cons, ih.mp hl]
    · intro h
      cases bs with
      | nil => cases h
      | cons b bs =>
        rw [List.map_cons] at h
        injection h with hx hl
        rw [hx, ih.mpr hl]
        rfl

theorem mapM_ok {α β : Type} {f : α → Result β} {l : List α} (h : ∀ x ∈ l, ∃ b, f x = .ok b) :
    ∃ bs, l.mapM f = .ok bs := by
  induction l with
  | nil => exact ⟨[], rfl⟩
  | cons x l ih =>
    obtain ⟨b, hb⟩ := h x List.mem_cons_self
    obtain ⟨bs, hbs⟩ := ih fun y hy => h y (List.mem_cons_of_mem x hy)
    exact ⟨b :: bs, by rw [List.mapM_cons, hb, hbs]; rfl⟩

end Go
