import Zif.Lib.Runs

/-!
# Proofs: runs

The rules for invariants: what each step keeps, every run keeps (`Always.invariant`), and what follows
at each step from an invariant and the condition of the step holds throughout (`Always.of_step`).
-/

namespace Runs

variable {σ ε : Type} {step : σ → ε → σ} {C D : σ → ε → Prop} {I : σ → Prop} {s : σ} {evs : List ε}

@[simp] theorem run_nil : run step s [] = s := rfl

@[simp] theorem run_cons (e : ε) : run step s (e :: evs) = run step (step s e) evs := rfl

theorem run_append (evs' : List ε) : run step s (evs ++ evs') = run step (run step s evs) evs' :=
  List.foldl_append

theorem Always.head {e : ε} (h : Always step C s (e :: evs)) : C s e := h [] e evs rfl

theorem Always.tail {e : ε} (h : Always step C s (e :: evs)) : Always step C (step s e) evs := by
  intro pre x post heq
  have := h (e :: pre) x post (by rw [heq]; rfl)
  simpa using this

theorem always_nil : Always step C s [] := by
  intro pre e post heq
  simp at heq

theorem Always.cons {e : ε} (h : C s e) (h' : Always step C (step s e) evs) :
    Always step C s (e :: evs) := by
  intro pre x post heq
  cases pre with
  | nil =>
    injection heq with hx
    rwa [← hx]
  | cons y pre =>
    injection heq with hy hrest
    subst hy
    exact h' pre x post hrest

/-- A condition that can be decided can be decided of a run. -/
instance decidableAlways [∀ s e, Decidable (C s e)] : ∀ s evs, Decidable (Always step C s evs)
  | _, [] => isTrue always_nil
  | s, e :: evs =>
    have : Decidable (Always step C (step s e) evs) := decidableAlways (step s e) evs
    decidable_of_iff (C s e ∧ Always step C (step s e) evs)
      ⟨fun h => .cons h.1 h.2, fun h => ⟨h.head, h.tail⟩⟩

/-- A condition on the events alone. -/
theorem always_of_forall {C : ε → Prop} (h : ∀ e ∈ evs, C e) : Always step (fun _ => C) s evs := by
  intro pre e post heq
  exact h e (by simp [heq])

/-- What holds at the start and is kept by each step holds at the end. -/
theorem Always.invariant (h : Always step C s evs) (h0 : I s)
    (hstep : ∀ s e, I s → C s e → I (step s e)) : I (run step s evs) := by
  induction evs generalizing s with
  | nil => exact h0
  | cons e evs ih => exact ih h.tail (hstep s e h0 h.head)

theorem run_invariant (h0 : I s) (hstep : ∀ s e, I s → I (step s e)) (evs : List ε) :
    I (run step s evs) := by
  have hall : Always step (fun _ _ => True) s evs := fun _ _ _ _ => trivial
  exact hall.invariant h0 fun s e hs _ => hstep s e hs

/-- A quantity that each step raises by no more than the event allows. -/
theorem run_le {f : σ → Nat} {g : ε → Nat} (h0 : I s) (hstep : ∀ s e, I s → I (step s e))
    (hle : ∀ s e, I s → f (step s e) ≤ f s + g e) (evs : List ε) :
    f (run step s evs) ≤ f s + (evs.map g).sum := by
  induction evs generalizing s with
  | nil => exact Nat.le_add_right _ _
  | cons e evs ih =>
    have hrest := ih (hstep s e h0)
    have hhead := hle s e h0
    rw [run_cons, List.map_cons, List.sum_cons]
    omega

/-- The start of a run is a run. -/
theorem Always.left {evs' : List ε} (h : Always step C s (evs ++ evs')) : Always step C s evs := by
  intro pre e post heq
  exact h pre e (post ++ evs') (by rw [heq]; simp)

/-- The rest of a run is a run from where the start leads to. -/
theorem Always.right {evs' : List ε} (h : Always step C s (evs ++ evs')) :
    Always step C (run step s evs) evs' := by
  intro pre e post heq
  rw [← run_append]
  exact h (evs ++ pre) e post (by rw [heq]; simp)

/-- The condition is exactly what a step needs to keep the invariant: it holds at each step exactly when
the invariant holds in each state. -/
theorem always_iff (h0 : I s) (hstep : ∀ s e, I s → (I (step s e) ↔ C s e)) :
    Always step C s evs ↔ ∀ pre post, evs = pre ++ post → I (run step s pre) := by
  constructor
  · rintro h pre post rfl
    exact h.left.invariant h0 fun s e hs => (hstep s e hs).mpr
  · rintro h pre e post rfl
    have hbefore : I (run step s pre) := h pre (e :: post) rfl
    have hafter : I (run step s (pre ++ [e])) := h (pre ++ [e]) post (by simp)
    rw [run_append] at hafter
    exact (hstep _ e hbefore).mp hafter

/-- What the condition of a step and an invariant give at each step. -/
theorem Always.of_step (h : Always step C s evs) (h0 : I s)
    (hstep : ∀ s e, I s → C s e → I (step s e)) (himp : ∀ s e, I s → C s e → D s e) :
    Always step D s evs := by
  intro pre e post heq
  subst heq
  exact himp _ e (h.left.invariant h0 hstep) (h pre e post rfl)

/-- Steps that lead somewhere are those of a run. -/
theorem exists_run {C : ε → Prop} {s' : σ}
    (h : Relation.ReflTransGen (fun s s' => ∃ e, C e ∧ step s e = s') s s') :
    ∃ evs, (∀ e ∈ evs, C e) ∧ run step s evs = s' := by
  induction h with
  | refl => exact ⟨[], by simp, rfl⟩
  | tail _ hstep ih =>
    obtain ⟨evs, hevs, rfl⟩ := ih
    obtain ⟨e, he, rfl⟩ := hstep
    refine ⟨evs ++ [e], fun e' he' => ?_, run_append [e]⟩
    rcases List.mem_append.mp he' with he' | he'
    · exact hevs e' he'
    · rw [List.mem_singleton.mp he']
      exact he

end Runs
