import Mathlib

/-!
# Pools

The calls that are under way in a system with several threads, as a list: a new call is put at the end, and a
step replaces one of them by what it has come to.
-/

namespace Pool

variable {γ : Type} {l : List γ} {i : Nat} {c c' : γ} {p : γ → Bool}

/-- Where a call stands after a step. -/
theorem getElem?_set_cases {j : Nat} {d : γ} (h : (l.set i c')[j]? = some d) :
    l[j]? = some d ∨ j = i ∧ d = c' := by
  by_cases hji : i = j
  · subst hji
    have hlt : i < l.length := by simpa using (List.getElem?_eq_some_iff.mp h).1
    rw [List.getElem?_set_self hlt] at h
    exact .inr ⟨rfl, (Option.some.inj h).symm⟩
  · rw [List.getElem?_set_ne hji] at h
    exact .inl h

/-- Where a call stands after another one has started. -/
theorem getElem?_push_cases {j : Nat} {d : γ} (h : (l ++ [c])[j]? = some d) :
    l[j]? = some d ∨ j = l.length ∧ d = c := by
  rcases Nat.lt_trichotomy j l.length with hlt | heq | hgt
  · rw [List.getElem?_append_left hlt] at h
    exact .inl h
  · subst heq
    simp at h
    exact .inr ⟨rfl, h.symm⟩
  · rw [List.getElem?_eq_none (by simp; omega)] at h
    cases h

/-- What holds of the call that made a step and of the others holds of all. -/
theorem forall_mem_set {P : γ → Prop} (hown : P c') (hothers : ∀ (j : Nat) d, j ≠ i → l[j]? = some d → P d) :
    ∀ d ∈ l.set i c', P d := by
  intro d hd
  obtain ⟨j, hj⟩ := List.mem_iff_getElem?.mp hd
  by_cases hji : j = i
  · subst hji
    have hlt : j < l.length := by simpa using (List.getElem?_eq_some_iff.mp hj).1
    rw [List.getElem?_set_self hlt] at hj
    exact Option.some.inj hj ▸ hown
  · rw [List.getElem?_set_ne (Ne.symm hji)] at hj
    exact hothers j d hji hj

/-- A step of another call leaves a call in the pool. -/
theorem mem_set_of_ne {d : γ} (hd : d ∈ l) (hi : l[i]? = some c) (hne : d ≠ c) : d ∈ l.set i c' := by
  obtain ⟨j, hj⟩ := List.mem_iff_getElem?.mp hd
  have hji : i ≠ j := by
    rintro rfl
    exact hne (Option.some.inj (hj.symm.trans hi))
  exact List.mem_of_getElem? (by rw [List.getElem?_set_ne hji, hj])

/-- Someone other than the one that is replaced stays. -/
theorem exists_mem_set {P : γ → Prop} (h : ∃ d ∈ l, P d) (hi : l[i]? = some c) (hc : ¬ P c) :
    ∃ d ∈ l.set i c', P d := by
  obtain ⟨d, hd, hp⟩ := h
  refine ⟨d, mem_set_of_ne hd hi ?_, hp⟩
  rintro rfl
  exact hc hp

theorem mem_set_self (hi : l[i]? = some c) : c' ∈ l.set i c' :=
  List.mem_set (List.getElem?_eq_some_iff.mp hi).1 c'

/-- What holds of all after the step, and of the call before it, held of all. -/
theorem forall_mem_of_set {P : γ → Prop} (hi : l[i]? = some c) (hc : P c) (h : ∀ d ∈ l.set i c', P d) :
    ∀ d ∈ l, P d := by
  intro d hd
  by_cases hdc : d = c
  · exact hdc ▸ hc
  · exact h d (mem_set_of_ne hd hi hdc)

/-- No two calls have the property. -/
def AtMostOne (p : γ → Bool) (l : List γ) : Prop :=
  ∀ (i j : Nat) c d, l[i]? = some c → l[j]? = some d → p c → p d → i = j

theorem atMostOne_nil : AtMostOne p [] := by
  intro i j c d hi
  simp at hi

/-- A step does not give the property to a call that did not have it. -/
theorem AtMostOne.set (h : AtMostOne p l) (hi : l[i]? = some c) (hp : p c' → p c) :
    AtMostOne p (l.set i c') := by
  -- whatever has the property now stands where something had it before
  have hback : ∀ (j : Nat) d, (l.set i c')[j]? = some d → p d → ∃ d', l[j]? = some d' ∧ p d' := by
    intro j d hj hd
    rcases getElem?_set_cases hj with hj | ⟨rfl, rfl⟩
    · exact ⟨d, hj, hd⟩
    · exact ⟨c, hi, hp hd⟩
  intro j k d e hj hk hd he
  obtain ⟨d', hj', hd'⟩ := hback j d hj hd
  obtain ⟨e', hk', he'⟩ := hback k e hk he
  exact h j k d' e' hj' hk' hd' he'

/-- A step gives the property to a call, and none had it. -/
theorem AtMostOne.set_of_none (h : ∀ d ∈ l, p d = false) : AtMostOne p (l.set i c') := by
  have hat : ∀ (j : Nat) d, (l.set i c')[j]? = some d → p d → j = i := by
    intro j d hj hd
    rcases getElem?_set_cases hj with hj | ⟨rfl, -⟩
    · simp [h d (List.mem_of_getElem? hj)] at hd
    · rfl
  intro j k d e hj hk hd he
  rw [hat j d hj hd, hat k e hk he]

/-- A new call, which has the property only if none has. -/
theorem AtMostOne.push (h : AtMostOne p l) (hnew : p c → ∀ d ∈ l, p d = false) : AtMostOne p (l ++ [c]) := by
  have hold : ∀ (j : Nat) d, l[j]? = some d → p d → p c → False := by
    intro j d hj hd hc
    have := hnew hc d (List.mem_of_getElem? hj)
    simp [this] at hd
  intro j k d e hj hk hd he
  rcases getElem?_push_cases hj with hj' | ⟨rfl, rfl⟩ <;> rcases getElem?_push_cases hk with hk' | ⟨rfl, rfl⟩
  · exact h j k d e hj' hk' hd he
  · exact (hold j d hj' hd he).elim
  · exact (hold k e hk' he hd).elim
  · rfl

/-- The others do not have the property. -/
theorem AtMostOne.others (h : AtMostOne p l) (hi : l[i]? = some c) (hc : p c) {j : Nat} {d : γ} (hji : j ≠ i)
    (hj : l[j]? = some d) : p d = false := by
  by_contra hd
  exact hji (h j i d c hj hi (by simpa using hd) hc)

end Pool
