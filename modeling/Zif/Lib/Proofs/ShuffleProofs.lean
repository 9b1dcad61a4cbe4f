import Zif.Lib.Shuffle

/-!
# Proofs: the outcomes of a shuffle

The outcomes of a shuffle are the permutations of the list: whatever is drawn, the outcome is one
(`shuffle_perm`), and each of them is drawn at some time (`exists_shuffle`).
-/

namespace Shuffle

variable {α : Type} {draw draw' : Nat → Nat}

theorem swap_perm (l : List α) (i j : Nat) : (swap l i j).Perm l := by
  unfold swap
  split
  · next a b ha hb =>
    obtain ⟨hi, rfl⟩ := List.getElem?_eq_some_iff.mp ha
    obtain ⟨hj, rfl⟩ := List.getElem?_eq_some_iff.mp hb
    exact List.set_set_perm hi hj
  · exact List.Perm.refl l

theorem shuffleTo_perm (l : List α) (n : Nat) : (shuffleTo draw l n).Perm l := by
  induction n with
  | zero => exact List.Perm.refl l
  | succ n ih => exact (swap_perm _ _ _).trans ih

theorem shuffle_perm (draw : Nat → Nat) (l : List α) : (shuffle draw l).Perm l := shuffleTo_perm l l.length

/-- Only the numbers drawn before count. -/
theorem shuffleTo_congr (l : List α) {n : Nat} (h : ∀ i < n, draw i = draw' i) :
    shuffleTo draw l n = shuffleTo draw' l n := by
  induction n with
  | zero => rfl
  | succ n ih =>
    rw [shuffleTo, shuffleTo, ih fun i hi => h i (Nat.lt_succ_of_lt hi), h n (Nat.lt_succ_self n)]

theorem swap_self (l : List α) (i : Nat) : swap l i i = l := by
  unfold swap
  split
  · next a b ha hb =>
    obtain rfl : a = b := Option.some.inj (ha.symm.trans hb)
    obtain ⟨hi, rfl⟩ := List.getElem?_eq_some_iff.mp ha
    rw [List.set_set, List.set_getElem_self]
  · rfl

/-- An element behind a part of the list comes into it, and another one out of it. -/
theorem swap_back (p q s : List α) (x z : α) :
    swap (p ++ z :: q ++ x :: s) (p.length + q.length + 1) p.length = p ++ x :: q ++ z :: s := by
  have hi : (p ++ z :: q ++ x :: s)[p.length + q.length + 1]? = some x := by
    rw [List.getElem?_append_right (by simp; omega)]
    simp
  have hj : (p ++ z :: q ++ x :: s)[p.length]? = some z := by
    rw [List.append_assoc, List.getElem?_append_right (Nat.le_refl _)]
    simp
  unfold swap
  rw [hi, hj]
  simp only
  rw [List.set_append_right _ _ (by simp; omega), List.append_assoc, List.set_append_right _ _ (Nat.le_refl _)]
  simp

/-- The last number of a pass can be any. -/
theorem exists_draw (draw : Nat → Nat) (l : List α) {n j : Nat} (hj : j ≤ n) :
    ∃ draw', shuffleTo draw' l (n + 1) = swap (shuffleTo draw l n) n j := by
  refine ⟨fun i => if i = n then j else draw i, ?_⟩
  have hbefore : shuffleTo (fun i => if i = n then j else draw i) l n = shuffleTo draw l n :=
    shuffleTo_congr l fun i hi => if_neg (Nat.ne_of_lt hi)
  rw [shuffleTo, hbefore, if_pos rfl, Nat.mod_eq_of_lt (Nat.lt_succ_of_le hj)]

/-- The pass over a part of the list can leave any order of that part. -/
theorem exists_shuffleTo (n : Nat) : ∀ {l l' : List α} (s : List α), l.length = n → l.Perm l' →
    ∃ draw, shuffleTo draw (l ++ s) n = l' ++ s := by
  induction n with
  | zero =>
    intro l l' s hlen hperm
    obtain rfl := List.eq_nil_of_length_eq_zero hlen
    obtain rfl := List.nil_perm.mp hperm
    exact ⟨id, rfl⟩
  | succ n ih =>
    intro l l' s hlen hperm
    obtain ⟨l₀, x, rfl⟩ : ∃ l₀ x, l = l₀ ++ [x] := by
      refine ⟨l.dropLast, l.getLast (by rintro rfl; cases hlen), ?_⟩
      exact (List.dropLast_append_getLast _).symm
    have hlen₀ : l₀.length = n := by simpa using hlen
    obtain ⟨p, q, rfl⟩ := List.append_of_mem (hperm.subset (List.mem_append_right l₀ (List.mem_singleton_self x)))
    have hperm₀ : l₀.Perm (p ++ q) := by
      have hmid := (List.perm_append_singleton x l₀).symm.trans (hperm.trans List.perm_middle)
      exact (List.perm_cons x).mp hmid
    -- the last element stays, or changes places with the one that is to be last
    rcases List.eq_nil_or_concat' q with rfl | ⟨q, z, rfl⟩
    · rw [List.append_nil] at hperm₀
      obtain ⟨draw, hdraw⟩ := ih (x :: s) hlen₀ hperm₀
      obtain ⟨draw', hdraw'⟩ := exists_draw draw (l₀ ++ x :: s) (Nat.le_refl n)
      refine ⟨draw', ?_⟩
      rw [List.append_assoc, List.append_assoc, List.singleton_append, hdraw', swap_self, hdraw]
    · have hback : (p ++ (q ++ [z])).Perm (p ++ z :: q) :=
        List.Perm.append_left p (List.perm_append_singleton z q)
      obtain ⟨draw, hdraw⟩ := ih (x :: s) hlen₀ (hperm₀.trans hback)
      have hn : n = p.length + q.length + 1 := by
        have hcount := hperm₀.length_eq
        simp only [List.length_append, List.length_cons, List.length_nil] at hcount
        omega
      obtain ⟨draw', hdraw'⟩ := exists_draw draw (l₀ ++ x :: s) (j := p.length) (n := n) (by omega)
      refine ⟨draw', ?_⟩
      rw [List.append_assoc, List.singleton_append, hdraw', hdraw, hn, swap_back]
      simp

theorem exists_shuffle {l l' : List α} (h : l.Perm l') : ∃ draw, shuffle draw l = l' := by
  obtain ⟨draw, hdraw⟩ := exists_shuffleTo l.length [] rfl h
  rw [List.append_nil, List.append_nil] at hdraw
  exact ⟨draw, hdraw⟩

end Shuffle
