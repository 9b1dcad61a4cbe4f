import Zif.Lib.Recency

/-!
# Proofs: recency lists

`touch` on a truncated recency list is the truncation of `promote` (`touch_take`), so a bounded
bucket always holds the first `cap` objects of the unbounded list (`foldl_touch`).
-/

namespace Recency

variable {α κ : Type} [DecidableEq κ] {key : α → κ}

/-! ## Promotion -/

theorem mem_promote {l : List α} {a x : α} :
    x ∈ promote key l a ↔ x = a ∨ x ∈ l ∧ key x ≠ key a := by
  simp [promote]

theorem Distinct.promote {l : List α} (h : Distinct key l) (a : α) :
    Distinct key (promote key l a) := by
  unfold Distinct Recency.promote
  rw [List.map_cons, List.nodup_cons]
  constructor
  · simp
  · exact h.sublist ((List.filter_sublist).map key)

theorem distinct_recent (uses : List α) : Distinct key (recent key uses) := by
  unfold recent
  induction uses using List.reverseRecOn with
  | nil => simp [Distinct]
  | append_singleton uses a ih =>
    rw [List.foldl_append]
    exact ih.promote a

theorem recent_append_singleton (uses : List α) (a : α) :
    recent key (uses ++ [a]) = promote key (recent key uses) a := by
  simp [recent]

/-- Every object of the recency list was used. -/
theorem mem_of_mem_recent {uses : List α} {x : α} (h : x ∈ recent key uses) : x ∈ uses := by
  induction uses using List.reverseRecOn with
  | nil => simp [recent] at h
  | append_singleton uses a ih =>
    rw [recent_append_singleton, mem_promote] at h
    rcases h with rfl | ⟨h, -⟩
    · simp
    · exact List.mem_append_left _ (ih h)

/-! ## The bounded implementation -/

/-- Removing the only object with a key is filtering that key out. -/
theorem take_append_drop_eq_filter {l : List α} (hd : Distinct key l) {n : Nat} {k : κ}
    (hn : l.findIdx? (fun x => key x = k) = some n) :
    l.take n ++ l.drop (n + 1) = l.filter fun x => key x ≠ k := by
  obtain ⟨hlt, hkey, hbefore⟩ := List.findIdx?_eq_some_iff_getElem.mp hn
  have hsplit : l = l.take n ++ l[n] :: l.drop (n + 1) := by
    rw [← List.drop_eq_getElem_cons hlt, List.take_append_drop]
  have hk : key l[n] = k := by simpa using hkey
  have hd' : ((l.take n).map key ++ key l[n] :: (l.drop (n + 1)).map key).Nodup := by
    have h : ((l.take n ++ l[n] :: l.drop (n + 1)).map key).Nodup := hsplit ▸ hd
    rwa [List.map_append, List.map_cons] at h
  have hne : ∀ x ∈ l.take n ++ l.drop (n + 1), key x ≠ k := by
    intro x hx hxk
    rw [List.nodup_middle, List.nodup_cons] at hd'
    apply hd'.1
    rw [hk, ← hxk, ← List.map_append]
    exact List.mem_map_of_mem hx
  conv_rhs => rw [hsplit]
  rw [List.filter_append, List.filter_cons_of_neg (by simp [hk]), ← List.filter_append]
  exact (List.filter_eq_self.mpr (by simpa using hne)).symm

/-- `touch` on the first `cap` objects of a recency list gives the first `cap` objects of the
promoted list. -/
theorem touch_take {cap : Nat} (hcap : 0 < cap) {l : List α} (hd : Distinct key l) (a : α) :
    touch key cap (l.take cap) a = (promote key l a).take cap := by
  obtain ⟨c, rfl⟩ : ∃ c, cap = c + 1 := ⟨cap - 1, by omega⟩
  have hdt : Distinct key (l.take (c + 1)) := hd.sublist ((List.take_sublist _ _).map key)
  have hfilter : (promote key l a).take (c + 1) =
      a :: ((l.take (c + 1)).filter (fun x => key x ≠ key a) ++
        (l.drop (c + 1)).filter fun x => key x ≠ key a).take c := by
    rw [← List.filter_append, List.take_append_drop]
    rfl
  rw [hfilter]
  unfold touch
  split
  · rename_i n hn
    -- `a` is among the first `cap`: filtering removes exactly one of them
    have hrem := take_append_drop_eq_filter hdt hn
    have hlt := (List.findIdx?_eq_some_iff_getElem.mp hn).1
    have hlen : ((l.take (c + 1)).filter fun x => key x ≠ key a).length =
        (l.take (c + 1)).length - 1 := by
      rw [← hrem]
      simp only [List.length_append, List.length_take, List.length_drop] at hlt ⊢
      omega
    have hle : ((l.take (c + 1)).filter fun x => key x ≠ key a).length ≤ c := by
      rw [hlen, List.length_take]
      omega
    rw [hrem]
    congr 1
    by_cases hfull : c + 1 ≤ l.length
    · have hc : ((l.take (c + 1)).filter fun x => key x ≠ key a).length = c := by
        rw [hlen, List.length_take]
        omega
      rw [List.take_append_of_le_length (by omega), List.take_of_length_le hle]
    · rw [List.drop_eq_nil_of_le (by omega), List.filter_nil, List.append_nil,
        List.take_of_length_le hle]
  · rename_i hn
    have hself : (l.take (c + 1)).filter (fun x => key x ≠ key a) = l.take (c + 1) := by
      rw [List.filter_eq_self]
      intro x hx
      have := List.findIdx?_eq_none_iff.mp hn x hx
      simpa using this
    rw [hself]
    congr 1
    split
    · rename_i hfull
      rw [List.take_append_of_le_length (by omega), hfull, Nat.add_sub_cancel]
    · rename_i hroom
      have hlt : l.length < c + 1 := by
        simp only [List.length_take] at hroom
        omega
      have hle : (l.take (c + 1)).length ≤ c := by
        rw [List.length_take]
        omega
      rw [List.drop_eq_nil_of_le (by omega), List.filter_nil, List.append_nil,
        List.take_of_length_le hle]

/-- A bucket filled by `touch` alone holds the first `cap` objects of the recency list. -/
theorem foldl_touch {cap : Nat} (hcap : 0 < cap) (uses : List α) :
    uses.foldl (touch key cap) [] = (recent key uses).take cap := by
  induction uses using List.reverseRecOn with
  | nil => simp [recent]
  | append_singleton uses a ih =>
    rw [List.foldl_append, List.foldl_cons, List.foldl_nil, ih,
      touch_take hcap (distinct_recent uses), recent_append_singleton]

/-- While it does not overflow, `touch` is `promote`. -/
theorem touch_eq_take {cap : Nat} (hcap : 0 < cap) {l : List α} (hd : Distinct key l)
    (hlen : l.length ≤ cap) (a : α) : touch key cap l a = (promote key l a).take cap := by
  have h := touch_take hcap hd a
  rwa [List.take_of_length_le hlen] at h

/-- Promoting by key commutes with taking keys. -/
theorem map_promote (l : List α) (a : α) :
    (promote key l a).map key = promote id (l.map key) (key a) := by
  simp [promote, List.filter_map, Function.comp_def]

theorem length_promote_of_mem {l : List κ} (hd : l.Nodup) {k : κ} (hk : k ∈ l) :
    (promote id l k).length = l.length := by
  have herase : l.filter (fun x => x ≠ k) = l.erase k := by
    rw [hd.erase_eq_filter]
    refine List.filter_congr fun x _ => ?_
    by_cases h : x = k <;> simp [h]
  simp only [promote, id, List.length_cons, herase, List.length_erase_of_mem hk]
  have := List.length_pos_of_mem hk
  omega

/-- Touching an object that is present only reorders. -/
theorem map_touch_of_mem {cap : Nat} (hcap : 0 < cap) {l : List α} (hd : Distinct key l)
    (hlen : l.length ≤ cap) {a : α} (ha : key a ∈ l.map key) :
    (touch key cap l a).map key = promote id (l.map key) (key a) := by
  have hpl : (promote key l a).length ≤ cap := by
    have := length_promote_of_mem hd ha
    rw [← map_promote, List.length_map, List.length_map] at this
    omega
  rw [touch_eq_take hcap hd hlen, List.take_of_length_le hpl, map_promote]

/-! ## Walking over a list while it is shifted -/

theorem length_shifted (l : List α) : (shifted l).length = l.length := by
  cases l with
  | nil => rfl
  | cons a l => cases l <;> simp [shifted]

theorem shifted_cons_cons (a b : α) {l : List α} (hl : l ≠ []) :
    shifted (a :: b :: l) = a :: (l ++ [l.getLast hl]) := by
  simp [shifted, List.getLast?_cons, List.getLast?_eq_some_getLast hl]

theorem shifted_of_length_le_two {l : List α} (hl : l.length ≤ 2) : shifted l = l := by
  match l, hl with
  | [], _ => rfl
  | [_], _ => rfl
  | [_, _], _ => rfl

/-- A walk that meets the second of three objects or more does not meet it in its place. -/
theorem take_shifted_eq_iff {l : List α} (hd : l.Nodup) (k : Nat) :
    (shifted l).take k = l.take k ↔ l.length ≤ 2 ∨ k ≤ 1 := by
  constructor
  · intro h
    by_contra hlong
    obtain ⟨hl, hk⟩ := not_or.mp hlong
    obtain ⟨k, rfl⟩ : ∃ m, k = m + 2 := ⟨k - 2, by omega⟩
    rcases l with _ | ⟨a, _ | ⟨b, _ | ⟨c, l⟩⟩⟩
    · simp at hl
    · simp at hl
    · simp at hl
    · rw [shifted_cons_cons a b (by simp)] at h
      simp only [List.cons_append, List.take_succ_cons, List.cons.injEq] at h
      simp [h.2.1] at hd
  · rintro (hl | hk)
    · rw [shifted_of_length_le_two hl]
    · match l, k with
      | [], _ => rfl
      | a :: l, 0 => rfl
      | a :: l, 1 => rfl

theorem shifted_eq_self_iff {l : List α} (hd : l.Nodup) : shifted l = l ↔ l.length ≤ 2 := by
  have h := take_shifted_eq_iff hd (l.length + 2)
  rw [List.take_of_length_le (by rw [length_shifted]; omega), List.take_of_length_le (by omega)] at h
  rw [h]
  omega

/-- The first `r` objects met are among the first `r + 1` objects. -/
theorem mem_take_of_mem_shifted {l : List α} {r : Nat} {x : α} (hx : x ∈ (shifted l).take r) :
    x ∈ l.take (r + 1) := by
  match l with
  | [] => simp [shifted] at hx
  | [a] =>
    have := List.mem_of_mem_take hx
    simpa [shifted] using this
  | a :: b :: l =>
    by_cases hl : l = []
    · subst hl
      have hx' := List.mem_of_mem_take hx
      cases r with
      | zero => simp at hx
      | succ r => simpa [shifted] using hx'
    · rw [shifted_cons_cons a b hl] at hx
      cases r with
      | zero => simp at hx
      | succ r =>
        rw [List.take_succ_cons, List.mem_cons] at hx
        rw [List.take_succ_cons, List.take_succ_cons]
        rcases hx with rfl | hx
        · simp
        · refine List.mem_cons_of_mem _ (List.mem_cons_of_mem _ ?_)
          by_cases hr : r ≤ l.length
          · rwa [List.take_append_of_le_length hr] at hx
          · rw [List.take_of_length_le (by omega)]
            rcases List.mem_append.mp (List.mem_of_mem_take hx) with h | h
            · exact h
            · rw [List.mem_singleton.mp h]
              exact List.getLast_mem hl

theorem mem_of_mem_shifted {l : List α} {x : α} (hx : x ∈ shifted l) : x ∈ l := by
  have h := mem_take_of_mem_shifted (r := l.length) (x := x)
    (by rwa [List.take_of_length_le (length_shifted l).le])
  exact List.mem_of_mem_take h

theorem getLast_mem_shifted {l : List α} (hl : l ≠ []) : l.getLast hl ∈ shifted l := by
  match l, hl with
  | [a], _ => simp [shifted]
  | [a, b], _ => simp [shifted]
  | a :: b :: c :: l, _ =>
    rw [shifted_cons_cons a b (by simp)]
    simp

/-- Everything but the second object is met. -/
theorem mem_shifted_cons_cons {a b : α} {l : List α} {x : α} (hx : x ∈ a :: b :: l) (hb : x ≠ b) :
    x ∈ shifted (a :: b :: l) := by
  by_cases hl : l = []
  · subst hl
    simpa [shifted] using hx
  · rw [shifted_cons_cons a b hl]
    rcases List.mem_cons.mp hx with rfl | hx
    · simp
    · rcases List.mem_cons.mp hx with rfl | hx
      · exact absurd rfl hb
      · simp [hx]

/-- With three objects or more, the second one is not met. -/
theorem not_mem_shifted_second {a b : α} {l : List α} (hl : l ≠ []) (hd : (a :: b :: l).Nodup) :
    b ∉ shifted (a :: b :: l) := by
  rw [shifted_cons_cons a b hl]
  have hba : b ≠ a := fun h => by simp [h] at hd
  have hbl : b ∉ l := by
    have := (List.nodup_cons.mp hd).2
    exact (List.nodup_cons.mp this).1
  have hlast : b ≠ l.getLast hl := fun h => hbl (h ▸ List.getLast_mem hl)
  simp [hba, hbl, hlast]

/-- Met in full, a list of three objects or more repeats one. -/
theorem not_nodup_shifted {l : List α} (hl : 3 ≤ l.length) : ¬ (shifted l).Nodup := by
  match l, hl with
  | a :: b :: c :: l, _ =>
    rw [shifted_cons_cons a b (by simp)]
    intro hd
    have hdup := (List.nodup_cons.mp hd).2
    rw [List.nodup_append] at hdup
    exact hdup.2.2 _ (List.getLast_mem (by simp)) _ (List.mem_singleton_self _) rfl

/-- Cut off before its end, or short, the walk meets no object twice. -/
theorem nodup_take_shifted {l : List α} (hd : l.Nodup) {r : Nat} (hr : r < l.length ∨ l.length ≤ 2) :
    ((shifted l).take r).Nodup := by
  rcases Nat.lt_or_ge 2 l.length with hlen | hlen
  · match l, hlen with
    | a :: b :: c :: l, _ =>
      have hlt : r < l.length + 3 := by
        simp only [List.length_cons] at hr
        omega
      rw [shifted_cons_cons a b (by simp)]
      cases r with
      | zero => simp
      | succ r =>
        rw [List.take_succ_cons, List.take_append_of_le_length (by simp; omega)]
        have hsub : (a :: (c :: l).take r).Sublist (a :: b :: c :: l) :=
          ((List.take_sublist r (c :: l)).trans (List.sublist_cons_self b _)).cons_cons a
        exact hd.sublist hsub
  · rw [shifted_of_length_le_two hlen]
    exact hd.sublist (List.take_sublist _ _)

/-! ## Promoting everything that is met -/

section Keys

variable {l : List κ}

/-- Promoting the objects of a suffix one after the other reverses it to the front. -/
theorem foldl_promote_suffix (done pre mid : List κ) (hd : (done ++ pre ++ mid).Nodup) :
    mid.foldl (promote id) (done.reverse ++ pre ++ mid) = (done ++ mid).reverse ++ pre := by
  induction mid generalizing done with
  | nil => simp
  | cons m mid ih =>
    have hm : m ∉ done ∧ m ∉ pre ∧ m ∉ mid := by
      rw [List.nodup_middle, List.nodup_cons] at hd
      simpa [not_or, and_assoc] using hd.1
    have hstep : promote id (done.reverse ++ pre ++ m :: mid) m =
        (done ++ [m]).reverse ++ pre ++ mid := by
      have hself : ∀ xs : List κ, m ∉ xs → xs.filter (fun x => x ≠ m) = xs := by
        intro xs hxs
        rw [List.filter_eq_self]
        intro x hx
        simpa using fun h : x = m => hxs (h ▸ hx)
      simp only [promote, id, List.filter_append, List.reverse_append, List.reverse_cons,
        List.reverse_nil, List.nil_append, List.cons_append]
      rw [hself _ (by simpa using hm.1), hself _ hm.2.1, List.filter_cons_of_neg (by simp),
        hself _ hm.2.2]
    have hd' : (done ++ [m] ++ pre ++ mid).Nodup := by
      have hperm : (done ++ pre ++ m :: mid).Perm (done ++ [m] ++ pre ++ mid) := by
        simpa using List.Perm.append_left done (@List.perm_middle κ m pre mid)
      exact hperm.nodup_iff.mp hd
    rw [List.foldl_cons, hstep, ih (done ++ [m]) hd']
    simp

/-- The front object stays where it is when it is promoted. -/
theorem promote_head {a : κ} {l : List κ} (hd : (a :: l).Nodup) : promote id (a :: l) a = a :: l := by
  have ha := (List.nodup_cons.mp hd).1
  simp only [promote, id]
  rw [List.filter_cons_of_neg (by simp), List.filter_eq_self.mpr]
  intro x hx
  simpa using fun h : x = a => ha (h ▸ hx)

/-- A walk over three objects or more brings the objects behind the second one to the front, the
last one first. -/
theorem walkOver_cons_cons {a b : κ} (hl : l ≠ []) (hd : (a :: b :: l).Nodup) :
    walkOver (a :: b :: l) = l.reverse ++ [a, b] := by
  rw [walkOver, shifted_cons_cons a b hl, List.foldl_cons, promote_head hd, List.foldl_append]
  have hsuffix := foldl_promote_suffix [] [a, b] l (by simpa using hd)
  simp only [List.reverse_nil, List.nil_append, List.cons_append] at hsuffix
  rw [hsuffix, List.foldl_cons, List.foldl_nil]
  have hrev : l.reverse = l.getLast hl :: l.dropLast.reverse := by
    conv_lhs => rw [← List.dropLast_append_getLast hl]
    simp
  have hdr : (l.reverse ++ [a, b]).Nodup := by
    refine (List.Perm.nodup_iff ?_).mp hd
    exact (@List.perm_append_comm κ [a, b] l).trans
      ((List.reverse_perm l).symm.append_right _)
  rw [hrev, List.cons_append] at hdr ⊢
  exact promote_head hdr

/-- Promoting members keeps the objects and their number. -/
theorem perm_foldl_promote (met : List κ) (hd : l.Nodup) (hmet : ∀ x ∈ met, x ∈ l) :
    (met.foldl (promote id) l).Perm l := by
  induction met generalizing l with
  | nil => exact List.Perm.refl l
  | cons k met ih =>
    have hk := hmet k (by simp)
    have hperm : (promote id l k).Perm l := by
      refine (List.perm_ext_iff_of_nodup ?_ hd).mpr fun x => ?_
      · have hdist : Distinct id l := by simpa [Distinct] using hd
        have := hdist.promote k
        simpa [Distinct] using this
      · rw [mem_promote]
        constructor
        · rintro (rfl | h)
          · exact hk
          · exact h.1
        · intro hx
          by_cases hxk : x = k
          · exact Or.inl hxk
          · exact Or.inr ⟨hx, hxk⟩
    have hrest := ih (hperm.nodup_iff.mpr hd)
      (fun x hx => hperm.mem_iff.mpr (hmet x (List.mem_cons_of_mem k hx)))
    exact hrest.trans hperm

theorem perm_walkOver (hd : l.Nodup) : (walkOver l).Perm l :=
  perm_foldl_promote (shifted l) hd fun _ => mem_of_mem_shifted

/-- The object met last is at the front afterwards. -/
theorem exists_walkOver_eq_cons (hl : l ≠ []) : ∃ x rest, walkOver l = x :: rest ∧ x ∈ shifted l := by
  rcases List.eq_nil_or_concat (shifted l) with h | ⟨met, x, h⟩
  · have := length_shifted l
    rw [h] at this
    exact absurd (List.length_eq_zero_iff.mp this.symm) hl
  · refine ⟨x, (met.foldl (promote id) l).filter fun y => y ≠ x, ?_, by simp [h]⟩
    rw [walkOver, h, List.concat_eq_append, List.foldl_append]
    rfl

/-- Two walks in a row meet every object. -/
theorem mem_shifted_or_shifted_walkOver (hd : l.Nodup) {x : κ} (hx : x ∈ l) :
    x ∈ shifted l ∨ x ∈ shifted (walkOver l) := by
  rcases Nat.lt_or_ge 2 l.length with hlen | hlen
  · match l, hlen with
    | a :: b :: c :: l, _ =>
      by_cases hxb : x = b
      · subst hxb
        right
        rw [walkOver_cons_cons (by simp) hd]
        have := getLast_mem_shifted (l := (c :: l).reverse ++ [a, x]) (by simp)
        simpa using this
      · exact Or.inl (mem_shifted_cons_cons hx hxb)
  · left
    rwa [shifted_of_length_le_two hlen]

/-- The object the first walk skips comes next to last in the second one. -/
theorem not_mem_take_shifted_walkOver {a b : κ} {r : Nat} (hl : l ≠ []) (hd : (a :: b :: l).Nodup)
    (hr : r ≤ l.length) : b ∉ (shifted (walkOver (a :: b :: l))).take r := by
  intro hb
  have hmem := mem_take_of_mem_shifted hb
  rw [walkOver_cons_cons hl hd] at hmem
  have hsplit : l.reverse ++ [a, b] = (l.reverse ++ [a]) ++ [b] := by simp
  rw [hsplit, List.take_append_of_le_length (by simp; omega)] at hmem
  have hmem' := List.mem_of_mem_take hmem
  have hne : b ≠ a := fun h => by simp [h] at hd
  have hbl : b ∉ l := (List.nodup_cons.mp (List.nodup_cons.mp hd).2).1
  simp [hne, hbl] at hmem'

end Keys

end Recency
