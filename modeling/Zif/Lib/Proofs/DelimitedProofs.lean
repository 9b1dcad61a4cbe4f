import Zif.Lib.Delimited

/-!
# Proofs: delimited fields

Clean fields are determined by what is written (`Clean.joined_inj`). A separator inside a field is
counted like one behind it, so of all the ways to read a text as fields the clean one has the most
fields (`Clean.of_joined_eq`).
-/

namespace Delimited

variable {α : Type} {sep : α} {field field' rest rest' : List α} {fields fields' : List (List α)}

@[simp] theorem joined_nil : joined sep [] = [] := by
  simp [joined]

@[simp] theorem joined_cons : joined sep (field :: fields) = field ++ sep :: joined sep fields := by
  simp [joined]

theorem joined_flatMap {β : Type} (f : β → List (List α)) (xs : List β) :
    xs.flatMap (fun x => joined sep (f x)) = joined sep (xs.flatMap f) := by
  simp only [joined, List.flatMap_assoc]

theorem clean_cons : Clean sep (field :: fields) ↔ sep ∉ field ∧ Clean sep fields :=
  List.forall_mem_cons

/-- The first separator ends the first field. -/
theorem append_sep_inj (h : sep ∉ field) (h' : sep ∉ field')
    (heq : field ++ sep :: rest = field' ++ sep :: rest') : field = field' ∧ rest = rest' := by
  induction field generalizing field' with
  | nil =>
    cases field' with
    | nil => exact ⟨rfl, List.tail_eq_of_cons_eq heq⟩
    | cons b field' =>
      injection heq with hb
      exact absurd (hb ▸ List.mem_cons_self) h'
  | cons a field ih =>
    cases field' with
    | nil =>
      injection heq with ha
      exact absurd (ha ▸ List.mem_cons_self) h
    | cons b field' =>
      injection heq with hab htail
      obtain ⟨hfield, hrest⟩ := ih (List.not_mem_of_not_mem_cons h)
        (List.not_mem_of_not_mem_cons h') htail
      exact ⟨by rw [hab, hfield], hrest⟩

/-- Clean fields can be read back. -/
theorem Clean.joined_inj (h : Clean sep fields) (h' : Clean sep fields')
    (heq : joined sep fields = joined sep fields') : fields = fields' := by
  induction fields generalizing fields' with
  | nil =>
    cases fields' with
    | nil => rfl
    | cons field' fields' => simp at heq
  | cons field fields ih =>
    cases fields' with
    | nil => simp at heq
    | cons field' fields' =>
      rw [joined_cons, joined_cons] at heq
      obtain ⟨hfield, hrest⟩ := append_sep_inj (clean_cons.mp h).1 (clean_cons.mp h').1 heq
      rw [hfield, ih (clean_cons.mp h).2 (clean_cons.mp h').2 hrest]

variable [DecidableEq α]

theorem length_le_count_joined (sep : α) (fields : List (List α)) :
    fields.length ≤ (joined sep fields).count sep := by
  induction fields with
  | nil => simp
  | cons field fields ih =>
    rw [joined_cons, List.count_append, List.count_cons_self, List.length_cons]
    omega

/-- There are as many separators as fields exactly when the fields are clean. -/
theorem count_joined_eq_iff :
    (joined sep fields).count sep = fields.length ↔ Clean sep fields := by
  induction fields with
  | nil => simp [Clean]
  | cons field fields ih =>
    have hle := length_le_count_joined sep fields
    rw [clean_cons, ← ih, ← List.count_eq_zero, joined_cons, List.count_append,
      List.count_cons_self, List.length_cons]
    omega

/-- Fields that are written like clean ones, and are not fewer, are the same fields. -/
theorem Clean.of_joined_eq (h : Clean sep fields) (hlen : fields.length ≤ fields'.length)
    (heq : joined sep fields = joined sep fields') : fields = fields' := by
  have hcount := count_joined_eq_iff.mpr h
  have hle := length_le_count_joined sep fields'
  rw [heq] at hcount
  exact h.joined_inj (count_joined_eq_iff.mp (by omega)) heq

end Delimited
