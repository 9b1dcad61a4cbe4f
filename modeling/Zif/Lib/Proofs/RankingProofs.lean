import Zif.Lib.Ranking

/-!
# Proofs: ranking by a key

What is ranked stays in the same relative order when elements are added (`byKey_sublist`), and when they
are changed without changing their keys (`byKey_map`).
-/

namespace Ranking

variable {α β : Type} {key : α → Int}

instance isTrans_key (key : α → Int) : IsTrans α fun a b => key b ≤ key a := ⟨fun _ _ _ hab hbc => hbc.trans hab⟩

instance total_key (key : α → Int) : Std.Total fun a b => key b ≤ key a := ⟨fun a b => le_total (key b) (key a)⟩

theorem byKey_perm (key : α → Int) (l : List α) : (byKey key l).Perm l :=
  List.perm_insertionSort _ l

theorem byKey_pairwise (key : α → Int) (l : List α) :
    (byKey key l).Pairwise fun a b => key b ≤ key a :=
  List.pairwise_insertionSort _ l

/-- Adding elements does not change the order of the others. -/
theorem byKey_sublist {l l' : List α} (h : l.Sublist l') : (byKey key l).Sublist (byKey key l') := by
  induction h with
  | slnil => exact List.Sublist.refl _
  | cons a _ ih => exact ih.trans (List.sublist_orderedInsert a _)
  | cons_cons a _ ih => exact List.Sublist.orderedInsert_sublist a ih (byKey_pairwise key _)

/-- Changing elements does not change their order if it does not change their keys. -/
theorem byKey_map {key' : β → Int} {f : α → β} (hf : ∀ a, key' (f a) = key a) (l : List α) :
    byKey key' (l.map f) = (byKey key l).map f := by
  refine (List.map_insertionSort _ _ f l fun a _ b _ => ?_).symm
  rw [hf, hf]

end Ranking
