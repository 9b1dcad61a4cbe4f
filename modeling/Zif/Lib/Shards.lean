import Mathlib

/-!
# Maps in shards

A map whose keys are divided into shards, each with a lock of its own. What goes over the whole map, as
counting and iterating do, takes one lock after the other, and the map can change in between.
-/

namespace Shards

variable {κ β : Type} (shard : κ → Nat)

/-- The keys in shard `j`. -/
def part (keys : Finset κ) (j : Nat) : Finset κ := keys.filter (shard · = j)

/-- The keys in the shards before `j`. -/
def below (keys : Finset κ) (j : Nat) : Finset κ := keys.filter (shard · < j)

/-- What is in shard `j` of a map. -/
def items (m : Finmap fun _ : κ => β) (j : Nat) : Multiset (Σ _ : κ, β) := m.entries.filter (shard ·.1 = j)

variable {shard}

@[simp] theorem below_zero (keys : Finset κ) : below shard keys 0 = ∅ := by simp [below]

theorem below_mono {keys keys' : Finset κ} (h : keys ⊆ keys') (j : Nat) :
    below shard keys j ⊆ below shard keys' j := Finset.filter_subset_filter _ h

/-- A count that goes on with the next shard. -/
theorem card_below_succ (keys : Finset κ) (j : Nat) :
    (below shard keys (j + 1)).card = (below shard keys j).card + (part shard keys j).card := by
  classical
  rw [below, below, part, ← Finset.card_union_of_disjoint, ← Finset.filter_or]
  · simp only [Nat.lt_succ_iff_lt_or_eq]
  · refine Finset.disjoint_filter.mpr fun key _ hlt heq => ?_
    omega

/-- When there are no more shards, all keys have been counted. -/
theorem below_all {n : Nat} (h : ∀ key, shard key < n) (keys : Finset κ) {j : Nat} (hj : n ≤ j) :
    below shard keys j = keys :=
  Finset.filter_true_of_mem fun key _ => (h key).trans_le hj

theorem mem_items {m : Finmap fun _ : κ => β} {j : Nat} {item : Σ _ : κ, β} :
    item ∈ items shard m j ↔ item ∈ m.entries ∧ shard item.1 = j := Multiset.mem_filter

/-- An iteration comes upon everything in the map, if it does not change. -/
theorem sum_items {n : Nat} (h : ∀ key, shard key < n) (m : Finmap fun _ : κ => β) :
    ∑ j ∈ Finset.range n, items shard m j = m.entries := by
  classical
  ext item
  simp only [Multiset.count_sum', items, Multiset.count_filter]
  rw [Finset.sum_ite_eq (Finset.range n) (shard item.1), if_pos (Finset.mem_range.mpr (h _))]

end Shards
