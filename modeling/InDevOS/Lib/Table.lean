import Mathlib

/-! Totals over the rows of a table.

A table of `n` rows is a function of the row number; `total n w t` adds up a weight over
its rows. Changing one row changes the total by the difference of its weights, which is
all that the accounting of links, handles and chunks needs. -/
namespace InDevOS.Lib

variable {α : Type*}

/-- The sum of a weight over the first `n` rows. -/
def total (n : Nat) (w : α → Nat) (t : Nat → α) : Nat := ∑ i ∈ Finset.range n, w (t i)

theorem total_update {n i : Nat} (hi : i < n) (w : α → Nat) (t : Nat → α) (a : α) :
    total n w (Function.update t i a) + w (t i) = total n w t + w a := by
  have hmem : i ∈ Finset.range n := Finset.mem_range.2 hi
  unfold total
  rw [← Finset.add_sum_erase _ _ hmem, ← Finset.add_sum_erase (Finset.range n) (fun j => w (t j)) hmem,
    Function.update_self]
  have hrest : ∑ j ∈ (Finset.range n).erase i, w (Function.update t i a j) =
      ∑ j ∈ (Finset.range n).erase i, w (t j) := by
    refine Finset.sum_congr rfl fun j hj => ?_
    rw [Function.update_of_ne (Finset.ne_of_mem_erase hj)]
  omega

theorem total_congr {n : Nat} {w w' : α → Nat} {t t' : Nat → α}
    (h : ∀ i < n, w (t i) = w' (t' i)) : total n w t = total n w' t' :=
  Finset.sum_congr rfl fun i hi => h i (Finset.mem_range.1 hi)

theorem total_of_le {n m : Nat} (hnm : n ≤ m) {w : α → Nat} {t : Nat → α}
    (h : ∀ i, n ≤ i → w (t i) = 0) : total m w t = total n w t := by
  refine (Finset.sum_subset (Finset.range_subset_range.2 hnm) fun i _ hi => h i ?_).symm
  simpa using hi

theorem total_eq_zero_iff {n : Nat} {w : α → Nat} {t : Nat → α} :
    total n w t = 0 ↔ ∀ i < n, w (t i) = 0 := by
  simp [total, Finset.sum_eq_zero_iff]

theorem le_total {n i : Nat} (hi : i < n) (w : α → Nat) (t : Nat → α) : w (t i) ≤ total n w t :=
  Finset.single_le_sum (f := fun i => w (t i)) (fun _ _ => Nat.zero_le _) (Finset.mem_range.2 hi)

end InDevOS.Lib
