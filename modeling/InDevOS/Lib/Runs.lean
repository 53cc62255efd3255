import Mathlib

/-! Marks on a table.

A table of `n` cells has a used mark for each cell. Marking a run of clear cells takes its
length off the number of clear cells, unmarking a run of used ones gives it back. -/
namespace InDevOS.Lib

/-- How many of the first `n` cells are clear. -/
def clear (n : Nat) (used : Nat → Bool) : Nat := ((Finset.range n).filter fun i => used i = false).card

def mark (a c : Nat) (used : Nat → Bool) : Nat → Bool := fun j => decide (a ≤ j ∧ j < a + c) || used j

def unmark (a c : Nat) (used : Nat → Bool) : Nat → Bool := fun j =>
  !decide (a ≤ j ∧ j < a + c) && used j

variable {n a c j : Nat} {used : Nat → Bool}

theorem mark_inside (h : a ≤ j ∧ j < a + c) : mark a c used j = true := by
  simp [mark, h]

theorem mark_outside (h : j < a ∨ a + c ≤ j) : mark a c used j = used j := by
  rw [mark, decide_eq_false (by omega), Bool.false_or]

theorem unmark_inside (h : a ≤ j ∧ j < a + c) : unmark a c used j = false := by
  simp [unmark, h]

theorem unmark_outside (h : j < a ∨ a + c ≤ j) : unmark a c used j = used j := by
  rw [unmark, decide_eq_false (by omega), Bool.not_false, Bool.true_and]

theorem clear_unmark (hn : a + c ≤ n) (hused : ∀ j, a ≤ j → j < a + c → used j = true) :
    clear n (unmark a c used) = clear n used + c := by
  have hset : (Finset.range n).filter (fun i => unmark a c used i = false) =
      (Finset.range n).filter (fun i => used i = false) ∪ Finset.Ico a (a + c) := by
    ext j
    simp only [Finset.mem_filter, Finset.mem_range, Finset.mem_union, Finset.mem_Ico]
    by_cases hj : a ≤ j ∧ j < a + c
    · simp only [unmark_inside hj, hj, and_true, or_true, iff_true]
      omega
    · rw [unmark_outside (by omega)]
      simp [hj]
  have hdisj : Disjoint ((Finset.range n).filter fun i => used i = false) (Finset.Ico a (a + c)) := by
    apply Finset.disjoint_left.2
    intro j hj hrun
    rw [Finset.mem_Ico] at hrun
    rw [Finset.mem_filter, hused j hrun.1 hrun.2] at hj
    exact Bool.noConfusion hj.2
  rw [clear, hset, Finset.card_union_of_disjoint hdisj, Nat.card_Ico, clear, Nat.add_sub_cancel_left]

theorem unmark_mark (hfree : ∀ j, a ≤ j → j < a + c → used j = false) :
    unmark a c (mark a c used) = used := by
  funext j
  by_cases hj : a ≤ j ∧ j < a + c
  · rw [unmark_inside hj, hfree j hj.1 hj.2]
  · rw [unmark_outside (by omega), mark_outside (by omega)]

theorem clear_mark (hn : a + c ≤ n) (hfree : ∀ j, a ≤ j → j < a + c → used j = false) :
    clear n (mark a c used) + c = clear n used := by
  have h : clear n (unmark a c (mark a c used)) = clear n (mark a c used) + c :=
    clear_unmark hn fun j hlo hhi => mark_inside ⟨hlo, hhi⟩
  rw [unmark_mark hfree] at h
  exact h.symm

end InDevOS.Lib
