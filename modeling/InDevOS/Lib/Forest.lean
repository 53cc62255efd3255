import Mathlib

/-! Forests given by parent links.

`up a` is the parent of `a`, if it has one; `Above up a b` says that following the links
from `a` meets `b`. The lemmas say which changes of the links keep a node below a root:
a new leaf, a leaf taken away, and a subtree moved to a place that is not inside it. Over
finitely many nodes a node above another is met within that many steps
(`Above.climb_lt`). -/
namespace InDevOS.Lib
open Function

variable {α : Type*}

/-- Follow `k` parent links. -/
def climb (up : α → Option α) : Nat → α → Option α
  | 0, a => some a
  | k + 1, a => (up a).bind (climb up k)

/-- `b` is `a` or one of its ancestors. -/
def Above (up : α → Option α) (a b : α) : Prop := ∃ k, climb up k a = some b

theorem climb_add (up : α → Option α) (i j : Nat) (a : α) :
    climb up (i + j) a = (climb up i a).bind (climb up j) := by
  induction i generalizing a with
  | zero => rw [Nat.zero_add, climb, Option.bind_some]
  | succ i ih =>
    rw [Nat.succ_add, climb, climb, Option.bind_assoc]
    congr 1
    funext b
    exact ih b

namespace Above
variable {up up' : α → Option α} {a b c d r x : α}

theorem refl (up : α → Option α) (a : α) : Above up a a := ⟨0, rfl⟩

theorem head (hab : up a = some b) (hbc : Above up b c) : Above up a c := by
  obtain ⟨k, hk⟩ := hbc
  exact ⟨k + 1, by rw [climb, hab, Option.bind_some, hk]⟩

/-- Induction from the ancestor down. -/
theorem head_induction {p : α → Prop} (h : Above up a c) (hc : p c)
    (hstep : ∀ a b, up a = some b → Above up b c → p b → p a) : p a := by
  obtain ⟨k, hk⟩ := h
  induction k generalizing a with
  | zero => exact Option.some.inj hk ▸ hc
  | succ k ih =>
    obtain ⟨b, hab, hb⟩ := Option.bind_eq_some_iff.1 hk
    exact hstep a b hab ⟨k, hb⟩ (ih hb)

/-- Links that are kept for every node on the way keep what is above. -/
theorem congr (h : Above up a c) (hup : ∀ b, Above up a b → up b ≠ none → b ≠ c → up' b = up b) :
    Above up' a c := by
  obtain ⟨k, hk⟩ := h
  induction k generalizing a with
  | zero => exact ⟨0, hk⟩
  | succ k ih =>
    obtain ⟨b, hab, hb⟩ := Option.bind_eq_some_iff.1 hk
    by_cases hac : a = c
    · exact hac ▸ refl up' a
    · refine head ?_ (ih (fun x hx => hup x (head hab hx)) hb)
      rw [hup a (refl up a) (by simp [hab]) hac, hab]

section Update
variable [DecidableEq α]

theorem attach (hx : up x = none) (hr : x ≠ r) (h : Above up a r) :
    Above (update up x (some d)) a r := by
  refine h.congr fun b hb hne hbr => update_of_ne ?_ _ _
  rintro rfl
  exact hne hx

theorem detach (hleaf : ∀ b, up b ≠ some x) (ha : a ≠ x) (h : Above up a r) :
    Above (update up x none) a r := by
  refine h.congr fun b hb _ _ => update_of_ne ?_ _ _
  rintro rfl
  obtain ⟨k, hk⟩ := hb
  cases k with
  | zero => exact ha (Option.some.inj hk)
  | succ k =>
    rw [climb_add] at hk
    obtain ⟨y, -, hy⟩ := Option.bind_eq_some_iff.1 hk
    obtain ⟨z, hz, hzb⟩ := Option.bind_eq_some_iff.1 hy
    exact hleaf y (hz.trans hzb)

theorem of_detach (h : Above (update up x none) a b) : Above up a b := by
  refine h.congr fun c _ hc _ => (update_of_ne ?_ _ _).symm
  rintro rfl
  exact hc (update_self _ _ _)

theorem move (hd : ¬ Above up d x) (hdr : Above up d r) (h : Above up a r) :
    Above (update up x (some d)) a r := by
  have hdr' : Above (update up x (some d)) d r := by
    refine hdr.congr fun b hb _ _ => update_of_ne ?_ _ _
    rintro rfl
    exact hd hb
  refine h.head_induction (p := fun a => Above (update up x (some d)) a r) (refl _ r)
    fun a b hab _ ih => ?_
  by_cases hax : a = x
  · exact head (by rw [hax, update_self]) hdr'
  · exact head (by rw [update_of_ne hax, hab]) ih

end Update

/-- Among `n` nodes an ancestor is met in fewer than `n` steps. -/
theorem climb_lt {up : Nat → Option Nat} {a b n : Nat} (h : Above up a b)
    (hn : ∀ x, Above up a x → x < n) : ∃ k < n, climb up k a = some b := by
  classical
  let k := Nat.find h
  have hk : climb up k a = some b := Nat.find_spec h
  refine ⟨k, ?_, hk⟩
  by_contra hlt
  -- the nodes met on the shortest way are different, and more than `n`
  have hmet : ∀ i ≤ k, ∃ x, climb up i a = some x := by
    intro i hi
    obtain ⟨j, hj⟩ := Nat.exists_eq_add_of_le hi
    rw [hj, climb_add] at hk
    obtain ⟨x, hx, -⟩ := Option.bind_eq_some_iff.1 hk
    exact ⟨x, hx⟩
  obtain ⟨i, hi, j, hj, hij, heq⟩ := Finset.exists_ne_map_eq_of_card_lt_of_maps_to
    (s := Finset.range (k + 1)) (t := Finset.range n) (f := fun i => (climb up i a).getD 0)
    (by simp only [Finset.card_range]; omega)
    (fun i hi => by
      obtain ⟨x, hx⟩ := hmet i (by simpa [Nat.lt_succ_iff] using hi)
      simp only [Finset.coe_range, Set.mem_Iio, hx, Option.getD_some]
      exact hn x ⟨i, hx⟩)
  wlog hlt' : i < j generalizing i j
  · exact this j hj i hi hij.symm heq.symm (by omega)
  have hjk : j ≤ k := by simpa [Nat.lt_succ_iff] using hj
  obtain ⟨x, hx⟩ := hmet i (by omega)
  obtain ⟨y, hy⟩ := hmet j hjk
  have hxy : x = y := by simpa [hx, hy] using heq
  have hshort : climb up (i + (k - j)) a = some b := by
    rw [climb_add, hx, hxy, ← hy, ← climb_add, Nat.add_sub_cancel' hjk, hk]
  have := Nat.find_min' h hshort
  omega

end Above

end InDevOS.Lib
