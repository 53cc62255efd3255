import Mathlib

/-! Tables whose rows carry a key.

A table of `n` rows is a function of the row number. A row in use has a key, a free one has
none. `slotOf` is the scan for the first row with a key. While no key stands in two rows
(`Distinct`), the table is a partial map (`view`), and what a row holds is what the map has
at its key (`Distinct.view_iff`). -/
namespace InDevOS.Lib.Keyed
open Function

variable {α K V : Type*} [DecidableEq K] (key : α → Option K) (n : Nat)

/-- The first row with the key. -/
def slotOf (t : Nat → α) (k : K) : Option Nat := (List.range n).find? fun i => decide (key (t i) = some k)

/-- No key stands in two rows. -/
def Distinct (t : Nat → α) : Prop :=
  ∀ i < n, ∀ j < n, ∀ k, key (t i) = some k → key (t j) = some k → i = j

/-- The map that the table is. -/
def view (val : α → V) (t : Nat → α) (k : K) : Option V := (slotOf key n t k).map fun i => val (t i)

variable {key n} {t : Nat → α} {k : K} {i : Nat}

theorem slotOf_some (h : slotOf key n t k = some i) : i < n ∧ key (t i) = some k := by
  have hmem := List.mem_of_find?_eq_some h
  have hkey := List.find?_some h
  exact ⟨List.mem_range.1 hmem, of_decide_eq_true hkey⟩

theorem slotOf_none : slotOf key n t k = none ↔ ∀ i < n, key (t i) ≠ some k := by
  unfold slotOf
  rw [List.find?_eq_none]
  constructor
  · intro h i hi hkey
    exact h i (List.mem_range.2 hi) (decide_eq_true hkey)
  · intro h i hi hkey
    exact h i (List.mem_range.1 hi) (of_decide_eq_true hkey)

theorem Distinct.slotOf_iff (hd : Distinct key n t) : slotOf key n t k = some i ↔ i < n ∧ key (t i) = some k := by
  refine ⟨slotOf_some, fun ⟨hi, hkey⟩ => ?_⟩
  cases hslot : slotOf key n t k with
  | none => exact absurd hkey (slotOf_none.1 hslot i hi)
  | some j =>
    obtain ⟨hj, hkey'⟩ := slotOf_some hslot
    rw [hd i hi j hj k hkey hkey']

theorem Distinct.view_iff (hd : Distinct key n t) {val : α → V} {v : V} :
    view key n val t k = some v ↔ ∃ i < n, key (t i) = some k ∧ val (t i) = v := by
  unfold view
  rw [Option.map_eq_some_iff]
  constructor
  · rintro ⟨i, hslot, hval⟩
    obtain ⟨hi, hkey⟩ := slotOf_some hslot
    exact ⟨i, hi, hkey, hval⟩
  · rintro ⟨i, hi, hkey, hval⟩
    exact ⟨i, hd.slotOf_iff.2 ⟨hi, hkey⟩, hval⟩

theorem view_none {val : α → V} : view key n val t k = none ↔ ∀ i < n, key (t i) ≠ some k := by
  unfold view
  rw [Option.map_eq_none_iff]
  exact slotOf_none

omit [DecidableEq K] in
/-- A row may be rewritten with a key that no other row has. -/
theorem Distinct.update (hd : Distinct key n t) {a : α}
    (hother : ∀ j < n, ∀ k, key a = some k → key (t j) = some k → j = i) :
    Distinct key n (update t i a) := by
  intro j hj l hl k hkj hkl
  by_cases hji : j = i
  · by_cases hli : l = i
    · rw [hji, hli]
    · rw [hji, update_self] at hkj
      rw [update_of_ne hli] at hkl
      exact hji.trans (hother l hl k hkj hkl).symm
  · rw [update_of_ne hji] at hkj
    by_cases hli : l = i
    · rw [hli, update_self] at hkl
      exact (hother j hj k hkl hkj).trans hli.symm
    · rw [update_of_ne hli] at hkl
      exact hd j hj l hl k hkj hkl

omit [DecidableEq K] in
theorem eq_of_key {o : Option K} (h : o = none ∨ o = some k) : ∀ k', o = some k' → k' = k := by
  rintro k' rfl
  simpa using h

/-- The map after a row was rewritten, where neither the old nor the new row has a key but `k`. -/
theorem Distinct.view_update (hd : Distinct key n t) (hi : i < n) {a : α} (ha : key a = none ∨ key a = some k)
    (hrow : key (t i) = none ∨ key (t i) = some k) (hother : ∀ j < n, key (t j) = some k → j = i) (val : α → V) :
    Distinct key n (Function.update t i a) ∧ view key n val (Function.update t i a) =
      Function.update (view key n val t) k ((key a).map fun _ => val a) := by
  have ha := eq_of_key ha
  have hd' : Distinct key n (Function.update t i a) :=
    hd.update fun j hj k' hk' hkj => hother j hj (ha k' hk' ▸ hkj)
  refine ⟨hd', funext fun k' => Option.ext fun v => ?_⟩
  rw [hd'.view_iff]
  by_cases hk : k' = k
  · subst hk
    rw [update_self, Option.map_eq_some_iff]
    constructor
    · rintro ⟨j, hj, hkj, rfl⟩
      by_cases hji : j = i
      · rw [hji, update_self] at hkj ⊢
        exact ⟨k', hkj, rfl⟩
      · rw [update_of_ne hji] at hkj
        exact absurd (hother j hj hkj) hji
    · rintro ⟨k'', hkey, rfl⟩
      obtain rfl := ha k'' hkey
      exact ⟨i, hi, by rwa [update_self], by rw [update_self]⟩
  · rw [update_of_ne hk, hd.view_iff]
    constructor
    · rintro ⟨j, hj, hkj, hval⟩
      by_cases hji : j = i
      · rw [hji, update_self] at hkj
        exact absurd (ha k' hkj) hk
      · rw [update_of_ne hji] at hkj hval
        exact ⟨j, hj, hkj, hval⟩
    · rintro ⟨j, hj, hkj, hval⟩
      have hji : j ≠ i := by
        rintro rfl
        exact hk (eq_of_key hrow k' hkj)
      exact ⟨j, hj, by rwa [update_of_ne hji], by rwa [update_of_ne hji]⟩

end InDevOS.Lib.Keyed
