import Mathlib

/-! Circular buffers.

A buffer of `n` slots is a function on slot numbers. `write` and `read` go slot by
slot and wrap at the end, as the loops of a driver or a pipe do; `copyIn` and
`copyOut` are the same transfers made of at most two block copies. What a buffer holds
is read off with `slice`: the `c` elements from slot `h` on. A write behind a slice
extends it (`slice_write`), a read takes from its front (`slice_drop`). -/
namespace InDevOS.Lib.Ring
open List

variable {α : Type*} {n : Nat}

/-- Store a list from slot `p` on, wrapping at `n`. -/
def write (n : Nat) : (p : Nat) → List α → (Nat → α) → (Nat → α)
  | _, [], b => b
  | p, a :: l, b => write n ((p + 1) % n) l (Function.update b p a)

/-- Fetch `c` elements from slot `p` on, wrapping at `n`. -/
def read (n : Nat) : (p c : Nat) → (Nat → α) → List α
  | _, 0, _ => []
  | p, c + 1, b => b p :: read n ((p + 1) % n) c b

/-- The slot reached from `p` in `c` steps. -/
def advance (n : Nat) : (p c : Nat) → Nat
  | p, 0 => p
  | p, c + 1 => advance n ((p + 1) % n) c

/-- The `c` elements from slot `h` on. -/
def slice (n h c : Nat) (b : Nat → α) : List α := (List.range c).map fun k => b ((h + k) % n)

theorem slot_inj {h i j : Nat} (hi : i < n) (hj : j < n) (he : (h + i) % n = (h + j) % n) : i = j := by
  have hmod : i % n = j % n := Nat.ModEq.add_left_cancel' h he
  rwa [Nat.mod_eq_of_lt hi, Nat.mod_eq_of_lt hj] at hmod

theorem slot_add (h i j : Nat) : ((h + i) % n + j) % n = (h + (i + j)) % n := by
  rw [Nat.mod_add_mod, Nat.add_assoc]

theorem advance_eq {p : Nat} (hp : p < n) (c : Nat) : advance n p c = (p + c) % n := by
  induction c generalizing p with
  | zero => exact (Nat.mod_eq_of_lt hp).symm
  | succ c ih => rw [advance, ih (Nat.mod_lt _ (by omega)), slot_add, Nat.add_comm 1 c]

@[simp] theorem length_slice (h c : Nat) (b : Nat → α) : (slice n h c b).length = c := by
  simp [slice]

variable {l : List α} {b : Nat → α}

theorem getElem_slice {h c k : Nat} (hk : k < (slice n h c b).length) :
    (slice n h c b)[k] = b ((h + k) % n) := by
  simp [slice]

theorem slice_congr {h c : Nat} {b b' : Nat → α}
    (hb : ∀ k < c, b' ((h + k) % n) = b ((h + k) % n)) : slice n h c b' = slice n h c b := by
  apply map_congr_left
  intro k hk
  exact hb k (mem_range.1 hk)

theorem slice_add (h c d : Nat) (b : Nat → α) :
    slice n h (c + d) b = slice n h c b ++ slice n ((h + c) % n) d b := by
  rw [slice, range_add, map_append, map_map, slice, slice]
  congr 1
  apply map_congr_left
  intro k _
  rw [slot_add]
  rfl

theorem slice_take {h c k : Nat} (b : Nat → α) (hk : k ≤ c) :
    (slice n h c b).take k = slice n h k b := by
  obtain ⟨d, rfl⟩ := Nat.exists_eq_add_of_le hk
  rw [slice_add, take_left' (length_slice h k b)]

theorem slice_drop {h c k : Nat} (b : Nat → α) (hk : k ≤ c) :
    slice n ((h + k) % n) (c - k) b = (slice n h c b).drop k := by
  obtain ⟨d, rfl⟩ := Nat.exists_eq_add_of_le hk
  rw [slice_add, drop_left' (length_slice h k b), Nat.add_sub_cancel_left]

theorem read_eq_slice {p : Nat} (hp : p < n) (c : Nat) (b : Nat → α) :
    read n p c b = slice n p c b := by
  induction c generalizing p with
  | zero => rfl
  | succ c ih =>
    have hone : slice n p 1 b = [b p] := by
      simp [slice, Nat.mod_eq_of_lt hp]
    rw [read, ih (Nat.mod_lt _ (by omega)), Nat.add_comm c 1, slice_add, hone]
    rfl

theorem write_outside {p j : Nat} (hp : p < n) (hlo : l.length ≤ j)
    (hj : j < n) : write n p l b ((p + j) % n) = b ((p + j) % n) := by
  induction l generalizing p j b with
  | nil => rfl
  | cons a l ih =>
    have hlo' : l.length + 1 ≤ j := hlo
    obtain ⟨i, rfl⟩ : ∃ i, j = 1 + i := ⟨j - 1, by omega⟩
    have hp' : (p + 1) % n < n := Nat.mod_lt _ (by omega)
    have hrest := ih (b := Function.update b p a) (j := i) hp' (by omega) (by omega)
    have hne : (p + (1 + i)) % n ≠ p := by
      intro he
      have hself : (p + (1 + i)) % n = (p + 0) % n := by
        rw [he, Nat.add_zero, Nat.mod_eq_of_lt hp]
      have := slot_inj hj (by omega) hself
      omega
    rw [write, ← slot_add, hrest, slot_add, Function.update_of_ne hne]

/-- What a write stores, at distance `j` from where it starts. -/
theorem write_inside {p j : Nat} (hp : p < n) (hl : l.length ≤ n)
    (hj : j < l.length) : write n p l b ((p + j) % n) = l[j] := by
  induction l generalizing p j b with
  | nil => exact absurd hj (Nat.not_lt_zero j)
  | cons a l ih =>
    have hlen : l.length + 1 ≤ n := hl
    have hp' : (p + 1) % n < n := Nat.mod_lt _ (by omega)
    cases j with
    | zero =>
      -- the rest of the write starts one slot further and stops before it is back at `p`
      have hback : ((p + 1) % n + (n - 1)) % n = p := by
        rw [slot_add, show p + (1 + (n - 1)) = p + n by omega, Nat.add_mod_right, Nat.mod_eq_of_lt hp]
      have hrest := write_outside (b := Function.update b p a) (l := l) (j := n - 1) hp' (by omega)
        (by omega)
      rw [hback, Function.update_self] at hrest
      show write n ((p + 1) % n) l (Function.update b p a) (p % n) = a
      rw [Nat.mod_eq_of_lt hp]
      exact hrest
    | succ j =>
      have hrest := ih (b := Function.update b p a) hp' (by omega) (Nat.lt_of_succ_lt_succ hj)
      rw [slot_add, Nat.add_comm 1 j] at hrest
      exact hrest

/-- What a write `d` slots behind `h` stores, seen from `h`. -/
theorem write_at {h d j : Nat} (hn : 0 < n) (hl : l.length ≤ n)
    (hj : j < l.length) : write n ((h + d) % n) l b ((h + (d + j)) % n) = l[j] := by
  rw [← slot_add]
  exact write_inside (Nat.mod_lt _ hn) hl hj

/-- A write `d` slots behind `h` leaves what `h` sees before and after it. -/
theorem write_elsewhere {h d j : Nat} (hfit : d + l.length ≤ n) (hj : j < n)
    (hout : j < d ∨ d + l.length ≤ j) : write n ((h + d) % n) l b ((h + j) % n) = b ((h + j) % n) := by
  have hp : (h + d) % n < n := Nat.mod_lt _ (by omega)
  obtain hbefore | hafter := hout
  · -- distance from the write position, the long way round
    have hslot : (h + j) % n = ((h + d) % n + (n + j - d)) % n := by
      rw [slot_add, show d + (n + j - d) = j + n by omega, ← Nat.add_assoc, Nat.add_mod_right]
    rw [hslot]
    exact write_outside hp (by omega) (by omega)
  · obtain ⟨i, rfl⟩ := Nat.exists_eq_add_of_le (Nat.le_of_add_right_le hafter)
    rw [← slot_add]
    exact write_outside hp (by omega) (by omega)

theorem slice_write {h c : Nat} (hn : 0 < n) (hfit : c + l.length ≤ n) :
    slice n h (c + l.length) (write n ((h + c) % n) l b) = slice n h c b ++ l := by
  rw [slice_add]
  congr 1
  · apply slice_congr
    intro k hk
    exact write_elsewhere hfit (by omega) (.inl hk)
  · apply ext_getElem (length_slice _ _ _)
    intro k hk hk'
    rw [getElem_slice]
    exact write_inside (Nat.mod_lt _ hn) (by omega) hk'

/-! ### Block copies -/

/-- Copy a list into consecutive slots. -/
def blit (l : List α) (p : Nat) (b : Nat → α) : Nat → α := fun i =>
  if h : p ≤ i ∧ i - p < l.length then l[i - p] else b i

/-- Store a list from slot `p` on with one block copy up to the end and one from slot 0. -/
def copyIn (n p : Nat) (l : List α) (b : Nat → α) : Nat → α :=
  let first := min (n - p) l.length
  blit (l.drop first) 0 (blit (l.take first) p b)

/-- Fetch `c` elements the same way. -/
def copyOut (n p c : Nat) (b : Nat → α) : List α :=
  let first := min (n - p) c
  (List.range first).map (fun k => b (p + k)) ++ (List.range (c - first)).map b

@[simp] theorem length_copyOut (p c : Nat) (b : Nat → α) : (copyOut n p c b).length = c := by
  simp only [copyOut, length_append, length_map, length_range]
  omega

theorem write_beyond {p i : Nat} (hp : p < n) (hi : n ≤ i) :
    write n p l b i = b i := by
  induction l generalizing p b with
  | nil => rfl
  | cons a l ih =>
    rw [write, ih (Nat.mod_lt _ (by omega)), Function.update_of_ne (by omega)]

theorem copyIn_eq_write {p : Nat} (hp : p < n) (hl : l.length ≤ n) :
    copyIn n p l b = write n p l b := by
  funext i
  unfold copyIn blit
  simp only [length_drop, length_take, getElem_drop, getElem_take]
  rcases Nat.lt_or_ge i n with hi | hi
  · rcases Nat.lt_or_ge i p with hip | hip
    · -- slots before `p` are reached after the wrap, at distance `n - p + i`
      have hslot : (p + (n - p + i)) % n = i := by
        rw [show p + (n - p + i) = i + n by omega, Nat.add_mod_right, Nat.mod_eq_of_lt hi]
      by_cases hin : n - p + i < l.length
      · have hw := write_inside (b := b) hp hl hin
        rw [hslot] at hw
        rw [hw, dif_pos (by omega)]
        congr 1
        omega
      · have hw := write_outside (b := b) (l := l) (j := n - p + i) hp (by omega) (by omega)
        rw [hslot] at hw
        rw [hw, dif_neg (by omega), dif_neg (by omega)]
    · have hslot : (p + (i - p)) % n = i := by
        rw [show p + (i - p) = i by omega, Nat.mod_eq_of_lt hi]
      by_cases hin : i - p < l.length
      · have hw := write_inside (b := b) hp hl hin
        rw [hslot] at hw
        rw [hw, dif_neg (by omega), dif_pos (by omega)]
      · have hw := write_outside (b := b) (l := l) (j := i - p) hp (by omega) (by omega)
        rw [hslot] at hw
        rw [hw, dif_neg (by omega), dif_neg (by omega)]
  · rw [write_beyond hp hi, dif_neg (by omega), dif_neg (by omega)]

theorem copyOut_eq_slice {p c : Nat} (hp : p < n) (hc : c ≤ n) :
    copyOut n p c b = slice n p c b := by
  apply ext_getElem
  · simp only [copyOut, length_append, length_map, length_range, length_slice]
    omega
  · intro k hk hk'
    rw [length_slice] at hk'
    rw [getElem_slice]
    simp only [copyOut, getElem_append, length_map, length_range, getElem_map,
      getElem_range]
    split_ifs with hfirst
    · rw [Nat.mod_eq_of_lt (by omega)]
    · rw [show p + k = k - min (n - p) c + n by omega, Nat.add_mod_right, Nat.mod_eq_of_lt (by omega)]

end InDevOS.Lib.Ring
