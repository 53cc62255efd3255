import InDevOS.Lib.Ring

/-! Pieces of a string.

A piece is a list and the offset it belongs at. `insert` keeps a list of pieces sorted by
offset, as a reassembly queue does. `Tiles lo hi l` says that the pieces follow each other
from `lo` to `hi` without gap or overlap; then copying each to its place (`lay`) writes
exactly that range and makes it the concatenation of the pieces. -/
namespace InDevOS.Lib
open List

structure Piece (α : Type*) where
  offset : Nat
  data : List α
deriving DecidableEq, Repr

namespace Piece

variable {α : Type*} {lo hi : Nat} {l l' : List (Piece α)}

/-- Insert before the first piece that does not start earlier. -/
def insert (p : Piece α) : List (Piece α) → List (Piece α)
  | [] => [p]
  | q :: l => if q.offset < p.offset then q :: insert p l else p :: q :: l

/-- The pieces follow each other from `lo` to `hi`. -/
def Tiles : (lo hi : Nat) → List (Piece α) → Prop
  | lo, hi, [] => lo = hi
  | lo, hi, p :: l => p.offset = lo ∧ Tiles (lo + p.data.length) hi l

/-- The total length. -/
def size (l : List (Piece α)) : Nat := (l.map fun p => p.data.length).sum

/-- Copy each piece to its place. -/
def lay : List (Piece α) → (Nat → α) → (Nat → α)
  | [], b => b
  | p :: l, b => lay l (Ring.blit p.data p.offset b)

def Sorted (l : List (Piece α)) : Prop := l.Pairwise fun p q => p.offset ≤ q.offset

theorem insert_perm (p : Piece α) (l : List (Piece α)) : (insert p l).Perm (p :: l) := by
  induction l with
  | nil => exact List.Perm.refl _
  | cons q l ih =>
    rw [insert]
    split
    · exact (ih.cons q).trans (List.Perm.swap p q l)
    · exact List.Perm.refl _

theorem Sorted.insert (p : Piece α) (h : Sorted l) : Sorted (p.insert l) := by
  induction l with
  | nil => exact pairwise_singleton _ _
  | cons q l ih =>
    have hq : ∀ r ∈ l, q.offset ≤ r.offset := (pairwise_cons.1 h).1
    rw [Piece.insert]
    split
    case isTrue hlt =>
      refine pairwise_cons.2 ⟨?_, ih (pairwise_cons.1 h).2⟩
      intro r hr
      rcases mem_cons.1 ((insert_perm p l).mem_iff.1 hr) with rfl | hr
      · exact Nat.le_of_lt hlt
      · exact hq r hr
    case isFalse hge =>
      refine pairwise_cons.2 ⟨?_, h⟩
      intro r hr
      rcases mem_cons.1 hr with rfl | hr
      · omega
      · exact Nat.le_trans (Nat.not_lt.1 hge) (hq r hr)

theorem size_perm (h : l.Perm l') : size l = size l' := (h.map _).sum_eq

@[simp] theorem size_cons (p : Piece α) (l : List (Piece α)) :
    size (p :: l) = p.data.length + size l := rfl

theorem size_append (l l' : List (Piece α)) : size (l ++ l') = size l + size l' := by
  rw [size, map_append, sum_append, size, size]

section
variable (h : Tiles lo hi l)
include h

theorem Tiles.size_eq : hi = lo + size l := by
  induction l generalizing lo with
  | nil => exact h.symm
  | cons p l ih =>
    have := ih h.2
    rw [size_cons]
    omega

theorem Tiles.mem_inside {p : Piece α} (hp : p ∈ l) : lo ≤ p.offset ∧ p.offset + p.data.length ≤ hi := by
  induction l generalizing lo with
  | nil => exact absurd hp not_mem_nil
  | cons q l ih =>
    have hsize := h.2.size_eq
    rcases mem_cons.1 hp with rfl | hp
    · have := h.1
      omega
    · have := ih h.2 hp
      omega

theorem Tiles.nodup (hne : ∀ p ∈ l, p.data ≠ []) : l.Nodup := by
  induction l generalizing lo with
  | nil => exact nodup_nil
  | cons p l ih =>
    refine nodup_cons.2 ⟨fun hp => ?_, ih h.2 fun q hq => hne q (mem_cons_of_mem p hq)⟩
    have hlen := length_pos_of_ne_nil (hne p mem_cons_self)
    have hlate := h.2.mem_inside hp
    have hstart := h.1
    omega

/-- Sorting a tiling by offset gives it back, when no piece is empty. -/
theorem Tiles.eq_of_perm (hne : ∀ p ∈ l, p.data ≠ []) (hs : Sorted l') (hp : l'.Perm l) : l' = l := by
  induction l generalizing l' lo with
  | nil => exact perm_nil.1 hp
  | cons p l ih =>
    cases l' with
    | nil => exact absurd (nil_perm.1 hp) (cons_ne_nil p l)
    | cons q l' =>
      have hlen : 0 < p.data.length := length_pos_of_ne_nil (hne p mem_cons_self)
      have hqp : q = p := by
        rcases mem_cons.1 (hp.mem_iff.1 (mem_cons_self (a := q))) with rfl | hq
        · rfl
        · -- then `p` comes later in the sorted list although it starts earlier
          exfalso
          have hlate := h.2.mem_inside hq
          have hstart := h.1
          rcases mem_cons.1 (hp.mem_iff.2 (mem_cons_self (a := p))) with rfl | hmem
          · omega
          · have := (pairwise_cons.1 hs).1 p hmem
            omega
      subst hqp
      rw [ih h.2 (fun r hr => hne r (mem_cons_of_mem q hr)) (pairwise_cons.1 hs).2
        (perm_cons q |>.1 hp)]

theorem lay_outside (b : Nat → α) {i : Nat} (hi' : i < lo ∨ hi ≤ i) : lay l b i = b i := by
  induction l generalizing lo b with
  | nil => rfl
  | cons p l ih =>
    have hsize := h.2.size_eq
    have hstart := h.1
    rw [lay, ih h.2 _ (by omega), Ring.blit, dif_neg (by omega)]

theorem lay_tiles (b : Nat → α) :
    (range (hi - lo)).map (fun k => lay l b (lo + k)) = l.flatMap Piece.data := by
  induction l generalizing lo b with
  | nil =>
    have hz : hi - lo = 0 := by
      have : lo = hi := h
      omega
    rw [hz]
    rfl
  | cons p l ih =>
    have hsize := h.2.size_eq
    have hstart := h.1
    have hrest := ih h.2 (Ring.blit p.data p.offset b)
    have hsplit : hi - lo = p.data.length + (hi - (lo + p.data.length)) := by omega
    rw [hsplit, range_add, map_append, map_map, flatMap_cons, ← hrest]
    congr 1
    · apply ext_getElem (by simp)
      intro k hk hk'
      rw [getElem_map, getElem_range, lay, lay_outside h.2 _ (by omega), Ring.blit,
        dif_pos (by omega)]
      congr 1
      omega
    · apply map_congr_left
      intro k _
      show lay l _ (lo + (p.data.length + k)) = _
      rw [← Nat.add_assoc]

end

end Piece

end InDevOS.Lib
