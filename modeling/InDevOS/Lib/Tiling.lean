import Mathlib
import InDevOS.Lib.Seq32

/-! Ranges of sequence numbers that tile a stretch of a stream.

A range is given by its first number and the number after its last. `Covers una next rs` is
what a sender wants of the ranges it has under way: they follow each other without gap or
overlap up to `next`, and `una` lies in the first. It speaks of 32-bit numbers only;
`Tiles` says the same with positions in the stream, where adding a range at the end
(`Tiles.append`) and dropping acknowledged ones at the front (`Tiles.dropWhile`) are
arithmetic. -/
namespace InDevOS.Lib.Tiling

open Seq32

/-- Each range starts where the one before ends; the last ends at `next`. -/
def Follow (next : UInt32) : UInt32 → List (UInt32 × UInt32) → Prop
  | a, [] => a = next
  | a, r :: rs => r.1 = a ∧ r.2 ≠ a ∧ Follow next r.2 rs

/-- Units in a range. -/
def span (r : UInt32 × UInt32) : Nat := (r.2 - r.1).toNat

/-- The ranges tile the numbers from `una`, rounded down to the start of a range, to `next`,
and do not go round the number circle. -/
def Covers (una next : UInt32) : List (UInt32 × UInt32) → Prop
  | [] => una = next
  | r :: rs => Follow next r.1 (r :: rs) ∧ ((r :: rs).map span).sum < 2 ^ 32 ∧ (una - r.1).toNat < span r

/-- The range ends at `a` or before. -/
def endsBy (a : UInt32) (r : UInt32 × UInt32) : Bool := 0 ≤ sdiff a r.2

/-- The ranges tile the positions from `lo` to `hi`, each with 1 to `limit` units. -/
def Tiles (base : UInt32) (limit : Nat) : Nat → Nat → List (UInt32 × UInt32) → Prop
  | lo, hi, [] => lo = hi
  | lo, hi, r :: rs => r.1 = seqAt base lo ∧
      ∃ n, lo < n ∧ n ≤ lo + limit ∧ r.2 = seqAt base n ∧ Tiles base limit n hi rs

/-- A tiling from `lo` to `hi` whose first range holds `una`. -/
structure Front (base : UInt32) (limit lo una hi : Nat) (rs : List (UInt32 × UInt32)) : Prop where
  tiles : Tiles base limit lo hi rs
  lo_le : lo ≤ una
  una_le : una ≤ hi
  near : una ≤ lo + limit
  first : ∀ r ∈ rs.head?, endsBy (seqAt base una) r = false

variable {base : UInt32} {limit lo una hi n : Nat} {r : UInt32 × UInt32} {rs : List (UInt32 × UInt32)}

theorem Tiles.le (h : Tiles base limit lo hi rs) : lo ≤ hi := by
  induction rs generalizing lo with
  | nil => exact h.le
  | cons r rs ih =>
    obtain ⟨-, n, hlt, -, -, hrest⟩ := h
    exact hlt.le.trans (ih hrest)

theorem Tiles.append (h : Tiles base limit lo hi rs) (hr : r = (seqAt base hi, seqAt base n))
    (hlt : hi < n) (hn : n ≤ hi + limit) : Tiles base limit lo n (rs ++ [r]) := by
  induction rs generalizing lo with
  | nil =>
    obtain rfl : lo = hi := h
    exact ⟨by rw [hr], n, hlt, hn, by rw [hr], rfl⟩
  | cons s rs ih =>
    obtain ⟨hs, m, hm, hlimit, hend, hrest⟩ := h
    exact ⟨hs, m, hm, hlimit, hend, ih hrest⟩

theorem endsBy_seqAt (una : Nat) (hr : r.2 = seqAt base n) (hlt : una < n + 2 ^ 31) (hle : n ≤ una + 2 ^ 31) :
    endsBy (seqAt base una) r = decide (n ≤ una) := by
  rw [endsBy, hr, sdiff_seqAt_near base hlt hle]
  exact decide_eq_decide.2 (by omega)

theorem Tiles.dropWhile (h : Tiles base limit lo hi rs) (hlo : lo ≤ una) (hhi : una ≤ hi)
    (hlimit : limit ≤ 2 ^ 16) (hnear : hi < lo + 2 ^ 31) :
    ∃ lo', Front base limit lo' una hi (rs.dropWhile (endsBy (seqAt base una))) := by
  induction rs generalizing lo with
  | nil =>
    obtain rfl : lo = hi := h
    exact ⟨lo, rfl, hlo, hhi, by omega, by simp⟩
  | cons r rs ih =>
    obtain ⟨hr, n, hlt, hn, hend, hrest⟩ := h
    have hle := hrest.le
    have htest := endsBy_seqAt una hend (by omega) (by omega)
    by_cases hcov : n ≤ una
    · rw [List.dropWhile_cons_of_pos (by simp [htest, hcov])]
      exact ih hrest hcov (by omega)
    · rw [List.dropWhile_cons_of_neg (by simp [htest, hcov])]
      refine ⟨lo, ⟨hr, n, hlt, hn, hend, hrest⟩, hlo, hhi, by omega, ?_⟩
      simp [htest, hcov]

namespace Front

theorem seqNum_of_nil (h : Front base limit lo una hi []) : una = hi := by
  have hlo : lo = hi := h.tiles
  have := h.lo_le
  have := h.una_le
  omega

theorem nil (base : UInt32) (limit n : Nat) : Front base limit n n n [] :=
  ⟨rfl, le_rfl, le_rfl, by omega, by simp⟩

theorem append (h : Front base limit lo una hi rs) (hr : r = (seqAt base hi, seqAt base n))
    (hlt : hi < n) (hn : n ≤ hi + limit) (hnear : n < una + 2 ^ 31) :
    Front base limit lo una n (rs ++ [r]) := by
  have hle := h.una_le
  refine ⟨h.tiles.append hr hlt hn, h.lo_le, by omega, h.near, ?_⟩
  cases rs with
  | nil =>
    have hend : r.2 = seqAt base n := by rw [hr]
    have htest := endsBy_seqAt una hend (by omega) (by omega)
    simp only [List.nil_append, List.head?_cons, Option.mem_def, Option.some.injEq, forall_eq']
    rw [htest]
    exact decide_eq_false (by omega)
  | cons s rs => exact h.first

/-- Seen from `una`, acknowledged ranges have left already. -/
theorem dropWhile_eq (h : Front base limit lo una hi rs) : rs.dropWhile (endsBy (seqAt base una)) = rs := by
  cases rs with
  | nil => rfl
  | cons r rs => exact List.dropWhile_cons_of_neg (by simp [h.first r rfl])

end Front

theorem Tiles.follow (h : Tiles base limit lo hi rs) (hnear : hi < lo + 2 ^ 32) :
    Follow (seqAt base hi) (seqAt base lo) rs ∧ (rs.map span).sum = hi - lo := by
  induction rs generalizing lo with
  | nil =>
    obtain rfl : lo = hi := h
    exact ⟨rfl, by simp⟩
  | cons r rs ih =>
    obtain ⟨hr, n, hlt, -, hend, hrest⟩ := h
    have hle := hrest.le
    have hspan : span r = n - lo := by
      rw [span, hr, hend]
      exact toNat_seqAt_sub base hlt.le (by omega)
    obtain ⟨hfollow, hsum⟩ := ih hrest (by omega)
    refine ⟨⟨hr, ?_, hend ▸ hfollow⟩, ?_⟩
    · intro heq
      rw [span, heq, hr, UInt32.sub_self, UInt32.toNat_zero] at hspan
      omega
    · rw [List.map_cons, List.sum_cons, hspan, hsum]
      omega

/-- What is tiled in positions is tiled in numbers. -/
theorem Front.covers (h : Front base limit lo una hi rs) (hlimit : limit ≤ 2 ^ 16)
    (hnear : hi < una + 2 ^ 31) : Covers (seqAt base una) (seqAt base hi) rs := by
  have hlo := h.lo_le
  have hle := h.una_le
  have hfar := h.near
  cases rs with
  | nil => exact congrArg (seqAt base) h.seqNum_of_nil
  | cons r rs =>
    obtain ⟨hfollow, hsum⟩ := h.tiles.follow (by omega)
    obtain ⟨hr, n, hlt, hn, hend, hrest⟩ := h.tiles
    have hnle := hrest.le
    have htest := endsBy_seqAt una hend (by omega) (by omega)
    have hopen : una < n := by
      have := h.first r rfl
      rw [htest] at this
      simpa using this
    refine ⟨hr ▸ hfollow, by omega, ?_⟩
    rw [span, hr, hend, toNat_seqAt_sub base hlo (by omega), toNat_seqAt_sub base hlt.le (by omega)]
    omega

end InDevOS.Lib.Tiling
