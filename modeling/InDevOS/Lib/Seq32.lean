import Mathlib

/-! Sequence numbers of 32 bits.

A stream of units is numbered modulo `2 ^ 32` from some base: `seqAt base n` is the number
of the `n`-th unit. Numbers are compared through the signed difference `sdiff`, which is
the difference of the positions as long as these are less than `2 ^ 31` apart
(`sdiff_seqAt_near`), and misleads a reader of far positions in one known way
(`sdiff_seqAt`). -/
namespace InDevOS.Lib.Seq32

/-- The number of the `n`-th unit of a stream whose first unit has number `base`. -/
def seqAt (base : UInt32) (n : Nat) : UInt32 := base + UInt32.ofNat n

/-- The difference of two numbers, read as a signed word. -/
def sdiff (a b : UInt32) : Int := (a - b).toBitVec.toInt

variable {base : UInt32} {m n k : Nat}

section
variable (base : UInt32)

@[simp] theorem seqAt_zero : seqAt base 0 = base := UInt32.add_zero base

theorem seqAt_add (m k : Nat) : seqAt base m + UInt32.ofNat k = seqAt base (m + k) := by
  rw [seqAt, seqAt, UInt32.ofNat_add, UInt32.add_assoc]

theorem toBitVec_seqAt_sub (m n : Nat) :
    (seqAt base m - seqAt base n).toBitVec = BitVec.ofNat 32 m - BitVec.ofNat 32 n := by
  exact add_sub_add_left_eq_sub _ _ _

/-- The signed difference of two positions, folded into the signed range. -/
theorem sdiff_seqAt (m n : Nat) : sdiff (seqAt base m) (seqAt base n) = ((m : Int) - n).bmod (2 ^ 32) := by
  rw [sdiff, toBitVec_seqAt_sub, BitVec.toInt_sub]
  simp [BitVec.toInt_ofNat']

theorem sdiff_seqAt_near (hlt : m < n + 2 ^ 31) (hle : n ≤ m + 2 ^ 31) :
    sdiff (seqAt base m) (seqAt base n) = (m : Int) - n := by
  rw [sdiff_seqAt, Int.bmod_eq_of_le] <;> omega

theorem seqAt_wrap (n : Nat) : seqAt base (n + 2 ^ 32) = seqAt base n := by
  rw [← seqAt_add]
  exact UInt32.add_zero _

/-- A position half the numbers ahead or more seems to be behind. -/
theorem sdiff_seqAt_far_ahead (hge : n + 2 ^ 31 ≤ m) (hlt : m < n + 2 ^ 32) :
    sdiff (seqAt base m) (seqAt base n) = (m : Int) - n - 2 ^ 32 := by
  rw [← seqAt_wrap base n, sdiff_seqAt_near base (by omega) (by omega)]
  push_cast
  omega

/-- A position more than half the numbers behind seems to be ahead. -/
theorem sdiff_seqAt_far_behind (hgt : m + 2 ^ 31 < n) (hle : n ≤ m + 2 ^ 32) :
    sdiff (seqAt base m) (seqAt base n) = (m : Int) - n + 2 ^ 32 := by
  rw [← seqAt_wrap base m, sdiff_seqAt_near base (by omega) (by omega)]
  push_cast
  omega

end

theorem sdiff_eq_zero {a b : UInt32} : sdiff a b = 0 ↔ a = b := by
  have hzero : (0 : Int) = (0 : UInt32).toBitVec.toInt := rfl
  rw [sdiff, hzero, BitVec.toInt_inj, UInt32.toBitVec_inj]
  exact sub_eq_zero

/-- The unsigned difference counts the units between two positions. -/
theorem toNat_seqAt_sub (base : UInt32) (hle : n ≤ m) (hlt : m - n < 2 ^ 32) :
    (seqAt base m - seqAt base n).toNat = m - n := by
  rw [← UInt32.toNat_toBitVec, toBitVec_seqAt_sub, BitVec.toNat_sub, BitVec.toNat_ofNat,
    BitVec.toNat_ofNat]
  omega

/-- Any number is a position, counted from any other position on. -/
theorem eq_seqAt_of_sub (base a : UInt32) (n : Nat) :
    a = seqAt base (n + (a - seqAt base n).toNat) := by
  rw [← seqAt_add, UInt32.ofNat_toNat]
  exact (add_sub_cancel _ _).symm

/-- A number that is behind is behind by minus the difference. -/
theorem add_neg_sdiff {a b : UInt32} (h : sdiff a b < 0) : a + UInt32.ofNat (-sdiff a b).toNat = b := by
  have hback : (-sdiff a b).toNat = (b - a).toNat := by
    have hint := BitVec.toInt_eq_toNat_cond (a - b).toBitVec
    have hsub : (b - a).toBitVec = -(a - b).toBitVec := by
      exact (neg_sub _ _).symm
    have hneg := congrArg BitVec.toNat hsub
    have hlt := (a - b).toBitVec.isLt
    rw [BitVec.toNat_neg, UInt32.toNat_toBitVec] at hneg
    unfold sdiff at h ⊢
    rw [hint] at h ⊢
    split_ifs at h ⊢ <;> omega
  rw [hback, UInt32.ofNat_toNat]
  exact add_sub_cancel _ _

end InDevOS.Lib.Seq32
