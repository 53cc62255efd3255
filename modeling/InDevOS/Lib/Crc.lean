import Mathlib

/-! Cyclic redundancy checks, least significant bit first, at any width.

The register is linear in exclusive or (`step_xor`). If the polynomial has its highest bit, two
bit strings that differ only inside a window as wide as the register leave different
registers (`feeds_burst`): the window might as well have come in as one word
(`iterate_step_xor`), and no step forgets anything (`step_injective`). -/
namespace InDevOS.Lib.Crc

variable {w : Nat} (poly : BitVec (w + 1))

/-- The register moves down a place, and takes the polynomial if a one falls out. -/
def step (c : BitVec (w + 1)) : BitVec (w + 1) := (c >>> 1) ^^^ if c.getLsbD 0 then poly else 0

def bit (b : Bool) : BitVec (w + 1) := (BitVec.ofBool b).setWidth (w + 1)

def feed (c : BitVec (w + 1)) (b : Bool) : BitVec (w + 1) := step poly (c ^^^ bit b)

def feeds (c : BitVec (w + 1)) (bs : List Bool) : BitVec (w + 1) := bs.foldl (feed poly) c

def bits (n : Nat) (x : BitVec (w + 1)) : List Bool := (List.range n).map x.getLsbD

variable (x y c : BitVec (w + 1))

theorem step_xor : step poly (x ^^^ y) = step poly x ^^^ step poly y := by
  simp only [step, BitVec.getLsbD_xor, BitVec.ushiftRight_xor_distrib]
  cases x.getLsbD 0 <;> cases y.getLsbD 0 <;> ext i <;> simp <;> grind

theorem step_eq : step poly x = step poly (bit (x.getLsbD 0)) ^^^ (x >>> 1) := by
  have hout : (bit (x.getLsbD 0) : BitVec (w + 1)) >>> 1 = 0#(w + 1) := by
    apply BitVec.eq_of_toNat_eq
    cases x.getLsbD 0 <;> simp [bit]
  rw [step, step, hout]
  simp [bit, BitVec.xor_comm]

/-- A word put into the register at once comes in bit by bit. -/
theorem iterate_step_xor (n : Nat) :
    (step poly)^[n] (c ^^^ x) = feeds poly c (bits n x) ^^^ (x >>> n) := by
  induction n with
  | zero => simp [bits, feeds]
  | succ n ih =>
    rw [Function.iterate_succ_apply', ih, step_xor, step_eq poly (x >>> n), BitVec.getLsbD_ushiftRight,
      ← BitVec.xor_assoc, ← step_xor, ← BitVec.shiftRight_add]
    simp [bits, feeds, feed, List.range_succ]

theorem step_injective (hpoly : poly.msb = true) : Function.Injective (step poly) := by
  have hker (z : BitVec (w + 1)) (hz : step poly z = 0#(w + 1)) : z = 0#(w + 1) := by
    rw [step] at hz
    cases hlow : z.getLsbD 0 <;> rw [hlow] at hz
    · -- nothing falls out, so the register is even, and half of it is nothing
      have heven : z.toNat % 2 = 0 := by simpa [BitVec.getLsbD, Nat.testBit_zero] using hlow
      have hhalf := congrArg BitVec.toNat hz
      simp [Nat.shiftRight_eq_div_pow] at hhalf
      exact BitVec.eq_of_toNat_eq (by simp; omega)
    · simpa [hpoly] using congrArg BitVec.msb hz
  intro x y h
  exact BitVec.xor_eq_zero_iff.mp (hker _ (by rw [step_xor, h, BitVec.xor_self]))

/-- The word with these lowest bits. -/
def word (u : List Bool) : BitVec (w + 1) := (BitVec.ofBoolListLE u).setWidth (w + 1)

section
variable {u v : List Bool} (hu : u.length ≤ w + 1)
include hu

theorem bits_word : bits u.length (word u : BitVec (w + 1)) = u := by
  refine List.ext_getElem (by simp [bits]) fun i _ hi => ?_
  have := @BitVec.getLsbD_ofBoolListLE u i
  simpa [bits, word, hi, show i < w + 1 by omega] using this

theorem feeds_eq : feeds poly c u = (step poly)^[u.length] (c ^^^ word u) := by
  have hrest : (word u : BitVec (w + 1)) >>> u.length = 0#(w + 1) := by
    have hlt := (BitVec.ofBoolListLE u).isLt
    have := Nat.mod_eq_of_lt (hlt.trans_le (Nat.pow_le_pow_right two_pos hu))
    exact BitVec.eq_of_toNat_eq (by simpa [word, Nat.shiftRight_eq_div_pow, this] using hlt)
  rw [iterate_step_xor, bits_word hu, hrest, BitVec.xor_zero]

/-- **Bursts are detected.** Strings that differ only inside a window no wider than the
register leave different registers. -/
theorem feeds_burst (hpoly : poly.msb = true) {l r : List Bool} (hlen : u.length = v.length)
    (h : feeds poly c (l ++ u ++ r) = feeds poly c (l ++ v ++ r)) : u = v := by
  have hinj (r : List Bool) : Function.Injective fun c => feeds poly c r := by
    induction r with
    | nil => exact fun _ _ => id
    | cons b r ih => exact ih.comp fun x y hxy => (BitVec.xor_left_inj _).mp (step_injective poly hpoly hxy)
  have heq : feeds poly (feeds poly c l) u = feeds poly (feeds poly c l) v :=
    hinj r (by simpa [feeds, List.foldl_append] using h)
  generalize feeds poly c l = d at heq
  rw [feeds_eq poly d hu, feeds_eq poly d (hlen ▸ hu), hlen] at heq
  have hword : (word u : BitVec (w + 1)) = word v :=
    (BitVec.xor_right_inj _).mp ((step_injective poly hpoly).iterate _ heq)
  rw [← bits_word hu, hword, hlen, bits_word (hlen ▸ hu)]

end

end InDevOS.Lib.Crc
