import Mathlib

/-! Ones' complement sums of 16-bit words.

Bytes are added up as big-endian 16-bit words and the carries are folded back until 16
bits are left. What is left is the sum modulo 65535, with 65535 standing for zero unless
nothing was added at all (`foldCarries_eq_max_iff`). A string that carries the complement
of its own sum verifies, and one bit turned over always shows (`OneBit.wordSum_mod_ne`). -/
namespace InDevOS.Lib

/-- The 16-bit words of a string added up; an odd last byte is the high half of a word. -/
def wordSum : List UInt8 → Nat
  | [] => 0
  | [a] => a.toNat * 256
  | a :: b :: rest => a.toNat * 256 + b.toNat + wordSum rest

theorem wordSum_append {a : List UInt8} (b : List UInt8) (ha : a.length % 2 = 0) :
    wordSum (a ++ b) = wordSum a + wordSum b := by
  induction a using wordSum.induct with
  | case1 => simp [wordSum]
  | case2 x => simp at ha
  | case3 x y rest ih =>
    have hrest : rest.length % 2 = 0 := by
      rw [List.length_cons, List.length_cons] at ha
      omega
    rw [List.cons_append, List.cons_append, wordSum, wordSum, ih hrest]
    omega

theorem wordSum_le (a : List UInt8) : wordSum a * 2 ≤ (a.length + 1) * 65535 := by
  induction a using wordSum.induct with
  | case1 => simp [wordSum]
  | case2 x =>
    have := x.toNat_lt
    rw [wordSum, List.length_singleton]
    omega
  | case3 x y rest ih =>
    have := x.toNat_lt
    have := y.toNat_lt
    rw [wordSum, List.length_cons, List.length_cons]
    omega

/-- Carries folded back until 16 bits are left. -/
def foldCarries (sum : Nat) : Nat :=
  if sum < 65536 then sum else foldCarries (sum % 65536 + sum / 65536)
termination_by sum
decreasing_by omega

theorem foldCarries_lt (sum : Nat) : foldCarries sum < 65536 := by
  induction sum using foldCarries.induct with
  | case1 sum h =>
    rw [foldCarries, if_pos h]
    exact h
  | case2 sum h ih =>
    rw [foldCarries, if_neg h]
    exact ih

theorem foldCarries_mod (sum : Nat) : foldCarries sum % 65535 = sum % 65535 := by
  induction sum using foldCarries.induct with
  | case1 sum h => rw [foldCarries, if_pos h]
  | case2 sum h ih =>
    rw [foldCarries, if_neg h, ih]
    omega

theorem foldCarries_pos {sum : Nat} (h : 0 < sum) : 0 < foldCarries sum := by
  induction sum using foldCarries.induct with
  | case1 sum hlt =>
    rw [foldCarries, if_pos hlt]
    exact h
  | case2 sum hlt ih =>
    rw [foldCarries, if_neg hlt]
    exact ih (by omega)

theorem foldCarries_eq_max_iff {sum : Nat} (h : 0 < sum) :
    foldCarries sum = 65535 ↔ sum % 65535 = 0 := by
  have hlt := foldCarries_lt sum
  have hmod := foldCarries_mod sum
  have hpos := foldCarries_pos h
  omega

/-- What a receiver checks: all words, the checksum among them, add up to ones. -/
def Verifies (bytes : List UInt8) : Prop := foldCarries (wordSum bytes) = 65535

instance (bytes : List UInt8) : Decidable (Verifies bytes) := inferInstanceAs (Decidable (_ = _))

/-- Adding the complement of a folded sum to another sum gives ones when the two sums agree
modulo 65535. -/
theorem foldCarries_complement_iff {sum other : Nat} (h : 0 < other) :
    foldCarries (other + (65535 - foldCarries sum)) = 65535 ↔ sum % 65535 = other % 65535 := by
  rw [foldCarries_eq_max_iff (by omega)]
  have hlt := foldCarries_lt sum
  have hmod := foldCarries_mod sum
  omega

/-! ### One bit turned over -/

/-- The second string is the first with one bit turned over. -/
inductive OneBit : List UInt8 → List UInt8 → Prop
  | here (x : UInt8) (k : Fin 8) (rest : List UInt8) :
    OneBit (x :: rest) ((x ^^^ UInt8.ofNat (2 ^ k.val)) :: rest)
  | there {a b : List UInt8} (x : UInt8) : OneBit a b → OneBit (x :: a) (x :: b)

theorem OneBit.length_eq {a b : List UInt8} (h : OneBit a b) : b.length = a.length := by
  induction h with
  | here x k rest => rfl
  | there x h ih => rw [List.length_cons, List.length_cons, ih]

theorem toNat_flip (x : UInt8) (k : Fin 8) :
    (x ^^^ UInt8.ofNat (2 ^ k.val)).toNat = x.toNat + 2 ^ k.val ∨
      (x ^^^ UInt8.ofNat (2 ^ k.val)).toNat + 2 ^ k.val = x.toNat := by
  revert x k
  decide +kernel

theorem OneBit.wordSum_eq {a b : List UInt8} (h : OneBit a b) :
    ∃ j < 16, wordSum b = wordSum a + 2 ^ j ∨ wordSum b + 2 ^ j = wordSum a := by
  induction a using wordSum.induct generalizing b with
  | case1 => cases h
  | case2 x =>
    cases h with
    | here _ k =>
      refine ⟨k.val + 8, by omega, ?_⟩
      have := toNat_flip x k
      rw [wordSum, wordSum, pow_add]
      omega
    | there _ h => cases h
  | case3 x y rest ih =>
    cases h with
    | here _ k =>
      refine ⟨k.val + 8, by omega, ?_⟩
      have := toNat_flip x k
      rw [wordSum, wordSum, pow_add]
      omega
    | there _ h =>
      cases h with
      | here _ k =>
        refine ⟨k.val, by omega, ?_⟩
        have := toNat_flip y k
        rw [wordSum, wordSum]
        omega
      | there _ h =>
        obtain ⟨j, hj, hsum⟩ := ih h
        refine ⟨j, hj, ?_⟩
        rw [wordSum, wordSum]
        omega

theorem OneBit.wordSum_mod_ne {a b : List UInt8} (h : OneBit a b) (n : Nat) :
    (wordSum b + n) % 65535 ≠ (wordSum a + n) % 65535 := by
  obtain ⟨j, hj, hsum⟩ := h.wordSum_eq
  interval_cases j <;> omega

end InDevOS.Lib
