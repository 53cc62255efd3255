import Mathlib

/-! Memory as bytes: 32-bit words and fills.

A memory is a function from addresses to bytes. A 32-bit word is four bytes, lowest first,
and is read as a number. Each write has one lemma for what it changes and one for what it
leaves: a write leaves every byte outside its range, and a read depends on the bytes of
its own range only (`get32_congr`). -/
namespace InDevOS.Lib

/-- Byte-addressed memory. -/
abbrev Bytes := Nat → UInt8

namespace Bytes

/-! ### Words -/

section
variable (m : Bytes)

/-- The 32-bit number in the four bytes at `a`, lowest byte first. -/
def get32 (a : Nat) : Nat :=
  (m a).toNat + 256 * (m (a + 1)).toNat + 65536 * (m (a + 2)).toNat + 16777216 * (m (a + 3)).toNat

/-- Store the low 32 bits of `v`. -/
def put32 (a v : Nat) : Bytes := fun x =>
  if a ≤ x ∧ x < a + 4 then UInt8.ofNat (v / 256 ^ (x - a)) else m x

theorem put32_apply_of_outside {a v x : Nat} (h : x < a ∨ a + 4 ≤ x) :
    m.put32 a v x = m x :=
  if_neg (by omega)

theorem get32_congr {m m' : Bytes} {a : Nat} (h : ∀ x, a ≤ x → x < a + 4 → m' x = m x) :
    m'.get32 a = m.get32 a := by
  rw [get32, get32, h a (by omega) (by omega), h (a + 1) (by omega) (by omega),
    h (a + 2) (by omega) (by omega), h (a + 3) (by omega) (by omega)]

theorem get32_put32 (a v : Nat) : (m.put32 a v).get32 a = v % 2 ^ 32 := by
  have hbyte (k : Nat) (hk : k < 4) : (m.put32 a v (a + k)).toNat = v / 256 ^ k % 256 := by
    rw [put32, if_pos (by omega), Nat.add_sub_cancel_left, UInt8.toNat_ofNat']
  have h0 : (m.put32 a v a).toNat = v / 256 ^ 0 % 256 := hbyte 0 (by decide)
  rw [get32, h0, hbyte 1 (by decide), hbyte 2 (by decide), hbyte 3 (by decide)]
  omega

theorem get32_put32_of_apart {a b v : Nat} (h : b + 4 ≤ a ∨ a + 4 ≤ b) :
    (m.put32 a v).get32 b = m.get32 b := by
  apply get32_congr
  intro x hlo hhi
  exact put32_apply_of_outside m (by omega)

/-! ### Fills -/

/-- `memset` -/
def fill (a : Nat) (c : UInt8) (n : Nat) : Bytes := fun x =>
  if a ≤ x ∧ x < a + n then c else m x

theorem fill_apply_inside {a n x : Nat} (c : UInt8) (h : a ≤ x ∧ x < a + n) :
    m.fill a c n x = c :=
  if_pos h

theorem fill_apply_outside {a n x : Nat} (c : UInt8) (h : x < a ∨ a + n ≤ x) :
    m.fill a c n x = m x :=
  if_neg (by omega)

end

end Bytes

end InDevOS.Lib
