import Mathlib

/-! Files as byte arrays.

A file is a size and a byte for every offset, zero past the size: so a gap left by a
write past the end and the bytes regained after a cut read as zero. This is what a file
system's data structures are compared with. -/
namespace InDevOS.Lib

structure ByteFile where
  size : Nat
  byte : Nat → UInt8
  byte_past : ∀ x, size ≤ x → byte x = 0

namespace ByteFile

def empty : ByteFile := ⟨0, fun _ => 0, fun _ _ => rfl⟩

section
variable (f : ByteFile) (p n : Nat)

/-- Store the first `n` bytes of `data` at offset `p`. -/
def write (data : Nat → UInt8) : ByteFile where
  size := if n = 0 then f.size else max f.size (p + n)
  byte x := if p ≤ x ∧ x < p + n then data (x - p) else f.byte x
  byte_past x hx := by
    split_ifs at hx with hn
    · rw [if_neg (by omega), f.byte_past x hx]
    · rw [if_neg (by omega), f.byte_past x (by omega)]

/-- Cut the file to `len` bytes, or extend it to `len` with zeros. -/
def truncate (f : ByteFile) (len : Nat) : ByteFile where
  size := len
  byte x := if x < len then f.byte x else 0
  byte_past x hx := if_neg (by omega)

/-- How many bytes a read of `n` at `p` returns. -/
def available : Nat := min n (f.size - p)

def read : List UInt8 :=
  (List.range (f.available p n)).map fun k => f.byte (p + k)

@[simp] theorem length_read : (f.read p n).length = f.available p n := by
  simp [read]

end

end ByteFile

end InDevOS.Lib
