import InDevOS.Lib.Crc

/-! The checksum of ext4 metadata: CRC-32C without the final inversion.

`e4_crc32c` takes a byte at a time with a table of 256 words; that is the register fed bit
by bit (`e4_crc32c_bitwise`), so it finds every change confined to 32 consecutive bits
(`e4_crc32c_finds_burst`). -/
namespace InDevOS.Ext4

open Lib

/-- The polynomial, reflected. -/
def castagnoli : BitVec 32 := 0x82F63B78

/-- One round of the loop that fills the table. -/
def e4CrcRound (c : BitVec 32) : BitVec 32 := (c >>> 1) ^^^ (castagnoli &&& (0#32 - (c &&& 1#32)))

/-- `e4_crc_tab[i]`. -/
def e4CrcTab (i : BitVec 32) : BitVec 32 := e4CrcRound^[8] i

/-- The body of the loop of `e4_crc32c`. -/
def e4CrcByte (crc : BitVec 32) (b : UInt8) : BitVec 32 :=
  e4CrcTab ((crc ^^^ b.toBitVec.setWidth 32) &&& 0xFF#32) ^^^ (crc >>> 8)

/-- `e4_crc32c`. -/
def e4Crc32c (crc : BitVec 32) (data : List UInt8) : BitVec 32 := data.foldl e4CrcByte crc

/-- The bits of a text, the lowest of each byte first. -/
def textBits (data : List UInt8) : List Bool :=
  data.flatMap fun b => Crc.bits 8 (b.toBitVec.setWidth 32)

theorem e4CrcRound_eq : e4CrcRound = Crc.step castagnoli := by
  funext c
  have hmask : 0#32 - (c &&& 1#32) = if c.getLsbD 0 then 0xFFFFFFFF#32 else 0#32 := by
    rw [BitVec.and_one_eq_setWidth_ofBool_getLsbD]
    cases c.getLsbD 0 <;> rfl
  rw [e4CrcRound, Crc.step, hmask]
  cases c.getLsbD 0 <;> rfl

/-- Eight rounds of a word: the table's entry for its low byte, and the rest moved down. -/
theorem e4CrcTab_low (x : BitVec 32) :
    e4CrcTab (x &&& 0xFF#32) ^^^ (x >>> 8) = (Crc.step castagnoli)^[8] x := by
  have hbits : Crc.bits 8 (x &&& 0xFF#32) = Crc.bits 8 x := by simp [Crc.bits, List.range, List.range.loop]
  have hrest : (x &&& 0xFF#32) >>> 8 = 0#32 := by rw [BitVec.ushiftRight_and_distrib]; exact BitVec.and_zero
  have hword (y : BitVec 32) := Crc.iterate_step_xor castagnoli y 0#32 8
  simp only [BitVec.zero_xor] at hword
  rw [e4CrcTab, e4CrcRound_eq, hword, hword, hbits, hrest, BitVec.xor_zero]

theorem e4CrcByte_eq (crc : BitVec 32) (b : UInt8) :
    e4CrcByte crc b = Crc.feeds castagnoli crc (Crc.bits 8 (b.toBitVec.setWidth 32)) := by
  have hb : b.toBitVec.setWidth 32 >>> 8 = 0#32 := by bv_omega
  have hmove : (crc ^^^ b.toBitVec.setWidth 32) >>> 8 = crc >>> 8 := by
    rw [BitVec.ushiftRight_xor_distrib, hb, BitVec.xor_zero]
  rw [e4CrcByte, ← hmove, e4CrcTab_low, Crc.iterate_step_xor, hb, BitVec.xor_zero]

/-- **The table is exact**: a byte at a time is a bit at a time. -/
theorem e4_crc32c_bitwise (crc : BitVec 32) (data : List UInt8) :
    e4Crc32c crc data = Crc.feeds castagnoli crc (textBits data) := by
  induction data generalizing crc with
  | nil => rfl
  | cons b data ih =>
    rw [textBits, List.flatMap_cons, Crc.feeds, List.foldl_append]
    exact (ih _).trans (by rw [e4CrcByte_eq]; rfl)

/-- **Damage is found**: two texts whose bits differ only inside a window of 32 have different
checksums, from whatever seed. -/
theorem e4_crc32c_finds_burst (crc : BitVec 32) {x y : List UInt8} {l u v r : List Bool}
    (hx : textBits x = l ++ u ++ r) (hy : textBits y = l ++ v ++ r) (hlen : u.length = v.length)
    (hu : u.length ≤ 32) (hne : u ≠ v) : e4Crc32c crc x ≠ e4Crc32c crc y := by
  rw [e4_crc32c_bitwise, e4_crc32c_bitwise, hx, hy]
  exact fun h => hne (Crc.feeds_burst castagnoli crc hu (by decide) hlen h)

theorem e4_crc32c_finds_burst_short : e4Crc32c 0xFFFFFFFF#32 [1, 128] ≠ e4Crc32c 0xFFFFFFFF#32 [2, 0] :=
  e4_crc32c_finds_burst _ (l := []) (u := textBits [1, 128]) (v := textBits [2, 0]) (r := [])
    (by simp) (by simp) rfl (by decide) (by decide)

end InDevOS.Ext4
