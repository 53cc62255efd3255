import Mathlib

/-! Page table entries of `mem.h`: a 64-bit word with a frame address and flags.

The lemmas say how the words the kernel builds read back: what a masked update
leaves of the other fields, and which frame an assembled entry maps. -/
namespace InDevOS.Mem

def pageSize : UInt64 := 4096

def vmmPresent : UInt64 := 0x1
def vmmWritable : UInt64 := 0x2
def vmmUser : UInt64 := 0x4
def vmmCow : UInt64 := 0x200
def vmmDevice : UInt64 := 0x400
def vmmShared : UInt64 := 0x800
def vmmUserRo : UInt64 := 0x10000000000000
/-- `vmm_nx_bit`, as set on CPUs that have it. -/
def vmmNx : UInt64 := 0x8000000000000000

def pteAddrMask : UInt64 := 0x000FFFFFFFFFF000
def pteFlagsMask : UInt64 := ~~~pteAddrMask

/-- The flag test `pte & m`. -/
def has (pte m : UInt64) : Bool := pte &&& m != 0

/-- The frame an entry maps. -/
def addr (pte : UInt64) : UInt64 := pte &&& pteAddrMask

/-- A physical address an entry can hold. -/
def Aligned (p : UInt64) : Prop := p &&& pteAddrMask = p

/-- The word `vmm_map_page_in` stores. -/
def mkPte (phys flags : UInt64) : UInt64 := (phys &&& pteAddrMask) ||| flags ||| vmmPresent

/-- The word fork leaves in both tables for a writable private page. -/
def cowPte (pte : UInt64) : UInt64 := (pte &&& ~~~vmmWritable) ||| vmmCow

/-- The word a broken copy-on-write leaves, mapping `phys`. -/
def brokenPte (phys pte : UInt64) : UInt64 :=
  phys ||| (((pte &&& pteFlagsMask) &&& ~~~vmmCow) ||| vmmWritable)

/-! ### Masks -/

theorem or_and_mask (a b m : UInt64) : (a ||| b) &&& m = (a &&& m) ||| (b &&& m) := by
  apply UInt64.toBitVec_inj.mp
  ext i hi
  simp [Bool.and_or_distrib_right]

/-- Clearing `a` and setting `b` leaves the bits of `m` outside both. -/
theorem clear_set_and {a b m : UInt64} (x : UInt64) (ha : ~~~a &&& m = m) (hb : b &&& m = 0) :
    ((x &&& ~~~a) ||| b) &&& m = x &&& m := by
  rw [or_and_mask, hb, UInt64.or_zero, UInt64.and_assoc, ha]

theorem has_congr {x y m : UInt64} (h : x &&& m = y &&& m) : has x m = has y m := by
  rw [has, has, h]

theorem has_or_right {y m : UInt64} (x : UInt64) (h : has y m = true) : has (x ||| y) m = true := by
  simp only [has, bne_iff_ne, ne_eq] at h ⊢
  rw [or_and_mask]
  intro h0
  exact h (UInt64.or_eq_zero_iff.mp h0).2

theorem not_has_of_and_eq_zero {x m : UInt64} (h : x &&& m = 0) : has x m = false := by
  simp [has, h]

theorem aligned_addr (pte : UInt64) : Aligned (addr pte) := by
  show (pte &&& pteAddrMask) &&& pteAddrMask = pte &&& pteAddrMask
  rw [UInt64.and_assoc, UInt64.and_self]

theorem Aligned.and_eq_zero {p m : UInt64} (hp : Aligned p) (hm : pteAddrMask &&& m = 0) :
    p &&& m = 0 := by
  rw [← hp, UInt64.and_assoc, hm, UInt64.and_zero]

theorem Aligned.mod_eq {p : UInt64} (hp : Aligned p) : p.toNat % 4096 = 0 := by
  have h0 : (p &&& 4095).toNat = 0 := by
    rw [hp.and_eq_zero (by decide)]
    rfl
  exact (Nat.and_two_pow_sub_one_eq_mod p.toNat 12).symm.trans h0

theorem aligned_of_toNat {p : UInt64} (hmod : p.toNat % 4096 = 0) (hlt : p.toNat < 2 ^ 52) : Aligned p := by
  have hk : p.toNat = (p.toNat / 4096) <<< 12 := by
    rw [Nat.shiftLeft_eq]
    omega
  have hmask : pteAddrMask.toNat = (2 ^ 40 - 1) <<< 12 := rfl
  apply UInt64.toNat_inj.mp
  rw [UInt64.toNat_and, hmask, hk, ← Nat.shiftLeft_and_distrib, Nat.and_two_pow_sub_one_eq_mod,
    Nat.mod_eq_of_lt (by omega)]

theorem Aligned.eq_of_div {p q : UInt64} (hp : Aligned p) (hq : Aligned q)
    (h : p / pageSize = q / pageSize) : p = q := by
  have hp' := hp.mod_eq
  have hq' := hq.mod_eq
  have hdiv : p.toNat / 4096 = q.toNat / 4096 := by
    have := congrArg UInt64.toNat h
    exact this
  apply UInt64.toNat_inj.mp
  omega

/-! ### The words the kernel builds -/

section
variable (pte phys flags : UInt64)

theorem has_present_mkPte : has (mkPte phys flags) vmmPresent = true :=
  has_or_right _ (by decide)

theorem addr_mkPte {flags : UInt64} (hf : flags &&& pteAddrMask = 0) (hp : Aligned phys) :
    addr (mkPte phys flags) = phys := by
  show ((phys &&& pteAddrMask) ||| flags ||| vmmPresent) &&& pteAddrMask = phys
  rw [or_and_mask, or_and_mask, hf, UInt64.and_assoc, UInt64.and_self, UInt64.or_zero,
    show vmmPresent &&& pteAddrMask = 0 by decide, UInt64.or_zero]
  exact hp

theorem has_mkPte {m : UInt64} (hm : pteAddrMask &&& m = 0) (hm' : vmmPresent &&& m = 0) :
    has (mkPte phys flags) m = has flags m := by
  apply has_congr
  show ((phys &&& pteAddrMask) ||| flags ||| vmmPresent) &&& m = flags &&& m
  rw [or_and_mask, or_and_mask, UInt64.and_assoc, hm, UInt64.and_zero, UInt64.zero_or, hm',
    UInt64.or_zero]

theorem addr_cowPte : addr (cowPte pte) = addr pte :=
  clear_set_and pte (by decide) (by decide)

theorem has_cowPte {m : UInt64} (hm : ~~~vmmWritable &&& m = m) (hm' : vmmCow &&& m = 0) :
    has (cowPte pte) m = has pte m :=
  has_congr (clear_set_and pte hm hm')

theorem not_has_writable_cowPte : has (cowPte pte) vmmWritable = false := by
  apply not_has_of_and_eq_zero
  show ((pte &&& ~~~vmmWritable) ||| vmmCow) &&& vmmWritable = 0
  rw [or_and_mask, UInt64.and_assoc, show ~~~vmmWritable &&& vmmWritable = 0 by decide,
    UInt64.and_zero, show vmmCow &&& vmmWritable = 0 by decide, UInt64.or_zero]

theorem addr_brokenPte {phys : UInt64} (hp : Aligned phys) : addr (brokenPte phys pte) = phys := by
  show (phys ||| (((pte &&& pteFlagsMask) &&& ~~~vmmCow) ||| vmmWritable)) &&& pteAddrMask = phys
  rw [or_and_mask, clear_set_and _ (by decide) (by decide), UInt64.and_assoc,
    show pteFlagsMask &&& pteAddrMask = 0 by decide, UInt64.and_zero, UInt64.or_zero]
  exact hp

theorem has_brokenPte {phys m : UInt64} (hp : Aligned phys) (hm : pteAddrMask &&& m = 0)
    (hm' : ~~~vmmCow &&& m = m) (hw : vmmWritable &&& m = 0) (hf : pteFlagsMask &&& m = m) :
    has (brokenPte phys pte) m = has pte m := by
  apply has_congr
  show (phys ||| (((pte &&& pteFlagsMask) &&& ~~~vmmCow) ||| vmmWritable)) &&& m = pte &&& m
  rw [or_and_mask, hp.and_eq_zero hm, UInt64.zero_or, clear_set_and _ hm' hw, UInt64.and_assoc, hf]

theorem has_writable_brokenPte : has (brokenPte phys pte) vmmWritable = true :=
  has_or_right _ (has_or_right _ (by decide))

theorem not_has_cow_brokenPte {phys : UInt64} (hp : Aligned phys) :
    has (brokenPte phys pte) vmmCow = false := by
  apply not_has_of_and_eq_zero
  show (phys ||| (((pte &&& pteFlagsMask) &&& ~~~vmmCow) ||| vmmWritable)) &&& vmmCow = 0
  rw [or_and_mask, or_and_mask, hp.and_eq_zero (by decide), UInt64.and_assoc,
    show ~~~vmmCow &&& vmmCow = 0 by decide, UInt64.and_zero,
    show vmmWritable &&& vmmCow = 0 by decide, UInt64.or_zero, UInt64.or_zero]

end

end InDevOS.Mem
