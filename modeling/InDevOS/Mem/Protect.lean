import InDevOS.Mem.Isolation
import InDevOS.Mem.Mmap

/-! Changing the protection of a range (`sys_mprotect_impl` in `syscall.c`).

Every address space keeps the frames behind its private writable pages to itself
(`Exclusive`); fork sees to it by taking the write bit from both sides and marking the word
copy-on-write. `sys_mprotect` leaves the write bit off a word with that mark. But fork also
shares the frames of pages that were read-only already, without a mark, and such a page
becomes writable again. So the rule survives exactly if no page of that kind is made
writable while another address space maps its frame (`mprotect_exclusive_iff`). -/
namespace InDevOS.Mem

variable {σ : Type}

/-! ### The call -/

def vmmWritethru : UInt64 := 0x8
def vmmNocache : UInt64 := 0x10

section
variable (prot : UInt32)

def writes : Bool := prot &&& protWrite != 0
def executes : Bool := prot &&& protExec != 0

/-- What a device mapping keeps: its marker and the memory type (PAT, PCD, PWT). -/
def deviceKept : UInt64 := vmmDevice ||| vmmWritethru ||| vmmNocache ||| 0x80

/-- The flags asked for with those a device mapping keeps. -/
def protAsked (pte : UInt64) : UInt64 :=
  let flags := vmmPresent ||| vmmUser
  let flags := if writes prot then flags ||| vmmWritable else flags
  let flags := if !executes prot then flags ||| vmmNx else flags
  if has pte vmmDevice then flags ||| (pte &&& deviceKept) else flags

/-- The flags of the new word: a copy-on-write page stays one. -/
def protFlags (pte : UInt64) : UInt64 :=
  let flags := protAsked prot pte
  let flags := if has pte vmmCow then (flags &&& ~~~vmmWritable) ||| vmmCow else flags
  let flags := flags ||| (pte &&& vmmShared)
  if !writes prot then flags ||| vmmUserRo else flags

/-- The word that replaces a present one. -/
def protPte (pte : UInt64) : UInt64 := addr pte ||| protFlags prot pte

end

/-- The loop `for (va = start; va < end; va += PAGE_SIZE)`. -/
def protPages (prot : UInt32) : (fuel : Nat) → (va stop : UInt64) → Table 3 → Table 3
  | 0, _, _, t => t
  | fuel + 1, va, stop, t =>
    if va < stop then
      let pte := t.look va
      protPages prot fuel (va + pageSize) stop
        (if has pte vmmPresent then setPte 3 t va (protPte prot pte) else t)
    else t

def protStart (a : UInt64) : UInt64 := pageOf a
def protEnd (a length : UInt64) : UInt64 := pageOf (a + length + pageSize - 1)

/-- The number of pages up to the end, which bounds the turns of the loop. -/
def protCount (a length : UInt64) : Nat :=
  ((protEnd a length).toNat - (protStart a).toNat) / 4096

/-- `sys_mprotect_impl` -/
def sysMprotect (a length : UInt64) (prot : UInt32) (t : Table 3) : Option Errno × Table 3 :=
  if length = 0 then (none, t)
  else if !isUserAddress (protStart a) || !isUserAddress (protEnd a length - 1) then (some .enomem, t)
  else (none, protPages prot (protCount a length) (protStart a) (protEnd a length) t)

/-- The call of the process with address space `i`. -/
def World.mprotect (w : World σ) (i : Nat) (a length : UInt64) (prot : UInt32) : World σ :=
  w.on i fun t h => ((sysMprotect a length prot t).2, h)

/-! ### Words -/

theorem has_or (x y m : UInt64) : has (x ||| y) m = (has x m || has y m) := by
  unfold has
  rw [or_and_mask, Bool.eq_iff_iff, Bool.or_eq_true, bne_iff_ne, bne_iff_ne, bne_iff_ne, ne_eq,
    UInt64.or_eq_zero_iff, not_and_or]

theorem has_and (x y m : UInt64) : has (x &&& y) m = has x (y &&& m) := by
  unfold has
  rw [UInt64.and_assoc]

theorem has_none (x : UInt64) : has x 0 = false := by
  simp [has]

theorem has_or_if (c : Bool) (x y m : UInt64) :
    has (if c then x ||| y else x) m = (has x m || (c && has y m)) := by
  cases c
  · exact (Bool.or_false _).symm
  · exact has_or x y m

section Words
variable (prot : UInt32) (pte : UInt64)

theorem has_protAsked (m : UInt64) :
    has (protAsked prot pte) m =
      (has vmmPresent m || has vmmUser m || (writes prot && has vmmWritable m) ||
      (!executes prot && has vmmNx m) || (has pte vmmDevice && has pte (deviceKept &&& m))) := by
  unfold protAsked
  rw [has_or_if, has_or_if, has_or_if, has_or, has_and]

theorem has_protFlags (m : UInt64) :
    has (protFlags prot pte) m =
      ((if has pte vmmCow then has (protAsked prot pte) (~~~vmmWritable &&& m) || has vmmCow m
        else has (protAsked prot pte) m) ||
      has pte (vmmShared &&& m) || (!writes prot && has vmmUserRo m)) := by
  unfold protFlags
  rw [has_or_if, has_or, has_and]
  cases has pte vmmCow
  · rfl
  · rw [if_pos rfl, if_pos rfl, has_or, has_and]

/-- What the call can ask for. -/
def protBits : UInt64 := vmmPresent ||| vmmUser ||| vmmWritable ||| vmmNx ||| vmmUserRo

theorem has_protFlags_kept {m : UInt64} (hm : protBits &&& m = 0) (hw : ~~~vmmWritable &&& m = m) :
    has (protFlags prot pte) m =
      ((has pte vmmDevice && has pte (deviceKept &&& m)) || (has pte vmmCow && has vmmCow m) ||
        has pte (vmmShared &&& m)) := by
  have hbits : has protBits m = false := not_has_of_and_eq_zero hm
  unfold protBits at hbits
  rw [has_or, has_or, has_or, has_or] at hbits
  simp only [Bool.or_eq_false_iff] at hbits
  obtain ⟨⟨⟨⟨h₁, h₂⟩, h₃⟩, h₄⟩, h₅⟩ := hbits
  have hasked : has (protAsked prot pte) m = (has pte vmmDevice && has pte (deviceKept &&& m)) := by
    simp [has_protAsked, h₁, h₂, h₃, h₄]
  rw [has_protFlags, hw, h₅, hasked]
  cases has pte vmmCow <;> simp

theorem has_protPte {m : UInt64} (hm : pteAddrMask &&& m = 0) :
    has (protPte prot pte) m = has (protFlags prot pte) m := by
  unfold protPte addr
  rw [has_or, has_and, hm, has_none, Bool.false_or]

theorem addr_protPte : addr (protPte prot pte) = addr pte := by
  have hflags : has (protFlags prot pte) pteAddrMask = false := by
    simp [has_protFlags_kept prot pte (m := pteAddrMask) (by decide) (by decide), has_none,
      show deviceKept &&& pteAddrMask = 0 by decide, show vmmShared &&& pteAddrMask = 0 by decide,
      show has vmmCow pteAddrMask = false by decide]
  have hzero : protFlags prot pte &&& pteAddrMask = 0 := by
    simpa only [has, bne_eq_false_iff_eq] using hflags
  show (addr pte ||| protFlags prot pte) &&& pteAddrMask = addr pte
  rw [or_and_mask, hzero, UInt64.or_zero]
  exact aligned_addr pte

theorem protPte_present : has (protPte prot pte) vmmPresent = true := by
  rw [has_protPte prot pte (by decide)]
  simp +decide [has_protFlags, has_protAsked]

theorem protPte_writable : has (protPte prot pte) vmmWritable = (writes prot && !has pte vmmCow) := by
  rw [has_protPte prot pte (by decide), has_protFlags, has_protAsked, has_protAsked,
    show ~~~vmmWritable &&& vmmWritable = 0 by decide, show vmmShared &&& vmmWritable = 0 by decide,
    show deviceKept &&& vmmWritable = 0 by decide, UInt64.and_zero]
  simp only [has_none, Bool.and_false]
  cases has pte vmmCow <;> cases writes prot <;> cases executes prot <;> decide

theorem protPte_kept {m : UInt64} (hm : m = vmmCow ∨ m = vmmShared ∨ m = vmmDevice) :
    has (protPte prot pte) m = has pte m := by
  rcases hm with rfl | rfl | rfl <;>
    rw [has_protPte prot pte (by decide), has_protFlags_kept prot pte (by decide) (by decide)]
  · simp +decide [show deviceKept &&& vmmCow = 0 by decide, show vmmShared &&& vmmCow = 0 by decide, has_none]
  · simp +decide [show deviceKept &&& vmmShared = 0 by decide, has_none]
  · simp +decide [show deviceKept &&& vmmDevice = vmmDevice by decide,
      show vmmShared &&& vmmDevice = 0 by decide, has_none]

end Words

/-- Two words that may differ in what the call changes only. -/
structure Alike (x y : UInt64) : Prop where
  frame : addr x = addr y
  present : has x vmmPresent = has y vmmPresent
  cow : has x vmmCow = has y vmmCow
  shared : has x vmmShared = has y vmmShared
  device : has x vmmDevice = has y vmmDevice

theorem Alike.refl (x : UInt64) : Alike x x := ⟨rfl, rfl, rfl, rfl, rfl⟩

theorem Alike.trans {x y z : UInt64} (h : Alike x y) (h' : Alike y z) : Alike x z :=
  ⟨h.frame.trans h'.frame, h.present.trans h'.present, h.cow.trans h'.cow, h.shared.trans h'.shared,
    h.device.trans h'.device⟩

theorem alike_protPte (prot : UInt32) {pte : UInt64} (hp : has pte vmmPresent = true) :
    Alike (protPte prot pte) pte :=
  ⟨addr_protPte prot pte, (protPte_present prot pte).trans hp.symm, protPte_kept prot pte (.inl rfl),
    protPte_kept prot pte (.inr (.inl rfl)), protPte_kept prot pte (.inr (.inr rfl))⟩

/-! ### Pages -/

/-- One turn of the loop. -/
def protPage (prot : UInt32) (va : UInt64) (t : Table 3) : Table 3 :=
  if has (t.look va) vmmPresent then setPte 3 t va (protPte prot (t.look va)) else t

/-- What a turn leaves of the word at `x`: it is as it was, or the page is the one at `va` and
it has its new word. -/
theorem protPage_look (prot : UInt32) (va : UInt64) (t : Table 3) (x : UInt64) :
    (SamePage 3 va x ∧ has (t.look x) vmmPresent = true ∧
      (protPage prot va t).look x = protPte prot (t.look x)) ∨
    (¬ (SamePage 3 va x ∧ has (t.look x) vmmPresent = true) ∧ (protPage prot va t).look x = t.look x) := by
  unfold protPage
  split_ifs with hp
  · obtain ⟨-, -, hsame, hother, -⟩ := setPte_spec t (protPte prot (t.look va)) hp
    by_cases hx : SamePage 3 va x
    · rw [hsame x hx, look_samePage t hx]
      exact .inl ⟨hx, hp, rfl⟩
    · exact .inr ⟨fun h => hx h.1, hother x hx⟩
  · refine .inr ⟨fun h => hp ?_, rfl⟩
    rw [← look_samePage t h.1]
    exact h.2

/-- The write bit of the page is what the call asks for. -/
def Settled (prot : UInt32) (pte : UInt64) : Prop :=
  has pte vmmPresent = true → has pte vmmWritable = (writes prot && !has pte vmmCow)

section Loop
variable (prot : UInt32)

theorem settled_protPte (pte : UInt64) : Settled prot (protPte prot pte) := by
  intro _
  rw [protPte_writable, protPte_kept prot pte (.inl rfl)]

theorem protPage_alike (va : UInt64) (t : Table 3) (x : UInt64) :
    Alike ((protPage prot va t).look x) (t.look x) := by
  rcases protPage_look prot va t x with ⟨-, hp, h⟩ | ⟨-, h⟩
  · rw [h]
    exact alike_protPte prot hp
  · rw [h]
    exact .refl _

theorem protPage_settled {va x : UInt64} {t : Table 3} (hx : SamePage 3 va x ∨ Settled prot (t.look x)) :
    Settled prot ((protPage prot va t).look x) := by
  rcases protPage_look prot va t x with ⟨-, -, h⟩ | ⟨hno, h⟩
  · rw [h]
    exact settled_protPte prot _
  · rw [h]
    rcases hx with hx | hx
    · exact fun hp => absurd ⟨hx, hp⟩ hno
    · exact hx

/-- The page of `x` is one of those from `start` up to `stop`. -/
def Covers (start stop x : UInt64) : Prop := ∃ v, start ≤ v ∧ v < stop ∧ SamePage 3 v x

variable (stop : UInt64)

theorem protPages_succ (fuel : Nat) (va : UInt64) (t : Table 3) :
    protPages prot (fuel + 1) va stop t =
      if va < stop then protPages prot fuel (va + pageSize) stop (protPage prot va t) else t := rfl

theorem protPages_alike (fuel : Nat) (va : UInt64) (t : Table 3) (x : UInt64) :
    Alike ((protPages prot fuel va stop t).look x) (t.look x) := by
  induction fuel generalizing va t with
  | zero => exact .refl _
  | succ fuel ih =>
    rw [protPages_succ]
    split
    · exact (ih _ _).trans (protPage_alike prot va t x)
    · exact .refl _

theorem protPages_settled (fuel : Nat) {va x : UInt64} {t : Table 3} (hx : Settled prot (t.look x)) :
    Settled prot ((protPages prot fuel va stop t).look x) := by
  induction fuel generalizing va t with
  | zero => exact hx
  | succ fuel ih =>
    rw [protPages_succ]
    split
    · exact ih (protPage_settled prot (.inr hx))
    · exact hx

theorem samePage_of_within {va x : UInt64} (hal : va.toNat % 4096 = 0) (hle : va ≤ x)
    (hlt : x.toNat < va.toNat + 4096) : SamePage 3 va x := by
  have hva : va = pageOf x := by
    apply UInt64.toNat_inj.mp
    rw [toNat_pageOf]
    have := UInt64.le_iff_toNat_le.mp hle
    omega
  rw [hva]
  exact fun k hk => (index_pageOf hk x).symm

variable {stop}

/-- The next page starts where this one ends: there is no wrap below the end. -/
theorem toNat_next {va : UInt64} (hal : va.toNat % 4096 = 0) (hstop : stop.toNat % 4096 = 0)
    (hlt : va < stop) : (va + pageSize).toNat = va.toNat + 4096 := by
  have h₁ := UInt64.lt_iff_toNat_lt.mp hlt
  have h₂ := stop.toNat_lt
  show (va.toNat + 4096) % 2 ^ 64 = _
  omega

section
variable (hstop : stop.toNat % 4096 = 0) (fuel : Nat) {va : UInt64} (hal : va.toNat % 4096 = 0)
include hstop hal

theorem protPages_look (t : Table 3) (x : UInt64) : (protPages prot fuel va stop t).look x = t.look x ∨
      Covers va stop x ∧ Settled prot ((protPages prot fuel va stop t).look x) := by
  induction fuel generalizing va t with
  | zero => exact .inl rfl
  | succ fuel ih =>
    rw [protPages_succ]
    split_ifs with hlt
    · have hnext := toNat_next hal hstop hlt
      by_cases hx : SamePage 3 va x
      · exact .inr ⟨⟨va, UInt64.le_refl va, hlt, hx⟩,
          protPages_settled prot stop fuel (protPage_settled prot (.inl hx))⟩
      · have hkept : (protPage prot va t).look x = t.look x := by
          rcases protPage_look prot va t x with ⟨hsame, -, -⟩ | ⟨-, h⟩
          · exact absurd hsame hx
          · exact h
        have hnext' : (va + pageSize).toNat % 4096 = 0 := by omega
        rcases ih hnext' (protPage prot va t) with h | ⟨⟨v, hv, hv'⟩, h⟩
        · exact .inl (h.trans hkept)
        · refine .inr ⟨⟨v, UInt64.le_iff_toNat_le.mpr ?_, hv'⟩, h⟩
          have := UInt64.le_iff_toNat_le.mp hv
          omega
    · exact .inl rfl

theorem protPages_covers (hfuel : stop.toNat ≤ va.toNat + fuel * 4096) (t : Table 3) {x : UInt64}
    (hle : va ≤ x) (hx : x < stop) : Settled prot ((protPages prot fuel va stop t).look x) := by
  have hle' := UInt64.le_iff_toNat_le.mp hle
  have hx' := UInt64.lt_iff_toNat_lt.mp hx
  induction fuel generalizing va t with
  | zero => omega
  | succ fuel ih =>
    have hlt : va < stop := UInt64.lt_iff_toNat_lt.mpr (by omega)
    have hnext := toNat_next hal hstop hlt
    rw [protPages_succ, if_pos hlt]
    by_cases hin : x.toNat < va.toNat + 4096
    · exact protPages_settled prot stop fuel
        (protPage_settled prot (.inl (samePage_of_within hal hle hin)))
    · have hge : (va + pageSize).toNat ≤ x.toNat := by omega
      exact ih (by omega) (by omega) _ (UInt64.le_iff_toNat_le.mpr hge) hge

end

end Loop

/-! ### The call -/

section Call
variable {a length : UInt64} {prot : UInt32}

/-- The call goes through the pages of the range. -/
def Accepted (a length : UInt64) : Prop :=
  length ≠ 0 ∧ isUserAddress (protStart a) = true ∧ isUserAddress (protEnd a length - 1) = true

instance (a length : UInt64) : Decidable (Accepted a length) := inferInstanceAs (Decidable (_ ∧ _))

theorem sysMprotect_refused (h : ¬ Accepted a length) (t : Table 3) :
    (sysMprotect a length prot t).2 = t := by
  unfold sysMprotect
  split_ifs with hlen hno
  · rfl
  · rfl
  · exact absurd ⟨hlen, by simpa using hno⟩ h

theorem sysMprotect_accepted (h : Accepted a length) (t : Table 3) :
    (sysMprotect a length prot t).2 =
      protPages prot (protCount a length) (protStart a) (protEnd a length) t := by
  obtain ⟨hlen, hs, he⟩ := h
  simp [sysMprotect, hlen, hs, he]

theorem protStart_aligned (a : UInt64) : (protStart a).toNat % 4096 = 0 := by
  unfold protStart
  rw [toNat_pageOf]
  omega

theorem protEnd_aligned (a length : UInt64) : (protEnd a length).toNat % 4096 = 0 := by
  unfold protEnd
  rw [toNat_pageOf]
  omega

/-- The bound on the turns never ends the loop. -/
theorem protCount_enough (a length : UInt64) :
    (protEnd a length).toNat ≤ (protStart a).toNat + protCount a length * 4096 := by
  have h₁ := protStart_aligned a
  have h₂ := protEnd_aligned a length
  unfold protCount
  omega

/-- **What the call can do to a page**: the frame and the marks stay; a page outside the range
keeps its word; in the range the write bit is the one asked for. -/
structure Protected (a length : UInt64) (prot : UInt32) (t t' : Table 3) : Prop where
  alike : ∀ x, Alike (t'.look x) (t.look x)
  look : ∀ x, t'.look x = t.look x ∨
    Accepted a length ∧ Covers (protStart a) (protEnd a length) x ∧ Settled prot (t'.look x)
  settled : Accepted a length → ∀ x, protStart a ≤ x → x < protEnd a length → Settled prot (t'.look x)

theorem sysMprotect_protected (a length : UInt64) (prot : UInt32) (t : Table 3) :
    Protected a length prot t (sysMprotect a length prot t).2 := by
  by_cases h : Accepted a length
  · rw [sysMprotect_accepted h]
    refine ⟨fun x => protPages_alike prot _ _ _ t x, fun x => ?_, fun _ x hs he => ?_⟩
    · exact (protPages_look prot (protEnd_aligned a length) _ (protStart_aligned a) t x).imp_right (⟨h, ·⟩)
    · exact protPages_covers prot (protEnd_aligned a length) _ (protStart_aligned a)
        (protCount_enough a length) t hs he
  · rw [sysMprotect_refused h]
    exact ⟨fun x => .refl _, fun x => .inl rfl, fun h' => absurd h' h⟩

end Call

/-! ### The rule -/

/-- The frame behind a writable private page is mapped by no other address space. -/
def Exclusive (w : World σ) : Prop :=
  ∀ i j, j ≠ i → ∀ t s, w.space i = some t → w.space j = some s →
    ∀ va x, Private (t.look va) → has (s.look x) vmmPresent = true → addr (s.look x) ≠ addr (t.look va)

/-- Every world that mapping, cloning, faults and stores reach keeps the rule. -/
theorem SafeRun.exclusive {A : FrameAllocator σ} (L : Lawful A) {s : σ} (hs : L.Inv s)
    (mem : UInt64 → Page) (ops : List Op) (hrun : SafeRun L (boot s mem) ops) :
    Exclusive (run A (boot s mem) ops) := by
  obtain ⟨_, _, _, hsound⟩ := hrun.sound ops (boot_sound L hs mem)
  exact fun i j hij t s ht hj va x => hsound.private_apart hij ht hj

/-- A private page without the copy-on-write mark. -/
def Unmarked (pte : UInt64) : Prop :=
  has pte vmmPresent = true ∧ has pte vmmCow = false ∧ has pte vmmShared = false ∧
    has pte vmmDevice = false

/-- No page the call would make writable has a frame that another address space maps. -/
def Unshared (w : World σ) (i : Nat) (a length : UInt64) (prot : UInt32) : Prop :=
  writes prot = true → Accepted a length →
    ∀ t, w.space i = some t → ∀ va, protStart a ≤ va → va < protEnd a length → Unmarked (t.look va) →
      ∀ j, j ≠ i → ∀ s, w.space j = some s →
        ∀ x, has (s.look x) vmmPresent = true → addr (s.look x) ≠ addr (t.look va)

section Rule
variable {w : World σ} {i : Nat} {a length : UInt64} {prot : UInt32}

theorem mprotect_space_other {j : Nat} (hij : j ≠ i) : (w.mprotect i a length prot).space j = w.space j :=
  World.on_space_of_ne hij _

theorem mprotect_space_self {t : Table 3} (ht : w.space i = some t) :
    (w.mprotect i a length prot).space i = some (sysMprotect a length prot t).2 :=
  World.on_space_self ht _

/-- A word that is private and writable after the call: it was before, or the call made it so. -/
theorem Protected.private_cases {t t' : Table 3} (h : Protected a length prot t t') {va : UInt64}
    (hp : Private (t'.look va)) :
    Private (t.look va) ∨ writes prot = true ∧ Accepted a length ∧
      ∃ v, protStart a ≤ v ∧ v < protEnd a length ∧ t.look v = t.look va ∧ Unmarked (t.look va) := by
  rcases h.look va with hkept | ⟨hacc, ⟨v, hs, he, hv⟩, hset⟩
  · rw [hkept] at hp
    exact .inl hp
  · have halike := h.alike va
    obtain ⟨hpres, hwr, hsh, hdev⟩ := hp
    have hasked := (hset hpres).symm.trans hwr
    rw [Bool.and_eq_true, Bool.not_eq_true', halike.cow] at hasked
    refine .inr ⟨hasked.1, hacc, v, hs, he, (look_samePage t hv).symm, ?_⟩
    exact ⟨halike.present ▸ hpres, hasked.2, halike.shared ▸ hsh, halike.device ▸ hdev⟩

/-- An unmarked page of the range is writable after a call that asks for it. -/
theorem Protected.private_of_unmarked {t t' : Table 3} (h : Protected a length prot t t')
    (hw : writes prot = true) (hacc : Accepted a length) {va : UInt64} (hs : protStart a ≤ va)
    (he : va < protEnd a length) (hun : Unmarked (t.look va)) : Private (t'.look va) := by
  have halike := h.alike va
  obtain ⟨hp, hcow, hsh, hdev⟩ := hun
  have hp' := halike.present.trans hp
  refine ⟨hp', ?_, halike.shared.trans hsh, halike.device.trans hdev⟩
  rw [h.settled hacc va hs he hp', hw, halike.cow, hcow]
  rfl

/-- The call keeps the rule between the other address spaces and towards them. -/
theorem Exclusive.mprotect (hw : Exclusive w) (hun : Unshared w i a length prot) :
    Exclusive (w.mprotect i a length prot) := by
  intro p q hpq t s ht hs va x hpriv hpres
  rcases eq_or_ne p i with rfl | hp
  · -- The page is one of the caller's.
    rw [mprotect_space_other hpq] at hs
    cases hold : w.space p with
    | none => simp [World.mprotect, World.on, hold] at ht
    | some t₀ =>
      rw [mprotect_space_self hold] at ht
      obtain rfl := Option.some.inj ht
      have hprot := sysMprotect_protected a length prot t₀
      rw [(hprot.alike va).frame]
      rcases hprot.private_cases hpriv with hpriv | ⟨hwr, hacc, v, hv, hv', hlook, hmark⟩
      · exact hw p q hpq t₀ s hold hs va x hpriv hpres
      · rw [← hlook] at hmark ⊢
        exact hun hwr hacc t₀ hold v hv hv' hmark q hpq s hs x hpres
  · rw [mprotect_space_other hp] at ht
    rcases eq_or_ne q i with rfl | hq
    · -- The caller's word maps the frame it did before.
      cases hold : w.space q with
      | none => simp [World.mprotect, World.on, hold] at hs
      | some s₀ =>
        rw [mprotect_space_self hold] at hs
        obtain rfl := Option.some.inj hs
        have halike := (sysMprotect_protected a length prot s₀).alike x
        rw [halike.frame]
        exact hw p q hpq t s₀ ht hold va x hpriv (halike.present ▸ hpres)
    · rw [mprotect_space_other hq] at hs
      exact hw p q hpq t s ht hs va x hpriv hpres

/-- **Protection and sharing.** The call keeps the rule exactly if no unmarked private page of
the range that it makes writable has a frame another address space maps. -/
theorem mprotect_exclusive_iff (w : World σ) (hw : Exclusive w) (i : Nat) (a length : UInt64)
    (prot : UInt32) : Exclusive (w.mprotect i a length prot) ↔ Unshared w i a length prot := by
  refine ⟨fun hex hwr hacc t ht va hs he hun j hj s hsp x hp heq => ?_, hw.mprotect⟩
  have hprot := sysMprotect_protected a length prot t
  refine hex i j hj _ s (mprotect_space_self ht) ((mprotect_space_other hj).trans hsp) va x
    (hprot.private_of_unmarked hwr hacc hs he hun) hp ?_
  rw [heq, (hprot.alike va).frame]

/-- A read-only user page. -/
def readFlags : FrameFlags := ⟨⟨vmmPresent ||| vmmUser ||| vmmUserRo, rfl, rfl⟩, rfl⟩

/-- Map a read-only page and fork. -/
def readOnlyForked : List Op := [.create, .mapFresh 0 textPage readFlags, .clone 0]

theorem readOnlyForked_exclusive : Exclusive (run freeList (boot fewFrames blank) readOnlyForked) :=
  SafeRun.exclusive freeListLawful fewFrames_inv blank readOnlyForked
    ⟨⟨trivial, by decide +kernel⟩, ⟨trivial, by decide +kernel⟩, ⟨trivial, by decide +kernel⟩, trivial⟩

/-- The parent asks for the page to be executable. -/
theorem mprotect_exclusive_iff_exec :
    Exclusive (run freeList (boot fewFrames blank) readOnlyForked) ∧
      Exclusive ((run freeList (boot fewFrames blank) readOnlyForked).mprotect 0 0x400000 0x1000 5) :=
  ⟨readOnlyForked_exclusive, (mprotect_exclusive_iff _ readOnlyForked_exclusive 0 0x400000 0x1000 5).mpr
    fun hw => absurd hw (by decide)⟩

/-- Page `va` of `i` is private and writable, and `x` of `j` has its frame. -/
def sharesFrame (w : World σ) (i j : Nat) (va x : UInt64) : Bool :=
  (w.space i).any fun t => (w.space j).any fun s =>
    has (t.look va) vmmPresent && has (t.look va) vmmWritable && !has (t.look va) vmmShared &&
      !has (t.look va) vmmDevice && has (s.look x) vmmPresent && addr (s.look x) == addr (t.look va)

theorem sharesFrame.not_exclusive {j : Nat} (hij : j ≠ i) {va x : UInt64}
    (h : sharesFrame w i j va x = true) : ¬ Exclusive w := by
  intro hex
  obtain ⟨t, ht, h⟩ := (Option.any_eq_true _ _).mp h
  obtain ⟨s, hs, h⟩ := (Option.any_eq_true _ _).mp h
  simp only [Bool.and_eq_true, Bool.not_eq_true', beq_iff_eq] at h
  obtain ⟨⟨⟨⟨⟨hp, hw⟩, hsh⟩, hd⟩, hpx⟩, heq⟩ := h
  exact hex i j hij t s ht hs va x ⟨hp, hw, hsh, hd⟩ hpx heq

/-- The parent asks for the page to be writable: it is, over a frame the child maps as well, and
the child reads what the parent then stores. -/
theorem mprotect_shares_frame :
    Exclusive (run freeList (boot fewFrames blank) readOnlyForked) ∧
      ¬ Exclusive ((run freeList (boot fewFrames blank) readOnlyForked).mprotect 0 0x400000 0x1000 3) ∧
      (run freeList (boot fewFrames blank) readOnlyForked).read 1 0x400010 = some 0 ∧
      (step freeList ((run freeList (boot fewFrames blank) readOnlyForked).mprotect 0 0x400000 0x1000 3)
        (.store 0 ⟨0, 0⟩ 0x400010 7)).read 1 0x400010 = some 7 := by
  refine ⟨readOnlyForked_exclusive, ?_, by decide +kernel, by decide +kernel⟩
  have hshares : sharesFrame ((run freeList (boot fewFrames blank) readOnlyForked).mprotect 0 0x400000
      0x1000 3) 0 1 0x400000 0x400000 = true := by decide +kernel
  exact sharesFrame.not_exclusive (by decide) hshares

end Rule

end InDevOS.Mem
