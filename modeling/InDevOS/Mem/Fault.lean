import InDevOS.Mem.Release

/-! The page fault handler's repair of user pages (`user_fault_fixup` in `idt.c`), and
what any operation on one address space may do to the rest of the system.

`SpaceOk` is what every user address space keeps: nothing above the user half, user
words only, device words over memory the allocator does not own, and private
writable pages whose frame has no second owner. `Moved` is the effect of one operation
on one address space, relative to the owners and tables of all the others; mapping,
unmapping and the fault handler are all instances of it. -/
namespace InDevOS.Mem

variable {σ : Type} (A : FrameAllocator σ)

/-! ### The handler -/

def userAddrMax : UInt64 := 0x00007FFFFFFFFFFF
def userStackTop : UInt64 := 0x00007FFFFFFFF000
def userStackLimit : UInt64 := 0x800000

def isUserAddress (a : UInt64) : Bool := a ≤ userAddrMax

/-- `brk_start` and `brk_current` of the process that owns the heap. -/
structure Brk where
  start : UInt64
  current : UInt64

def Brk.inHeap (brk : Brk) (a : UInt64) : Bool := brk.start ≤ a && a < brk.current

def inStack (a : UInt64) : Bool :=
  userStackTop - userStackLimit ≤ a && a < userStackTop + pageSize

def Heap.copyPage (h : Heap σ) (dst src : UInt64) : Heap σ :=
  { h with mem := Function.update h.mem dst (h.mem src) }

/-- Whether a write to a present page is repaired (`break_ro`), and `refs_peek`. -/
def breakRo (window : Bool) (pte : UInt64) (h : Heap σ) : Bool × UInt8 :=
  let cowBit := has pte vmmPresent && has pte vmmCow
  let roUser := has pte vmmPresent && has pte vmmUser && !has pte vmmWritable
  let userRo := has pte vmmUserRo
  if !userRo && (cowBit || (roUser && window)) then (true, 0)
  else if !userRo && roUser then
    let refsPeek := vmmPageGetRef A h (addr pte)
    (refsPeek > 1, refsPeek)
  else (false, 0)

/-- The repair: a proven sole owner writes in place, everyone else gets a copy. -/
def cowBreak (pml4 : Table 3) (pageAddr : UInt64) (refsPeek : UInt8) (h : Heap σ) :
    Bool × Table 3 × Heap σ :=
  let pte := pml4.look pageAddr
  let oldPhys := addr pte
  let refs := if refsPeek ≠ 0 then refsPeek else vmmPageGetRef A h oldPhys
  if refs = 1 then (true, setPte 3 pml4 pageAddr (brokenPte oldPhys pte), h)
  else
    match vmmAllocFrame A h with
    | (none, h) => (false, pml4, h)
    | (some newFrame, h) =>
      (true, setPte 3 pml4 pageAddr (brokenPte newFrame pte),
        vmmCowReleaseOld A (h.copyPage newFrame oldPhys) oldPhys)

def userFaultFixup (brk : Brk) (pml4 : Table 3) (faultingAddress : UInt64)
    (pagePresent wasWrite : Bool) (h : Heap σ) : Bool × Table 3 × Heap σ :=
  let pageAddr := pageOf faultingAddress
  let window := brk.inHeap faultingAddress || inStack faultingAddress
  if !isUserAddress faultingAddress then (false, pml4, h)
  else if !pagePresent then
    if window then
      match vmmAllocFrame A h with
      | (none, h) => (false, pml4, h)
      | (some frame, h) =>
        -- the result of the mapping is not looked at
        let r := vmmMapPageIn A pml4 pageAddr frame
          (vmmPresent ||| vmmUser ||| vmmWritable ||| vmmNx) h
        (true, r.2.1, r.2.2)
    else (false, pml4, h)
  else if wasWrite then
    let b := breakRo A window (pml4.look pageAddr) h
    if b.1 then cowBreak A pml4 pageAddr b.2 h else (false, pml4, h)
  else (false, pml4, h)

/-! ### What an address space keeps -/

/-- A page only its address space may see the writes to. -/
def Private (pte : UInt64) : Prop :=
  has pte vmmPresent = true ∧ has pte vmmWritable = true ∧ has pte vmmShared = false ∧
    has pte vmmDevice = false

variable {A}

/-- A device word maps memory outside the allocator, or, once a write to a read-only one
in the heap or stack window was repaired, a writable copy from the set `D`. -/
def DeviceWord (L : Lawful A) (D : UInt64 → Prop) (pte : UInt64) : Prop :=
  has pte vmmPresent = true → has pte vmmDevice = true → has pte vmmCow = false ∧
    (¬ L.Managed (addr pte) ∨ has pte vmmWritable = true ∧ D (addr pte))

structure SpaceOk (L : Lawful A) (D : UInt64 → Prop) (own : UInt64 → Nat) (t : Table 3) : Prop where
  userOnly : UserOnly t
  userWords : t.All UserWord
  device : ∀ va, DeviceWord L D (t.look va)
  sole : ∀ va, Private (t.look va) → own (addr (t.look va)) ≤ 1

/-- Frames that left the account for good in this step and were fresh before it. -/
def Kept (A : FrameAllocator σ) (D : UInt64 → Prop) (gone : UInt64 → Nat) (h : Heap σ) : UInt64 → Prop :=
  fun p => D p ∨ 0 < gone p ∧ ¬ A.Live h.pmm p

/-- An operation on one address space takes `t, h` to `t', h'`. The other address spaces
hold `own` and `tab`; `gone` is what this one stops mapping without a release, and `dev`
says whether it may map device memory. -/
structure Moved (L : Lawful A) (K : UInt64 → Prop) (own tab : UInt64 → Nat) (sat D : UInt64 → Prop)
    (dev : Prop) (gone : UInt64 → Nat) (t : Table 3) (h : Heap σ) (t' : Table 3) (h' : Heap σ) :
    Prop where
  counted : Counted L K h' (own + gone + t'.owns) (tab + t'.tabs) sat
  ok : SpaceOk L (Kept A D gone h) (own + gone + t'.owns) t'
  /-- New owners are of new frames. -/
  fresh : ∀ p, 0 < gone p + t'.owns p → 0 < t.owns p ∨ ¬ A.Live h.pmm p
  /-- A fresh frame is mapped or gone, not both. -/
  once : ∀ p, ¬ A.Live h.pmm p → 0 < gone p → t'.owns p = 0
  /-- A frame that loses its last owner and stays allocated has a saturated count. -/
  back : ∀ p, 0 < own p + t.owns p → A.Live h'.pmm p → (own + gone + t'.owns) p = 0 → sat p
  plain : ¬ dev → ∀ va, has (t'.look va) vmmDevice = true → has (t.look va) vmmDevice = true

section Specs
variable {L : Lawful A} {K : UInt64 → Prop} {own tab : UInt64 → Nat} {sat D : UInt64 → Prop}
  {dev : Prop} {t : Table 3} {h : Heap σ}

theorem Private.maps {pte : UInt64} (hp : Private pte) : Maps pte (addr pte) :=
  ⟨hp.1, hp.2.2.2, rfl⟩

theorem DeviceWord.mono {D' : UInt64 → Prop} {pte : UInt64} (hd : DeviceWord L D pte)
    (himp : ∀ p, D p → D' p) : DeviceWord L D' pte := by
  intro hp hdev
  obtain ⟨h₁, h₂⟩ := hd hp hdev
  exact ⟨h₁, h₂.imp_right fun h₃ => ⟨h₃.1, himp _ h₃.2⟩⟩

theorem deviceWord_zero : DeviceWord L D 0 := fun h => by simp [not_has_zero] at h

theorem deviceWord_of_not_device {pte : UInt64} (h : has pte vmmDevice = false) : DeviceWord L D pte :=
  fun _ hd => absurd (h.symm.trans hd) (by decide)

theorem kept_left {gone : UInt64 → Nat} {p : UInt64} (hD : D p) : Kept A D gone h p := .inl hD

/-- A frame that lost its owners without a new use either went back or is saturated. -/
theorem Counted.sat_of_live {own' tab' : UInt64 → Nat} {h' : Heap σ} {p : UInt64}
    (hc : Counted L K h own tab sat) (hc' : Counted L K h' own' tab' sat) (hp : 0 < own p)
    (htab : tab' p ≤ tab p) (hl : A.Live h'.pmm p) (h0 : own' p = 0) : sat p := by
  by_contra hs
  have htab0 : tab p = 0 := by
    by_contra hne
    have := (hc.tabApart p (Nat.pos_of_ne_zero hne)).2.1
    omega
  have hK := hc'.noGarbage p hl h0 (by omega) hs
  have := (hc.foreign p hK).2.1
  omega

/-! ### Repaired words -/

theorem has_brokenPte_flags {phys : UInt64} (pte : UInt64) (hp : Aligned phys) :
    has (brokenPte phys pte) vmmPresent = has pte vmmPresent ∧
      has (brokenPte phys pte) vmmDevice = has pte vmmDevice ∧
      has (brokenPte phys pte) vmmUser = has pte vmmUser :=
  ⟨has_brokenPte pte hp (by decide) (by decide) (by decide) (by decide),
    has_brokenPte pte hp (by decide) (by decide) (by decide) (by decide),
    has_brokenPte pte hp (by decide) (by decide) (by decide) (by decide)⟩

theorem userWord_brokenPte {phys pte : UInt64} (hp : Aligned phys) (hu : UserWord pte) :
    UserWord (brokenPte phys pte) := by
  obtain ⟨h₁, -, h₃⟩ := has_brokenPte_flags pte hp
  rw [UserWord, h₁, h₃]
  exact hu

theorem ownsPte_brokenPte {phys pte : UInt64} (hp : Aligned phys) (hpres : has pte vmmPresent = true)
    (q : UInt64) :
    ownsPte (brokenPte phys pte) q = if has pte vmmDevice = false ∧ q = phys then 1 else 0 := by
  obtain ⟨h₁, h₂, -⟩ := has_brokenPte_flags pte hp
  simp only [ownsPte, Maps, h₁, h₂, addr_brokenPte pte hp, hpres, true_and, eq_comm]

theorem Counted.sole_of_refs {p : UInt64} (hc : Counted L K h own tab sat) (hp : 0 < own p)
    (hr : vmmPageGetRef A h p = 1) : own p = 1 := by
  obtain ⟨-, hmax, -⟩ := hc.own_frame hp
  rw [vmmPageGetRef, if_neg hmax] at hr
  have hs : ¬ sat p := fun hs => by
    have := (hc.satLive p hs).2
    rw [hr] at this
    exact absurd this (by decide)
  rcases hc.counts p hp hs with ⟨h₁, -⟩ | ⟨-, -, h₁⟩
  · rw [hr] at h₁
    exact absurd h₁ (by decide)
  · rw [hr] at h₁
    exact h₁.symm

theorem setPte_owns_of_eq {va pte' : UInt64} (hp : has (t.look va) vmmPresent = true)
    (h : ownsPte pte' = ownsPte (t.look va)) : (setPte 3 t va pte').owns = t.owns := by
  funext q
  have hq := (setPte_spec t pte' hp).1 q
  rw [h] at hq
  exact Nat.add_right_cancel hq

theorem index_user {va : UInt64} (h : isUserAddress va = true) : index 3 va ∈ userHalf := by
  have hle : va.toNat ≤ userAddrMax.toNat := UInt64.le_iff_toNat_le.mp (of_decide_eq_true h)
  have hmax : userAddrMax.toNat = 2 ^ 47 - 1 := rfl
  rw [mem_userHalf, index_val le_rfl]
  have : va.toNat / 2 ^ (12 + 9 * 3) < 256 := by
    omega
  omega

/-- A repaired device word was read-only, and so maps memory outside the allocator. -/
theorem unmanaged_of_breakRo {window : Bool} {pte : UInt64} (hd : DeviceWord L D pte)
    (hb : (breakRo A window pte h).1 = true) (hdev : has pte vmmDevice = true) :
    has pte vmmPresent = true → ¬ L.Managed (addr pte) := by
  intro hp
  obtain ⟨hcow, hm⟩ := hd hp hdev
  rcases hm with hm | ⟨hw, -⟩
  · exact hm
  · unfold breakRo at hb
    simp [hcow, hw] at hb

theorem present_of_breakRo {window : Bool} {pte : UInt64}
    (hb : (breakRo A window pte h).1 = true) : has pte vmmPresent = true := by
  unfold breakRo at hb
  by_contra hp
  simp [hp] at hb

theorem breakRo_refs (window : Bool) (pte : UInt64) (h : Heap σ) :
    (if (breakRo A window pte h).2 ≠ 0 then (breakRo A window pte h).2
      else vmmPageGetRef A h (addr pte)) = vmmPageGetRef A h (addr pte) := by
  unfold breakRo
  dsimp only
  split_ifs <;> simp_all

theorem vmmMapPageIn_ok {va phys flags : UInt64} {h₁ : Heap σ} (hc : Counted L K h₁ own tab sat)
    (hoom : (vmmMapPageIn A t va phys flags h₁).2.2.oom = h₁.oom) :
    (vmmMapPageIn A t va phys flags h₁).1 = true := by
  have hm := mapIn_spec t va (mkPte phys flags) hc
  by_contra hf
  have := hm.oom_failed (eq_false_of_ne_true hf)
  exact absurd hoom this.ne'

section Moves
variable (hc : Counted L K h (own + t.owns) (tab + t.tabs) sat) (hok : SpaceOk L D (own + t.owns) t)
include hc hok

theorem mapIn_moved {va pte : UInt64} {h₁ : Heap σ} (hva : index 3 va ∈ userHalf)
    (hc₁ : Counted L K h₁ (own + t.owns + ownsPte pte) (tab + t.tabs) sat)
    (hnew : ∀ p, 0 < ownsPte pte p → ¬ A.Live h.pmm p) (hu : UserWord pte)
    (hd : DeviceWord L D pte) (hdev : ¬ dev → has pte vmmDevice = false)
    (hr : (mapIn A 3 t va pte h₁).1 = true) :
    Moved L K own tab sat D dev (ownsPte (t.look va)) t h (mapIn A 3 t va pte h₁).2.1
      (mapIn A 3 t va pte h₁).2.2 := by
  have hm := mapIn_spec t va pte hc₁
  have hw := mapIn_wrote (A := A) t va pte h₁
  have huser : UserOnly (mapIn A 3 t va pte h₁).2.1 := mapIn_userOnly hok.userOnly hva
  generalize mapIn A 3 t va pte h₁ = r at hm hw hr huser
  have howns := hm.owns hr
  have hacc : own + ownsPte (t.look va) + r.2.1.owns = own + t.owns + ownsPte pte := by
    funext p
    have := howns p
    simp only [Pi.add_apply]
    omega
  -- the page's old frame was owned, and so is not fresh
  have hold : ∀ p, 0 < ownsPte (t.look va) p → 0 < t.owns p := by
    intro p hp
    have hmaps : Maps (t.look va) p := by
      by_contra hn
      simp [ownsPte, hn] at hp
    exact Node.owns_pos hmaps
  have hlive : ∀ p, 0 < t.owns p → A.Live h.pmm p := fun p hp =>
    hc.ownLive p (Nat.add_pos_right _ hp)
  refine ⟨?_, ⟨huser, hw.all _ userWord_zero hu hok.userWords, fun va' => ?_, fun va' hpriv => ?_⟩,
    fun p hp => ?_, fun p hdead hp => ?_, fun p hp _ h0 => ?_, fun hn va' hd' => ?_⟩
  · obtain ⟨new, htabs, hcount⟩ := hm.counted
    rw [hacc, htabs, ← add_assoc]
    exact hcount
  · by_cases hs : SamePage 3 va va'
    · rw [hw.look_same hr va' hs]
      exact hd.mono fun p => kept_left
    · rw [hw.look_other va' hs]
      exact (hok.device va').mono fun p => kept_left
  · rw [hacc]
    by_cases hs : SamePage 3 va va'
    · rw [hw.look_same hr va' hs] at hpriv ⊢
      have h₁ : ownsPte pte (addr pte) = 1 := if_pos hpriv.maps
      have h₂ := (hc.fresh (hnew (addr pte) (by omega))).1
      show (own + t.owns) (addr pte) + ownsPte pte (addr pte) ≤ 1
      omega
    · rw [hw.look_other va' hs] at hpriv ⊢
      have h₁ : ¬ 0 < ownsPte pte (addr (t.look va')) := fun hp =>
        hnew _ hp (hlive _ (Node.owns_pos hpriv.maps))
      have h₂ := hok.sole va' hpriv
      show (own + t.owns) (addr (t.look va')) + ownsPte pte (addr (t.look va')) ≤ 1
      omega
  · have := howns p
    by_cases h0 : 0 < t.owns p
    · exact .inl h0
    · exact .inr (hnew p (by omega))
  · exact absurd (hlive p (hold p hp)) hdead
  · rw [hacc] at h0
    simp only [Pi.add_apply] at h0
    omega
  · by_cases hs : SamePage 3 va va'
    · rw [hw.look_same hr va' hs, hdev hn] at hd'
      exact absurd hd' (by decide)
    · rwa [hw.look_other va' hs] at hd'

/-! ### Rewriting a word -/

theorem broken_moved {va frame pte' : UInt64} {h' : Heap σ} {gone : UInt64 → Nat}
    (hva : index 3 va ∈ userHalf) (hp : has (t.look va) vmmPresent = true) (hal : Aligned frame)
    (hpte : pte' = brokenPte frame (t.look va))
    (hc' : Counted L K h' (own + gone + (setPte 3 t va pte').owns) (tab + t.tabs) sat)
    (hnew : ∀ q, 0 < ownsPte pte' q → 0 < t.owns q ∨ ¬ A.Live h.pmm q)
    (hd : DeviceWord L (Kept A D gone h) pte')
    (hsole : Private pte' → (own + gone + (setPte 3 t va pte').owns) frame ≤ 1)
    (hle : ∀ q, 0 < t.owns q → (own + gone + (setPte 3 t va pte').owns) q ≤ (own + t.owns) q)
    (hgone : ∀ q, 0 < gone q → ¬ A.Live h.pmm q ∧ (setPte 3 t va pte').owns q = 0) :
    Moved L K own tab sat D dev gone t h (setPte 3 t va pte') h' := by
  have hu : UserWord pte' := hpte ▸ userWord_brokenPte hal (hok.userWords.look userWord_zero va)
  have hdev : has pte' vmmDevice = has (t.look va) vmmDevice := hpte ▸ (has_brokenPte_flags _ hal).2.1
  have haddr : addr pte' = frame := hpte ▸ addr_brokenPte _ hal
  obtain ⟨howns, htabs, hsame, hother, hall⟩ := setPte_spec t pte' hp
  have huser : UserOnly (setPte 3 t va pte') := setPte_userOnly hok.userOnly hva
  rw [← htabs] at hc'
  refine ⟨hc', ⟨huser, hall _ hu hok.userWords, fun va' => ?_, fun va' hpriv => ?_⟩, fun q hq => ?_,
    fun q _ hq => (hgone q hq).2, fun q hq hl h0 => ?_, fun _ va' hd' => ?_⟩
  · by_cases hs : SamePage 3 va va'
    · rw [hsame va' hs]
      exact hd
    · rw [hother va' hs]
      exact (hok.device va').mono fun q => kept_left
  · by_cases hs : SamePage 3 va va'
    · rw [hsame va' hs] at hpriv ⊢
      exact haddr ▸ hsole hpriv
    · rw [hother va' hs] at hpriv ⊢
      exact (hle _ (Node.owns_pos hpriv.maps)).trans (hok.sole va' hpriv)
  · by_cases hg : 0 < gone q
    · exact .inr (hgone q hg).1
    · have := howns q
      by_cases hq' : 0 < ownsPte pte' q
      · exact hnew q hq'
      · exact .inl (by omega)
  · exact hc.sat_of_live hc' hq (by rw [htabs]) hl h0
  · by_cases hs : SamePage 3 va va'
    · rw [hsame va' hs, hdev] at hd'
      rwa [look_samePage t hs]
    · rwa [hother va' hs] at hd'

theorem upgrade_moved {va : UInt64}
    (hva : index 3 va ∈ userHalf) (hp : has (t.look va) vmmPresent = true)
    (hr : vmmPageGetRef A h (addr (t.look va)) = 1) :
    Moved L K own tab sat D dev 0 t h (setPte 3 t va (brokenPte (addr (t.look va)) (t.look va))) h := by
  have hal := aligned_addr (t.look va)
  have hkeep : ownsPte (brokenPte (addr (t.look va)) (t.look va)) = ownsPte (t.look va) := by
    funext q
    rw [ownsPte_brokenPte hal hp]
    simp only [ownsPte, Maps, hp, true_and, eq_comm]
  have howns := setPte_owns_of_eq hp hkeep
  have hdev : has (t.look va) vmmDevice = false → (own + t.owns) (addr (t.look va)) = 1 := by
    intro hd
    apply hc.sole_of_refs _ hr
    exact Nat.add_pos_right _ (Node.owns_pos ⟨hp, hd, rfl⟩)
  have h₂ := (has_brokenPte_flags (t.look va) hal).2.1
  apply broken_moved hc hok hva hp hal rfl
  · rw [howns, add_zero]
    exact hc
  · intro q hq
    rw [hkeep] at hq
    have := (setPte_spec t 0 hp).1 q
    rw [congrFun ownsPte_zero q] at this
    exact .inl (by omega)
  · intro _ hd
    rw [h₂] at hd
    refine ⟨not_has_cow_brokenPte _ hal, ?_⟩
    rw [addr_brokenPte _ hal]
    exact (hok.device va hp hd).2.imp_right fun hD => ⟨has_writable_brokenPte _ _, kept_left hD.2⟩
  · intro hpriv
    rw [howns, add_zero]
    exact (hdev (h₂ ▸ hpriv.2.2.2)).le
  · intro q _
    rw [howns, add_zero]
  · intro q hq
    exact absurd hq (lt_irrefl 0)

section
variable {va newFrame : UInt64} {h₁ : Heap σ} (hva : index 3 va ∈ userHalf)
  (hp : has (t.look va) vmmPresent = true) (ha : Allocated A L h h₁ newFrame)
include hva hp ha

/-- Everyone else gets a copy, and the old frame loses an owner. -/
theorem copy_moved (hd : has (t.look va) vmmDevice = false) :
    Moved L K own tab sat D dev 0 t h (setPte 3 t va (brokenPte newFrame (t.look va)))
      (vmmCowReleaseOld A (h₁.copyPage newFrame (addr (t.look va))) (addr (t.look va))) := by
  have hal : Aligned newFrame := ((ha.live newFrame).mpr (.inl rfl)).1
  have hfresh := (hc.fresh ha.fresh).1
  have hnewPte : ∀ q, ownsPte (brokenPte newFrame (t.look va)) q = if q = newFrame then 1 else 0 := by
    intro q
    rw [ownsPte_brokenPte hal hp]
    simp only [hd, true_and]
  have hold : ∀ q, ownsPte (t.look va) q = if q = addr (t.look va) then 1 else 0 := by
    intro q
    simp only [ownsPte, Maps, hp, hd, true_and, eq_comm]
  have howns := (setPte_spec t (brokenPte newFrame (t.look va)) hp).1
  have hacc : plus (own + t.owns) newFrame =
      plus (own + (setPte 3 t va (brokenPte newFrame (t.look va))).owns) (addr (t.look va)) := by
    funext q
    have h₂ := howns q
    rw [hnewPte, hold] at h₂
    simp only [plus, Pi.add_apply]
    omega
  have hlive : ∀ q, 0 < t.owns q → q ≠ newFrame := by
    intro q hq heq
    exact ha.fresh (heq ▸ hc.ownLive q (Nat.add_pos_right _ hq))
  have h₂ := (has_brokenPte_flags (t.look va) hal).2.1
  apply broken_moved hc hok hva hp hal rfl
  · rw [add_zero]
    apply Counted.cowReleaseOld
    rw [← hacc]
    exact (hc.alloc_own ha).mem _
  · intro q hq
    rw [hnewPte] at hq
    by_cases hqn : q = newFrame
    · exact .inr (hqn ▸ ha.fresh)
    · simp [hqn] at hq
  · exact deviceWord_of_not_device (h₂.trans hd)
  · intro _
    rw [add_zero]
    have h₃ := howns newFrame
    rw [hnewPte, if_pos rfl] at h₃
    simp only [Pi.add_apply] at hfresh ⊢
    omega
  · intro q hq
    have h₃ := howns q
    rw [hnewPte, if_neg (hlive q hq)] at h₃
    rw [add_zero]
    simp only [Pi.add_apply]
    omega
  · intro q hq
    exact absurd hq (lt_irrefl 0)

/-- A write to a read-only device page in the heap or stack window is repaired too: the
copy keeps the device flag, so nothing will ever release it. -/
theorem copy_device_moved (hd : has (t.look va) vmmDevice = true) (hm : ¬ L.Managed (addr (t.look va))) :
    Moved L K own tab sat D dev (plus 0 newFrame) t h (setPte 3 t va (brokenPte newFrame (t.look va)))
      (vmmCowReleaseOld A (h₁.copyPage newFrame (addr (t.look va))) (addr (t.look va))) := by
  have hal : Aligned newFrame := ((ha.live newFrame).mpr (.inl rfl)).1
  have hfresh := (hc.fresh ha.fresh).1
  have hzero : ∀ q, ownsPte (brokenPte newFrame (t.look va)) q = 0 := fun q => by
    rw [ownsPte_brokenPte hal hp]
    simp [hd]
  have howns := setPte_owns_of_eq hp (funext fun q => (hzero q).trans (by simp [ownsPte, Maps, hd]))
  have hacc : own + plus 0 newFrame + t.owns = plus (own + t.owns) newFrame := by
    funext q
    simp only [plus, Pi.add_apply, Pi.zero_apply]
    omega
  have hgone : ∀ q, 0 < plus 0 newFrame q → q = newFrame := by
    intro q hq
    by_contra hne
    simp [plus, hne] at hq
  have h₂ := (has_brokenPte_flags (t.look va) hal).2.1
  apply broken_moved hc hok hva hp hal rfl
  · rw [howns, hacc]
    exact ((hc.alloc_own ha).mem _).cowReleaseOld_unmanaged (aligned_addr _) hm
  · intro q hq
    rw [hzero] at hq
    exact absurd hq (lt_irrefl 0)
  · intro _ _
    refine ⟨not_has_cow_brokenPte _ hal, .inr ⟨has_writable_brokenPte _ _, .inr ⟨?_, ?_⟩⟩⟩
    · rw [addr_brokenPte _ hal, plus_self]
      exact Nat.succ_pos _
    · rw [addr_brokenPte _ hal]
      exact ha.fresh
  · intro hpriv
    exact absurd ((h₂.trans hd).symm.trans hpriv.2.2.2) (by decide)
  · intro q hq
    have hne : q ≠ newFrame := fun heq =>
      ha.fresh (heq ▸ hc.ownLive q (Nat.add_pos_right _ hq))
    rw [howns, hacc, plus_of_ne hne]
  · intro q hq
    obtain rfl := hgone q hq
    rw [howns]
    simp only [Pi.add_apply] at hfresh
    exact ⟨ha.fresh, by omega⟩

end

/-! ### Faults and unmapping -/

theorem Moved.refl : Moved L K own tab sat D dev 0 t h t h := by
  refine ⟨hc, ⟨hok.userOnly, hok.userWords, fun va => (hok.device va).mono fun p => kept_left,
    hok.sole⟩, fun p hp => ?_, fun p _ hp => absurd hp (lt_irrefl 0), fun p hp _ h0 => ?_,
    fun _ va => id⟩
  · exact .inl (by simpa using hp)
  · simp only [Pi.add_apply, Pi.zero_apply] at h0
    omega

theorem cowBreak_moved {va : UInt64} {window : Bool}
    (hva : index 3 va ∈ userHalf) (hb : (breakRo A window (t.look va) h).1 = true)
    (hoom : (cowBreak A t va (breakRo A window (t.look va) h).2 h).2.2.oom = h.oom) :
    ∃ gone, Moved L K own tab sat D dev gone t h
        (cowBreak A t va (breakRo A window (t.look va) h).2 h).2.1
        (cowBreak A t va (breakRo A window (t.look va) h).2 h).2.2 ∧
      (has (t.look va) vmmDevice = false → gone = 0) := by
  have hp := present_of_breakRo hb
  unfold cowBreak at hoom ⊢
  simp only [breakRo_refs] at hoom ⊢
  by_cases hr : vmmPageGetRef A h (addr (t.look va)) = 1
  · rw [if_pos hr]
    exact ⟨0, upgrade_moved hc hok hva hp hr, fun _ => rfl⟩
  · rw [if_neg hr] at hoom ⊢
    generalize ha : vmmAllocFrame A h = a at hoom
    obtain ⟨_ | newFrame, h₁⟩ := a
    · have := vmmAllocFrame_none ha
      subst this
      exact absurd hoom (Nat.succ_ne_self _)
    · have hal := vmmAllocFrame_some hc.inv ha
      by_cases hd : has (t.look va) vmmDevice = false
      · exact ⟨0, copy_moved hc hok hva hp hal hd, fun _ => rfl⟩
      · have hdev : has (t.look va) vmmDevice = true := by simpa using hd
        exact ⟨plus 0 newFrame, copy_device_moved hc hok hva hp hal hdev
          (unmanaged_of_breakRo (hok.device va) hb hdev hp), fun hn => absurd hn hd⟩

/-- A word that maps a fresh frame for the user joins the account. -/
theorem fresh_moved {va newFrame flags : UInt64} {h₁ : Heap σ}
    (hva : index 3 va ∈ userHalf) (ha : Allocated A L h h₁ newFrame)
    (hf : flags &&& pteAddrMask = 0) (hu : has flags vmmUser = true)
    (hd : has flags vmmDevice = false) (hr : (vmmMapPageIn A t va newFrame flags h₁).1 = true) :
    Moved L K own tab sat D dev (ownsPte (t.look va)) t h (vmmMapPageIn A t va newFrame flags h₁).2.1
      (vmmMapPageIn A t va newFrame flags h₁).2.2 := by
  have hal : Aligned newFrame := ((ha.live newFrame).mpr (.inl rfl)).1
  have hdev : has (mkPte newFrame flags) vmmDevice = false :=
    (has_mkPte _ _ (by decide) (by decide)).trans hd
  have hadd : own + t.owns + ownsPte (mkPte newFrame flags) = plus (own + t.owns) newFrame := by
    rw [add_ownsPte_of_maps (has_present_mkPte _ _) hdev, addr_mkPte _ hf hal]
  apply mapIn_moved hc hok hva
  · rw [hadd]
    exact hc.alloc_own ha
  · intro p hp
    have hpn : p = newFrame := by
      by_contra hne
      have : ¬ Maps (mkPte newFrame flags) p := fun hm => hne (hm.2.2.symm.trans (addr_mkPte _ hf hal))
      simp [ownsPte, this] at hp
    exact hpn ▸ ha.fresh
  · intro _
    exact (has_mkPte _ _ (by decide) (by decide)).trans hu
  · exact deviceWord_of_not_device hdev
  · exact fun _ => hdev
  · exact hr

/-- **The fault handler keeps the accounts**: no fault makes an owner of a frame that it
does not count, or takes one away uncounted, short of a device page. -/
theorem userFaultFixup_moved (brk : Brk) (va : UInt64) (wasWrite : Bool)
    (hoom : (userFaultFixup A brk t va (has (t.look va) vmmPresent) wasWrite h).2.2.oom = h.oom) :
    ∃ gone, Moved L K own tab sat D dev gone t h
        (userFaultFixup A brk t va (has (t.look va) vmmPresent) wasWrite h).2.1
        (userFaultFixup A brk t va (has (t.look va) vmmPresent) wasWrite h).2.2 ∧
      (has (t.look va) vmmDevice = false → gone = 0) := by
  have hnone : ∃ gone, Moved L K own tab sat D dev gone t h t h ∧
      (has (t.look va) vmmDevice = false → gone = 0) := ⟨0, Moved.refl hc hok, fun _ => rfl⟩
  have hlook : t.look (pageOf va) = t.look va := look_samePage t (samePage_pageOf va)
  unfold userFaultFixup at hoom ⊢
  dsimp only at hoom ⊢
  by_cases hu : isUserAddress va = true
  · have hva : index 3 (pageOf va) ∈ userHalf := by
      rw [index_pageOf le_rfl]
      exact index_user hu
    rw [if_neg (by simp [hu])] at hoom ⊢
    cases hp : has (t.look va) vmmPresent with
    | false =>
      rw [hp] at hoom
      rw [if_pos (show (!false) = true from rfl)] at hoom ⊢
      split at hoom
      · rename_i hw
        rw [if_pos hw]
        generalize ha : vmmAllocFrame A h = a at hoom
        obtain ⟨_ | frame, h₁⟩ := a
        · have := vmmAllocFrame_none ha
          subst this
          exact absurd hoom (Nat.succ_ne_self _)
        · have hal := vmmAllocFrame_some hc.inv ha
          have hr := vmmMapPageIn_ok (hc.alloc_own hal) (hoom.trans hal.oom.symm)
          refine ⟨_, fresh_moved hc hok hva hal (by decide) (by decide) (by decide) hr, fun _ => ?_⟩
          funext p
          exact if_neg fun hm => absurd (hm.1.symm.trans (hlook ▸ hp)) (by decide)
      · rename_i hw
        rw [if_neg hw]
        exact hnone
    | true =>
      rw [hp] at hoom
      rw [if_neg (show ¬ (!true) = true by decide)] at hoom ⊢
      by_cases hww : wasWrite = true
      · rw [if_pos hww] at hoom ⊢
        split at hoom
        · rename_i hb
          rw [if_pos hb, ← hlook]
          exact cowBreak_moved hc hok hva hb hoom
        · rename_i hb
          rw [if_neg hb]
          exact hnone
      · rw [if_neg hww]
        exact hnone
  · rw [if_pos (by simpa using hu)]
    exact hnone

theorem unmap_moved (va pages : UInt64) :
    Moved L K own tab sat D dev 0 t h (vmmUnmapRangeReleaseIn A t va pages h).1
      (vmmUnmapRangeReleaseIn A t va pages h).2.2 := by
  obtain ⟨gone, goneTabs, howns, htabs, hcount, hlook, hall, -, -⟩ :=
    vmmUnmapRangeReleaseIn_spec (L := L) (K := K) (h := h) t va pages hok.userWords
  have huser : UserOnly (vmmUnmapRangeReleaseIn A t va pages h).1 := unmapLoop_userOnly _ hok.userOnly
  generalize vmmUnmapRangeReleaseIn A t va pages h = r at *
  have hc' : Counted L K r.2.2 (own + r.1.owns) (tab + r.1.tabs) sat := by
    apply hcount
    rw [add_assoc, add_assoc, ← howns, ← htabs]
    exact hc
  have hle : ∀ p, (own + r.1.owns) p ≤ (own + t.owns) p := by
    intro p
    rw [howns]
    simp only [Pi.add_apply]
    omega
  refine ⟨by rwa [add_zero], ⟨huser, hall _ userWord_zero hok.userWords, fun va' => ?_,
    fun va' hpriv => ?_⟩, fun p hp => .inl ?_, fun p _ hp => absurd hp (lt_irrefl 0),
    fun p hp hl h0 => ?_, fun _ va' hd' => ?_⟩
  · rcases hlook va' with h₁ | h₁ <;> rw [h₁]
    · exact (hok.device va').mono fun p => kept_left
    · exact deviceWord_zero
  · rcases hlook va' with h₁ | h₁ <;> rw [h₁] at hpriv ⊢
    · exact (hle _).trans (hok.sole va' hpriv)
    · exact absurd hpriv.1 (by simp [not_has_zero])
  · rw [howns]
    simp only [Pi.add_apply, Pi.zero_apply] at hp ⊢
    omega
  · refine hc.sat_of_live hc' hp ?_ hl h0
    rw [htabs]
    simp only [Pi.add_apply]
    omega
  · rcases hlook va' with h₁ | h₁ <;> rw [h₁] at hd'
    · exact hd'
    · simp [not_has_zero] at hd'

end Moves

end Specs

end InDevOS.Mem
