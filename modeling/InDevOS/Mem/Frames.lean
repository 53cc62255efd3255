import InDevOS.Mem.Pte

/-! Physical frames and their reference counts: the part of `mem.c` between the page
allocator and the page tables.

The allocator itself is an interface (`FrameAllocator`) with the laws the page
tables rely on (`Lawful`); that of `mem.c` keeps them (`Boot.lawful`). A user frame's count byte says how many page table
entries map it, in the code's own encoding: 0 is an untracked frame with one owner,
1 to 254 is the number of owners, and 255 a count that saturated, or a frame already
given back. `Counted` is the bookkeeping invariant, relative to how many entries map
each frame (`own`), which frames hold page tables (`tab`) and which counts have
saturated (`sat`). Each operation has one lemma that says how it moves the three. -/
namespace InDevOS.Mem

abbrev Page := Fin 4096 → UInt8

/-- What the virtual memory manager asks of the physical one, a page at a time:
`kalloc(PAGE_SIZE)`, `kfree` and `pmm_user_frame_kind`. -/
structure FrameAllocator (σ : Type) where
  alloc : σ → Option (UInt64 × σ)
  free : σ → UInt64 → σ
  kind : σ → UInt64 → Int
  /-- `vmm_max_phys_pages` -/
  maxPhysPages : UInt64

/-- The frame is a live one-page allocation. -/
def FrameAllocator.Live {σ : Type} (A : FrameAllocator σ) (s : σ) (p : UInt64) : Prop :=
  Aligned p ∧ A.kind s p = 1

instance {σ : Type} (A : FrameAllocator σ) (s : σ) (p : UInt64) : Decidable (A.Live s p) :=
  inferInstanceAs (Decidable (p &&& pteAddrMask = p ∧ A.kind s p = 1))

/-- The laws of the allocator, for the states its invariant describes. `Managed`
is the memory it hands out at all; device memory is not managed. -/
structure Lawful {σ : Type} (A : FrameAllocator σ) where
  Inv : σ → Prop
  Managed : UInt64 → Prop
  live_frame : ∀ {s p}, Inv s → A.Live s p →
    p ≠ 0 ∧ p / pageSize < A.maxPhysPages ∧ Managed p
  alloc_inv : ∀ {s s' p}, Inv s → A.alloc s = some (p, s') → Inv s'
  alloc_fresh : ∀ {s s' p}, Inv s → A.alloc s = some (p, s') → ¬ A.Live s p
  alloc_live : ∀ {s s' p}, Inv s → A.alloc s = some (p, s') →
    ∀ q, A.Live s' q ↔ q = p ∨ A.Live s q
  free_inv : ∀ {s p}, Inv s → A.Live s p → Inv (A.free s p)
  free_live : ∀ {s p}, Inv s → A.Live s p → ∀ q, A.Live (A.free s p) q ↔ q ≠ p ∧ A.Live s q
  /-- `pmm_user_frame_kind` answers 1, 0 or -1. -/
  kind_le : ∀ s p, A.kind s p ≤ 1

/-- Physical memory: the allocator's state, the count bytes by frame number, the
contents of the frames, and how many allocations have failed. -/
structure Heap (σ : Type) where
  pmm : σ
  refs : UInt64 → UInt8
  mem : UInt64 → Page
  oom : Nat

variable {σ : Type} (A : FrameAllocator σ)

def pfn (p : UInt64) : UInt64 := p / pageSize

section
variable (h : Heap σ) (p : UInt64)

def Heap.setRef (r : UInt8) : Heap σ :=
  { h with refs := Function.update h.refs (pfn p) r }

/-! ### The source's operations -/

def vmmAllocFrame (h : Heap σ) : Option UInt64 × Heap σ :=
  match A.alloc h.pmm with
  | none => (none, { h with oom := h.oom + 1 })
  | some (p, s) =>
    let h := { h with pmm := s, mem := Function.update h.mem p fun _ => 0 }
    (some p, if pfn p < A.maxPhysPages then h.setRef p 0 else h)

def vmmFreeFrame : Heap σ :=
  if p = 0 then h else { h with pmm := A.free h.pmm p }

def vmmPageRef : Heap σ :=
  if pfn p ≥ A.maxPhysPages then h
  else if h.refs (pfn p) ≥ 255 then h
  else h.setRef p (h.refs (pfn p) + 1)

def vmmPageUnref : Heap σ :=
  if pfn p ≥ A.maxPhysPages then h
  else
    let old := h.refs (pfn p)
    if old ≥ 255 then h
    else if old = 0 then h
    else if old = 1 then vmmFreeFrame A (h.setRef p 255) p
    else h.setRef p (old - 1)

def vmmPageGetRef : UInt8 :=
  if pfn p ≥ A.maxPhysPages then 0 else h.refs (pfn p)

def vmmLeafRelease : Heap σ :=
  if p = 0 then h
  else if pfn p ≥ A.maxPhysPages then
    if A.kind h.pmm p = 1 then vmmFreeFrame A h p else h
  else
    let r := h.refs (pfn p)
    if r ≥ 255 then h
    else if A.kind h.pmm p < 0 then h
    else if A.kind h.pmm p = 0 then h
    else if r = 0 then vmmFreeFrame A (h.setRef p 255) p
    else vmmPageUnref A h p

def vmmCowReleaseOld : Heap σ :=
  if p = 0 then h
  else if pfn p < A.maxPhysPages ∧ h.refs (pfn p) ≥ 255 then h
  else if pfn p < A.maxPhysPages ∧ ¬ h.refs (pfn p) ≤ 1 then h.setRef p (h.refs (pfn p) - 1)
  else vmmLeafRelease A h p

/-- One more entry maps the frame: the first share counts both owners. -/
def shareLeaf : Heap σ :=
  if vmmPageGetRef A h p = 0 then vmmPageRef A (vmmPageRef A h p) p else vmmPageRef A h p

end

/-! ### The bookkeeping invariant -/

/-- The count byte `r` of a frame with `n` owners, while it is not saturated. -/
def Shares (r : UInt8) (n : Nat) : Prop := r = 0 ∧ n = 1 ∨ r ≠ 0 ∧ r ≠ 255 ∧ r.toNat = n

variable {A}

/-- Frames in `K` are live for reasons of their own: kernel allocations. -/
structure Counted (L : Lawful A) (K : UInt64 → Prop) (h : Heap σ) (own tab : UInt64 → Nat)
    (sat : UInt64 → Prop) : Prop where
  inv : L.Inv h.pmm
  ownLive : ∀ p, 0 < own p → A.Live h.pmm p
  tabLive : ∀ p, 0 < tab p → A.Live h.pmm p
  tabApart : ∀ p, 0 < tab p → tab p = 1 ∧ own p = 0 ∧ ¬ sat p
  counts : ∀ p, 0 < own p → ¬ sat p → Shares (h.refs (pfn p)) (own p)
  satLive : ∀ p, sat p → A.Live h.pmm p ∧ h.refs (pfn p) = 255
  noGarbage : ∀ p, A.Live h.pmm p → own p = 0 → tab p = 0 → ¬ sat p → K p
  foreign : ∀ p, K p → A.Live h.pmm p ∧ own p = 0 ∧ tab p = 0 ∧ ¬ sat p

/-- What the account says of one frame. -/
structure FrameOk (live foreign : Prop) (refs : UInt8) (own tab : Nat) (sat : Prop) : Prop where
  ownLive : 0 < own → live
  tabLive : 0 < tab → live
  tabApart : 0 < tab → tab = 1 ∧ own = 0 ∧ ¬ sat
  counts : 0 < own → ¬ sat → Shares refs own
  satLive : sat → live ∧ refs = 255
  noGarbage : live → own = 0 → tab = 0 → ¬ sat → foreign
  foreign : foreign → live ∧ own = 0 ∧ tab = 0 ∧ ¬ sat

theorem FrameOk.congr {live live' foreign sat sat' : Prop} {refs refs' : UInt8} {own own' tab tab' : Nat}
    (h : FrameOk live foreign refs own tab sat) (hl : live' ↔ live) (hr : live → refs' = refs)
    (ho : own' = own) (ht : tab' = tab) (hs : sat' ↔ sat) : FrameOk live' foreign refs' own' tab' sat' := by
  rw [hl, ho, ht, hs]
  exact ⟨h.ownLive, h.tabLive, h.tabApart, fun h0 hn => hr (h.ownLive h0) ▸ h.counts h0 hn,
    fun hq => ⟨(h.satLive hq).1, (hr (h.satLive hq).1).trans (h.satLive hq).2⟩, h.noGarbage, h.foreign⟩

/-- One owner more. -/
def plus (own : UInt64 → Nat) (p : UInt64) : UInt64 → Nat := fun q => own q + if q = p then 1 else 0

theorem plus_self (own : UInt64 → Nat) (p : UInt64) : plus own p p = own p + 1 := by simp [plus]

theorem plus_of_ne {own : UInt64 → Nat} {p q : UInt64} (h : q ≠ p) : plus own p q = own q := by
  simp [plus, h]

section
variable (h : Heap σ) (p : UInt64) (r : UInt8)
include h

@[simp] theorem setRef_pmm : (h.setRef p r).pmm = h.pmm := rfl
@[simp] theorem setRef_mem : (h.setRef p r).mem = h.mem := rfl
@[simp] theorem setRef_oom : (h.setRef p r).oom = h.oom := rfl

theorem setRef_refs_self : (h.setRef p r).refs (pfn p) = r := by simp [Heap.setRef]

end

theorem setRef_refs_of_ne (h : Heap σ) {p q : UInt64} (r : UInt8) (hne : pfn q ≠ pfn p) :
    (h.setRef p r).refs (pfn q) = h.refs (pfn q) := by simp [Heap.setRef, hne]

section Specs
variable {L : Lawful A} {K : UInt64 → Prop} {h h' : Heap σ} {own tab : UInt64 → Nat}
  {sat : UInt64 → Prop} {p : UInt64}

theorem FrameAllocator.Live.pfn_ne {s : σ} {p q : UInt64} (hp : A.Live s p) (hq : A.Live s q)
    (hne : q ≠ p) : pfn q ≠ pfn p :=
  fun heq => hne (hq.1.eq_of_div hp.1 heq)

theorem counted_frameOk : Counted L K h own tab sat ↔ L.Inv h.pmm ∧
    ∀ p, FrameOk (A.Live h.pmm p) (K p) (h.refs (pfn p)) (own p) (tab p) (sat p) := by
  constructor
  · exact fun hc => ⟨hc.inv, fun p => ⟨hc.ownLive p, hc.tabLive p, hc.tabApart p, hc.counts p, hc.satLive p,
      hc.noGarbage p, hc.foreign p⟩⟩
  · exact fun ⟨hi, hp⟩ => ⟨hi, fun p => (hp p).ownLive, fun p => (hp p).tabLive, fun p => (hp p).tabApart,
      fun p => (hp p).counts, fun p => (hp p).satLive, fun p => (hp p).noGarbage, fun p => (hp p).foreign⟩

/-- **The frame rule**: a change to one frame leaves the account of the others alone. -/
theorem Counted.change (hc : Counted L K h own tab sat) {own' tab' : UInt64 → Nat} {sat' : UInt64 → Prop}
    (hi : L.Inv h'.pmm) (hlive : ∀ q, q ≠ p → (A.Live h'.pmm q ↔ A.Live h.pmm q))
    (hrefs : ∀ q, q ≠ p → A.Live h.pmm q → h'.refs (pfn q) = h.refs (pfn q))
    (hown : ∀ q, q ≠ p → own' q = own q) (htab : ∀ q, q ≠ p → tab' q = tab q)
    (hsat : ∀ q, q ≠ p → (sat' q ↔ sat q))
    (hp : FrameOk (A.Live h'.pmm p) (K p) (h'.refs (pfn p)) (own' p) (tab' p) (sat' p)) :
    Counted L K h' own' tab' sat' := by
  refine counted_frameOk.mpr ⟨hi, fun q => ?_⟩
  rcases eq_or_ne q p with rfl | hqp
  · exact hp
  · exact ((counted_frameOk.mp hc).2 q).congr (hlive q hqp) (hrefs q hqp) (hown q hqp) (htab q hqp) (hsat q hqp)

/-! ### Allocation -/

/-- What an allocation of `p` does to the heap. -/
structure Allocated (A : FrameAllocator σ) (L : Lawful A) (h h' : Heap σ) (p : UInt64) : Prop where
  inv : L.Inv h'.pmm
  fresh : ¬ A.Live h.pmm p
  live : ∀ q, A.Live h'.pmm q ↔ q = p ∨ A.Live h.pmm q
  refs_self : h'.refs (pfn p) = 0
  refs_other : ∀ q, pfn q ≠ pfn p → h'.refs (pfn q) = h.refs (pfn q)
  mem : h'.mem = Function.update h.mem p fun _ => 0
  oom : h'.oom = h.oom

theorem vmmAllocFrame_some (hi : L.Inv h.pmm) (ha : vmmAllocFrame A h = (some p, h')) :
    Allocated A L h h' p := by
  unfold vmmAllocFrame at ha
  cases hr : A.alloc h.pmm with
  | none => simp [hr] at ha
  | some r =>
    obtain ⟨q, s⟩ := r
    rw [hr] at ha
    simp only [Prod.mk.injEq, Option.some.injEq] at ha
    obtain ⟨rfl, rfl⟩ := ha
    have hi' := L.alloc_inv hi hr
    have hlive := L.alloc_live hi hr
    have hmax : pfn q < A.maxPhysPages := (L.live_frame hi' ((hlive q).mpr (.inl rfl))).2.1
    rw [if_pos hmax]
    exact ⟨hi', L.alloc_fresh hi hr, hlive, setRef_refs_self _ _ _,
      fun q' hq' => setRef_refs_of_ne _ _ hq', rfl, rfl⟩

theorem vmmAllocFrame_none (ha : vmmAllocFrame A h = (none, h')) :
    h' = { h with oom := h.oom + 1 } := by
  unfold vmmAllocFrame at ha
  cases hr : A.alloc h.pmm with
  | none =>
    rw [hr] at ha
    simpa using ha.symm
  | some r => simp [hr] at ha

theorem Counted.fresh (hc : Counted L K h own tab sat) (hp : ¬ A.Live h.pmm p) :
    own p = 0 ∧ tab p = 0 ∧ ¬ sat p ∧ ¬ K p := by
  refine ⟨?_, ?_, fun hs => hp (hc.satLive p hs).1, fun hk => hp (hc.foreign p hk).1⟩
  · exact Nat.eq_zero_of_not_pos fun h0 => hp (hc.ownLive p h0)
  · exact Nat.eq_zero_of_not_pos fun h0 => hp (hc.tabLive p h0)

theorem Allocated.refs_live (ha : Allocated A L h h' p) {q : UInt64}
    (hq : A.Live h.pmm q) : h'.refs (pfn q) = h.refs (pfn q) := by
  have hqp : q ≠ p := fun heq => ha.fresh (heq ▸ hq)
  exact ha.refs_other q (((ha.live p).mpr (.inl rfl)).pfn_ne
    ((ha.live q).mpr (.inr hq)) hqp)

section
variable (hc : Counted L K h own tab sat)
include hc

/-- The invariant after an allocation, before the frame is put to use: everything but
the account of the new frame. -/
theorem Counted.allocated (ha : Allocated A L h h' p)
    {own' tab' : UInt64 → Nat} (hown : ∀ q, q ≠ p → own' q = own q)
    (htab : ∀ q, q ≠ p → tab' q = tab q)
    (huse : own' p = 1 ∧ tab' p = 0 ∨ own' p = 0 ∧ tab' p = 1) :
    Counted L K h' own' tab' sat := by
  obtain ⟨hown0, htab0, hsat, hk⟩ := hc.fresh ha.fresh
  have hpl : A.Live h'.pmm p := (ha.live p).mpr (.inl rfl)
  refine hc.change ha.inv (fun q hqp => ?_) (fun q _ hq => ha.refs_live hq) hown htab (fun q _ => Iff.rfl) ?_
  · rw [ha.live, or_iff_right hqp]
  · exact ⟨fun _ => hpl, fun _ => hpl, fun _ => ⟨by omega, by omega, hsat⟩,
      fun _ _ => .inl ⟨ha.refs_self, by omega⟩, fun hs => absurd hs hsat, fun _ ho ht => by omega,
      fun hq => absurd hq hk⟩

theorem Counted.alloc_own (ha : Allocated A L h h' p) : Counted L K h' (plus own p) tab sat := by
  obtain ⟨hown0, htab0, -⟩ := hc.fresh ha.fresh
  exact hc.allocated ha (fun q hq => plus_of_ne hq) (fun q _ => rfl)
    (.inl ⟨by rw [plus_self, hown0], htab0⟩)

theorem Counted.alloc_tab (ha : Allocated A L h h' p) : Counted L K h' own (plus tab p) sat := by
  obtain ⟨hown0, htab0, -⟩ := hc.fresh ha.fresh
  exact hc.allocated ha (fun q _ => rfl) (fun q hq => plus_of_ne hq)
    (.inr ⟨hown0, by rw [plus_self, htab0]⟩)

theorem Counted.oom (n : Nat) : Counted L K { h with oom := n } own tab sat :=
  ⟨hc.inv, hc.ownLive, hc.tabLive, hc.tabApart, hc.counts, hc.satLive, hc.noGarbage, hc.foreign⟩

theorem Counted.mem (m : UInt64 → Page) : Counted L K { h with mem := m } own tab sat :=
  ⟨hc.inv, hc.ownLive, hc.tabLive, hc.tabApart, hc.counts, hc.satLive, hc.noGarbage, hc.foreign⟩

/-! ### Release -/

theorem Counted.freed (hp : 0 < own p ∨ 0 < tab p) (hs : ¬ sat p)
    {own' tab' : UInt64 → Nat} (hown : ∀ q, q ≠ p → own' q = own q)
    (htab : ∀ q, q ≠ p → tab' q = tab q) (hzero : own' p = 0 ∧ tab' p = 0)
    (hpmm : h'.pmm = A.free h.pmm p) (hrefs : ∀ q, pfn q ≠ pfn p → h'.refs (pfn q) = h.refs (pfn q)) :
    Counted L K h' own' tab' sat := by
  have hpl : A.Live h.pmm p := hp.elim (hc.ownLive p) (hc.tabLive p)
  have hlive := L.free_live hc.inv hpl
  rw [← hpmm] at hlive
  refine hc.change (hpmm ▸ L.free_inv hc.inv hpl) (fun q hqp => ?_)
    (fun q hqp hq => hrefs q (hpl.pfn_ne hq hqp)) hown htab (fun q _ => Iff.rfl) ?_
  · rw [hlive, and_iff_right hqp]
  · refine ⟨fun h0 => by omega, fun h0 => by omega, fun h0 => by omega, fun h0 => by omega,
      fun hq => absurd hq hs, fun hl => absurd rfl ((hlive p).mp hl).1, fun hk => ?_⟩
    obtain ⟨-, h₂, h₃, -⟩ := hc.foreign p hk
    omega

theorem Counted.recount (hp : 0 < own p) {own' : UInt64 → Nat}
    {sat' : UInt64 → Prop} {r : UInt8} (hown : ∀ q, q ≠ p → own' q = own q) (hp' : 0 < own' p)
    (hsat : ∀ q, q ≠ p → (sat' q ↔ sat q)) (hr : ¬ sat' p ∧ Shares r (own' p) ∨ sat' p ∧ r = 255) :
    Counted L K (h.setRef p r) own' tab sat' := by
  have hpl := hc.ownLive p hp
  have htab : tab p = 0 := Nat.eq_zero_of_not_pos fun h0 => by
    have := (hc.tabApart p h0).2.1
    omega
  have hself := setRef_refs_self h p r
  refine hc.change hc.inv (fun q _ => Iff.rfl)
    (fun q hqp hq => setRef_refs_of_ne h r (hpl.pfn_ne hq hqp)) hown (fun q _ => rfl) hsat ?_
  refine ⟨fun _ => hpl, hc.tabLive p, fun h0 => by omega, fun _ hsq => ?_, fun hq => ⟨hpl, ?_⟩,
    fun _ h0 => by omega, fun hk => absurd (hc.foreign p hk).2.1 hp.ne'⟩
  · rw [hself]
    exact hr.elim And.right fun hr => absurd hr.1 hsq
  · exact hself.trans (hr.elim (fun hr => absurd hq hr.1) And.right)

/-- Owners of a saturated frame come and go without a trace. -/
theorem Counted.of_sat (hs : sat p) {own' : UInt64 → Nat}
    (hown : ∀ q, q ≠ p → own' q = own q) : Counted L K h own' tab sat := by
  refine hc.change hc.inv (fun q _ => Iff.rfl) (fun q _ _ => rfl) hown (fun q _ => rfl) (fun q _ => Iff.rfl) ?_
  exact ⟨fun _ => (hc.satLive p hs).1, hc.tabLive p, fun h0 => absurd hs (hc.tabApart p h0).2.2,
    fun _ hn => absurd hs hn, hc.satLive p, fun _ _ _ hn => absurd hs hn,
    fun hk => absurd hs (hc.foreign p hk).2.2.2⟩

end

theorem Counted.free_tab (hc : Counted L K h own (plus tab p) sat) :
    Counted L K (vmmFreeFrame A h p) own tab sat := by
  have hp : 0 < plus tab p p := by
    rw [plus_self]
    omega
  obtain ⟨h₁, h₂, h₃⟩ := hc.tabApart p hp
  rw [plus_self] at h₁
  have hne : p ≠ 0 := (L.live_frame hc.inv (hc.tabLive p hp)).1
  refine hc.freed (.inr hp) h₃ (fun q _ => rfl) (fun q hq => (plus_of_ne hq).symm) ⟨h₂, by omega⟩ ?_ ?_
  · simp [vmmFreeFrame, hne]
  · intro q _
    simp [vmmFreeFrame, hne]

theorem Counted.free_own (hc : Counted L K h (plus own p) tab sat) (hs : ¬ sat p)
    (hlast : own p = 0) (r : UInt8) :
    Counted L K (vmmFreeFrame A (h.setRef p r) p) own tab sat := by
  have hp : 0 < plus own p p := by
    rw [plus_self]
    omega
  have hne : p ≠ 0 := (L.live_frame hc.inv (hc.ownLive p hp)).1
  have htab : tab p = 0 := Nat.eq_zero_of_not_pos fun h0 => by
    have := (hc.tabApart p h0).2.1
    omega
  refine hc.freed (.inl hp) hs (fun q hq => (plus_of_ne hq).symm) (fun q _ => rfl) ⟨hlast, htab⟩ ?_ ?_
  · simp [vmmFreeFrame, hne]
  · intro q hq
    simpa [vmmFreeFrame, hne] using setRef_refs_of_ne h r hq

theorem Counted.unref (hc : Counted L K h (plus own p) tab sat) (hs : ¬ sat p) {r : UInt8}
    (hleft : 0 < own p) (hr : Shares r (own p)) : Counted L K (h.setRef p r) own tab sat := by
  refine hc.recount ?_ (fun q hq => (plus_of_ne hq).symm) hleft (fun q _ => Iff.rfl) (.inl ⟨hs, hr⟩)
  rw [plus_self]
  omega

theorem Counted.own_frame (hc : Counted L K h own tab sat) (hp : 0 < own p) :
    p ≠ 0 ∧ ¬ pfn p ≥ A.maxPhysPages ∧ A.kind h.pmm p = 1 := by
  obtain ⟨h₁, h₂, -⟩ := L.live_frame hc.inv (hc.ownLive p hp)
  exact ⟨h₁, UInt64.not_le.mpr h₂, (hc.ownLive p hp).2⟩

section
variable (hc : Counted L K h (plus own p) tab sat)
include hc

/-- What the count byte of an owned frame says about the other owners. -/
theorem Counted.refs_cases : sat p ∧ h.refs (pfn p) = 255 ∨
      ¬ sat p ∧ own p = 0 ∧ (h.refs (pfn p) = 0 ∨ h.refs (pfn p) = 1) ∨
      ¬ sat p ∧ 0 < own p ∧ 1 < h.refs (pfn p) ∧ h.refs (pfn p) < 255 ∧
        Shares (h.refs (pfn p) - 1) (own p) := by
  by_cases hs : sat p
  · exact .inl ⟨hs, (hc.satLive p hs).2⟩
  · have hshare := hc.counts p (by rw [plus_self]; omega) hs
    rw [plus_self] at hshare
    rcases hshare with ⟨h₁, h₂⟩ | ⟨h₁, h₂, h₃⟩
    · exact .inr (.inl ⟨hs, by omega, .inl h₁⟩)
    · have hlt : (h.refs (pfn p)).toNat < 255 := by
        have := (h.refs (pfn p)).toNat_lt
        have : (h.refs (pfn p)).toNat ≠ 255 := fun h0 => h₂ (UInt8.toNat_inj.mp h0)
        omega
      by_cases hone : own p = 0
      · refine .inr (.inl ⟨hs, hone, .inr (UInt8.toNat_inj.mp ?_)⟩)
        rw [h₃, hone]
        rfl
      · have hsub : (h.refs (pfn p) - 1).toNat = own p := by
          rw [UInt8.toNat_sub_of_le]
          · rw [h₃]
            rfl
          · rw [UInt8.le_iff_toNat_le]
            show 1 ≤ _
            omega
        refine .inr (.inr ⟨hs, by omega, ?_, ?_, .inr ⟨?_, ?_, hsub⟩⟩)
        · rw [UInt8.lt_iff_toNat_lt]
          show 1 < _
          omega
        · exact hlt
        · intro h0
          rw [h0] at hsub
          have : own p = 0 := hsub.symm
          omega
        · intro h0
          rw [h0] at hsub
          have : own p = 255 := hsub.symm
          omega

/-- Releasing one mapping of a frame, as unmapping and teardown do it. -/
theorem Counted.leafRelease : Counted L K (vmmLeafRelease A h p) own tab sat := by
  have hp : 0 < plus own p p := by
    rw [plus_self]
    omega
  obtain ⟨hne, hmax, hkind⟩ := hc.own_frame hp
  have hk : ¬ A.kind h.pmm p < 0 ∧ ¬ A.kind h.pmm p = 0 := by
    rw [hkind]
    decide
  unfold vmmLeafRelease
  rw [if_neg hne, if_neg hmax]
  simp only [hk, if_false]
  rcases hc.refs_cases with ⟨hs, hr⟩ | ⟨hs, hlast, hr⟩ | ⟨hs, hmore, hlo, hhi, hr⟩
  · rw [hr, if_pos (by decide)]
    exact hc.of_sat hs fun q hq => (plus_of_ne hq).symm
  · rcases hr with hr | hr
    · rw [hr, if_neg (by decide), if_pos rfl]
      exact hc.free_own hs hlast 255
    · rw [hr, if_neg (by decide), if_neg (by decide), vmmPageUnref, if_neg hmax, hr]
      exact hc.free_own hs hlast 255
  · have h255 : ¬ h.refs (pfn p) ≥ 255 := UInt8.not_le.mpr hhi
    have h0 : h.refs (pfn p) ≠ 0 := fun h0 => by simp [h0] at hlo
    have h1 : h.refs (pfn p) ≠ 1 := fun h1 => by simp [h1] at hlo
    rw [if_neg h255, if_neg h0, vmmPageUnref, if_neg hmax]
    simp only [if_neg h255, if_neg h0, if_neg h1]
    exact hc.unref hs hmore hr

theorem Counted.cowReleaseOld : Counted L K (vmmCowReleaseOld A h p) own tab sat := by
  have hp : 0 < plus own p p := by
    rw [plus_self]
    omega
  obtain ⟨hne, hmax, -⟩ := hc.own_frame hp
  have hmax' : pfn p < A.maxPhysPages := UInt64.not_le.mp hmax
  unfold vmmCowReleaseOld
  rw [if_neg hne]
  rcases hc.refs_cases with ⟨hs, hr⟩ | ⟨hs, hlast, hr⟩ | ⟨hs, hmore, hlo, hhi, hr⟩
  · rw [if_pos ⟨hmax', by rw [hr]; decide⟩]
    exact hc.of_sat hs fun q hq => (plus_of_ne hq).symm
  · have hle : h.refs (pfn p) ≤ 1 := by
      rcases hr with hr | hr <;> rw [hr] <;> decide
    have h255 : ¬ h.refs (pfn p) ≥ 255 := by
      rcases hr with hr | hr <;> rw [hr] <;> decide
    rw [if_neg fun hn => h255 hn.2, if_neg fun hn => hn.2 hle]
    exact hc.leafRelease
  · rw [if_neg fun hn => UInt8.not_le.mpr hhi hn.2, if_pos ⟨hmax', UInt8.not_le.mpr hlo⟩]
    exact hc.unref hs hmore hr

end

/-- Memory outside the allocator can be let go of without a trace. -/
theorem Counted.cowReleaseOld_unmanaged (hc : Counted L K h own tab sat) (hp : Aligned p)
    (hm : ¬ L.Managed p) : Counted L K (vmmCowReleaseOld A h p) own tab sat := by
  have hdead : ¬ A.Live h.pmm p := fun hl => hm (L.live_frame hc.inv hl).2.2
  have hkind : A.kind h.pmm p ≤ 0 := by
    have h₁ : A.kind h.pmm p ≠ 1 := fun hk => hdead ⟨hp, hk⟩
    have h₂ := L.kind_le h.pmm p
    omega
  have hrefs : ∀ q r, A.Live h.pmm q → (h.setRef p r).refs (pfn q) = h.refs (pfn q) := by
    intro q r hq
    apply setRef_refs_of_ne
    intro heq
    have : q = p := hq.1.eq_of_div hp heq
    exact hdead (this ▸ hq)
  have hleaf : vmmLeafRelease A h p = h := by
    unfold vmmLeafRelease
    dsimp only
    split_ifs <;> first | rfl | omega
  unfold vmmCowReleaseOld
  rw [hleaf]
  split_ifs
  · exact hc
  · exact hc
  · exact counted_frameOk.mpr ⟨hc.inv, fun q => ((counted_frameOk.mp hc).2 q).congr Iff.rfl (hrefs q _) rfl rfl Iff.rfl⟩
  · exact hc

/-! ### Sharing -/

/-- Counts that have saturated stay so, and one saturates with the 255th of the owners `own`. -/
structure Saturates (sat sat' : UInt64 → Prop) (own : UInt64 → Nat) : Prop where
  kept : ∀ q, sat q → sat' q
  crowded : ∀ q, sat' q → sat q ∨ 255 ≤ own q

theorem Saturates.refl (sat : UInt64 → Prop) (own : UInt64 → Nat) : Saturates sat sat own :=
  ⟨fun _ => id, fun _ => .inl⟩

theorem Saturates.trans {sat₁ sat₂ : UInt64 → Prop} {own₁ own₂ : UInt64 → Nat} (h₁ : Saturates sat sat₁ own₁)
    (h₂ : Saturates sat₁ sat₂ own₂) (hle : own₁ ≤ own₂) : Saturates sat sat₂ own₂ where
  kept q hq := h₂.kept q (h₁.kept q hq)
  crowded q hq := by
    obtain hq | hq := h₂.crowded q hq
    · exact (h₁.crowded q hq).imp_right fun h => h.trans (hle q)
    · exact .inr hq

theorem Counted.pageRef (hc : Counted L K h own tab sat) (hp : 0 < own p) (hs : ¬ sat p)
    (hr : h.refs (pfn p) ≠ 0) :
    ∃ sat', Saturates sat sat' (plus own p) ∧ Counted L K (vmmPageRef A h p) (plus own p) tab sat' := by
  obtain ⟨-, hmax, -⟩ := hc.own_frame hp
  obtain ⟨h0, -⟩ | ⟨-, h255, hshare⟩ := hc.counts p hp hs
  · exact absurd h0 hr
  have hlt : (h.refs (pfn p)).toNat < 255 := by
    have := (h.refs (pfn p)).toNat_lt
    have : (h.refs (pfn p)).toNat ≠ 255 := fun h0 => h255 (UInt8.toNat_inj.mp h0)
    omega
  have hnot : ¬ h.refs (pfn p) ≥ 255 := fun hge => by
    have : 255 ≤ (h.refs (pfn p)).toNat := UInt8.le_iff_toNat_le.mp hge
    omega
  have hsucc : (h.refs (pfn p) + 1).toNat = own p + 1 := by
    rw [UInt8.toNat_add, hshare]
    exact Nat.mod_eq_of_lt (show own p + 1 < 2 ^ 8 by omega)
  have hplus : 0 < plus own p p := by
    rw [plus_self]
    omega
  rw [vmmPageRef, if_neg hmax, if_neg hnot]
  by_cases hfull : own p + 1 = 255
  · have hcrowded : 255 ≤ plus own p p := by rw [plus_self, hfull]
    refine ⟨fun q => sat q ∨ q = p, ⟨fun q => .inl, fun q => Or.imp_right fun hq => hq ▸ hcrowded⟩,
      hc.recount hp (fun q hq => plus_of_ne hq) hplus (fun q hq => or_iff_left hq) (.inr ⟨.inr rfl, ?_⟩)⟩
    apply UInt8.toNat_inj.mp
    rw [hsucc, hfull]
    rfl
  · refine ⟨sat, .refl _ _, hc.recount hp (fun q hq => plus_of_ne hq) hplus (fun q _ => Iff.rfl)
      (.inl ⟨hs, .inr ⟨fun h0 => ?_, fun h0 => ?_, by rw [hsucc, plus_self]⟩⟩)⟩
    · rw [h0] at hsucc
      exact absurd hsucc (Nat.succ_ne_zero _).symm
    · rw [h0] at hsucc
      exact hfull hsucc.symm

theorem Counted.share (hc : Counted L K h own tab sat) (hp : 0 < own p) :
    ∃ sat', Saturates sat sat' (plus own p) ∧ Counted L K (shareLeaf A h p) (plus own p) tab sat' := by
  obtain ⟨-, hmax, -⟩ := hc.own_frame hp
  have hget : vmmPageGetRef A h p = h.refs (pfn p) := by rw [vmmPageGetRef, if_neg hmax]
  unfold shareLeaf
  rw [hget]
  by_cases hs : sat p
  · have hr := (hc.satLive p hs).2
    rw [hr, if_neg (by decide), vmmPageRef, if_neg hmax, hr, if_pos (by decide)]
    exact ⟨sat, .refl _ _, hc.of_sat hs fun q hq => plus_of_ne hq⟩
  · by_cases hr : h.refs (pfn p) = 0
    · -- the first share: count the owner that was implied, then the new one
      have hone : own p = 1 := by
        rcases hc.counts p hp hs with ⟨-, h₁⟩ | ⟨h₁, -⟩
        · exact h₁
        · exact absurd hr h₁
      have hfirst : vmmPageRef A h p = h.setRef p 1 := by
        rw [vmmPageRef, if_neg hmax, hr, if_neg (by decide)]
        rfl
      have hc₁ : Counted L K (h.setRef p 1) own tab sat :=
        hc.recount hp (fun q _ => rfl) hp (fun q _ => Iff.rfl)
          (.inl ⟨hs, .inr ⟨by decide, by decide, hone.symm⟩⟩)
      rw [if_pos hr, hfirst]
      exact hc₁.pageRef hp hs (by rw [setRef_refs_self]; decide)
    · rw [if_neg hr]
      exact hc.pageRef hp hs hr

end Specs

/-! ### What the operations leave alone -/

section Frame
variable (A) (h : Heap σ) (p : UInt64)

@[simp] theorem vmmFreeFrame_mem : (vmmFreeFrame A h p).mem = h.mem := by
  unfold vmmFreeFrame
  split <;> rfl

@[simp] theorem vmmFreeFrame_oom : (vmmFreeFrame A h p).oom = h.oom := by
  unfold vmmFreeFrame
  split <;> rfl

theorem vmmPageUnref_mem_oom :
    (vmmPageUnref A h p).mem = h.mem ∧ (vmmPageUnref A h p).oom = h.oom := by
  unfold vmmPageUnref
  dsimp only
  split_ifs <;> simp

theorem vmmLeafRelease_mem_oom :
    (vmmLeafRelease A h p).mem = h.mem ∧ (vmmLeafRelease A h p).oom = h.oom := by
  unfold vmmLeafRelease
  dsimp only
  split_ifs <;> simp [vmmPageUnref_mem_oom]

theorem vmmPageRef_pmm_mem_oom : (vmmPageRef A h p).pmm = h.pmm ∧ (vmmPageRef A h p).mem = h.mem ∧
    (vmmPageRef A h p).oom = h.oom := by
  unfold vmmPageRef
  split_ifs <;> simp

theorem shareLeaf_pmm_mem_oom : (shareLeaf A h p).pmm = h.pmm ∧ (shareLeaf A h p).mem = h.mem ∧
    (shareLeaf A h p).oom = h.oom := by
  unfold shareLeaf
  split_ifs <;> simp [vmmPageRef_pmm_mem_oom]

end Frame

theorem foldl_mem_oom {α : Type} {f : Heap σ → α → Heap σ}
    (hf : ∀ h a, (f h a).mem = h.mem ∧ (f h a).oom = h.oom) (l : List α) (h : Heap σ) :
    (l.foldl f h).mem = h.mem ∧ (l.foldl f h).oom = h.oom := by
  induction l generalizing h with
  | nil => exact ⟨rfl, rfl⟩
  | cons a l ih =>
    obtain ⟨h₁, h₂⟩ := ih (f h a)
    obtain ⟨h₃, h₄⟩ := hf h a
    exact ⟨h₁.trans h₃, h₂.trans h₄⟩

end InDevOS.Mem
