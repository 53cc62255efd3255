import InDevOS.Mem.Cow

/-! Placement of `mmap` (`sys_mmap_impl`, `sys_mmap_device_impl`, `sys_munmap_impl` and
`sys_brk_impl` in `syscall.c`).

A call without `MAP_FIXED` takes the pages at a cursor that only moves up. Nothing is
checked: not whether the pages are mapped, and not whether they are user addresses. So the
placement is good only as long as the gap above the cursor is left alone, by fixed
mappings and by the heap, and is not used up: `unfixed_mapping_is_new`. A fixed mapping
put into the gap is mapped over (`fixed_mapping_is_overlaid`). -/
namespace InDevOS.Mem

variable {σ : Type} (A : FrameAllocator σ)

inductive Errno where
  | einval
  | enomem
  | eopnotsupp
deriving DecidableEq, Repr

/-- The memory management part of `process_t`. -/
structure Proc where
  pml4 : Table 3
  brkStart : UInt64
  brkCurrent : UInt64
  mmapAnonNext : UInt64
  /-- `mmap_regions`: address and length. -/
  mmapRegions : List (UInt64 × UInt64)

structure Mm (σ : Type) where
  proc : Proc
  heap : Heap σ

/-! ### The calls -/

def protWrite : UInt32 := 0x2
def protExec : UInt32 := 0x4
def mapShared : UInt32 := 0x1
def mapFixed : UInt32 := 0x10
def mapAnonymous : UInt32 := 0x20
def sysMmapKshared : UInt32 := 0x40000000

def flag (x m : UInt32) : Bool := x &&& m != 0

/-- The longest mapping, 256 MiB. -/
def mmapMax : UInt64 := 0x10000000

def pagesOf (length : UInt64) : UInt64 := (length + pageSize - 1) / pageSize

/-- The cursor, with its default. -/
def Proc.cursor (p : Proc) : UInt64 := if p.mmapAnonNext = 0 then 0x20000000 else p.mmapAnonNext

/-- Where the next mapping without `MAP_FIXED` goes. -/
def Proc.place (p : Proc) : UInt64 := pageOf (p.cursor + pageSize - 1)

section
variable (m : Mm σ)

def Mm.unmap (va pages : UInt64) : Mm σ :=
  let r := vmmUnmapRangeReleaseIn A m.proc.pml4 va pages m.heap
  ⟨{ m.proc with pml4 := r.1 }, r.2.2⟩

/-- The address of the new mapping, `none` for `EINVAL`. A fixed mapping replaces what
is there. -/
def Mm.choose (fixed : Bool) (addr pages : UInt64) : Option (UInt64 × Mm σ) :=
  if fixed then
    let v0 := pageOf addr
    if !isUserAddress v0 || !isUserAddress (v0 + pages * pageSize - 1) then none
    else some (v0, m.unmap A v0 pages)
  else
    let v0 := m.proc.place
    some (v0, { m with proc := { m.proc with mmapAnonNext := v0 + pages * pageSize } })

/-- The mapping loop: `frame` finds the frame of page `i`, `drop` lets go of one that could
not be mapped. A failure unmaps what the call has mapped so far. -/
def mapPages (frame : Nat → Heap σ → Option UInt64 × Heap σ) (drop : Heap σ → UInt64 → Heap σ)
    (v0 flags : UInt64) : Nat → Nat → Table 3 → Heap σ → Bool × Table 3 × Heap σ
  | 0, _, t, h => (true, t, h)
  | n + 1, i, t, h =>
    match frame i h with
    | (none, h) => (false, (vmmUnmapRangeReleaseIn A t v0 (UInt64.ofNat i) h).1,
        (vmmUnmapRangeReleaseIn A t v0 (UInt64.ofNat i) h).2.2)
    | (some p, h) =>
      let r := vmmMapPageIn A t (v0 + UInt64.ofNat i * pageSize) p flags h
      if r.1 then mapPages frame drop v0 flags n (i + 1) r.2.1 r.2.2
      else
        let u := vmmUnmapRangeReleaseIn A r.2.1 v0 (UInt64.ofNat i) (drop r.2.2 p)
        (false, u.1, u.2.2)

/-- The end of both calls: `mmap_region_prepend` needs an allocation of its own, which
succeeds if `nodeOk`. -/
def Mm.finish (v0 pages : UInt64) (nodeOk : Bool) (r : Bool × Table 3 × Heap σ) :
    Except Errno UInt64 × Mm σ :=
  let m' : Mm σ := ⟨{ m.proc with pml4 := r.2.1 }, r.2.2⟩
  if !r.1 then (.error .enomem, m')
  else if nodeOk then
    (.ok v0, { m' with proc :=
      { m'.proc with mmapRegions := (v0, pages * pageSize) :: m'.proc.mmapRegions } })
  else (.error .enomem, m'.unmap A v0 pages)

/-- The common part of both calls, after the checks of their arguments. -/
def Mm.mapAt (frame : Nat → Heap σ → Option UInt64 × Heap σ)
    (drop : Heap σ → UInt64 → Heap σ) (flags : UInt64) (fixed : Bool) (addr pages : UInt64)
    (nodeOk : Bool) : Except Errno UInt64 × Mm σ :=
  match m.choose A fixed addr pages with
  | none => (.error .einval, m)
  | some (v0, m) =>
    m.finish A v0 pages nodeOk (mapPages A frame drop v0 flags pages.toNat 0 m.proc.pml4 m.heap)

def anonFlags (prot : UInt32) (kshared : Bool) : UInt64 :=
  vmmPresent ||| vmmUser ||| (if flag prot protWrite then vmmWritable else 0) |||
    (if flag prot protExec then 0 else vmmNx) ||| (if kshared then vmmShared else 0) |||
    (if flag prot protWrite then 0 else vmmUserRo)

def sysMmapImpl (addr length : UInt64) (prot flags : UInt32) (nodeOk : Bool) :
    Except Errno UInt64 × Mm σ :=
  if length = 0 || length > mmapMax then (.error .einval, m)
  else
    let kshared := flag flags sysMmapKshared
    let flags := flags &&& ~~~sysMmapKshared
    if !flag flags mapAnonymous then (.error .eopnotsupp, m)
    else if flag flags mapShared then (.error .eopnotsupp, m)
    else m.mapAt A (fun _ => vmmAllocFrame A) (vmmFreeFrame A) (anonFlags prot kshared)
      (addr != 0 && flag flags mapFixed) addr (pagesOf length) nodeOk

def deviceFlags (prot : UInt32) (pteExtra : UInt64) : UInt64 :=
  vmmPresent ||| vmmUser ||| vmmDevice ||| vmmNx ||| pteExtra |||
    (if flag prot protWrite then vmmWritable else 0)

def sysMmapDeviceImpl (addr length : UInt64) (prot : UInt32) (fixed : Bool)
    (phys pteExtra : UInt64) (nodeOk : Bool) : Except Errno UInt64 × Mm σ :=
  if length = 0 || length > mmapMax || phys &&& (pageSize - 1) != 0 then (.error .einval, m)
  else m.mapAt A (fun i h => (some (phys + UInt64.ofNat i * pageSize), h)) (fun h _ => h)
    (deviceFlags prot pteExtra) (addr != 0 && fixed) addr (pagesOf length) nodeOk

def sysMunmapImpl (addr length : UInt64) : Except Errno UInt64 × Mm σ :=
  if addr = 0 || length = 0 then (.error .einval, m)
  else
    let v := pageOf addr
    let pages := (length + (addr - v) + pageSize - 1) / pageSize
    if !isUserAddress v || !isUserAddress (v + pages * pageSize - 1) then (.error .einval, m)
    else
      let m := m.unmap A v pages
      (.ok 0, { m with proc := { m.proc with
        mmapRegions := m.proc.mmapRegions.eraseP fun r => r.1 == v && r.2 ≥ pages * pageSize } })

/-- `vmm_is_mapped_in` -/
def vmmIsMappedIn (pml4 : Table 3) (va : UInt64) : UInt64 :=
  if has (pml4.look va) vmmPresent then addr (pml4.look va) else 0

/-- The loop of `sys_brk_impl` that backs the new heap pages. -/
def growHeap : Nat → UInt64 → Table 3 → Heap σ → Bool × Table 3 × Heap σ
  | 0, _, t, h => (true, t, h)
  | n + 1, pg, t, h =>
    if vmmIsMappedIn t pg ≠ 0 then growHeap n (pg + pageSize) t h
    else
      match vmmAllocFrame A h with
      | (none, h) => (false, t, h)
      | (some frame, h) =>
        let r := vmmMapPageIn A t pg frame (vmmPresent ||| vmmUser ||| vmmWritable ||| vmmNx) h
        if r.1 then growHeap n (pg + pageSize) r.2.1 r.2.2 else (false, r.2.1, r.2.2)

/-- How many pages the loop visits: those that start in `[lo, hi)`. -/
def heapPages (lo hi : UInt64) : Nat := (hi.toNat - lo.toNat + 4095) / 4096

def sysBrkImpl (addr : UInt64) : Except Errno UInt64 × Mm σ :=
  let old := m.proc.brkCurrent
  if addr = 0 then (.ok old, m)
  else if addr < m.proc.brkStart then (.ok old, m)
  else if addr > old then
    let r := growHeap A (heapPages (pageOf old) addr) (pageOf old) m.proc.pml4 m.heap
    if r.1 then (.ok addr, ⟨{ m.proc with pml4 := r.2.1, brkCurrent := addr }, r.2.2⟩)
    else (.ok old, ⟨{ m.proc with pml4 := r.2.1 }, r.2.2⟩)
  else
    let lo := pageOf (addr + pageSize - 1)
    let hi := pageOf (old + pageSize - 1)
    let m := if addr < old && hi > lo then m.unmap A lo ((hi - lo) / pageSize) else m
    (.ok addr, { m with proc := { m.proc with brkCurrent := addr } })

inductive MmOp where
  | mmap (addr length : UInt64) (prot flags : UInt32) (nodeOk : Bool)
  | mmapDevice (addr length : UInt64) (prot : UInt32) (fixed : Bool) (phys pteExtra : UInt64)
      (nodeOk : Bool)
  | munmap (addr length : UInt64)
  | brk (addr : UInt64)

def mmStep : MmOp → Except Errno UInt64 × Mm σ
  | .mmap addr length prot flags nodeOk => sysMmapImpl A m addr length prot flags nodeOk
  | .mmapDevice addr length prot fixed phys pteExtra nodeOk =>
    sysMmapDeviceImpl A m addr length prot fixed phys pteExtra nodeOk
  | .munmap addr length => sysMunmapImpl A m addr length
  | .brk addr => sysBrkImpl A m addr

def mmRun (ops : List MmOp) : Mm σ := ops.foldl (fun m op => (mmStep A m op).2) m

end

/-! ### What the calls do to the words -/

section Words
variable {A}

/-- Outside `S` words stay or are cleared. -/
structure Within (S : UInt64 → Prop) (t t' : Table 3) : Prop where
  look : ∀ va, ¬ S va → t'.look va = t.look va ∨ t'.look va = 0
  user : t'.All UserWord

theorem Within.refl {S : UInt64 → Prop} {t : Table 3} (ht : t.All UserWord) : Within S t t :=
  ⟨fun _ _ => .inl rfl, ht⟩

theorem Within.trans {S S' S'' : UInt64 → Prop} {t t' t'' : Table 3} (h : Within S t t')
    (h' : Within S' t' t'') (hS : ∀ va, S va → S'' va) (hS' : ∀ va, S' va → S'' va) :
    Within S'' t t'' := by
  refine ⟨fun va hva => ?_, h'.user⟩
  rcases h'.look va (fun hn => hva (hS' va hn)) with h₁ | h₁
  · rw [h₁]
    exact h.look va fun hn => hva (hS va hn)
  · exact .inr h₁

variable (L : Lawful A)

include L in
theorem unmap_within (S : UInt64 → Prop) {t : Table 3} (ht : t.All UserWord) (va pages : UInt64)
    (h : Heap σ) : Within S t (vmmUnmapRangeReleaseIn A t va pages h).1 := by
  obtain ⟨-, -, -, -, -, hlook, hall, -⟩ :=
    vmmUnmapRangeReleaseIn_spec (L := L) (K := fun _ => False) (h := h) t va pages ht
  exact ⟨fun va' _ => hlook va', hall _ userWord_zero ht⟩

theorem map_within {t : Table 3} (ht : t.All UserWord) (va phys : UInt64) {flags : UInt64}
    (hu : has flags vmmUser = true) (h : Heap σ) :
    Within (SamePage 3 va) t (vmmMapPageIn A t va phys flags h).2.1 := by
  have hw := mapIn_wrote (A := A) t va (mkPte phys flags) h
  refine ⟨fun va' hs => .inl (hw.look_other va' hs), hw.all _ userWord_zero (fun _ => ?_) ht⟩
  exact (has_mkPte _ _ (by decide) (by decide)).trans hu

/-- The pages `i, …, i + n - 1` from `v0` on. -/
def InPages (v0 : UInt64) (i n : Nat) (va : UInt64) : Prop :=
  ∃ j, i ≤ j ∧ j < i + n ∧ SamePage 3 (v0 + UInt64.ofNat j * pageSize) va

theorem InPages.head {v0 va : UInt64} {i n : Nat}
    (h : SamePage 3 (v0 + UInt64.ofNat i * pageSize) va) : InPages v0 i (n + 1) va :=
  ⟨i, le_rfl, by omega, h⟩

theorem InPages.tail {v0 va : UInt64} {i n : Nat} (h : InPages v0 (i + 1) n va) :
    InPages v0 i (n + 1) va := by
  obtain ⟨j, h₁, h₂, h₃⟩ := h
  exact ⟨j, by omega, by omega, h₃⟩

include L in
theorem mapPages_within (frame : Nat → Heap σ → Option UInt64 × Heap σ)
    (drop : Heap σ → UInt64 → Heap σ) (v0 : UInt64) {flags : UInt64} (hu : has flags vmmUser = true)
    (n i : Nat) {t : Table 3} (ht : t.All UserWord) (h : Heap σ) :
    Within (InPages v0 i n) t (mapPages A frame drop v0 flags n i t h).2.1 := by
  induction n generalizing i t h with
  | zero => exact Within.refl ht
  | succ n ih =>
    rw [mapPages]
    generalize frame i h = a
    obtain ⟨_ | p, h'⟩ := a
    · exact unmap_within L _ ht _ _ _
    · dsimp only
      have hm := map_within (A := A) ht (v0 + UInt64.ofNat i * pageSize) p hu h'
      split
      · exact hm.trans (ih (i + 1) hm.user _) (fun _ => InPages.head) fun _ => InPages.tail
      · exact hm.trans (unmap_within L _ hm.user _ _ _) (fun _ => InPages.head) fun _ => id

theorem mapPages_present {frame : Nat → Heap σ → Option UInt64 × Heap σ}
    {drop : Heap σ → UInt64 → Heap σ} (v0 flags : UInt64) (n i : Nat) (t : Table 3) (h : Heap σ)
    (hr : (mapPages A frame drop v0 flags n i t h).1 = true) {va : UInt64}
    (hva : has (t.look va) vmmPresent = true ∨ InPages v0 i n va) :
    has ((mapPages A frame drop v0 flags n i t h).2.1.look va) vmmPresent = true := by
  induction n generalizing i t h with
  | zero =>
    rcases hva with hva | ⟨j, h₁, h₂, -⟩
    · exact hva
    · omega
  | succ n ih =>
    rw [mapPages] at hr ⊢
    generalize frame i h = a at hr
    obtain ⟨_ | p, h'⟩ := a
    · simp at hr
    · dsimp only at hr ⊢
      by_cases hok : (vmmMapPageIn A t (v0 + UInt64.ofNat i * pageSize) p flags h').1 = true
      · rw [if_pos hok] at hr ⊢
        refine ih (i + 1) _ _ hr ?_
        have hw := mapIn_wrote (A := A) t (v0 + UInt64.ofNat i * pageSize) (mkPte p flags) h'
        by_cases hs : SamePage 3 (v0 + UInt64.ofNat i * pageSize) va
        · left
          show has ((mapIn A 3 t _ _ h').2.1.look va) vmmPresent = true
          rw [hw.look_same hok va hs]
          exact has_present_mkPte _ _
        · rcases hva with hva | ⟨j, h₁, h₂, h₃⟩
          · left
            show has ((mapIn A 3 t _ _ h').2.1.look va) vmmPresent = true
            rw [hw.look_other va hs]
            exact hva
          · right
            have hne : j ≠ i := fun hji => hs (hji ▸ h₃)
            exact ⟨j, by omega, by omega, h₃⟩
      · rw [if_neg hok] at hr
        simp at hr

theorem growHeap_within (n i : Nat) (v0 : UInt64) {t : Table 3} (ht : t.All UserWord) (h : Heap σ) :
    Within (InPages v0 i n) t (growHeap A n (v0 + UInt64.ofNat i * pageSize) t h).2.1 := by
  have hnext : ∀ i, v0 + UInt64.ofNat i * pageSize + pageSize =
      v0 + UInt64.ofNat (i + 1) * pageSize := by
    intro i
    rw [UInt64.ofNat_add, UInt64.add_mul, UInt64.add_assoc]
    rfl
  induction n generalizing i t h with
  | zero => exact Within.refl ht
  | succ n ih =>
    rw [growHeap, hnext]
    split
    · exact (ih (i + 1) ht h).trans (Within.refl (ih (i + 1) ht h).user) (fun _ => InPages.tail)
        fun _ => id
    · generalize vmmAllocFrame A h = a
      obtain ⟨_ | p, h'⟩ := a
      · exact Within.refl ht
      · dsimp only
        have huser : has (vmmPresent ||| vmmUser ||| vmmWritable ||| vmmNx) vmmUser = true := by decide
        have hm := map_within (A := A) ht (v0 + UInt64.ofNat i * pageSize) p huser h'
        split
        · exact hm.trans (ih (i + 1) hm.user _) (fun _ => InPages.head) fun _ => InPages.tail
        · exact hm.trans (Within.refl hm.user) (fun _ => InPages.head) fun _ => id

end Words

/-! ### Ranges of addresses -/

theorem samePage_iff {va va' : UInt64} (h : va.toNat < 2 ^ 48) (h' : va'.toNat < 2 ^ 48) :
    SamePage 3 va va' ↔ va'.toNat / 4096 = va.toNat / 4096 := by
  have hval : ∀ k ≤ 3, ∀ v : UInt64, (index k v).val = v.toNat / 4096 / 512 ^ k % 512 := by
    intro k hk v
    rw [index_val hk, Nat.pow_add, ← Nat.div_div_eq_div_mul, Nat.pow_mul]
  constructor
  · intro hs
    have h₀ := congrArg Fin.val (hs 0 (by omega))
    have h₁ := congrArg Fin.val (hs 1 (by omega))
    have h₂ := congrArg Fin.val (hs 2 (by omega))
    have h₃ := congrArg Fin.val (hs 3 (by omega))
    rw [hval _ (by omega), hval _ (by omega)] at h₀ h₁ h₂ h₃
    norm_num at h₀ h₁ h₂ h₃
    omega
  · intro hdiv k hk
    apply Fin.ext
    rw [hval k hk, hval k hk, hdiv]

theorem toNat_add_pages {v pages : UInt64} (h : v.toNat + pages.toNat * 4096 < 2 ^ 64) :
    (v + pages * pageSize).toNat = v.toNat + pages.toNat * 4096 := by
  have hsize : pageSize.toNat = 4096 := rfl
  rw [UInt64.toNat_add, UInt64.toNat_mul, hsize,
    Nat.mod_eq_of_lt (show pages.toNat * 4096 < 2 ^ 64 by omega)]
  exact Nat.mod_eq_of_lt h

theorem toNat_page_offset {v0 : UInt64} {j n : Nat} (hv : v0.toNat + n * 4096 ≤ 2 ^ 47) (hj : j < n) :
    (v0 + UInt64.ofNat j * pageSize).toNat = v0.toNat + j * 4096 := by
  have hj' : (UInt64.ofNat j).toNat = j := UInt64.toNat_ofNat_of_lt' (show j < 2 ^ 64 by omega)
  rw [toNat_add_pages (by omega), hj']

theorem toNat_add_page_sub_one {v : UInt64} (h : v.toNat + 4096 < 2 ^ 64) :
    (v + pageSize - 1).toNat = v.toNat + 4095 := by
  have hadd : (v + pageSize).toNat = v.toNat + 4096 := (UInt64.toNat_add v pageSize).trans (Nat.mod_eq_of_lt h)
  rw [UInt64.toNat_sub_of_le, hadd]
  · rfl
  · rw [UInt64.le_iff_toNat_le, hadd]
    exact Nat.le_add_left 1 _

theorem inPages_iff {v0 va : UInt64} {n : Nat} (hal : v0.toNat % 4096 = 0)
    (hv : v0.toNat + n * 4096 ≤ 2 ^ 47) (hva : va.toNat < 2 ^ 47) :
    InPages v0 0 n va ↔ v0.toNat ≤ va.toNat ∧ va.toNat < v0.toNat + n * 4096 := by
  constructor
  · intro h
    obtain ⟨j, -, hj, hs⟩ := h
    rw [Nat.zero_add] at hj
    have hoff := toNat_page_offset hv hj
    rw [samePage_iff (by omega) (by omega), hoff] at hs
    omega
  · intro h
    have hj : (va.toNat - v0.toNat) / 4096 < n := by omega
    have hoff := toNat_page_offset hv hj
    refine ⟨(va.toNat - v0.toNat) / 4096, Nat.zero_le _, by omega, ?_⟩
    rw [samePage_iff (by omega) (by omega), hoff]
    omega

theorem toNat_pagesOf {length : UInt64} (h0 : length ≠ 0) (hmax : ¬ length > mmapMax) :
    0 < (pagesOf length).toNat ∧ (pagesOf length).toNat ≤ 65536 := by
  have hpos : 0 < length.toNat := Nat.pos_of_ne_zero fun h => h0 (UInt64.toNat_inj.mp h)
  have hle : length.toNat ≤ 0x10000000 := Nat.le_of_not_lt fun h => hmax (UInt64.lt_iff_toNat_lt.mpr h)
  have hval : (pagesOf length).toNat = (length.toNat + 4095) / 4096 := by
    rw [pagesOf, UInt64.toNat_div, toNat_add_page_sub_one (by omega)]
    rfl
  omega

/-! ### The gap above the cursor -/

/-- Nothing is mapped between the cursor and `top`. -/
structure GapOk (m : Mm σ) (top : Nat) : Prop where
  top_le : top ≤ 2 ^ 47
  place_le : m.proc.place.toNat ≤ top
  free : ∀ va : UInt64, m.proc.place.toNat ≤ va.toNat → va.toNat < top →
    has (m.proc.pml4.look va) vmmPresent = false
  user : m.proc.pml4.All UserWord

/-- The call gets past the checks of its arguments. -/
def MmOp.accepted : MmOp → Bool
  | .mmap _ length _ flags _ =>
    !(length = 0 || length > mmapMax) && flag (flags &&& ~~~sysMmapKshared) mapAnonymous &&
      !flag (flags &&& ~~~sysMmapKshared) mapShared
  | .mmapDevice _ length _ _ phys _ _ =>
    !(length = 0 || length > mmapMax || phys &&& (pageSize - 1) != 0)
  | _ => true

/-- The call asks for a fixed address, and for which one. -/
def MmOp.fixedAt : MmOp → Option UInt64
  | .mmap addr _ _ flags _ =>
    if addr != 0 && flag (flags &&& ~~~sysMmapKshared) mapFixed then some addr else none
  | .mmapDevice addr _ _ fixed _ _ _ => if addr != 0 && fixed then some addr else none
  | _ => none

/-- The length of the mapping the call makes, in pages. -/
def MmOp.pages : MmOp → Nat
  | .mmap _ length _ _ _ => (pagesOf length).toNat
  | .mmapDevice _ length _ _ _ _ _ => (pagesOf length).toNat
  | _ => 0

def MmOp.isMmap : MmOp → Bool
  | .mmap .. => true
  | .mmapDevice .. => true
  | _ => false

/-- The call leaves the gap alone or takes its pages from the bottom of it. -/
def MmOp.leavesGap (m : Mm σ) (top : Nat) : MmOp → Bool
  | .munmap _ _ => true
  | .brk addr => addr ≤ m.proc.brkCurrent || addr.toNat ≤ m.proc.place.toNat
  | op => !op.accepted ||
    match op.fixedAt with
    | some addr => (pageOf addr).toNat + op.pages * 4096 ≤ m.proc.place.toNat ||
        top ≤ (pageOf addr).toNat
    | none => m.proc.place.toNat + op.pages * 4096 ≤ top

def gapRun (top : Nat) : Mm σ → List MmOp → Bool
  | _, [] => true
  | m, op :: ops => op.leavesGap m top && gapRun top (mmStep A m op).2 ops

section Gap
variable {A} {m : Mm σ} {top : Nat}

theorem place_aligned (p : Proc) : p.place.toNat % 4096 = 0 := by
  rw [Proc.place, toNat_pageOf]
  omega

theorem GapOk.of_within (hm : GapOk m top) {m' : Mm σ} {S : UInt64 → Prop}
    (hw : Within S m.proc.pml4 m'.proc.pml4) (hlo : m.proc.place.toNat ≤ m'.proc.place.toNat)
    (hhi : m'.proc.place.toNat ≤ top)
    (hS : ∀ va : UInt64, m'.proc.place.toNat ≤ va.toNat → va.toNat < top → ¬ S va) : GapOk m' top := by
  refine ⟨hm.top_le, hhi, fun va h₁ h₂ => ?_, hw.user⟩
  rcases hw.look va (hS va h₁ h₂) with h | h <;> rw [h]
  · exact hm.free va (by omega) h₂
  · exact not_has_zero _

theorem finish_within (L : Lawful A) {t : Table 3} {S : UInt64 → Prop} (v0 pages : UInt64)
    (nodeOk : Bool) {r : Bool × Table 3 × Heap σ} (hw : Within S t r.2.1) :
    Within S t (m.finish A v0 pages nodeOk r).2.proc.pml4 ∧
      (m.finish A v0 pages nodeOk r).2.proc.mmapAnonNext = m.proc.mmapAnonNext := by
  unfold Mm.finish
  split_ifs
  · exact ⟨hw, rfl⟩
  · exact ⟨hw, rfl⟩
  · exact ⟨hw.trans (unmap_within L S hw.user v0 pages r.2.2) (fun _ => id) fun _ => id, rfl⟩

theorem place_congr {p p' : Proc} (h : p'.mmapAnonNext = p.mmapAnonNext) : p'.place = p.place := by
  rw [Proc.place, Proc.place, Proc.cursor, Proc.cursor, h]

theorem place_of_next {p : Proc} {v : UInt64} (h : p.mmapAnonNext = v) (h0 : 0 < v.toNat)
    (hal : v.toNat % 4096 = 0) (hv : v.toNat ≤ 2 ^ 47) : p.place = v := by
  have hne : v ≠ 0 := fun hz => by
    rw [hz] at h0
    exact absurd h0 (by decide)
  apply UInt64.toNat_inj.mp
  rw [Proc.place, Proc.cursor, h, if_neg hne, toNat_pageOf, toNat_add_page_sub_one (by omega)]
  omega

theorem user_range_le {v pages : UInt64} (hp : pages.toNat ≤ 65536)
    (h : ¬ (!isUserAddress v || !isUserAddress (v + pages * pageSize - 1)) = true) :
    v.toNat + pages.toNat * 4096 ≤ 2 ^ 47 := by
  have hmax : userAddrMax.toNat = 2 ^ 47 - 1 := rfl
  simp only [isUserAddress, Bool.or_eq_true, Bool.not_eq_true', decide_eq_false_iff_not,
    not_or, not_not, UInt64.le_iff_toNat_le, hmax] at h
  have hend := toNat_add_pages (show v.toNat + pages.toNat * 4096 < 2 ^ 64 by omega)
  rcases Nat.eq_zero_or_pos (v.toNat + pages.toNat * 4096) with h0 | h0
  · omega
  · have hone : (1 : UInt64) ≤ v + pages * pageSize := by
      rw [UInt64.le_iff_toNat_le, hend]
      exact h0
    have h₂ := h.2
    rw [UInt64.toNat_sub_of_le _ _ hone, hend] at h₂
    have : (1 : UInt64).toNat = 1 := rfl
    omega

section
variable (L : Lawful A) {frame : Nat → Heap σ → Option UInt64 × Heap σ} {drop : Heap σ → UInt64 → Heap σ}
  {flags : UInt64} (hu : has flags vmmUser = true)
include L hu

theorem mapAt_unfixed (addr : UInt64) {pages : UInt64} (h0 : 0 < pages.toNat) (nodeOk : Bool) (hm : GapOk m top)
    (hfit : m.proc.place.toNat + pages.toNat * 4096 ≤ top) :
    GapOk (m.mapAt A frame drop flags false addr pages nodeOk).2 top := by
  have htop := hm.top_le
  have hend := toNat_add_pages (show m.proc.place.toNat + pages.toNat * 4096 < 2 ^ 64 by omega)
  have hal := place_aligned m.proc
  obtain ⟨hw, hnext⟩ := finish_within (A := A)
    (m := { m with proc := { m.proc with mmapAnonNext := m.proc.place + pages * pageSize } })
    L m.proc.place pages nodeOk
    (mapPages_within L frame drop m.proc.place hu pages.toNat 0 hm.user m.heap)
  change GapOk (Mm.finish A _ _ _ _ _).2 top
  change _ = m.proc.place + pages * pageSize at hnext
  have hplace := place_of_next hnext (by omega) (by omega) (by omega)
  refine hm.of_within hw ?_ ?_ fun va h₁ h₂ => ?_
  · rw [hplace]
    omega
  · rw [hplace]
    omega
  · rw [hplace] at h₁
    rw [inPages_iff hal (by omega) (by omega)]
    omega

theorem mapAt_fixed {addr pages : UInt64} (hp : pages.toNat ≤ 65536) (nodeOk : Bool) (hm : GapOk m top)
    (hout : (pageOf addr).toNat + pages.toNat * 4096 ≤ m.proc.place.toNat ∨ top ≤ (pageOf addr).toNat) :
    GapOk (m.mapAt A frame drop flags true addr pages nodeOk).2 top := by
  have htop := hm.top_le
  have hal : (pageOf addr).toNat % 4096 = 0 := by
    rw [toNat_pageOf]
    omega
  unfold Mm.mapAt Mm.choose
  rw [if_pos rfl]
  dsimp only
  split
  · rename_i hnone
    exact hm
  · rename_i v0 m' hsome
    split at hsome
    · simp at hsome
    · rename_i huser
      obtain ⟨rfl, rfl⟩ := hsome
      have hfit := user_range_le hp huser
      have hun := unmap_within L (InPages (pageOf addr) 0 pages.toNat) hm.user (pageOf addr) pages m.heap
      obtain ⟨hw, hnext⟩ := finish_within (A := A) (m := m.unmap A (pageOf addr) pages) L
        (pageOf addr) pages nodeOk (hun.trans (mapPages_within L frame drop (pageOf addr) hu
          pages.toNat 0 hun.user _) (fun _ => id) fun _ => id)
      have hplace : (Mm.finish A (m.unmap A (pageOf addr) pages) (pageOf addr) pages nodeOk
          (mapPages A frame drop (pageOf addr) flags pages.toNat 0
            (m.unmap A (pageOf addr) pages).proc.pml4 (m.unmap A (pageOf addr) pages).heap)).2.proc.place =
          m.proc.place := place_congr hnext
      refine hm.of_within hw (le_of_eq (congrArg _ hplace.symm)) ?_ fun va h₁ h₂ => ?_
      · rw [hplace]
        exact hm.place_le
      · rw [hplace] at h₁
        rw [inPages_iff hal hfit (by omega)]
        omega

end

theorem has_or_left {x m : UInt64} (y : UInt64) (h : has x m = true) : has (x ||| y) m = true := by
  rw [UInt64.or_comm]
  exact has_or_right y h

theorem user_anonFlags (prot : UInt32) (kshared : Bool) : has (anonFlags prot kshared) vmmUser = true :=
  has_or_left _ (has_or_left _ (has_or_left _ (has_or_left _ (by decide))))

theorem user_deviceFlags (prot : UInt32) (pteExtra : UInt64) :
    has (deviceFlags prot pteExtra) vmmUser = true :=
  has_or_left _ (has_or_left _ (by decide))

/-- What the arguments of an accepted call guarantee, and what the call then is. -/
theorem mmStep_mmap {addr length : UInt64} {prot flags : UInt32} {nodeOk : Bool}
    (h : (MmOp.mmap addr length prot flags nodeOk).accepted = true) :
    (0 < (pagesOf length).toNat ∧ (pagesOf length).toNat ≤ 65536) ∧
      mmStep A m (.mmap addr length prot flags nodeOk) =
        m.mapAt A (fun _ => vmmAllocFrame A) (vmmFreeFrame A)
          (anonFlags prot (flag flags sysMmapKshared))
          (addr != 0 && flag (flags &&& ~~~sysMmapKshared) mapFixed) addr (pagesOf length) nodeOk := by
  simp only [MmOp.accepted, Bool.and_eq_true, Bool.not_eq_true', Bool.or_eq_false_iff,
    decide_eq_false_iff_not] at h
  refine ⟨toNat_pagesOf h.1.1.1 h.1.1.2, ?_⟩
  show sysMmapImpl A m addr length prot flags nodeOk = _
  unfold sysMmapImpl
  rw [if_neg (by simp [h.1.1.1, h.1.1.2]), if_neg (by simp [h.1.2]), if_neg (by simp [h.2])]

theorem mmStep_mmapDevice {addr length phys pteExtra : UInt64} {prot : UInt32} {fixed nodeOk : Bool}
    (h : (MmOp.mmapDevice addr length prot fixed phys pteExtra nodeOk).accepted = true) :
    (0 < (pagesOf length).toNat ∧ (pagesOf length).toNat ≤ 65536) ∧
      mmStep A m (.mmapDevice addr length prot fixed phys pteExtra nodeOk) =
        m.mapAt A (fun i h => (some (phys + UInt64.ofNat i * pageSize), h)) (fun h _ => h)
          (deviceFlags prot pteExtra) (addr != 0 && fixed) addr (pagesOf length) nodeOk := by
  simp only [MmOp.accepted, Bool.not_eq_true', Bool.or_eq_false_iff, decide_eq_false_iff_not] at h
  refine ⟨toNat_pagesOf h.1.1 h.1.2, ?_⟩
  show sysMmapDeviceImpl A m addr length prot fixed phys pteExtra nodeOk = _
  unfold sysMmapDeviceImpl
  rw [if_neg (by simp [h.1.1, h.1.2, h.2])]

theorem mmStep_rejected {op : MmOp} (h : op.accepted = false) :
    (∃ e, (mmStep A m op).1 = .error e) ∧ (mmStep A m op).2 = m := by
  cases op with
  | mmap addr length prot flags nodeOk =>
    show (∃ e, (sysMmapImpl A m addr length prot flags nodeOk).1 = .error e) ∧
      (sysMmapImpl A m addr length prot flags nodeOk).2 = m
    unfold sysMmapImpl
    dsimp only
    split_ifs with h₁ h₂ h₃
    · exact ⟨⟨_, rfl⟩, rfl⟩
    · exact ⟨⟨_, rfl⟩, rfl⟩
    · exact ⟨⟨_, rfl⟩, rfl⟩
    · simp only [MmOp.accepted, h₁, h₃] at h
      simp_all
  | mmapDevice addr length prot fixed phys pteExtra nodeOk =>
    show (∃ e, (sysMmapDeviceImpl A m addr length prot fixed phys pteExtra nodeOk).1 = .error e) ∧
      (sysMmapDeviceImpl A m addr length prot fixed phys pteExtra nodeOk).2 = m
    unfold sysMmapDeviceImpl
    split_ifs with h₁
    · exact ⟨⟨_, rfl⟩, rfl⟩
    · simp [MmOp.accepted, h₁] at h
  | munmap | brk => simp [MmOp.accepted] at h

theorem munmap_gap (L : Lawful A) (hm : GapOk m top) (addr length : UInt64) :
    GapOk (sysMunmapImpl A m addr length).2 top := by
  unfold sysMunmapImpl
  dsimp only
  split_ifs
  · exact hm
  · exact hm
  · exact hm.of_within (unmap_within L (fun _ => False) hm.user _ _ _) le_rfl hm.place_le
      fun _ _ _ => id

theorem brk_gap (L : Lawful A) (hm : GapOk m top) {addr : UInt64}
    (h : addr ≤ m.proc.brkCurrent ∨ addr.toNat ≤ m.proc.place.toNat) :
    GapOk (sysBrkImpl A m addr).2 top := by
  have htop := hm.top_le
  have hplace := hm.place_le
  unfold sysBrkImpl
  dsimp only
  by_cases hgrow : addr > m.proc.brkCurrent
  · have haddr : addr.toNat ≤ m.proc.place.toNat := h.resolve_left (UInt64.not_le.mpr hgrow)
    have hold : (pageOf m.proc.brkCurrent).toNat = m.proc.brkCurrent.toNat / 4096 * 4096 :=
      toNat_pageOf _
    have hlt : m.proc.brkCurrent.toNat < addr.toNat := UInt64.lt_iff_toNat_lt.mp hgrow
    have hal := place_aligned m.proc
    have hn : heapPages (pageOf m.proc.brkCurrent) addr =
        (addr.toNat - (pageOf m.proc.brkCurrent).toNat + 4095) / 4096 := rfl
    -- the loop ends at the next page boundary, at or below the cursor
    have hw := growHeap_within (A := A) (heapPages (pageOf m.proc.brkCurrent) addr) 0
      (pageOf m.proc.brkCurrent) hm.user m.heap
    rw [show pageOf m.proc.brkCurrent + UInt64.ofNat 0 * pageSize = pageOf m.proc.brkCurrent by
      rw [show UInt64.ofNat 0 = 0 from rfl, UInt64.zero_mul, UInt64.add_zero]] at hw
    have hout : ∀ va : UInt64, m.proc.place.toNat ≤ va.toNat → va.toNat < top →
        ¬ InPages (pageOf m.proc.brkCurrent) 0 (heapPages (pageOf m.proc.brkCurrent) addr) va := by
      intro va h₁ h₂
      rw [inPages_iff (by omega) (by omega) (by omega)]
      omega
    split_ifs
    · exact hm
    · exact hm
    · exact hm.of_within hw le_rfl hplace hout
    · exact hm.of_within hw le_rfl hplace hout
  · split_ifs
    · exact hm
    · exact hm
    · exact hm.of_within (unmap_within L (fun _ => False) hm.user _ _ _) le_rfl hm.place_le
        fun _ _ _ => id
    · exact ⟨hm.top_le, hm.place_le, hm.free, hm.user⟩

/-- Every call that leaves the gap alone keeps it. -/
theorem mmStep_gap (L : Lawful A) (hm : GapOk m top) (op : MmOp) (hop : op.leavesGap m top = true) :
    GapOk (mmStep A m op).2 top := by
  cases hacc : op.accepted with
  | false =>
    rw [(mmStep_rejected hacc).2]
    exact hm
  | true =>
    cases op with
    | mmap addr length prot flags nodeOk =>
      obtain ⟨hp, hstep⟩ := mmStep_mmap (A := A) (m := m) hacc
      rw [hstep]
      simp only [MmOp.leavesGap, hacc, Bool.not_true, Bool.false_or, MmOp.fixedAt] at hop
      cases hfix : (addr != 0 && flag (flags &&& ~~~sysMmapKshared) mapFixed) with
      | false =>
        rw [hfix] at hop
        exact mapAt_unfixed L (user_anonFlags _ _) addr hp.1 nodeOk hm (of_decide_eq_true hop)
      | true =>
        rw [hfix] at hop
        exact mapAt_fixed L (user_anonFlags _ _) hp.2 nodeOk hm
          ((Bool.or_eq_true_iff.mp hop).imp of_decide_eq_true of_decide_eq_true)
    | mmapDevice addr length prot fixed phys pteExtra nodeOk =>
      obtain ⟨hp, hstep⟩ := mmStep_mmapDevice (A := A) (m := m) hacc
      rw [hstep]
      simp only [MmOp.leavesGap, hacc, Bool.not_true, Bool.false_or, MmOp.fixedAt] at hop
      cases hfix : (addr != 0 && fixed) with
      | false =>
        rw [hfix] at hop
        exact mapAt_unfixed L (user_deviceFlags _ _) addr hp.1 nodeOk hm (of_decide_eq_true hop)
      | true =>
        rw [hfix] at hop
        exact mapAt_fixed L (user_deviceFlags _ _) hp.2 nodeOk hm
          ((Bool.or_eq_true_iff.mp hop).imp of_decide_eq_true of_decide_eq_true)
    | munmap addr length => exact munmap_gap L hm addr length
    | brk addr => exact brk_gap L hm (by simpa [MmOp.leavesGap] using hop)

theorem mmRun_gap (L : Lawful A) (ops : List MmOp) (hm : GapOk m top)
    (hrun : gapRun A top m ops = true) : GapOk (mmRun A m ops) top := by
  induction ops generalizing m with
  | nil => exact hm
  | cons op ops ih =>
    obtain ⟨h₁, h₂⟩ := Bool.and_eq_true_iff.mp hrun
    exact ih (mmStep_gap L hm op h₁) h₂

theorem mapAt_ok {frame : Nat → Heap σ → Option UInt64 × Heap σ} {drop : Heap σ → UInt64 → Heap σ}
    {flags addr pages v : UInt64} {nodeOk : Bool}
    (hv : (m.mapAt A frame drop flags false addr pages nodeOk).1 = .ok v) :
    v = m.proc.place ∧ ∀ va, InPages v 0 pages.toNat va →
      has ((m.mapAt A frame drop flags false addr pages nodeOk).2.proc.pml4.look va) vmmPresent =
        true := by
  change (Mm.finish A _ _ _ _ _).1 = _ at hv
  show _ ∧ ∀ va, _ → has ((Mm.finish A _ _ _ _ _).2.proc.pml4.look va) vmmPresent = true
  unfold Mm.finish at hv ⊢
  split_ifs at hv ⊢ with h₁ h₂
  · simp only [Except.ok.injEq] at hv
    subst hv
    exact ⟨rfl, fun va hva => mapPages_present _ _ _ _ _ _ (by simpa using h₁) (.inr hva)⟩

theorem mmStep_ok {op : MmOp} (hmm : op.isMmap = true) (hun : op.fixedAt = none) {v : UInt64}
    (hv : (mmStep A m op).1 = .ok v) :
    op.accepted = true ∧ v = m.proc.place ∧ ∀ va, InPages v 0 op.pages va →
      has ((mmStep A m op).2.proc.pml4.look va) vmmPresent = true := by
  have hacc : op.accepted = true := by
    by_contra hno
    obtain ⟨⟨e, he⟩, -⟩ := mmStep_rejected (A := A) (m := m) (eq_false_of_ne_true hno)
    rw [he] at hv
    simp at hv
  refine ⟨hacc, ?_⟩
  cases op with
  | mmap addr length prot flags nodeOk =>
    have hfix : (addr != 0 && flag (flags &&& ~~~sysMmapKshared) mapFixed) = false := by
      simpa [MmOp.fixedAt] using hun
    rw [(mmStep_mmap hacc).2, hfix] at hv ⊢
    exact mapAt_ok hv
  | mmapDevice addr length prot fixed phys pteExtra nodeOk =>
    have hfix : (addr != 0 && fixed) = false := by simpa [MmOp.fixedAt] using hun
    rw [(mmStep_mmapDevice hacc).2, hfix] at hv ⊢
    exact mapAt_ok hv
  | munmap | brk => simp [MmOp.isMmap] at hmm

end Gap

/-- **A mapping without `MAP_FIXED` is new**, in every history that leaves the gap between
the cursor and `top` alone: its pages are user pages, the call maps them, and none of
them was mapped before. -/
theorem unfixed_mapping_is_new {A : FrameAllocator σ} (L : Lawful A) {m : Mm σ} {top : Nat}
    (hm : GapOk m top) (ops : List MmOp) (hrun : gapRun A top m ops = true) (op : MmOp)
    (hop : op.leavesGap (mmRun A m ops) top = true) (hmm : op.isMmap = true) (hun : op.fixedAt = none)
    {v : UInt64} (hv : (mmStep A (mmRun A m ops) op).1 = .ok v) :
    v.toNat + op.pages * 4096 ≤ userAddrMax.toNat + 1 ∧
      ∀ va : UInt64, v.toNat ≤ va.toNat → va.toNat < v.toNat + op.pages * 4096 →
        has ((mmRun A m ops).proc.pml4.look va) vmmPresent = false ∧
          has ((mmStep A (mmRun A m ops) op).2.proc.pml4.look va) vmmPresent = true := by
  have hgap := mmRun_gap L ops hm hrun
  generalize mmRun A m ops = m' at hgap hop hv
  obtain ⟨hacc, hplace, hmapped⟩ := mmStep_ok hmm hun hv
  have htop := hgap.top_le
  have hmax : userAddrMax.toNat = 2 ^ 47 - 1 := rfl
  have hfit : m'.proc.place.toNat + op.pages * 4096 ≤ top := by
    cases op with
    | mmap addr length prot flags nodeOk => simpa [MmOp.leavesGap, hacc, hun] using hop
    | mmapDevice addr length prot fixed phys pteExtra nodeOk =>
      simpa [MmOp.leavesGap, hacc, hun] using hop
    | munmap | brk => simp [MmOp.isMmap] at hmm
  subst hplace
  refine ⟨by omega, fun va h₁ h₂ => ⟨hgap.free va h₁ (by omega), hmapped va ?_⟩⟩
  rw [inPages_iff (place_aligned _) (by omega) (by omega)]
  exact ⟨h₁, h₂⟩

/-- A process as exec leaves it, with an empty heap and nothing mapped. -/
def newProc : Mm FreeList :=
  ⟨⟨⟨0x1000, fun _ => Entry.empty 3⟩, 0x10000000, 0x10000000, 0x20000000, []⟩,
    (run freeList (boot fewFrames blank) [.create]).heap⟩

theorem newProc_gap : GapOk newProc (2 ^ 47) := by
  refine ⟨le_rfl, by decide, fun va _ _ => ?_, fun i => Entry.all_empty userWord_zero 3⟩
  exact not_has_zero _

/-- An anonymous mapping, `MAP_PRIVATE | MAP_ANONYMOUS`, of `length` bytes. -/
def anon (length : UInt64) : MmOp := .mmap 0 length 3 0x22 true

/-- The same at a fixed address. -/
def anonAt (addr length : UInt64) : MmOp := .mmap addr length 3 0x32 true

theorem unfixed_mapping_is_new_after_brk :
    (mmStep freeList (mmRun freeList newProc [anon 0x1000, .brk 0x10001000]) (anon 0x1000)).1 =
        .ok 0x20001000 ∧
      has ((mmRun freeList newProc [anon 0x1000, .brk 0x10001000]).proc.pml4.look 0x20001000)
        vmmPresent = false := by
  have hv : (mmStep freeList (mmRun freeList newProc [anon 0x1000, .brk 0x10001000])
      (anon 0x1000)).1 = .ok 0x20001000 := by decide +kernel
  have hnew := unfixed_mapping_is_new freeListLawful newProc_gap [anon 0x1000, .brk 0x10001000]
    (by decide +kernel) (anon 0x1000) (by decide +kernel) rfl rfl hv
  exact ⟨hv, (hnew.2 0x20001000 (by decide) (by decide)).1⟩

/-- A fixed mapping above the cursor, and then a mapping without `MAP_FIXED` that takes its
page away. -/
theorem fixed_mapping_is_overlaid :
    (mmStep freeList newProc (anonAt 0x20001000 0x1000)).1 = .ok 0x20001000 ∧
      has ((mmRun freeList newProc [anonAt 0x20001000 0x1000]).proc.pml4.look 0x20001000)
        vmmPresent = true ∧
      (mmStep freeList (mmRun freeList newProc [anonAt 0x20001000 0x1000]) (anon 0x2000)).1 =
        .ok 0x20000000 ∧
      (mmRun freeList newProc [anonAt 0x20001000 0x1000, anon 0x2000]).proc.pml4.look 0x20001000 ≠
        (mmRun freeList newProc [anonAt 0x20001000 0x1000]).proc.pml4.look 0x20001000 := by
  decide +kernel

end InDevOS.Mem
