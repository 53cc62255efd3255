import InDevOS.Mem.Pmm

/-! Booting the page allocator: `kmem_init` of `mem.c` and what its numbers are good for.

The boot loader's memory map gives the lowest and the highest usable address. Pages are
numbered from the lowest one, the bitmap and the entry map are cut out of usable regions,
and the pages of what is left are marked free. The reference counts, on the other hand,
are indexed by frame number and there are as many of them as usable pages
(`vmm_refcount_init`).

`indices_bounded_iff` says for which maps the bitmap covers the pages and `kalloc_high`
stays above 1 MiB, `frames_counted_iff` for which maps every frame that is handed out
has a reference count. On a machine where that is so, the allocator keeps the laws the page
tables rely on (`Boot.lawful`). -/
namespace InDevOS.Mem

/-- A region of the memory map, a range of 64-bit addresses. -/
structure MemmapEntry where
  base : Nat
  length : Nat
  usable : Bool
  bound : base + length < 2 ^ 64

abbrev Memmap := List MemmapEntry

/-! ### The source's operations -/

structure Stats where
  totalMemoryBytes : Nat
  maxPagesAvailable : Nat
  highestAddress : Nat
  lowestAddress : Nat

/-- One round of `_init_stats`. The lowest address counts as unset while it is 0. -/
def Stats.visit (s : Stats) (e : MemmapEntry) : Stats :=
  if e.usable then
    { totalMemoryBytes := (s.totalMemoryBytes + e.length) % 2 ^ 64
      maxPagesAvailable := (s.maxPagesAvailable + e.length / 4096) % 2 ^ 64
      highestAddress := max s.highestAddress (e.base + e.length)
      lowestAddress := if s.lowestAddress = 0 then e.base else min s.lowestAddress e.base }
  else s

def initStats (m : Memmap) : Stats := m.foldl Stats.visit ⟨0, 0, 0, 0⟩

/-- The subtraction of 64-bit numbers. -/
def sub64 (a b : Nat) : Nat := (a + 2 ^ 64 - b) % 2 ^ 64

def Stats.numPagesInMap (s : Stats) : Nat := sub64 s.highestAddress s.lowestAddress / 4096

/-- `ALIGN_UP(x, PAGE_SIZE)` -/
def alignUp (x : Nat) : Nat := (x + 4095) / 4096 * 4096

/-- The first usable region that is long enough gives up its first `size` bytes. -/
def carve (size : Nat) : Memmap → Bool × Memmap
  | [] => (false, [])
  | e :: m =>
    if h : e.usable = true ∧ size ≤ e.length then
      (true, ⟨e.base + size, e.length - size, true, by have := e.bound; omega⟩ :: m)
    else ((carve size m).1, e :: (carve size m).2)

def Stats.bitmapSize (s : Stats) : Nat := alignUp (s.numPagesInMap / 8)

def Stats.mapSize (s : Stats) : Nat := alignUp (4 * s.numPagesInMap)

/-- What `kmem_init` leaves behind. -/
structure Boot where
  stats : Stats
  /-- A region was found for the bitmap, and one for the entry map. -/
  bitmapPlaced : Bool
  entryMapPlaced : Bool
  maxPagesAvailable : Nat
  /-- The memory map without the two. -/
  regions : Memmap

def kmemInit (m : Memmap) : Boot :=
  let s := initStats m
  let r₁ := carve s.bitmapSize m
  let r₂ := carve s.mapSize r₁.2
  { stats := s
    bitmapPlaced := r₁.1
    entryMapPlaced := r₂.1
    maxPagesAvailable :=
      let n := if r₁.1 then sub64 s.maxPagesAvailable (s.bitmapSize / 4096) else s.maxPagesAvailable
      if r₂.1 then sub64 n (s.mapSize / 4096) else n
    regions := r₂.2 }

namespace Boot
variable (b : Boot)

def numPages : Nat := b.stats.numPagesInMap

def startBit (e : MemmapEntry) : Nat := sub64 e.base b.stats.lowestAddress / 4096

/-- `_get_free_pages` clears the bit of page `i`. -/
def freed (i : Nat) : Bool :=
  b.regions.any fun e =>
    e.usable && decide (b.startBit e ≤ i ∧ i < b.startBit e + e.length / 4096)

/-- The bit of page `i` lies in the region reserved for the bitmap. -/
def reserved (i : Nat) : Bool := b.bitmapPlaced && decide (i / 8 < b.stats.bitmapSize)

/-- The allocator's first state. What lies past the bitmap is `junk`. -/
def pmm (junk : Nat → Bool) : Pmm where
  numPagesInMap := b.numPages
  maxPagesAvailable := b.maxPagesAvailable
  bits i := !b.freed i && (b.reserved i || junk i)
  entryMap _ := 0
  allocationCursor := 0
  numPagesAvailable := 0

/-- `_get_addr_from_page`, as a physical address. -/
def addrOfPage (page : Nat) : Nat := (b.stats.lowestAddress + page * 4096) % 2 ^ 64

def oneMbPage : Nat := sub64 0x100000 b.stats.lowestAddress / 4096

end Boot

/-! ### Which bits are tested -/

theorem mem_searchTests_full {n num reset : Nat} (hn : n ≠ 0) (k f : Nat) {q : Search}
    (hq : q.allocating = false ∧ q.allocatedPages = 0) (hk : q.cursor + k + 1 = num) {i : Nat}
    (hlo : q.cursor ≤ i) (hhi : i < num) :
    i ∈ searchTests (fun _ => true) n num reset (f + k + 1) q := by
  have htest : q.test (fun _ => true) = q := by simp [Search.test, hq.1]
  rw [searchTests, htest, if_neg (by rw [hq.2]; exact hn.symm)]
  by_cases hi : i = q.cursor
  · rw [hi]
    exact List.mem_cons_self ..
  · refine List.mem_cons_of_mem _ ?_
    cases k with
    | zero => omega
    | succ k =>
      rw [Search.advance, if_neg (by omega)]
      exact mem_searchTests_full (q := { q with cursor := q.cursor + 1 }) hn k f hq
        (by dsimp only; omega) (by dsimp only; omega) hhi

/-! ### Bounds -/

theorem carve_fst (size : Nat) (m : Memmap) :
    (carve size m).1 = m.any fun e => e.usable && decide (size ≤ e.length) := by
  induction m with
  | nil => rfl
  | cons e m ih =>
    rw [carve, List.any_cons]
    split
    · rename_i h
      simp [h]
    · rename_i h
      rw [ih, show (e.usable && decide (size ≤ e.length)) = false by simpa using h, Bool.false_or]

/-- The numbers of `_init_stats` are 64-bit numbers in order. -/
structure Stats.Ok (s : Stats) : Prop where
  ordered : s.lowestAddress ≤ s.highestAddress
  highest : s.highestAddress < 2 ^ 64
  total : s.totalMemoryBytes < 2 ^ 64

theorem Stats.Ok.visit {s : Stats} (h : s.Ok) (e : MemmapEntry) : (s.visit e).Ok := by
  have := e.bound
  obtain ⟨h₁, h₂, h₃⟩ := h
  unfold Stats.visit
  split
  · refine ⟨?_, ?_, Nat.mod_lt _ (by decide)⟩
    · dsimp only
      split <;> omega
    · dsimp only
      omega
  · exact ⟨h₁, h₂, h₃⟩

theorem initStats_ok (m : Memmap) : (initStats m).Ok := by
  have run : ∀ s : Stats, s.Ok → (m.foldl Stats.visit s).Ok := by
    induction m with
    | nil => exact fun s h => h
    | cons e m ih => exact fun s h => ih _ (h.visit e)
  exact run _ ⟨Nat.le_refl 0, by decide, by decide⟩

/-- A state of the allocator on this machine. -/
def Boot.Runs (b : Boot) (s : Pmm) : Prop :=
  s.numPagesInMap = b.numPages ∧ s.maxPagesAvailable = b.maxPagesAvailable

theorem Boot.Runs.accepts_page {b : Boot} {s : Pmm} (h : b.Runs s) (hmax : b.maxPagesAvailable / 4 ≠ 0) :
    s.accepts 4096 = true := by
  have : s.maxPagesAvailable ≠ 0 ∧ 1 ≤ s.maxPagesAvailable / 4 := by
    rw [h.2]
    omega
  simp [Pmm.accepts, pagesToAlloc, sizeLimit, this]

theorem Boot.Runs.not_accepts {b : Boot} {s : Pmm} (h : b.Runs s) (hmax : b.maxPagesAvailable / 4 = 0)
    (numBytes : Nat) : s.accepts numBytes = false := by
  by_contra hacc
  rw [Bool.not_eq_false] at hacc
  have := pagesToAlloc_pos hacc
  simp only [Pmm.accepts, Bool.and_eq_true, decide_eq_true_eq, h.2, hmax] at hacc
  omega

/-- The bit of page `i` is cleared at boot or tested by an allocation. (An allocation sets
bits it has tested, and `kfree` clears bits that an allocation has set.) -/
def Boot.Touched (b : Boot) (i : Nat) : Prop :=
  b.freed i = true ∨ ∃ s numBytes, b.Runs s ∧
    (i ∈ kallocTests s numBytes 0 true ∨ i ∈ kallocTests s numBytes b.oneMbPage false)

structure Boot.Bounded (b : Boot) : Prop where
  inside : ∀ i < b.numPages, b.Touched i → b.reserved i = true
  high : ∀ s s' numBytes page, b.Runs s →
    kallocInternal s numBytes b.oneMbPage false = some (some page, s') →
    0x100000 ≤ b.addrOfPage page

/-- The bitmap covers the map. -/
def Boot.Covers (b : Boot) : Prop :=
  b.numPages = 0 ∨ b.bitmapPlaced = true ∧ (b.numPages % 32768 = 0 ∨ 8 ≤ b.numPages % 32768)

section Bounds
variable {b : Boot}

theorem Boot.covers_iff : b.Covers ↔ ∀ i < b.numPages, b.reserved i = true := by
  have hsize : b.stats.bitmapSize = (b.numPages / 8 + 4095) / 4096 * 4096 := rfl
  cases hp : b.bitmapPlaced
  · have : (∀ i < b.numPages, b.reserved i = true) ↔ b.numPages = 0 := by
      simp only [Boot.reserved, hp, Bool.false_and, Bool.false_eq_true, imp_false]
      exact ⟨fun h => Nat.eq_zero_of_not_pos fun h0 => h 0 h0, fun h i hi => by omega⟩
    rw [this]
    simp [Boot.Covers, hp]
  · simp only [Boot.Covers, Boot.reserved, hp, hsize, Bool.true_and, decide_eq_true_eq, true_and]
    constructor
    · intro h i hi
      omega
    · intro h
      by_cases h0 : b.numPages = 0
      · exact .inl h0
      · have := h (b.numPages - 1) (by omega)
        omega

theorem Boot.touched_of_lt (hmax : b.maxPagesAvailable / 4 ≠ 0) {i : Nat} (hi : i < b.numPages) :
    b.Touched i := by
  let s : Pmm := ⟨b.numPages, b.maxPagesAvailable, fun _ => true, fun _ => 0, 0, 0⟩
  have hs : b.Runs s := ⟨rfl, rfl⟩
  refine .inr ⟨s, 4096, hs, .inl ?_⟩
  rw [kallocTests, if_pos (hs.accepts_page hmax)]
  have hfuel : 2 * b.numPages + 2 = (b.numPages + 2) + (b.numPages - 1) + 1 := by omega
  show i ∈ searchTests (fun _ => true) 1 b.numPages 0 (2 * b.numPages + 2) ⟨0, 0, 0, false, false⟩
  rw [hfuel]
  exact mem_searchTests_full Nat.one_ne_zero _ _ ⟨rfl, rfl⟩ (by dsimp only; omega)
    (Nat.zero_le i) hi

/-- A clear bit under the first cursor is all a request for one page needs. -/
theorem kallocInternal_clear {s : Pmm} {start : Nat} {g : Bool} (hacc : s.accepts 4096 = true)
    (hcur : s.firstCursor start g = start) (hb : s.bits start = false) :
    kallocInternal s 4096 start g =
      some (some start, s.take g ⟨start, start, 1, false, true⟩) := by
  have htest : Search.test s.bits ⟨start, 0, 0, false, false⟩ = ⟨start, start, 1, false, true⟩ := by
    simp [Search.test, hb]
  rw [kallocInternal, if_pos hacc, show pagesToAlloc 4096 = 1 from rfl, hcur,
    search_found _ _ _ (by rw [htest]), htest]
  rfl

theorem Boot.addr_oneMb (hlow : b.stats.lowestAddress < 2 ^ 64) :
    b.addrOfPage b.oneMbPage = 0x100000 - sub64 0x100000 b.stats.lowestAddress % 4096 := by
  unfold Boot.addrOfPage Boot.oneMbPage sub64
  omega

end Bounds

/-- **The page numbers of a memory map stay inside the bitmap, and `kalloc_high` stays at
or above 1 MiB, exactly when** the allocator never serves anything and the pages freed at
boot are covered, or the lowest usable address is page aligned and the number of pages is
not one to seven past a multiple of 32768 (with a usable region for the bitmap). -/
theorem indices_bounded_iff (m : Memmap) :
    (kmemInit m).Bounded ↔
      (kmemInit m).maxPagesAvailable / 4 = 0 ∧
          (∀ i < (kmemInit m).numPages, (kmemInit m).freed i = true → (kmemInit m).reserved i = true) ∨
        (kmemInit m).maxPagesAvailable / 4 ≠ 0 ∧ (initStats m).lowestAddress % 4096 = 0 ∧
          ((initStats m).numPagesInMap = 0 ∨
            (m.any fun e => e.usable && decide ((initStats m).bitmapSize ≤ e.length)) = true ∧
              ((initStats m).numPagesInMap % 32768 = 0 ∨ 8 ≤ (initStats m).numPagesInMap % 32768)) := by
  obtain ⟨hle, hlt, -⟩ := initStats_ok m
  have hcov : (kmemInit m).Covers ↔ (initStats m).numPagesInMap = 0 ∨
      (m.any fun e => e.usable && decide ((initStats m).bitmapSize ≤ e.length)) = true ∧
        ((initStats m).numPagesInMap % 32768 = 0 ∨ 8 ≤ (initStats m).numPagesInMap % 32768) := by
    rw [← carve_fst]
    exact Iff.rfl
  have hlow : (kmemInit m).stats = initStats m := rfl
  have hnum : (kmemInit m).numPages = (initStats m).numPagesInMap := rfl
  rw [← hcov]
  generalize kmemInit m = b at *
  have haddr := b.addr_oneMb (by rw [hlow]; omega)
  rw [hlow] at haddr
  by_cases hmax : b.maxPagesAvailable / 4 = 0
  · -- nothing is ever allocated
    simp only [hmax, true_and, ne_eq, not_true_eq_false, false_and, or_false]
    constructor
    · exact fun h i hi hf => h.inside i hi (.inl hf)
    · intro h
      refine ⟨fun i hi ht => ?_, fun s s' numBytes page hs hcall => ?_⟩
      · obtain hf | ⟨s, numBytes, hs, ht | ht⟩ := ht
        · exact h i hi hf
        · simp [kallocTests, hs.not_accepts hmax] at ht
        · simp [kallocTests, hs.not_accepts hmax] at ht
      · obtain ⟨-, -, -, -, hacc, -⟩ := kallocInternal_taken (Nat.le_refl _) hcall
        simp [hs.not_accepts hmax] at hacc
  · simp only [hmax, false_and, false_or, ne_eq, not_false_eq_true, true_and]
    constructor
    · intro h
      refine ⟨?_, Boot.covers_iff.mpr fun i hi => h.inside i hi (Boot.touched_of_lt hmax hi)⟩
      -- with every bit clear the first test of `kalloc_high` succeeds
      let s : Pmm := ⟨b.numPages, b.maxPagesAvailable, fun _ => false, fun _ => 0, 0, 0⟩
      have hs : b.Runs s := ⟨rfl, rfl⟩
      have := h.high s _ 4096 _ hs (kallocInternal_clear (hs.accepts_page hmax) rfl rfl)
      rw [haddr] at this
      unfold sub64 at this
      omega
    · rintro ⟨hal, hc⟩
      refine ⟨fun i hi _ => Boot.covers_iff.mp hc i hi, fun s s' numBytes page hs hcall => ?_⟩
      obtain ⟨-, -, -, -, hacc, -, ⟨hlo, hhi⟩ | ⟨-, -, hpage⟩⟩ :=
        kallocInternal_taken (Nat.le_refl _) hcall
      · have hn := pagesToAlloc_pos hacc
        rw [hs.1, hnum] at hhi
        unfold Boot.addrOfPage
        unfold Boot.oneMbPage at hlo
        unfold Stats.numPagesInMap at hhi
        rw [hlow] at hlo ⊢
        unfold sub64 at hlo hhi
        omega
      · rw [show page = b.oneMbPage from hpage.elim id id, haddr]
        unfold sub64
        omega

/-- One region of 32769 pages: the bitmap has 32768 bits, and boot clears one more. -/
theorem bitmap_too_short :
    let b := kmemInit [⟨0x100000, 32769 * 4096, true, by decide⟩]
    b.freed 32768 = true ∧ 32768 < b.numPages ∧ b.reserved 32768 = false ∧ ¬ b.Bounded := by
  have h : (kmemInit [⟨0x100000, 32769 * 4096, true, by decide⟩]).freed 32768 = true ∧
      32768 < (kmemInit [⟨0x100000, 32769 * 4096, true, by decide⟩]).numPages ∧
      (kmemInit [⟨0x100000, 32769 * 4096, true, by decide⟩]).reserved 32768 = false := by
    decide +kernel
  refine ⟨h.1, h.2.1, h.2.2, fun hb => ?_⟩
  exact absurd ((hb.inside 32768 h.2.1 (.inl h.1)).symm.trans h.2.2) (by decide)

/-! ### Reference counts -/

namespace Boot
variable (b : Boot)

/-- The calls of `_kalloc_internal`: `kalloc` (the slab layer takes whole pages with it
too) and `kalloc_high`. -/
def Calls (start : Nat) (useGlobalCursor : Bool) : Prop :=
  start = 0 ∧ useGlobalCursor = true ∨ start = b.oneMbPage ∧ useGlobalCursor = false

/-- The states of the allocator after a boot that found room for its tables. Memory past
the bitmap can change at any time. -/
inductive Reach : Pmm → Prop
  | boot (junk : Nat → Bool) : b.bitmapPlaced = true → b.entryMapPlaced = true → Reach (b.pmm junk)
  | kalloc {s s' : Pmm} {start : Nat} {g : Bool} {r : Option Nat} (numBytes : Nat) : Reach s →
      b.Calls start g → kallocInternal s numBytes start g = some (r, s') → Reach s'
  | kfree {s : Pmm} (page : Nat) : Reach s → Reach (s.kfree page)
  | scribble {s : Pmm} (bits : Nat → Bool) : Reach s →
      (∀ i, b.reserved i = true → bits i = s.bits i) → Reach { s with bits := bits }

/-- Some call returns an allocation that contains the page. -/
def HandsOut (page : Nat) : Prop :=
  ∃ s start g numBytes first s', b.Reach s ∧ b.Calls start g ∧
    kallocInternal s numBytes start g = some (some first, s') ∧
    first ≤ page ∧ page < first + pagesToAlloc numBytes

def frame (page : Nat) : Nat := b.addrOfPage page / 4096

/-- `vmm_refcount_init` -/
def vmmMaxPhysPages : Nat := b.stats.totalMemoryBytes / 4096

/-- `_get_page_from_addr`, for a physical address -/
def pageOfAddr (p : UInt64) : Nat := sub64 p.toNat b.stats.lowestAddress / 4096

/-- The allocator as the page tables use it. -/
def frames : FrameAllocator Pmm where
  alloc s := match kallocInternal s 4096 0 true with
    | some (some page, s') => some (UInt64.ofNat (b.addrOfPage page), s')
    | _ => none
  free s p := s.kfree (b.pageOfAddr p)
  kind s p :=
    if b.pageOfAddr p ≥ s.numPagesInMap then 0
    else if s.entryMap (b.pageOfAddr p) = 1 then 1
    else if s.entryMap (b.pageOfAddr p) = 0 && !s.bits (b.pageOfAddr p) then -1
    else 0
  maxPhysPages := UInt64.ofNat b.vmmMaxPhysPages

/-- Every page that is handed out has a reference count, and a frame that two address
spaces map is not freed when one of them lets go of it. -/
structure FramesCounted : Prop where
  counted : ∀ page, b.HandsOut page → b.frame page < b.vmmMaxPhysPages
  kept : ∀ (h h' : Heap Pmm) (p : UInt64), b.Reach h.pmm → vmmAllocFrame b.frames h = (some p, h') →
    (vmmLeafRelease b.frames (shareLeaf b.frames h' p) p).pmm = h'.pmm

/-- The bit of the page is clear after boot, or not in the bitmap. -/
def Open (i : Nat) : Prop := b.freed i = true ∨ b.reserved i = false

end Boot

/-- What every state has in common. -/
structure Boot.Keeps (b : Boot) (s : Pmm) : Prop where
  runs : b.Runs s
  bits : ∀ i, s.bits i = false → b.Open i
  entries : ∀ a i, a ≤ i → i < a + s.entryMap a → b.Open i
  cursor : s.allocationCursor ≤ b.numPages - 1
  placed : b.bitmapPlaced = true ∧ b.entryMapPlaced = true

section Counts
variable {b : Boot} {s : Pmm}

theorem Boot.Calls.cursor {start : Nat} {g : Bool} (h : b.Calls start g) :
    start ≤ s.firstCursor start g := by
  obtain ⟨rfl, rfl⟩ | ⟨rfl, rfl⟩ := h
  · exact Nat.zero_le _
  · exact Nat.le_refl _

theorem Boot.Keeps.kalloc (h : b.Keeps s) {s' : Pmm} {start : Nat} {g : Bool} {r : Option Nat}
    {numBytes : Nat} (hc : b.Calls start g)
    (hcall : kallocInternal s numBytes start g = some (r, s')) : b.Keeps s' := by
  cases r with
  | none =>
    by_cases hacc : s.accepts numBytes = true
    · obtain ⟨r, hr, -⟩ := kallocInternal_ends g hacc hc.cursor
      rw [hcall] at hr
      cases r with
      | none =>
        simp only [Pmm.result, Option.some.injEq, Prod.mk.injEq, true_and] at hr
        exact hr ▸ h
      | some q => simp [Pmm.result] at hr
    · rw [kallocInternal, if_neg hacc] at hcall
      simp only [Option.some.injEq, Prod.mk.injEq, true_and] at hcall
      exact hcall ▸ h
  | some page =>
    obtain ⟨q, rfl, rfl, hlen, -, hclear, -⟩ := kallocInternal_taken hc.cursor hcall
    refine ⟨h.runs, fun i hi => ?_, fun a i hlo hhi => ?_, ?_, h.placed⟩
    · refine h.bits i ?_
      by_contra hb
      simp [Pmm.take, Lib.mark, hb] at hi
    · by_cases ha : a = q.startAllocPage
      · refine h.bits i (hclear i (by omega) ?_)
        simp only [Pmm.take, ha, Function.update_self, hlen] at hhi
        omega
      · simp only [Pmm.take, Function.update_of_ne ha] at hhi
        exact h.entries a i hlo hhi
    · have hnum := h.runs.1
      have hcur := h.cursor
      unfold Pmm.take
      dsimp only
      split
      · split <;> omega
      · exact hcur

theorem Boot.Keeps.kfree (h : b.Keeps s) (page : Nat) : b.Keeps (s.kfree page) := by
  unfold Pmm.kfree
  dsimp only
  split
  · exact h
  · refine ⟨h.runs, fun i hi => ?_, fun a i hlo hhi => ?_, h.cursor, h.placed⟩
    · by_cases hin : page ≤ i ∧ i < page + s.entryMap page
      · exact h.entries page i hin.1 hin.2
      · exact h.bits i (by simpa [Lib.unmark, hin] using hi)
    · by_cases ha : a = page
      · simp only [ha, Function.update_self] at hhi
        omega
      · simp only [Function.update_of_ne ha] at hhi
        exact h.entries a i hlo hhi

theorem Boot.Reach.keeps (h : b.Reach s) : b.Keeps s := by
  induction h with
  | boot junk h₁ h₂ =>
    refine ⟨⟨rfl, rfl⟩, fun i hi => ?_, fun a i hlo hhi => ?_, Nat.zero_le _, h₁, h₂⟩
    · unfold Boot.Open
      cases hf : b.freed i
      · cases hr : b.reserved i
        · exact .inr rfl
        · simp [Boot.pmm, hf, hr] at hi
      · exact .inl rfl
    · exact absurd hhi (Nat.not_lt.mpr hlo)
  | kalloc numBytes _ hc hcall ih => exact ih.kalloc hc hcall
  | kfree page _ ih => exact ih.kfree page
  | @scribble s bits _ hsame ih =>
    refine ⟨ih.runs, fun i hi => ?_, ih.entries, ih.cursor, ih.placed⟩
    cases hr : b.reserved i
    · exact .inr hr
    · exact ih.bits i ((hsame i hr).symm.trans hi)

/-- A clear page of the map is handed out sooner or later, a page at a time. -/
theorem Boot.handsOut_of_clear (hmax : b.maxPagesAvailable / 4 ≠ 0) {page : Nat}
    (hpage : page < b.numPages) (k : Nat) (hs : b.Reach s)
    (hk : Lib.clear b.numPages s.bits = k) (hb : s.bits page = false) : b.HandsOut page := by
  induction k using Nat.strong_induction_on generalizing s with
  | _ k ih =>
    have hkeeps := hs.keeps
    have hacc := hkeeps.runs.accepts_page hmax
    have hnum := hkeeps.runs.1
    have hcalls : b.Calls 0 true := .inl ⟨rfl, rfl⟩
    have hcur : s.firstCursor 0 true < s.numPagesInMap := by
      have := hkeeps.cursor
      rw [hnum]
      show s.allocationCursor < b.numPages
      omega
    obtain ⟨r, hr, hends⟩ := kallocInternal_ends true hacc (show 0 ≤ s.firstCursor 0 true from Nat.zero_le _)
    have hends : s.Ends 0 1 r := by
      obtain ⟨-, -, h⟩ | ⟨h, -⟩ | ⟨h, -⟩ := hends
      · exact h
      · exact absurd (.inl hcur) h
      · exact absurd (.inl (Nat.lt_of_le_of_lt (Nat.zero_le _) hcur)) h
    cases r with
    | none =>
      refine absurd ⟨Nat.zero_le _, by omega, fun j hlo hhi => ?_⟩ (hends page)
      rw [show j = page by omega]
      exact hb
    | some q =>
      obtain ⟨hlen, -, hin, hclear⟩ := hends
      by_cases hq : q.startAllocPage = page
      · exact ⟨s, 0, true, 4096, _, _, hs, hcalls, hr, by omega, by
          rw [show pagesToAlloc 4096 = 1 from rfl]
          omega⟩
      · have hcount := Lib.clear_mark (n := b.numPages) (by omega) hclear
        refine ih (Lib.clear b.numPages (Lib.mark q.startAllocPage 1 s.bits)) (by omega)
          (.kalloc 4096 hs hcalls hr) ?_ ?_
        · show Lib.clear b.numPages (Lib.mark q.startAllocPage q.allocatedPages s.bits) = _
          rw [hlen]
        · show Lib.mark q.startAllocPage q.allocatedPages s.bits page = false
          rw [hlen, Lib.mark_outside (by omega)]
          exact hb

theorem Boot.HandsOut.open_page {page : Nat} (h : b.HandsOut page) :
    b.Open page ∧ (page ≤ b.numPages - 1 ∨ page = b.oneMbPage) ∧ b.maxPagesAvailable / 4 ≠ 0 ∧
      b.bitmapPlaced = true ∧ b.entryMapPlaced = true := by
  obtain ⟨s, start, g, numBytes, first, s', hs, hc, hcall, hlo, hhi⟩ := h
  have hkeeps := hs.keeps
  obtain ⟨-, -, -, -, hacc, hclear, hwhere⟩ := kallocInternal_taken hc.cursor hcall
  refine ⟨hkeeps.bits page (hclear page hlo hhi), ?_, fun hmax => ?_, hkeeps.placed⟩
  · have hnum := hkeeps.runs.1
    have hcur := hkeeps.cursor
    obtain ⟨-, hin⟩ | ⟨-, h1, hp⟩ := hwhere
    · exact .inl (by omega)
    · have hpage : page = first := by omega
      obtain ⟨rfl, rfl⟩ | ⟨rfl, rfl⟩ := hc
      · refine .inl ?_
        have : s.firstCursor 0 true = s.allocationCursor := rfl
        omega
      · exact .inr (hpage.trans (hp.elim id id))
  · simp [hkeeps.runs.not_accepts hmax] at hacc

theorem Boot.HandsOut.of_open {page : Nat} (ho : b.Open page)
    (hp : page ≤ b.numPages - 1 ∨ page = b.oneMbPage) (hmax : b.maxPagesAvailable / 4 ≠ 0)
    (hplaced : b.bitmapPlaced = true ∧ b.entryMapPlaced = true) : b.HandsOut page := by
  -- the memory past the bitmap may read as clear
  have hs : b.Reach (b.pmm fun _ => false) := .boot _ hplaced.1 hplaced.2
  have hb : (b.pmm fun _ => false).bits page = false := by
    obtain h | h := ho <;> simp [Boot.pmm, h]
  have hacc := hs.keeps.runs.accepts_page hmax
  have hone : pagesToAlloc 4096 = 1 := rfl
  by_cases hin : page < b.numPages
  · exact Boot.handsOut_of_clear hmax hin _ hs rfl hb
  · obtain hp | rfl := hp
    · -- a map without pages: the only test is that of page 0
      obtain rfl : page = 0 := by omega
      exact ⟨_, 0, true, 4096, _, _, hs, .inl ⟨rfl, rfl⟩, kallocInternal_clear hacc rfl hb,
        Nat.le_refl 0, by rw [hone]; omega⟩
    · exact ⟨_, _, false, 4096, _, _, hs, .inr ⟨rfl, rfl⟩, kallocInternal_clear hacc rfl hb,
        Nat.le_refl _, by rw [hone]; omega⟩

/-- A frame with a count survives being shared and released once. -/
theorem Boot.release_shared {h : Heap Pmm} {p : UInt64} (hp : pfn p < b.frames.maxPhysPages)
    (hr : h.refs (pfn p) = 0) :
    (vmmLeafRelease b.frames (shareLeaf b.frames h p) p).pmm = h.pmm := by
  have hlt : ¬ pfn p ≥ b.frames.maxPhysPages := UInt64.not_le.mpr hp
  have hshare : shareLeaf b.frames h p = (h.setRef p 1).setRef p 2 := by
    simp [shareLeaf, vmmPageGetRef, vmmPageRef, hlt, hr, Heap.setRef]
  have href : ((h.setRef p 1).setRef p 2).refs (pfn p) = 2 := setRef_refs_self _ _ _
  rw [hshare]
  unfold vmmLeafRelease
  split
  · rfl
  · rw [href]
    rw [if_neg (by decide)]
    split
    · rfl
    · split
      · rfl
      · rw [if_neg (by decide), vmmPageUnref, if_neg hlt, href]
        rfl

end Counts

/-- **Every frame the allocator hands out has a reference count, and no shared frame is
freed early, exactly when** the machine cannot allocate at all or no page that boot leaves
open has a frame number at or above the number of usable pages. -/
theorem frames_counted_iff (m : Memmap) :
    (kmemInit m).FramesCounted ↔
      ((kmemInit m).bitmapPlaced = true ∧ (kmemInit m).entryMapPlaced = true ∧
          (kmemInit m).maxPagesAvailable / 4 ≠ 0 →
        ∀ page, page ≤ (kmemInit m).numPages - 1 ∨ page = (kmemInit m).oneMbPage →
          (kmemInit m).Open page →
          (kmemInit m).addrOfPage page / 4096 < (initStats m).totalMemoryBytes / 4096) := by
  have htotal : (kmemInit m).stats.totalMemoryBytes < 2 ^ 64 := (initStats_ok m).total
  show _ ↔ (_ → ∀ page, _ → _ → (kmemInit m).frame page < (kmemInit m).vmmMaxPhysPages)
  generalize kmemInit m = b at *
  constructor
  · rintro h ⟨h₁, h₂, hmax⟩ page hp ho
    exact h.counted page (.of_open ho hp hmax ⟨h₁, h₂⟩)
  · intro hcond
    have hcounted : ∀ page, b.HandsOut page → b.frame page < b.vmmMaxPhysPages := by
      intro page hpage
      obtain ⟨ho, hp, hmax, h₁, h₂⟩ := hpage.open_page
      exact hcond ⟨h₁, h₂, hmax⟩ page hp ho
    refine ⟨hcounted, fun h h' p hs ha => ?_⟩
    unfold vmmAllocFrame at ha
    cases hr : b.frames.alloc h.pmm with
    | none => simp [hr] at ha
    | some r =>
      obtain ⟨p', s'⟩ := r
      rw [hr] at ha
      simp only [Prod.mk.injEq, Option.some.injEq] at ha
      obtain ⟨rfl, rfl⟩ := ha
      have hpfn : pfn p' < b.frames.maxPhysPages := by
        simp only [Boot.frames] at hr
        split at hr
        · rename_i page s'' hcall
          simp only [Option.some.injEq, Prod.mk.injEq] at hr
          have := hcounted page ⟨_, 0, true, 4096, page, _, hs, .inl ⟨rfl, rfl⟩, hcall,
            Nat.le_refl _, Nat.lt_add_of_pos_right (by decide)⟩
          have haddr : b.addrOfPage page < 2 ^ 64 := Nat.mod_lt _ (by decide)
          rw [← hr.1, pfn, UInt64.lt_iff_toNat_lt, UInt64.toNat_div, Boot.frames,
            UInt64.toNat_ofNat_of_lt' haddr, UInt64.toNat_ofNat_of_lt' ?_]
          · exact this
          · exact Nat.lt_of_le_of_lt (Nat.div_le_self _ _) htotal
        · simp at hr
      rw [if_pos hpfn]
      exact Boot.release_shared hpfn (setRef_refs_self _ _ _)

/-- 72 usable pages around a hole, as a machine with device memory below 4 GiB has them. -/
def holed : Boot := kmemInit [⟨0x100000, 0x8000, true, by decide⟩, ⟨0x400000, 0x40000, true, by decide⟩]

/-- The first frame handed out is 258, and there are 72 counts. When two address spaces
share it, the first release frees it. -/
theorem frame_without_count :
    let h := (vmmAllocFrame holed.frames ⟨holed.pmm fun _ => true, fun _ => 0, fun _ _ => 0, 0⟩).2
    holed.HandsOut 2 ∧ holed.frame 2 = 258 ∧ holed.vmmMaxPhysPages = 72 ∧
      holed.frames.kind h.pmm 0x102000 = 1 ∧
      holed.frames.kind
        (vmmLeafRelease holed.frames (shareLeaf holed.frames h 0x102000) 0x102000).pmm 0x102000 = -1 ∧
      ¬ holed.FramesCounted := by
  have hcall : (kallocInternal (holed.pmm fun _ => true) 4096 0 true).map Prod.fst =
      some (some 2) := by decide +kernel
  have hout : holed.HandsOut 2 := by
    obtain ⟨⟨r, s'⟩, hr, hfst⟩ := Option.map_eq_some_iff.mp hcall
    cases hfst
    exact ⟨_, 0, true, 4096, 2, s', .boot (fun _ => true) (by decide +kernel) (by decide +kernel),
      .inl ⟨rfl, rfl⟩, hr, Nat.le_refl _, by decide⟩
  refine ⟨hout, by decide +kernel, by decide +kernel, by decide +kernel, by decide +kernel, ?_⟩
  intro h
  exact absurd (h.counted 2 hout) (by decide +kernel)

/-! ### The laws of the frame allocator -/

/-- A machine whose pages serve the page tables: they begin at a page boundary and have addresses
of 52 bits, and those that are open have a reference count and not the address 0. -/
structure Boot.Fit (b : Boot) : Prop where
  aligned : b.stats.lowestAddress % 4096 = 0
  pages : 0 < b.numPages
  addresses : b.stats.lowestAddress + b.numPages * 4096 ≤ 2 ^ 52
  total : b.stats.totalMemoryBytes < 2 ^ 64
  counted : ∀ i < b.numPages, b.Open i → b.addrOfPage i ≠ 0 ∧ b.frame i < b.vmmMaxPhysPages

/-- A state in which the one-page allocations are pages of the map that are taken. -/
structure Boot.Usable (b : Boot) (s : Pmm) : Prop where
  keeps : b.Keeps s
  single : ∀ a, s.entryMap a = 1 → a < b.numPages ∧ s.bits a = true

section Laws
variable {b : Boot} {s s' : Pmm} {p : UInt64}

theorem Boot.Fit.toNat_eq (hfit : b.Fit) (hp : Aligned p) (hi : b.pageOfAddr p < b.numPages) :
    p.toNat = b.addrOfPage (b.pageOfAddr p) := by
  have hmod := hp.mod_eq
  have hlt := p.toNat_lt
  obtain ⟨hlow, -, haddr, -, -⟩ := hfit
  unfold Boot.addrOfPage
  unfold Boot.pageOfAddr sub64 at *
  omega

theorem Boot.Fit.inj (hfit : b.Fit) {q : UInt64} (hp : Aligned p) (hq : Aligned q)
    (hi : b.pageOfAddr p < b.numPages) (heq : b.pageOfAddr q = b.pageOfAddr p) : q = p := by
  apply UInt64.toNat_inj.mp
  rw [hfit.toNat_eq hq (heq ▸ hi), hfit.toNat_eq hp hi, heq]

theorem Boot.Fit.page (hfit : b.Fit) {i : Nat} (hi : i < b.numPages) :
    Aligned (UInt64.ofNat (b.addrOfPage i)) ∧ b.pageOfAddr (UInt64.ofNat (b.addrOfPage i)) = i := by
  obtain ⟨hlow, -, haddr, -, -⟩ := hfit
  have hto : (UInt64.ofNat (b.addrOfPage i)).toNat = b.stats.lowestAddress + i * 4096 := by
    rw [UInt64.toNat_ofNat', Boot.addrOfPage]
    omega
  refine ⟨aligned_of_toNat (by rw [hto]; omega) (by rw [hto]; omega), ?_⟩
  rw [Boot.pageOfAddr, hto, sub64]
  omega

theorem Boot.Usable.live_iff (h : b.Usable s) :
    b.frames.Live s p ↔ Aligned p ∧ s.entryMap (b.pageOfAddr p) = 1 := by
  refine and_congr_right fun _ => ?_
  have hnum := h.keeps.runs.1
  have hsingle := h.single (b.pageOfAddr p)
  unfold Boot.frames
  dsimp only
  split_ifs <;> simp_all
  omega

/-- An allocation takes a clear page of the map. -/
theorem Boot.Usable.alloc (h : b.Usable s) (hfit : b.Fit) (ha : b.frames.alloc s = some (p, s')) :
    b.Usable s' ∧ ∃ i < b.numPages, p = UInt64.ofNat (b.addrOfPage i) ∧ s.entryMap i ≠ 1 ∧
      s'.entryMap = Function.update s.entryMap i 1 := by
  unfold Boot.frames at ha
  dsimp only at ha
  split at ha
  · rename_i i s₁ hcall
    cases ha
    have hcalls : b.Calls 0 true := .inl ⟨rfl, rfl⟩
    have hkeeps := h.keeps.kalloc hcalls hcall
    have hcur := h.keeps.cursor
    have hnum := h.keeps.runs.1
    have hpages := hfit.pages
    obtain ⟨q, rfl, rfl, hlen, -, hclear, hwhere⟩ := kallocInternal_taken hcalls.cursor hcall
    rw [show pagesToAlloc 4096 = 1 from rfl] at *
    have hi : q.startAllocPage < b.numPages := by
      have hfirst : s.firstCursor 0 true = s.allocationCursor := rfl
      omega
    have hbit := hclear q.startAllocPage le_rfl (by omega)
    refine ⟨⟨hkeeps, fun a ha => ?_⟩, _, hi, rfl, fun hone => ?_, ?_⟩
    · by_cases hq : a = q.startAllocPage
      · rw [hq]
        exact ⟨hi, Lib.mark_inside (by omega)⟩
      · have hold := h.single a (by simpa [Pmm.take, hq] using ha)
        exact ⟨hold.1, by simp [Pmm.take, Lib.mark, hold.2]⟩
    · exact absurd (hbit.symm.trans (h.single _ hone).2) (by decide)
    · simp [Pmm.take, hlen]
  · cases ha

theorem Boot.Usable.free (h : b.Usable s) (hl : b.frames.Live s p) :
    b.Usable (b.frames.free s p) ∧
      (b.frames.free s p).entryMap = Function.update s.entryMap (b.pageOfAddr p) 0 := by
  have hone := (h.live_iff.mp hl).2
  have hnum := h.keeps.runs.1
  have hin := (h.single _ hone).1
  have heq : b.frames.free s p = { s with
      bits := Lib.unmark (b.pageOfAddr p) 1 s.bits
      entryMap := Function.update s.entryMap (b.pageOfAddr p) 0
      numPagesAvailable := s.numPagesAvailable + 1 } := by
    show s.kfree _ = _
    rw [Pmm.kfree, hone]
    exact if_neg (by simp; omega)
  refine ⟨⟨h.keeps.kfree _, fun a ha => ?_⟩, by rw [heq]⟩
  rw [heq] at ha ⊢
  by_cases hq : a = b.pageOfAddr p
  · simp [hq] at ha
  · have hold := h.single a (by simpa [hq] using ha)
    exact ⟨hold.1, (Lib.unmark_outside (by omega)).trans hold.2⟩

end Laws

/-- **The page allocator keeps the laws of a frame allocator** on every such machine. -/
def Boot.lawful (b : Boot) (hfit : b.Fit) : Lawful b.frames where
  Inv := b.Usable
  Managed p := b.pageOfAddr p < b.numPages
  live_frame := by
    intro s p hs hl
    obtain ⟨hal, hone⟩ := hs.live_iff.mp hl
    have hin := (hs.single _ hone).1
    obtain ⟨hne, hcount⟩ := hfit.counted _ hin (hs.keeps.entries _ _ le_rfl (by omega))
    have hto := hfit.toNat_eq hal hin
    refine ⟨fun h0 => hne ?_, ?_, hin⟩
    · rw [← hto, h0]
      rfl
    · have htotal := hfit.total
      rw [UInt64.lt_iff_toNat_lt, UInt64.toNat_div, hto]
      refine lt_of_lt_of_eq hcount (UInt64.toNat_ofNat_of_lt' ?_).symm
      exact (Nat.div_le_self _ _).trans_lt htotal
  alloc_inv hs ha := (hs.alloc hfit ha).1
  alloc_fresh := by
    intro s s' p hs ha hl
    obtain ⟨-, i, hi, rfl, hfree, -⟩ := hs.alloc hfit ha
    have hone := (hs.live_iff.mp hl).2
    rw [(hfit.page hi).2] at hone
    exact hfree hone
  alloc_live := by
    intro s s' p hs ha q
    obtain ⟨hs', i, hi, rfl, hfree, hmap⟩ := hs.alloc hfit ha
    obtain ⟨hal, hpage⟩ := hfit.page hi
    rw [hs'.live_iff, hs.live_iff, hmap]
    by_cases hq : b.pageOfAddr q = i
    · constructor
      · exact fun h => .inl (hfit.inj hal h.1 (hpage.symm ▸ hi) (hq.trans hpage.symm))
      · rintro (rfl | h)
        · exact ⟨hal, by rw [hpage, Function.update_self]⟩
        · exact absurd (hq ▸ h.2) hfree
    · have hne : q ≠ UInt64.ofNat (b.addrOfPage i) := fun h => hq (h ▸ hpage)
      simp [hq, hne]
  free_inv hs hl := (hs.free hl).1
  free_live := by
    intro s p hs hl q
    obtain ⟨hs', hmap⟩ := hs.free hl
    obtain ⟨hal, hone⟩ := hs.live_iff.mp hl
    rw [hs'.live_iff, hs.live_iff, hmap]
    by_cases hq : b.pageOfAddr q = b.pageOfAddr p
    · simp only [hq, Function.update_self, Nat.zero_ne_one, and_false, false_iff, not_and]
      exact fun hne hq' => absurd (hfit.inj hal hq' (hs.single _ hone).1 hq) hne
    · have hne : q ≠ p := fun h => hq (h ▸ rfl)
      simp [hq, hne]
  kind_le := by
    intro s p
    unfold Boot.frames
    dsimp only
    split_ifs <;> decide

/-- The state after boot is one of them. -/
theorem Boot.usable_boot {b : Boot} (junk : Nat → Bool) (hbitmap : b.bitmapPlaced = true)
    (hmap : b.entryMapPlaced = true) : b.Usable (b.pmm junk) :=
  ⟨(Boot.Reach.boot junk hbitmap hmap).keeps, fun a ha => by simp [Boot.pmm] at ha⟩

/-- 64 usable pages from address 0 on, of which the two tables take the first two. -/
def flat : Boot := kmemInit [⟨0, 0x40000, true, by decide⟩]

theorem flat_fit : flat.Fit ∧ flat.Usable (flat.pmm fun _ => true) := by
  have hopen : ∀ i < flat.numPages, flat.freed i = true ∨ flat.reserved i = false →
      flat.addrOfPage i ≠ 0 ∧ flat.frame i < flat.vmmMaxPhysPages := by decide +kernel
  exact ⟨⟨rfl, by decide, by decide, by decide, hopen⟩, Boot.usable_boot _ rfl rfl⟩

end InDevOS.Mem
