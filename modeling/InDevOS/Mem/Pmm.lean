import InDevOS.Mem.Frames
import InDevOS.Lib.Runs

/-! The page allocator: `_kalloc_internal` and `kfree` of `mem.c`.

A set bit of the page bitmap marks a page as taken. An allocation walks the bitmap
from a cursor to the end of the map and then once more from its start page, counting
clear bits in a row, and takes the first row that is long enough. `Scanning` is what
the walk knows on its way: the clear bits just passed are exactly the row it is
counting, and no row it has passed was long enough.

`kallocInternal_serves_iff` is the result: the walk finds a run if there is one and
takes only such a run, except that the first bit of each of its two passes is tested
before any bound, wherever it lies and whether or not it can be read. -/
namespace InDevOS.Mem

/-- The allocator's state. `bits` is what the memory at `page_bitmap` holds, also past its end. -/
structure Pmm where
  numPagesInMap : Nat
  maxPagesAvailable : Nat
  bits : Nat → Bool
  /-- `pages_allocated` of each page's entry -/
  entryMap : Nat → Nat
  allocationCursor : Nat
  numPagesAvailable : Nat

/-! ### The source's operations -/

/-- The variables of the allocation loop. -/
structure Search where
  cursor : Nat
  startAllocPage : Nat
  allocatedPages : Nat
  looped : Bool
  allocating : Bool

/-- The bit under the cursor starts, extends or ends the row being counted. -/
def Search.test (bits : Nat → Bool) (q : Search) : Search :=
  if q.allocating = false then
    if bits q.cursor = false then
      { q with startAllocPage := q.cursor, allocating := true, allocatedPages := 1 }
    else q
  else if bits q.cursor = true then { q with allocating := false }
  else { q with allocatedPages := q.allocatedPages + 1 }

/-- The cursor moves on; past the end it starts over once. -/
def Search.advance (numPages resetValue : Nat) (q : Search) : Option Search :=
  if q.cursor + 1 ≥ numPages then
    if q.looped then none
    else some { q with cursor := resetValue, looped := true, allocating := false }
  else some { q with cursor := q.cursor + 1 }

/-- The loop of `_kalloc_internal`, at most `fuel` rounds of it. The outer `none` is a
loop that has not ended, the inner one a loop that gave up. -/
def search (bits : Nat → Bool) (pagesToAlloc numPages resetValue : Nat) :
    Nat → Search → Option (Option Search)
  | 0, _ => none
  | fuel + 1, q =>
    if (q.test bits).allocatedPages = pagesToAlloc then some (some (q.test bits))
    else match (q.test bits).advance numPages resetValue with
      | none => some none
      | some q => search bits pagesToAlloc numPages resetValue fuel q

def pagesToAlloc (numBytes : Nat) : Nat := (numBytes + 4095) / 4096

/-- `SIZE_MAX / 2` -/
def sizeLimit : Nat := (2 ^ 64 - 1) / 2

/-- The checks before the loop. -/
def Pmm.accepts (s : Pmm) (numBytes : Nat) : Bool :=
  numBytes != 0 && decide (numBytes ≤ sizeLimit) && s.maxPagesAvailable != 0 &&
    decide (pagesToAlloc numBytes ≤ s.maxPagesAvailable / 4)

def Pmm.firstCursor (s : Pmm) (startPage : Nat) (useGlobalCursor : Bool) : Nat :=
  if useGlobalCursor then s.allocationCursor else startPage

/-- What a successful search does to the state. -/
def Pmm.take (s : Pmm) (useGlobalCursor : Bool) (q : Search) : Pmm :=
  { s with
    allocationCursor :=
      if useGlobalCursor then if q.cursor + 1 ≥ s.numPagesInMap then 0 else q.cursor + 1
      else s.allocationCursor
    bits := Lib.mark q.startAllocPage q.allocatedPages s.bits
    entryMap := Function.update s.entryMap q.startAllocPage (q.allocatedPages % 2 ^ 32)
    numPagesAvailable := s.numPagesAvailable - q.allocatedPages }

/-- The first page of the allocation, or `none` for NULL. -/
def kallocInternal (s : Pmm) (numBytes startPage : Nat) (useGlobalCursor : Bool) :
    Option (Option Nat × Pmm) :=
  if s.accepts numBytes then
    (search s.bits (pagesToAlloc numBytes) s.numPagesInMap startPage (2 * s.numPagesInMap + 2)
        ⟨s.firstCursor startPage useGlobalCursor, 0, 0, false, false⟩).map fun
      | none => (none, s)
      | some q => (some q.startAllocPage, s.take useGlobalCursor q)
  else some (none, s)

/-- The pages whose bits the allocation loop tests. -/
def searchTests (bits : Nat → Bool) (pagesToAlloc numPages resetValue : Nat) :
    Nat → Search → List Nat
  | 0, _ => []
  | fuel + 1, q =>
    q.cursor :: if (q.test bits).allocatedPages = pagesToAlloc then []
      else match (q.test bits).advance numPages resetValue with
        | none => []
        | some q => searchTests bits pagesToAlloc numPages resetValue fuel q

def kallocTests (s : Pmm) (numBytes startPage : Nat) (useGlobalCursor : Bool) : List Nat :=
  if s.accepts numBytes then
    searchTests s.bits (pagesToAlloc numBytes) s.numPagesInMap startPage (2 * s.numPagesInMap + 2)
      ⟨s.firstCursor startPage useGlobalCursor, 0, 0, false, false⟩
  else []

/-- The call where memory ends `readable` bits after `page_bitmap`: a test beyond that faults, and
the call does not return. -/
def kallocReading (readable : Nat) (s : Pmm) (numBytes startPage : Nat) (useGlobalCursor : Bool) :
    Option (Option Nat × Pmm) :=
  if (kallocTests s numBytes startPage useGlobalCursor).all (· < readable) then
    kallocInternal s numBytes startPage useGlobalCursor
  else none

/-- `kfree` of a page that no slab uses. -/
def Pmm.kfree (s : Pmm) (page : Nat) : Pmm :=
  let n := s.entryMap page
  if page ≥ s.numPagesInMap || n = 0 || page + n > s.numPagesInMap then s
  else
    { s with
      bits := Lib.unmark page n s.bits
      entryMap := Function.update s.entryMap page 0
      numPagesAvailable := s.numPagesAvailable + n }

/-! ### The walk -/

/-- `n` clear bits in a row from `a` on. -/
def Clear (bits : Nat → Bool) (a n : Nat) : Prop := ∀ j, a ≤ j → j < a + n → bits j = false

/-- What the walk knows when it has passed the bits from `first` to the cursor. -/
structure Scanning (bits : Nat → Bool) (n first : Nat) (q : Search) : Prop where
  short : q.allocatedPages < n
  row : q.allocating = true → first ≤ q.startAllocPage ∧
    q.startAllocPage + q.allocatedPages = q.cursor ∧ Clear bits q.startAllocPage q.allocatedPages
  /-- The clear bits up to the cursor belong to the row. -/
  longest : ∀ a k, first ≤ a → 0 < k → a + k = q.cursor → Clear bits a k →
    q.allocating = true ∧ q.startAllocPage ≤ a
  passed : ∀ a, first ≤ a → a + n ≤ q.cursor → ¬ Clear bits a n

/-- The row the walk has found. -/
structure Found (bits : Nat → Bool) (n first last : Nat) (q : Search) : Prop where
  length : q.allocatedPages = n
  above : first ≤ q.startAllocPage
  below : q.startAllocPage + n ≤ last
  clear : Clear bits q.startAllocPage n

theorem Found.mono {bits : Nat → Bool} {n first last last' : Nat} {q : Search} (h : Found bits n first last q)
    (hle : last ≤ last') : Found bits n first last' q := { h with below := h.below.trans hle }

section Walk
variable {bits : Nat → Bool} {n first : Nat} {q : Search}

theorem Clear.snoc {a k : Nat} (h : Clear bits a k) (hb : bits (a + k) = false) :
    Clear bits a (k + 1) := by
  intro j hlo hhi
  by_cases hj : j = a + k
  · rw [hj]
    exact hb
  · exact h j hlo (by omega)

theorem Clear.init {a k : Nat} (h : Clear bits a (k + 1)) : Clear bits a k :=
  fun j hlo hhi => h j hlo (by omega)

theorem Scanning.start (hq : q.allocatedPages < n) (ha : q.allocating = false) :
    Scanning bits n q.cursor q where
  short := hq
  row h := by simp [ha] at h
  longest a k hlo hk hcur := by omega
  passed a hlo hhi := by omega

/-- After a test either the row is complete or the walk knows one bit more. -/
theorem Scanning.test (h : Scanning bits n first q) (hf : first ≤ q.cursor) :
    Found bits n first (q.cursor + 1) (q.test bits) ∨
      (q.test bits).allocatedPages ≠ n ∧
        Scanning bits n first { q.test bits with cursor := q.cursor + 1 } := by
  -- the part that does not depend on the case: a row that is as long as it can be
  have finish : ∀ q' : Search, q'.allocatedPages ≤ n →
      (q'.allocating = true → first ≤ q'.startAllocPage ∧
        q'.startAllocPage + q'.allocatedPages = q.cursor + 1 ∧
        Clear bits q'.startAllocPage q'.allocatedPages) →
      (q'.allocatedPages = n → q'.allocating = true) →
      (∀ a k, first ≤ a → 0 < k → a + k = q.cursor + 1 → Clear bits a k →
        q'.allocating = true ∧ q'.startAllocPage ≤ a) →
      Found bits n first (q.cursor + 1) q' ∨
        q'.allocatedPages ≠ n ∧ Scanning bits n first { q' with cursor := q.cursor + 1 } := by
    intro q' hle hrow hfull hlong
    by_cases hn : q'.allocatedPages = n
    · obtain ⟨h₁, h₂, h₃⟩ := hrow (hfull hn)
      rw [hn] at h₂ h₃
      exact .inl ⟨hn, h₁, by omega, h₃⟩
    · refine .inr ⟨hn, by dsimp only; omega, hrow, hlong, fun a hlo hhi hclear => ?_⟩
      dsimp only at hhi
      by_cases hlast : a + n = q.cursor + 1
      · obtain ⟨hal, hs⟩ := hlong a n hlo (by have := h.short; omega) hlast hclear
        have := (hrow hal).2.1
        omega
      · exact h.passed a hlo (by omega) hclear
  obtain ha | ha := Bool.eq_false_or_eq_true q.allocating <;>
    obtain hb | hb := Bool.eq_false_or_eq_true (bits q.cursor)
  · -- the row ends at a taken page
    rw [show q.test bits = { q with allocating := false } by simp [Search.test, ha, hb]]
    refine finish _ (Nat.le_of_lt h.short) (fun hal => by simp at hal)
      (fun hn => absurd hn (Nat.ne_of_lt h.short)) (fun a k hlo hk hcur hclear => ?_)
    have := hclear q.cursor (by omega) (by omega)
    simp [hb] at this
  · -- the row goes on
    obtain ⟨h₁, h₂, h₃⟩ := h.row ha
    rw [show q.test bits = { q with allocatedPages := q.allocatedPages + 1 } by
      simp [Search.test, ha, hb]]
    refine finish _ h.short (fun _ => ⟨h₁, by dsimp only; omega, h₃.snoc (h₂ ▸ hb)⟩) (fun _ => ha)
      (fun a k hlo hk hcur hclear => ⟨ha, ?_⟩)
    obtain ⟨k, rfl⟩ := Nat.exists_eq_succ_of_ne_zero (by omega : k ≠ 0)
    dsimp only
    by_cases hk0 : k = 0
    · omega
    · exact (h.longest a k hlo (by omega) (by omega) hclear.init).2
  · -- still looking
    rw [show q.test bits = q by simp [Search.test, ha, hb]]
    refine finish q (Nat.le_of_lt h.short) (fun hal => by simp [ha] at hal)
      (fun hn => absurd hn (Nat.ne_of_lt h.short)) (fun a k hlo hk hcur hclear => ?_)
    have := hclear q.cursor (by omega) (by omega)
    simp [hb] at this
  · -- a new row starts
    rw [show q.test bits =
        { q with startAllocPage := q.cursor, allocating := true, allocatedPages := 1 } by
      simp [Search.test, ha, hb]]
    refine finish _ (Nat.lt_of_le_of_lt (Nat.zero_le _) h.short)
      (fun _ => ⟨hf, rfl, Clear.snoc (k := 0) (fun j hlo hhi => absurd hhi (Nat.not_lt.mpr hlo)) hb⟩)
      (fun _ => rfl) (fun a k hlo hk hcur hclear => ⟨rfl, ?_⟩)
    obtain ⟨k, rfl⟩ := Nat.exists_eq_succ_of_ne_zero (by omega : k ≠ 0)
    dsimp only
    by_contra hlt
    have := (h.longest a k hlo (by omega) (by omega) hclear.init).1
    simp [ha] at this

@[simp] theorem test_cursor : (q.test bits).cursor = q.cursor := by
  unfold Search.test
  split <;> split <;> rfl

@[simp] theorem test_looped : (q.test bits).looped = q.looped := by
  unfold Search.test
  split <;> split <;> rfl

/-- The end of a pass: the walk gives up, or starts over with nothing counted. -/
def PassEnds (bits : Nat → Bool) (n num reset f fuel : Nat) (q : Search) : Prop :=
  q.looped = true ∧ search bits n num reset fuel q = some none ∨
    q.looped = false ∧ ∃ q', q'.cursor = reset ∧ q'.looped = true ∧ q'.allocating = false ∧
      q'.allocatedPages < n ∧ search bits n num reset fuel q = search bits n num reset f q'

theorem search_end (num reset f : Nat) (hlt : (q.test bits).allocatedPages < n) (hend : num ≤ q.cursor + 1) :
    PassEnds bits n num reset f (f + 1) q := by
  rw [← (test_cursor : (q.test bits).cursor = q.cursor)] at hend
  rw [PassEnds, search, if_neg (Nat.ne_of_lt hlt), Search.advance, if_pos hend, test_looped]
  cases q.looped
  · exact .inr ⟨rfl, { q.test bits with cursor := reset, looped := true, allocating := false },
      rfl, rfl, rfl, hlt, rfl⟩
  · exact .inl ⟨rfl, rfl⟩

theorem search_found (num reset f : Nat) (h : (q.test bits).allocatedPages = n) :
    search bits n num reset (f + 1) q = some (some (q.test bits)) := by
  rw [search, if_pos h]

/-- A pass from the cursor to the end of the map: a row is found, or there is none. -/
theorem search_pass (num reset k f : Nat) (h : Scanning bits n first q) (hf : first ≤ q.cursor)
    (hk : q.cursor + k + 1 = num) :
    (∃ q', search bits n num reset (f + k + 1) q = some (some q') ∧ Found bits n first num q') ∨
      (∀ a, first ≤ a → a + n ≤ num → ¬ Clear bits a n) ∧
        PassEnds bits n num reset f (f + k + 1) q := by
  induction k generalizing q with
  | zero =>
    obtain hfound | ⟨-, hscan⟩ := h.test hf
    · exact .inl ⟨_, search_found num reset _ hfound.length, hfound.mono (by omega)⟩
    · refine .inr ⟨fun a hlo hhi => hscan.passed a hlo (by dsimp only; omega), ?_⟩
      exact search_end num reset f hscan.short (by omega)
  | succ k ih =>
    obtain hfound | ⟨hne, hscan⟩ := h.test hf
    · exact .inl ⟨_, search_found num reset _ hfound.length, hfound.mono (by omega)⟩
    · have hstep : search bits n num reset (f + (k + 1) + 1) q =
          search bits n num reset (f + k + 1) { q.test bits with cursor := q.cursor + 1 } := by
        rw [search, if_neg hne, Search.advance, if_neg (by rw [test_cursor]; omega), test_cursor]
        rfl
      have hrest := ih hscan (by dsimp only; omega) (by dsimp only; omega)
      rw [PassEnds, test_looped] at hrest
      rw [PassEnds, hstep]
      exact hrest

/-- A pass whose first bit lies outside the map ends with that bit. -/
theorem search_outside (num reset f : Nat) (hq : q.allocatedPages < n) (ha : q.allocating = false)
    (hout : num ≤ q.cursor) :
    (bits q.cursor = false ∧ n = 1 ∧ ∃ q', search bits n num reset (f + 1) q = some (some q') ∧
        q'.startAllocPage = q.cursor ∧ q'.allocatedPages = n) ∨
      (1 < n ∨ bits q.cursor = true) ∧ PassEnds bits n num reset f (f + 1) q := by
  cases hb : bits q.cursor
  · have htest : q.test bits =
        { q with startAllocPage := q.cursor, allocating := true, allocatedPages := 1 } := by
      simp [Search.test, ha, hb]
    by_cases h1 : n = 1
    · exact .inl ⟨rfl, h1, _, search_found num reset f (by rw [htest, h1]), by rw [htest],
        by rw [htest, h1]⟩
    · refine .inr ⟨.inl (by omega), search_end num reset f ?_ (by omega)⟩
      rw [htest]
      dsimp only
      omega
  · have htest : q.test bits = q := by simp [Search.test, ha, hb]
    exact .inr ⟨.inr rfl, search_end num reset f (by rw [htest]; exact hq) (by omega)⟩

end Walk

/-! ### What an allocation returns -/

/-- The run of `n` pages from `a` on is free and lies in the map, at or above `start`. -/
def Pmm.Fits (s : Pmm) (start n a : Nat) : Prop :=
  start ≤ a ∧ a + n ≤ s.numPagesInMap ∧ Clear s.bits a n

/-- A pass may begin at `p`: its first test is inside the map or cannot complete a run. -/
def Pmm.Starts (s : Pmm) (n p : Nat) : Prop := p < s.numPagesInMap ∨ 1 < n ∨ s.bits p = true

/-- The value of the call once its loop is known. -/
def Pmm.result (s : Pmm) (useGlobalCursor : Bool) : Option Search → Option Nat × Pmm
  | none => (none, s)
  | some q => (some q.startAllocPage, s.take useGlobalCursor q)

/-- The loop ends as it should: with a run that fits, or there is none. -/
def Pmm.Ends (s : Pmm) (start n : Nat) : Option Search → Prop
  | none => ∀ a, ¬ s.Fits start n a
  | some q => q.allocatedPages = n ∧ s.Fits start n q.startAllocPage

/-- The loop ends with the page outside the map that a pass began with. -/
def Pmm.Strays (s : Pmm) (n p : Nat) (r : Option Search) : Prop :=
  ¬ s.Starts n p ∧ ∃ q, r = some q ∧ q.startAllocPage = p ∧ q.allocatedPages = n

section Calls
variable {s : Pmm} {n start : Nat}

theorem Pmm.second_pass {q : Search} {f : Nat} (hf : s.numPagesInMap < f) (hc : q.cursor = start)
    (hl : q.looped = true) (ha : q.allocating = false) (hq : q.allocatedPages < n) :
    ∃ r, search s.bits n s.numPagesInMap start f q = some r ∧
      (s.Starts n start ∧ s.Ends start n r ∨ s.Strays n start r) := by
  by_cases hin : start < s.numPagesInMap
  · obtain ⟨f', rfl⟩ : ∃ f', f = f' + (s.numPagesInMap - start - 1) + 1 :=
      ⟨f - (s.numPagesInMap - start), by omega⟩
    have hscan : Scanning s.bits n start q := hc ▸ Scanning.start hq ha
    obtain ⟨q', hs, hfound⟩ | ⟨hnone, ⟨-, hs⟩ | ⟨hl', -⟩⟩ :=
      search_pass s.numPagesInMap start (s.numPagesInMap - start - 1) f' hscan (by omega) (by omega)
    · exact ⟨some q', hs, .inl ⟨.inl hin, hfound.length, hfound.above, hfound.below, hfound.clear⟩⟩
    · exact ⟨none, hs, .inl ⟨.inl hin, fun a h => hnone a h.1 h.2.1 h.2.2⟩⟩
    · simp [hl] at hl'
  · obtain ⟨f', rfl⟩ : ∃ f', f = f' + 1 := ⟨f - 1, by omega⟩
    obtain ⟨hb, h1, q', hs, hstart, hlen⟩ | ⟨hok, ⟨-, hs⟩ | ⟨hl', -⟩⟩ :=
      search_outside s.numPagesInMap start f' hq ha (by omega)
    · refine ⟨some q', hs, .inr ⟨?_, q', rfl, hstart.trans hc, hlen⟩⟩
      rw [hc] at hb
      simp [Pmm.Starts, hb, h1, hin]
    · refine ⟨none, hs, .inl ⟨.inr (hc ▸ hok), fun a h => ?_⟩⟩
      have := h.2.1
      have := h.1
      omega
    · simp [hl] at hl'

theorem pagesToAlloc_pos {numBytes : Nat} (hlim : s.accepts numBytes = true) :
    0 < pagesToAlloc numBytes := by
  simp only [Pmm.accepts, Bool.and_eq_true, bne_iff_ne] at hlim
  unfold pagesToAlloc
  omega

theorem kallocInternal_ends {numBytes : Nat} (g : Bool) (hlim : s.accepts numBytes = true)
    (hcur : start ≤ s.firstCursor start g) :
    ∃ r, kallocInternal s numBytes start g = some (s.result g r) ∧
      (s.Starts (pagesToAlloc numBytes) (s.firstCursor start g) ∧
          s.Starts (pagesToAlloc numBytes) start ∧ s.Ends start (pagesToAlloc numBytes) r ∨
        s.Strays (pagesToAlloc numBytes) (s.firstCursor start g) r ∨
        s.Strays (pagesToAlloc numBytes) start r) := by
  have hcall : kallocInternal s numBytes start g = (search s.bits (pagesToAlloc numBytes)
      s.numPagesInMap start (2 * s.numPagesInMap + 2)
      ⟨s.firstCursor start g, 0, 0, false, false⟩).map (s.result g) := by
    rw [kallocInternal, if_pos hlim]
    congr 1
  have hn := pagesToAlloc_pos hlim
  rw [hcall]
  generalize pagesToAlloc numBytes = n at hn
  generalize hc : s.firstCursor start g = c at hcur
  by_cases hin : c < s.numPagesInMap
  · -- the first pass is inside the map
    have hfuel : 2 * s.numPagesInMap + 2 =
        (s.numPagesInMap + c + 2) + (s.numPagesInMap - c - 1) + 1 := by omega
    have hscan : Scanning s.bits n c ⟨c, 0, 0, false, false⟩ :=
      Scanning.start (q := ⟨c, 0, 0, false, false⟩) hn rfl
    rw [hfuel]
    obtain ⟨q, hs, hfound⟩ | ⟨hnone, ⟨hl, -⟩ | ⟨-, q, h₁, h₂, h₃, h₄, hs⟩⟩ :=
      search_pass s.numPagesInMap start (s.numPagesInMap - c - 1) (s.numPagesInMap + c + 2) hscan
        (Nat.le_refl c) (by dsimp only; omega)
    · refine ⟨some q, by rw [hs]; rfl, .inl ⟨.inl hin, .inl (by omega), hfound.length, ?_⟩⟩
      exact ⟨hcur.trans hfound.above, hfound.below, hfound.clear⟩
    · exact absurd hl Bool.false_ne_true
    · obtain ⟨r, hr, hends⟩ := Pmm.second_pass (s := s) (f := s.numPagesInMap + c + 2)
        (by omega) h₁ h₂ h₃ h₄
      exact ⟨r, by rw [hs, hr]; rfl, hends.imp (fun h => ⟨.inl hin, h⟩) .inr⟩
  · obtain ⟨(hb : s.bits c = false), h1, q, hs, hstart, hlen⟩ |
        ⟨hok, ⟨hl, -⟩ | ⟨-, q, h₁, h₂, h₃, h₄, hs⟩⟩ :=
      search_outside (q := ⟨c, 0, 0, false, false⟩) s.numPagesInMap start
        (2 * s.numPagesInMap + 1) hn rfl (Nat.le_of_not_lt hin)
    · refine ⟨some q, by rw [hs]; rfl, .inr (.inl ⟨?_, q, rfl, hstart, hlen⟩)⟩
      simp [Pmm.Starts, hb, h1, hin]
    · exact absurd hl Bool.false_ne_true
    · obtain ⟨r, hr, hends⟩ := Pmm.second_pass (s := s) (f := 2 * s.numPagesInMap + 1)
        (by omega) h₁ h₂ h₃ h₄
      exact ⟨r, by rw [hs, hr]; rfl, hends.imp (fun h => ⟨.inr hok, h⟩) .inr⟩

theorem kallocInternal_taken {numBytes page : Nat} {g : Bool} {s' : Pmm}
    (hcur : start ≤ s.firstCursor start g)
    (h : kallocInternal s numBytes start g = some (some page, s')) :
    ∃ q, page = q.startAllocPage ∧ s' = s.take g q ∧ q.allocatedPages = pagesToAlloc numBytes ∧
      s.accepts numBytes = true ∧ Clear s.bits page (pagesToAlloc numBytes) ∧
      (start ≤ page ∧ page + pagesToAlloc numBytes ≤ s.numPagesInMap ∨
        s.numPagesInMap ≤ page ∧ pagesToAlloc numBytes = 1 ∧
          (page = s.firstCursor start g ∨ page = start)) := by
  by_cases hacc : s.accepts numBytes = true
  · have hn := pagesToAlloc_pos hacc
    obtain ⟨r, hr, hends⟩ := kallocInternal_ends g hacc hcur
    rw [h] at hr
    cases r with
    | none => simp [Pmm.result] at hr
    | some q =>
      obtain ⟨rfl, rfl⟩ := hr
      have stray : ∀ p, s.Strays (pagesToAlloc numBytes) p (some q) → q.startAllocPage = p ∧
          q.allocatedPages = pagesToAlloc numBytes ∧ s.numPagesInMap ≤ p ∧
          pagesToAlloc numBytes = 1 ∧ Clear s.bits p (pagesToAlloc numBytes) := by
        rintro p ⟨hstarts, q', hq, hp, hlen⟩
        cases hq
        simp only [Pmm.Starts, not_or, Nat.not_lt, Bool.not_eq_true] at hstarts
        have h1 : pagesToAlloc numBytes = 1 := by omega
        refine ⟨hp, hlen, hstarts.1, h1, fun j hlo hhi => ?_⟩
        rw [show j = p by omega]
        exact hstarts.2.2
      obtain ⟨-, -, hlen, hlo, hhi, hclear⟩ | hs | hs := hends
      · exact ⟨q, rfl, rfl, hlen, hacc, hclear, .inl ⟨hlo, hhi⟩⟩
      · obtain ⟨hp, hlen, hout, h1, hclear⟩ := stray _ hs
        exact ⟨q, rfl, rfl, hlen, hacc, hp ▸ hclear, .inr ⟨hp ▸ hout, h1, .inl hp⟩⟩
      · obtain ⟨hp, hlen, hout, h1, hclear⟩ := stray _ hs
        exact ⟨q, rfl, rfl, hlen, hacc, hp ▸ hclear, .inr ⟨hp ▸ hout, h1, .inr hp⟩⟩
  · rw [kallocInternal, if_neg hacc] at h
    simp at h

end Calls

/-- The call returns; NULL if no run fits, and otherwise with one that fits marked. -/
def Pmm.Serves (s : Pmm) (start n : Nat) (r : Option (Option Nat × Pmm)) : Prop :=
  r = some (none, s) ∧ (∀ a, ¬ s.Fits start n a) ∨
    ∃ a s', r = some (some a, s') ∧ s.Fits start n a ∧ s'.bits = Lib.mark a n s.bits

theorem Pmm.Ends.serves {s : Pmm} {start n : Nat} {g : Bool} {r : Option Search}
    (h : s.Ends start n r) : s.Serves start n (some (s.result g r)) := by
  cases r with
  | none => exact .inl ⟨rfl, h⟩
  | some q => exact .inr ⟨_, _, rfl, h.2, by rw [← h.1]; rfl⟩

theorem Pmm.Strays.not_serves {s : Pmm} {start n p : Nat} {g : Bool} {r : Option Search}
    (h : s.Strays n p r) (hn : 0 < n) : ¬ s.Serves start n (some (s.result g r)) := by
  obtain ⟨hstarts, q, rfl, hq, -⟩ := h
  rintro (⟨h', -⟩ | ⟨a, s', h', ⟨-, hin, -⟩, -⟩)
  · simp [Pmm.result] at h'
  · simp only [Pmm.result, Option.some.injEq, Prod.mk.injEq] at h'
    exact hstarts (.inl (by omega))

section Reading
variable {s : Pmm} {numBytes start : Nat} {g : Bool}

theorem kallocInternal_serves (hlim : s.accepts numBytes = true) (hcur : start ≤ s.firstCursor start g) :
    s.Serves start (pagesToAlloc numBytes) (kallocInternal s numBytes start g) ↔
      s.Starts (pagesToAlloc numBytes) (s.firstCursor start g) ∧
        s.Starts (pagesToAlloc numBytes) start := by
  have hn := pagesToAlloc_pos hlim
  obtain ⟨r, hr, ⟨h₁, h₂, hends⟩ | hstray | hstray⟩ := kallocInternal_ends g hlim hcur
  · rw [hr]
    exact iff_of_true hends.serves ⟨h₁, h₂⟩
  · rw [hr]
    exact iff_of_false (hstray.not_serves hn) fun h => hstray.1 h.1
  · rw [hr]
    exact iff_of_false (hstray.not_serves hn) fun h => hstray.1 h.2

theorem mem_searchTests {bits : Nat → Bool} {n num reset fuel : Nat} {q : Search} {i : Nat}
    (h : i ∈ searchTests bits n num reset fuel q) : i < num ∨ i = reset ∨ i = q.cursor := by
  induction fuel generalizing q with
  | zero => simp [searchTests] at h
  | succ fuel ih =>
    rw [searchTests, List.mem_cons] at h
    obtain rfl | h := h
    · exact .inr (.inr rfl)
    split_ifs at h
    · simp at h
    · unfold Search.advance at h
      split_ifs at h with hend hlooped
      · simp at h
      · exact (ih h).imp_right fun h => .inl (h.elim id id)
      · have := ih h
        simp only [test_cursor] at this hend
        omega

theorem mem_kallocTests {i : Nat} (h : i ∈ kallocTests s numBytes start g) :
    i < s.numPagesInMap ∨ i = start ∨ i = s.firstCursor start g := by
  unfold kallocTests at h
  split_ifs at h
  · exact mem_searchTests h
  · simp at h

/-- A pass may begin at `p`: its first test is inside the map, or can be read and cannot complete a
run. -/
def Pmm.Begins (s : Pmm) (readable n p : Nat) : Prop :=
  p < s.numPagesInMap ∨ p < readable ∧ (1 < n ∨ s.bits p = true)

theorem Pmm.begins_iff {readable n p : Nat} (hp : p < readable) : s.Begins readable n p ↔ s.Starts n p := by
  simp [Pmm.Begins, Pmm.Starts, hp]

/-- **`_kalloc_internal` serves a request within its limits exactly when both of its
passes begin with a test that does not fault and cannot hand out a page outside the map.** The
bits of the map can be read. The cursor is any position from the start page on: the callers
pass 0, or no global cursor. -/
theorem kallocInternal_serves_iff (readable : Nat) (s : Pmm) (numBytes start : Nat) (g : Bool)
    (hread : s.numPagesInMap ≤ readable) (hlim : s.accepts numBytes = true)
    (hcur : start ≤ s.firstCursor start g) :
    s.Serves start (pagesToAlloc numBytes) (kallocReading readable s numBytes start g) ↔
      s.Begins readable (pagesToAlloc numBytes) (s.firstCursor start g) ∧
        s.Begins readable (pagesToAlloc numBytes) start := by
  by_cases hfirst : s.firstCursor start g < readable
  · -- every test can be read
    have hall : (kallocTests s numBytes start g).all (· < readable) = true := by
      simp only [List.all_eq_true, decide_eq_true_eq]
      intro i hi
      have := mem_kallocTests hi
      omega
    rw [kallocReading, if_pos hall, kallocInternal_serves hlim hcur, Pmm.begins_iff hfirst,
      Pmm.begins_iff (by omega)]
  · have hmem : s.firstCursor start g ∈ kallocTests s numBytes start g := by
      rw [kallocTests, if_pos hlim, searchTests]
      exact List.mem_cons_self
    have hnot : ¬ (kallocTests s numBytes start g).all (· < readable) = true := fun hall =>
      hfirst (by simpa using List.all_eq_true.mp hall _ hmem)
    rw [kallocReading, if_neg hnot]
    refine iff_of_false (by simp [Pmm.Serves]) fun h => ?_
    obtain hin | ⟨hin, -⟩ := h.1 <;> omega

end Reading

/-- Pages 1 and 2 of four are free, and the cursor is past them. -/
theorem kallocInternal_serves_behind_cursor :
    let s : Pmm := ⟨4, 8, fun i => i != 1 && i != 2, fun _ => 0, 3, 2⟩
    s.accepts 8192 = true ∧ s.Serves 0 2 (kallocReading 8 s 8192 0 true) :=
  ⟨by decide, (kallocInternal_serves_iff 8 _ 8192 0 true (by decide) (by decide) (Nat.zero_le _)).mpr
    ⟨.inl (by decide), .inl (by decide)⟩⟩

/-- Every page of the map is taken, and the four other bits of its byte are clear. -/
def crowded : Pmm := ⟨4, 4, fun i => decide (i < 4), fun _ => 0, 0, 0⟩

/-- With four pages from 0xFB000 on, the start page of `kalloc_high` is 5, behind the map. The
bit there is in the same byte; it is clear and the page is handed out. -/
theorem kallocInternal_outside_map : (0x100000 - 0xFB000) / 4096 = 5 ∧ crowded.accepts 4096 = true ∧
    (kallocReading 8 crowded 4096 5 false).map Prod.fst = some (some 5) ∧
    ¬ crowded.Serves 5 1 (kallocReading 8 crowded 4096 5 false) := by
  have hcall : (kallocReading 8 crowded 4096 5 false).map Prod.fst = some (some 5) := by decide +kernel
  refine ⟨by decide, by decide, hcall, ?_⟩
  rintro (⟨h, -⟩ | ⟨a, s', h, ⟨hlo, hhi, -⟩, -⟩)
  · rw [h] at hcall
    simp at hcall
  · exact absurd (hlo.trans ((Nat.le_add_right a 1).trans hhi)) (by decide)

end InDevOS.Mem
