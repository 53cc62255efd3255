import InDevOS.Lib.Steps

/-! The records of shared file mappings (`mmap_shared.c`).

A record says that pages of an address space show pages of a file. `shmf_map` adds a
record, `shmf_range` with `unmap` cuts a range out of all records of an address space,
dropping, shortening and splitting them, and `shmf_as_destroy` drops an address space's
records. The reference is a map from address space and page to file and offset.

`records_refine` says that the records are that map after every run whose new mappings do
not lie over pages that are described already: `shmf_map` itself does not look. -/
namespace InDevOS.Mem.SharedFile
open Lib List

structure Rec where
  pml4 : Nat
  va : Nat
  len : Nat
  foff : Nat
  writable : Bool
  path : String

structure State where
  list : List Rec
  count : Int32

/-! ### The source's operations -/

/-- `x & ~0xFFF` -/
def pageFloor (x : Nat) : Nat := x / 4096 * 4096

/-- `(x + 0xFFF) & ~0xFFF`, on 64 bits -/
def pageCeil (x : Nat) : Nat := pageFloor ((x + 0xFFF) % 2 ^ 64)

def Rec.stop (r : Rec) : Nat := (r.va + r.len) % 2 ^ 64

def shmfMap (s : State) (pml4 va len : Nat) (path : String) (foff : Nat) (writable : Bool) : State :=
  { list := ⟨pml4, va, pageCeil len, foff, writable, path⟩ :: s.list, count := s.count + 1 }

/-- What the walk of `shmf_range` leaves of a record when it unmaps `[a, b)`. The second
half of a split record starts at `b`, so that the walk, which meets it next, keeps it. -/
def trim (pml4 a b : Nat) (r : Rec) : List Rec :=
  if r.pml4 ≠ pml4 ∨ b ≤ r.va ∨ a ≥ r.stop then [r]
  else if a ≤ r.va ∧ b ≥ r.stop then []
  else if a > r.va ∧ b < r.stop then
    [{ r with len := a - r.va },
      { r with va := b, len := r.stop - b, foff := (r.foff + (b - r.va)) % 2 ^ 64 }]
  else if a ≤ r.va then
    [{ r with foff := (r.foff + (b - r.va)) % 2 ^ 64, len := r.stop - b, va := b }]
  else [{ r with len := a - r.va }]

/-- The walk: a dropped record lowers the count, a split one raises it. -/
def rangeLoop (pml4 a b : Nat) : List Rec → Int32 → State
  | [], n => ⟨[], n⟩
  | r :: l, n =>
    let kept := trim pml4 a b r
    let rest := rangeLoop pml4 a b l (n + .ofNat kept.length - 1)
    ⟨kept ++ rest.list, rest.count⟩

def shmfRange (s : State) (pml4 va len : Nat) (unmap : Bool) : State :=
  if s.count = 0 ∨ pml4 = 0 ∨ unmap = false then s
  else rangeLoop pml4 (pageFloor va) (pageCeil ((va + len) % 2 ^ 64)) s.list s.count

def destroyLoop (pml4 : Nat) : List Rec → Int32 → State
  | [], n => ⟨[], n⟩
  | r :: l, n =>
    if r.pml4 ≠ pml4 then
      let rest := destroyLoop pml4 l n
      ⟨r :: rest.list, rest.count⟩
    else destroyLoop pml4 l (n - 1)

def shmfAsDestroy (s : State) (pml4 : Nat) : State :=
  if s.count = 0 ∨ pml4 = 0 then s else destroyLoop pml4 s.list s.count

inductive Op
  | map (pml4 va len : Nat) (path : String) (foff : Nat) (writable : Bool)
  | range (pml4 va len : Nat) (unmap : Bool)
  | asDestroy (pml4 : Nat)

def step (s : State) : Op → State
  | .map pml4 va len path foff writable => shmfMap s pml4 va len path foff writable
  | .range pml4 va len unmap => shmfRange s pml4 va len unmap
  | .asDestroy pml4 => shmfAsDestroy s pml4

def init : State := ⟨[], 0⟩

/-! ### The reference -/

/-- File and offset that an address space's page shows. -/
abbrev Ref := Nat → Nat → Option (String × Nat)

def refStep (m : Ref) : Op → Ref
  | .map pml4 va len path foff _ => fun space page =>
    if space = pml4 ∧ va ≤ page ∧ page < va + len then some (path, (foff + (page - va)) % 2 ^ 64)
    else m space page
  | .range pml4 va len unmap => fun space page =>
    if unmap = true ∧ space = pml4 ∧ va < page + 4096 ∧ page < va + len then none else m space page
  | .asDestroy pml4 => fun space page => if space = pml4 then none else m space page

/-- What a record says about a page. -/
def Rec.shows (r : Rec) (space page : Nat) : Option (String × Nat) :=
  if r.pml4 = space ∧ r.va ≤ page ∧ page < r.va + r.len then
    some (r.path, (r.foff + (page - r.va)) % 2 ^ 64)
  else none

/-- Both records say something about some page. -/
def Rec.Clash (r r' : Rec) : Prop :=
  ∃ space page, page % 4096 = 0 ∧ r.shows space page ≠ none ∧ r'.shows space page ≠ none

structure Rec.Ok (r : Rec) : Prop where
  space : r.pml4 ≠ 0
  va : r.va % 4096 = 0
  len : r.len % 4096 = 0
  stop : r.va + r.len < 2 ^ 64

/-- The records are the reference map, no page is described twice, and the count is right. -/
structure Refines (s : State) (m : Ref) : Prop where
  ok : ∀ r ∈ s.list, r.Ok
  relation : ∀ space page x, page % 4096 = 0 →
    ((∃ r ∈ s.list, r.shows space page = some x) ↔ m space page = some x)
  once : s.list.Pairwise fun r r' => ¬ r.Clash r'
  count : s.count.toInt = s.list.length

/-! ### The walks -/

theorem rangeLoop_eq (pml4 a b : Nat) (l : List Rec) (n : Int32) :
    rangeLoop pml4 a b l n =
      ⟨l.flatMap (trim pml4 a b), n + .ofNat (l.flatMap (trim pml4 a b)).length - .ofNat l.length⟩ := by
  induction l generalizing n with
  | nil => simp [rangeLoop]
  | cons r l ih =>
    simp only [rangeLoop, ih, flatMap_cons, length_append, length_cons, Int32.ofNat_add,
      State.mk.injEq, true_and]
    grind

theorem destroyLoop_eq (pml4 : Nat) (l : List Rec) (n : Int32) :
    destroyLoop pml4 l n = ⟨l.filter fun r => decide (r.pml4 ≠ pml4),
      n + .ofNat (l.filter fun r => decide (r.pml4 ≠ pml4)).length - .ofNat l.length⟩ := by
  induction l generalizing n with
  | nil => simp [destroyLoop]
  | cons r l ih =>
    by_cases hr : r.pml4 ≠ pml4
    · simp only [destroyLoop, if_pos hr, ih, filter_cons, decide_eq_true hr, if_true,
        length_cons, Int32.ofNat_add, State.mk.injEq, true_and]
      grind
    · simp only [destroyLoop, if_neg hr, ih, filter_cons, decide_eq_false hr,
        Bool.false_eq_true, if_false, length_cons, Int32.ofNat_add, State.mk.injEq, true_and]
      grind

section Trim
variable {pml4 a b : Nat} {r r' : Rec}

theorem Rec.Ok.stop_eq (h : r.Ok) : r.stop = r.va + r.len := Nat.mod_eq_of_lt h.stop

theorem Rec.Ok.trim (h : r.Ok) (ha : a % 4096 = 0) (hb : b % 4096 = 0)
    (hr : r' ∈ trim pml4 a b r) : r'.Ok := by
  obtain ⟨h₁, h₂, h₃, h₄⟩ := h
  rw [SharedFile.trim, Rec.Ok.stop_eq ⟨h₁, h₂, h₃, h₄⟩] at hr
  split_ifs at hr with hout hall hmid hhead
  · obtain rfl := mem_singleton.mp hr
    exact ⟨h₁, h₂, h₃, h₄⟩
  · simp at hr
  · simp only [mem_cons, not_mem_nil, or_false] at hr
    obtain rfl | rfl := hr
    · exact ⟨h₁, h₂, by dsimp only; omega, by dsimp only; omega⟩
    · exact ⟨h₁, hb, by dsimp only; omega, by dsimp only; omega⟩
  · obtain rfl := mem_singleton.mp hr
    exact ⟨h₁, hb, by dsimp only; omega, by dsimp only; omega⟩
  · obtain rfl := mem_singleton.mp hr
    exact ⟨h₁, h₂, by dsimp only; omega, by dsimp only; omega⟩

section
variable {space page : Nat} {x : String × Nat}

theorem Rec.shows_iff : r.shows space page = some x ↔ (r.pml4 = space ∧ r.va ≤ page ∧ page < r.va + r.len) ∧
      (r.path, (r.foff + (page - r.va)) % 2 ^ 64) = x := by
  unfold Rec.shows
  split
  · rename_i h
    simp [h]
  · rename_i h
    simp [h]

theorem Rec.shows_cut_head (hlo : r.va ≤ b) (hhi : b ≤ r.va + r.len) :
    ({ r with va := b, len := r.va + r.len - b, foff := (r.foff + (b - r.va)) % 2 ^ 64 } : Rec).shows
        space page = some x ↔ r.shows space page = some x ∧ b ≤ page := by
  simp only [Rec.shows_iff]
  by_cases hb : b ≤ page
  · have hoff : ((r.foff + (b - r.va)) % 2 ^ 64 + (page - b)) % 2 ^ 64 =
        (r.foff + (page - r.va)) % 2 ^ 64 := by omega
    rw [hoff, Nat.add_sub_of_le hhi]
    constructor
    · rintro ⟨⟨h₁, -, h₃⟩, hx⟩
      exact ⟨⟨⟨h₁, by omega, h₃⟩, hx⟩, hb⟩
    · rintro ⟨⟨⟨h₁, -, h₃⟩, hx⟩, -⟩
      exact ⟨⟨h₁, hb, h₃⟩, hx⟩
  · simp [hb]

theorem Rec.shows_cut_tail (hlo : r.va ≤ a) (hhi : a ≤ r.va + r.len) :
    ({ r with len := a - r.va } : Rec).shows space page = some x ↔
      r.shows space page = some x ∧ page < a := by
  simp only [Rec.shows_iff]
  rw [Nat.add_sub_of_le hlo]
  constructor
  · rintro ⟨⟨h₁, h₂, h₃⟩, hx⟩
    exact ⟨⟨⟨h₁, h₂, by omega⟩, hx⟩, h₃⟩
  · rintro ⟨⟨⟨h₁, h₂, -⟩, hx⟩, h₃⟩
    exact ⟨⟨h₁, h₂, h₃⟩, hx⟩

end

theorem Rec.Ok.shows_trim (h : r.Ok) (space page : Nat) (x : String × Nat) :
    (∃ r' ∈ SharedFile.trim pml4 a b r, r'.shows space page = some x) ↔
      r.shows space page = some x ∧ ¬ (space = pml4 ∧ a ≤ page ∧ page < b) := by
  have hin : r.shows space page = some x → r.pml4 = space ∧ r.va ≤ page ∧ page < r.va + r.len :=
    fun hx => (Rec.shows_iff.mp hx).1
  rw [SharedFile.trim, h.stop_eq]
  split_ifs with hout hall hmid hhead
  · simp only [mem_singleton, exists_eq_left]
    exact ⟨fun hx => ⟨hx, by have := hin hx; omega⟩, And.left⟩
  · simp only [not_mem_nil, false_and, exists_false, false_iff, not_and]
    intro hx
    have := hin hx
    omega
  · simp only [mem_cons, not_mem_nil, or_false, exists_eq_or_imp, exists_eq_left]
    rw [Rec.shows_cut_tail (by omega) (by omega), Rec.shows_cut_head (by omega) (by omega), ← and_or_left]
    exact and_congr_right fun hx => by have := hin hx; omega
  · simp only [mem_singleton, exists_eq_left]
    rw [Rec.shows_cut_head (by omega) (by omega)]
    exact and_congr_right fun hx => by have := hin hx; omega
  · simp only [mem_singleton, exists_eq_left]
    rw [Rec.shows_cut_tail (by omega) (by omega)]
    exact and_congr_right fun hx => by have := hin hx; omega

theorem Rec.Ok.shows_of_trim (h : r.Ok) (hr : r' ∈ SharedFile.trim pml4 a b r)
    {space page : Nat} (hs : r'.shows space page ≠ none) : r.shows space page ≠ none := by
  obtain ⟨x, hx⟩ := Option.ne_none_iff_exists'.mp hs
  rw [((h.shows_trim space page x).mp ⟨r', hr, hx⟩).1]
  exact Option.some_ne_none x

theorem Rec.Ok.once_trim (h : r.Ok) (hab : a ≤ b) :
    (SharedFile.trim pml4 a b r).Pairwise fun r₁ r₂ => ¬ r₁.Clash r₂ := by
  rw [SharedFile.trim, h.stop_eq]
  split_ifs with hout hall hmid hhead
  · exact pairwise_singleton _ _
  · exact List.Pairwise.nil
  · refine pairwise_pair.mpr ?_
    rintro ⟨space, page, -, h₁, h₂⟩
    obtain ⟨x, hx⟩ := Option.ne_none_iff_exists'.mp h₁
    obtain ⟨y, hy⟩ := Option.ne_none_iff_exists'.mp h₂
    have := ((Rec.shows_cut_tail (by omega) (by omega)).mp hx).2
    have := ((Rec.shows_cut_head (by omega) (by omega)).mp hy).2
    omega
  · exact pairwise_singleton _ _
  · exact pairwise_singleton _ _

end Trim

/-! ### Steps -/

/-- The interval of a new mapping meets no record of the address space. -/
def Fresh (s : State) (pml4 va len : Nat) : Prop :=
  ∀ r ∈ s.list, r.pml4 = pml4 → min (r.va + r.len) (va + pageCeil len) ≤ max r.va va

/-- The arguments are ranges of addresses, those of a new mapping page aligned, and a new
mapping lies over no page that is described already. -/
def Placed (s : State) : Op → Prop
  | .map pml4 va len _ _ _ =>
    pml4 ≠ 0 ∧ va % 4096 = 0 ∧ va + len + 0xFFF < 2 ^ 64 ∧ Fresh s pml4 va len
  | .range _ va len _ => va + len + 0xFFF < 2 ^ 64
  | .asDestroy _ => True

instance (s : State) : ∀ op, Decidable (Placed s op)
  | .map pml4 va len _ _ _ => inferInstanceAs (Decidable (_ ∧ _ ∧ _ ∧
      ∀ r ∈ s.list, r.pml4 = pml4 → min (r.va + r.len) (va + pageCeil len) ≤ max r.va va))
  | .range _ va len _ => inferInstanceAs (Decidable (va + len + 0xFFF < 2 ^ 64))
  | .asDestroy _ => inferInstanceAs (Decidable True)

/-- Besides, the records can be counted in an `int`. -/
def Allowed (s : State) (op : Op) : Prop := Placed s op ∧ (step s op).list.length < 2 ^ 31

instance (s : State) (op : Op) : Decidable (Allowed s op) := inferInstanceAs (Decidable (_ ∧ _))

theorem pageCeil_eq {x : Nat} (h : x + 0xFFF < 2 ^ 64) : pageCeil x = (x + 0xFFF) / 4096 * 4096 := by
  rw [pageCeil, Nat.mod_eq_of_lt h, pageFloor]

section Steps
variable {s : State} {m : Ref}

section
variable (h : Refines s m)
include h

theorem Refines.count_eq : s.count = .ofNat s.list.length := by
  rw [← Int32.ofInt_toInt s.count, h.count]
  rfl

theorem Refines.recount {n : Nat} (hn : n < 2 ^ 31) :
    (s.count + .ofNat n - .ofNat s.list.length).toInt = n := by
  have hsum : s.count + .ofNat n - .ofNat s.list.length = .ofNat n := by
    rw [h.count_eq]
    grind
  rw [hsum, Int32.toInt_ofNat_of_lt hn]

theorem Refines.map {pml4 va len : Nat} (path : String) (foff : Nat)
    (writable : Bool) (ha : Allowed s (.map pml4 va len path foff writable)) :
    Refines (shmfMap s pml4 va len path foff writable)
      (refStep m (.map pml4 va len path foff writable)) := by
  obtain ⟨⟨hspace, hva, hlen, hfresh⟩, hfew⟩ := ha
  have hceil := pageCeil_eq (x := len) (by omega)
  refine ⟨?_, fun space page x hpage => ?_, ?_, ?_⟩
  · intro r hr
    obtain rfl | hr := mem_cons.mp hr
    · exact ⟨hspace, hva, by dsimp only; omega, by dsimp only; omega⟩
    · exact h.ok r hr
  · simp only [shmfMap, mem_cons, exists_eq_or_imp, refStep]
    rw [h.relation space page x hpage, Rec.shows_iff]
    by_cases hin : space = pml4 ∧ va ≤ page ∧ page < va + len
    · -- the old records say nothing about the page
      have hold : ¬ m space page = some x := by
        rw [← h.relation space page x hpage]
        rintro ⟨r, hr, hs⟩
        obtain ⟨h₁, h₂, h₃⟩ := (Rec.shows_iff.mp hs).1
        have := hfresh r hr (h₁.trans hin.1)
        omega
      rw [if_pos hin]
      simp only [hold, or_false, Option.some.injEq]
      exact ⟨And.right, fun hx => ⟨⟨hin.1.symm, hin.2.1, by omega⟩, hx⟩⟩
    · rw [if_neg hin]
      refine ⟨fun hx => hx.resolve_left fun hx => hin ?_, .inr⟩
      obtain ⟨⟨h₁, h₂, h₃⟩, -⟩ := hx
      dsimp only at h₃
      exact ⟨h₁.symm, h₂, by omega⟩
  · refine pairwise_cons.mpr ⟨fun r hr => ?_, h.once⟩
    rintro ⟨space, page, -, h₁, h₂⟩
    obtain ⟨x, hx⟩ := Option.ne_none_iff_exists'.mp h₁
    obtain ⟨y, hy⟩ := Option.ne_none_iff_exists'.mp h₂
    obtain ⟨hx₁, hx₂, hx₃⟩ := (Rec.shows_iff.mp hx).1
    obtain ⟨hy₁, hy₂, hy₃⟩ := (Rec.shows_iff.mp hy).1
    have := hfresh r hr (hy₁.trans hx₁.symm)
    dsimp only at hx₂ hx₃
    omega
  · rw [shmfMap, h.count_eq]
    exact (congrArg Int32.toInt (Int32.ofNat_add _ 1).symm).trans (Int32.toInt_ofNat_of_lt hfew)

/-- A state without records, or the address space 0, has nothing to remove. -/
theorem Refines.nothing {pml4 : Nat} (h0 : s.count = 0 ∨ pml4 = 0) (page : Nat)
    (hpage : page % 4096 = 0) : m pml4 page = none := by
  by_contra hne
  obtain ⟨x, hx⟩ := Option.ne_none_iff_exists'.mp hne
  obtain ⟨r, hr, hs⟩ := (h.relation pml4 page x hpage).mpr hx
  obtain h0 | h0 := h0
  · have hcount := h.count
    rw [h0] at hcount
    have := length_pos_of_mem hr
    change 0 = (s.list.length : Int) at hcount
    omega
  · exact (h.ok r hr).space ((Rec.shows_iff.mp hs).1.1.trans h0)

theorem Refines.trimmed (pml4 : Nat) {a b : Nat} (ha : a % 4096 = 0) (hb : b % 4096 = 0) (hab : a ≤ b)
    (hfew : (rangeLoop pml4 a b s.list s.count).list.length < 2 ^ 31) :
    Refines (rangeLoop pml4 a b s.list s.count) fun space page =>
      if space = pml4 ∧ a ≤ page ∧ page < b then none else m space page := by
  rw [rangeLoop_eq] at hfew ⊢
  refine ⟨fun r hr => ?_, fun space page x hpage => ?_, ?_, h.recount hfew⟩
  · obtain ⟨r', hr', hr⟩ := mem_flatMap.mp hr
    exact (h.ok r' hr').trim ha hb hr
  · have hiff : (∃ r ∈ s.list.flatMap (trim pml4 a b), r.shows space page = some x) ↔
        (∃ r ∈ s.list, r.shows space page = some x) ∧ ¬ (space = pml4 ∧ a ≤ page ∧ page < b) := by
      constructor
      · rintro ⟨r', hr', hs⟩
        obtain ⟨r, hr, hmem⟩ := mem_flatMap.mp hr'
        obtain ⟨h₁, h₂⟩ := ((h.ok r hr).shows_trim space page x).mp ⟨r', hmem, hs⟩
        exact ⟨⟨r, hr, h₁⟩, h₂⟩
      · rintro ⟨⟨r, hr, hs⟩, hout⟩
        obtain ⟨r', hmem, hs'⟩ := ((h.ok r hr).shows_trim space page x).mpr ⟨hs, hout⟩
        exact ⟨r', mem_flatMap.mpr ⟨r, hr, hmem⟩, hs'⟩
    rw [hiff, h.relation space page x hpage]
    split
    · rename_i hin
      simp [hin]
    · rename_i hin
      simp [hin]
  · refine pairwise_flatMap.mpr ⟨fun r hr => (h.ok r hr).once_trim hab, ?_⟩
    refine h.once.imp_of_mem fun hr₁ hr₂ hno r₁ h₁ r₂ h₂ => ?_
    rintro ⟨space, page, hpage, hs₁, hs₂⟩
    exact hno ⟨space, page, hpage, (h.ok _ hr₁).shows_of_trim h₁ hs₁,
      (h.ok _ hr₂).shows_of_trim h₂ hs₂⟩

theorem Refines.range {pml4 va len : Nat} (unmap : Bool) (ha : Allowed s (.range pml4 va len unmap)) :
    Refines (shmfRange s pml4 va len unmap) (refStep m (.range pml4 va len unmap)) := by
  obtain ⟨hlen, hfew⟩ := ha
  change va + len + 0xFFF < 2 ^ 64 at hlen
  change (shmfRange s pml4 va len unmap).list.length < 2 ^ 31 at hfew
  unfold shmfRange at hfew ⊢
  split
  · rename_i hskip
    refine ⟨h.ok, fun space page x hpage => ?_, h.once, h.count⟩
    rw [h.relation space page x hpage]
    simp only [refStep]
    split
    · rename_i hin
      obtain ⟨hu, rfl, -⟩ := hin
      rw [h.nothing (by simpa [hu] using hskip) page hpage]
    · exact Iff.rfl
  · rename_i hgo
    obtain rfl : unmap = true := by
      cases unmap
      · exact absurd (.inr (.inr rfl)) hgo
      · rfl
    rw [if_neg hgo] at hfew
    rw [Nat.mod_eq_of_lt (show va + len < 2 ^ 64 by omega), pageCeil_eq hlen, pageFloor] at hfew ⊢
    have h' := h.trimmed pml4 (Nat.mul_mod_left (va / 4096) 4096)
      (Nat.mul_mod_left ((va + len + 0xFFF) / 4096) 4096) (by omega) hfew
    refine ⟨h'.ok, fun space page x hpage => ?_, h'.once, h'.count⟩
    -- a page is cut off if the range reaches into it
    rw [h'.relation space page x hpage, refStep]
    have : space = pml4 ∧ va / 4096 * 4096 ≤ page ∧ page < (va + len + 0xFFF) / 4096 * 4096 ↔
        space = pml4 ∧ va < page + 4096 ∧ page < va + len := by omega
    simp only [this, true_and]

theorem Refines.asDestroy (pml4 : Nat) : Refines (shmfAsDestroy s pml4) (refStep m (.asDestroy pml4)) := by
  have hlt := s.count.toInt_lt
  rw [h.count] at hlt
  unfold shmfAsDestroy
  split
  · rename_i hskip
    refine ⟨h.ok, fun space page x hpage => ?_, h.once, h.count⟩
    rw [h.relation space page x hpage]
    simp only [refStep]
    split
    · rename_i hin
      rw [hin, h.nothing hskip page hpage]
    · exact Iff.rfl
  · rw [destroyLoop_eq]
    refine ⟨fun r hr => h.ok r (mem_filter.mp hr).1, fun space page x hpage => ?_,
      h.once.filter _, h.recount ((length_filter_le ..).trans_lt (by omega))⟩
    simp only [mem_filter, decide_eq_true_eq, refStep]
    split
    · rename_i hin
      simp only [reduceCtorEq, iff_false, not_exists, not_and]
      exact fun r hr hs => hr.2 ((Rec.shows_iff.mp hs).1.1.trans hin)
    · rename_i hin
      rw [← h.relation space page x hpage]
      constructor
      · rintro ⟨r, hr, hs⟩
        exact ⟨r, hr.1, hs⟩
      · rintro ⟨r, hr, hs⟩
        exact ⟨r, ⟨hr, fun heq => hin ((Rec.shows_iff.mp hs).1.1.symm.trans heq)⟩, hs⟩

theorem Refines.step (op : Op) (ha : Allowed s op) : Refines (step s op) (refStep m op) := by
  cases op with
  | map pml4 va len path foff writable => exact h.map path foff writable ha
  | range pml4 va len unmap => exact h.range unmap ha
  | asDestroy pml4 => exact h.asDestroy pml4

end

end Steps

/-- **After every run whose new mappings meet no described page, the records are the
reference map, describe no page twice and are counted right.** -/
theorem records_refine (ops : List Op) (h : Along step Allowed init ops) :
    Refines (ops.foldl step init) (ops.foldl refStep fun _ _ => none) := by
  have hinit : Refines init fun _ _ => none :=
    ⟨fun r hr => by simp [init] at hr, fun space page x _ => by simp [init], List.Pairwise.nil, rfl⟩
  generalize init = s at *
  generalize (fun _ _ => none : Ref) = m at *
  induction ops generalizing s m with
  | nil => exact hinit
  | cons op ops ih => exact ih _ h.2 _ (hinit.step op h.1)

/-- A mapping of four pages loses its second page; the two halves survive a sync. -/
theorem records_refine_split :
    let ops : List Op := [.map 1 0x20000000 0x3800 "/data" 0x1000 true,
      .range 1 0x20001000 0x1000 true, .range 1 0x20000000 0x4000 false, .asDestroy 2]
    Along step Allowed init ops ∧
      Refines (ops.foldl step init) (ops.foldl refStep fun _ _ => none) :=
  ⟨by decide +kernel, records_refine _ (by decide +kernel)⟩

/-- Two mappings at one place, as the cursor of unplaced mappings can make them: the page
is described twice, and the record of the first file survives. -/
theorem records_overlap :
    let ops : List Op := [.map 1 0x20000000 0x1000 "/a" 0 true, .map 1 0x20000000 0x1000 "/b" 0 true]
    ¬ Refines (ops.foldl step init) (ops.foldl refStep fun _ _ => none) := by
  intro ops h
  refine (pairwise_cons.mp h.once).1 _ (mem_cons_self ..) ⟨1, 0x20000000, rfl, ?_, ?_⟩
  · decide +kernel
  · decide +kernel

end InDevOS.Mem.SharedFile
