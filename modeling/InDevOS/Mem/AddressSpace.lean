import InDevOS.Mem.PageTable

/-! The operations of `mem.c` on the page tables of one address space: mapping a page,
forking, unmapping a range with release of the frames, and teardown.

Each operation has a lemma that says what it does to the words of the tables (`look`)
and how it moves the account of the frames (`Counted`): mapping and forking add
owners and tables, unmapping and teardown give up what they clear. -/
namespace InDevOS.Mem

variable {σ : Type} (A : FrameAllocator σ)

/-! ### Mapping a page -/

/-- The walk of `vmm_map_page_in`: missing tables are made on the way down. The flag
says whether the word was stored. -/
def mapIn : (n : Nat) → Table n → UInt64 → UInt64 → Heap σ → Bool × Table n × Heap σ
  | 0, t, va, pte, h => (true, t.set (index 0 va) (pte : UInt64), h)
  | n + 1, t, va, pte, h =>
    match t.entries (index (n + 1) va) with
    | some c =>
      let r := mapIn n c va pte h
      (r.1, t.set (index (n + 1) va) (some r.2.1), r.2.2)
    | none =>
      match vmmAllocFrame A h with
      | (none, h) => (false, t, h)
      | (some p, h) =>
        let r := mapIn n ⟨p, fun _ => Entry.empty n⟩ va pte h
        (r.1, t.set (index (n + 1) va) (some r.2.1), r.2.2)

def vmmMapPageIn (pml4 : Table 3) (va phys flags : UInt64) (h : Heap σ) :
    Bool × Table 3 × Heap σ :=
  mapIn A 3 pml4 va (mkPte phys flags) h

/-- Store a word where `vmm_get_pte_in` found one. -/
def setPte : (n : Nat) → Table n → UInt64 → UInt64 → Table n
  | 0, t, va, pte => t.set (index 0 va) (pte : UInt64)
  | n + 1, t, va, pte =>
    match t.entries (index (n + 1) va) with
    | some c => t.set (index (n + 1) va) (some (setPte n c va pte))
    | none => t

/-! ### Forking -/

/-- A leaf of `vmm_clone_table`: the word the parent keeps, the child's, the heap. -/
def cloneLeaf (pte : UInt64) (h : Heap σ) : UInt64 × UInt64 × Heap σ :=
  if !has pte vmmPresent then (pte, 0, h)
  else if has pte vmmDevice then (pte, pte, h)
  else if has pte vmmShared then (pte, pte, shareLeaf A h (addr pte))
  else if has pte vmmUser && has pte vmmWritable then
    (cowPte pte, cowPte pte, shareLeaf A h (addr pte))
  else (pte, pte, shareLeaf A h (addr pte))

/-- The loop over a table's entries, with `f` for one entry: what becomes of the old
table and what the new one holds. -/
def cloneLoop {α : Type} (f : α → Heap σ → α × α × Heap σ) (src : Fin 512 → α) :
    List (Fin 512) → (Fin 512 → α) → (Fin 512 → α) → Heap σ →
      (Fin 512 → α) × (Fin 512 → α) × Heap σ
  | [], kept, dst, h => (kept, dst, h)
  | i :: is, kept, dst, h =>
    let r := f (src i) h
    cloneLoop f src is (Function.update kept i r.1) (Function.update dst i r.2.1) r.2.2

/-- `vmm_clone_table` over the entries `is`, the rest of the new table zero. -/
def cloneNode {α : Type} (f : α → Heap σ → α × α × Heap σ) (zero : α) (is : List (Fin 512))
    (src : Node α) (h : Heap σ) : Node α × Option (Node α) × Heap σ :=
  match vmmAllocFrame A h with
  | (none, h) => (src, none, h)
  | (some p, h) =>
    let r := cloneLoop f src.entries is src.entries (fun _ => zero) h
    ({ src with entries := r.1 }, some ⟨p, r.2.1⟩, r.2.2)

def cloneEntry : (n : Nat) → Entry n → Heap σ → Entry n × Entry n × Heap σ
  | 0, pte, h => cloneLeaf A pte h
  | _ + 1, none, h => (none, none, h)
  | n + 1, some t, h =>
    let r := cloneNode A (cloneEntry n) (Entry.empty n) (List.finRange 512) t h
    (some r.1, r.2.1, r.2.2)

/-- The entries of the top level that belong to user space. -/
def userHalf : List (Fin 512) := (List.finRange 512).filter (·.val < 256)

/-- The parent's tables, the child's, the heap. -/
def vmmCloneAddressSpace (src : Table 3) (h : Heap σ) : Table 3 × Option (Table 3) × Heap σ :=
  cloneNode A (cloneEntry A 3) (Entry.empty 3) userHalf src h

/-! ### Teardown -/

def freeEntry : (n : Nat) → Heap σ → Entry n → Heap σ
  | 0, h, pte =>
    if has pte vmmPresent && !has pte vmmDevice then vmmLeafRelease A h (addr pte) else h
  | _ + 1, h, none => h
  | n + 1, h, some t =>
    vmmFreeFrame A ((List.finRange 512).foldl (fun h i => freeEntry n h (t.entries i)) h) t.frame

/-- `vmm_free_table` from the top. -/
def vmmDestroyAddressSpace (pml4 : Table 3) (h : Heap σ) : Heap σ :=
  vmmFreeFrame A (userHalf.foldl (fun h i => freeEntry A 3 h (pml4.entries i)) h) pml4.frame

/-! ### Unmapping a range -/

def vmmUnmapBatch : Nat := 128
def vmmTableBatch : Nat := 16

/-- Frames and tables that are unhooked and wait for the TLB flush. -/
structure Batch where
  frames : List UInt64
  tables : List UInt64

def vmmUnmapBatchFlush (b : Batch) (h : Heap σ) : Heap σ :=
  b.tables.foldl (vmmFreeFrame A) (b.frames.foldl (vmmLeafRelease A) h)

def addFrame (b : Batch) (p : UInt64) (h : Heap σ) : Batch × Heap σ :=
  if b.frames.length = vmmUnmapBatch then (⟨[p], []⟩, vmmUnmapBatchFlush A b h)
  else ({ b with frames := b.frames ++ [p] }, h)

def addTable (b : Batch) (p : UInt64) (h : Heap σ) : Batch × Heap σ :=
  if b.tables.length = vmmTableBatch then (⟨[], [p]⟩, vmmUnmapBatchFlush A b h)
  else ({ b with tables := b.tables ++ [p] }, h)

/-- What the unmapping loop carries: the batch, the number of words cleared, an `int`, the heap. -/
structure Unmap (σ : Type) where
  batch : Batch
  cleared : Int32
  heap : Heap σ

/-- A bound on the rounds of the inner loop: the entries of one PT. -/
def ptEntries : Nat := 512

/-- The inner loop over the words of one PT, from `va` to `stop`. -/
def unmapPages : Nat → Table 0 → UInt64 → UInt64 → Unmap σ → Table 0 × Unmap σ
  | 0, t, _, _, u => (t, u)
  | fuel + 1, t, va, stop, u =>
    if va < stop then
      let ent : UInt64 := t.entries (index 0 va)
      if !has ent vmmPresent then unmapPages fuel t (va + pageSize) stop u
      else
        let t := t.set (index 0 va) (0 : UInt64)
        let u := { u with cleared := u.cleared + 1 }
        if !has ent vmmUser || addr ent == 0 || has ent vmmDevice then
          unmapPages fuel t (va + pageSize) stop u
        else
          let r := addFrame A u.batch (addr ent) u.heap
          unmapPages fuel t (va + pageSize) stop { u with batch := r.1, heap := r.2 }
    else (t, u)

/-- The size of the region one entry of level `n` covers. -/
def span (n : Nat) : UInt64 := 1 <<< UInt64.ofNat (12 + 9 * n)

/-- The start of the next region of that size. -/
def nextRegion (n : Nat) (va : UInt64) : UInt64 := (va + span n) &&& ~~~(span n - 1)

def Entry.isZero : (n : Nat) → Entry n → Bool
  | 0, pte => UInt64.decEq pte 0 |>.decide
  | _ + 1, e => Option.isNone e

/-- `vmm_table_empty` -/
def tableEmpty {n : Nat} (t : Table n) : Bool := (List.finRange 512).all fun i => (t.entries i).isZero n

/-- The part of a round in one PT: how far it got, the table, the rest. -/
def unmapPt (t : Table 0) (va stop : UInt64) (u : Unmap σ) : UInt64 × Table 0 × Unmap σ :=
  let next := nextRegion 1 va
  let stop := if next < stop then next else stop
  (stop, unmapPages A ptEntries t va stop u)

/-- One round of `vmm_unmap_range_release_in` below a table: clear the words of the PT
that covers `va`, up to `stop`, and drop the tables that became empty. Where a table is
missing the round only moves on. The flag says whether a PT was reached. -/
def unmapRound : (n : Nat) → Table n → UInt64 → UInt64 → Unmap σ →
    Bool × UInt64 × Table n × Unmap σ
  | 0, t, va, stop, u => (true, unmapPt A t va stop u)
  | n + 1, t, va, stop, u =>
    match t.entries (index (n + 1) va) with
    | none => (false, nextRegion (n + 1) va, t, u)
    | some c =>
      let r := unmapRound n c va stop u
      if r.1 && tableEmpty r.2.2.1 then
        let u := r.2.2.2
        let d := addTable A u.batch r.2.2.1.frame u.heap
        (true, r.2.1, t.set (index (n + 1) va) none, { u with batch := d.1, heap := d.2 })
      else (r.1, r.2.1, t.set (index (n + 1) va) (some r.2.2.1), r.2.2.2)

def unmapLoop : Nat → Table 3 → UInt64 → UInt64 → Unmap σ → Table 3 × Unmap σ
  | 0, t, _, _, u => (t, u)
  | fuel + 1, t, va, stop, u =>
    if va < stop then
      if (index 3 va).val ≥ 256 then (t, u)
      else
        let r := unmapRound A 3 t va stop u
        unmapLoop fuel r.2.2.1 r.2.1 stop r.2.2.2
    else (t, u)

/-- The tables, the number of words cleared, the heap. -/
def vmmUnmapRangeReleaseIn (pml4 : Table 3) (virtualAddr pages : UInt64) (h : Heap σ) :
    Table 3 × Int32 × Heap σ :=
  let va := virtualAddr &&& ~~~(pageSize - 1)
  let r := unmapLoop A pages.toNat pml4 va (va + pages * pageSize) ⟨⟨[], []⟩, 0, h⟩
  (r.1, r.2.cleared, vmmUnmapBatchFlush A r.2.batch r.2.heap)

/-! ### Accounts -/

section Specs
variable {A} {L : Lawful A} {K : UInt64 → Prop} {own tab : UInt64 → Nat} {sat : UInt64 → Prop}

/-- The heap has only grown: what was live is live, and neither its content nor that of
memory outside the allocator has changed. -/
structure Grows (L : Lawful A) (h h' : Heap σ) : Prop where
  live : ∀ p, A.Live h.pmm p → A.Live h'.pmm p
  mem : ∀ p, A.Live h.pmm p ∨ ¬ L.Managed p → h'.mem p = h.mem p
  oom : h.oom ≤ h'.oom

theorem Grows.refl (L : Lawful A) (h : Heap σ) : Grows L h h :=
  ⟨fun _ => id, fun _ _ => rfl, le_rfl⟩

theorem Grows.trans {h h' h'' : Heap σ} (g : Grows L h h') (g' : Grows L h' h'') :
    Grows L h h'' :=
  ⟨fun p hp => g'.live p (g.live p hp),
    fun p hp => (g'.mem p (hp.imp_left (g.live p))).trans (g.mem p hp), g.oom.trans g'.oom⟩

theorem Allocated.ne_of_live {h h' : Heap σ} {p q : UInt64} (ha : Allocated A L h h' p)
    (hq : A.Live h.pmm q ∨ ¬ L.Managed q) : q ≠ p := by
  intro hqp
  subst hqp
  rcases hq with hq | hq
  · exact ha.fresh hq
  · exact hq (L.live_frame ha.inv ((ha.live q).mpr (.inl rfl))).2.2

theorem Allocated.grows {h h' : Heap σ} {p : UInt64} (ha : Allocated A L h h' p) :
    Grows L h h' := by
  refine ⟨fun q hq => (ha.live q).mpr (.inr hq), fun q hq => ?_, ha.oom.ge⟩
  rw [ha.mem, Function.update_of_ne (ha.ne_of_live hq)]

theorem grows_oom (L : Lawful A) (h : Heap σ) : Grows L h { h with oom := h.oom + 1 } :=
  ⟨fun _ => id, fun _ _ => rfl, Nat.le_succ _⟩

theorem ownsPte_zero : ownsPte 0 = fun _ => 0 := by
  funext p
  exact if_neg fun h => by simp [Maps, not_has_zero] at h

theorem add_ownsPte_of_maps {pte : UInt64} (hp : has pte vmmPresent = true)
    (hd : has pte vmmDevice = false) : own + ownsPte pte = plus own (addr pte) := by
  funext p
  show own p + ownsPte pte p = own p + if p = addr pte then 1 else 0
  congr 1
  split_ifs with h
  · exact if_pos ⟨hp, hd, h.symm⟩
  · exact if_neg fun hm => h hm.2.2.symm

theorem add_ownsPte_of_not_maps {pte : UInt64}
    (h : ¬ (has pte vmmPresent = true ∧ has pte vmmDevice = false)) : own + ownsPte pte = own := by
  funext p
  show own p + ownsPte pte p = own p
  have : ownsPte pte p = 0 := if_neg fun hm => h ⟨hm.1, hm.2.1⟩
  rw [this, Nat.add_zero]

theorem owns_empty (n : Nat) : Entry.owns n (Entry.empty n) = 0 := by
  funext p
  cases n with
  | zero => exact congrFun ownsPte_zero p
  | succ n => rfl

theorem tabs_empty (n : Nat) : Entry.tabs n (Entry.empty n) = 0 := by
  funext p
  cases n <;> rfl

section
variable {n : Nat}

theorem Node.owns_zero (p : UInt64) :
    (⟨p, fun _ => Entry.empty n⟩ : Table n).owns = fun _ => 0 := by
  funext q
  exact Finset.sum_eq_zero fun i _ => congrFun (owns_empty n) q

theorem Node.tabs_zero (p : UInt64) :
    (⟨p, fun _ => Entry.empty n⟩ : Table n).tabs = plus (fun _ => 0) p := by
  funext q
  have h0 : ∑ i : Fin 512, Entry.tabs n (Entry.empty n) q = 0 :=
    Finset.sum_eq_zero fun i _ => congrFun (tabs_empty n) q
  show (if q = p then 1 else 0) + ∑ i : Fin 512, Entry.tabs n (Entry.empty n) q =
    0 + if q = p then 1 else 0
  rw [h0, Nat.add_comm]

/-! ### Mapping -/

/-- The two addresses have the same indices in the tables of level at most `n + 1`. -/
def SamePage (n : Nat) (va va' : UInt64) : Prop := ∀ k ≤ n, index k va' = index k va

theorem samePage_zero {va va' : UInt64} : SamePage 0 va va' ↔ index 0 va' = index 0 va :=
  ⟨fun h => h 0 le_rfl, fun h k hk => by
    obtain rfl : k = 0 := by omega
    exact h⟩

theorem samePage_succ {va va' : UInt64} :
    SamePage (n + 1) va va' ↔ index (n + 1) va' = index (n + 1) va ∧ SamePage n va va' := by
  constructor
  · intro h
    exact ⟨h (n + 1) le_rfl, fun k hk => h k (by omega)⟩
  · intro h k hk
    rcases Nat.eq_or_lt_of_le hk with rfl | hk
    · exact h.1
    · exact h.2 k (by omega)

theorem samePage_pageOf (va : UInt64) : SamePage 3 va (pageOf va) := fun _ hk => index_pageOf hk va

theorem look_samePage (t : Table n) {va va' : UInt64} (h : SamePage n va va') :
    t.look va' = t.look va := by
  induction n with
  | zero =>
    show Entry.look 0 (t.entries (index 0 va')) va' = Entry.look 0 (t.entries (index 0 va)) va
    rw [samePage_zero.mp h]
    rfl
  | succ n ih =>
    rw [samePage_succ] at h
    rw [Node.look, Node.look, h.1]
    cases t.entries (index (n + 1) va) with
    | none => rfl
    | some c => exact ih c h.2

/-- What the walk of `vmm_map_page_in` does to the words: when it succeeds the word of
`va` is `pte`, when it fails all are as they were. -/
structure Wrote {n : Nat} (t : Table n) (va pte : UInt64) (r : Bool × Table n × Heap σ) : Prop where
  look_same : r.1 = true → ∀ va', SamePage n va va' → r.2.1.look va' = pte
  look_other : ∀ va', ¬ SamePage n va va' → r.2.1.look va' = t.look va'
  look_failed : r.1 = false → r.2.1.look = t.look
  all : ∀ P : UInt64 → Prop, P 0 → P pte → t.All P → r.2.1.All P

theorem Wrote.up {t : Table (n + 1)} {c : Table n} {va pte : UInt64}
    {r : Bool × Table n × Heap σ} (hr : Wrote c va pte r)
    (hlook : ∀ va', Entry.look (n + 1) (t.entries (index (n + 1) va)) va' = c.look va')
    (hall : ∀ P : UInt64 → Prop, P 0 → t.All P → c.All P) :
    Wrote t va pte (r.1, t.set (index (n + 1) va) (some r.2.1), r.2.2) := by
  have hat : ∀ va', index (n + 1) va' = index (n + 1) va → t.look va' = c.look va' := by
    intro va' hi
    rw [← hlook, ← hi]
    rfl
  refine ⟨fun ok va' hs => ?_, fun va' hs => ?_, fun hf => ?_, fun P h0 hp ht => ?_⟩
  · rw [samePage_succ] at hs
    rw [t.look_set_same _ hs.1]
    exact hr.look_same ok va' hs.2
  · by_cases hi : index (n + 1) va' = index (n + 1) va
    · rw [t.look_set_same _ hi, hat va' hi]
      exact hr.look_other va' fun hn => hs (samePage_succ.mpr ⟨hi, hn⟩)
    · exact t.look_set_other _ hi
  · funext va'
    by_cases hi : index (n + 1) va' = index (n + 1) va
    · rw [t.look_set_same _ hi, hat va' hi]
      exact congrFun (hr.look_failed hf) va'
    · exact t.look_set_other _ hi
  · exact ht.set _ (hr.all P h0 hp (hall P h0 ht))

theorem mapIn_wrote (t : Table n) (va pte : UInt64) (h : Heap σ) :
    Wrote t va pte (mapIn A n t va pte h) := by
  induction n generalizing h with
  | zero =>
    refine ⟨fun _ va' hs => ?_, fun va' hs => ?_, fun hf => ?_, fun P _ hp ht => ?_⟩
    · exact t.look_set_same _ (samePage_zero.mp hs)
    · exact t.look_set_other _ fun hi => hs (samePage_zero.mpr hi)
    · exact absurd hf (by simp [mapIn])
    · exact ht.set _ hp
  | succ n ih =>
    rw [mapIn]
    cases he : t.entries (index (n + 1) va) with
    | some c =>
      refine (ih c h).up (fun va' => by rw [he]; rfl) fun P _ ht => ?_
      have := ht (index (n + 1) va)
      rw [he] at this
      exact this
    | none =>
      generalize vmmAllocFrame A h = a
      obtain ⟨_ | p, h'⟩ := a
      · exact ⟨fun hf => absurd hf (by simp), fun va' _ => rfl, fun _ => rfl, fun P _ _ ht => ht⟩
      · refine (ih ⟨p, fun _ => Entry.empty n⟩ h').up (fun va' => ?_) fun P h0 _ i =>
          Entry.all_empty h0 n
        rw [he]
        exact (look_empty n va').symm

/-- What the walk does to the account: new tables join it, and the word changes hands. -/
structure Mapped {n : Nat} (L : Lawful A) (K : UInt64 → Prop) (own tab : UInt64 → Nat)
    (sat : UInt64 → Prop) (t : Table n) (va pte : UInt64) (h : Heap σ)
    (r : Bool × Table n × Heap σ) : Prop where
  counted : ∃ new, r.2.1.tabs = t.tabs + new ∧ Counted L K r.2.2 own (tab + new) sat
  grows : Grows L h r.2.2
  owns : r.1 = true → ∀ p, r.2.1.owns p + ownsPte (t.look va) p = t.owns p + ownsPte pte p
  owns_failed : r.1 = false → r.2.1.owns = t.owns
  oom_failed : r.1 = false → h.oom < r.2.2.oom

theorem Mapped.up {t : Table (n + 1)} {c : Table n} {va pte : UInt64} {h h' : Heap σ}
    {r : Bool × Table n × Heap σ} {new : UInt64 → Nat}
    (hr : Mapped L K own (tab + new) sat c va pte h' r) (hg : Grows L h h')
    (howns : ∀ p, Entry.owns (n + 1) (t.entries (index (n + 1) va)) p = c.owns p)
    (htabs : ∀ p, Entry.tabs (n + 1) (t.entries (index (n + 1) va)) p + new p = c.tabs p)
    (hlook : t.look va = c.look va) :
    Mapped L K own tab sat t va pte h (r.1, t.set (index (n + 1) va) (some r.2.1), r.2.2) := by
  obtain ⟨new', hnew, hcount⟩ := hr.counted
  refine ⟨⟨new + new', ?_, ?_⟩, hg.trans hr.grows, fun ok p => ?_, fun hf => ?_,
    fun hf => hg.oom.trans_lt (hr.oom_failed hf)⟩
  · funext p
    have h₁ := t.tabs_set (index (n + 1) va) (some r.2.1) p
    have h₂ := congrFun hnew p
    have h₃ := htabs p
    simp only [Pi.add_apply] at h₂ ⊢
    have h₄ : Entry.tabs (n + 1) (some r.2.1) p = r.2.1.tabs p := rfl
    omega
  · rw [← add_assoc]
    exact hcount
  · have h₁ := t.owns_set (index (n + 1) va) (some r.2.1) p
    have h₂ := hr.owns ok p
    have h₃ := howns p
    have h₄ : Entry.owns (n + 1) (some r.2.1) p = r.2.1.owns p := rfl
    rw [hlook]
    dsimp only
    omega
  · funext p
    have h₁ := t.owns_set (index (n + 1) va) (some r.2.1) p
    have h₂ := congrFun (hr.owns_failed hf) p
    have h₃ := howns p
    have h₄ : Entry.owns (n + 1) (some r.2.1) p = r.2.1.owns p := rfl
    dsimp only
    omega

theorem mapIn_spec (t : Table n) (va pte : UInt64) {h : Heap σ}
    (hc : Counted L K h own tab sat) : Mapped L K own tab sat t va pte h (mapIn A n t va pte h) := by
  induction n generalizing h tab with
  | zero =>
    refine ⟨⟨0, by rw [add_zero]; exact t.tabs_set_word _ pte, by rw [add_zero]; exact hc⟩,
      Grows.refl L h, fun _ p => ?_, fun hf => ?_, fun hf => ?_⟩
    · exact t.owns_set (index 0 va) (pte : UInt64) p
    · exact absurd hf (by simp [mapIn])
    · exact absurd hf (by simp [mapIn])
  | succ n ih =>
    rw [mapIn]
    cases he : t.entries (index (n + 1) va) with
    | some c =>
      have hr := ih c hc
      rw [← add_zero tab] at hr
      refine hr.up (Grows.refl L h) ?_ ?_ ?_
      · intro p
        rw [he]
        rfl
      · intro p
        rw [he]
        exact Nat.add_zero _
      · rw [Node.look, he]
        rfl
    | none =>
      generalize ha : vmmAllocFrame A h = a
      obtain ⟨_ | p, h'⟩ := a
      · have hh' := vmmAllocFrame_none ha
        subst hh'
        exact ⟨⟨0, (add_zero _).symm, by rw [add_zero]; exact hc.oom _⟩, grows_oom L h,
          fun hf => absurd hf (by simp), fun _ => rfl, fun _ => Nat.lt_succ_self _⟩
      · have hal := vmmAllocFrame_some hc.inv ha
        have hr := ih ⟨p, fun _ => Entry.empty n⟩ (hc.alloc_tab hal)
        have hplus : plus tab p = tab + plus (fun _ => 0) p := by
          funext q
          simp [plus]
        rw [hplus] at hr
        refine hr.up hal.grows ?_ ?_ ?_
        · intro q
          rw [he, Node.owns_zero]
          rfl
        · intro q
          rw [he, Node.tabs_zero]
          exact Nat.zero_add _
        · rw [Node.look, he]
          exact (look_empty n va).symm

theorem setPte_spec (t : Table n) {va : UInt64} (pte : UInt64)
    (hp : has (t.look va) vmmPresent = true) :
    (∀ p, (setPte n t va pte).owns p + ownsPte (t.look va) p = t.owns p + ownsPte pte p) ∧
      (setPte n t va pte).tabs = t.tabs ∧
      (∀ va', SamePage n va va' → (setPte n t va pte).look va' = pte) ∧
      (∀ va', ¬ SamePage n va va' → (setPte n t va pte).look va' = t.look va') ∧
      ∀ P : UInt64 → Prop, P pte → t.All P → (setPte n t va pte).All P := by
  induction n with
  | zero =>
    exact ⟨fun p => t.owns_set (index 0 va) (pte : UInt64) p, t.tabs_set_word _ pte,
      fun va' hs => t.look_set_same _ (samePage_zero.mp hs),
      fun va' hs => t.look_set_other _ fun hi => hs (samePage_zero.mpr hi),
      fun P hP ht => ht.set _ hP⟩
  | succ n ih =>
    rw [setPte]
    cases he : t.entries (index (n + 1) va) with
    | none =>
      rw [Node.look, he] at hp
      simp [Entry.look, not_has_zero] at hp
    | some c =>
      have hat : ∀ va', index (n + 1) va' = index (n + 1) va → t.look va' = c.look va' := by
        intro va' hi
        rw [Node.look, hi, he]
        rfl
      rw [hat va rfl] at hp
      obtain ⟨h₁, h₂, h₃, h₄, h₅⟩ := ih c hp
      refine ⟨fun p => ?_, ?_, fun va' hs => ?_, fun va' hs => ?_, fun P hP ht => ?_⟩
      · have h₆ := t.owns_set (index (n + 1) va) (some (setPte n c va pte)) p
        have h₇ : Entry.owns (n + 1) (t.entries (index (n + 1) va)) p = c.owns p := by rw [he]; rfl
        have h₈ : Entry.owns (n + 1) (some (setPte n c va pte)) p = (setPte n c va pte).owns p := rfl
        have h₉ := h₁ p
        rw [hat va rfl]
        dsimp only
        omega
      · funext p
        have h₆ := t.tabs_set (index (n + 1) va) (some (setPte n c va pte)) p
        have h₇ : Entry.tabs (n + 1) (t.entries (index (n + 1) va)) p = c.tabs p := by rw [he]; rfl
        have h₈ : Entry.tabs (n + 1) (some (setPte n c va pte)) p = c.tabs p := congrFun h₂ p
        dsimp only
        omega
      · rw [samePage_succ] at hs
        rw [t.look_set_same _ hs.1]
        exact h₃ va' hs.2
      · by_cases hi : index (n + 1) va' = index (n + 1) va
        · rw [t.look_set_same _ hi, hat va' hi]
          exact h₄ va' fun hn => hs (samePage_succ.mpr ⟨hi, hn⟩)
        · exact t.look_set_other _ hi
      · refine ht.set _ (h₅ P hP ?_)
        have := ht (index (n + 1) va)
        rw [he] at this
        exact this

end

/-! ### The user half -/

/-- Nothing is mapped above the user half of the address space. -/
def UserOnly (t : Table 3) : Prop := ∀ i, i ∉ userHalf → t.entries i = Entry.empty 3

theorem mem_userHalf {i : Fin 512} : i ∈ userHalf ↔ i.val < 256 := by
  simp [userHalf, List.mem_filter]

theorem UserOnly.set {t : Table 3} (h : UserOnly t) {i : Fin 512} (hi : i ∈ userHalf)
    (e : Entry 3) : UserOnly (t.set i e) := by
  intro j hj
  have hji : j ≠ i := fun hji => hj (hji ▸ hi)
  rw [Node.set]
  simp only [Function.update_of_ne hji]
  exact h j hj

section
variable {t : Table 3} {va pte : UInt64} (ht : UserOnly t) (hva : index 3 va ∈ userHalf)
include ht hva

theorem mapIn_userOnly {h : Heap σ} : UserOnly (mapIn A 3 t va pte h).2.1 := by
  rw [mapIn]
  cases t.entries (index (2 + 1) va) with
  | some c => exact ht.set hva _
  | none =>
    generalize vmmAllocFrame A h = a
    obtain ⟨_ | p, h'⟩ := a
    · exact ht
    · exact ht.set hva _

theorem setPte_userOnly : UserOnly (setPte 3 t va pte) := by
  rw [setPte]
  cases t.entries (index (2 + 1) va) with
  | some c => exact ht.set hva _
  | none => exact ht

end

theorem unmapRound_userOnly {t : Table 3} {va stop : UInt64} {u : Unmap σ} (ht : UserOnly t)
    (hva : index 3 va ∈ userHalf) : UserOnly (unmapRound A 3 t va stop u).2.2.1 := by
  rw [unmapRound]
  cases t.entries (index (2 + 1) va) with
  | none => exact ht
  | some c =>
    dsimp only
    split
    · exact ht.set hva _
    · exact ht.set hva _

theorem unmapLoop_userOnly (fuel : Nat) {t : Table 3} {va stop : UInt64} {u : Unmap σ}
    (ht : UserOnly t) : UserOnly (unmapLoop A fuel t va stop u).1 := by
  induction fuel generalizing t va u with
  | zero => exact ht
  | succ fuel ih =>
    rw [unmapLoop]
    split
    · split
      · exact ht
      · rename_i hva
        exact ih (unmapRound_userOnly ht (mem_userHalf.mpr (by omega)))
    · exact ht

end Specs

end InDevOS.Mem
