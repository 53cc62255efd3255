import InDevOS.Mem.AddressSpace

/-! What forking an address space does (`vmm_clone_address_space`).

A word of the parent either stays as it is or, if it maps a private writable page,
turns read-only and copy-on-write; the child gets the word the parent is left with.
Every word of the child is one more owner of its frame. The statement is proved for
a word, carried through the loop over a table's entries and from there, level by
level, to the top. -/
namespace InDevOS.Mem

variable {σ : Type} {A : FrameAllocator σ} {L : Lawful A} {K : UInt64 → Prop}
  {own tab : UInt64 → Nat} {sat : UInt64 → Prop}

/-! ### One word -/

section
variable (pte : UInt64)

/-- The word fork leaves in the parent: a private writable page loses its write bit. -/
def forkKeeps : UInt64 :=
  if has pte vmmPresent && !has pte vmmDevice && !has pte vmmShared && has pte vmmUser &&
    has pte vmmWritable then cowPte pte else pte

/-- The word the child gets. -/
def forkCopy : UInt64 := if has pte vmmPresent then forkKeeps pte else 0

theorem cloneLeaf_eq (h : Heap σ) :
    cloneLeaf A pte h = (forkKeeps pte, forkCopy pte,
      if has pte vmmPresent && !has pte vmmDevice then shareLeaf A h (addr pte) else h) := by
  unfold cloneLeaf forkCopy forkKeeps
  cases has pte vmmPresent <;> cases has pte vmmDevice <;> cases has pte vmmShared <;>
    cases has pte vmmUser <;> cases has pte vmmWritable <;> rfl

theorem forkKeeps_cases :
    forkKeeps pte = pte ∨ forkKeeps pte = cowPte pte ∧ has pte vmmPresent = true ∧
      has pte vmmDevice = false ∧ has pte vmmShared = false := by
  unfold forkKeeps
  split
  · rename_i h
    simp only [Bool.and_eq_true, Bool.not_eq_eq_eq_not, Bool.not_true] at h
    exact .inr ⟨rfl, h.1.1.1.1, h.1.1.1.2, h.1.1.2⟩
  · exact .inl rfl

theorem forkKeeps_zero : forkKeeps 0 = 0 := by simp [forkKeeps, not_has_zero]

theorem forkCopy_zero : forkCopy 0 = 0 := by simp [forkCopy, not_has_zero]

theorem addr_forkKeeps : addr (forkKeeps pte) = addr pte := by
  rcases forkKeeps_cases pte with h | ⟨h, -⟩ <;> rw [h]
  exact addr_cowPte pte

theorem has_forkKeeps {m : UInt64} (hm : ~~~vmmWritable &&& m = m)
    (hm' : vmmCow &&& m = 0) : has (forkKeeps pte) m = has pte m := by
  rcases forkKeeps_cases pte with h | ⟨h, -⟩ <;> rw [h]
  exact has_cowPte pte hm hm'

theorem maps_forkKeeps (pte p : UInt64) : Maps (forkKeeps pte) p ↔ Maps pte p := by
  rw [Maps, Maps, addr_forkKeeps, has_forkKeeps pte (by decide) (by decide),
    has_forkKeeps pte (by decide) (by decide)]

theorem ownsPte_forkKeeps : ownsPte (forkKeeps pte) = ownsPte pte := by
  funext p
  simp only [ownsPte, maps_forkKeeps]

theorem ownsPte_forkCopy : ownsPte (forkCopy pte) = ownsPte pte := by
  unfold forkCopy
  split
  · exact ownsPte_forkKeeps pte
  · rename_i h
    funext p
    exact (if_neg fun hm => h hm.1).symm

/-- A word before fork, and what it is in the parent and in the child after it; when
memory ran out above it, the parent's word is untouched and the child has none. -/
def ForkedWord (oom : Prop) (pte kept copy : UInt64) : Prop :=
  kept = forkKeeps pte ∧ copy = forkCopy pte ∨ oom ∧ kept = pte ∧ copy = 0

theorem ForkedWord.mono {oom oom' : Prop} {pte kept copy : UInt64}
    (h : ForkedWord oom pte kept copy) (himp : oom → oom') : ForkedWord oom' pte kept copy :=
  h.imp_right fun h => ⟨himp h.1, h.2⟩

/-- What forking an entry does: the parent's words keep their frames, the child's words
become owners, and the child's words are the parent's unless memory ran out. -/
structure Forked {n : Nat} (L : Lawful A) (K : UInt64 → Prop) (own tab : UInt64 → Nat)
    (sat : UInt64 → Prop) (e : Entry n) (h : Heap σ) (r : Entry n × Entry n × Heap σ) : Prop where
  counted : ∃ sat', Saturates sat sat' (own + Entry.owns n r.2.1) ∧
    Counted L K r.2.2 (own + Entry.owns n r.2.1) (tab + Entry.tabs n r.2.1) sat'
  owns : Entry.owns n r.1 = Entry.owns n e ∧ Entry.owns n r.2.1 ≤ Entry.owns n e
  tabs : Entry.tabs n r.1 = Entry.tabs n e
  look : ∀ va, ForkedWord (h.oom < r.2.2.oom) (Entry.look n e va) (Entry.look n r.1 va)
    (Entry.look n r.2.1 va)
  grows : Grows L h r.2.2
  all : ∀ P : UInt64 → Prop, P 0 → (∀ pte, P pte → P (forkKeeps pte)) → Entry.All P n e →
    Entry.All P n r.1 ∧ Entry.All P n r.2.1

theorem cloneLeaf_forked {h : Heap σ} (hc : Counted L K h own tab sat)
    (hown : ∀ p, 0 < ownsPte pte p → 0 < own p) :
    Forked (n := 0) L K own tab sat pte h (cloneLeaf A pte h) := by
  rw [cloneLeaf_eq]
  refine ⟨?_, ⟨ownsPte_forkKeeps pte, (ownsPte_forkCopy pte).le⟩, rfl, fun va => .inl ⟨rfl, rfl⟩, ?_,
    fun P h0 hk hp => ?_⟩
  · show ∃ sat', Saturates sat sat' (own + ownsPte (forkCopy pte)) ∧
      Counted L K _ (own + ownsPte (forkCopy pte)) (tab + fun _ => 0) sat'
    rw [ownsPte_forkCopy, show (tab + fun _ => 0) = tab from add_zero tab]
    by_cases hm : has pte vmmPresent = true ∧ has pte vmmDevice = false
    · rw [add_ownsPte_of_maps hm.1 hm.2, if_pos (by simp [hm])]
      refine hc.share (hown _ ?_)
      rw [show ownsPte pte (addr pte) = 1 from if_pos ⟨hm.1, hm.2, rfl⟩]
      exact Nat.one_pos
    · rw [add_ownsPte_of_not_maps hm, if_neg (by simpa using hm)]
      exact ⟨sat, .refl _ _, hc⟩
  · split
    · obtain ⟨h₁, h₂, h₃⟩ := shareLeaf_pmm_mem_oom A h (addr pte)
      exact ⟨fun p hp => by rwa [h₁], fun p _ => by rw [h₂], h₃.ge⟩
    · exact Grows.refl L h
  · refine ⟨hk pte hp, ?_⟩
    show P (forkCopy pte)
    unfold forkCopy
    split
    · exact hk pte hp
    · exact h0

end

/-! ### A table -/

/-- The sum of a per-entry account over the entries `is`. -/
def sumOver (is : List (Fin 512)) (g : Fin 512 → UInt64 → Nat) : UInt64 → Nat :=
  fun p => (is.map fun i => g i p).sum

theorem sumOver_cons (i : Fin 512) (is : List (Fin 512)) (g : Fin 512 → UInt64 → Nat) :
    sumOver (i :: is) g = g i + sumOver is g := rfl

/-- When only the entries `is` have an account, it is the whole table's. -/
theorem sum_eq_sumOver {is : List (Fin 512)} (hn : is.Nodup) {g : Fin 512 → UInt64 → Nat}
    (h0 : ∀ i, i ∉ is → g i = 0) (p : UInt64) : ∑ i, g i p = sumOver is g p := by
  rw [sumOver, ← List.sum_toFinset _ hn]
  symm
  apply Finset.sum_subset (Finset.subset_univ _)
  intro i _ hi
  rw [h0 i (by simpa using hi)]
  rfl

/-- The loop of `vmm_clone_table` over the entries `is`. -/
structure ForkedLoop {n : Nat} (L : Lawful A) (K : UInt64 → Prop) (own tab : UInt64 → Nat)
    (sat : UInt64 → Prop) (src : Fin 512 → Entry n) (is : List (Fin 512))
    (kept dst : Fin 512 → Entry n) (h : Heap σ)
    (r : (Fin 512 → Entry n) × (Fin 512 → Entry n) × Heap σ) : Prop where
  counted : ∃ sat', Saturates sat sat' (own + sumOver is fun i => Entry.owns n (r.2.1 i)) ∧
    Counted L K r.2.2 (own + sumOver is fun i => Entry.owns n (r.2.1 i))
      (tab + sumOver is fun i => Entry.tabs n (r.2.1 i)) sat'
  rest : ∀ i, i ∉ is → r.1 i = kept i ∧ r.2.1 i = dst i
  owns : ∀ i ∈ is, Entry.owns n (r.1 i) = Entry.owns n (src i) ∧
    Entry.owns n (r.2.1 i) ≤ Entry.owns n (src i)
  tabs : ∀ i ∈ is, Entry.tabs n (r.1 i) = Entry.tabs n (src i)
  look : ∀ i ∈ is, ∀ va, ForkedWord (h.oom < r.2.2.oom) (Entry.look n (src i) va)
    (Entry.look n (r.1 i) va) (Entry.look n (r.2.1 i) va)
  grows : Grows L h r.2.2
  all : ∀ P : UInt64 → Prop, P 0 → (∀ pte, P pte → P (forkKeeps pte)) → ∀ i ∈ is,
    Entry.All P n (src i) → Entry.All P n (r.1 i) ∧ Entry.All P n (r.2.1 i)

section
variable {n : Nat} {f : Entry n → Heap σ → Entry n × Entry n × Heap σ}

theorem cloneLoop_forked
    (hf : ∀ e h own tab sat, Counted L K h own tab sat → (∀ p, 0 < Entry.owns n e p → 0 < own p) →
      Forked L K own tab sat e h (f e h))
    (src : Fin 512 → Entry n) {is : List (Fin 512)} (hn : is.Nodup) (kept dst : Fin 512 → Entry n)
    {h : Heap σ} (hc : Counted L K h own tab sat)
    (hown : ∀ i ∈ is, ∀ p, 0 < Entry.owns n (src i) p → 0 < own p) :
    ForkedLoop L K own tab sat src is kept dst h (cloneLoop f src is kept dst h) := by
  induction is generalizing kept dst h own tab sat with
  | nil =>
    refine ⟨⟨sat, .refl _ _, hc⟩, fun i _ => ⟨rfl, rfl⟩, ?_, ?_, ?_, Grows.refl L h, ?_⟩ <;> simp
  | cons i is ih =>
    obtain ⟨hi, hn⟩ := List.nodup_cons.mp hn
    have h₀ := hf (src i) h own tab sat hc (hown i List.mem_cons_self)
    rw [cloneLoop]
    generalize f (src i) h = r₀ at h₀
    obtain ⟨sat₁, hsat₁, hc₁⟩ := h₀.counted
    have hown' : ∀ j ∈ is, ∀ p, 0 < Entry.owns n (src j) p → 0 < (own + Entry.owns n r₀.2.1) p := by
      intro j hj p hp
      exact Nat.lt_of_lt_of_le (hown j (List.mem_cons_of_mem _ hj) p hp) (Nat.le_add_right _ _)
    have h₁ := ih hn (Function.update kept i r₀.1) (Function.update dst i r₀.2.1) hc₁ hown'
    obtain ⟨hr₁, hr₂⟩ := h₁.rest i hi
    rw [Function.update_self] at hr₁ hr₂
    refine ⟨?_, fun j hj => ?_, fun j hj => ?_, fun j hj => ?_, fun j hj va => ?_,
      h₀.grows.trans h₁.grows, fun P h0 hk j hj hall => ?_⟩
    · obtain ⟨sat₂, hsat₂, hc₂⟩ := h₁.counted
      rw [sumOver_cons, sumOver_cons, hr₂, ← add_assoc, ← add_assoc]
      exact ⟨sat₂, hsat₁.trans hsat₂ fun _ => Nat.le_add_right _ _, hc₂⟩
    · rw [List.mem_cons, not_or] at hj
      obtain ⟨h₂, h₃⟩ := h₁.rest j hj.2
      rw [h₂, h₃, Function.update_of_ne hj.1, Function.update_of_ne hj.1]
      exact ⟨rfl, rfl⟩
    all_goals rcases List.mem_cons.mp hj with rfl | hj
    · rw [hr₁, hr₂]
      exact h₀.owns
    · exact h₁.owns j hj
    · rw [hr₁]
      exact h₀.tabs
    · exact h₁.tabs j hj
    · rw [hr₁, hr₂]
      exact (h₀.look va).mono fun h => h.trans_le h₁.grows.oom
    · exact (h₁.look j hj va).mono fun h => h₀.grows.oom.trans_lt h
    · rw [hr₁, hr₂]
      exact h₀.all P h0 hk hall
    · exact h₁.all P h0 hk j hj hall

/-- What forking the entries `is` of a table does. -/
structure ForkedNode {n : Nat} (L : Lawful A) (K : UInt64 → Prop) (own tab : UInt64 → Nat)
    (sat : UInt64 → Prop) (is : List (Fin 512)) (t : Table n) (h : Heap σ)
    (r : Table n × Option (Table n) × Heap σ) : Prop where
  counted : ∃ sat', Saturates sat sat' (own + Entry.owns (n + 1) r.2.1) ∧
    Counted L K r.2.2 (own + Entry.owns (n + 1) r.2.1) (tab + Entry.tabs (n + 1) r.2.1) sat'
  owns : r.1.owns = t.owns ∧ Entry.owns (n + 1) r.2.1 ≤ t.owns
  tabs : r.1.tabs = t.tabs
  look : ∀ va, index n va ∈ is → ForkedWord (h.oom < r.2.2.oom) (t.look va) (r.1.look va)
    (Entry.look (n + 1) r.2.1 va)
  rest : ∀ i, i ∉ is → r.1.entries i = t.entries i
  grows : Grows L h r.2.2
  all : ∀ P : UInt64 → Prop, P 0 → (∀ pte, P pte → P (forkKeeps pte)) → t.All P →
    r.1.All P ∧ Entry.All P (n + 1) r.2.1
  failed : r.2.1 = none → h.oom < r.2.2.oom
  copy_rest : ∀ c, r.2.1 = some c → ∀ i, i ∉ is → c.entries i = Entry.empty n

theorem cloneNode_forked
    (hf : ∀ e h own tab sat, Counted L K h own tab sat → (∀ p, 0 < Entry.owns n e p → 0 < own p) →
      Forked L K own tab sat e h (f e h))
    {is : List (Fin 512)} (hn : is.Nodup) (t : Table n) {h : Heap σ}
    (hc : Counted L K h own tab sat) (hown : ∀ p, 0 < t.owns p → 0 < own p) :
    ForkedNode L K own tab sat is t h (cloneNode A f (Entry.empty n) is t h) := by
  unfold cloneNode
  generalize ha : vmmAllocFrame A h = a
  obtain ⟨_ | p, h'⟩ := a
  · have hh' := vmmAllocFrame_none ha
    subst hh'
    have hoom : h.oom < h.oom + 1 := Nat.lt_succ_self _
    have hc' : Counted L K { h with oom := h.oom + 1 } (own + Entry.owns (n + 1) (Entry.empty (n + 1)))
        (tab + Entry.tabs (n + 1) (Entry.empty (n + 1))) sat := by
      exact hc.oom _
    exact ⟨⟨sat, .refl _ _, hc'⟩, ⟨rfl, fun p => Nat.zero_le _⟩, rfl,
      fun va _ => .inr ⟨hoom, rfl, rfl⟩, fun i _ => rfl,
      grows_oom L h, fun P _ _ ht => ⟨ht, trivial⟩, fun _ => hoom, fun c hc => by simp at hc⟩
  · have hal := vmmAllocFrame_some hc.inv ha
    have hown' : ∀ i ∈ is, ∀ q, 0 < Entry.owns n (t.entries i) q → 0 < own q := by
      intro i _ q hq
      exact hown q (Nat.lt_of_lt_of_le hq (Finset.single_le_sum
        (f := fun i => Entry.owns n (t.entries i) q) (fun j _ => Nat.zero_le _) (Finset.mem_univ i)))
    have hl := cloneLoop_forked hf t.entries hn t.entries (fun _ => Entry.empty n) (hc.alloc_tab hal) hown'
    dsimp only
    generalize cloneLoop f t.entries is t.entries (fun _ => Entry.empty n) h' = r at hl
    have hzero : ∀ i, i ∉ is → Entry.owns n (r.2.1 i) = 0 ∧ Entry.tabs n (r.2.1 i) = 0 := by
      intro i hi
      rw [(hl.rest i hi).2]
      exact ⟨owns_empty n, tabs_empty n⟩
    have howns : (⟨p, r.2.1⟩ : Table n).owns = sumOver is fun i => Entry.owns n (r.2.1 i) := by
      funext q
      exact sum_eq_sumOver hn (fun i hi => (hzero i hi).1) q
    have htabs : ∀ q, (⟨p, r.2.1⟩ : Table n).tabs q =
        (if q = p then 1 else 0) + sumOver is (fun i => Entry.tabs n (r.2.1 i)) q := by
      intro q
      rw [← sum_eq_sumOver hn (fun i hi => (hzero i hi).2) q]
      rfl
    have hall : ∀ i, Entry.owns n (r.1 i) = Entry.owns n (t.entries i) ∧
        Entry.tabs n (r.1 i) = Entry.tabs n (t.entries i) := by
      intro i
      by_cases hi : i ∈ is
      · exact ⟨(hl.owns i hi).1, hl.tabs i hi⟩
      · rw [(hl.rest i hi).1]
        exact ⟨rfl, rfl⟩
    refine ⟨?_, ?_, ?_, fun va hva => ?_, fun i hi => (hl.rest i hi).1, hal.grows.trans hl.grows,
      fun P h0 hk ht => ⟨fun i => ?_, fun i => ?_⟩, fun hcon => by simp at hcon, fun c hc i hi => ?_⟩
    · obtain ⟨sat', hsat', hc'⟩ := hl.counted
      have h₁ : own + Entry.owns (n + 1) (some (⟨p, r.2.1⟩ : Table n)) =
          own + sumOver is fun i => Entry.owns n (r.2.1 i) := congrArg (own + ·) howns
      have h₂ : tab + Entry.tabs (n + 1) (some (⟨p, r.2.1⟩ : Table n)) =
          plus tab p + sumOver is fun i => Entry.tabs n (r.2.1 i) := by
        funext q
        show tab q + (⟨p, r.2.1⟩ : Table n).tabs q = tab q + (if q = p then 1 else 0) + _
        rw [htabs, Nat.add_assoc]
      rw [h₁, h₂]
      exact ⟨sat', hsat', hc'⟩
    · refine ⟨?_, fun q => Finset.sum_le_sum fun i _ => ?_⟩
      · funext q
        exact Finset.sum_congr rfl fun i _ => congrFun (hall i).1 q
      · by_cases hi : i ∈ is
        · exact (hl.owns i hi).2 q
        · exact (congrFun (hzero i hi).1 q).trans_le (Nat.zero_le _)
    · funext q
      exact congrArg ((if q = t.frame then 1 else 0) + ·)
        (Finset.sum_congr rfl fun i _ => congrFun (hall i).2 q)
    · exact (hl.look _ hva va).mono fun h => hal.oom.symm.le.trans_lt h
    · by_cases hi : i ∈ is
      · exact (hl.all P h0 hk i hi (ht i)).1
      · show Entry.All P n (r.1 i)
        rw [(hl.rest i hi).1]
        exact ht i
    · by_cases hi : i ∈ is
      · exact (hl.all P h0 hk i hi (ht i)).2
      · show Entry.All P n (r.2.1 i)
        rw [(hl.rest i hi).2]
        exact Entry.all_empty h0 n
    · obtain rfl : (⟨p, r.2.1⟩ : Table n) = c := by simpa using hc
      exact (hl.rest i hi).2

end

theorem cloneEntry_forked (n : Nat) (e : Entry n) (h : Heap σ) (own tab : UInt64 → Nat)
    (sat : UInt64 → Prop) (hc : Counted L K h own tab sat)
    (hown : ∀ p, 0 < Entry.owns n e p → 0 < own p) :
    Forked L K own tab sat e h (cloneEntry A n e h) := by
  induction n generalizing h own tab sat with
  | zero => exact cloneLeaf_forked e hc hown
  | succ n ih =>
    cases e with
    | none =>
      have hc' : Counted L K h (own + Entry.owns (n + 1) (Entry.empty (n + 1)))
          (tab + Entry.tabs (n + 1) (Entry.empty (n + 1))) sat := by
        exact hc
      exact ⟨⟨sat, .refl _ _, hc'⟩, ⟨rfl, fun p => Nat.zero_le _⟩, rfl, fun va => .inl ⟨forkKeeps_zero.symm, forkCopy_zero.symm⟩,
        Grows.refl L h,
        fun P _ _ _ => ⟨trivial, trivial⟩⟩
    | some t =>
      have hr := cloneNode_forked ih (List.nodup_finRange 512) t hc hown
      exact ⟨hr.counted, hr.owns, hr.tabs, fun va => hr.look va (List.mem_finRange _), hr.grows, hr.all⟩

theorem userHalf_nodup : userHalf.Nodup := (List.nodup_finRange 512).filter _

theorem vmmCloneAddressSpace_forked (t : Table 3) {h : Heap σ} (hc : Counted L K h own tab sat)
    (hown : ∀ p, 0 < t.owns p → 0 < own p) :
    ForkedNode L K own tab sat userHalf t h (vmmCloneAddressSpace A t h) :=
  cloneNode_forked (cloneEntry_forked 3) userHalf_nodup t hc hown

end InDevOS.Mem
