import InDevOS.Mem.Fork

/-! What teardown and unmapping do to the account of the frames.

Teardown gives up every owner and every table of the tree. Unmapping clears words of
the tree, and what it clears waits in a batch until the TLBs are flushed: the account
moves from the tree to the batch, and from there back to the allocator. -/
namespace InDevOS.Mem

variable {σ : Type} {A : FrameAllocator σ} {L : Lawful A} {K : UInt64 → Prop}
  {own tab : UInt64 → Nat} {sat : UInt64 → Prop}

/-! ### Teardown -/

section
variable {n : Nat} (t : Table n) (hentry : ∀ (e : Entry n) (h : Heap σ) (own tab : UInt64 → Nat),
  Counted L K h (own + Entry.owns n e) (tab + Entry.tabs n e) sat → Counted L K (freeEntry A n h e) own tab sat)
include hentry

theorem freeLoop_counted (is : List (Fin 512)) (h : Heap σ)
    (hc : Counted L K h (own + sumOver is fun i => Entry.owns n (t.entries i))
      (tab + sumOver is fun i => Entry.tabs n (t.entries i)) sat) :
    Counted L K (is.foldl (fun h i => freeEntry A n h (t.entries i)) h) own tab sat := by
  induction is generalizing h with
  | nil => exact hc
  | cons i is ih =>
    apply ih
    apply hentry (t.entries i)
    rw [add_assoc, add_assoc, add_comm (sumOver is _), add_comm (sumOver is _)]
    exact hc

theorem freeNode_counted {is : List (Fin 512)} (hn : is.Nodup) (h0 : ∀ i, i ∉ is → t.entries i = Entry.empty n)
    {h : Heap σ} (hc : Counted L K h (own + t.owns) (tab + t.tabs) sat) :
    Counted L K (vmmFreeFrame A (is.foldl (fun h i => freeEntry A n h (t.entries i)) h) t.frame)
      own tab sat := by
  apply Counted.free_tab
  apply freeLoop_counted t hentry is h
  have howns : t.owns = sumOver is fun i => Entry.owns n (t.entries i) := by
    funext p
    exact sum_eq_sumOver hn (fun i hi => by rw [h0 i hi, owns_empty]) p
  have htabs : tab + t.tabs = plus tab t.frame + sumOver is fun i => Entry.tabs n (t.entries i) := by
    funext p
    show tab p + ((if p = t.frame then 1 else 0) + ∑ i, Entry.tabs n (t.entries i) p) =
      tab p + (if p = t.frame then 1 else 0) + _
    rw [sum_eq_sumOver hn (fun i hi => by rw [h0 i hi, tabs_empty]) p, Nat.add_assoc]
  rw [← howns, ← htabs]
  exact hc

end

theorem freeEntry_counted (n : Nat) (e : Entry n) (h : Heap σ) (own tab : UInt64 → Nat)
    (hc : Counted L K h (own + Entry.owns n e) (tab + Entry.tabs n e) sat) :
    Counted L K (freeEntry A n h e) own tab sat := by
  induction n generalizing h own tab with
  | zero =>
    have hc' : Counted L K h (own + ownsPte e) tab sat := hc
    rw [freeEntry]
    by_cases hm : has e vmmPresent = true ∧ has e vmmDevice = false
    · rw [if_pos (by simp [hm])]
      rw [add_ownsPte_of_maps hm.1 hm.2] at hc'
      exact hc'.leafRelease
    · rw [if_neg (by simpa using hm)]
      rw [add_ownsPte_of_not_maps hm] at hc'
      exact hc'
  | succ n ih =>
    cases e with
    | none =>
      exact hc
    | some t =>
      exact freeNode_counted t ih (List.nodup_finRange 512)
        (fun i hi => absurd (List.mem_finRange i) hi) hc

theorem vmmDestroyAddressSpace_counted (t : Table 3)
    (h0 : ∀ i, i ∉ userHalf → t.entries i = Entry.empty 3) {h : Heap σ}
    (hc : Counted L K h (own + t.owns) (tab + t.tabs) sat) :
    Counted L K (vmmDestroyAddressSpace A t h) own tab sat :=
  freeNode_counted t (freeEntry_counted 3) userHalf_nodup h0 hc

/-! ### The batch -/

/-- How often each frame stands in a list. -/
def tally (l : List UInt64) : UInt64 → Nat := fun p => l.count p

theorem tally_nil : tally [] = 0 := rfl

theorem add_tally_cons (p : UInt64) (l : List UInt64) :
    own + tally (p :: l) = plus (own + tally l) p := by
  funext q
  show own q + (p :: l).count q = own q + l.count q + if q = p then 1 else 0
  rw [List.count_cons, Nat.add_assoc]
  simp only [beq_iff_eq, @eq_comm _ p q]

theorem add_tally_append (p : UInt64) (l : List UInt64) :
    own + tally (l ++ [p]) = plus own p + tally l := by
  funext q
  show own q + (l ++ [p]).count q = own q + (if q = p then 1 else 0) + l.count q
  rw [List.count_append, List.count_singleton]
  simp only [beq_iff_eq, @eq_comm _ p q]
  omega

theorem releaseFrames_counted (l : List UInt64) {h : Heap σ}
    (hc : Counted L K h (own + tally l) tab sat) :
    Counted L K (l.foldl (vmmLeafRelease A) h) own tab sat := by
  induction l generalizing h with
  | nil => exact hc
  | cons p l ih =>
    rw [add_tally_cons] at hc
    exact ih hc.leafRelease

theorem freeTables_counted (l : List UInt64) {h : Heap σ}
    (hc : Counted L K h own (tab + tally l) sat) :
    Counted L K (l.foldl (vmmFreeFrame A) h) own tab sat := by
  induction l generalizing h with
  | nil => exact hc
  | cons p l ih =>
    rw [add_tally_cons] at hc
    exact ih hc.free_tab

/-- The account with what waits in the batch. -/
def CountedB (L : Lawful A) (K : UInt64 → Prop) (h : Heap σ) (b : Batch) (own tab : UInt64 → Nat)
    (sat : UInt64 → Prop) : Prop :=
  Counted L K h (own + tally b.frames) (tab + tally b.tables) sat

theorem flush_counted {b : Batch} {h : Heap σ} (hc : CountedB L K h b own tab sat) :
    Counted L K (vmmUnmapBatchFlush A b h) own tab sat :=
  freeTables_counted _ (releaseFrames_counted _ hc)

theorem flush_mem_oom (b : Batch) (h : Heap σ) :
    (vmmUnmapBatchFlush A b h).mem = h.mem ∧ (vmmUnmapBatchFlush A b h).oom = h.oom := by
  obtain ⟨h₁, h₂⟩ := foldl_mem_oom (vmmLeafRelease_mem_oom A) b.frames h
  obtain ⟨h₃, h₄⟩ := foldl_mem_oom (f := vmmFreeFrame A)
    (fun h p => ⟨vmmFreeFrame_mem A h p, vmmFreeFrame_oom A h p⟩) b.tables
    (b.frames.foldl (vmmLeafRelease A) h)
  exact ⟨h₃.trans h₁, h₄.trans h₂⟩

theorem addFrame_counted {b : Batch} {p : UInt64} {h : Heap σ}
    (hc : CountedB L K h b (plus own p) tab sat) :
    CountedB L K (addFrame A b p h).2 (addFrame A b p h).1 own tab sat := by
  unfold addFrame
  split
  · have hc' := flush_counted hc
    show Counted L K _ (own + tally [p]) (tab + tally []) sat
    rw [add_tally_cons, tally_nil, add_zero, add_zero]
    exact hc'
  · show Counted L K _ (own + tally (b.frames ++ [p])) _ sat
    rw [add_tally_append]
    exact hc

theorem addTable_counted {b : Batch} {p : UInt64} {h : Heap σ}
    (hc : CountedB L K h b own (plus tab p) sat) :
    CountedB L K (addTable A b p h).2 (addTable A b p h).1 own tab sat := by
  unfold addTable
  split
  · have hc' := flush_counted hc
    show Counted L K _ (own + tally []) (tab + tally [p]) sat
    rw [add_tally_cons, tally_nil, add_zero, add_zero]
    exact hc'
  · show Counted L K _ _ (tab + tally (b.tables ++ [p])) sat
    rw [add_tally_append]
    exact hc

theorem addFrame_mem_oom (b : Batch) (p : UInt64) (h : Heap σ) :
    (addFrame A b p h).2.mem = h.mem ∧ (addFrame A b p h).2.oom = h.oom := by
  unfold addFrame
  split
  · exact flush_mem_oom b h
  · exact ⟨rfl, rfl⟩

theorem addTable_mem_oom (b : Batch) (p : UInt64) (h : Heap σ) :
    (addTable A b p h).2.mem = h.mem ∧ (addTable A b p h).2.oom = h.oom := by
  unfold addTable
  split
  · exact flush_mem_oom b h
  · exact ⟨rfl, rfl⟩

/-! ### Clearing words -/

/-- The words of a user table are user words. -/
def UserWord (pte : UInt64) : Prop := has pte vmmPresent = true → has pte vmmUser = true

theorem userWord_zero : UserWord 0 := fun h => by simp [not_has_zero] at h

/-- What a part of the unmapping does to a table: it clears words and drops tables, and
the account of what is gone moves to the batch. -/
structure Unmapped {n : Nat} (L : Lawful A) (K : UInt64 → Prop) (t : Table n) (u : Unmap σ)
    (t' : Table n) (u' : Unmap σ) : Prop where
  counted : ∃ gone goneTabs, t.owns = t'.owns + gone ∧ t.tabs = t'.tabs + goneTabs ∧
    ∀ own tab sat, CountedB L K u.heap u.batch (own + gone) (tab + goneTabs) sat →
      CountedB L K u'.heap u'.batch own tab sat
  look : ∀ va, t'.look va = t.look va ∨ t'.look va = 0
  frame : t'.frame = t.frame
  mem_oom : u'.heap.mem = u.heap.mem ∧ u'.heap.oom = u.heap.oom
  all : ∀ P : UInt64 → Prop, P 0 → t.All P → t'.All P

theorem Unmapped.refl (L : Lawful A) (K : UInt64 → Prop) {n : Nat} (t : Table n) (u : Unmap σ) :
    Unmapped L K t u t u :=
  ⟨⟨0, 0, (add_zero _).symm, (add_zero _).symm, fun own tab sat hc => by
    rwa [add_zero, add_zero] at hc⟩, fun va => .inl rfl, rfl, ⟨rfl, rfl⟩, fun P _ h => h⟩

theorem Unmapped.trans {n : Nat} {t t' t'' : Table n} {u u' u'' : Unmap σ}
    (h : Unmapped L K t u t' u') (h' : Unmapped L K t' u' t'' u'') : Unmapped L K t u t'' u'' := by
  obtain ⟨gone, goneTabs, h₁, h₂, h₃⟩ := h.counted
  obtain ⟨gone', goneTabs', h₁', h₂', h₃'⟩ := h'.counted
  refine ⟨⟨gone' + gone, goneTabs' + goneTabs, ?_, ?_, fun own tab sat hc => ?_⟩, fun va => ?_,
    h'.frame.trans h.frame, ⟨h'.mem_oom.1.trans h.mem_oom.1, h'.mem_oom.2.trans h.mem_oom.2⟩,
    fun P h0 ht => h'.all P h0 (h.all P h0 ht)⟩
  · rw [h₁, h₁', add_assoc]
  · rw [h₂, h₂', add_assoc]
  · rw [← add_assoc, ← add_assoc] at hc
    exact h₃' own tab sat (h₃ _ _ sat hc)
  · rcases h'.look va with h₄ | h₄
    · rw [h₄]
      exact h.look va
    · exact .inr h₄

/-- Clearing one word of a PT. The batch takes the frame when the word counted as an
owner. -/
theorem Unmapped.clear {t : Table 0} {u u' : Unmap σ} {i : Fin 512}
    (hmem : u'.heap.mem = u.heap.mem ∧ u'.heap.oom = u.heap.oom)
    (hc : ∀ own tab sat, CountedB L K u.heap u.batch (own + ownsPte (t.entries i)) tab sat →
      CountedB L K u'.heap u'.batch own tab sat) :
    Unmapped L K t u (t.set i (0 : UInt64)) u' := by
  refine ⟨⟨ownsPte (t.entries i), 0, ?_, ?_, fun own tab sat h => ?_⟩, fun va => ?_, rfl, hmem,
    fun P h0 ht => ht.set i h0⟩
  · funext p
    have h₁ := t.owns_set i (0 : UInt64) p
    have h₂ : Entry.owns 0 (0 : UInt64) p = 0 := congrFun ownsPte_zero p
    show t.owns p = (t.set i (0 : UInt64)).owns p + Entry.owns 0 (t.entries i) p
    omega
  · rw [add_zero]
    exact (t.tabs_set_word i 0).symm
  · exact hc own tab sat h
  · by_cases hi : index 0 va = i
    · exact .inr (t.look_set_same _ hi)
    · exact .inl (t.look_set_other _ hi)

theorem unmapPages_unmapped (fuel : Nat) (t : Table 0) (va stop : UInt64) (u : Unmap σ)
    (ht : t.All UserWord) :
    Unmapped L K t u (unmapPages A fuel t va stop u).1 (unmapPages A fuel t va stop u).2 := by
  induction fuel generalizing t va u with
  | zero => exact Unmapped.refl L K t u
  | succ fuel ih =>
    rw [unmapPages]
    split_ifs
    · by_cases hp : has (t.entries (index 0 va)) vmmPresent = true
      · rw [if_neg (by simp [hp])]
        have ht' : (t.set (index 0 va) (0 : UInt64)).All UserWord := ht.set _ userWord_zero
        split
        · rename_i hskip
          refine Unmapped.trans ?_ (ih _ _ _ ht')
          refine Unmapped.clear ⟨rfl, rfl⟩ fun own tab sat hc => ?_
          -- the word is no owner: it maps device memory, or the zero frame
          by_cases hd : has (t.entries (index 0 va)) vmmDevice = true
          · rw [add_ownsPte_of_not_maps fun hm => by simp [hd] at hm] at hc
            exact hc
          · have huser : has (t.entries (index 0 va)) vmmUser = true := ht (index 0 va) hp
            have hzero : addr (t.entries (index 0 va)) = 0 := by
              simpa [huser, hd] using hskip
            rw [add_ownsPte_of_maps hp (by simpa using hd), hzero] at hc
            have hlive := hc.ownLive 0 (by simp [plus])
            exact absurd rfl (L.live_frame hc.inv hlive).1
        · rename_i hskip
          refine Unmapped.trans ?_ (ih _ _ _ ht')
          refine Unmapped.clear (addFrame_mem_oom _ _ _) fun own tab sat hc => ?_
          simp only [Bool.or_eq_true, Bool.not_eq_true', not_or] at hskip
          rw [add_ownsPte_of_maps hp (by simpa using hskip.2)] at hc
          exact addFrame_counted hc
      · rw [if_pos (by simpa using hp)]
        exact ih t _ u ht
    · exact Unmapped.refl L K t u

theorem isZero_iff (n : Nat) (e : Entry n) : e.isZero n = true ↔ e = Entry.empty n := by
  cases n with
  | zero => exact decide_eq_true_iff
  | succ n => exact Option.isNone_iff_eq_none

theorem eq_zero_of_tableEmpty {n : Nat} {t : Table n} (h : tableEmpty t = true) :
    t = ⟨t.frame, fun _ => Entry.empty n⟩ := by
  have hentries : t.entries = fun _ => Entry.empty n := by
    funext i
    exact (isZero_iff n _).mp (List.all_eq_true.mp h i (List.mem_finRange i))
  rw [← hentries]

theorem Unmapped.up {n : Nat} {t : Table (n + 1)} {c c' : Table n} {u u' : Unmap σ} {i : Fin 512}
    (he : t.entries i = some c) (h : Unmapped L K c u c' u') :
    Unmapped L K t u (t.set i (some c')) u' := by
  obtain ⟨gone, goneTabs, h₁, h₂, h₃⟩ := h.counted
  refine ⟨⟨gone, goneTabs, ?_, ?_, h₃⟩, fun va => ?_, rfl, h.mem_oom,
    fun P h0 ht => ht.set i (h.all P h0 ?_)⟩
  · funext p
    have h₄ := t.owns_set i (some c') p
    rw [he] at h₄
    have h₅ := congrFun h₁ p
    have h₆ : Entry.owns (n + 1) (some c) p = c.owns p := rfl
    have h₇ : Entry.owns (n + 1) (some c') p = c'.owns p := rfl
    simp only [Pi.add_apply] at h₅ ⊢
    omega
  · funext p
    have h₄ := t.tabs_set i (some c') p
    rw [he] at h₄
    have h₅ := congrFun h₂ p
    have h₆ : Entry.tabs (n + 1) (some c) p = c.tabs p := rfl
    have h₇ : Entry.tabs (n + 1) (some c') p = c'.tabs p := rfl
    simp only [Pi.add_apply] at h₅ ⊢
    omega
  · by_cases hi : index (n + 1) va = i
    · rw [t.look_set_same _ hi, Node.look, hi, he]
      exact h.look va
    · exact .inl (t.look_set_other _ hi)
  · have := ht i
    rw [he] at this
    exact this

/-- Unhooking a child table that became empty. -/
theorem Unmapped.drop {n : Nat} {t : Table (n + 1)} {c : Table n} {u : Unmap σ} {i : Fin 512}
    (he : t.entries i = some c) (hempty : tableEmpty c = true) :
    Unmapped L K t u (t.set i none)
      { u with batch := (addTable A u.batch c.frame u.heap).1,
               heap := (addTable A u.batch c.frame u.heap).2 } := by
  have hz := eq_zero_of_tableEmpty hempty
  have howns : c.owns = fun _ => 0 := by
    rw [hz]
    exact Node.owns_zero c.frame
  have htabs : c.tabs = plus (fun _ => 0) c.frame := by
    rw [hz]
    exact Node.tabs_zero c.frame
  refine ⟨⟨0, plus (fun _ => 0) c.frame, ?_, ?_, fun own tab sat hc => ?_⟩, fun va => ?_, rfl,
    addTable_mem_oom _ _ _, fun P h0 ht => ht.set i trivial⟩
  · funext p
    have h₄ := t.owns_set i none p
    rw [he] at h₄
    have h₅ : Entry.owns (n + 1) (some c) p = 0 := congrFun howns p
    have h₆ : Entry.owns (n + 1) none p = 0 := rfl
    rw [add_zero]
    omega
  · funext p
    have h₄ := t.tabs_set i none p
    rw [he] at h₄
    have h₅ : Entry.tabs (n + 1) (some c) p = plus (fun _ => 0) c.frame p := congrFun htabs p
    have h₆ : Entry.tabs (n + 1) none p = 0 := rfl
    show t.tabs p = (t.set i none).tabs p + plus (fun _ => 0) c.frame p
    omega
  · have hplus : tab + plus (fun _ => 0) c.frame = plus tab c.frame := by
      funext p
      simp [plus]
    rw [add_zero, hplus] at hc
    exact addTable_counted hc
  · by_cases hi : index (n + 1) va = i
    · exact .inr (t.look_set_same _ hi)
    · exact .inl (t.look_set_other _ hi)

theorem unmapPt_unmapped (t : Table 0) (va stop : UInt64) (u : Unmap σ) (ht : t.All UserWord) :
    Unmapped L K t u (unmapPt A t va stop u).2.1 (unmapPt A t va stop u).2.2 := by
  exact unmapPages_unmapped _ t va _ u ht

theorem unmapRound_unmapped {n : Nat} (t : Table n) (va stop : UInt64) (u : Unmap σ)
    (ht : t.All UserWord) :
    Unmapped L K t u (unmapRound A n t va stop u).2.2.1 (unmapRound A n t va stop u).2.2.2 := by
  induction n with
  | zero => exact unmapPt_unmapped t va stop u ht
  | succ n ih =>
    rw [unmapRound]
    cases he : t.entries (index (n + 1) va) with
    | none => exact Unmapped.refl L K t u
    | some c =>
      have hc : c.All UserWord := by
        have := ht (index (n + 1) va)
        rw [he] at this
        exact this
      have hr := ih c hc
      dsimp only
      generalize unmapRound A n c va stop u = r at hr
      have hup := hr.up he
      split
      · rename_i hdrop
        have hempty : tableEmpty r.2.2.1 = true := (Bool.and_eq_true_iff.mp hdrop).2
        have hset : (t.set (index (n + 1) va) (some r.2.2.1)).set (index (n + 1) va) none =
            t.set (index (n + 1) va) none := by
          simp [Node.set]
        have hd := Unmapped.drop (A := A) (L := L) (K := K) (u := r.2.2.2)
          (t := t.set (index (n + 1) va) (some r.2.2.1)) (i := index (n + 1) va) (c := r.2.2.1)
          (by simp [Node.set]) hempty
        rw [hset] at hd
        exact hup.trans hd
      · exact hup

theorem unmapLoop_unmapped (fuel : Nat) (t : Table 3) (va stop : UInt64) (u : Unmap σ)
    (ht : t.All UserWord) :
    Unmapped L K t u (unmapLoop A fuel t va stop u).1 (unmapLoop A fuel t va stop u).2 := by
  induction fuel generalizing t va u with
  | zero => exact Unmapped.refl L K t u
  | succ fuel ih =>
    rw [unmapLoop]
    split
    · split
      · exact Unmapped.refl L K t u
      · have hr := unmapRound_unmapped (L := L) (K := K) t va stop u ht
        exact hr.trans (ih _ _ _ (hr.all UserWord userWord_zero ht))
    · exact Unmapped.refl L K t u

/-- **Unmapping a range gives up exactly the owners and the tables it took out of the
tree; the words it did not clear are as they were.** -/
theorem vmmUnmapRangeReleaseIn_spec (t : Table 3) (va pages : UInt64) {h : Heap σ}
    (ht : t.All UserWord) :
    ∃ gone goneTabs, t.owns = (vmmUnmapRangeReleaseIn A t va pages h).1.owns + gone ∧
      t.tabs = (vmmUnmapRangeReleaseIn A t va pages h).1.tabs + goneTabs ∧
      (∀ own tab sat, Counted L K h (own + gone) (tab + goneTabs) sat →
        Counted L K (vmmUnmapRangeReleaseIn A t va pages h).2.2 own tab sat) ∧
      (∀ va', (vmmUnmapRangeReleaseIn A t va pages h).1.look va' = t.look va' ∨
        (vmmUnmapRangeReleaseIn A t va pages h).1.look va' = 0) ∧
      (∀ P : UInt64 → Prop, P 0 → t.All P → (vmmUnmapRangeReleaseIn A t va pages h).1.All P) ∧
      (vmmUnmapRangeReleaseIn A t va pages h).2.2.mem = h.mem ∧
      (vmmUnmapRangeReleaseIn A t va pages h).2.2.oom = h.oom := by
  have hl := unmapLoop_unmapped (A := A) (L := L) (K := K) pages.toNat t (va &&& ~~~(pageSize - 1))
    ((va &&& ~~~(pageSize - 1)) + pages * pageSize) ⟨⟨[], []⟩, 0, h⟩ ht
  unfold vmmUnmapRangeReleaseIn
  dsimp only
  generalize unmapLoop A pages.toNat t (va &&& ~~~(pageSize - 1))
    ((va &&& ~~~(pageSize - 1)) + pages * pageSize) ⟨⟨[], []⟩, 0, h⟩ = r at hl
  obtain ⟨gone, goneTabs, h₁, h₂, h₃⟩ := hl.counted
  obtain ⟨h₄, h₅⟩ := flush_mem_oom (A := A) r.2.batch r.2.heap
  exact ⟨gone, goneTabs, h₁, h₂, fun own tab sat hc => flush_counted (h₃ own tab sat hc), hl.look,
    hl.all, h₄.trans hl.mem_oom.1, h₅.trans hl.mem_oom.2⟩

end InDevOS.Mem
