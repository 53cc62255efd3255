import Mathlib

/-! Relations whose chains are bounded.

`ChainsLe r n`: no chain of `r` has more than `n` members, so `r` has no cycle
(`ChainsLe.acyclic`). An edge from `a` to `b` keeps the bound when `b` does not lead back
to `a` and the longest chain into `a` together with the longest chain out of `b` stays
within it (`ChainsLe.insert`): a chain passes through the new edge at most once. -/
namespace InDevOS.Lib

variable {α : Type*} {r r' : α → α → Prop} {a b : α} {n u d : Nat}

/-- No chain has more than `n` members. -/
def ChainsLe (r : α → α → Prop) (n : Nat) : Prop := ∀ l : List α, l.IsChain r → l.length ≤ n

/-- No chain that begins at `a` has more than `n` members. -/
def DepthLe (r : α → α → Prop) (a : α) (n : Nat) : Prop :=
  ∀ l : List α, (a :: l).IsChain r → (a :: l).length ≤ n

/-- No chain that ends at `a` has more than `n` members. -/
def HeightLe (r : α → α → Prop) (a : α) (n : Nat) : Prop :=
  ∀ l : List α, (l ++ [a]).IsChain r → (l ++ [a]).length ≤ n

theorem ChainsLe.mono (h : ChainsLe r n) (hsub : ∀ a b, r' a b → r a b) : ChainsLe r' n :=
  fun l hl => h l (hl.imp hsub)

/-- A way from `b` to `a` makes every chain out of `a` a longer chain out of `b`. -/
theorem chain_before (h : Relation.TransGen r b a) {l : List α} (hl : (a :: l).IsChain r) :
    ∃ l', (b :: l').IsChain r ∧ l.length < l'.length := by
  induction h using Relation.TransGen.head_induction_on with
  | single hba => exact ⟨a :: l, List.isChain_cons_cons.2 ⟨hba, hl⟩, by simp⟩
  | head hbc _ ih =>
    obtain ⟨l', hl', hlen⟩ := ih
    exact ⟨_ :: l', List.isChain_cons_cons.2 ⟨hbc, hl'⟩, by rw [List.length_cons]; omega⟩

theorem ChainsLe.acyclic (h : ChainsLe r n) (a : α) : ¬Relation.TransGen r a a := by
  intro hcycle
  -- Going round the cycle gives chains of any length.
  have hlong : ∀ k, ∃ l, (a :: l).IsChain r ∧ k ≤ l.length := by
    intro k
    induction k with
    | zero => exact ⟨[], List.isChain_singleton a, Nat.zero_le _⟩
    | succ k ih =>
      obtain ⟨l, hl, hk⟩ := ih
      obtain ⟨l', hl', hlen⟩ := chain_before hcycle hl
      exact ⟨l', hl', by omega⟩
  obtain ⟨l, hl, hn⟩ := hlong n
  have := h _ hl
  rw [List.length_cons] at this
  omega

theorem reaches_of_chain {l : List α} (h : (b :: l ++ [a]).IsChain r) :
    Relation.ReflTransGen r b a := by
  induction l generalizing b with
  | nil => exact .single (List.isChain_pair.1 h)
  | cons c l ih =>
    rw [List.cons_append, List.cons_append, List.isChain_cons_cons] at h
    exact .head h.1 (ih h.2)

/-- With an edge from `a` to `b` that closes no cycle, a chain either does without the edge
or falls into a chain up to `a` and a chain from `b` on. -/
theorem chain_insert (hback : ¬Relation.ReflTransGen r b a) {l : List α}
    (hl : l.IsChain fun x y => r x y ∨ x = a ∧ y = b) :
    l.IsChain r ∨ ∃ l₁ l₂, l = (l₁ ++ [a]) ++ (b :: l₂) ∧ (l₁ ++ [a]).IsChain r ∧
      (b :: l₂).IsChain r := by
  induction l with
  | nil => exact .inl .nil
  | cons x l ih =>
    cases l with
    | nil => exact .inl (.singleton x)
    | cons y l =>
      rw [List.isChain_cons_cons] at hl
      obtain ⟨hxy, hrest⟩ := hl
      obtain hch | ⟨l₁, l₂, heq, h₁, h₂⟩ := ih hrest
      · obtain hr | ⟨rfl, rfl⟩ := hxy
        · exact .inl (List.isChain_cons_cons.2 ⟨hr, hch⟩)
        · exact .inr ⟨[], l, rfl, .singleton _, hch⟩
      · -- The edge is used later on, so it is not used here.
        have hhead : (l₁ ++ [a]).head? = some y := by
          have : ((l₁ ++ [a]) ++ (b :: l₂)).head? = some y := by rw [← heq]; rfl
          cases l₁ with
          | nil | cons => exact this
        have hr : r x y := by
          refine hxy.resolve_right ?_
          rintro ⟨-, hyb⟩
          rw [hyb] at hhead
          cases l₁ with
          | nil =>
            have hab : a = b := by simpa using hhead
            exact hback (hab ▸ .refl)
          | cons c l₁ =>
            have hcb : c = b := by simpa using hhead
            exact hback (reaches_of_chain (hcb ▸ h₁))
        refine .inr ⟨x :: l₁, l₂, by rw [heq]; rfl, ?_, h₂⟩
        rw [List.cons_append, List.isChain_cons]
        refine ⟨fun z hz => ?_, h₁⟩
        rw [hhead] at hz
        rw [← Option.some.inj hz]
        exact hr

theorem ChainsLe.insert (h : ChainsLe r n) (hback : ¬Relation.ReflTransGen r b a)
    (hup : HeightLe r a u) (hdown : DepthLe r b d) (hsum : u + d ≤ n) :
    ChainsLe (fun x y => r x y ∨ x = a ∧ y = b) n := by
  intro l hl
  obtain hl | ⟨l₁, l₂, rfl, h₁, h₂⟩ := chain_insert hback hl
  · exact h l hl
  · have := hup l₁ h₁
    have := hdown l₂ h₂
    rw [List.length_append]
    omega

end InDevOS.Lib
