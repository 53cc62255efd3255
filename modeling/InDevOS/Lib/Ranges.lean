import Mathlib

/-! Lists of half-open ranges, kept sorted and apart.

`insert` adds a range to a list the way a receiver of out-of-order data does: one pass
puts the new range before the first that starts later and grows ranges that touch, a
second pass joins what the new range has bridged. The passes compare ends only through a
signed difference `diff`, so they run on wrapping sequence numbers as well as on plain
numbers: a numbering that keeps the differences keeps the result (`insert_map`). On plain
numbers the result is sorted and apart and covers the old ranges and the new one
(`insert_spec`). -/
namespace InDevOS.Lib.Ranges
open List

variable {α β : Type*}

/-! ### The two passes -/

section
variable (diff : α → α → Int)

/-- Add a range that starts no earlier than the last one; `acc` holds the last one first. -/
def push (acc : List (α × α)) (r : α × α) : List (α × α) :=
  match acc with
  | [] => [r]
  | p :: acc =>
    if diff r.1 p.2 ≤ 0 then (if 0 < diff r.2 p.2 then (p.1, r.2) :: acc else p :: acc)
    else r :: p :: acc

/-- The first pass over the old ranges. `placed` says whether the new one is in. -/
def place (diff : α → α → Int) (new : α × α) :
    (placed : Bool) → (acc : List (α × α)) → List (α × α) → List (α × α)
  | placed, acc, [] => if placed then acc else push diff acc new
  | placed, acc, r :: rs =>
    if !placed ∧ diff new.1 r.1 < 0 then place diff new true (push diff (new :: acc) r) rs
    else place diff new placed (push diff acc r) rs

/-- The second pass. -/
def coalesce (rs : List (α × α)) : List (α × α) :=
  (rs.foldl (push diff) []).reverse

def insert (rs : List (α × α)) (new : α × α) : List (α × α) :=
  coalesce diff (place diff new false [] rs).reverse

/-- The second pass is the first with nothing to place. -/
theorem place_true (new : α × α) (acc rs : List (α × α)) :
    place diff new true acc rs = rs.foldl (push diff) acc := by
  induction rs generalizing acc with
  | nil => rfl
  | cons r rs ih => exact ih _

theorem insert_eq (rs : List (α × α)) (new : α × α) :
    insert diff rs new = (place diff new true [] (place diff new false [] rs).reverse).reverse := by
  rw [insert, coalesce, place_true]

end

/-! ### Ends -/

section Ends

variable {P Q : α → Prop} {diff : α → α → Int} {acc rs : List (α × α)} {new r : α × α}

/-- Starts come from starts and ends from ends. -/
theorem push_ends (hacc : ∀ p ∈ acc, P p.1 ∧ Q p.2) (hr : P r.1 ∧ Q r.2) :
    ∀ p ∈ push diff acc r, P p.1 ∧ Q p.2 := by
  match acc with
  | [] =>
    intro p hp
    rw [push, mem_singleton] at hp
    exact hp ▸ hr
  | p :: acc =>
    obtain ⟨hp, hacc⟩ := forall_mem_cons.1 hacc
    rw [push]
    split_ifs
    · exact forall_mem_cons.2 ⟨⟨hp.1, hr.2⟩, hacc⟩
    · exact forall_mem_cons.2 ⟨hp, hacc⟩
    · exact forall_mem_cons.2 ⟨hr, forall_mem_cons.2 ⟨hp, hacc⟩⟩

theorem place_ends (hnew : P new.1 ∧ Q new.2) {placed : Bool} (hacc : ∀ p ∈ acc, P p.1 ∧ Q p.2)
    (hrs : ∀ p ∈ rs, P p.1 ∧ Q p.2) : ∀ p ∈ place diff new placed acc rs, P p.1 ∧ Q p.2 := by
  induction rs generalizing placed acc with
  | nil =>
    rw [place]
    split_ifs
    · exact hacc
    · exact push_ends hacc hnew
  | cons r rs ih =>
    obtain ⟨hr, hrs⟩ := forall_mem_cons.1 hrs
    rw [place]
    split_ifs
    · exact ih (push_ends (forall_mem_cons.2 ⟨hnew, hacc⟩) hr) hrs
    · exact ih (push_ends hacc hr) hrs

theorem insert_ends (diff : α → α → Int) (new : α × α) (hrs : ∀ p ∈ rs, P p.1 ∧ Q p.2) (hnew : P new.1 ∧ Q new.2) :
    ∀ p ∈ insert diff rs new, P p.1 ∧ Q p.2 := by
  intro p hp
  rw [insert_eq] at hp
  refine place_ends hnew (by simp) ?_ p (mem_reverse.1 hp)
  intro q hq
  exact place_ends hnew (by simp) hrs q (mem_reverse.1 hq)

end Ends

/-! ### Renumbering -/

section Renumber

variable {f : α → β} {P : α → Prop} {diff : α → α → Int} {diff' : β → β → Int}
  {acc rs : List (α × α)} {new r : α × α}

/-- Both ends of every range satisfy `P`. -/
def Within (P : α → Prop) (rs : List (α × α)) : Prop := ∀ p ∈ rs, P p.1 ∧ P p.2

theorem push_map (hf : ∀ x y, P x → P y → diff' (f x) (f y) = diff x y) (hacc : Within P acc)
    (hr : P r.1 ∧ P r.2) :
    push diff' (acc.map (Prod.map f f)) (Prod.map f f r) = (push diff acc r).map (Prod.map f f) := by
  match acc with
  | [] => rfl
  | p :: acc =>
    have hp := hacc p mem_cons_self
    rw [map_cons, push, push, Prod.map_fst, Prod.map_snd, Prod.map_snd, hf _ _ hr.1 hp.2,
      hf _ _ hr.2 hp.2]
    split_ifs <;> rfl

theorem place_map (hf : ∀ x y, P x → P y → diff' (f x) (f y) = diff x y) (hnew : P new.1 ∧ P new.2)
    (placed : Bool) (hacc : Within P acc) (hrs : Within P rs) :
    place diff' (Prod.map f f new) placed (acc.map (Prod.map f f)) (rs.map (Prod.map f f)) =
      (place diff new placed acc rs).map (Prod.map f f) := by
  induction rs generalizing placed acc with
  | nil =>
    rw [map_nil, place, place, push_map hf hacc hnew]
    split_ifs <;> rfl
  | cons r rs ih =>
    obtain ⟨hr, hrs⟩ := forall_mem_cons.1 hrs
    have hnewacc : Within P (new :: acc) := forall_mem_cons.2 ⟨hnew, hacc⟩
    rw [map_cons, place, place, push_map hf hacc hr, ← map_cons, push_map hf hnewacc hr,
      Prod.map_fst, Prod.map_fst, hf _ _ hnew.1 hr.1]
    split_ifs
    · exact ih true (push_ends hnewacc hr) hrs
    · exact ih placed (push_ends hacc hr) hrs

/-- **A numbering that keeps the differences of all ends involved keeps the result.** -/
theorem insert_map (new : α × α) (hf : ∀ x y, P x → P y → diff' (f x) (f y) = diff x y) (hrs : Within P rs)
    (hnew : P new.1 ∧ P new.2) :
    insert diff' (rs.map (Prod.map f f)) (Prod.map f f new) =
      (insert diff rs new).map (Prod.map f f) := by
  have hnil : Within P [] := by simp [Within]
  have hplaced : Within P (place diff new false [] rs).reverse := by
    intro p hp
    exact place_ends hnew hnil hrs p (mem_reverse.1 hp)
  have hplace := place_map hf hnew false hnil hrs
  have hfold := place_map hf hnew true hnil hplaced
  rw [map_nil] at hplace hfold
  rw [insert_eq, insert_eq, hplace, ← map_reverse, hfold, map_reverse]

end Renumber

/-! ### Plain numbers -/

section Numbers

/-- The signed difference of plain numbers. -/
def natDiff (a b : Nat) : Int := (a : Int) - b

/-- A number lies in one of the ranges. -/
def Covers (rs : List (Nat × Nat)) (q : Nat) : Prop := ∃ r ∈ rs, r.1 ≤ q ∧ q < r.2

/-- No range is empty, and each ends before the next one starts. -/
def Apart (rs : List (Nat × Nat)) : Prop :=
  (∀ r ∈ rs, r.1 < r.2) ∧ rs.Pairwise fun r s => r.2 < s.1

variable {acc rs : List (Nat × Nat)} {new r : Nat × Nat} {q : Nat}

@[simp] theorem covers_nil : ¬ Covers [] q := by simp [Covers]

@[simp] theorem covers_cons : Covers (r :: rs) q ↔ (r.1 ≤ q ∧ q < r.2) ∨ Covers rs q := by
  simp [Covers]

@[simp] theorem covers_reverse : Covers rs.reverse q ↔ Covers rs q := by simp [Covers]

theorem covers_push (hlast : ∀ p ∈ acc, p.1 ≤ r.1) :
    Covers (push natDiff acc r) q ↔ Covers acc q ∨ (r.1 ≤ q ∧ q < r.2) := by
  match acc with
  | [] => simp [push]
  | p :: acc =>
    have hp := hlast p mem_cons_self
    rw [push]
    unfold natDiff
    split_ifs with htouch hlonger
    · simp only [covers_cons]
      constructor
      · rintro (h | h)
        · omega
        · exact Or.inl (Or.inr h)
      · rintro ((h | h) | h)
        · omega
        · exact Or.inr h
        · omega
    · simp only [covers_cons]
      constructor
      · exact Or.inl
      · rintro (h | h)
        · exact h
        · exact Or.inl ⟨by omega, by omega⟩
    · simp only [covers_cons]
      exact or_comm

theorem nonempty_push (hne : ∀ p ∈ acc, p.1 < p.2) (hlast : ∀ p ∈ acc, p.1 ≤ r.1) (hr : r.1 < r.2) :
    ∀ p ∈ push natDiff acc r, p.1 < p.2 := by
  match acc with
  | [] => simpa [push] using hr
  | p :: acc =>
    have hp := hlast p mem_cons_self
    obtain ⟨hpne, hne⟩ := forall_mem_cons.1 hne
    rw [push]
    split_ifs
    · exact forall_mem_cons.2 ⟨hp.trans_lt hr, hne⟩
    · exact forall_mem_cons.2 ⟨hpne, hne⟩
    · exact forall_mem_cons.2 ⟨hr, forall_mem_cons.2 ⟨hpne, hne⟩⟩

theorem starts_push (hlast : ∀ p ∈ acc, p.1 ≤ r.1) : ∀ p ∈ push natDiff acc r, p.1 ≤ r.1 := by
  intro p hp
  have hends := push_ends (P := fun x => x ≤ r.1) (Q := fun _ => True)
    (fun p hp => ⟨hlast p hp, trivial⟩) ⟨le_refl r.1, trivial⟩ p hp
  exact hends.1

theorem sorted_push (hacc : acc.Pairwise fun p s => s.1 ≤ p.1) (hlast : ∀ p ∈ acc, p.1 ≤ r.1) :
    (push natDiff acc r).Pairwise fun p s => s.1 ≤ p.1 := by
  match acc with
  | [] => simp [push]
  | p :: acc =>
    obtain ⟨hp, hrest⟩ := pairwise_cons.1 hacc
    rw [push]
    split_ifs
    · exact pairwise_cons.2 ⟨hp, hrest⟩
    · exact hacc
    · exact pairwise_cons.2 ⟨hlast, hacc⟩

theorem apart_push (hne : ∀ p ∈ acc, p.1 < p.2) (hacc : acc.Pairwise fun p s => s.2 < p.1)
    (hlast : ∀ p ∈ acc, p.1 ≤ r.1) : (push natDiff acc r).Pairwise fun p s => s.2 < p.1 := by
  match acc with
  | [] => simp [push]
  | p :: acc =>
    obtain ⟨hp, hrest⟩ := pairwise_cons.1 hacc
    have hpr := hlast p mem_cons_self
    rw [push]
    unfold natDiff
    split_ifs with htouch
    · exact pairwise_cons.2 ⟨hp, hrest⟩
    · exact hacc
    · refine pairwise_cons.2 ⟨forall_mem_cons.2 ⟨by omega, ?_⟩, hacc⟩
      intro s hs
      exact (hp s hs).trans_le hpr

/-- What a pass has put together so far. -/
theorem place_spec (hnew : new.1 < new.2) (acc : List (Nat × Nat)) (placed : Bool) (hne : ∀ p ∈ acc, p.1 < p.2)
    (hacc : acc.Pairwise fun p s => s.1 ≤ p.1) (hlast : ∀ p ∈ acc, ∀ r ∈ rs, p.1 ≤ r.1)
    (hfree : placed = false → ∀ p ∈ acc, p.1 ≤ new.1) (hrs : ∀ r ∈ rs, r.1 < r.2)
    (hsorted : rs.Pairwise fun r s => r.1 ≤ s.1) :
    (∀ p ∈ place natDiff new placed acc rs, p.1 < p.2) ∧
      ((place natDiff new placed acc rs).Pairwise fun p s => s.1 ≤ p.1) ∧
      ∀ q, Covers (place natDiff new placed acc rs) q ↔
        Covers acc q ∨ Covers rs q ∨ (placed = false ∧ new.1 ≤ q ∧ q < new.2) := by
  induction rs generalizing acc placed with
  | nil =>
    rw [place]
    cases placed with
    | true => exact ⟨hne, hacc, fun q => by simp⟩
    | false =>
      have hlastnew := hfree rfl
      exact ⟨nonempty_push hne hlastnew hnew, sorted_push hacc hlastnew, fun q => by
        simp [covers_push hlastnew]⟩
  | cons r rs ih =>
    obtain ⟨hr, hrs⟩ := forall_mem_cons.1 hrs
    obtain ⟨hrfirst, hsorted⟩ := pairwise_cons.1 hsorted
    have hlastr : ∀ p ∈ acc, p.1 ≤ r.1 := fun p hp => hlast p hp r mem_cons_self
    rw [place]
    split_ifs with hput
    · obtain ⟨hplaced, hbefore⟩ := hput
      have hplaced : placed = false := by simpa using hplaced
      have hbefore : (new.1 : Int) - r.1 < 0 := hbefore
      subst hplaced
      have hnewr : ∀ p ∈ new :: acc, p.1 ≤ r.1 := forall_mem_cons.2 ⟨by omega, hlastr⟩
      obtain ⟨h1, h2, h3⟩ := ih _ true
        (nonempty_push (forall_mem_cons.2 ⟨hnew, hne⟩) hnewr hr)
        (sorted_push (pairwise_cons.2 ⟨hfree rfl, hacc⟩) hnewr)
        (fun p hp s hs => (starts_push hnewr p hp).trans (hrfirst s hs)) (by simp) hrs hsorted
      refine ⟨h1, h2, ?_⟩
      intro q
      rw [h3, covers_push hnewr, covers_cons, covers_cons]
      simp only [Bool.true_eq_false, false_and, true_and, or_false]
      simp only [or_assoc, or_comm, or_left_comm]
    · have hfree' : placed = false → ∀ p ∈ push natDiff acc r, p.1 ≤ new.1 := by
        intro hfalse p hp
        have hrnew : r.1 ≤ new.1 := by
          by_contra hlt
          refine hput ⟨by simp [hfalse], ?_⟩
          show (new.1 : Int) - r.1 < 0
          omega
        exact (starts_push hlastr p hp).trans hrnew
      obtain ⟨h1, h2, h3⟩ := ih _ placed (nonempty_push hne hlastr hr) (sorted_push hacc hlastr)
        (fun p hp s hs => (starts_push hlastr p hp).trans (hrfirst s hs)) hfree' hrs hsorted
      refine ⟨h1, h2, ?_⟩
      intro q
      rw [h3, covers_push hlastr, covers_cons, or_assoc, or_assoc]

theorem foldl_push_apart (acc : List (Nat × Nat)) (hne : ∀ p ∈ acc, p.1 < p.2)
    (hacc : acc.Pairwise fun p s => s.2 < p.1) (hlast : ∀ p ∈ acc, ∀ r ∈ rs, p.1 ≤ r.1) (hrs : ∀ r ∈ rs, r.1 < r.2)
    (hsorted : rs.Pairwise fun r s => r.1 ≤ s.1) :
    (rs.foldl (push natDiff) acc).Pairwise fun p s => s.2 < p.1 := by
  induction rs generalizing acc with
  | nil => exact hacc
  | cons r rs ih =>
    obtain ⟨hr, hrs⟩ := forall_mem_cons.1 hrs
    obtain ⟨hrfirst, hsorted⟩ := pairwise_cons.1 hsorted
    have hlastr : ∀ p ∈ acc, p.1 ≤ r.1 := fun p hp => hlast p hp r mem_cons_self
    exact ih _ (nonempty_push hne hlastr hr) (apart_push hne hacc hlastr)
      (fun p hp s hs => (starts_push hlastr p hp).trans (hrfirst s hs)) hrs hsorted

theorem Apart.starts_sorted (h : Apart rs) : rs.Pairwise fun r s => r.1 ≤ s.1 := by
  refine h.2.imp_of_mem ?_
  intro r s hr _ hrs
  exact (h.1 r hr).le.trans hrs.le

theorem insert_spec (new : Nat × Nat) (hrs : Apart rs) (hnew : new.1 < new.2) :
    Apart (insert natDiff rs new) ∧
      ∀ q, Covers (insert natDiff rs new) q ↔ Covers rs q ∨ (new.1 ≤ q ∧ q < new.2) := by
  obtain ⟨hne, hsorted, hcov⟩ := place_spec hnew [] false (by simp) (by simp)
    (by simp) (by simp) hrs.1 hrs.starts_sorted
  have hne' : ∀ r ∈ (place natDiff new false [] rs).reverse, r.1 < r.2 := fun r hr => hne r (mem_reverse.1 hr)
  have hsorted' := pairwise_reverse.2 hsorted
  have hapart := foldl_push_apart [] (by simp) (by simp) (by simp) hne' hsorted'
  rw [← place_true natDiff new] at hapart
  obtain ⟨hjoined, -, hcov'⟩ := place_spec hnew [] true (by simp) (by simp) (by simp) (by simp) hne' hsorted'
  rw [insert_eq]
  refine ⟨⟨fun r hr => hjoined r (mem_reverse.1 hr), pairwise_reverse.2 hapart⟩, ?_⟩
  intro q
  rw [covers_reverse, hcov', covers_reverse, hcov]
  simp

end Numbers

end InDevOS.Lib.Ranges
