import Mathlib

/-! Walks that follow a partial step.

`follow next n a` is where `n` steps lead from `a`, or `none` if the walk has ended by then.
Among finitely many positions a walk ends, and where it ends a condition holds, exactly if
it comes to no position twice and the condition holds wherever it could end (`stops_iff`);
a walk that only moves up comes to no position twice (`not_returns_of_lt`). -/
namespace InDevOS.Lib

variable {α : Type*} {next : α → Option α} {a : α}

def follow (next : α → Option α) : Nat → α → Option α
  | 0, a => some a
  | n + 1, a => (next a).bind (follow next n)

/-- The walk from `a` comes to a position a second time. -/
def Returns (next : α → Option α) (a : α) : Prop :=
  ∃ i j, i < j ∧ follow next i a = follow next j a ∧ (follow next i a).isSome

theorem follow_add (m n : Nat) (a : α) : follow next (m + n) a = (follow next m a).bind (follow next n) := by
  induction m generalizing a with
  | zero => simp [follow]
  | succ m ih =>
    rw [Nat.succ_add]
    cases h : next a <;> simp [follow, h, ih]

theorem follow_succ (n : Nat) (a : α) : follow next (n + 1) a = (follow next n a).bind next := by
  rw [follow_add]
  congr
  funext x
  cases h : next x <;> simp [follow, h]

/-- Once a position has come back, the walk goes round for ever. -/
theorem Returns.isSome (h : Returns next a) (n : Nat) : (follow next n a).isSome := by
  obtain ⟨i, j, hij, heq, hsome⟩ := h
  induction n using Nat.strong_induction_on with
  | _ n ih =>
    rcases Nat.lt_or_ge n j with hn | hn
    · rw [heq, ← Nat.add_sub_cancel' hn.le, follow_add] at hsome
      exact Option.isSome_of_isSome_bind hsome
    · have hback := ih (i + (n - j)) (by omega)
      rwa [follow_add, heq, ← follow_add, Nat.add_sub_cancel' hn] at hback

theorem ends_iff {s : Set α} (hs : s.Finite) (ha : a ∈ s) (hnext : ∀ x y, next x = some y → y ∈ s) :
    (∃ n, follow next n a = none) ↔ ¬ Returns next a := by
  have hin : ∀ n x, follow next n a = some x → x ∈ s
    | 0, _, h => Option.some.inj h ▸ ha
    | n + 1, y, h => by
      rw [follow_succ] at h
      obtain ⟨x, -, hxy⟩ := Option.bind_eq_some_iff.1 h
      exact hnext x y hxy
  constructor
  · rintro ⟨n, hn⟩ h
    simpa [hn] using h.isSome n
  · contrapose!
    intro hgoes
    choose f hf using fun n => Option.ne_none_iff_exists'.1 (hgoes n)
    have hinj : ¬ Function.Injective f := fun h =>
      Set.infinite_of_injective_forall_mem h (fun n => hin n _ (hf n)) hs
    obtain ⟨i, j, heq, hne⟩ := Function.not_injective_iff.1 hinj
    have hwalk : follow next i a = follow next j a := by rw [hf, hf, heq]
    rcases Nat.lt_or_gt_of_ne hne with hlt | hlt
    · exact ⟨i, j, hlt, hwalk, by simp [hf]⟩
    · exact ⟨j, i, hlt, hwalk.symm, by simp [hf]⟩

/-- The position in which the walk ends; `none` if it has not ended after so many steps. -/
def halt (next : α → Option α) : Nat → α → Option α
  | 0, _ => none
  | n + 1, a =>
    match next a with
    | some b => halt next n b
    | none => some a

theorem halt_eq_some_iff {a x : α} :
    (∃ n, halt next n a = some x) ↔ ∃ n, follow next n a = some x ∧ next x = none := by
  constructor
  · rintro ⟨n, h⟩
    induction n generalizing a with
    | zero => cases h
    | succ n ih =>
      cases hb : next a with
      | none =>
        obtain rfl : a = x := by simpa [halt, hb] using h
        exact ⟨0, rfl, hb⟩
      | some b =>
        obtain ⟨m, hm, hx⟩ := ih (a := b) (by simpa [halt, hb] using h)
        exact ⟨m + 1, by simp [follow, hb, hm], hx⟩
  · rintro ⟨n, h, hx⟩
    induction n generalizing a with
    | zero =>
      obtain rfl : a = x := Option.some.inj h
      exact ⟨1, by simp [halt, hx]⟩
    | succ n ih =>
      obtain ⟨b, hb, hn⟩ := Option.bind_eq_some_iff.1 h
      obtain ⟨m, hm⟩ := ih hn
      exact ⟨m + 1, by simp [halt, hb, hm]⟩

theorem stops_iff {s : Set α} (hs : s.Finite) (ha : a ∈ s) (hnext : ∀ x y, next x = some y → y ∈ s)
    {P : α → Prop} : (∃ n x, follow next n a = some x ∧ next x = none ∧ P x) ↔
      ¬ Returns next a ∧ ∀ n x, follow next n a = some x → next x = none → P x := by
  rw [← ends_iff hs ha hnext]
  constructor
  · rintro ⟨n, x, hx, hend, hP⟩
    refine ⟨⟨n + 1, by rw [follow_succ, hx]; exact hend⟩, fun m y hy hend' => ?_⟩
    -- the walk stops once: two positions it could end in are the same
    have hsame (i k : Nat) (u v : α) (hu : follow next i a = some u) (hue : next u = none)
        (hv : follow next (i + k) a = some v) : u = v := by
      rw [follow_add, hu] at hv
      cases k with
      | zero => exact Option.some.inj hv
      | succ k => simp [follow, hue] at hv
    rcases Nat.le_total n m with h | h
    · exact hsame n (m - n) x y hx hend (by rwa [Nat.add_sub_cancel' h]) ▸ hP
    · exact hsame m (n - m) y x hy hend' (by rwa [Nat.add_sub_cancel' h]) ▸ hP
  · rintro ⟨hends, hall⟩
    have hlast := Nat.find_spec hends
    cases hn : Nat.find hends with
    | zero => simp [hn, follow] at hlast
    | succ n =>
      obtain ⟨x, hx⟩ := Option.ne_none_iff_exists'.1 (Nat.find_min hends (m := n) (by omega))
      rw [hn, follow_succ, hx] at hlast
      exact ⟨n, x, hx, hlast, hall n x hx hlast⟩

theorem not_returns_of_lt {next : Nat → Option Nat} {a : Nat}
    (h : ∀ n x y, follow next n a = some x → next x = some y → x < y) : ¬ Returns next a := by
  have hup (i k x y : Nat) (hx : follow next i a = some x) (hy : follow next (i + k + 1) a = some y) :
      x < y := by
    induction k generalizing y with
    | zero => exact h i x y hx (by rwa [Nat.add_zero, follow_succ, hx] at hy)
    | succ k ih =>
      rw [follow_succ] at hy
      obtain ⟨z, hz, hzy⟩ := Option.bind_eq_some_iff.1 hy
      exact (ih z hz).trans (h _ z y hz hzy)
  rintro ⟨i, j, hij, heq, hsome⟩
  obtain ⟨x, hx⟩ := Option.isSome_iff_exists.1 hsome
  obtain ⟨k, rfl⟩ := Nat.exists_eq_add_of_lt hij
  exact Nat.lt_irrefl x (hup i k x x hx (heq ▸ hx))

end InDevOS.Lib
