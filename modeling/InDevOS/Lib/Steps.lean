import Mathlib

/-! Runs of a state machine whose steps meet a condition.

`Along step allows s es` says that every event of `es` is allowed in the state it meets,
from `s` on. What such steps preserve, such runs preserve (`Along.keeps`), and a condition
that is exact for every step is exact for runs (`Along.iff_always`). -/
namespace InDevOS.Lib

variable {σ ε : Type*}

/-- Every event is allowed where the run meets it. -/
def Along (step : σ → ε → σ) (allows : σ → ε → Prop) : σ → List ε → Prop
  | _, [] => True
  | s, e :: es => allows s e ∧ Along step allows (step s e) es

namespace Along
variable {step : σ → ε → σ} {allows allows' : σ → ε → Prop}

theorem keeps {inv : σ → Prop} (hstep : ∀ s e, inv s → allows s e → inv (step s e)) {s : σ}
    {es : List ε} (hs : inv s) (hes : Along step allows s es) : inv (es.foldl step s) := by
  induction es generalizing s with
  | nil => exact hs
  | cons e es ih => exact ih (hstep s e hs hes.1) hes.2

/-- Where a step leads to a good state exactly if it is allowed, all states of a run are good
exactly if all its steps are allowed. -/
theorem iff_always {inv good : σ → Prop} (hgood : ∀ s, inv s → good s)
    (hkeep : ∀ s e, inv s → allows s e → inv (step s e))
    (hiff : ∀ s e, inv s → good (step s e) → allows s e) {s : σ} (hs : inv s) (es : List ε) :
    (∀ k, good ((es.take k).foldl step s)) ↔ Along step allows s es := by
  induction es generalizing s with
  | nil =>
    refine ⟨fun _ => trivial, fun _ k => ?_⟩
    rw [List.take_nil]
    exact hgood s hs
  | cons e es ih =>
    constructor
    · intro hall
      have he : allows s e := hiff s e hs (hall 1)
      exact ⟨he, (ih (hkeep s e hs he)).1 fun k => hall (k + 1)⟩
    · rintro ⟨he, hes⟩ k
      cases k with
      | zero => exact hgood s hs
      | succ k => exact (ih (hkeep s e hs he)).2 hes k

instance decidable [∀ s e, Decidable (allows s e)] :
    ∀ (s : σ) (es : List ε), Decidable (Along step allows s es)
  | _, [] => inferInstanceAs (Decidable True)
  | s, e :: es =>
    have := decidable (step s e) es
    inferInstanceAs (Decidable (allows s e ∧ Along step allows (step s e) es))

end Along

end InDevOS.Lib
