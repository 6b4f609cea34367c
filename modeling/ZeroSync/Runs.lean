/-
Runs of a system that takes one step after another: what holds of each step, in
the state it meets, and how an invariant carries it along the run.
-/
import Mathlib.Tactic.TypeStar

namespace Runs

variable {σ ε : Type*} {step : σ → ε → σ} {p q possible : σ → ε → Prop} {inv : σ → Prop} {s : σ} {e : ε} {es : List ε}

/-- Of each step of a run, in the state it meets. -/
def Always (step : σ → ε → σ) (p : σ → ε → Prop) : σ → List ε → Prop
  | _, [] => True
  | s, e :: es => p s e ∧ Always step p (step s e) es

/-- When a step does what it should exactly under a condition that keeps the
invariant, so do all steps of a run. -/
theorem Always.iff_of_inv (h : Always step possible s es) (hinv : inv s)
    (hiff : ∀ s e, inv s → possible s e → (p s e ↔ q s e))
    (hstep : ∀ s e, inv s → possible s e → q s e → inv (step s e)) : Always step p s es ↔ Always step q s es := by
  induction es generalizing s with
  | nil => exact Iff.rfl
  | cons e es ih =>
    have hpq := hiff s e hinv h.1
    constructor
    · intro hp
      have hq := hpq.mp hp.1
      exact ⟨hq, (ih h.2 (hstep s e hinv h.1 hq)).mp hp.2⟩
    · intro hq
      exact ⟨hpq.mpr hq.1, (ih h.2 (hstep s e hinv h.1 hq.1)).mpr hq.2⟩

end Runs
