import Mathlib.Order.WellFounded

/-! # Goals that every run meets -/
namespace Inevitability

variable {σ β : Type} {step : σ → σ → Prop} {goal : σ → Prop} {a : σ}

/-- Whichever steps are taken, a run goes on until it meets the goal, and it does meet it. -/
inductive Inevitable (step : σ → σ → Prop) (goal : σ → Prop) : σ → Prop
  | met {a : σ} : goal a → Inevitable step goal a
  | later {a : σ} : (∃ b, step a b) → (∀ b, step a b → Inevitable step goal b) → Inevitable step goal a

/-- As long as the goal is not met there is a step, and each step lowers the rank or meets it. -/
theorem Inevitable.of_rank [Preorder β] [WellFoundedLT β] (ranked : σ → β → Prop)
    (hgoes : ∀ a n, ranked a n → goal a ∨ ∃ b, step a b)
    (hfalls : ∀ a n b, ranked a n → ¬ goal a → step a b → ∃ m < n, ranked b m) {n : β}
    (h : ranked a n) : Inevitable step goal a := by
  induction n using WellFoundedLT.induction generalizing a with
  | ind n ih =>
    by_cases hgoal : goal a
    · exact .met hgoal
    · refine .later ((hgoes a n h).resolve_left hgoal) fun b hstep => ?_
      obtain ⟨m, hlt, hranked⟩ := hfalls a n b h hgoal hstep
      exact ih m hlt hranked

end Inevitability
