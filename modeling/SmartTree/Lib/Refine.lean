import SmartTree.Lib.Transition

/-! Refinement of one transition system by another. A step of the lower system shows at most
one event; the upper system takes the step with that label, or stays where it is. -/
namespace Transition.System
variable {σ l α τ : Type*} {S : System σ l} {A : System α τ} {obs : σ → l → Option τ}
  {R : σ → α → Prop}

structure Refines (S : System σ l) (A : System α τ) (obs : σ → l → Option τ)
    (R : σ → α → Prop) : Prop where
  init : ∀ s, S.init s → ∃ x, A.init x ∧ R s x
  step : ∀ s a t x, R s x → S.next s a = some t →
    ∃ y, A.run x (obs s a).toList = some y ∧ R t y

/-- What a run of the lower system shows is a run of the upper one. -/
theorem Refines.shown (h : Refines S A obs R) {p : σ × List τ} (hp : (S.logged obs).Reachable p) :
    ∃ x y, A.init x ∧ A.run x p.2.reverse = some y ∧ R p.1 y := by
  induction hp with
  | @init p hi =>
    obtain ⟨x, hx, hR⟩ := h.init _ hi.1
    exact ⟨x, x, hx, by rw [hi.2]; rfl, hR⟩
  | @step p q a _ _ hn ih =>
    obtain ⟨x, y, hx, hr, hR⟩ := ih
    obtain ⟨hn, hq⟩ := logged_next hn
    obtain ⟨z, hz, hRz⟩ := h.step _ _ _ _ hR hn
    refine ⟨x, z, hx, ?_, hRz⟩
    have hrev : (obs p.1 a).toList.reverse = (obs p.1 a).toList := by cases obs p.1 a <;> rfl
    rw [hq, List.reverse_append, hrev, run_append, hr]
    exact hz

end Transition.System
