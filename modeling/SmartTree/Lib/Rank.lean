import SmartTree.Lib.Transition

/-! Runs that a rank bounds: where every step from a state of some kind lowers a number and no step
raises it, a run passes no more such states than the number at its start. -/
namespace Transition.System
variable {σ l : Type*} {S : System σ l} {P : σ → Prop} {G : l → Prop} {r : σ → ℕ} {p : σ → Bool}

theorem length_trace {s t : σ} {as : List l} (hr : S.run s as = some t) :
    (S.trace s as).length = as.length := by
  induction as generalizing s with
  | nil => rfl
  | cons a as ih =>
    rw [run_cons] at hr
    cases hn : S.next s a with
    | none => simp [hn] at hr
    | some u =>
      rw [hn] at hr
      simp [trace, hn, ih hr]

theorem run_countP_le
    (hstep : ∀ s a t, P s → G a → S.next s a = some t → P t ∧ (if p s then 1 else 0) + r t ≤ r s)
    {s t : σ} {as : List l} (hs : P s) (has : ∀ a ∈ as, G a) (hr : S.run s as = some t) :
    P t ∧ (∀ x ∈ S.trace s as, P x) ∧ (S.trace s as).countP p + r t ≤ r s := by
  induction as generalizing s with
  | nil => cases hr; exact ⟨hs, by simp [trace], by simp [trace]⟩
  | cons a as ih =>
    rw [run_cons] at hr
    cases hn : S.next s a with
    | none => simp [hn] at hr
    | some u =>
      rw [hn] at hr
      obtain ⟨hu, hlt⟩ := hstep s a u hs (has a (by simp)) hn
      obtain ⟨ht, hall, hle⟩ := ih hu (fun b hb => has b (by simp [hb])) hr
      have htrace : S.trace s (a :: as) = s :: S.trace u as := by simp [trace, hn]
      rw [htrace, List.countP_cons]
      exact ⟨ht, List.forall_mem_cons.mpr ⟨hs, hall⟩, by omega⟩

theorem run_length_le (hstep : ∀ s a t, P s → G a → S.next s a = some t → P t ∧ r t < r s)
    {s t : σ} {as : List l} (hs : P s) (has : ∀ a ∈ as, G a) (hr : S.run s as = some t) :
    as.length + r t ≤ r s := by
  obtain ⟨-, -, hle⟩ := run_countP_le (p := fun _ => true) (r := r)
    (fun s a t hs ha hn => ⟨(hstep s a t hs ha hn).1, by
      have := (hstep s a t hs ha hn).2
      simp only [if_true]
      omega⟩) hs has hr
  rwa [List.countP_true, length_trace hr] at hle

end Transition.System
