import Mathlib.Data.List.Basic

/-! Labelled transition systems with a partial step function. A label carries
every choice a step leaves open, so a run is a list of labels and can be
evaluated. Reachability takes a condition on steps: the trivial condition gives
all runs, a stronger one gives the runs whose steps all meet it. -/
namespace Transition

namespace Numbered

/-! Concrete runs number their clients from zero. -/
scoped instance neZero_one : @NeZero ℕ Zero.ofOfNat0 1 := ⟨Nat.one_ne_zero⟩
scoped instance neZero_two : @NeZero ℕ Zero.ofOfNat0 2 := ⟨Nat.succ_ne_zero 1⟩
scoped instance neZero_three : @NeZero ℕ Zero.ofOfNat0 3 := ⟨Nat.succ_ne_zero 2⟩

end Numbered

variable {σ l : Type*}

structure System (σ l : Type*) where
  init : σ → Prop
  next : σ → l → Option σ

namespace System
variable (S : System σ l)

def run : σ → List l → Option σ
  | s, [] => some s
  | s, a :: as => (S.next s a).bind fun t => run t as

def trace : σ → List l → List σ
  | _, [] => []
  | s, a :: as => s :: ((S.next s a).map fun t => trace t as).getD []

/-- The run meets the condition at every step it takes. -/
def Meets (G : σ → l → Prop) : σ → List l → Prop
  | _, [] => True
  | s, a :: as => G s a ∧ ∀ t, S.next s a = some t → Meets G t as

instance decidableMeets (G : σ → l → Prop) [∀ s a, Decidable (G s a)] :
    ∀ (s : σ) (as : List l), Decidable (S.Meets G s as)
  | _, [] => isTrue trivial
  | s, a :: as =>
    match hn : S.next s a with
    | none => decidable_of_iff (G s a) (by simp [Meets, hn])
    | some t =>
      haveI := decidableMeets G t as
      decidable_of_iff (G s a ∧ S.Meets G t as) (by simp [Meets, hn])

/-- The run goes through and ends in a state with the property. -/
def Ends (s : σ) (as : List l) (p : σ → Prop) : Prop := ∃ t, S.run s as = some t ∧ p t

instance decidableEnds (s : σ) (as : List l) (p : σ → Prop) [∀ t, Decidable (p t)] :
    Decidable (S.Ends s as p) :=
  decidable_of_iff ((S.run s as).any fun t => decide (p t)) (by simp [Ends, Option.any_eq_true])

inductive Reach (G : σ → l → Prop) : σ → Prop where
  | init {s : σ} : S.init s → Reach G s
  | step {s t : σ} {a : l} : Reach G s → G s a → S.next s a = some t → Reach G t

def Reachable : σ → Prop := S.Reach fun _ _ => True

variable {S}

theorem Reach.invariant {G : σ → l → Prop} {P : σ → Prop}
    (h0 : ∀ s, S.init s → P s)
    (hs : ∀ s a t, S.Reach G s → P s → G s a → S.next s a = some t → P t)
    {s : σ} (h : S.Reach G s) : P s := by
  induction h with
  | init hi => exact h0 _ hi
  | step hr hg ht ih => exact hs _ _ _ hr ih hg ht

theorem Reach.mono {G H : σ → l → Prop} (hGH : ∀ s a, G s a → H s a)
    {s : σ} (h : S.Reach G s) : S.Reach H s := by
  induction h with
  | init hi => exact .init hi
  | step _ hg ht ih => exact .step ih (hGH _ _ hg) ht

theorem run_cons (s : σ) (a : l) (as : List l) :
    S.run s (a :: as) = (S.next s a).bind fun t => S.run t as := rfl

theorem run_append (s : σ) (as bs : List l) :
    S.run s (as ++ bs) = (S.run s as).bind fun t => S.run t bs := by
  induction as generalizing s with
  | nil => rfl
  | cons a as ih =>
    rw [List.cons_append, run_cons, run_cons]
    cases S.next s a with
    | none => rfl
    | some t => exact ih t

theorem Meets.invariant {G : σ → l → Prop} {P : σ → Prop}
    (hs : ∀ s a t, P s → G s a → S.next s a = some t → P t) {s t : σ} {as : List l}
    (hm : S.Meets G s as) (h : P s) (hr : S.run s as = some t) : P t := by
  induction as generalizing s with
  | nil => cases hr; exact h
  | cons a as ih =>
    rw [run_cons] at hr
    cases hn : S.next s a with
    | none => simp [hn] at hr
    | some u =>
      rw [hn] at hr
      exact ih (hm.2 u hn) (hs s a u h hm.1 hn) hr

theorem Meets.ends {G : σ → l → Prop} {P : σ → Prop}
    (hs : ∀ s a, P s → G s a → ∃ t, S.next s a = some t ∧ P t) {s : σ} {as : List l}
    (hm : S.Meets G s as) (h : P s) : S.Ends s as P := by
  induction as generalizing s with
  | nil => exact ⟨s, rfl, h⟩
  | cons a as ih =>
    obtain ⟨t, hn, ht⟩ := hs s a h hm.1
    obtain ⟨u, hr, hu⟩ := ih (hm.2 t hn) ht
    exact ⟨u, by rw [run_cons, hn]; exact hr, hu⟩

theorem Reach.run {G : σ → l → Prop} {s t : σ} {as : List l}
    (h : S.Reach G s) (hm : S.Meets G s as) (hr : S.run s as = some t) : S.Reach G t :=
  hm.invariant (P := S.Reach G) (fun _ _ _ => .step) h hr

theorem meets_trivial (s : σ) (as : List l) : S.Meets (fun _ _ => True) s as := by
  induction as generalizing s with
  | nil => trivial
  | cons a as ih => exact ⟨trivial, fun t _ => ih t⟩

theorem Reachable.run {s t : σ} {as : List l}
    (h : S.Reachable s) (hr : S.run s as = some t) : S.Reachable t :=
  Reach.run h (meets_trivial s as) hr

def logged {τ : Type*} (S : System σ l) (obs : σ → l → Option τ) : System (σ × List τ) l where
  init p := S.init p.1 ∧ p.2 = []
  next p a := (S.next p.1 a).map fun t => (t, (obs p.1 a).toList ++ p.2)

theorem logged_next {τ : Type*} {obs : σ → l → Option τ} {p q : σ × List τ} {a : l}
    (h : (S.logged obs).next p a = some q) :
    S.next p.1 a = some q.1 ∧ q.2 = (obs p.1 a).toList ++ p.2 := by
  obtain ⟨t, ht, rfl⟩ := Option.map_eq_some_iff.mp h
  exact ⟨ht, rfl⟩

theorem Reach.of_logged {τ : Type*} {obs : σ → l → Option τ} {G : σ → l → Prop} {p : σ × List τ}
    (h : (S.logged obs).Reach (fun p a => G p.1 a) p) : S.Reach G p.1 := by
  induction h with
  | init hi => exact .init hi.1
  | step _ hg ht ih => exact .step ih hg (logged_next ht).1

end System
end Transition
