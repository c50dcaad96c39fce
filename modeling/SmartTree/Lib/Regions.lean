import Mathlib

/-! Regions of a space counted point by point. Pieces that are carved, returned and carved
again stay apart as long as no point is ever covered twice; the count adds up over lists, so
each operation only has to account for the pieces it touches. -/
namespace Regions
variable {α : Type*} {r s t : Set α} {rs ss : List (Set α)} {x : α}

noncomputable def weight (r : Set α) (x : α) : ℕ := r.indicator (fun _ => 1) x

noncomputable def cover (rs : List (Set α)) (x : α) : ℕ := (rs.map fun r => weight r x).sum

theorem weight_of_mem (h : x ∈ r) : weight r x = 1 := Set.indicator_of_mem h _

theorem weight_of_not_mem (h : x ∉ r) : weight r x = 0 := Set.indicator_of_notMem h _

@[simp] theorem weight_empty : weight (∅ : Set α) x = 0 := weight_of_not_mem (Set.notMem_empty x)

theorem weight_mono (h : r ⊆ s) : weight r x ≤ weight s x := by
  by_cases hx : x ∈ r
  · rw [weight_of_mem hx, weight_of_mem (h hx)]
  · rw [weight_of_not_mem hx]
    exact Nat.zero_le _

theorem weight_add_le (hr : r ⊆ t) (hs : s ⊆ t) (hd : Disjoint r s) : weight r x + weight s x ≤ weight t x := by
  by_cases hx : x ∈ r
  · rw [weight_of_not_mem (Set.disjoint_left.mp hd hx), Nat.add_zero]
    exact weight_mono hr
  · rw [weight_of_not_mem hx, Nat.zero_add]
    exact weight_mono hs

@[simp] theorem cover_nil : cover ([] : List (Set α)) x = 0 := rfl

@[simp] theorem cover_cons : cover (r :: rs) x = weight r x + cover rs x := rfl

@[simp] theorem cover_append : cover (rs ++ ss) x = cover rs x + cover ss x := by
  simp [cover]

theorem cover_perm (h : rs.Perm ss) : cover rs x = cover ss x := (h.map _).sum_eq

theorem cover_eq_zero : cover rs x = 0 ↔ ∀ r ∈ rs, x ∉ r := by
  induction rs with
  | nil => simp
  | cons r rs ih =>
    by_cases hx : x ∈ r
    · simp [weight_of_mem hx, hx]
    · simp [weight_of_not_mem hx, hx, ih]

theorem cover_pos (h : r ∈ rs) (hx : x ∈ r) : 1 ≤ cover rs x :=
  Nat.one_le_iff_ne_zero.mpr fun h0 => cover_eq_zero.mp h0 r h hx

theorem pairwise_disjoint (h : ∀ x, cover rs x ≤ 1) : rs.Pairwise Disjoint := by
  induction rs with
  | nil => exact .nil
  | cons r rs ih =>
    refine List.pairwise_cons.mpr ⟨fun s hs => Set.disjoint_left.mpr fun x hr hx => ?_, ih fun x => ?_⟩
    · have hx2 := h x
      rw [cover_cons, weight_of_mem hr] at hx2
      have := cover_pos hs hx
      omega
    · have := h x
      rw [cover_cons] at this
      omega

end Regions
