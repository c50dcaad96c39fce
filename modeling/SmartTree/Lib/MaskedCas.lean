import Mathlib.Data.List.Basic
import Mathlib.Logic.Pairwise

/-! Masked compare-and-swaps on one word whose bits are shared out among fields. An
operation compares and swaps the bits of its own field only, so each field evolves as if
the operations of the other fields were not there. -/
namespace MaskedCas
variable {w : ℕ} {κ : Type*}

structure Op (w : ℕ) (κ : Type*) where
  field : κ
  compare : BitVec w
  swap : BitVec w

section word
variable (mask : κ → BitVec w)

def Op.hits (x : BitVec w) (op : Op w κ) : Bool :=
  x &&& mask op.field == op.compare &&& mask op.field

def Op.perform (x : BitVec w) (op : Op w κ) : BitVec w :=
  if op.hits mask x then x &&& ~~~mask op.field ||| op.swap &&& mask op.field else x

def run (x : BitVec w) (ops : List (Op w κ)) : BitVec w := ops.foldl (Op.perform mask) x

end word

variable {mask : κ → BitVec w} {x y : BitVec w} {op : Op w κ} {f : κ}

theorem Op.hits_congr (h : x &&& mask op.field = y &&& mask op.field) :
    op.hits mask x = op.hits mask y := by
  rw [hits, hits, h]

/-- What an operation leaves in its own field depends on that field only. -/
theorem Op.perform_congr (h : x &&& mask op.field = y &&& mask op.field) :
    op.perform mask x &&& mask op.field = op.perform mask y &&& mask op.field := by
  unfold perform
  rw [hits_congr h]
  split
  · simp only [BitVec.and_or_distrib_right, BitVec.and_assoc, BitVec.not_and_self]
    simp
  · exact h

theorem Op.perform_apart (h : mask op.field &&& mask f = 0#w) :
    op.perform mask x &&& mask f = x &&& mask f := by
  unfold perform
  split
  · refine BitVec.eq_of_getLsbD_eq fun i hi => ?_
    have hb := congrArg (fun z => z.getLsbD i) h
    simp only [BitVec.getLsbD_and, BitVec.getLsbD_zero] at hb
    simp only [BitVec.getLsbD_and, BitVec.getLsbD_or, BitVec.getLsbD_not, hi, decide_true,
      Bool.true_and]
    cases hf : (mask f).getLsbD i with
    | false => simp
    | true =>
      rw [hf, Bool.and_true] at hb
      simp [hb]
  · rfl

variable [DecidableEq κ] (hd : Pairwise fun f g => mask f &&& mask g = 0#w)
include hd

theorem run_field (h : x &&& mask f = y &&& mask f) (ops : List (Op w κ)) :
    run mask x ops &&& mask f =
      run mask y (ops.filter fun op => op.field = f) &&& mask f := by
  induction ops generalizing x y with
  | nil => exact h
  | cons op ops ih =>
    by_cases hf : op.field = f
    · subst hf
      simp only [List.filter_cons, decide_true, if_true]
      exact ih (Op.perform_congr h)
    · simp only [List.filter_cons, hf, decide_false]
      refine ih ?_
      rw [Op.perform_apart (hd hf), h]

/-- If the fields make up the word, only the order within each field matters. -/
theorem run_eq_of_fields (hc : ∀ u v : BitVec w, (∀ f, u &&& mask f = v &&& mask f) → u = v)
    {ops ops' : List (Op w κ)}
    (h : ∀ f, ops.filter (fun op => op.field = f) = ops'.filter fun op => op.field = f) :
    run mask x ops = run mask x ops' := by
  refine hc _ _ fun f => ?_
  rw [run_field hd rfl ops, run_field hd rfl ops', h f]

end MaskedCas
