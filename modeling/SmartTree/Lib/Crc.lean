import Mathlib.Logic.Function.Iterate
import Mathlib.Data.BitVec

/-! Cyclic redundancy checks, most significant bit first: the remainder is a register of `w` bits,
each byte is added at its top and shifted out. If the polynomial has a constant term a shift can be
undone, so messages that fit the register are told apart by their remainders. -/
namespace Crc
variable {w : ℕ} (poly : BitVec w)

/-- One bit is shifted out and, if it is set, the polynomial subtracted. -/
def shift (x : BitVec w) : BitVec w := if x.msb then x <<< 1 ^^^ poly else x <<< 1

def addByte (x : BitVec w) (b : BitVec 8) : BitVec w :=
  (shift poly)^[8] (x ^^^ b.setWidth w <<< (w - 8))

def remainder (x : BitVec w) (bs : List (BitVec 8)) : BitVec w := bs.foldl (addByte poly) x

variable {poly}

theorem shift_xor (x y : BitVec w) : shift poly (x ^^^ y) = shift poly x ^^^ shift poly y := by
  unfold shift
  rw [BitVec.msb_xor]
  cases x.msb <;> cases y.msb <;> simp [BitVec.shiftLeft_xor_distrib] <;> grind

theorem iterate_shift_xor (j : ℕ) (x y : BitVec w) :
    (shift poly)^[j] (x ^^^ y) = (shift poly)^[j] x ^^^ (shift poly)^[j] y := by
  induction j generalizing x y with
  | zero => rfl
  | succ j ih => rw [Function.iterate_succ_apply, shift_xor, ih]; rfl

theorem getLsbD_shift_zero (hodd : poly.getLsbD 0 = true) (x : BitVec w) :
    (shift poly x).getLsbD 0 = x.msb := by
  unfold shift
  cases x.msb <;> simp [hodd]

theorem shift_injective (hodd : poly.getLsbD 0 = true) : (shift poly).Injective := by
  intro x y h
  have hmsb : x.msb = y.msb := by
    rw [← getLsbD_shift_zero hodd, h, getLsbD_shift_zero hodd]
  have hshl : x <<< 1 = y <<< 1 := by
    unfold shift at h
    rw [hmsb] at h
    split at h
    · exact (BitVec.xor_left_inj _).mp h
    · exact h
  refine BitVec.eq_of_getLsbD_eq fun i hi => ?_
  by_cases htop : i + 1 < w
  · have := congrArg (fun z => z.getLsbD (i + 1)) hshl
    simpa [htop, hi] using this
  · have hi : i = w - 1 := by omega
    subst hi
    rwa [BitVec.msb_eq_getLsbD_last, BitVec.msb_eq_getLsbD_last] at hmsb

theorem iterate_shift_of_clear {j : ℕ} {x : BitVec w}
    (h : ∀ i, w - j ≤ i → x.getLsbD i = false) : (shift poly)^[j] x = x <<< j := by
  induction j with
  | zero => simp
  | succ j ih =>
    have hj := ih fun i hi => h i (by omega)
    have hmsb : (x <<< j).msb = false := by
      rw [BitVec.msb_eq_getLsbD_last, BitVec.getLsbD_shiftLeft, h _ (by omega)]
      simp
    rw [Function.iterate_succ_apply', hj, shift, hmsb, BitVec.shiftLeft_add]
    rfl

def place : List (BitVec 8) → BitVec w
  | [] => 0
  | b :: bs => b.setWidth w <<< (w - 8) ^^^ place bs >>> 8

theorem getLsbD_place {bs : List (BitVec 8)} {i : ℕ} (hi : i + 8 * bs.length < w) :
    (place bs : BitVec w).getLsbD i = false := by
  induction bs generalizing i with
  | nil => simp [place]
  | cons b bs ih =>
    rw [List.length_cons] at hi
    have hlow : i < w - 8 := by omega
    rw [place, BitVec.getLsbD_xor, BitVec.getLsbD_shiftLeft, BitVec.getLsbD_ushiftRight,
      ih (by omega)]
    simp [hlow]

/-- Adding the bytes one by one is adding the message and shifting it all out. -/
theorem remainder_eq (x : BitVec w) {bs : List (BitVec 8)} (hlen : 8 * bs.length ≤ w) :
    remainder poly x bs = (shift poly)^[8 * bs.length] (x ^^^ place bs) := by
  induction bs generalizing x with
  | nil => simp [remainder, place]
  | cons b bs ih =>
    rw [List.length_cons] at hlen
    have hplace : (shift poly)^[8] (place bs >>> 8) = (place bs : BitVec w) := by
      rw [iterate_shift_of_clear fun i hi => by
        rw [BitVec.getLsbD_ushiftRight, BitVec.getLsbD_of_ge _ _ (by omega)]]
      refine BitVec.eq_of_getLsbD_eq fun i hi => ?_
      rw [BitVec.getLsbD_shiftLeft]
      by_cases h8 : i < 8
      · rw [getLsbD_place (by omega)]
        simp [h8]
      · simp [hi, h8, show 8 + (i - 8) = i by omega]
    have hstep : remainder poly x (b :: bs) = remainder poly (addByte poly x b) bs := rfl
    rw [hstep, ih _ (by omega), addByte]
    rw [place, ← BitVec.xor_assoc, List.length_cons, Nat.mul_succ, Function.iterate_add_apply,
      iterate_shift_xor 8 _ (place bs >>> 8), hplace]

theorem place_injective {bs cs : List (BitVec 8)} (hlen : bs.length = cs.length)
    (hw : 8 * bs.length ≤ w) (h : (place bs : BitVec w) = place cs) : bs = cs := by
  induction bs generalizing cs with
  | nil => exact (List.length_eq_zero_iff.mp hlen.symm).symm
  | cons b bs ih =>
    cases cs with
    | nil => simp at hlen
    | cons c cs =>
      rw [List.length_cons] at hw
      have hlen' : bs.length = cs.length := by simpa using hlen
      have hbyte : b = c := by
        refine BitVec.eq_of_getLsbD_eq fun i hi => ?_
        have := congrArg (fun z => z.getLsbD (w - 8 + i)) h
        simp only [place, BitVec.getLsbD_xor, BitVec.getLsbD_shiftLeft, BitVec.getLsbD_ushiftRight,
          BitVec.getLsbD_of_ge _ (8 + (w - 8 + i)) (show w ≤ 8 + (w - 8 + i) by omega)] at this
        have hin : w - 8 + i < w := by omega
        have habove : ¬ w - 8 + i < w - 8 := by omega
        simpa [hin, habove, hi, show i < w by omega] using this
      subst hbyte
      rw [place, place, BitVec.xor_right_inj] at h
      have hrest : (place bs : BitVec w) = place cs := by
        refine BitVec.eq_of_getLsbD_eq fun i hi => ?_
        by_cases h8 : i < 8
        · rw [getLsbD_place (by omega), getLsbD_place (by omega)]
        · have := congrArg (fun z => z.getLsbD (i - 8)) h
          simpa [show 8 + (i - 8) = i by omega] using this
      rw [ih hlen' (by omega) hrest]

/-- Messages of one length that fit the register have different remainders. -/
theorem remainder_injective (hodd : poly.getLsbD 0 = true) (x : BitVec w) {bs cs : List (BitVec 8)}
    (hlen : bs.length = cs.length) (hw : 8 * bs.length ≤ w)
    (h : remainder poly x bs = remainder poly x cs) : bs = cs := by
  rw [remainder_eq x hw, remainder_eq x (hlen ▸ hw), ← hlen] at h
  have hxor := (shift_injective hodd).iterate _ h
  exact place_injective hlen hw ((BitVec.xor_right_inj _).mp hxor)

end Crc
