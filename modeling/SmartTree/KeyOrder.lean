import Mathlib.Data.Nat.Digits.Lemmas
import SmartTree.Key

/-! Keys as big-endian numbers: the order of `std::array` is the order of the numbers, and
adding a byte adds to the number. -/
namespace SmartTree
variable {n : ℕ} {k k' : Key n}

def littleValue (bs : List UInt8) : ℕ := Nat.ofDigits 256 (bs.map UInt8.toNat)

def bigValue (bs : List UInt8) : ℕ := littleValue bs.reverse

def Key.toNat (k : Key n) : ℕ := bigValue k.bytes

@[simp] theorem littleValue_nil : littleValue [] = 0 := rfl

theorem littleValue_cons (b : UInt8) (bs : List UInt8) :
    littleValue (b :: bs) = b.toNat + 256 * littleValue bs := by
  simp [littleValue, Nat.ofDigits_cons]

theorem littleValue_lt (bs : List UInt8) : littleValue bs < 256 ^ bs.length := by
  induction bs with
  | nil => simp
  | cons b bs ih =>
    have hb := b.toNat_lt
    rw [littleValue_cons, List.length_cons, pow_succ]
    omega

theorem bigValue_lt (bs : List UInt8) : bigValue bs < 256 ^ bs.length := by
  simpa [bigValue] using littleValue_lt bs.reverse

theorem bigValue_cons (b : UInt8) (bs : List UInt8) :
    bigValue (b :: bs) = bigValue bs + 256 ^ bs.length * b.toNat := by
  simp [bigValue, littleValue, Nat.ofDigits_append]

theorem bigValue_append (as bs : List UInt8) :
    bigValue (as ++ bs) = bigValue bs + 256 ^ bs.length * bigValue as := by
  simp [bigValue, littleValue, Nat.ofDigits_append]

/-- Byte strings of one length compare like the numbers they stand for. -/
theorem bigValue_lt_iff {as bs : List UInt8} (h : as.length = bs.length) :
    bigValue as < bigValue bs ↔ as < bs := by
  induction as generalizing bs with
  | nil =>
    cases bs with
    | nil => simp
    | cons b bs => simp at h
  | cons a as ih =>
    cases bs with
    | nil => simp at h
    | cons b bs =>
      have hlen : as.length = bs.length := by simpa using h
      have h1 := bigValue_lt as
      have h2 := bigValue_lt bs
      rw [List.cons_lt_cons_iff, ← ih hlen, bigValue_cons, bigValue_cons, hlen]
      rw [hlen] at h1
      obtain hlt | heq | hgt := lt_trichotomy a.toNat b.toNat
      · have hle : 256 ^ bs.length * (a.toNat + 1) ≤ 256 ^ bs.length * b.toNat :=
          Nat.mul_le_mul_left _ hlt
        rw [Nat.mul_add, Nat.mul_one] at hle
        have hab : a < b := UInt8.lt_iff_toNat_lt.mpr hlt
        simp only [hab, true_or, iff_true]
        omega
      · obtain rfl := UInt8.toNat_inj.mp heq
        simp
      · have hle : 256 ^ bs.length * (b.toNat + 1) ≤ 256 ^ bs.length * a.toNat :=
          Nat.mul_le_mul_left _ hgt
        rw [Nat.mul_add, Nat.mul_one] at hle
        have hab : ¬ a < b := fun hab => absurd (UInt8.lt_iff_toNat_lt.mp hab) (by omega)
        have hne : a ≠ b := by rintro rfl; omega
        simp only [hab, hne, false_and, or_false, iff_false, not_lt]
        omega

theorem bigValue_inj {as bs : List UInt8} (h : as.length = bs.length) :
    bigValue as = bigValue bs ↔ as = bs := by
  refine ⟨fun he => ?_, fun he => by rw [he]⟩
  have h1 : ¬ as < bs := fun hlt => absurd ((bigValue_lt_iff h).mpr hlt) (by omega)
  have h2 : ¬ bs < as := fun hlt => absurd ((bigValue_lt_iff h.symm).mpr hlt) (by omega)
  exact List.le_antisymm h2 h1

namespace Key

theorem toNat_lt (k : Key n) : k.toNat < 256 ^ n := by
  have := bigValue_lt k.bytes
  rwa [k.length_bytes] at this

theorem lt_iff : k < k' ↔ k.toNat < k'.toNat :=
  (bigValue_lt_iff (by simp)).symm

theorem le_iff : k ≤ k' ↔ k.toNat ≤ k'.toNat := by
  change ¬ k' < k ↔ _
  rw [lt_iff, not_lt]

theorem toNat_inj : k.toNat = k'.toNat ↔ k = k' := by
  refine ⟨fun h => ext_bytes ?_, fun h => by rw [h]⟩
  exact (bigValue_inj (by simp)).mp h

theorem toNat_div (d : ℕ) : k.toNat / 256 ^ (n - d) = bigValue (k.bytes.take d) := by
  have hlen : (k.bytes.drop d).length = n - d := by simp
  have happ := bigValue_append (k.bytes.take d) (k.bytes.drop d)
  have hlt := bigValue_lt (k.bytes.drop d)
  rw [List.take_append_drop, hlen] at happ
  rw [hlen] at hlt
  rw [Key.toNat, happ, Nat.add_mul_div_left _ _ (by positivity), Nat.div_eq_of_lt hlt, zero_add]

/-- Keys between two that agree on their first bytes agree with both. -/
theorem take_eq_of_between {lo hi : Key n} {d : ℕ} (he : lo.bytes.take d = hi.bytes.take d)
    (h1 : lo ≤ k) (h2 : k ≤ hi) :
    k.bytes.take d = hi.bytes.take d := by
  have h3 := Nat.div_le_div_right (c := 256 ^ (n - d)) (le_iff.mp h1)
  have h4 := Nat.div_le_div_right (c := 256 ^ (n - d)) (le_iff.mp h2)
  rw [toNat_div, toNat_div] at h3 h4
  rw [he] at h3
  exact (bigValue_inj (by simp)).mp (Nat.le_antisymm h4 h3)

theorem take_fill {d : ℕ} {b : UInt8} (hd : d ≤ n) : (k.fill d b).bytes.take d = k.bytes.take d := by
  have hlen : (k.bytes.take d).length = d := by simp [hd]
  rw [Key.fill, List.take_append_of_le_length (by omega), List.take_of_length_le (by omega)]

end Key

theorem bigValue_replicate_zero (j : ℕ) : bigValue (List.replicate j 0) = 0 := by
  induction j with
  | zero => rfl
  | succ j ih => rw [List.replicate_succ, bigValue_cons, ih]; simp

theorem bigValue_replicate_max (j : ℕ) : bigValue (List.replicate j 255) = 256 ^ j - 1 := by
  induction j with
  | zero => rfl
  | succ j ih =>
    have hpos : 1 ≤ 256 ^ j := Nat.one_le_pow _ _ (by decide)
    rw [List.replicate_succ, bigValue_cons, ih, List.length_replicate,
      show (255 : UInt8).toNat = 255 from rfl, Nat.pow_succ]
    omega

namespace Key

theorem fill_zero_le (k : Key n) (d : ℕ) : k.fill d 0 ≤ k := by
  have happ := bigValue_append (k.bytes.take d) (k.bytes.drop d)
  rw [List.take_append_drop, List.length_drop, k.length_bytes] at happ
  rw [le_iff, Key.toNat, Key.toNat, happ, Key.fill, bigValue_append, bigValue_replicate_zero,
    List.length_replicate]
  omega

theorem fill_zero_le_of_take {d : ℕ} (h : k'.bytes.take d = k.bytes.take d) : k.fill d 0 ≤ k' := by
  have := fill_zero_le k' d
  rwa [show k'.fill d 0 = k.fill d 0 from ext_bytes (by simp only [fill, h])] at this

theorem le_fill_max_of_take {d : ℕ} (h : k'.bytes.take d = k.bytes.take d) : k' ≤ k.fill d 255 := by
  have happ := bigValue_append (k'.bytes.take d) (k'.bytes.drop d)
  rw [List.take_append_drop, List.length_drop, k'.length_bytes] at happ
  have hlt := bigValue_lt (k'.bytes.drop d)
  rw [List.length_drop, k'.length_bytes] at hlt
  rw [le_iff, Key.toNat, Key.toNat, happ, h, Key.fill, bigValue_append, bigValue_replicate_max,
    List.length_replicate]
  omega

end Key

theorem littleValue_addLoop (ps : List UInt8) (b : ℕ) :
    littleValue (addLoop ps b) = (littleValue ps + b) % 256 ^ ps.length := by
  induction ps generalizing b with
  | nil => simp [addLoop, Nat.mod_one]
  | cons p rest ih =>
    have hrest := littleValue_lt rest
    rw [addLoop]
    split
    · rename_i hlt
      rw [littleValue_cons, littleValue_cons, UInt8.toNat_ofNat_of_lt' (by simpa using hlt),
        Nat.mod_eq_of_lt]
      · omega
      · rw [List.length_cons, pow_succ]; omega
    · have hsum : p.toNat + 256 * littleValue rest + b =
          (p.toNat + b) % 256 + 256 * (littleValue rest + (p.toNat + b) / 256) := by
        have := Nat.mod_add_div (p.toNat + b) 256
        omega
      rw [littleValue_cons, littleValue_cons, ih,
        UInt8.toNat_ofNat_of_lt' (by simpa using Nat.mod_lt _ (by norm_num)), hsum,
        List.length_cons, pow_succ, mul_comm (256 ^ rest.length) 256, Nat.mod_mul]
      have h1 : ((p.toNat + b) % 256 + 256 * (littleValue rest + (p.toNat + b) / 256)) % 256 =
          (p.toNat + b) % 256 := by omega
      have h2 : ((p.toNat + b) % 256 + 256 * (littleValue rest + (p.toNat + b) / 256)) / 256 =
          littleValue rest + (p.toNat + b) / 256 := by omega
      rw [h1, h2]

namespace Key

theorem toNat_add (k : Key n) (b : UInt8) : (k.add b).toNat = (k.toNat + b.toNat) % 256 ^ n := by
  simp [Key.toNat, bigValue, Key.add, littleValue_addLoop]

theorem toNat_add_one (h : k < k') : (k.add 1).toNat = k.toNat + 1 := by
  have h1 := lt_iff.mp h
  have h2 := k'.toNat_lt
  rw [toNat_add, Nat.mod_eq_of_lt] <;> simp
  omega

end Key

theorem littleValue_subLoop {ps : List UInt8} {b : ℕ} (h : b ≤ littleValue ps) :
    littleValue (subLoop ps b) = littleValue ps - b := by
  induction ps generalizing b with
  | nil => simp [subLoop]
  | cons p rest ih =>
    rw [littleValue_cons] at h
    have hp := p.toNat_lt
    rw [subLoop]
    split
    · have hbyte : p.toNat - b < UInt8.size := by
        simp only [UInt8.size]
        omega
      rw [littleValue_cons, littleValue_cons, UInt8.toNat_ofNat_of_lt' hbyte]
      omega
    · rename_i hlt
      have hcarry : p.toNat + (b - p.toNat + 255) / 256 * 256 - b < UInt8.size := by
        simp only [UInt8.size]
        omega
      rw [littleValue_cons, littleValue_cons, UInt8.toNat_ofNat_of_lt' hcarry, ih (by omega)]
      omega

namespace Key

theorem toNat_sub_one (h : k < k') : (k'.sub 1).toNat = k'.toNat - 1 := by
  have h1 := lt_iff.mp h
  have h2 : (1 : UInt8).toNat ≤ littleValue k'.bytes.reverse := by
    change 1 ≤ k'.toNat
    omega
  simp only [Key.toNat, bigValue, Key.sub, List.reverse_reverse, littleValue_subLoop h2]
  rfl

theorem lt_iff_le_sub_one {x : Key n} (h : k < k') : x < k' ↔ x ≤ k'.sub 1 := by
  have h1 := lt_iff.mp h
  rw [lt_iff, le_iff, toNat_sub_one h]
  omega

end Key
end SmartTree
