import SmartTree.KeyOrder

/-! `add_one`, `operator+`, `operator-`, `int2key` and `key2int` as arithmetic on the big-endian
number of a key, and the scan loop over the keys between two bounds. -/
namespace SmartTree
variable {n : ℕ} {k k' lo hi : Key n}

/-- The carry loop of `add_one` over the bytes from the last one on. -/
def addOneLoop : List UInt8 → List UInt8
  | [] => []
  | p :: rest => if p.toNat + 1 < 256 then (p + 1) :: rest else 0 :: addOneLoop rest

/-- Adding one is adding the byte one: the carry of `operator+` is then one as well. -/
theorem addOneLoop_eq (ps : List UInt8) : addOneLoop ps = addLoop ps 1 := by
  induction ps with
  | nil => rfl
  | cons p rest ih =>
    rw [addOneLoop, addLoop]
    split
    · rw [UInt8.ofNat_add, UInt8.ofNat_toNat]
      rfl
    · rename_i hge
      have hp := p.toNat_lt
      have hmax : p.toNat + 1 = 256 := by omega
      rw [ih, hmax]
      rfl

def Key.addOne (a : Key n) : Key n where
  bytes := (addOneLoop a.bytes.reverse).reverse
  length_eq := by simp [addOneLoop_eq, length_addLoop]

theorem Key.addOne_eq (k : Key n) : k.addOne = k.add 1 :=
  Key.ext_bytes (congrArg List.reverse (addOneLoop_eq _))

theorem add_mul_emod_mul {a c x m : ℤ} (h0 : 0 ≤ a) (hc : a < c) (hm : 0 < m) :
    (a + c * x) % (c * m) = a + c * (x % m) := by
  have h1 := Int.emod_nonneg x hm.ne'
  have h2 := Int.emod_lt_of_pos x hm
  have hcm : c * (x % m) + c ≤ c * m := by nlinarith
  have hx : a + c * x = a + c * (x % m) + c * m * (x / m) := by
    nth_rewrite 1 [← Int.emod_add_mul_ediv x m]
    ring
  rw [hx, Int.add_mul_emod_self_left, Int.emod_eq_of_lt]
  · have : 0 ≤ c * (x % m) := mul_nonneg (by omega) h1
    omega
  · omega

/-- The borrow loop subtracts modulo the number of byte strings. By induction on the bytes left:
what a byte cannot pay is subtracted from the bytes above it. -/
theorem littleValue_subLoop_emod (ps : List UInt8) (b : ℕ) :
    (littleValue (subLoop ps b) : ℤ) = ((littleValue ps : ℤ) - b) % 256 ^ ps.length := by
  induction ps generalizing b with
  | nil => simp [subLoop]
  | cons p rest ih =>
    have hp := p.toNat_lt
    have hrest := littleValue_lt rest
    have hpos : (0 : ℤ) < 256 ^ rest.length := by positivity
    rw [subLoop, List.length_cons, pow_succ, mul_comm ((256 : ℤ) ^ rest.length)]
    split
    · rename_i hle
      have hbyte : p.toNat - b < UInt8.size := by
        simp only [UInt8.size]
        omega
      have hsplit : ((p.toNat + 256 * littleValue rest : ℕ) : ℤ) - b =
          ((p.toNat - b : ℕ) : ℤ) + 256 * (littleValue rest : ℤ) := by omega
      rw [littleValue_cons, littleValue_cons, UInt8.toNat_ofNat_of_lt' hbyte, hsplit,
        add_mul_emod_mul (by omega) (by omega) hpos,
        Int.emod_eq_of_lt (by omega) (by exact_mod_cast hrest)]
      push_cast
      rfl
    · rename_i hlt
      set carry := (b - p.toNat + 255) / 256 with hcarry
      have hbyte : p.toNat + carry * 256 - b < UInt8.size := by
        simp only [UInt8.size]
        omega
      have hsplit : ((p.toNat + 256 * littleValue rest : ℕ) : ℤ) - b =
          ((p.toNat + carry * 256 - b : ℕ) : ℤ) + 256 * ((littleValue rest : ℤ) - carry) := by
        omega
      rw [littleValue_cons, littleValue_cons, UInt8.toNat_ofNat_of_lt' hbyte, hsplit,
        add_mul_emod_mul (by omega) (by simp only [UInt8.size] at hbyte; omega) hpos, ← ih]
      push_cast
      rfl

namespace Key

theorem toNat_sub (k : Key n) (b : UInt8) :
    ((k.sub b).toNat : ℤ) = ((k.toNat : ℤ) - b.toNat) % 256 ^ n := by
  have h := littleValue_subLoop_emod k.bytes.reverse b.toNat
  rw [List.length_reverse, k.length_bytes] at h
  simpa only [Key.toNat, bigValue, Key.sub, List.reverse_reverse] using h

theorem toNat_addOne (k : Key n) : k.addOne.toNat = (k.toNat + 1) % 256 ^ n := by
  rw [addOne_eq, toNat_add]
  rfl

end Key

def key2int (k : Key n) : UInt64 := k.bytes.foldl (fun res a => (res <<< 8) + a.toUInt64) 0

theorem toNat_foldl_bytes (bs : List UInt8) (res : UInt64) :
    (bs.foldl (fun (res : UInt64) a => (res <<< 8) + a.toUInt64) res).toNat =
      (256 ^ bs.length * res.toNat + bigValue bs) % 2 ^ 64 := by
  induction bs generalizing res with
  | nil => simp [bigValue]
  | cons b bs ih =>
    have hstep : ((res <<< 8) + b.toUInt64).toNat = (256 * res.toNat + b.toNat) % 2 ^ 64 := by
      simp [UInt64.toNat_add, UInt64.toNat_shiftLeft, Nat.shiftLeft_eq, mul_comm]
    rw [List.foldl_cons, ih, hstep, bigValue_cons, List.length_cons, pow_succ,
      Nat.add_mod, Nat.mul_mod_mod, ← Nat.add_mod]
    congr 1
    ring

theorem toNat_key2int (k : Key n) : (key2int k).toNat = k.toNat % 2 ^ 64 := by
  rw [key2int, toNat_foldl_bytes, UInt64.toNat_zero, mul_zero, zero_add, Key.toNat]

theorem toNat_key2int_keyLen (k : Key keyLen) : (key2int k).toNat = k.toNat := by
  rw [toNat_key2int]
  exact Nat.mod_eq_of_lt k.toNat_lt

theorem bigValue_bytes (x m : ℕ) :
    bigValue ((List.range m).map fun i => UInt8.ofNat (x >>> ((m - (i + 1)) * 8))) =
      x % 256 ^ m := by
  induction m with
  | zero => simp [bigValue, Nat.mod_one]
  | succ m ih =>
    have hshift : x >>> (m * 8) = x / 256 ^ m := by
      rw [Nat.shiftRight_eq_div_pow, mul_comm m 8, pow_mul]
      rfl
    rw [List.range_succ_eq_map, List.map_cons, List.map_map, bigValue_cons, List.length_map,
      List.length_range]
    have htail : ((fun i => UInt8.ofNat (x >>> ((m + 1 - (i + 1)) * 8))) ∘ Nat.succ) =
        fun i => UInt8.ofNat (x >>> ((m - (i + 1)) * 8)) := by
      funext i
      simp
    rw [htail, ih, Nat.zero_add, Nat.add_sub_cancel, hshift, Nat.mod_pow_succ]
    simp

theorem toNat_int2key (n : ℕ) (x : UInt64) : (int2key n x).toNat = x.toNat % 256 ^ n := by
  have hbytes : (int2key n x).bytes =
      (List.range n).map fun i => UInt8.ofNat (x.toNat >>> ((n - (i + 1)) * 8)) := by
    refine List.map_congr_left fun i _ => ?_
    dsimp only
    split
    · rename_i hge
      have hlt : x.toNat < 2 ^ ((n - (i + 1)) * 8) :=
        x.toNat_lt.trans_le (Nat.pow_le_pow_right (by decide) hge)
      rw [Nat.shiftRight_eq_div_pow, Nat.div_eq_of_lt hlt]
      rfl
    · rfl
  rw [Key.toNat, hbytes, bigValue_bytes]

theorem toNat_int2key_keyLen (x : UInt64) : (int2key keyLen x).toNat = x.toNat := by
  rw [toNat_int2key]
  exact Nat.mod_eq_of_lt x.toNat_lt

theorem key2int_int2key (x : UInt64) : key2int (int2key keyLen x) = x :=
  UInt64.toNat_inj.mp ((toNat_key2int_keyLen _).trans (toNat_int2key_keyLen x))

theorem int2key_key2int (k : Key keyLen) : int2key keyLen (key2int k) = k :=
  Key.toNat_inj.mp ((toNat_int2key_keyLen _).trans (toNat_key2int_keyLen k))

theorem int2key_lt_iff {x y : UInt64} : int2key keyLen x < int2key keyLen y ↔ x < y := by
  rw [Key.lt_iff, toNat_int2key_keyLen, toNat_int2key_keyLen, UInt64.lt_iff_toNat_lt]

theorem key2int_lt_iff {k k' : Key keyLen} : key2int k < key2int k' ↔ k < k' := by
  rw [Key.lt_iff, UInt64.lt_iff_toNat_lt, toNat_key2int_keyLen, toNat_key2int_keyLen]

theorem key2int_add (k : Key keyLen) (b : UInt8) : key2int (k.add b) = key2int k + b.toUInt64 := by
  refine UInt64.toNat_inj.mp ?_
  rw [UInt64.toNat_add, toNat_key2int_keyLen, toNat_key2int_keyLen, Key.toNat_add]
  rfl

theorem key2int_sub (k : Key keyLen) (b : UInt8) : key2int (k.sub b) = key2int k - b.toUInt64 := by
  have hsum : key2int (k.sub b) + b.toUInt64 = key2int k := by
    refine UInt64.toNat_inj.mp ?_
    have hk := k.toNat_lt
    have hsub := Key.toNat_sub k b
    have hb := b.toNat_lt
    rw [UInt64.toNat_add, toNat_key2int_keyLen, toNat_key2int_keyLen, UInt8.toNat_toUInt64]
    simp only [keyLen] at hk hsub ⊢
    omega
  rw [← hsum, UInt64.add_sub_cancel]

theorem key2int_addOne (k : Key keyLen) : key2int k.addOne = key2int k + 1 := by
  rw [Key.addOne_eq, key2int_add]
  rfl

section scan

/-- The keys `for (k = from; k < to; k = k + 1)` visits; `none` if the loop has not ended after
`fuel` tests of its condition. -/
def scanLoop (hi : Key n) : ℕ → Key n → Option (List (Key n))
  | 0, _ => none
  | fuel + 1, k => if k < hi then (scanLoop hi fuel (k.add 1)).map (k :: ·) else some []

/-- The keys from a key on are that key and those from its successor on. -/
theorem Key.le_iff_eq_or_add_one_le (h : k < hi) (x : Key n) : k ≤ x ↔ x = k ∨ k.add 1 ≤ x := by
  rw [Key.le_iff, Key.le_iff, Key.toNat_add_one h, ← Key.toNat_inj]
  omega

/-- The loop ends and visits the keys between the bounds in order. By induction on the fuel, which
is more than the distance to the upper bound. -/
theorem scanLoop_spec {fuel : ℕ} (hfuel : hi.toNat - k.toNat < fuel) :
    ∃ ks, scanLoop hi fuel k = some ks ∧ ks.Pairwise (· < ·) ∧ ∀ x, x ∈ ks ↔ k ≤ x ∧ x < hi := by
  induction fuel generalizing k with
  | zero => omega
  | succ fuel ih =>
    rw [scanLoop]
    split
    · rename_i hlt
      have hnext := Key.toNat_add_one hlt
      have hgap := Key.lt_iff.mp hlt
      obtain ⟨ks, hks, hsorted, hmem⟩ := ih (k := k.add 1) (by omega)
      refine ⟨k :: ks, by rw [hks]; rfl, List.pairwise_cons.mpr ⟨fun x hx => ?_, hsorted⟩,
        fun x => ?_⟩
      · have hle := Key.le_iff.mp ((hmem x).mp hx).1
        rw [Key.lt_iff]
        omega
      · rw [List.mem_cons, hmem, Key.le_iff_eq_or_add_one_le hlt, or_and_right]
        exact or_congr_left ⟨fun hx => ⟨hx, hx ▸ hlt⟩, And.left⟩
    · rename_i hge
      refine ⟨[], rfl, List.Pairwise.nil, fun x => ⟨nofun, fun ⟨h1, h2⟩ => ?_⟩⟩
      rw [Key.lt_iff] at hge h2
      rw [Key.le_iff] at h1
      omega

end scan

/-- The arithmetic of keys is that of their big-endian numbers, modulo the number of keys; the
scan loop visits the keys between its bounds once each and in order; `get_leftmost` and
`get_rightmost` bound the keys with the given first bytes. -/
theorem key_arithmetic :
    (∀ x : UInt64, key2int (int2key keyLen x) = x) ∧
    (∀ k : Key keyLen, int2key keyLen (key2int k) = k) ∧
    (∀ x y : UInt64, int2key keyLen x < int2key keyLen y ↔ x < y) ∧
    (∀ k k' : Key keyLen, key2int k < key2int k' ↔ k < k') ∧
    (∀ (k : Key keyLen) (b : UInt8), key2int (k.add b) = key2int k + b.toUInt64 ∧
      key2int (k.sub b) = key2int k - b.toUInt64 ∧ key2int k.addOne = key2int k + 1) ∧
    (∀ (n : ℕ) (k : Key n) (b : UInt8), (k.add b).toNat = (k.toNat + b.toNat) % 256 ^ n ∧
      ((k.sub b).toNat : ℤ) = ((k.toNat : ℤ) - b.toNat) % 256 ^ n ∧
      k.addOne.toNat = (k.toNat + 1) % 256 ^ n) ∧
    (∀ (n : ℕ) (lo hi : Key n), ∃ fuel ks, scanLoop hi fuel lo = some ks ∧
      ks.Pairwise (· < ·) ∧ ∀ k, k ∈ ks ↔ lo ≤ k ∧ k < hi) ∧
    ∀ (n : ℕ) (k : Key n) (d : ℕ), d ≤ n →
      ((getLeftmost k d).pre d = k.pre d ∧ ∀ x : Key n, x.pre d = k.pre d → getLeftmost k d ≤ x) ∧
      (getRightmost k d).pre d = k.pre d ∧
        ∀ x : Key n, x.pre d = k.pre d → x ≤ getRightmost k d := by
  refine ⟨key2int_int2key, int2key_key2int, fun _ _ => int2key_lt_iff, fun _ _ => key2int_lt_iff,
    fun k b => ⟨key2int_add k b, key2int_sub k b, key2int_addOne k⟩,
    fun n k b => ⟨k.toNat_add b, k.toNat_sub b, k.toNat_addOne⟩, fun n lo hi => ?_,
    fun n k d hd => ⟨⟨Key.take_fill hd, fun _ => Key.fill_zero_le_of_take⟩, Key.take_fill hd,
      fun _ => Key.le_fill_max_of_take⟩⟩
  exact ⟨_, scanLoop_spec (Nat.lt_succ_self (hi.toNat - lo.toNat))⟩

end SmartTree
