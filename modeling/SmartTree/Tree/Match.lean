import SmartTree.Tree.Chain

/-! What the two comparison loops find: the first byte where two keys differ, and the
first byte of a header that differs from a key. -/
namespace SmartTree
variable {n : ℕ} {k k' : Key n} {σ π : List UInt8}

theorem Key.take_eq_of_bytes {d e : ℕ} (hd : k.bytes.take d = k'.bytes.take d) (he : d + e ≤ n)
    (h : ∀ i < e, k.byte (d + 1 + i) = k'.byte (d + 1 + i)) :
    k.bytes.take (d + e) = k'.bytes.take (d + e) := by
  induction e with
  | zero => exact hd
  | succ e ih =>
    have hlast := h e (by omega)
    rw [show d + (e + 1) = d + 1 + e by omega, Key.take_succ (k := k) (by omega) (by omega),
      Key.take_succ (k := k') (by omega) (by omega), hlast,
      show d + 1 + e - 1 = d + e by omega, ih (by omega) fun i hi => h i (by omega)]

theorem lcpLoop_spec (k k' : Key n) (d rest idx : ℕ) :
    idx ≤ lcpLoop k k' d rest idx ∧ lcpLoop k k' d rest idx ≤ idx + rest ∧
      (∀ i, idx ≤ i → i < lcpLoop k k' d rest idx → k.byte (d + i) = k'.byte (d + i)) ∧
      (lcpLoop k k' d rest idx < idx + rest →
        k.byte (d + lcpLoop k k' d rest idx) ≠ k'.byte (d + lcpLoop k k' d rest idx)) := by
  induction rest generalizing idx with
  | zero => simp only [lcpLoop]; exact ⟨le_rfl, le_rfl, fun _ _ _ => by omega, fun _ => by omega⟩
  | succ rest ih =>
    simp only [lcpLoop]
    split
    · rename_i hne
      exact ⟨le_rfl, by omega, fun i _ _ => by omega, fun _ => hne⟩
    · rename_i heq
      obtain ⟨h1, h2, h3, h4⟩ := ih (idx + 1)
      refine ⟨by omega, by omega, fun i hi hlt => ?_, fun hlt => h4 (by omega)⟩
      rcases Nat.lt_or_eq_of_le hi with hi | rfl
      · exact h3 i hi hlt
      · exact not_not.mp heq

theorem longestCommonPrefix_spec (hk : σ <+: k.bytes) (hk' : σ <+: k'.bytes) (hne : k ≠ k') :
    ∃ len, longestCommonPrefix k k' (σ.length + 1) = some len ∧ σ.length + 1 + len ≤ n ∧
      k.bytes.take (σ.length + len) = k'.bytes.take (σ.length + len) ∧
      k.byte (σ.length + 1 + len) ≠ k'.byte (σ.length + 1 + len) := by
  have hle : σ.length ≤ n := by simpa using hk.length_le
  have htake : k.bytes.take σ.length = k'.bytes.take σ.length := by
    rw [← List.prefix_iff_eq_take.mp hk, ← List.prefix_iff_eq_take.mp hk']
  have hlt : σ.length < n := by
    refine lt_of_le_of_ne hle fun he => hne (Key.ext_bytes ?_)
    rwa [List.take_of_length_le (by simp [he]), List.take_of_length_le (by simp [he])] at htake
  obtain ⟨-, h2, h3, h4⟩ := lcpLoop_spec k k' (σ.length + 1) (n - (σ.length + 1) + 1) 0
  generalize hlen : lcpLoop k k' (σ.length + 1) (n - (σ.length + 1) + 1) 0 = len at *
  have heq : ∀ i < len, k.byte (σ.length + 1 + i) = k'.byte (σ.length + 1 + i) :=
    fun i hi => h3 i (by omega) hi
  have hbound : len < 0 + (n - (σ.length + 1) + 1) := by
    by_contra hge
    refine hne (Key.ext_bytes ?_)
    have := Key.take_eq_of_bytes htake (e := n - σ.length) (by omega)
      fun i hi => heq i (by omega)
    rwa [show σ.length + (n - σ.length) = n by omega, List.take_of_length_le (by simp),
      List.take_of_length_le (by simp)] at this
  refine ⟨len, ?_, by omega, Key.take_eq_of_bytes htake (by omega) heq, h4 hbound⟩
  rw [longestCommonPrefix, if_pos (by omega), hlen]

namespace Header

theorem diffLoop_spec {d : ℕ} {bs : List UInt8} (hd : 1 ≤ d) (hn : d + bs.length ≤ n + 1) :
    (diffLoop k d bs = some none ∧ (k.bytes.drop (d - 1)).take bs.length = bs) ∨
    ∃ i b, diffLoop k d bs = some (some i) ∧ bs[i]? = some b ∧ k.byte (d + i) ≠ b ∧
      (k.bytes.drop (d - 1)).take i = bs.take i := by
  induction bs generalizing d with
  | nil => exact .inl ⟨rfl, by simp⟩
  | cons b bs ih =>
    simp only [List.length_cons] at hn
    have hlt : d - 1 < k.bytes.length := by rw [k.length_bytes]; omega
    have hb := Key.byte_eq_getElem (k := k) hd (by omega)
    rw [List.getElem?_eq_getElem hlt, Option.some.injEq] at hb
    have hdrop : k.bytes.drop (d - 1) = k.byte d :: k.bytes.drop (d + 1 - 1) := by
      rw [List.drop_eq_getElem_cons hlt, hb, show d - 1 + 1 = d + 1 - 1 by omega]
    by_cases hx : k.byte d = b
    · have hstep : diffLoop k d (b :: bs) =
          (diffLoop k (d + 1) bs).bind fun r => some (r.map (· + 1)) := by
        simp [diffLoop, getPartial_eq (show d ≤ n by omega), hx]
      rcases ih (d := d + 1) (by omega) (by omega) with ⟨h1, h2⟩ | ⟨i, b', h1, h2, h3, h4⟩
      · exact .inl ⟨by rw [hstep, h1]; rfl, by rw [hdrop, List.length_cons, List.take_succ_cons, h2, hx]⟩
      · refine .inr ⟨i + 1, b', by rw [hstep, h1]; rfl, by simpa using h2, ?_, ?_⟩
        · rwa [show d + (i + 1) = d + 1 + i by omega]
        · rw [hdrop, List.take_succ_cons, List.take_succ_cons, h4, hx]
    · refine .inr ⟨0, b, ?_, rfl, by simpa using hx, by simp⟩
      simp [diffLoop, getPartial_eq (show d ≤ n by omega), hx]

end Header

/-- A header and the key of a client that came along `σ`: either the key follows the node's
path to its end, or it leaves it at a byte below `σ`. -/
theorem HdrPath.firstDiff {h : Header} (hh : HdrPath π h) (hlen : π.length ≤ n)
    (hk : σ <+: k.bytes) (hπ : σ <+: π) (hd : h.depth ≤ σ.length + 1) :
    (h.firstDiff k = some none ∧ π <+: k.bytes) ∨
    ∃ i b, h.firstDiff k = some (some i) ∧ h.partials[i]? = some b ∧
      σ.length + 1 ≤ h.depth + i ∧ h.depth + i ≤ π.length ∧ b ≠ k.byte (h.depth + i) ∧
      k.bytes.take (h.depth + i - 1) ++ [b] <+: π := by
  have hpos := hh.pos
  have hend := hh.end_eq
  have hpre : k.bytes.take (h.depth - 1) = π.take (h.depth - 1) := by
    have h1 : σ.take (h.depth - 1) = k.bytes.take (h.depth - 1) := by
      obtain ⟨t, ht⟩ := hk
      rw [← ht, List.take_append_of_le_length (by omega)]
    have h2 : σ.take (h.depth - 1) = π.take (h.depth - 1) := by
      obtain ⟨t, ht⟩ := hπ
      rw [← ht, List.take_append_of_le_length (by omega)]
    exact h1.symm.trans h2
  rcases Header.diffLoop_spec (k := k) hpos (show h.depth + h.partials.length ≤ n + 1 by omega) with
    ⟨h1, h2⟩ | ⟨i, b, h1, h2, h3, h4⟩
  · refine .inl ⟨h1, ?_⟩
    have : k.bytes.take (h.depth - 1 + h.partials.length) = π := by
      rw [List.take_add, h2, hpre, hh.partials, List.take_append_drop]
    rw [← this]
    exact List.take_prefix _ _
  · obtain ⟨hi, hbi⟩ := List.getElem?_eq_some_iff.mp h2
    have hb : π[h.depth - 1 + i]? = some b := by
      rw [hh.partials, List.getElem?_drop] at h2
      exact h2
    have htake : k.bytes.take (h.depth - 1 + i) = π.take (h.depth - 1 + i) := by
      rw [List.take_add, List.take_add, h4, hpre, hh.partials]
    have hle : σ.length + 1 ≤ h.depth + i := by
      by_contra hlt
      -- a byte above `σ` cannot differ: key and node agree there
      have hlt' : h.depth - 1 + i < σ.length := by omega
      have e1 : k.bytes[h.depth - 1 + i]? = σ[h.depth - 1 + i]? := by
        obtain ⟨t, ht⟩ := hk
        rw [← ht, List.getElem?_append_left hlt']
      have e2 : π[h.depth - 1 + i]? = σ[h.depth - 1 + i]? := by
        obtain ⟨t, ht⟩ := hπ
        rw [← ht, List.getElem?_append_left hlt']
      have e3 := Key.byte_eq_getElem (k := k) (d := h.depth + i) (by omega) (by omega)
      rw [show h.depth + i - 1 = h.depth - 1 + i by omega, e1, ← e2, hb, Option.some.injEq] at e3
      exact h3 e3.symm
    refine .inr ⟨i, b, h1, h2, hle, by omega, fun he => h3 he.symm, ?_⟩
    have hlt : h.depth - 1 + i < π.length := by omega
    rw [show h.depth + i - 1 = h.depth - 1 + i by omega, htake]
    have hget : π[h.depth - 1 + i] = b := by
      rwa [List.getElem?_eq_getElem hlt, Option.some.injEq] at hb
    rw [← hget, ← List.take_succ_eq_append_getElem hlt]
    exact List.take_prefix _ _

theorem Key.append_byte_prefix (h : σ <+: k.bytes) (hlt : σ.length < n) :
    σ ++ [k.byte (σ.length + 1)] <+: k.bytes := by
  have he : σ = k.bytes.take σ.length := List.prefix_iff_eq_take.mp h
  have hs := Key.take_succ (k := k) (d := σ.length + 1) (by omega) (by omega)
  rw [Nat.add_sub_cancel, ← he] at hs
  rw [← hs]
  exact List.take_prefix _ _

end SmartTree
