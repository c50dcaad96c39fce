import SmartTree.RadixCache.Charges
import Mathlib.Algebra.BigOperators.Group.Finset.Basic
import Mathlib.Algebra.BigOperators.Group.Finset.Piecewise
import Mathlib.Algebra.Order.BigOperators.Group.Finset
import Mathlib.Tactic.Ring

/-! `FreeMemManager` as a ledger: its counter is the budget less what is recorded for the nodes
and the sizes of the live entries, in the arithmetic of the machine. As long as both are far
from the limits of the word the equation is one of integers. -/
namespace SmartTree.FreeMemManager

variable {f : FreeMemManager} {budget size : ℕ} {live : Finset EntryPtr} {entrySize : EntryPtr → ℕ}
variable {id : ℕ} {p : EntryPtr}

def recorded (f : FreeMemManager) (id : ℕ) : ℕ := ((f.nodeMemSize id).getD 0).toNat

def owed (f : FreeMemManager) (size : ℕ) (live : Finset EntryPtr) (entrySize : EntryPtr → ℕ) : ℕ :=
  ∑ id ∈ Finset.range size, f.recorded id + ∑ p ∈ live, entrySize p

def Balanced (f : FreeMemManager) (budget size : ℕ) (live : Finset EntryPtr) (entrySize : EntryPtr → ℕ) :
    Prop :=
  f.freeSize = BitVec.ofInt 64 ((budget : ℤ) - f.owed size live entrySize)

theorem Balanced.remain (h : Balanced f budget size live entrySize) (hb : budget < 2 ^ 62)
    (ho : f.owed size live entrySize < 2 ^ 62) :
    f.remainSize = (budget : ℤ) - f.owed size live entrySize := by
  rw [remainSize, h, BitVec.toInt_ofInt]
  refine Int.bmod_eq_of_le ?_ ?_ <;> omega

theorem owed_ofSize (x : BitVec 64) (size : ℕ) (entrySize : EntryPtr → ℕ) :
    (ofSize x).owed size ∅ entrySize = 0 := by
  simp [owed, recorded, ofSize]

theorem balanced_ofSize (budget size : ℕ) (entrySize : EntryPtr → ℕ) :
    Balanced (.ofSize (BitVec.ofNat 64 budget)) budget size ∅ entrySize := by
  rw [Balanced, owed_ofSize, Int.natCast_zero, sub_zero, BitVec.ofInt_natCast]
  rfl

theorem Balanced.congr {entrySize' : EntryPtr → ℕ} (h : Balanced f budget size live entrySize)
    (he : ∀ p ∈ live, entrySize' p = entrySize p) : Balanced f budget size live entrySize' := by
  rw [Balanced, owed, Finset.sum_congr rfl he]
  exact h

theorem owed_grow {size' : ℕ} (hle : size ≤ size') (hn : ∀ id, size ≤ id → f.nodeMemSize id = none) :
    f.owed size' live entrySize = f.owed size live entrySize := by
  rw [owed, owed]
  congr 1
  refine (Finset.sum_subset (Finset.range_subset_range.mpr hle) fun id _ h => ?_).symm
  rw [recorded, hn id (by simpa using h)]
  rfl

section node
variable {newSize : ℕ}

@[simp] theorem nodeMemSize_consumeByNode (x : BitVec 64) :
    (f.consumeByNode id x).nodeMemSize = Function.update f.nodeMemSize id (some x) := by
  rw [consumeByNode]
  split
  · rename_i h
    rw [← h]
  · rfl

theorem freeSize_consumeByNode (x : BitVec 64) :
    (f.consumeByNode id x).freeSize = f.freeSize + (-x + (f.nodeMemSize id).getD 0) := by
  rw [consumeByNode]
  split
  · rename_i h
    rw [← h, BitVec.add_comm (-x), BitVec.add_neg_eq_sub, BitVec.sub_self, BitVec.add_zero]
  · rfl

theorem owed_consumeByNode (f : FreeMemManager) (live : Finset EntryPtr) (entrySize : EntryPtr → ℕ)
    (hid : id < size) (hn : newSize < 2 ^ 64) :
    (f.consumeByNode id (BitVec.ofNat 64 newSize)).owed size live entrySize + f.recorded id =
      f.owed size live entrySize + newSize := by
  have hrec : (f.consumeByNode id (BitVec.ofNat 64 newSize)).recorded =
      Function.update f.recorded id newSize := by
    funext k
    by_cases hk : k = id
    · subst hk
      rw [Function.update_self, recorded, nodeMemSize_consumeByNode, Function.update_self, Option.getD_some,
        BitVec.toNat_ofNat, Nat.mod_eq_of_lt hn]
    · rw [Function.update_of_ne hk, recorded, nodeMemSize_consumeByNode, Function.update_of_ne hk]
      rfl
  have hmem : id ∈ Finset.range size := Finset.mem_range.mpr hid
  have hsum := Finset.sum_eq_add_sum_sdiff_singleton_of_mem hmem f.recorded
  rw [owed, owed, hrec, Finset.sum_update_of_mem hmem]
  omega

theorem Balanced.consumeByNode (h : Balanced f budget size live entrySize) (hid : id < size)
    (hn : newSize < 2 ^ 64) :
    Balanced (f.consumeByNode id (BitVec.ofNat 64 newSize)) budget size live entrySize := by
  have ho := owed_consumeByNode f live entrySize hid hn
  have hold : (f.nodeMemSize id).getD 0 = BitVec.ofInt 64 (f.recorded id) := by
    rw [recorded, BitVec.ofInt_natCast, BitVec.ofNat_toNat, BitVec.setWidth_eq]
  have hnew : -BitVec.ofNat 64 newSize = BitVec.ofInt 64 (-newSize) := by
    rw [BitVec.ofInt_neg, BitVec.ofInt_natCast]
  rw [Balanced, freeSize_consumeByNode, h, hold, hnew, ← BitVec.ofInt_add, ← BitVec.ofInt_add]
  congr 1
  omega

def chargeAll (f : FreeMemManager) (t : Trie) (ids : List ℕ) : FreeMemManager :=
  ids.foldl (fun f id => f.consumeByNode id (BitVec.ofNat 64 (t.node id).contentSize)) f

variable {t : Trie} {ids : List ℕ}

theorem nodeMemSize_chargeAll (f : FreeMemManager) (t : Trie) (ids : List ℕ) (k : ℕ) :
    (f.chargeAll t ids).nodeMemSize k =
      if k ∈ ids then some (BitVec.ofNat 64 (t.node k).contentSize) else f.nodeMemSize k := by
  induction ids generalizing f with
  | nil => simp [chargeAll]
  | cons id ids ih =>
    rw [show f.chargeAll t (id :: ids) =
      (f.consumeByNode id (BitVec.ofNat 64 (t.node id).contentSize)).chargeAll t ids from rfl, ih]
    by_cases hk : k ∈ ids
    · simp [hk]
    · by_cases he : k = id
      · subst he
        simp [hk]
      · simp [hk, he]

theorem Balanced.chargeAll {bound : ℕ} (h : Balanced f budget size live entrySize)
    (hids : ∀ id ∈ ids, id < size) (hb : ∀ id ∈ ids, (t.node id).contentSize ≤ bound)
    (hlt : bound < 2 ^ 64) :
    Balanced (f.chargeAll t ids) budget size live entrySize ∧
      (f.chargeAll t ids).owed size live entrySize ≤
        f.owed size live entrySize + ids.length * bound := by
  induction ids generalizing f with
  | nil => exact ⟨h, by simp [FreeMemManager.chargeAll]⟩
  | cons id ids ih =>
    have hle := hb id (by simp)
    have ho := owed_consumeByNode f live entrySize (hids id (by simp))
      (hle.trans_lt hlt)
    obtain ⟨h', ho'⟩ := ih (h.consumeByNode (hids id (by simp)) (hle.trans_lt hlt))
      (fun k hk => hids k (by simp [hk])) fun k hk => hb k (by simp [hk])
    refine ⟨h', ho'.trans ?_⟩
    rw [List.length_cons, Nat.succ_mul]
    omega

end node

section entry
variable {n : ℕ}

theorem signExtend_ofNat (hn : n < 2 ^ 31) : (BitVec.ofNat 32 n).signExtend 64 = BitVec.ofInt 64 n := by
  rw [BitVec.signExtend, ← BitVec.ofInt_natCast, BitVec.toInt_ofInt, Int.bmod_eq_of_le] <;> omega

theorem signExtend_neg_ofNat (hn : n < 2 ^ 31) :
    (-BitVec.ofNat 32 n).signExtend 64 = BitVec.ofInt 64 (-n) := by
  rw [BitVec.signExtend, ← BitVec.ofInt_natCast, ← BitVec.ofInt_neg, BitVec.toInt_ofInt,
    Int.bmod_eq_of_le] <;> omega

@[simp] theorem owed_consume (x : BitVec 32) :
    (f.consume x).owed size live entrySize = f.owed size live entrySize := rfl

@[simp] theorem owed_free (x : BitVec 32) :
    (f.free x).owed size live entrySize = f.owed size live entrySize := rfl

theorem owed_insert (hp : p ∉ live) :
    f.owed size (insert p live) entrySize = f.owed size live entrySize + entrySize p := by
  rw [owed, owed, Finset.sum_insert hp]
  omega

theorem owed_erase (hp : p ∈ live) :
    f.owed size (live.erase p) entrySize + entrySize p = f.owed size live entrySize := by
  have := Finset.add_sum_erase live entrySize hp
  rw [owed, owed]
  omega

theorem Balanced.consume (h : Balanced f budget size live entrySize) (hp : p ∉ live)
    (hn : entrySize p < 2 ^ 31) :
    Balanced (f.consume (BitVec.ofNat 32 (entrySize p))) budget size (insert p live) entrySize := by
  rw [Balanced, owed_consume, owed_insert hp]
  change f.freeSize + (-BitVec.ofNat 32 (entrySize p)).signExtend 64 = _
  rw [signExtend_neg_ofNat hn, h, ← BitVec.ofInt_add]
  congr 1
  omega

theorem Balanced.free (h : Balanced f budget size live entrySize) (hp : p ∈ live)
    (hn : entrySize p < 2 ^ 31) :
    Balanced (f.free (BitVec.ofNat 32 (entrySize p))) budget size (live.erase p) entrySize := by
  rw [Balanced, owed_free]
  change f.freeSize + (BitVec.ofNat 32 (entrySize p)).signExtend 64 = _
  rw [signExtend_ofNat hn, h, ← BitVec.ofInt_add, ← owed_erase hp]
  congr 1
  omega

end entry

section settle
variable {r : Inserted} {entry : EntryPtr → TimedEntry}

def settled (old : Option EntryPtr) (p : EntryPtr) (live : Finset EntryPtr) : Finset EntryPtr :=
  match old with
  | none => insert p live
  | some q => (insert p live).erase q

theorem mem_settled {old : Option EntryPtr} {q : EntryPtr} :
    q ∈ settled old p live ↔ (q = p ∨ q ∈ live) ∧ old ≠ some q := by
  cases old with
  | none => simp [settled]
  | some x => simp [settled, and_comm, eq_comm]

theorem nodeMemSize_settle (k : ℕ) : (f.settle r entry p).nodeMemSize k =
    if k ∈ r.charged then some (BitVec.ofNat 64 (r.trie.node k).contentSize) else f.nodeMemSize k := by
  rw [← nodeMemSize_chargeAll, settle]
  cases r.old <;> rfl

theorem Balanced.settle (h : Balanced f budget size live fun q => (entry q).contentSize) (bound : ℕ)
    (hids : ∀ id ∈ r.charged, id < size) (hb : ∀ id ∈ r.charged, (r.trie.node id).contentSize ≤ bound)
    (hlt : bound < 2 ^ 64) (hp : p ∉ live) (hold : ∀ q, r.old = some q → q ∈ live)
    (hsmall : ∀ q, q = p ∨ q ∈ live → (entry q).contentSize < 2 ^ 31) :
    Balanced (f.settle r entry p) budget size (settled r.old p live) (fun q => (entry q).contentSize) ∧
      (f.settle r entry p).owed size (settled r.old p live) (fun q => (entry q).contentSize) ≤
        f.owed size live (fun q => (entry q).contentSize) + r.charged.length * bound +
          (entry p).contentSize := by
  obtain ⟨h₁, ho₁⟩ := h.chargeAll hids hb hlt
  have h₂ := h₁.consume hp (hsmall p (.inl rfl))
  have ho₂ : (f.chargeAll r.trie r.charged).owed size (insert p live) (fun q => (entry q).contentSize) ≤
      f.owed size live (fun q => (entry q).contentSize) + r.charged.length * bound +
        (entry p).contentSize := by
    rw [owed_insert hp]
    exact Nat.add_le_add_right ho₁ _
  cases hr : r.old with
  | none =>
    have hs : f.settle r entry p =
        (f.chargeAll r.trie r.charged).consume (BitVec.ofNat 32 (entry p).contentSize) := by
      rw [FreeMemManager.settle, hr]
      rfl
    rw [hs]
    exact ⟨h₂, ho₂⟩
  | some q =>
    have hs : f.settle r entry p =
        ((f.chargeAll r.trie r.charged).consume (BitVec.ofNat 32 (entry p).contentSize)).free
          (BitVec.ofNat 32 (entry q).contentSize) := by
      rw [FreeMemManager.settle, hr]
      rfl
    have hq : q ∈ insert p live := Finset.mem_insert_of_mem (hold q hr)
    rw [hs]
    refine ⟨h₂.free hq (hsmall q (.inr (hold q hr))), le_trans ?_ ho₂⟩
    rw [owed_free, owed_consume, settled, ← owed_erase hq]
    exact Nat.le_add_right ..

end settle
end SmartTree.FreeMemManager
