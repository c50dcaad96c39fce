import Mathlib.Algebra.Group.Nat.Defs
import Mathlib.Data.Nat.Basic

/-! Global addresses and the alignment macros. A node number takes 16 bits and an offset 48;
offsets are widened to 64 bits before any arithmetic and cut again when stored. -/
namespace SmartTree

structure GlobalAddress where
  nodeID : BitVec 16
  offset : BitVec 48
deriving DecidableEq

namespace GlobalAddress

def null : GlobalAddress := ⟨0, 0⟩

def addOffset (a : GlobalAddress) (off : BitVec 64) : GlobalAddress :=
  { a with offset := (a.offset.setWidth 64 + off).setWidth 48 }

@[simp] theorem nodeID_addOffset (a : GlobalAddress) (off : BitVec 64) :
    (a.addOffset off).nodeID = a.nodeID := rfl

theorem toNat_addOffset (a : GlobalAddress) (off : BitVec 64) :
    (a.addOffset off).offset.toNat = (a.offset.toNat + off.toNat) % 2 ^ 48 := by
  simp only [addOffset, BitVec.toNat_setWidth, BitVec.toNat_add]
  omega

theorem toNat_addOffset_of_lt (a : GlobalAddress) (off : BitVec 64)
    (h : a.offset.toNat + off.toNat < 2 ^ 48) :
    (a.addOffset off).offset.toNat = a.offset.toNat + off.toNat := by
  rw [toNat_addOffset, Nat.mod_eq_of_lt h]

end GlobalAddress

def kChunkSize : ℕ := 16 * 1024 * 1024

def allocAllignBit : ℕ := 8

def alignMask (n : ℕ) : BitVec 64 := ~~~((1#64 <<< n) - 1)

def roundUp (x : BitVec 64) (n : ℕ) : BitVec 64 := (x + (1#64 <<< n) - 1) &&& alignMask n

theorem toNat_and_alignMask (x : BitVec 64) :
    (x &&& alignMask allocAllignBit).toNat = x.toNat / 256 * 256 := by
  have hbit : ∀ i < 64, (alignMask allocAllignBit).getLsbD i = decide (8 ≤ i) := by decide
  have h : x &&& alignMask allocAllignBit = (x >>> 8) <<< 8 := by
    ext i hi
    rw [BitVec.getElem_and, BitVec.getElem_shiftLeft, ← BitVec.getLsbD_eq_getElem,
      ← BitVec.getLsbD_eq_getElem, hbit i hi]
    by_cases h8 : i < 8
    · simp [h8]
    · simp [h8, show 8 ≤ i by omega, show 8 + (i - 8) = i by omega]
  rw [h]
  simp only [BitVec.toNat_shiftLeft, BitVec.toNat_ushiftRight, Nat.shiftLeft_eq,
    Nat.shiftRight_eq_div_pow]
  omega

theorem toNat_roundUp (x : BitVec 64) (h : x.toNat + 255 < 2 ^ 64) :
    (roundUp x allocAllignBit).toNat = (x.toNat + 255) / 256 * 256 := by
  have hx : (x + (1#64 <<< allocAllignBit) - 1).toNat = x.toNat + 255 := by
    have : (1#64 <<< allocAllignBit) = 256#64 := by decide
    rw [this]
    bv_omega
  rw [roundUp, toNat_and_alignMask, hx]

end SmartTree
