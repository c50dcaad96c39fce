import Mathlib.Data.List.Basic
import Mathlib.Data.UInt

/-! Fixed-length byte keys and the partial-key helpers of the tree. Depths count
from one; depth zero stands for the root entry, which carries no byte. -/
namespace SmartTree

/-- `define::keyLen`; everything below is stated for any length. -/
def keyLen : ℕ := 8

structure Key (n : ℕ) where
  bytes : List UInt8
  length_eq : bytes.length = n
deriving DecidableEq

instance lawfulBEqKey (n : ℕ) : LawfulBEq (Key n) := inferInstance

def Key.ofList (bs : List UInt8) : Key bs.length := ⟨bs, rfl⟩

abbrev Value := UInt64

namespace Key
variable {n : ℕ}

@[simp] theorem length_bytes (k : Key n) : k.bytes.length = n := k.length_eq

theorem ext_bytes {k k' : Key n} (h : k.bytes = k'.bytes) : k = k' := by
  cases k; cases k'; cases h; rfl

def byte (k : Key n) (depth : ℕ) : UInt8 :=
  if depth = 0 then 0 else k.bytes.getD (depth - 1) 0

def pre (k : Key n) (d : ℕ) : List UInt8 := k.bytes.take d

end Key

variable {n : ℕ}

/-- `get_partial`; `std::array::at` throws outside the key. -/
def getPartial (k : Key n) (depth : ℕ) : Option UInt8 :=
  if depth ≤ n then some (k.byte depth) else none

/-- The comparison loop of `longest_common_prefix` with `rest` rounds to go. -/
def lcpLoop (k₁ k₂ : Key n) (depth : ℕ) : ℕ → ℕ → ℕ
  | 0, idx => idx
  | rest + 1, idx =>
    if k₁.byte (depth + idx) ≠ k₂.byte (depth + idx) then idx
    else lcpLoop k₁ k₂ depth rest (idx + 1)

/-- First index at which the keys differ from `depth` on; the assert on the depth is explicit. -/
def longestCommonPrefix (k₁ k₂ : Key n) (depth : ℕ) : Option ℕ :=
  if depth ≤ n then some (lcpLoop k₁ k₂ depth (n - depth + 1) 0) else none

/-- `std::array` compares byte by byte from the front. -/
instance : LT (Key n) := ⟨fun a b => a.bytes < b.bytes⟩
instance (a b : Key n) : Decidable (a < b) := inferInstanceAs (Decidable (a.bytes < b.bytes))

/-- The carry loop of `operator+` over the bytes from the last one on. -/
def addLoop : List UInt8 → ℕ → List UInt8
  | [], _ => []
  | p :: rest, b =>
    if p.toNat + b < 256 then UInt8.ofNat (p.toNat + b) :: rest
    else UInt8.ofNat ((p.toNat + b) % 256) :: addLoop rest ((p.toNat + b) / 256)

theorem length_addLoop (ps : List UInt8) (b : ℕ) : (addLoop ps b).length = ps.length := by
  induction ps generalizing b with
  | nil => rfl
  | cons p rest ih =>
    rw [addLoop]
    split
    · rfl
    · simp [ih]

/-- `operator+`; the summand is a byte. -/
def Key.add (a : Key n) (b : UInt8) : Key n where
  bytes := (addLoop a.bytes.reverse b.toNat).reverse
  length_eq := by simp [length_addLoop]

/-- The borrow loop of `operator-`; the inner loop adds 256 until the byte is large enough. -/
def subLoop : List UInt8 → ℕ → List UInt8
  | [], _ => []
  | p :: rest, b =>
    if b ≤ p.toNat then UInt8.ofNat (p.toNat - b) :: rest
    else
      let carry := (b - p.toNat + 255) / 256
      UInt8.ofNat (p.toNat + carry * 256 - b) :: subLoop rest carry

theorem length_subLoop (ps : List UInt8) (b : ℕ) : (subLoop ps b).length = ps.length := by
  induction ps generalizing b with
  | nil => rfl
  | cons p rest ih =>
    rw [subLoop]
    split
    · rfl
    · simp [ih]

def Key.sub (a : Key n) (b : UInt8) : Key n where
  bytes := (subLoop a.bytes.reverse b.toNat).reverse
  length_eq := by simp [length_subLoop]

instance : LE (Key n) := ⟨fun a b => ¬ b < a⟩
instance (a b : Key n) : Decidable (a ≤ b) := inferInstanceAs (Decidable (¬ b < a))

/-- `std::max` and `std::min`: the first argument, unless the second is larger or smaller. -/
def Key.max (a b : Key n) : Key n := if a < b then b else a
@[inherit_doc Key.max] def Key.min (a b : Key n) : Key n := if b < a then b else a

/-- The first `d` bytes of a key, then one byte throughout. -/
def Key.fill (k : Key n) (d : ℕ) (b : UInt8) : Key n where
  bytes := k.bytes.take d ++ List.replicate (n - d) b
  length_eq := by rw [List.length_append, List.length_take, List.length_replicate, k.length_eq]; omega

/-- `get_leftmost` and `get_rightmost`, for a depth inside the key. -/
def getLeftmost (k : Key n) (depth : ℕ) : Key n := k.fill depth 0
@[inherit_doc getLeftmost] def getRightmost (k : Key n) (depth : ℕ) : Key n := k.fill depth 255

/-- `remake_prefix`: the bytes above the depth, a new byte at it, zeros below. -/
def remakePrefix (k : Key n) (depth : ℕ) (b : UInt8) : Option (Key n) :=
  if h0 : depth = 0 then some (k.fill 0 0)
  else if h : depth ≤ n then some
    { bytes := k.bytes.take (depth - 1) ++ b :: List.replicate (n - depth) 0
      length_eq := by
        rw [List.length_append, List.length_cons, List.length_take, List.length_replicate,
          k.length_eq]
        omega }
  else none

/-- `int2key`: big-endian bytes, padded with zeros on the left of a key longer than eight. -/
def int2key (n : ℕ) (x : UInt64) : Key n where
  bytes := (List.range n).map fun i =>
    let shr := (n - (i + 1)) * 8
    if 64 ≤ shr then 0 else UInt8.ofNat (x.toNat >>> shr)
  length_eq := by simp

end SmartTree
