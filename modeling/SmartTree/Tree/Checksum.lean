import SmartTree.Lib.Crc
import SmartTree.Tree.Machine

/-! The checksum of a leaf: CRC-64 over the bytes of the key and the value as they lie in memory.
For a given key it tells every two values apart. -/
namespace SmartTree
variable {n : ℕ}

def crcPoly : BitVec 64 := 0x42F0E1EBA9EA3693

/-- The `simulatedValLen` bytes of a value, the lowest first. -/
def valueBytes (v : Value) : List (BitVec 8) :=
  (List.range 8).map fun i => v.toBitVec.extractLsb' (8 * i) 8

/-- `crc_processor.checksum()` after `reset()` and `process_bytes` over the key and the value. -/
def checksum (k : Key n) (v : Value) : UInt64 :=
  ⟨Crc.remainder crcPoly (~~~0) (k.bytes.map UInt8.toBitVec ++ valueBytes v) ^^^ ~~~0⟩

theorem valueBytes_injective : valueBytes.Injective := by
  intro v v' h
  refine UInt64.toBitVec_inj.mp (BitVec.eq_of_getLsbD_eq fun i hi => ?_)
  have hbyte := congrArg (fun l => (l[i / 8]?).map fun b => b.getLsbD (i % 8)) h
  have hlt : i / 8 < 8 := by omega
  simpa [valueBytes, hlt, show i % 8 < 8 by omega, Nat.div_add_mod] using hbyte

theorem checksum_injective (k : Key n) : (checksum k).Injective := by
  intro v v' h
  have hrem : Crc.remainder crcPoly (~~~0) (k.bytes.map UInt8.toBitVec ++ valueBytes v) =
      Crc.remainder crcPoly (~~~0) (k.bytes.map UInt8.toBitVec ++ valueBytes v') :=
    (BitVec.xor_left_inj _).mp (congrArg UInt64.toBitVec h)
  rw [Crc.remainder, Crc.remainder, List.foldl_append, List.foldl_append] at hrem
  exact valueBytes_injective (Crc.remainder_injective (by decide) _ (by simp [valueBytes])
    (by simp [valueBytes]) hrem)

/-- A snapshot with the key and the checksum of a leaf is consistent only with the leaf's value;
with any other value `read_leaf` reads again. -/
theorem checksum_pins_value (c : Client n) (a : Addr) (k : Key n) (v : Value) (rev : Ptr)
    (hkey : c.leaf.key = k) (hsum : c.leaf.checksum = (Leaf.make checksum k v rev).checksum) :
    (c.leaf.isConsistent checksum = true → c.leaf.value = v) ∧
      (c.leaf.value ≠ v → c.leaf.isValid c.pPtr c.fromCache = true →
        (c.leafRead checksum a).pc = .readLeaf leafWords) := by
  have hpin : c.leaf.isConsistent checksum = true → c.leaf.value = v := by
    intro hcons
    rw [Leaf.isConsistent, beq_iff_eq, hsum, hkey] at hcons
    exact checksum_injective k hcons
  refine ⟨hpin, fun hne hvalid => ?_⟩
  have hcons : c.leaf.isConsistent checksum = false := by
    by_contra h
    exact hne (hpin (by simpa using h))
  simp [Client.leafRead, hvalid, hcons]

def zeroKey : Key keyLen := ⟨List.replicate 8 0, rfl⟩

def tornRead : Client keyLen where
  pc := .readLeaf []
  isSearch := true
  key := zeroKey
  value := 0
  isLoad := false
  pPtr := .root
  p := .leaf 0 5
  depth := 1
  fromCache := false
  leafAddr := none
  page := ⟨.root, ⟨0, .deleted, []⟩, fun _ => .null⟩
  leaf := { Leaf.make checksum zeroKey 7 .root with value := 8 }
  pending := []
  settled := false

theorem torn_read_is_repeated : (tornRead.leafRead checksum 5).pc = .readLeaf leafWords :=
  (checksum_pins_value tornRead 5 zeroKey 7 .root rfl rfl).2 (by decide) rfl

end SmartTree
