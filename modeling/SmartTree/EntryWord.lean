import SmartTree.GlobalAddress
import SmartTree.HeaderWord

/-! An internal entry as the 64-bit word that is compared and swapped. Entries of leaves and of
nodes share the byte of the partial key, the kind bit and the packed address; seven bits are the
length of a leaf or the type of a node. -/
namespace SmartTree

abbrev kvLenBit : ℕ := 7
abbrev mnIdBit : ℕ := 8
abbrev offsetBit : ℕ := 40

example : offsetBit = 48 - allocAllignBit := rfl

/-- `PackedGAddr`, with the node in the low byte. -/
structure PackedGAddr where
  mnId : BitVec mnIdBit
  offset : BitVec offsetBit
deriving DecidableEq

/-- The initialiser `{addr.nodeID, addr.offset >> ALLOC_ALLIGN_BIT}`, cut to the fields. -/
def GlobalAddress.packed (a : GlobalAddress) : PackedGAddr :=
  ⟨a.nodeID.setWidth _, (a.offset >>> allocAllignBit).setWidth _⟩

def GlobalAddress.Packable (a : GlobalAddress) : Prop :=
  a.nodeID.toNat < 2 ^ mnIdBit ∧ 2 ^ allocAllignBit ∣ a.offset.toNat

instance (a : GlobalAddress) : Decidable a.Packable := inferInstanceAs (Decidable (_ ∧ _))

namespace PackedGAddr

def word (p : PackedGAddr) : BitVec 48 := p.offset ++ p.mnId

def addr (p : PackedGAddr) : GlobalAddress :=
  ⟨p.mnId.setWidth 16, p.offset.setWidth 48 <<< allocAllignBit⟩

theorem addr_packed {a : GlobalAddress} (h : a.Packable) : a.packed.addr = a := by
  obtain ⟨id, off⟩ := a
  obtain ⟨hid, hoff⟩ := h
  simp only [GlobalAddress.packed, addr, GlobalAddress.mk.injEq]
  constructor
  · refine BitVec.eq_of_toNat_eq ?_
    simp only [BitVec.toNat_setWidth]
    simp only [mnIdBit] at hid ⊢
    omega
  · refine BitVec.eq_of_toNat_eq ?_
    have hlt := off.isLt
    simp only [allocAllignBit] at hoff
    simp only [BitVec.toNat_shiftLeft, BitVec.toNat_setWidth, BitVec.toNat_ushiftRight,
      Nat.shiftLeft_eq, Nat.shiftRight_eq_div_pow, allocAllignBit, offsetBit]
    omega

end PackedGAddr

abbrev EntryWord := BitVec 64

namespace EntryWord

/-- The fields from the lowest on: the partial byte, the seven bits that depend on the kind, the
kind and the packed address. -/
def make (b : BitVec 8) (middle : BitVec kvLenBit) (isLeaf : BitVec 1) (a : BitVec 48) :
    EntryWord :=
  a ++ isLeaf ++ middle ++ b

def partialKey (e : EntryWord) : BitVec 8 := e.extractLsb' 0 8
def kvLen (e : EntryWord) : BitVec kvLenBit := e.extractLsb' 8 kvLenBit
def empty (e : EntryWord) : BitVec 2 := e.extractLsb' 8 2
def nodeType (e : EntryWord) : BitVec 5 := e.extractLsb' 10 5
def isLeaf (e : EntryWord) : BitVec 1 := e.extractLsb' 15 1
def packedAddr (e : EntryWord) : PackedGAddr := ⟨e.extractLsb' 16 8, e.extractLsb' 24 40⟩

def addr (e : EntryWord) : GlobalAddress := e.packedAddr.addr
def type (e : EntryWord) : BitVec 8 := e.nodeType.setWidth 8

def null : EntryWord := 0

def ofLeaf (b kvLen : BitVec 8) (a : GlobalAddress) : EntryWord :=
  make b (kvLen.setWidth _) 1 a.packed.word

def ofNode (b type : BitVec 8) (a : GlobalAddress) : EntryWord :=
  make b (type.setWidth 5 ++ 0#2) 0 a.packed.word

def withPartial (b : BitVec 8) (e : EntryWord) : EntryWord :=
  make b e.kvLen e.isLeaf e.packedAddr.word

def withType (type : BitVec 8) (e : EntryWord) : EntryWord :=
  make e.partialKey (type.setWidth 5 ++ 0#2) e.isLeaf e.packedAddr.word

section fields
open BitVec
variable (b : BitVec 8) (middle : BitVec kvLenBit) (l : BitVec 1) (a : BitVec 48)

@[simp] theorem partialKey_make : (make b middle l a).partialKey = b :=
  extractLsb'_append_eq_right

@[simp] theorem kvLen_make : (make b middle l a).kvLen = middle := by
  rw [kvLen, make, extractLsb'_append_eq_of_le le_rfl]
  exact extractLsb'_append_eq_right

@[simp] theorem isLeaf_make : (make b middle l a).isLeaf = l := by
  rw [isLeaf, make, extractLsb'_append_eq_of_le (by decide), extractLsb'_append_eq_of_le le_rfl]
  exact extractLsb'_append_eq_right

@[simp] theorem empty_make : (make b middle l a).empty = middle.extractLsb' 0 2 := by
  rw [empty, make, extractLsb'_append_eq_of_le le_rfl, extractLsb'_append_eq_of_add_le (by decide)]

@[simp] theorem nodeType_make : (make b middle l a).nodeType = middle.extractLsb' 2 5 := by
  rw [nodeType, make, extractLsb'_append_eq_of_le (by decide),
    extractLsb'_append_eq_of_add_le (by decide)]

theorem extractLsb'_make {start len : ℕ} (h : 16 ≤ start) :
    (make b middle l a).extractLsb' start len = a.extractLsb' (start - 16) len := by
  have hmiddle : kvLenBit ≤ start - 8 := by simp only [kvLenBit]; omega
  have hkind : 1 ≤ start - 8 - kvLenBit := by simp only [kvLenBit]; omega
  rw [make, extractLsb'_append_eq_of_le (by omega), extractLsb'_append_eq_of_le hmiddle,
    extractLsb'_append_eq_of_le hkind]
  rfl

@[simp] theorem packedAddr_make (p : PackedGAddr) : (make b middle l p.word).packedAddr = p := by
  rw [packedAddr, extractLsb'_make _ _ _ _ le_rfl, extractLsb'_make _ _ _ _ (by decide)]
  have hid : p.word.extractLsb' (16 - 16) 8 = p.mnId := extractLsb'_append_eq_right
  have hoff : p.word.extractLsb' (24 - 16) 40 = p.offset := extractLsb'_append_eq_left
  rw [hid, hoff]

end fields

inductive Fields
  | leaf (b kvLen : BitVec 8) (a : GlobalAddress)
  | node (b type : BitVec 8) (a : GlobalAddress)
deriving DecidableEq

namespace Fields

def Fits : Fields → Prop
  | leaf _ kvLen a => kvLen.toNat < 2 ^ kvLenBit ∧ a.Packable
  | node _ type a => (1 ≤ type.toNat ∧ type.toNat < 2 ^ nodeTypeNumBit) ∧ a.Packable

instance : DecidablePred Fits
  | leaf _ kvLen a => inferInstanceAs (Decidable (kvLen.toNat < 2 ^ kvLenBit ∧ a.Packable))
  | node _ type a =>
    inferInstanceAs (Decidable ((1 ≤ type.toNat ∧ type.toNat < 2 ^ nodeTypeNumBit) ∧ a.Packable))

def word : Fields → EntryWord
  | leaf b kvLen a => ofLeaf b kvLen a
  | node b type a => ofNode b type a

def read (e : EntryWord) : Fields :=
  if e.isLeaf = 1 then .leaf e.partialKey (e.kvLen.setWidth 8) e.addr
  else .node e.partialKey e.type e.addr

def withPartial (b : BitVec 8) : Fields → Fields
  | leaf _ kvLen a => leaf b kvLen a
  | node _ type a => node b type a

end Fields

theorem setWidth_setWidth_of_lt {b : BitVec 8} {w : ℕ} (h : b.toNat < 2 ^ w) :
    (b.setWidth w).setWidth 8 = b := by
  refine BitVec.eq_of_toNat_eq ?_
  rw [BitVec.toNat_setWidth, BitVec.toNat_setWidth, Nat.mod_eq_of_lt h, Nat.mod_eq_of_lt b.isLt]

section round
variable {b kvLen type : BitVec 8} {a : GlobalAddress}

theorem typeBits (type : BitVec 8) : (type.setWidth 5 ++ 0#2 : BitVec kvLenBit).extractLsb' 0 2 = 0 ∧
    (type.setWidth 5 ++ 0#2 : BitVec kvLenBit).extractLsb' 2 5 = type.setWidth 5 :=
  ⟨BitVec.extractLsb'_append_eq_right, BitVec.extractLsb'_append_eq_left⟩

theorem read_ofLeaf (h : (Fields.leaf b kvLen a).Fits) :
    (ofLeaf b kvLen a).partialKey = b ∧ (ofLeaf b kvLen a).kvLen.setWidth 8 = kvLen ∧
      (ofLeaf b kvLen a).isLeaf = 1 ∧ (ofLeaf b kvLen a).addr = a := by
  refine ⟨partialKey_make _ _ _ _, ?_, isLeaf_make _ _ _ _, ?_⟩
  · rw [ofLeaf, kvLen_make, setWidth_setWidth_of_lt h.1]
  · rw [addr, ofLeaf, packedAddr_make, PackedGAddr.addr_packed h.2]

theorem read_ofNode (h : (Fields.node b type a).Fits) :
    (ofNode b type a).partialKey = b ∧ (ofNode b type a).empty = 0 ∧ (ofNode b type a).type = type ∧
      (ofNode b type a).isLeaf = 0 ∧ (ofNode b type a).addr = a := by
  refine ⟨partialKey_make _ _ _ _, ?_, ?_, isLeaf_make _ _ _ _, ?_⟩
  · rw [ofNode, empty_make, (typeBits type).1]
  · rw [EntryWord.type, ofNode, nodeType_make, (typeBits type).2]
    exact setWidth_setWidth_of_lt h.1.2
  · rw [addr, ofNode, packedAddr_make, PackedGAddr.addr_packed h.2]

theorem Fields.read_word {f : Fields} (h : f.Fits) : read f.word = f := by
  cases f with
  | leaf b kvLen a =>
    obtain ⟨h1, h2, h3, h4⟩ := read_ofLeaf h
    rw [word, read, if_pos h3, h1, h2, h4]
  | node b type a =>
    obtain ⟨h1, -, h2, h3, h4⟩ := read_ofNode h
    rw [word, read, if_neg (by rw [h3]; decide), h1, h2, h4]

theorem Fields.word_ne_null {f : Fields} (h : f.Fits) : f.word ≠ null := by
  intro hnull
  have hread := read_word h
  rw [hnull] at hread
  subst hread
  exact absurd h.1.1 (by decide)

theorem withPartial_word (b : BitVec 8) (f : Fields) :
    f.word.withPartial b = (f.withPartial b).word := by
  cases f with
  | leaf c kvLen a => simp [withPartial, Fields.withPartial, Fields.word, ofLeaf]
  | node c type a => simp [withPartial, Fields.withPartial, Fields.word, ofNode]

theorem withType_ofNode (t : BitVec 8) : (ofNode b type a).withType t = ofNode b t a := by
  simp [withType, ofNode]

end round

/-- The accessors return the fields a constructor was given, relabelling changes one field, and
different fields give different words, none of them null. -/
theorem fields_of_constructors :
    (∀ b kvLen a, (Fields.leaf b kvLen a).Fits →
      (ofLeaf b kvLen a).partialKey = b ∧ (ofLeaf b kvLen a).kvLen.setWidth 8 = kvLen ∧
        (ofLeaf b kvLen a).isLeaf = 1 ∧ (ofLeaf b kvLen a).addr = a) ∧
    (∀ b type a, (Fields.node b type a).Fits →
      (ofNode b type a).partialKey = b ∧ (ofNode b type a).empty = 0 ∧
        (ofNode b type a).type = type ∧ (ofNode b type a).isLeaf = 0 ∧ (ofNode b type a).addr = a) ∧
    (∀ b (e : EntryWord), (e.withPartial b).partialKey = b ∧ (e.withPartial b).kvLen = e.kvLen ∧
      (e.withPartial b).isLeaf = e.isLeaf ∧ (e.withPartial b).addr = e.addr) ∧
    (∀ t (e : EntryWord), (e.withType t).partialKey = e.partialKey ∧ (e.withType t).empty = 0 ∧
      (t.toNat < 2 ^ nodeTypeNumBit → (e.withType t).type = t) ∧
      (e.withType t).isLeaf = e.isLeaf ∧ (e.withType t).addr = e.addr) ∧
    (∀ f : Fields, f.Fits → (∀ b, f.word.withPartial b = (f.withPartial b).word ∧
      f.word.withPartial b ≠ null) ∧ f.word ≠ null) ∧
    (∀ b type a, (Fields.node b type a).Fits → ∀ t, (ofNode b type a).withType t = ofNode b t a ∧
      (1 ≤ t.toNat → t.toNat < 2 ^ nodeTypeNumBit → (ofNode b type a).withType t ≠ null)) ∧
    ∀ f g : Fields, f.Fits → g.Fits → f ≠ g → f.word ≠ g.word := by
  refine ⟨fun _ _ _ h => read_ofLeaf h, fun _ _ _ h => read_ofNode h, fun b e => ?_, fun t e => ?_,
    fun f h => ⟨fun b => ⟨withPartial_word b f, ?_⟩, Fields.word_ne_null h⟩,
    fun b type a h t => ⟨withType_ofNode t, fun h1 h2 => ?_⟩, fun f g hf hg hne heq => hne ?_⟩
  · simp [withPartial, addr]
  · refine ⟨by simp [withType], ?_, fun h => ?_, by simp [withType], by simp [withType, addr]⟩
    · rw [withType, empty_make, (typeBits t).1]
    · rw [EntryWord.type, withType, nodeType_make, (typeBits t).2]
      exact setWidth_setWidth_of_lt h
  · have hfits : (f.withPartial b).Fits := by cases f <;> exact h
    rw [withPartial_word]
    exact Fields.word_ne_null hfits
  · have hfits : (Fields.node b t a).Fits := ⟨⟨h1, h2⟩, h.2⟩
    rw [withType_ofNode]
    exact Fields.word_ne_null hfits
  · rw [← Fields.read_word hf, ← Fields.read_word hg, heq]

theorem fields_of_leaf_and_node :
    (Fields.leaf 7 34 ⟨1, 256⟩).Fits ∧ (Fields.node 7 1 ⟨1, 256⟩).Fits ∧
      (ofLeaf 7 34 ⟨1, 256⟩).addr = ⟨1, 256⟩ ∧ (ofNode 7 1 ⟨1, 256⟩).type = 1 ∧
      ofLeaf 7 34 ⟨1, 256⟩ ≠ ofNode 7 1 ⟨1, 256⟩ := by
  have hleaf : (Fields.leaf 7 34 ⟨1, 256⟩).Fits := by decide
  have hnode : (Fields.node 7 1 ⟨1, 256⟩).Fits := by decide
  obtain ⟨h1, h2, -, -, -, -, h3⟩ := fields_of_constructors
  exact ⟨hleaf, hnode, (h1 _ _ _ hleaf).2.2.2, (h2 _ _ _ hnode).2.2.1,
    h3 _ _ hleaf hnode Fields.noConfusion⟩

end EntryWord

namespace Entry
variable {place : Addr → GlobalAddress} {e e' : Entry}

/-- `sizeof(Leaf)`, the length a leaf entry carries. -/
def leafSize : BitVec 8 := 34

def word (place : Addr → GlobalAddress) : Entry → EntryWord
  | null => EntryWord.null
  | leaf b a => .ofLeaf b.toBitVec leafSize (place a)
  | node b t a => .ofNode b.toBitVec (BitVec.ofNat 8 t.code) (place a)

def fields (place : Addr → GlobalAddress) : Entry → Option EntryWord.Fields
  | null => none
  | leaf b a => some (.leaf b.toBitVec leafSize (place a))
  | node b t a => some (.node b.toBitVec (BitVec.ofNat 8 t.code) (place a))

theorem word_eq (e : Entry) : e.word place = ((e.fields place).map (·.word)).getD .null := by
  cases e <;> rfl

theorem fits_of_fields (hp : ∀ a, (place a).Packable) (ht : ∀ b a, e ≠ node b .deleted a)
    {f : EntryWord.Fields} (h : e.fields place = some f) : f.Fits := by
  cases e with
  | null => cases h
  | leaf b a =>
    cases h
    exact ⟨by decide, hp a⟩
  | node b t a =>
    cases h
    refine ⟨?_, hp a⟩
    cases t with
    | deleted => exact absurd rfl (ht b a)
    | _ => decide

theorem fields_inj (hi : place.Injective) (h : e.fields place = e'.fields place) : e = e' := by
  cases e <;> cases e' <;> simp [fields] at h
  case null.null => rfl
  case leaf.leaf => rw [UInt8.toBitVec_inj.mp h.1, hi h.2]
  case node.node b t a b' t' a' =>
    have hcode : ∀ t t' : NodeType, BitVec.ofNat 8 t.code = BitVec.ofNat 8 t'.code → t = t' := by
      intro t t'
      cases t <;> cases t' <;> decide
    rw [UInt8.toBitVec_inj.mp h.1, hcode t t' h.2.1, hi h.2.2]

/-- Entries of the tree compare like their words, if blocks lie at different aligned addresses. -/
theorem word_inj (hp : ∀ a, (place a).Packable) (hi : place.Injective)
    (ht : ∀ b a, e ≠ node b .deleted a) (ht' : ∀ b a, e' ≠ node b .deleted a) :
    e.word place = e'.word place ↔ e = e' := by
  refine ⟨fun h => fields_inj hi ?_, fun h => by rw [h]⟩
  rw [word_eq, word_eq] at h
  cases hf : e.fields place with
  | none =>
    cases hf' : e'.fields place with
    | none => rfl
    | some f' =>
      rw [hf, hf'] at h
      exact absurd h.symm (EntryWord.Fields.word_ne_null (fits_of_fields hp ht' hf'))
  | some f =>
    cases hf' : e'.fields place with
    | none =>
      rw [hf, hf'] at h
      exact absurd h (EntryWord.Fields.word_ne_null (fits_of_fields hp ht hf))
    | some f' =>
      rw [hf, hf'] at h
      have heq : f.word = f'.word := h
      rw [← EntryWord.Fields.read_word (fits_of_fields hp ht hf), heq,
        EntryWord.Fields.read_word (fits_of_fields hp ht' hf')]

theorem word_withPartial (b : UInt8) (h : e ≠ null) :
    (e.withPartial b).word place = (e.word place).withPartial b.toBitVec := by
  cases e with
  | null => exact absurd rfl h
  | leaf c a => exact (EntryWord.withPartial_word b.toBitVec (.leaf c.toBitVec leafSize (place a))).symm
  | node c t a =>
    exact (EntryWord.withPartial_word b.toBitVec (.node c.toBitVec (.ofNat 8 t.code) (place a))).symm

theorem word_withType (b : UInt8) (t u : NodeType) (a : Addr) :
    ((node b u a).withType t).word place =
      ((node b u a).word place).withType (BitVec.ofNat 8 t.code) :=
  (EntryWord.withType_ofNode _).symm

end Entry
end SmartTree
