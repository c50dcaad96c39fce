import SmartTree.Key

/-! The objects of the tree: leaves, headers, internal entries and pages. A page is
the reverse pointer, the header word and 256 slot words; nodes never move, only the
entries that refer to them do. -/
namespace SmartTree

/-- A block of memory-node memory, named by the offset its owner was given. -/
abbrev Addr := ℕ

/-- Where an internal entry is stored: the root pointer or a slot of a node. -/
inductive Ptr
  | root
  | slot (node : Addr) (i : ℕ)
deriving DecidableEq

inductive NodeType
  | deleted | node4 | node8 | node16 | node32 | node64 | node128 | node256
deriving DecidableEq

namespace NodeType

def code : NodeType → ℕ
  | deleted => 0
  | node4 => 1
  | node8 => 2
  | node16 => 3
  | node32 => 4
  | node64 => 5
  | node128 => 6
  | node256 => 7

def num (t : NodeType) : ℕ := if t = deleted then 0 else 2 ^ (t.code + 1)

theorem num_le (t : NodeType) : t.num ≤ 256 := by cases t <;> decide

end NodeType

/-- `num_to_node_type`; the closing assert is explicit. -/
def numToNodeType (num : ℕ) : Option NodeType :=
  if num = 0 then some .deleted
  else [.node4, .node8, .node16, .node32, .node64, .node128, .node256].find?
    fun t => num < 2 ^ (t.code + 1)

/-- `InternalEntry`: the null word, a leaf entry or a node entry. -/
inductive Entry
  | null
  | leaf (partialKey : UInt8) (addr : Addr)
  | node (partialKey : UInt8) (type : NodeType) (addr : Addr)
deriving DecidableEq

namespace Entry

def partialKey : Entry → UInt8
  | null => 0
  | leaf b _ => b
  | node b _ _ => b

def addr? : Entry → Option Addr
  | null => none
  | leaf _ a => some a
  | node _ _ a => some a

def withPartial (b : UInt8) : Entry → Entry
  | null => null
  | leaf _ a => leaf b a
  | node _ t a => node b t a

/-- `InternalEntry(node_type, e)`, and the assignment to `p.node_type`. -/
def withType (t : NodeType) : Entry → Entry
  | node b _ a => node b t a
  | e => e

def type : Entry → NodeType
  | node _ t _ => t
  | _ => .deleted

def isNull (e : Entry) : Bool := e == null

section simps
variable (b c : UInt8) (t u : NodeType) (a : Addr)

@[simp] theorem partialKey_leaf : (leaf b a).partialKey = b := rfl
@[simp] theorem partialKey_node : (node b t a).partialKey = b := rfl
@[simp] theorem addr?_null : null.addr? = none := rfl
@[simp] theorem addr?_leaf : (leaf b a).addr? = some a := rfl
@[simp] theorem addr?_node : (node b t a).addr? = some a := rfl
@[simp] theorem withPartial_null : null.withPartial b = null := rfl
@[simp] theorem withPartial_leaf : (leaf c a).withPartial b = leaf b a := rfl
@[simp] theorem withPartial_node : (node c t a).withPartial b = node b t a := rfl
@[simp] theorem withType_null : null.withType t = null := rfl
@[simp] theorem withType_leaf : (leaf b a).withType t = leaf b a := rfl
@[simp] theorem withType_node : (node b u a).withType t = node b t a := rfl
@[simp] theorem type_node : (node b t a).type = t := rfl

end simps

@[simp] theorem addr?_withPartial (b : UInt8) (e : Entry) : (e.withPartial b).addr? = e.addr? := by
  cases e <;> rfl

@[simp] theorem withPartial_eq_null {b : UInt8} {e : Entry} : e.withPartial b = null ↔ e = null := by
  cases e <;> simp

theorem partialKey_withPartial {b : UInt8} {e : Entry} (h : e ≠ null) :
    (e.withPartial b).partialKey = b := by
  cases e <;> simp_all

end Entry

def hPartialLenMax : ℕ := 6

/-- `Header`; `partials` are the `partial_len` bytes in use. -/
structure Header where
  depth : ℕ
  type : NodeType
  partials : List UInt8
deriving DecidableEq

/-- The bytes at the depths `depth`, …, `depth + len - 1`, each fetched with `at`. -/
def partialsFrom {n : ℕ} (k : Key n) (depth : ℕ) : ℕ → Option (List UInt8)
  | 0 => some []
  | len + 1 => do
    let b ← getPartial k depth
    let bs ← partialsFrom k (depth + 1) len
    return b :: bs

namespace Header
variable {n : ℕ}

def ofKey (k : Key n) (len depth : ℕ) (type : NodeType) : Option Header :=
  if len ≤ hPartialLenMax then (partialsFrom k depth len).map fun ps => ⟨depth, type, ps⟩
  else none

/-- The loop that compares a key with the bytes of a header; `none` for an index outside
the key, otherwise the first difference. -/
def diffLoop (k : Key n) (depth : ℕ) : List UInt8 → Option (Option ℕ)
  | [] => some none
  | b :: bs => do
    let x ← getPartial k depth
    if x ≠ b then return some 0
    let r ← diffLoop k (depth + 1) bs
    return r.map (· + 1)

def firstDiff (h : Header) (k : Key n) : Option (Option ℕ) := diffLoop k h.depth h.partials

def splitHeader (old : Header) (diffIdx : ℕ) : Header where
  depth := old.depth + diffIdx + 1
  type := .deleted
  partials := old.partials.drop (diffIdx + 1)

/-- A compare-and-swap under the mask `~node_type_mask`. -/
def casSplit (cur expected new : Header) : Header :=
  if cur.depth = expected.depth ∧ cur.partials = expected.partials then
    { cur with depth := new.depth, partials := new.partials }
  else cur

/-- A compare-and-swap under the mask `node_type_mask`. -/
def casType (cur expected : Header) (next : NodeType) : Header :=
  if cur.type = expected.type then { cur with type := next } else cur

end Header

structure Page where
  rev : Ptr
  hdr : Header
  slots : ℕ → Entry

def Page.isValid (pg : Page) (pPtr : Ptr) (depth : ℕ) (fromCache : Bool) : Bool :=
  pg.hdr.type ≠ .deleted && pg.hdr.depth ≤ depth && (!fromCache || pPtr = pg.rev)

structure Leaf (n : ℕ) where
  rev : Ptr
  valid : Bool
  checksum : UInt64
  key : Key n
  value : Value
  lock : Bool

namespace Leaf
variable {n : ℕ} (crc : Key n → Value → UInt64)

def make (k : Key n) (v : Value) (rev : Ptr) : Leaf n := ⟨rev, true, crc k v, k, v, false⟩

def isValid (l : Leaf n) (pPtr : Ptr) (fromCache : Bool) : Bool :=
  l.valid && (!fromCache || pPtr = l.rev)

def isConsistent (l : Leaf n) : Bool := crc l.key l.value == l.checksum

end Leaf

structure CacheEntry where
  depth : ℕ
  addr : Addr
  records : List Entry
deriving DecidableEq

def CacheEntry.ofPage (pg : Page) (a : Addr) : CacheEntry where
  depth := pg.hdr.depth + pg.hdr.partials.length
  addr := a
  records := (List.range pg.hdr.type.num).map pg.slots

/-- The byte string `add_to_cache` files a page under. -/
def cachePath {n : ℕ} (k : Key n) (h : Header) : List UInt8 := k.pre (h.depth - 1) ++ h.partials

end SmartTree
