import Mathlib.Logic.Function.Basic
import SmartTree.Node

/-! The memory node: the root pointer, node pages, leaves and which blocks are handed
out. Blocks that were never handed out, or were given back, keep their words. -/
namespace SmartTree
variable {n : ℕ}

structure Mem (n : ℕ) where
  root : Entry
  node : Addr → Page
  leaf : Addr → Leaf n
  live : Addr → Bool

inductive LeafWord
  | rev | valid | checksum | key | value | lock
deriving DecidableEq

def leafWords : List LeafWord := [.rev, .valid, .checksum, .key, .value, .lock]

def Leaf.copy (src : Leaf n) (w : LeafWord) (dst : Leaf n) : Leaf n :=
  match w with
  | .rev => { dst with rev := src.rev }
  | .valid => { dst with valid := src.valid }
  | .checksum => { dst with checksum := src.checksum }
  | .key => { dst with key := src.key }
  | .value => { dst with value := src.value }
  | .lock => { dst with lock := src.lock }

inductive NodeWord
  | rev | hdr | slot (i : ℕ)
deriving DecidableEq

/-- The slot words from `lo` up to `hi`. -/
def slotWords (lo hi : ℕ) : List NodeWord := (List.range (hi - lo)).map fun i => .slot (lo + i)

/-- What `read_node` reads first, for the type its entry declares. -/
def nodeWords (t : NodeType) : List NodeWord := .rev :: .hdr :: slotWords 0 t.num

def Page.copy (src : Page) (w : NodeWord) (dst : Page) : Page :=
  match w with
  | .rev => { dst with rev := src.rev }
  | .hdr => { dst with hdr := src.hdr }
  | .slot i => { dst with slots := Function.update dst.slots i (src.slots i) }

inductive RemoteOp
  | writeRev (leaf : Addr) (ptr : Ptr)
  | casRevLeaf (leaf : Addr) (expected new : Ptr)
  | casRevNode (node : Addr) (expected new : Ptr)
  | casHeader (node : Addr) (expected new : Header)

namespace Mem

def load (m : Mem n) : Ptr → Entry
  | .root => m.root
  | .slot a i => (m.node a).slots i

def setNode (m : Mem n) (a : Addr) (f : Page → Page) : Mem n :=
  { m with node := Function.update m.node a (f (m.node a)) }

def setLeaf (m : Mem n) (a : Addr) (f : Leaf n → Leaf n) : Mem n :=
  { m with leaf := Function.update m.leaf a (f (m.leaf a)) }

def store (m : Mem n) (e : Entry) : Ptr → Mem n
  | .root => { m with root := e }
  | .slot a i => m.setNode a fun pg => { pg with slots := Function.update pg.slots i e }

def alloc (m : Mem n) (as : List Addr) : Mem n :=
  { m with live := fun a => decide (a ∈ as) || m.live a }

def free (m : Mem n) (as : List Addr) : Mem n :=
  { m with live := fun a => !decide (a ∈ as) && m.live a }

/-- Only the first 48 bytes of a new page are written: the reverse pointer, the header and
the slots of the smallest node. -/
def writePage (m : Mem n) (a : Addr) (pg : Page) : Mem n :=
  m.setNode a fun old =>
    { pg with slots := fun i => if i < NodeType.node4.num then pg.slots i else old.slots i }

def writePages (m : Mem n) (ps : List (Addr × Page)) : Mem n :=
  ps.foldl (fun m p => m.writePage p.1 p.2) m

def perform (m : Mem n) : RemoteOp → Mem n
  | .writeRev a ptr => m.setLeaf a fun l => { l with rev := ptr }
  | .casRevLeaf a e new => m.setLeaf a fun l => if l.rev = e then { l with rev := new } else l
  | .casRevNode a e new => m.setNode a fun pg => if pg.rev = e then { pg with rev := new } else pg
  | .casHeader a e new => m.setNode a fun pg => { pg with hdr := pg.hdr.casSplit e new }

variable (m : Mem n) (e : Entry) (p q : Ptr) (a b : Addr)

theorem load_store : (m.store e p).load q = if q = p then e else m.load q := by
  cases p <;> cases q <;> simp [store, load, setNode, Function.update_apply]
  rename_i a i b j
  by_cases h : b = a
  · subst h; by_cases hij : j = i <;> simp [hij]
  · simp [h]

theorem load_store_self : (m.store e p).load p = e := by simp [load_store]

theorem load_store_ne {p q : Ptr} (h : q ≠ p) : (m.store e p).load q = m.load q := by
  simp [load_store, h]

@[simp] theorem store_hdr : ((m.store e p).node a).hdr = (m.node a).hdr := by
  cases p <;> simp [store, setNode, Function.update_apply]
  split <;> simp_all

@[simp] theorem store_rev : ((m.store e p).node a).rev = (m.node a).rev := by
  cases p <;> simp [store, setNode, Function.update_apply]
  split <;> simp_all

@[simp] theorem store_leaf : (m.store e p).leaf = m.leaf := by cases p <;> rfl

@[simp] theorem store_live : (m.store e p).live = m.live := by cases p <;> rfl

variable (op : RemoteOp) (f : Leaf n → Leaf n) (g : Page → Page)

@[simp] theorem setLeaf_load : (m.setLeaf a f).load p = m.load p := by cases p <;> rfl

@[simp] theorem setLeaf_self : (m.setLeaf a f).leaf a = f (m.leaf a) := by simp [setLeaf]

theorem setLeaf_ne {a b : Addr} (h : b ≠ a) : (m.setLeaf a f).leaf b = m.leaf b := by
  simp [setLeaf, h]

@[simp] theorem setNode_self : (m.setNode a g).node a = g (m.node a) := by simp [setNode]

theorem setNode_ne {a b : Addr} (h : b ≠ a) : (m.setNode a g).node b = m.node b := by
  simp [setNode, h]

@[simp] theorem perform_slots : ((m.perform op).node a).slots = (m.node a).slots := by
  cases op with
  | writeRev | casRevLeaf => rfl
  | casRevNode x e new =>
    by_cases h : a = x
    · subst h; simp only [perform, setNode_self]; split <;> rfl
    · rw [perform, setNode_ne _ _ h]
  | casHeader x e new =>
    by_cases h : a = x
    · subst h; simp [perform]
    · rw [perform, setNode_ne _ _ h]

@[simp] theorem perform_load : (m.perform op).load p = m.load p := by
  cases p with
  | root => cases op <;> rfl
  | slot a i => simp [load]

@[simp] theorem perform_live : (m.perform op).live = m.live := by cases op <;> rfl

/-- Pending operations change nothing of a leaf but its reverse pointer. -/
theorem perform_leaf : ∃ rev, (m.perform op).leaf a = { m.leaf a with rev := rev } := by
  cases op with
  | writeRev x ptr =>
    by_cases h : a = x
    · subst h; exact ⟨ptr, by simp [perform]⟩
    · exact ⟨_, by rw [perform, setLeaf_ne _ _ h]⟩
  | casRevLeaf x e new =>
    by_cases h : a = x
    · subst h
      simp only [perform, setLeaf_self]
      split
      · exact ⟨new, rfl⟩
      · exact ⟨_, rfl⟩
    · exact ⟨_, by rw [perform, setLeaf_ne _ _ h]⟩
  | casRevNode | casHeader => exact ⟨_, rfl⟩

@[simp] theorem perform_key : ((m.perform op).leaf a).key = (m.leaf a).key := by
  obtain ⟨rev, h⟩ := m.perform_leaf a op
  rw [h]

@[simp] theorem perform_valid : ((m.perform op).leaf a).valid = (m.leaf a).valid := by
  obtain ⟨rev, h⟩ := m.perform_leaf a op
  rw [h]

variable (as : List Addr)

@[simp] theorem alloc_load : (m.alloc as).load p = m.load p := by cases p <;> rfl

@[simp] theorem free_load : (m.free as).load p = m.load p := by cases p <;> rfl

theorem alloc_live_of_mem {as : List Addr} {a : Addr} (h : a ∈ as) : (m.alloc as).live a = true := by
  simp [alloc, h]

theorem alloc_live_of_live {as : List Addr} {a : Addr} (h : m.live a = true) :
    (m.alloc as).live a = true := by
  simp [alloc, h]

theorem free_live_of_not_mem {as : List Addr} {a : Addr} (h : a ∉ as) :
    (m.free as).live a = m.live a := by
  simp [free, h]

section writePages
variable (ps : List (Addr × Page))

@[simp] theorem writePages_root : (m.writePages ps).root = m.root := by
  induction ps generalizing m with
  | nil => rfl
  | cons q ps ih => exact ih _

@[simp] theorem writePages_leaf : (m.writePages ps).leaf = m.leaf := by
  induction ps generalizing m with
  | nil => rfl
  | cons q ps ih => exact ih _

@[simp] theorem writePages_live : (m.writePages ps).live = m.live := by
  induction ps generalizing m with
  | nil => rfl
  | cons q ps ih => exact ih _

theorem writePages_node_ne {ps : List (Addr × Page)} {a : Addr} (h : a ∉ ps.map Prod.fst) :
    (m.writePages ps).node a = m.node a := by
  induction ps generalizing m with
  | nil => rfl
  | cons q ps ih =>
    simp only [List.map_cons, List.mem_cons, not_or] at h
    exact (ih (m.writePage q.1 q.2) h.2).trans (setNode_ne m _ h.1)

/-- A written page keeps the old words behind the smallest node's slots. -/
theorem writePages_node {ps : List (Addr × Page)} (hnd : (ps.map Prod.fst).Nodup)
    {q : Addr × Page} (hq : q ∈ ps) : (m.writePages ps).node q.1 = { q.2 with
      slots := fun i => if i < NodeType.node4.num then q.2.slots i else (m.node q.1).slots i } := by
  induction ps generalizing m with
  | nil => cases hq
  | cons r ps ih =>
    simp only [List.map_cons, List.nodup_cons] at hnd
    rcases List.mem_cons.mp hq with rfl | hq
    · exact (writePages_node_ne (m.writePage q.1 q.2) hnd.1).trans (setNode_self m _ _)
    · have hne : q.1 ≠ r.1 := fun he => hnd.1 (he ▸ List.mem_map_of_mem hq)
      have := ih (m.writePage r.1 r.2) hnd.2 hq
      rwa [writePage, setNode_ne m _ hne] at this

end writePages

theorem perform_hdr : ((m.perform op).node a).hdr = (m.node a).hdr ∨
    ∃ e new, op = .casHeader a e new ∧ ((m.perform op).node a).hdr = (m.node a).hdr.casSplit e new := by
  cases op with
  | writeRev | casRevLeaf => exact .inl rfl
  | casRevNode x e new =>
    by_cases h : a = x
    · subst h; simp only [perform, setNode_self]; left; split <;> rfl
    · left; rw [perform, setNode_ne _ _ h]
  | casHeader x e new =>
    by_cases h : a = x
    · subst h; exact .inr ⟨e, new, rfl, by simp [perform]⟩
    · left; rw [perform, setNode_ne _ _ h]

end Mem

/-- The pages built by `out_of_place_write_node`: full headers linked through slot 0, and a
last node that holds the old entry and the new leaf. -/
def splitPages (k : Key n) (diff : UInt8) (old : Entry) (leafAddr : Addr) :
    List Addr → (partialLen depth : ℕ) → (rev : Ptr) → Option (List (Addr × Page))
  | [], _, _, _ => some []
  | [a], len, depth, rev => do
    let hdr ← Header.ofKey k len depth .node4
    let b ← getPartial k (depth + len)
    return [(a, ⟨rev, hdr, fun i => if i = 0 then old.withPartial diff
      else if i = 1 then .leaf b leafAddr else .null⟩)]
  | a :: a' :: rest, len, depth, rev => do
    let hdr ← Header.ofKey k hPartialLenMax depth .node4
    let b ← getPartial k (depth + hPartialLenMax)
    let pages ← splitPages k diff old leafAddr (a' :: rest) (len - (hPartialLenMax + 1))
      (depth + (hPartialLenMax + 1)) (.slot a 0)
    return (a, ⟨rev, hdr, fun i => if i = 0 then .node b .node4 a' else .null⟩) :: pages

end SmartTree
