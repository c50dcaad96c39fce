import SmartTree.RadixCache.Live
import Mathlib.Algebra.Group.Nat.Defs

/-! The cache with its memory accounting and eviction. Every insertion charges the trie nodes
it made or changed and its entry, every release refunds an entry, and when the budget is
exceeded the oldest entries are evicted and, with none left, the trie is replaced. The tries
below replaced roots stay where slot pointers still reach them, so a slot pointer also says
below which root its trie is. -/
namespace SmartTree

def CacheHeader.contentSize (h : CacheHeader) : ℕ := 1 + h.partials.length

def allBytes : List UInt8 := (List.range 256).map UInt8.ofNat

def CacheNode.recordNum (nd : CacheNode) : ℕ := allBytes.countP fun b => (nd.records b).isSome

def CacheNode.contentSize (nd : CacheNode) : ℕ := nd.header.contentSize + (1 + 8 + 8) * nd.recordNum

def TimedEntry.contentSize (e : TimedEntry) : ℕ := 1 + 8 + 8 * e.records.length + 8

structure FreeMemManager where
  freeSize : BitVec 64
  nodeMemSize : ℕ → Option (BitVec 64)

namespace FreeMemManager

def ofSize (freeSize : BitVec 64) : FreeMemManager := ⟨freeSize, fun _ => none⟩

/-- `consume`; the size is an `int`. -/
def consume (f : FreeMemManager) (size : BitVec 32) : FreeMemManager :=
  { f with freeSize := f.freeSize + (-size).signExtend 64 }

def consumeByNode (f : FreeMemManager) (node : ℕ) (newSize : BitVec 64) : FreeMemManager :=
  let oldSize := (f.nodeMemSize node).getD 0
  if newSize = oldSize then { f with nodeMemSize := Function.update f.nodeMemSize node (some oldSize) }
  else
    { freeSize := f.freeSize + (-newSize + oldSize)
      nodeMemSize := Function.update f.nodeMemSize node (some newSize) }

def free (f : FreeMemManager) (size : BitVec 32) : FreeMemManager :=
  { f with freeSize := f.freeSize + size.signExtend 64 }

def remainSize (f : FreeMemManager) : ℤ := f.freeSize.toInt

end FreeMemManager

/-- What `_insert` did: the trie, the entry that was replaced, the nodes it charges in this
order, and the slot that it notes in `eviction_list`. -/
structure Inserted where
  trie : Trie
  old : Option EntryPtr
  charged : List ℕ
  slot : SlotPtr

namespace Trie

/-- After a split: the new node, the nested one if there is one, and the node that was split. -/
def splitCharged (t : Trie) (byteArray : List UInt8) (newEntry : EntryPtr) (node idx i : ℕ)
    (cur h : UInt8) : Option (List ℕ × SlotPtr) := do
  let back ← byteArray.getLast?
  return match (CacheNode.split byteArray idx ((t.node node).header.depth + i - idx) h node cur newEntry
      (t.size + 1)).2 with
    | none => ([t.size, node], (t.size, cur))
    | some _ => ([t.size, t.size + 1, node], (t.size + 1, back))

/-- `_insert` from a node on, as `insertLoop`, with what it charges and notes. -/
def insertMetered (byteArray : List UInt8) (newEntry : EntryPtr) :
    ℕ → Option ℕ → ℕ → ℕ → Trie → Option Inserted
  | 0, _, _, _, _ => none
  | fuel + 1, parentNode, node, idx, t => do
    let hdr := (t.node node).header
    match ← parseHeader byteArray hdr.depth hdr.partials 0 with
    | some (i, cur, h) =>
      let t' ← t.splitNode byteArray newEntry (← parentNode) node idx i cur h
      let (charged, slot) ← t.splitCharged byteArray newEntry node idx i cur h
      return ⟨t', none, charged, slot⟩
    | none =>
      let idx := hdr.depth + hdr.partials.length
      let b ← byteArray[idx]?
      let v := (t.node node).record b
      if idx = byteArray.length - 1 then
        return ⟨t.setEntry node b (some newEntry), v.cacheEntry, [node], (node, b)⟩
      else
        match v.next with
        | none =>
          let back ← byteArray.getLast?
          return ⟨(t.setNext node b (some t.size)).alloc (.leaf byteArray (idx + 1) newEntry), none,
            [node, t.size], (t.size, back)⟩
        | some next => insertMetered byteArray newEntry fuel (some node) next (idx + 1) t

end Trie

def FreeMemManager.settle (f : FreeMemManager) (r : Inserted) (entry : EntryPtr → TimedEntry)
    (newEntry : EntryPtr) : FreeMemManager :=
  let f := r.charged.foldl
    (fun f id => f.consumeByNode id (BitVec.ofNat 64 (r.trie.node id).contentSize)) f
  let f := f.consume (BitVec.ofNat 32 (entry newEntry).contentSize)
  match r.old with
  | none => f
  | some q => f.free (BitVec.ofNat 32 (entry q).contentSize)

/-- A slot of the trie below a root; roots are numbered as they are made. -/
abbrev RootSlot := ℕ × SlotPtr

/-- `index` has the trie below `cache_root`, which is the root number `root`; `retired` has the
tries below earlier roots. -/
structure MeteredCache where
  index : RadixCache
  root : ℕ
  retired : ℕ → Trie
  freeManager : FreeMemManager
  evictionList : List (RootSlot × EntryPtr)
  cacheSize : ℕ

namespace MeteredCache

def mB : ℕ := 1024 * 1024

def budget (m : MeteredCache) : ℕ := mB * m.cacheSize

def entryAt (m : MeteredCache) (s : RootSlot) : Option EntryPtr :=
  if s.1 = m.root then m.index.trie.entryAt s.2 else (m.retired s.1).entryAt s.2

def invalidate (m : MeteredCache) (entryPtrPtr : Option RootSlot) (entryPtr : Option EntryPtr) :
    MeteredCache :=
  match entryPtrPtr, entryPtr with
  | some s, some p =>
    if m.entryAt s = some p then
      let f := m.freeManager.free (BitVec.ofNat 32 (m.index.entry p).contentSize)
      if s.1 = m.root then
        { m with
          index := { m.index with trie := m.index.trie.setEntry s.2.1 s.2.2 none }.safelyDelete p
          freeManager := f }
      else
        { m with
          index := m.index.safelyDelete p
          retired := Function.update m.retired s.1 ((m.retired s.1).setEntry s.2.1 s.2.2 none)
          freeManager := f }
    else m
  | _, _ => m

/-- The loop of `_evict` over the queue, with `flag` at its end. -/
def evictLoop : List (RootSlot × EntryPtr) → MeteredCache → MeteredCache × Bool
  | [], m => ({ m with evictionList := [] }, true)
  | (s, p) :: rest, m =>
    let m := { m with evictionList := rest }
    let m := if m.entryAt s = some p then m.invalidate (some s) (some p) else m
    if m.freeManager.remainSize < 0 ∧ rest ≠ [] then evictLoop rest m else (m, rest.isEmpty)

def rebuild (m : MeteredCache) : MeteredCache :=
  { m with
    index := { m.index with trie := .empty }
    root := m.root + 1
    retired := Function.update m.retired m.root m.index.trie
    freeManager := .ofSize (BitVec.ofNat 64 m.budget) }

def evict (m : MeteredCache) : MeteredCache :=
  let r := evictLoop m.evictionList m
  if r.2 then r.1.rebuild else r.1

def indexAfter (c : RadixCache) (r : Inserted) : RadixCache :=
  match r.old with
  | none => { c with trie := r.trie }
  | some q => { c with trie := r.trie }.safelyDelete q

/-- `_insert` of an entry that the pool has handed out. -/
def insert (m : MeteredCache) (byteArray : List UInt8) (newEntry : EntryPtr) :
    Option MeteredCache := do
  let r ← Trie.insertMetered byteArray newEntry (byteArray.length + 1) none 0 0 m.index.trie
  return { m with
    index := indexAfter m.index r
    freeManager := m.freeManager.settle r m.index.entry newEntry
    evictionList := m.evictionList ++ [((m.root, r.slot), newEntry)] }

/-- `add_to_cache`; outside the key and the header the bytes are not there. -/
def addToCache (m : MeteredCache) (k : Key keyLen) (pNode : Page) (nodeAddr : Addr) :
    Option MeteredCache :=
  if pNode.hdr.depth = 0 ∨ keyLen < pNode.hdr.depth - 1 ∨
    hPartialLenMax < pNode.hdr.partials.length then none
  else if pNode.hdr.depth - 1 = 0 then some m
  else do
    let (p, c) ← m.index.allocate (.ofPage pNode nodeAddr m.index.nowNs)
    let m ← { m with index := c }.insert (cachePath k pNode.hdr) p
    return if m.freeManager.remainSize < 0 then m.evict else m

/-- The loop of `search_from_cache` over the stack. -/
def scanStack (k : Key keyLen) : List SearchRet → MeteredCache →
    Option (MeteredCache × Option (RootSlot × EntryPtr × ℕ))
  | [], m => some (m, none)
  | item :: rest, m => do
    let nextPartial ← k.bytes[item.nextIdx]?
    match item.entryPtr with
    | none => scanStack k rest m
    | some p =>
      if m.index.isExpired (m.index.entry p) then
        scanStack k rest (m.invalidate (some (m.root, item.entryPtrPtr)) (some p))
      else
        match RadixCache.findRecord (m.index.entry p) nextPartial with
        | some i => return (m, some ((m.root, item.entryPtrPtr), p, i))
        | none => scanStack k rest m

def searchFromCache (m : MeteredCache) (k : Key keyLen) :
    Option (MeteredCache × Option (RootSlot × EntryPtr × ℕ)) := do
  let ret ← m.index.trie.search (k.pre (keyLen - 1))
  scanStack k ret m

inductive Call
  | add (k : Key keyLen) (pNode : Page) (nodeAddr : Addr)
  | invalidate (entryPtrPtr : Option RootSlot) (entryPtr : Option EntryPtr)
  | search (k : Key keyLen)
  | elapse (ns : ℕ)

def HasSlot (m : MeteredCache) (s : RootSlot) : Prop :=
  s.1 ≤ m.root ∧ s.2.1 < (if s.1 = m.root then m.index.trie else m.retired s.1).size

instance (m : MeteredCache) (s : RootSlot) : Decidable (m.HasSlot s) :=
  inferInstanceAs (Decidable (_ ∧ _))

/-- One call, or the passing of time. A slot pointer that a call is given points to a slot. -/
def next (m : MeteredCache) : Call → Option MeteredCache
  | .add k pNode nodeAddr => m.addToCache k pNode nodeAddr
  | .invalidate s p => if ∀ x ∈ s, m.HasSlot x then some (m.invalidate s p) else none
  | .search k => (m.searchFromCache k).map Prod.fst
  | .elapse ns => some { m with index := { m.index with nowNs := m.index.nowNs + ns } }

/-- `RadixCache(cache_size, dsm)`, for a size that is no negative `int`. -/
def Initial (m : MeteredCache) : Prop :=
  m.index.Initial ∧ m.root = 0 ∧ m.evictionList = [] ∧ m.cacheSize < 2 ^ 31 ∧
    m.freeManager = .ofSize (BitVec.ofNat 64 m.budget)

def system : Transition.System MeteredCache Call where
  init := Initial
  next := next

end MeteredCache
end SmartTree
