import SmartTree.Node
import SmartTree.Lib.Transition
import Mathlib.Logic.Function.Basic

/-! `RadixCache`, one call at a time: a path-compressed trie whose slots hold pointers to
cached nodes. Trie nodes and cache entries live in heaps and are named by where they were
allocated, so slot pointers and entry pointers mean what they mean in the code. A
compare-and-swap that cannot fail without a second thread is a plain write. Memory accounting
and eviction are added in `Meter`. -/
namespace SmartTree

abbrev EntryPtr := ℕ

structure TimedEntry extends CacheEntry where
  expireAtNs : ℕ
deriving DecidableEq

def kIndexCacheTtlNs : ℕ := 1000 * 1000 * 1000

def TimedEntry.ofPage (pg : Page) (a : Addr) (nowNs : ℕ) : TimedEntry where
  toCacheEntry := .ofPage pg a
  expireAtNs := nowNs + kIndexCacheTtlNs

structure CacheNodeValue where
  cacheEntry : Option EntryPtr
  next : Option ℕ
deriving DecidableEq

structure CacheHeader where
  depth : ℕ
  partials : List UInt8
deriving DecidableEq

namespace CacheHeader

def ofBytes (byteArray : List UInt8) (depth partialLen : ℕ) : CacheHeader :=
  ⟨depth, (byteArray.drop depth).take partialLen⟩

def splitHeader (old : CacheHeader) (diffIdx : ℕ) : CacheHeader :=
  ⟨old.depth + diffIdx + 1, old.partials.drop (diffIdx + 1)⟩

end CacheHeader

structure CacheNode where
  header : CacheHeader
  records : UInt8 → Option CacheNodeValue

namespace CacheNode

def empty : CacheNode := ⟨⟨0, []⟩, fun _ => none⟩

/-- The constructor for a leaf node; the last byte of the array names the slot. -/
def leaf (byteArray : List UInt8) (start : ℕ) (newEntry : EntryPtr) : CacheNode where
  header := .ofBytes byteArray start (byteArray.length - start - 1)
  records b := if byteArray.getLast? = some b then some ⟨some newEntry, none⟩ else none

/-- The constructor for splitting an internal node, and the nested node it makes, which is
allocated at `nested`. -/
def split (byteArray : List UInt8) (start partialLen : ℕ) (byte₁ : UInt8) (nextNode : ℕ)
    (byte₂ : UInt8) (newEntry : EntryPtr) (nested : ℕ) : CacheNode × Option CacheNode :=
  let header := CacheHeader.ofBytes byteArray start partialLen
  if byte₁ = byte₂ then
    (⟨header, fun b => if b = byte₁ then some ⟨some newEntry, some nextNode⟩ else none⟩, none)
  else if byteArray.length - 1 ≤ start + partialLen then
    (⟨header, fun b => if b = byte₁ then some ⟨none, some nextNode⟩
      else if b = byte₂ then some ⟨some newEntry, none⟩ else none⟩, none)
  else
    (⟨header, fun b => if b = byte₁ then some ⟨none, some nextNode⟩
      else if b = byte₂ then some ⟨none, some nested⟩ else none⟩,
      some (leaf byteArray (start + partialLen + 1) newEntry))

/-- `records[b]`, which makes an empty value where there is none. -/
def record (nd : CacheNode) (b : UInt8) : CacheNodeValue := (nd.records b).getD ⟨none, none⟩

end CacheNode

/-- A slot pointer: `&(records[byte].cache_entry)` of a node. -/
abbrev SlotPtr := ℕ × UInt8

/-- The comparison of a byte array with a header, from index `i` of the header on: where the
array ends or differs, with its byte there and the header's. -/
def parseHeader (byteArray : List UInt8) (depth : ℕ) :
    List UInt8 → ℕ → Option (Option (ℕ × UInt8 × UInt8))
  | [], _ => some none
  | h :: hs, i => do
    let cur ← byteArray[depth + i]?
    if depth + i = byteArray.length - 1 ∨ cur ≠ h then return some (i, cur, h)
    parseHeader byteArray depth hs (i + 1)

structure SearchRet where
  entryPtrPtr : SlotPtr
  entryPtr : Option EntryPtr
  nextIdx : ℕ
deriving DecidableEq

/-- The nodes of the cache; `cache_root` is the node 0 and is never replaced without eviction. -/
structure Trie where
  node : ℕ → CacheNode
  size : ℕ

namespace Trie

def empty : Trie := ⟨fun _ => .empty, 1⟩

/-- `new CacheNode`; the node is named `t.size`. -/
def alloc (t : Trie) (nd : CacheNode) : Trie := ⟨Function.update t.node t.size nd, t.size + 1⟩

def setHeader (t : Trie) (id : ℕ) (h : CacheHeader) : Trie :=
  ⟨Function.update t.node id { t.node id with header := h }, t.size⟩

def setRecord (t : Trie) (id : ℕ) (b : UInt8) (v : CacheNodeValue) : Trie :=
  ⟨Function.update t.node id ⟨(t.node id).header, Function.update (t.node id).records b (some v)⟩,
    t.size⟩

def setEntry (t : Trie) (id : ℕ) (b : UInt8) (e : Option EntryPtr) : Trie :=
  t.setRecord id b { (t.node id).record b with cacheEntry := e }

def setNext (t : Trie) (id : ℕ) (b : UInt8) (next : Option ℕ) : Trie :=
  t.setRecord id b { (t.node id).record b with next := next }

def entryAt (t : Trie) (s : SlotPtr) : Option EntryPtr :=
  ((t.node s.1).records s.2).bind CacheNodeValue.cacheEntry

def nextAt (t : Trie) (id : ℕ) (b : UInt8) : Option ℕ :=
  ((t.node id).records b).bind CacheNodeValue.next

/-- The split of the header of `node` at its index `i`. -/
def splitNode (t : Trie) (byteArray : List UInt8) (newEntry : EntryPtr) (parentNode node idx i : ℕ)
    (cur h : UInt8) : Option Trie := do
  let hdr := (t.node node).header
  let b ← byteArray[idx - 1]?
  -- the compare-and-swap on the link of the parent
  if ((t.node parentNode).record b).next ≠ some node then none
  else
    let (newNode, nestedNode) :=
      CacheNode.split byteArray idx (hdr.depth + i - idx) h node cur newEntry (t.size + 1)
    let t := ((t.setNext parentNode b (some t.size)).setHeader node (hdr.splitHeader i)).alloc newNode
    return match nestedNode with
      | none => t
      | some nd => t.alloc nd

/-- `_insert` from a node on; returns the entry that the new one replaces. -/
def insertLoop (byteArray : List UInt8) (newEntry : EntryPtr) :
    ℕ → Option ℕ → ℕ → ℕ → Trie → Option (Trie × Option EntryPtr)
  | 0, _, _, _, _ => none
  | fuel + 1, parentNode, node, idx, t => do
    let hdr := (t.node node).header
    match ← parseHeader byteArray hdr.depth hdr.partials 0 with
    | some (i, cur, h) =>
      let t ← t.splitNode byteArray newEntry (← parentNode) node idx i cur h
      return (t, none)
    | none =>
      let idx := hdr.depth + hdr.partials.length
      let b ← byteArray[idx]?
      let v := (t.node node).record b
      if idx = byteArray.length - 1 then
        return (t.setEntry node b (some newEntry), v.cacheEntry)
      else
        match v.next with
        | none =>
          return ((t.setNext node b (some t.size)).alloc (.leaf byteArray (idx + 1) newEntry), none)
        | some next => insertLoop byteArray newEntry fuel (some node) next (idx + 1) t

def insert (t : Trie) (byteArray : List UInt8) (newEntry : EntryPtr) :
    Option (Trie × Option EntryPtr) :=
  insertLoop byteArray newEntry (byteArray.length + 1) none 0 0 t

/-- `_search` from a node on; the stack has its top first. -/
def searchLoop (t : Trie) (byteArray : List UInt8) :
    ℕ → ℕ → ℕ → List SearchRet → Option (List SearchRet)
  | 0, _, _, _ => none
  | fuel + 1, node, idx, ret =>
    if byteArray.length ≤ idx then some ret
    else do
      let hdr := (t.node node).header
      match ← parseHeader byteArray hdr.depth hdr.partials 0 with
      | some _ => return ret
      | none =>
        let idx := hdr.depth + hdr.partials.length
        let b ← byteArray[idx]?
        match (t.node node).records b with
        | none => return ret
        | some v =>
          let ret := ⟨(node, b), v.cacheEntry, idx + 1⟩ :: ret
          match v.next with
          | none => return ret
          | some next => searchLoop t byteArray fuel next (idx + 1) ret

def search (t : Trie) (byteArray : List UInt8) : Option (List SearchRet) :=
  t.searchLoop byteArray (byteArray.length + 1) 0 0 []

def slotOf (t : Trie) (byteArray : List UInt8) : Option SlotPtr := do
  let ret ← t.search byteArray
  (ret.find? (·.nextIdx = byteArray.length)).map SearchRet.entryPtrPtr

end Trie

/-- The cache with `cache_entry_pool`, the queue of entries to be released and the clock. -/
structure RadixCache where
  trie : Trie
  entry : EntryPtr → TimedEntry
  curIdx : ℕ
  freelist : List EntryPtr
  gc : List EntryPtr
  nowNs : ℕ

namespace RadixCache

def poolCapacity : ℕ := 5000000

def safelyFreeEpoch : ℕ := 2 * 65 * 8

/-- `NumaObjectPool::allocate`; an exhausted pool aborts. -/
def allocate (c : RadixCache) (e : TimedEntry) : Option (EntryPtr × RadixCache) :=
  match c.freelist with
  | p :: rest => some (p, { c with freelist := rest, entry := Function.update c.entry p e })
  | [] =>
    if c.curIdx < poolCapacity then
      some (c.curIdx, { c with curIdx := c.curIdx + 1, entry := Function.update c.entry c.curIdx e })
    else none

/-- The loop of `_safely_delete` over the queue and the free list. -/
def drain : List EntryPtr → List EntryPtr → List EntryPtr × List EntryPtr
  | [], free => ([], free)
  | p :: gc, free =>
    if safelyFreeEpoch < (p :: gc).length then drain gc (free ++ [p]) else (p :: gc, free)

def safelyDelete (c : RadixCache) (p : EntryPtr) : RadixCache :=
  let r := drain (c.gc ++ [p]) c.freelist
  { c with gc := r.1, freelist := r.2 }

/-- `invalidate`; null pointers are ignored. -/
def invalidate (c : RadixCache) (entryPtrPtr : Option SlotPtr) (entryPtr : Option EntryPtr) :
    RadixCache :=
  match entryPtrPtr, entryPtr with
  | some s, some p =>
    if c.trie.entryAt s = some p then
      { c with trie := c.trie.setEntry s.1 s.2 none }.safelyDelete p
    else c
  | _, _ => c

variable {n : ℕ}

/-- `add_to_cache` without eviction; outside the key the iterators are not valid. -/
def addToCache (c : RadixCache) (k : Key n) (pNode : Page) (nodeAddr : Addr) : Option RadixCache :=
  if pNode.hdr.depth = 0 ∨ n < pNode.hdr.depth - 1 then none
  else if pNode.hdr.depth - 1 = 0 then some c
  else do
    let (p, c) ← c.allocate (.ofPage pNode nodeAddr c.nowNs)
    let (t, old) ← c.trie.insert (cachePath k pNode.hdr) p
    let c := { c with trie := t }
    return match old with
      | none => c
      | some q => c.safelyDelete q

def isExpired (c : RadixCache) (e : TimedEntry) : Bool := e.expireAtNs < c.nowNs

def findRecord (e : TimedEntry) (nextPartial : UInt8) : Option ℕ :=
  e.records.findIdx? fun r => r ≠ .null ∧ r.partialKey = nextPartial

/-- The loop of `search_from_cache` over the stack; `at` throws outside the key. -/
def scanStack (k : Key n) : List SearchRet → RadixCache →
    Option (RadixCache × Option (SlotPtr × EntryPtr × ℕ))
  | [], c => some (c, none)
  | item :: rest, c => do
    let nextPartial ← k.bytes[item.nextIdx]?
    match item.entryPtr with
    | none => scanStack k rest c
    | some p =>
      if c.isExpired (c.entry p) then
        scanStack k rest (c.invalidate (some item.entryPtrPtr) (some p))
      else
        match findRecord (c.entry p) nextPartial with
        | some i => return (c, some (item.entryPtrPtr, p, i))
        | none => scanStack k rest c

/-- `search_from_cache`: the cache afterwards and, on success, slot, entry and index. -/
def searchFromCache (c : RadixCache) (k : Key n) :
    Option (RadixCache × Option (SlotPtr × EntryPtr × ℕ)) := do
  let ret ← c.trie.search (k.pre (n - 1))
  scanStack k ret c

end RadixCache
end SmartTree
