import Mathlib.Data.Fintype.Defs
import SmartTree.Lib.Transition
import SmartTree.Tree.Memory

/-! `Tree::insert` and `Tree::search` as small-step machines over the memory node. A
remote read takes one step for each word, in any order; compare-and-swaps are atomic.
Operations that nobody waits for stay pending and run in issue order, before the next
awaited operation of the same client. `get_combining_value` answers by label, and the
index cache is the log of everything ever added to it: a lookup may hit any logged page
filed under a prefix of the key. -/
namespace SmartTree
open Transition
variable {n : ℕ}

inductive Site
  | null
  | empty (i : ℕ)
  | behind (i : ℕ)
deriving DecidableEq

/-- Arguments of `out_of_place_write_node`; `hdrIdx` is the index of the header byte that
differs, for a header split. -/
structure Split where
  partialLen : ℕ
  diff : UInt8
  hdrIdx : Option ℕ

structure Switch where
  next : NodeType
  ptr : Ptr
  p : Entry
  hdr : Header
  node : Addr
  entryDone : Bool
  hdrDone : Bool
  both : Bool
  entryBuf : Entry
  hdrBuf : Header

inductive Pc
  | idle
  | readRoot
  | next
  | readLeaf (todo : List LeafWord)
  | reread
  | gotLeaf
  | combineUpdate
  | acquireLock
  | combineWrite
  | writeBack (todo : List LeafWord)
  | leafPrepare (site : Site)
  | leafWrite (site : Site)
  | leafCas (site : Site)
  | splitPrepare (sp : Split)
  | splitWrite (sp : Split) (nodes : List Addr) (unwrite : Bool)
  | splitCas (sp : Split) (nodes : List Addr)
  | splitRev (sp : Split) (nodes : List Addr)
  | splitHdr (i : ℕ)
  | readNode (todo : List NodeWord)
  | readRest (todo : List NodeWord)
  | nodeRead
  | scan
  | emptyScan (i : ℕ)
  | switchEntry (w : Switch)
  | switchHdr (w : Switch)
  | switchDown (w : Switch)
  | switchEnd (w : Switch)
  | finish (res : Bool)
  /-- `search` found a null root: its first assert fails. -/
  | noTree
  /-- Any other assert failed, or a key was indexed outside its bytes. -/
  | fault

structure Client (n : ℕ) where
  pc : Pc
  isSearch : Bool
  key : Key n
  value : Value
  isLoad : Bool
  pPtr : Ptr
  p : Entry
  depth : ℕ
  fromCache : Bool
  leafAddr : Option Addr
  page : Page
  leaf : Leaf n
  /-- Issued operations nobody waits for. -/
  pending : List RemoteOp
  /-- History: every issued operation had completed when this search began. -/
  settled : Bool

/-- A published block: a leaf, or a node with the bytes from the root to the end of its header. -/
inductive Obj
  | node (path : List UInt8)
  | leaf

abbrev Layout := Addr → Option Obj

def Layout.publish (L : Layout) (ps : List (Addr × Obj)) : Layout :=
  ps.foldr (fun p L => Function.update L p.1 (some p.2)) L

/-- What a step leaves behind besides the client: pages added to the index cache, blocks made
reachable and the key of an insert that returned. -/
structure Move (n : ℕ) where
  mem : Mem n
  client : Client n
  added : List (List UInt8 × CacheEntry) := []
  published : List (Addr × Obj) := []
  returned : Option (Key n) := none

inductive Choice (n : ℕ)
  | begin (isSearch : Bool) (k : Key n) (v : Value) (isLoad : Bool) (hit : Option ℕ)
  | go
  /-- Position of the word to read or write among those left. -/
  | word (j : ℕ)
  /-- What `get_combining_value` finds. -/
  | combine (v : Option Value)
  | alloc (a : Addr)
  | split (v : Option Value) (as : List Addr)
  | flush

def Pc.isIdle : Pc → Bool
  | .idle => true
  | _ => false

theorem Pc.isIdle_iff {pc : Pc} : pc.isIdle = true ↔ pc = .idle := by
  cases pc <;> simp [isIdle]

def Choice.isBegin : Choice n → Bool
  | .begin .. => true
  | _ => false

/-- Neither a call nor a value combined into a running one. -/
def Choice.isPlain : Choice n → Bool
  | .begin .. => false
  | .combine v | .split v _ => v.isNone
  | _ => true

theorem Choice.isBegin_of_isPlain {ch : Choice n} (h : ch.isPlain = true) : ch.isBegin = false := by
  cases ch <;> first | rfl | cases h

namespace Client

def next (c : Client n) : Client n :=
  match c.p with
  | .null =>
    if c.fromCache then { c with pc := .fault }
    else if c.isSearch then { c with pc := .finish false }
    else { c with pc := .leafPrepare .null }
  | .leaf _ _ => { c with pc := .readLeaf leafWords }
  | .node _ t _ => { c with pc := .readNode (nodeWords t) }

/-- The repair of a reverse pointer in `read_leaf`. -/
def repairLeaf (c : Client n) (a : Addr) : List RemoteOp :=
  if !c.fromCache && c.leaf.rev ≠ c.pPtr then [.casRevLeaf a c.leaf.rev c.pPtr] else []

/-- `read_leaf` once the leaf has been read. -/
def leafRead (crc : Key n → Value → UInt64) (c : Client n) (a : Addr) : Client n :=
  { c with
    pending := c.pending ++ c.repairLeaf a
    pc := if !c.leaf.isValid c.pPtr c.fromCache then .reread
      else if !c.leaf.isConsistent crc then .readLeaf leafWords else .gotLeaf }

def gotLeaf (c : Client n) : Client n :=
  if c.isSearch then
    if c.leaf.key = c.key then { c with pc := .finish true, value := c.leaf.value }
    else { c with pc := .finish false }
  else if c.leaf.key = c.key then
    { c with pc := if c.isLoad then .finish true else .combineUpdate }
  else
    match longestCommonPrefix c.leaf.key c.key c.depth with
    | none => { c with pc := .fault }
    | some len =>
      match getPartial c.leaf.key (c.depth + len) with
      | none => { c with pc := .fault }
      | some diff => { c with pc := .splitPrepare ⟨len, diff, none⟩ }

def siteByte (c : Client n) : Site → Option UInt8
  | .null => getPartial c.key (c.depth - 1)
  | _ => getPartial c.key c.depth

def sitePtr (c : Client n) (a : Addr) : Site → Ptr
  | .null => c.pPtr
  | .empty i => .slot a i
  | .behind i => .slot a i

def descend (c : Client n) (ptr : Ptr) (e : Entry) : Client n :=
  { c with pPtr := ptr, p := e, fromCache := false, depth := c.depth + 1, pc := .next }

/-- The repair of a reverse pointer in `read_node`. -/
def repairNode (c : Client n) (a : Addr) : List RemoteOp :=
  if !c.fromCache && c.page.rev ≠ c.pPtr then [.casRevNode a c.page.rev c.pPtr] else []

/-- `read_node` after its first read: the header's type decides whether there is a rest. -/
def typeRead (c : Client n) : Client n :=
  { c with
    p := c.p.withType c.page.hdr.type
    pc := if c.p.type.code < c.page.hdr.type.code then
        .readRest (slotWords c.p.type.num c.page.hdr.type.num)
      else .nodeRead }

/-- `add_to_cache`, which ignores the node below the root entry. -/
def addToCache (k : Key n) (pg : Page) (a : Addr) : List (List UInt8 × CacheEntry) :=
  if pg.hdr.depth - 1 = 0 then [] else [(cachePath k pg.hdr, .ofPage pg a)]

def checkHeader (c : Client n) : Client n :=
  let hdr := c.page.hdr
  match hdr.firstDiff c.key with
  | none => { c with pc := .fault }
  | some none => { c with depth := hdr.depth + hdr.partials.length, pc := .scan }
  | some (some i) =>
    if c.isSearch then { c with pc := .finish false }
    else if hdr.depth + i < c.depth then { c with pc := .fault }
    else { c with pc := .splitPrepare ⟨hdr.depth + i - c.depth, hdr.partials.getD i 0, some i⟩ }

def nodeRead (m : Mem n) (c : Client n) (a : Addr) : Move n :=
  let c' := { c with pending := c.pending ++ c.repairNode a }
  if !c.page.isValid c.pPtr c.depth c.fromCache then { mem := m, client := { c' with pc := .reread } }
  else
    { mem := m, client := c'.checkHeader
      added := if c.depth = c.page.hdr.depth then addToCache c.key c.page a else [] }

def scan (c : Client n) (a : Addr) : Client n :=
  match getPartial c.key c.depth with
  | none => { c with pc := .fault }
  | some b =>
    match (List.range c.p.type.num).find?
        fun i => !(c.page.slots i).isNull && (c.page.slots i).partialKey == b with
    | some i => c.descend (.slot a i) (c.page.slots i)
    | none => { c with pc := if c.isSearch then .finish false else .emptyScan 0 }

/-- Search for an empty slot from `i` on, then behind the declared size. -/
def emptyScan (c : Client n) (i : ℕ) : Client n :=
  match (List.range c.p.type.num).find? fun j => decide (i ≤ j) && (c.page.slots j).isNull with
  | some j => { c with pc := .leafPrepare (.empty j) }
  | none =>
    if c.p.type = .node256 then { c with pc := .fault }
    else { c with pc := .leafPrepare (.behind c.p.type.num) }

/-- After the compare-and-swap of `out_of_place_write_leaf` found `cur` instead of null. -/
def leafCasFailed (c : Client n) (a : Addr) (cur : Entry) (b : UInt8) : Site → Client n
  | .null => { c with p := cur, pc := .next }
  | .empty i =>
    if cur.partialKey = b then c.descend (.slot a i) cur else { c with pc := .emptyScan (i + 1) }
  | .behind i =>
    if cur.partialKey = b then c.descend (.slot a i) cur
    else if i + 1 < 256 then { c with pc := .leafPrepare (.behind (i + 1)) }
    else { c with pc := .fault }

/-- After it succeeded; a leaf behind the declared size is followed by `cas_node_type`. -/
def leafCasDone (c : Client n) (a : Addr) : Site → Client n
  | .behind i =>
    match numToNodeType i with
    | none => { c with pc := .fault }
    | some t => { c with pc := .switchEntry ⟨t, c.pPtr, c.p, c.page.hdr, a, false, false, true,
        .null, c.page.hdr⟩ }
  | _ => { c with pc := .finish true }

def target (c : Client n) : Addr := c.p.addr?.getD 0

end Client

namespace Switch

def casEntry (w : Switch) (m : Mem n) : Mem n × Switch :=
  let w := { w with both := !w.entryDone && !w.hdrDone }
  if w.entryDone then (m, w)
  else
    let cur := m.load w.ptr
    (if cur = w.p then m.store (w.p.withType w.next) w.ptr else m,
      { w with entryDone := decide (cur = w.p), entryBuf := cur })

/-- The masked compare-and-swap of the header. `two_cas_mask_sync` reports whether the whole
word was the expected one, `cas_mask_sync` whether the masked part was. -/
def casHdr (w : Switch) (m : Mem n) : Mem n × Switch :=
  if w.hdrDone then (m, w)
  else
    let cur := (m.node w.node).hdr
    (m.setNode w.node fun pg => { pg with hdr := pg.hdr.casType w.hdr w.next },
      { w with
        hdrDone := if w.both then decide (cur = w.hdr) else decide (cur.type = w.hdr.type)
        hdrBuf := cur })

def afterCas (w : Switch) : Pc :=
  if w.entryDone then .switchEnd w else .switchDown { w with p := w.entryBuf }

def down (w : Switch) (m : Mem n) : Pc :=
  match w.p with
  | .node _ t a =>
    if a = w.node then .switchEnd { w with entryDone := decide (w.next.code ≤ t.code) }
    else .switchDown { w with ptr := .slot a 0, p := m.load (.slot a 0) }
  | _ => .switchEnd { w with entryDone := true }

/-- The end of a round of `cas_node_type`. -/
def close (w : Switch) : Pc :=
  let w := if w.hdrDone then w
    else { w with hdr := w.hdrBuf, hdrDone := decide (w.next.code ≤ w.hdrBuf.type.code) }
  if w.entryDone && w.hdrDone then .finish true else .switchEntry w

end Switch

namespace Client

def await (c : Client n) (mv : Move n) : Option (Move n) :=
  if c.pending.isEmpty then some mv else none

/-- Take the `j`-th word out of those left. -/
def pick {α : Type} (todo : List α) (j : ℕ) : Option (α × List α) :=
  todo[j]?.map fun w => (w, todo.eraseIdx j)

/-- `out_of_place_write_leaf` up to its write: reuse the leaf already written, or write one. -/
def leafPrepare (c : Client n) (site : Site) (v : Option Value) : Client n :=
  let c' := { c with value := v.getD c.value }
  match c.siteByte site, c.leafAddr, v with
  | none, _, _ => { c with pc := .fault }
  | some _, some l, none =>
    { c' with pending := c.pending ++ [.writeRev l (c.sitePtr c.target site)], pc := .leafCas site }
  | some _, _, _ => { c' with pc := .leafWrite site }

def leafCas (m : Mem n) (c : Client n) (site : Site) : Option (Move n) :=
  match c.siteByte site, c.leafAddr with
  | some b, some l =>
    let ptr := c.sitePtr c.target site
    let cur := m.load ptr
    c.await <| if cur = .null then
        { mem := m.store (.leaf b l) ptr, client := c.leafCasDone c.target site
          published := [(l, .leaf)] }
      else { mem := m, client := c.leafCasFailed c.target cur b site }
  | _, _ => none

/-- `out_of_place_write_node` up to its batch of writes. A new leaf comes first among the
blocks handed out. -/
def splitPrepare (m : Mem n) (c : Client n) (sp : Split) (v : Option Value) (as : List Addr) :
    Option (Move n) :=
  let num := sp.partialLen / (hPartialLenMax + 1) + 1
  let c' := { c with value := v.getD c.value }
  if as.Nodup ∧ ∀ a ∈ as, m.live a = false then
    match c.leafAddr, v, as with
    | some l, none, nodes =>
      if nodes.length = num then
        some { mem := m.alloc nodes
               client := { c' with
                 pending := c.pending ++ [.writeRev l (.slot (nodes.getLastD 0) 1)]
                 pc := .splitWrite sp nodes false } }
      else none
    | _, _, l :: nodes =>
      if nodes.length = num then
        some { mem := m.alloc (l :: nodes)
               client := { c' with leafAddr := some l, pc := .splitWrite sp nodes true } }
      else none
    | _, _, [] => none
  else none

def pages (c : Client n) (sp : Split) (nodes : List Addr) : Option (List (Addr × Page)) :=
  splitPages c.key sp.diff c.p (c.leafAddr.getD 0) nodes sp.partialLen c.depth c.pPtr

def splitWrite (crc : Key n → Value → UInt64) (m : Mem n) (c : Client n) (sp : Split)
    (nodes : List Addr) (unwrite : Bool) : Option (Move n) :=
  match c.pages sp nodes with
  | none => some { mem := m, client := { c with pc := .fault } }
  | some pages =>
    let m' := m.writePages pages
    c.await
      { mem := if unwrite then m'.setLeaf (c.leafAddr.getD 0) fun _ =>
          .make crc c.key c.value (.slot (nodes.getLastD 0) 1) else m'
        client := { c with pc := .splitCas sp nodes } }

def splitCas (m : Mem n) (c : Client n) (sp : Split) (nodes : List Addr) : Option (Move n) :=
  let cur := m.load c.pPtr
  c.await <| if cur = c.p then
      { mem := m.store (.node c.p.partialKey .node4 (nodes.headD 0)) c.pPtr
        client := { c with pc := .splitRev sp nodes }
        published := (c.leafAddr.getD 0, .leaf) ::
          ((c.pages sp nodes).getD []).map fun q => (q.1, .node (cachePath c.key q.2.hdr)) }
    else { mem := m.free nodes, client := { c with p := cur, pc := .next } }

/-- The reverse pointer of the old leaf or node, and the new pages for the cache. -/
def splitRev (m : Mem n) (c : Client n) (sp : Split) (nodes : List Addr) : Move n :=
  let new := Ptr.slot (nodes.getLastD 0) 0
  let op := match c.p with
    | .leaf _ a => [RemoteOp.casRevLeaf a c.pPtr new]
    | .node _ _ a => [RemoteOp.casRevNode a c.pPtr new]
    | .null => []
  { mem := m
    client := { c with
      pending := c.pending ++ op
      pc := match sp.hdrIdx with | none => .finish true | some i => .splitHdr i }
    added := ((c.pages sp nodes).getD []).flatMap fun q => addToCache c.key q.2 q.1 }

def splitHdr (c : Client n) (i : ℕ) : Client n :=
  { c with
    pending := c.pending ++ [.casHeader c.target c.page.hdr (c.page.hdr.splitHeader i)]
    pc := .finish true }

def act (crc : Key n → Value → UInt64) (m : Mem n) (c : Client n) (ch : Choice n) :
    Option (Move n) :=
  match c.pc, ch with
  | .readRoot, .go =>
    c.await { mem := m, client := { c with
      pPtr := .root, p := m.root, depth := 1
      pc := if c.isSearch && m.root.isNull then .noTree else .next } }
  | .next, .go => some { mem := m, client := c.next }
  | .readLeaf [], .go => some { mem := m, client := c.leafRead crc c.target }
  | .readLeaf todo, .word j =>
    (pick todo j).bind fun w => c.await { mem := m, client := { c with
      leaf := (m.leaf c.target).copy w.1 c.leaf, pc := .readLeaf w.2 } }
  | .reread, .go =>
    c.await { mem := m, client := { c with p := m.load c.pPtr, fromCache := false, pc := .next } }
  | .gotLeaf, .go => some { mem := m, client := c.gotLeaf }
  | .combineUpdate, .combine v =>
    let c' := { c with value := v.getD c.value }
    some { mem := m, client := { c' with
      pc := if c.leaf.value = c'.value then .finish true else .acquireLock } }
  | .acquireLock, .go =>
    c.await <| if (m.leaf c.target).lock then { mem := m, client := c }
      else { mem := m.setLeaf c.target fun l => { l with lock := true }
             client := { c with pc := .combineWrite } }
  | .combineWrite, .combine v =>
    let c' := { c with value := v.getD c.value }
    some { mem := m, client := if c.leaf.key ≠ c.key then { c with pc := .fault } else { c' with
      leaf := { c.leaf with value := c'.value, checksum := crc c.leaf.key c'.value, lock := false }
      pc := .writeBack leafWords } }
  | .writeBack [], .go => some { mem := m, client := { c with pc := .finish true } }
  | .writeBack (w :: todo), .go =>
    c.await { mem := m.setLeaf c.target (c.leaf.copy w), client := { c with pc := .writeBack todo } }
  | .leafPrepare site, .combine v => some { mem := m, client := c.leafPrepare site v }
  | .leafWrite site, .alloc a =>
    if m.live a then none else c.await
      { mem := (m.alloc [a]).setLeaf a fun _ => .make crc c.key c.value (c.sitePtr c.target site)
        client := { c with leafAddr := some a, pc := .leafCas site } }
  | .leafCas site, .go => c.leafCas m site
  | .splitPrepare sp, .split v as => c.splitPrepare m sp v as
  | .splitWrite sp nodes unwrite, .go => c.splitWrite crc m sp nodes unwrite
  | .splitCas sp nodes, .go => c.splitCas m sp nodes
  | .splitRev sp nodes, .go => some (c.splitRev m sp nodes)
  | .splitHdr i, .go => some { mem := m, client := c.splitHdr i }
  | .readNode [], .go => some { mem := m, client := c.typeRead }
  | .readNode todo, .word j =>
    (pick todo j).bind fun w => c.await { mem := m, client := { c with
      page := (m.node c.target).copy w.1 c.page, pc := .readNode w.2 } }
  | .readRest [], .go => some { mem := m, client := { c with pc := .nodeRead } }
  | .readRest todo, .word j =>
    (pick todo j).bind fun w => c.await { mem := m, client := { c with
      page := (m.node c.target).copy w.1 c.page, pc := .readRest w.2 } }
  | .nodeRead, .go => some (c.nodeRead m c.target)
  | .scan, .go => some { mem := m, client := c.scan c.target }
  | .emptyScan i, .go => some { mem := m, client := c.emptyScan i }
  | .switchEntry w, .go =>
    c.await { mem := (w.casEntry m).1, client := { c with pc := .switchHdr (w.casEntry m).2 } }
  | .switchHdr w, .go =>
    c.await { mem := (w.casHdr m).1, client := { c with pc := (w.casHdr m).2.afterCas } }
  | .switchDown w, .go => c.await { mem := m, client := { c with pc := w.down m } }
  | .switchEnd w, .go => some { mem := m, client := { c with pc := w.close } }
  | .finish _, .go =>
    some { mem := m, client := { c with pc := .idle }
           returned := if c.isSearch then none else some c.key }
  | _, .flush =>
    match c.pending with
    | [] => none
    | op :: ops => some { mem := m.perform op, client := { c with pending := ops } }
  | _, _ => none

/-- The start of an operation: from a cached entry, or at the root. -/
def start (log : List (List UInt8 × CacheEntry)) (c : Client n) (hit : Option ℕ) :
    Option (Client n) :=
  match hit with
  | none => some { c with fromCache := false, pc := .readRoot }
  | some j =>
    log[j]?.bind fun q =>
      if q.1.isPrefixOf c.key.bytes ∧ q.1.length < n then
        (q.2.records.findIdx? fun e => !e.isNull && e.partialKey == c.key.byte (q.1.length + 1)).map
          fun i => { c with
            pPtr := .slot q.2.addr i, p := q.2.records.getD i .null, depth := q.2.depth + 1
            fromCache := true, pc := .next }
      else none

end Client

structure World (ι : Type*) (n : ℕ) where
  mem : Mem n
  client : ι → Client n
  /-- Everything `add_to_cache` was ever called with. -/
  log : List (List UInt8 × CacheEntry)
  layout : Layout
  /-- History: the keys of the inserts that have returned. -/
  done : List (Key n)

namespace World
variable {ι : Type*} [DecidableEq ι] [Fintype ι]

def Settled (s : World ι n) : Prop := ∀ i, (s.client i).pending.isEmpty = true

instance (s : World ι n) : Decidable s.Settled := inferInstanceAs (Decidable (∀ _, _))

def put (s : World ι n) (i : ι) (mv : Move n) : World ι n where
  mem := mv.mem
  client := Function.update s.client i mv.client
  log := s.log ++ mv.added
  layout := s.layout.publish mv.published
  done := mv.returned.toList ++ s.done

def next (crc : Key n → Value → UInt64) (s : World ι n) (a : ι × Choice n) : Option (World ι n) :=
  let c := s.client a.1
  match a.2, c.pc with
  | .begin isSearch k v isLoad hit, .idle =>
    (Client.start s.log { c with
      isSearch, isLoad, key := k, value := v, leafAddr := none
      settled := decide s.Settled } hit).map
      fun c' => s.put a.1 { mem := s.mem, client := c' }
  | .begin _ _ _ _ _, _ => none
  | ch, _ => (c.act crc s.mem ch).map (s.put a.1)

structure Initial (s : World ι n) : Prop where
  root : s.mem.root = .null
  slots : ∀ a i, (s.mem.node a).slots i = .null
  live : ∀ a, s.mem.live a = false
  idle : ∀ i, (s.client i).pc = .idle
  pending : ∀ i, (s.client i).pending = []
  log : s.log = []
  layout : ∀ a, s.layout a = none
  done : s.done = []

end World

def treeSystem (ι : Type*) [DecidableEq ι] [Fintype ι] (crc : Key n → Value → UInt64) :
    System (World ι n) (ι × Choice n) where
  init := World.Initial
  next := World.next crc

end SmartTree
