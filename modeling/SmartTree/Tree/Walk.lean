import SmartTree.Tree.Range

/-! The two walks that follow a key down without changing the tree: `Tree::search_entries`,
which finds where a range query starts, and `Tree::migrate_local_cache_to_radix_cache`. Each
takes one node in a step; a reverse pointer that needs repair is reported. -/
namespace SmartTree
variable {n : ℕ}

structure Walk where
  pPtr : Ptr
  p : Entry
  depth : ℕ
  fromCache : Bool

/-- A hit in the index cache: the slot, the record and the depth of the cached page. -/
def cacheHit (log : List (List UInt8 × CacheEntry)) (k : Key n) (j : ℕ) : Option (Ptr × Entry × ℕ) :=
  log[j]?.bind fun q =>
    if q.1.isPrefixOf k.bytes ∧ q.1.length < n then
      (q.2.records.findIdx? fun e => !e.isNull && e.partialKey == k.byte (q.1.length + 1)).map
        fun i => (.slot q.2.addr i, q.2.records.getD i .null, q.2.depth)
    else none

def Walk.start (m : Mem n) (hit : Option (Ptr × Entry × ℕ)) : Walk :=
  match hit with
  | some (ptr, e, depth) => ⟨ptr, e, depth + 1, true⟩
  | none => ⟨.root, m.root, 1, false⟩

/-- `read_node`: the page, the entry with the type of the header, the repair of the reverse
pointer and whether the node may be used. -/
structure NodeRead where
  page : Page
  p : Entry
  ops : List RemoteOp
  valid : Bool

def readNode (m : Mem n) (w : Walk) (a : Addr) : NodeRead :=
  let pg := m.node a
  { page := pg
    p := w.p.withType pg.hdr.type
    ops := if !w.fromCache && pg.rev ≠ w.pPtr then [.casRevNode a pg.rev w.pPtr] else []
    valid := pg.isValid w.pPtr w.depth w.fromCache }

@[simp] theorem readNode_page (m : Mem n) (w : Walk) (a : Addr) :
    (readNode m w a).page = m.node a := rfl

/-- How the comparison with a header ends in `search_entries`. -/
inductive HeaderEnd
  | mismatch | onPage | through

def headerWalk (k : Key n) (target : ℕ) : ℕ → List UInt8 → Option HeaderEnd
  | _, [] => some .through
  | d, b :: bs => do
    let x ← getPartial k d
    if x ≠ b then return .mismatch
    if d + 1 = target then return .onPage
    headerWalk k target (d + 1) bs

structure WalkStep (n : ℕ) where
  ops : List RemoteOp := []
  calls : List (AddCall n) := []
  /-- The contexts found, for `search_entries`. -/
  found : List (ScanContext n) := []
  /-- Where to go on. -/
  next : Option Walk := none

/-- The slot of a node whose entry passes a test, as the place to go on. -/
def descendTo (pg : Page) (a : Addr) (num : ℕ) (test : Entry → Bool) (depth : ℕ) (fromCache : Bool) :
    Option Walk :=
  ((List.range num).find? fun i => test (pg.slots i)).map fun i =>
    ⟨.slot a i, pg.slots i, depth + 1, fromCache⟩

/-- One round of `search_entries` from the label `next` on. -/
def searchEntries (m : Mem n) (fromKey toKey : Key n) (target : ℕ) (w : Walk) :
    Option (WalkStep n) :=
  if w.p = .null then some {}
  else if w.depth = target then
    some { found := [⟨w.p, w.pPtr, w.depth - 1, w.fromCache, fromKey, toKey, .border, .border⟩] }
  else
    match w.p with
    | .node _ _ a =>
      let r := readNode m w a
      let hdr := r.page.hdr
      if !r.valid then
        some { ops := r.ops, next := some { w with p := m.load w.pPtr, fromCache := false } }
      else do
        match ← headerWalk fromKey target hdr.depth hdr.partials with
        | .mismatch => return { ops := r.ops }
        | .onPage =>
          let q ← rangeQueryOnPage r.page (w.depth - 1) r.p fromKey toKey .border .border
          return { ops := r.ops, calls := q.1, found := q.2 }
        | .through =>
          let depth := hdr.depth + hdr.partials.length
          let b ← getPartial fromKey depth
          return { ops := r.ops
                   next := descendTo r.page a r.p.type.num (fun e => !e.isNull && e.partialKey == b)
                     depth false }
    | _ => some {}

/-- One round of the migration loop. It compares the byte at its own depth with the slots, null
ones included, whatever the header says, and keeps the flag of a cached start. -/
def migrateStep (m : Mem n) (k : Key n) (w : Walk) : Option (WalkStep n) :=
  match w.p with
  | .node _ _ a =>
    let r := readNode m w a
    let hdr := r.page.hdr
    if !r.valid then some { ops := r.ops }
    else do
      let b ← getPartial k w.depth
      return { ops := r.ops
               calls := if w.depth = hdr.depth then [⟨k, r.page, .slot a 0⟩] else []
               next := descendTo r.page a hdr.type.num (fun e => e.partialKey == b) w.depth
                 w.fromCache }
  | _ => some {}

end SmartTree
