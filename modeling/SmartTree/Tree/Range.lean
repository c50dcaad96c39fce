import SmartTree.Tree.Memory

/-! `Tree::range_query`: the contexts of a level are read in one batch and replaced by those
of the next level. What the reads deliver is an argument, so that the words of a page that
the batch did not fetch are whatever was in the buffer before. -/
namespace SmartTree
variable {n : ℕ}

inductive State
  | inside | border | outside
deriving DecidableEq

/-- `ScanContext`; the bounds are inclusive. Its cache pointers only serve `invalidate`. -/
structure ScanContext (n : ℕ) where
  e : Entry
  ePtr : Ptr
  depth : ℕ
  fromCache : Bool
  fromKey : Key n
  toKey : Key n
  lState : State
  rState : State

structure RangeCache (n : ℕ) where
  fromKey : Key n
  toKey : Key n
  ePtr : Ptr
  e : Entry
  depth : ℕ

/-- A call of `RadixCache::add_to_cache`. -/
structure AddCall (n : ℕ) where
  key : Key n
  page : Page
  addr : Ptr

/-- What the cache files for a call: nothing for the node below the root entry. -/
def AddCall.filed (q : AddCall n) : List (List UInt8 × CacheEntry) :=
  match q.addr with
  | .root => []
  | .slot a _ => if q.page.hdr.depth - 1 = 0 then [] else [(cachePath q.key q.page.hdr, .ofPage q.page a)]

def State.left (st : State) (b bound : UInt8) : State :=
  if st = .border then (if b = bound then .border else if bound < b then .inside else .outside) else st

def State.right (st : State) (b bound : UInt8) : State :=
  if st = .border then (if b = bound then .border else if b < bound then .inside else .outside) else st

def Header.state (h : Header) (side : State → UInt8 → UInt8 → State) (k : Key n) (st : State) :
    Option State :=
  if st = .border then
    (h.firstDiff k).map fun
      | none => .border
      | some j => side .border (h.partials.getD j 0) (k.byte (h.depth + j))
  else some st

/-- `remake_prefix` for one byte after the other. -/
def remakePath (k : Key n) (depth : ℕ) : List UInt8 → Option (Key n)
  | [] => some k
  | b :: bs => (remakePrefix k depth b).bind fun k => remakePath k (depth + 1) bs

/-- The bound of a pushed context: inside, it is rewritten to begin with the context's bytes. -/
def State.nextBound (st : State) (k : Key n) (depth : ℕ) (path : List UInt8) : Option (Key n) :=
  if st = .inside then remakePath k depth path else some k

def collect {α : Type*} (f : ℕ → Option (List α)) : List ℕ → Option (List α)
  | [] => some []
  | j :: js => do
    let x ← f j
    let xs ← collect f js
    return x ++ xs

/-- The variables of `range_query_on_page` once the header has been checked. -/
structure PageScan (n : ℕ) where
  hdr : Header
  addr : Addr
  fromKey : Key n
  toKey : Key n
  lState : State
  rState : State
  fromPartial : UInt8
  toPartial : UInt8

/-- One slot of the page: null slots and slots outside the bounds push nothing. -/
def PageScan.slot (v : PageScan n) (e : Entry) (j : ℕ) : Option (List (ScanContext n)) :=
  if e = .null then some []
  else
    let l := v.lState.left e.partialKey v.fromPartial
    let r := v.rState.right e.partialKey v.toPartial
    if l = .outside ∨ r = .outside then some []
    else do
      let path := v.hdr.partials ++ [e.partialKey]
      let nextFrom ← l.nextBound v.fromKey v.hdr.depth path
      let nextTo ← r.nextBound v.toKey v.hdr.depth path
      return [⟨e, .slot v.addr j, v.hdr.depth + v.hdr.partials.length, false, nextFrom, nextTo, l, r⟩]

/-- `range_query_on_page`: what it adds to the cache and the contexts it pushes. -/
def rangeQueryOnPage (pg : Page) (depth : ℕ) (p : Entry) (fromKey toKey : Key n)
    (lState rState : State) : Option (List (AddCall n) × List (ScanContext n)) := do
  let a := p.addr?.getD 0
  let calls := if depth + 1 = pg.hdr.depth then [⟨fromKey, pg, .slot a 0⟩] else []
  let l ← pg.hdr.state .left fromKey lState
  let r ← pg.hdr.state .right toKey rState
  if l = .outside ∨ r = .outside then return (calls, [])
  let fromPartial ← getPartial fromKey (pg.hdr.depth + pg.hdr.partials.length)
  let toPartial ← getPartial toKey (pg.hdr.depth + pg.hdr.partials.length)
  let v : PageScan n := ⟨pg.hdr, a, fromKey, toKey, l, r, fromPartial, toPartial⟩
  let ctxs ← collect (fun j => v.slot (pg.slots j) j) (List.range pg.hdr.type.num)
  return (calls, ctxs)

structure Reads (n : ℕ) where
  page : ℕ → Page
  leaf : ℕ → Leaf n
  /-- The entry read again for a context that was found invalid. -/
  entry : ℕ → Entry

structure RangeState (n : ℕ) where
  survivors : List (ScanContext n)
  tokens : List Addr
  /-- The assignments to `ret`, in order. -/
  ret : List (Key n × Value)

/-- The contexts whose block has not been read yet, and the tokens afterwards. -/
def claim : List (ScanContext n) → List Addr → List (ScanContext n) × List Addr
  | [], tokens => ([], tokens)
  | s :: rest, tokens =>
    let token := s.e.addr?.getD 0
    if token ∈ tokens then claim rest tokens
    else
      let r := claim rest (token :: tokens)
      (s :: r.1, r.2)

structure Processed (n : ℕ) where
  calls : List (AddCall n) := []
  survivors : List (ScanContext n) := []
  ret : List (Key n × Value) := []

/-- A leaf: an inconsistent one is queued again, and its value stored all the same. -/
def processLeaf (crc : Key n → Value → UInt64) (fromKey toKey : Key n) (s : ScanContext n)
    (leaf : Leaf n) (again : Entry) : Processed n :=
  if !leaf.isValid s.ePtr s.fromCache then { survivors := [{ s with e := again, fromCache := false }] }
  else
    { survivors := if leaf.isConsistent crc then [] else [s]
      ret := if fromKey ≤ leaf.key ∧ leaf.key < toKey then [(leaf.key, leaf.value)] else [] }

def processNode (s : ScanContext n) (pg : Page) (again : Entry) : Option (Processed n) :=
  if !pg.isValid s.ePtr (s.depth + 1) s.fromCache then
    some { survivors := [{ s with e := again, fromCache := false }] }
  else
    (rangeQueryOnPage pg s.depth s.e s.fromKey s.toKey s.lState s.rState).map fun q =>
      { calls := q.1, survivors := q.2 }

/-- The `i`-th region of the batch; a null entry has no block to read. -/
def process (crc : Key n → Value → UInt64) (fromKey toKey : Key n) (r : Reads n) (i : ℕ)
    (s : ScanContext n) : Option (Processed n) :=
  match s.e with
  | .null => none
  | .leaf _ _ => some (processLeaf crc fromKey toKey s (r.leaf i) (r.entry i))
  | .node _ _ _ => processNode s (r.page i) (r.entry i)

def processAll (crc : Key n → Value → UInt64) (fromKey toKey : Key n) (r : Reads n) :
    ℕ → List (ScanContext n) → Option (Processed n)
  | _, [] => some {}
  | i, s :: rest => do
    let x ← process crc fromKey toKey r i s
    let y ← processAll crc fromKey toKey r (i + 1) rest
    return ⟨x.calls ++ y.calls, x.survivors ++ y.survivors, x.ret ++ y.ret⟩

def rangeLevel (crc : Key n → Value → UInt64) (fromKey toKey : Key n)
    (reads : List (ScanContext n) → Reads n) (st : RangeState n) :
    Option (List (AddCall n) × RangeState n) :=
  let si := claim st.survivors st.tokens
  (processAll crc fromKey toKey (reads si.1) 0 si.1).map fun x =>
    (x.calls, ⟨x.survivors, si.2, st.ret ++ x.ret⟩)

/-- A page as the batch fetches it over old contents of the buffer: all slots for a cached
entry, otherwise those the entry's type declares. -/
def fetchPage (m : Mem n) (s : ScanContext n) (old : Page) : Page :=
  let pg := m.node (s.e.addr?.getD 0)
  let num := if s.fromCache then NodeType.node256.num else s.e.type.num
  { pg with slots := fun j => if j < num then pg.slots j else old.slots j }

def Reads.of (m : Mem n) (old : ℕ → Page) (si : List (ScanContext n)) : Reads n where
  page i := (si[i]?.map fun s => fetchPage m s (old i)).getD (old i)
  leaf i := m.leaf ((si[i]?.bind fun s => s.e.addr?).getD 0)
  entry i := m.load ((si[i]?.map ScanContext.ePtr).getD .root)

/-- The loop of `search_range_from_cache` with `fuel` keys to go. -/
def rangeCacheLoop (lookup : Key n → Option (Ptr × Entry × ℕ)) (toKey : Key n) :
    ℕ → Key n → List (RangeCache n)
  | 0, _ => []
  | fuel + 1, k =>
    if k < toKey then
      (match lookup k with
        | none => []
        | some (ptr, e, depth) =>
          match e with
          | .leaf _ _ => [⟨k, k, ptr, e, depth⟩]
          | _ => [⟨getLeftmost k depth, getRightmost k depth, ptr, e, depth⟩]) ++
        rangeCacheLoop lookup toKey fuel (k.add 1)
    else []

/-- `search_range_from_cache`; there are `256 ^ n` keys. -/
def searchRangeFromCache (lookup : Key n → Option (Ptr × Entry × ℕ)) (fromKey toKey : Key n) :
    List (RangeCache n) :=
  rangeCacheLoop lookup toKey (256 ^ n) fromKey

def RangeCache.context (rc : RangeCache n) (fromKey toKey : Key n) : ScanContext n where
  e := rc.e
  ePtr := rc.ePtr
  depth := rc.depth
  fromCache := true
  fromKey := rc.fromKey.max fromKey
  toKey := rc.toKey.min (toKey.sub 1)
  lState := if rc.fromKey ≤ fromKey then .border else .inside
  rState := if toKey.sub 1 ≤ rc.toKey then .border else .inside

end SmartTree
