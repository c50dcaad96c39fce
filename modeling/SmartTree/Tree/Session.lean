import SmartTree.Tree.Machine
import SmartTree.Tree.Walk

/-! One client of the tree that inserts, searches, runs range queries and migrates keys of
its local cache. A range query takes one node of `search_entries`, or one level, in a step,
and the migration one node; each waits for everything issued before. The calls of
`add_to_cache` are what the steps show. -/
namespace SmartTree
open Transition
variable {n : ℕ}

/-- The calls of `add_to_cache` in one step of `insert` or `search`. -/
def Client.calls (c : Client n) : Choice n → List (AddCall n)
  | .go =>
    match c.pc with
    | .nodeRead =>
      if c.page.isValid c.pPtr c.depth c.fromCache ∧ c.depth = c.page.hdr.depth then
        [⟨c.key, c.page, .slot c.target 0⟩]
      else []
    | .splitRev sp nodes => ((c.pages sp nodes).getD []).map fun q => ⟨c.key, q.2, .slot q.1 0⟩
    | _ => []
  | _ => []

inductive Task (n : ℕ)
  /-- `insert`, `search` or nothing. -/
  | point
  | entries (fromKey toKey : Key n) (target : ℕ) (w : Walk)
  | range (fromKey toKey : Key n) (st : RangeState n)
  | migrate (k : Key n) (w : Walk)

structure Session (n : ℕ) where
  world : World Unit n
  task : Task n

inductive Request (n : ℕ)
  | tree (ch : Choice n)
  /-- The hits say what the lookups of the index cache find. -/
  | rangeQuery (fromKey toKey : Key n) (hits : Key n → Option ℕ) (hit : Option ℕ)
  | migrate (k : Key n) (hit : Option ℕ)
  /-- The next read of a range query or a migration, over old contents of the buffers. -/
  | go (old : ℕ → Page)

namespace Session

abbrev client (s : Session n) : Client n := s.world.client ()

abbrev mem (s : Session n) : Mem n := s.world.mem

/-- A step of a walk or a level: the memory stays, operations are issued and calls made. -/
def issue (s : Session n) (ops : List RemoteOp) (calls : List (AddCall n)) (task : Task n) :
    Session n where
  world := s.world.put ()
    { mem := s.mem
      client := { s.client with pending := s.client.pending ++ ops }
      added := calls.flatMap AddCall.filed }
  task := task

def lookup (s : Session n) (k : Key n) (hit : Option ℕ) : Option (Ptr × Entry × ℕ) :=
  hit.bind (cacheHit s.world.log k)

def startWalk (s : Session n) (k : Key n) (hit : Option ℕ) : Option Walk :=
  let h := s.lookup k hit
  if h.isSome || s.client.pending.isEmpty then some (Walk.start s.mem h) else none

def startRange (s : Session n) (fromKey toKey : Key n) (hits : Key n → Option ℕ)
    (hit : Option ℕ) : Option (Task n) :=
  if toKey ≤ fromKey then some .point
  else
    let caches := searchRangeFromCache (fun k => s.lookup k (hits k)) fromKey toKey
    if caches.isEmpty then do
      let target ← longestCommonPrefix fromKey (toKey.sub 1) 0
      let w ← s.startWalk fromKey hit
      return .entries fromKey toKey target w
    else some (.range fromKey toKey ⟨caches.map fun rc => rc.context fromKey toKey, [], []⟩)

def advance (crc : Key n → Value → UInt64) (s : Session n) (old : ℕ → Page) :
    Option (List (AddCall n) × Session n) :=
  match s.task with
  | .point => none
  | .entries fromKey toKey target w =>
    (searchEntries s.mem fromKey (toKey.sub 1) target w).map fun r =>
      (r.calls, s.issue r.ops r.calls (match r.next with
        | some w => .entries fromKey toKey target w
        | none => .range fromKey toKey ⟨r.found, [], []⟩))
  | .range fromKey toKey st =>
    if st.survivors.isEmpty then some ([], s.issue [] [] .point)
    else (rangeLevel crc fromKey toKey (Reads.of s.mem old) st).map fun r =>
      (r.1, s.issue [] r.1 (.range fromKey toKey r.2))
  | .migrate k w =>
    (migrateStep s.mem k w).map fun r =>
      (r.calls, s.issue r.ops r.calls (match r.next with
        | some w => .migrate k w
        | none => .point))

def effect (crc : Key n → Value → UInt64) (s : Session n) :
    Request n → Option (List (AddCall n) × Session n)
  | .tree ch =>
    match s.task, ch with
    | .point, _ => (s.world.next crc ((), ch)).map fun w => (s.client.calls ch, { s with world := w })
    | _, .flush => (s.world.next crc ((), .flush)).map fun w => ([], { s with world := w })
    | _, _ => none
  | .rangeQuery fromKey toKey hits hit =>
    match s.task, s.client.pc with
    | .point, .idle => (s.startRange fromKey toKey hits hit).map fun t => ([], { s with task := t })
    | _, _ => none
  | .migrate k hit =>
    match s.task, s.client.pc with
    | .point, .idle => (s.startWalk k hit).map fun w => ([], { s with task := .migrate k w })
    | _, _ => none
  | .go old => if s.client.pending.isEmpty then s.advance crc old else none

end Session

def sessionSystem (n : ℕ) (crc : Key n → Value → UInt64) : System (Session n) (Request n) where
  init s := s.world.Initial ∧ s.task = .point
  next s a := (s.effect crc a).map Prod.snd

end SmartTree
