import SmartTree.Dsm.ReadBatches
import SmartTree.Tree.Walk

/-! `Tree::range_query` from its start to its return, on a memory that does not change
meanwhile. The first read of a block may deliver a snapshot that is not the block, and the batch of
a level may be more than the send queues take. -/
namespace SmartTree
variable {n : ℕ}

/-- The words a read delivers at an address, as a leaf and as a page. -/
structure Snapshot (n : ℕ) where
  leaf : Leaf n
  page : Page

/-- The blocks whose first read does not deliver what is in memory, with what it delivers. -/
abbrev Transient (n : ℕ) := Addr → Option (Snapshot n)

namespace Transient

def none : Transient n := fun _ => .none

def after (T : Transient n) (seen : List Addr) : Transient n :=
  fun a => if a ∈ seen then .none else T a

end Transient

def Mem.through (m : Mem n) (T : Transient n) : Mem n :=
  { m with
    node := fun a => ((T a).map Snapshot.page).getD (m.node a)
    leaf := fun a => ((T a).map Snapshot.leaf).getD (m.leaf a) }

def Reads.through (m : Mem n) (T : Transient n) (old : ℕ → Page) (si : List (ScanContext n)) :
    Reads n :=
  { Reads.of (m.through T) old si with entry := (Reads.of m old si).entry }

/-- What a query finds besides the tree: where the blocks lie, the buffer of its thread with the
pages that were in it, and the send queues at each level. -/
structure RangeEnv extends Placement Addr where
  rangeBuffer : BitVec 64
  old : List Addr → ℕ → Page
  queues : ℕ → SendQueues

def ScanContext.size (s : ScanContext n) : ℕ :=
  match s.e with
  | .node _ t _ => 8 + 8 + (if s.fromCache then NodeType.node256 else t).num * 8
  | _ => 8 + 1 + 8 + n + 8 + 1

def levelRegions (env : RangeEnv) (si : List (ScanContext n)) : List RdmaOpRegion :=
  si.mapIdx fun i s =>
    { source := env.rangeBuffer + .ofNat 64 (i * (8 + 8 + 256 * 8))
      dest := env.locate (s.e.addr?.getD 0)
      size := .ofNat 64 s.size
      isOnChip := false }

/-- `read_batches_sync` returns for the batch of a level. -/
def RangeEnv.takes (env : RangeEnv) (level : ℕ) (si : List (ScanContext n)) : Bool :=
  (env.queues level).Takes (levelRegions env si)

theorem RangeEnv.takes_iff_returns (env : RangeEnv) (level : ℕ) (si : List (ScanContext n))
    (remoteInfo : ℕ → RemoteInfo) (cq : CompletionQueue) (turns : ℕ → SendQueues) (stale : Bool) :
    env.takes level si = true ↔ ∃ fuel st, readBatchesSync remoteInfo cq turns stale fuel none
      (env.queues level) (levelRegions env si) = .ok st ∧
        Partitions remoteInfo .rdmaRead none (levelRegions env si) st := by
  rw [RangeEnv.takes, decide_eq_true_iff]
  exact (readBatchesSync_returns_iff remoteInfo turns cq stale).symm

/-- The node a round of `search_entries` reads. -/
def Walk.reads (w : Walk) (target : ℕ) : List Addr :=
  match w.p with
  | .node _ _ a => if w.depth = target then [] else [a]
  | _ => []

/-- The rounds of `search_entries`: the contexts it leaves in `survivors`, and the blocks read.
An entry that is read again lies in a block read before. -/
def entriesLoop (m : Mem n) (T : Transient n) (fromKey toKey : Key n) (target : ℕ) :
    ℕ → List Addr → Walk → Option (List (ScanContext n) × List Addr)
  | 0, _, _ => none
  | fuel + 1, seen, w => do
    let r ← searchEntries (m.through (T.after seen)) fromKey toKey target w
    match r.next with
    | some w' => entriesLoop m T fromKey toKey target fuel (w.reads target ++ seen) w'
    | none => return (r.found, w.reads target ++ seen)

section levels
variable (crc : Key n → Value → UInt64) (fromKey toKey : Key n)
  (reads : List Addr → List (ScanContext n) → Reads n)
  (takes : ℕ → List (ScanContext n) → Bool)

/-- The rounds of `next_level`, from a level on; the result is the assignments to `ret`, in order.
What a batch of reads delivers may depend on the blocks that were read before, and a batch that is
not taken is waited for without end. -/
def levelLoop : ℕ → ℕ → RangeState n → Option (List (Key n × Value))
  | 0, _, st => if st.survivors.isEmpty then some st.ret else none
  | fuel + 1, level, st =>
    if st.survivors.isEmpty then some st.ret
    else if takes level (claim st.survivors st.tokens).1 then do
      let r ← rangeLevel crc fromKey toKey (reads st.tokens) st
      levelLoop fuel (level + 1) r.2
    else none

def levelStates : ℕ → RangeState n → List (RangeState n)
  | 0, _ => []
  | fuel + 1, st =>
    if st.survivors.isEmpty then []
    else st :: ((rangeLevel crc fromKey toKey (reads st.tokens) st).map fun r =>
      levelStates fuel r.2).getD []

/-- The levels return what they return with queues that take everything, if every batch is taken. -/
theorem levelLoop_eq_some {fuel level : ℕ} {st : RangeState n} {ret : List (Key n × Value)} :
    levelLoop crc fromKey toKey reads takes fuel level st = some ret ↔
      levelLoop crc fromKey toKey reads (fun _ _ => true) fuel level st = some ret ∧
        ∀ i st', (levelStates crc fromKey toKey reads fuel st)[i]? = some st' →
          takes (level + i) (claim st'.survivors st'.tokens).1 = true := by
  induction fuel generalizing level st with
  | zero => simp [levelLoop, levelStates]
  | succ fuel ih =>
    rw [levelLoop, levelLoop, levelStates]
    by_cases hnil : st.survivors.isEmpty = true
    · simp [hnil]
    · rw [if_neg hnil, if_neg hnil, if_neg hnil, if_pos rfl]
      cases hr : rangeLevel crc fromKey toKey (reads st.tokens) st with
      | none => simp
      | some r =>
        simp only [Option.bind_eq_bind, Option.bind_some, Option.map_some, Option.getD_some]
        by_cases ht : takes level (claim st.survivors st.tokens).1 = true
        · rw [if_pos ht, ih]
          refine and_congr_right fun _ => ⟨fun h i st' hi => ?_, fun h i st' hi => ?_⟩
          · cases i with
            | zero => cases hi; exact ht
            | succ i =>
              rw [← Nat.add_assoc, Nat.add_right_comm]
              exact h i st' hi
          · rw [Nat.add_right_comm, Nat.add_assoc]
            exact h (i + 1) st' hi
        · rw [if_neg ht]
          exact iff_of_false (by simp) fun h => ht (h.2 0 st rfl)

end levels

/-- The contexts of the first level: those of the cached entries, or what `search_entries` finds
if there are none. -/
def firstLevel (m : Mem n) (T : Transient n) (lookup : Key n → Option (Ptr × Entry × ℕ)) (fuel : ℕ)
    (fromKey toKey : Key n) : Option (List (ScanContext n) × List Addr) :=
  let caches := searchRangeFromCache lookup fromKey toKey
  if caches.isEmpty then do
    let target ← longestCommonPrefix fromKey (toKey.sub 1) 0
    entriesLoop m T fromKey (toKey.sub 1) target fuel [] (Walk.start m (lookup fromKey))
  else some (caches.map fun rc => rc.context fromKey toKey, [])

/-- The reads of the levels after the blocks `seen` have been read, over old contents of the
buffers. -/
def levelReads (m : Mem n) (T : Transient n) (old : List Addr → ℕ → Page) (seen : List Addr)
    (tokens : List Addr) : List (ScanContext n) → Reads n :=
  Reads.through m (T.after (seen ++ tokens)) (old tokens)

/-- `range_query`; `lookup` is `search_from_cache` of the index cache. -/
def rangeQuery (crc : Key n → Value → UInt64) (m : Mem n) (T : Transient n) (env : RangeEnv)
    (lookup : Key n → Option (Ptr × Entry × ℕ)) (fuel : ℕ) (fromKey toKey : Key n) :
    Option (List (Key n × Value)) :=
  if toKey ≤ fromKey then some []
  else do
    let r ← firstLevel m T lookup fuel fromKey toKey
    levelLoop crc fromKey toKey (levelReads m T env.old r.2) env.takes fuel 0 ⟨r.1, [], []⟩

/-- What `ret` holds for a key after these assignments. -/
def retGet (ret : List (Key n × Value)) (k : Key n) : Option Value := ret.reverse.lookup k

theorem mem_of_retGet {ret : List (Key n × Value)} {k : Key n} {v : Value}
    (h : retGet ret k = some v) : (k, v) ∈ ret := by
  obtain ⟨l₁, l₂, he, -⟩ := List.lookup_eq_some_iff.mp h
  rw [← List.mem_reverse, he]
  simp

theorem retGet_eq_some {ret : List (Key n × Value)} {k : Key n} {v : Value}
    (h : ∀ v', (k, v') ∈ ret → v' = v) : retGet ret k = some v ↔ (k, v) ∈ ret := by
  refine ⟨mem_of_retGet, fun hmem => ?_⟩
  have hsome : (retGet ret k).isSome := by
    rw [retGet, List.lookup_isSome_iff]
    exact ⟨(k, v), List.mem_reverse.mpr hmem, by simp⟩
  obtain ⟨v', hv⟩ := Option.isSome_iff_exists.mp hsome
  rw [hv, h v' (mem_of_retGet hv)]

end SmartTree
