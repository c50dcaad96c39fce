import Mathlib.Data.List.Perm.Basic
import SmartTree.Dsm.SendQueue
import SmartTree.GlobalAddress

/-! Batches of one-sided reads and writes, one for each memory node in use. A batch that does not fit
into the send queue is not posted again, and its completion is waited for all the same. -/
namespace SmartTree

def maxMachine : ℕ := 2
def kReadOroMax : ℕ := 1024
def kWriteOroMax : ℕ := 24
def kInlineDataMax : ℕ := 220

structure Placement (α : Type*) where
  locate : α → GlobalAddress
  located : ∀ a, (locate a).nodeID.toNat < maxMachine

def Placement.first : Placement ℕ where
  locate a := ⟨0, .ofNat 48 (a * 2064)⟩
  located _ := show 0 < 2 by decide

def Placement.home {α : Type*} (place : Placement α) (a : α) : ℕ := (place.locate a).nodeID.toNat

def Opcode.oroMax : Opcode → ℕ
  | .rdmaRead => kReadOroMax
  | .rdmaWrite => kWriteOroMax

/-- `RdmaOpRegion` as the caller fills it in. -/
structure RdmaOpRegion where
  source : BitVec 64
  dest : GlobalAddress
  size : BitVec 64
  isOnChip : Bool
deriving DecidableEq

def RdmaOpRegion.node (r : RdmaOpRegion) : ℕ := r.dest.nodeID.toNat

/-- What is known of a memory node: where its memory and its lock table start, and their keys. -/
structure RemoteInfo where
  dsmBase : BitVec 64
  lockBase : BitVec 64
  dsmRKey : BitVec 32
  lockRKey : BitVec 32

/-- Why a call does not return: an index outside an array, or a completion that never comes. -/
inductive Halt
  | overrun | waiting
deriving DecidableEq

/-- What a call has done: the requests its batches got into the queues, and how many completions
it has waited for. -/
structure Posting where
  queues : SendQueues
  issued : List (ℕ × List WorkRequest)
  waits : ℕ

/-- The completions that are to come: those of the signaled requests. -/
def Posting.completions (st : Posting) : ℕ :=
  ((st.issued.flatMap Prod.snd).filter (·.signaled)).length

section post
variable (remoteInfo : ℕ → RemoteInfo) (op : Opcode)

/-- The region after `fill_keys_dest`, as a request. -/
def RdmaOpRegion.request (r : RdmaOpRegion) (signaled : Bool) (wrId : ℕ) : WorkRequest :=
  let info := remoteInfo r.node
  let base := if r.isOnChip then info.lockBase else info.dsmBase
  let rkey := if r.isOnChip then info.lockRKey else info.dsmRKey
  ⟨op, op == .rdmaWrite && r.size.toNat ≤ kInlineDataMax, r.source, r.size,
    base + r.dest.offset.setWidth 64, rkey, signaled, wrId⟩

def rdmaBatch (q : SendQueues) (node : ℕ) (rs : List RdmaOpRegion) (wrId : ℕ) : Option Posted :=
  if rs.length ≤ op.oroMax then
    some (q.ibvPostSend node (rs.mapIdx fun i r => r.request remoteInfo op (i + 1 == rs.length) wrId))
  else none

def rdmaReadBatch := rdmaBatch remoteInfo .rdmaRead

def rdmaWriteBatch := rdmaBatch remoteInfo .rdmaWrite

/-- `read_batch` and `write_batch`, signaled: the batch goes to the node of its last region, and
whether all of it was taken is not looked at. A coroutine yields until the completion of its batch
has been polled, and finds the queues as the others have left them. -/
def postBatch (turns : ℕ → SendQueues) (ctx : Option ℕ) (st : Posting) (rs : List RdmaOpRegion) :
    Except Halt Posting :=
  match rs.getLast? with
  | none => .error .overrun
  | some last =>
    match rdmaBatch remoteInfo op st.queues last.node rs (ctx.getD 0) with
    | none => .error .overrun
    | some p =>
      let issued := st.issued ++ [(last.node, p.taken)]
      if ctx.isSome then
        if p.taken.any (·.signaled) then .ok ⟨turns st.waits, issued, st.waits + 1⟩
        else .error .waiting
      else .ok ⟨p.queues, issued, st.waits⟩

def readBatch := postBatch remoteInfo .rdmaRead

def writeBatch := postBatch remoteInfo .rdmaWrite

/-- The batches one after the other and, without a coroutine, the polling for them, with `fuel` polls
to go; `stale` is what an unset `wc` holds. -/
def postBatches (cq : CompletionQueue) (turns : ℕ → SendQueues) (stale : Bool) (fuel : ℕ)
    (ctx : Option ℕ) (queues : SendQueues) (batches : List (ℕ × List RdmaOpRegion)) :
    Except Halt Posting :=
  match batches.foldlM (fun st b => postBatch remoteInfo op turns ctx st b.2) ⟨queues, [], 0⟩ with
  | .error h => .error h
  | .ok st =>
    if ctx.isSome then .ok st
    else
      match pollWithCQ (cq.ibvPollCq st.completions) batches.length fuel 0 0 stale with
      | none => .error .waiting
      | some (count, _) => .ok { st with waits := count }

end post

def roundBatches (each : ℕ → List RdmaOpRegion) : List (ℕ × List RdmaOpRegion) :=
  ((List.range maxMachine).map fun j => (j, each j)).filter fun b => 0 < b.2.length

section batches
variable {op : Opcode} {rs : List RdmaOpRegion} {each : ℕ → List RdmaOpRegion}

/-- A bound for the nodes there are regions of is a bound for every node. -/
theorem length_filter_node_le {b : ℕ → ℕ}
    (h : ∀ r ∈ rs, (rs.filter (·.node = r.node)).length ≤ b r.node) (j : ℕ) :
    (rs.filter (·.node = j)).length ≤ b j := by
  cases hf : rs.filter (·.node = j) with
  | nil => exact Nat.zero_le _
  | cons r tail =>
    obtain ⟨hr, hj⟩ := List.mem_filter.mp (hf ▸ List.mem_cons_self : r ∈ rs.filter (·.node = j))
    rw [← hf, ← of_decide_eq_true hj]
    exact h r hr

structure Batched (op : Opcode) (bs : List (ℕ × List RdmaOpRegion)) (rs : List RdmaOpRegion) : Prop where
  pos : ∀ b ∈ bs, b.2 ≠ []
  size : ∀ b ∈ bs, b.2.length ≤ op.oroMax
  own : ∀ b ∈ bs, ∀ r ∈ b.2, r.node = b.1
  order : ∀ j, (bs.filter (·.1 = j)).flatMap (·.2) = rs.filter (·.node = j)

theorem flatMap_roundBatches (j : ℕ) : ((roundBatches each).filter (·.1 = j)).flatMap (·.2) =
    if j < maxMachine then each j else [] := by
  have hrange : ∀ m, (((((List.range m).map fun j => (j, each j)).filter
      fun b => 0 < b.2.length).filter (·.1 = j)).flatMap (·.2)) = if j < m then each j else [] := by
    intro m
    induction m with
    | zero => rfl
    | succ m ih =>
      rw [List.range_succ, List.map_append, List.filter_append, List.filter_append,
        List.flatMap_append, ih]
      by_cases hj : m = j
      · subst hj
        by_cases hpos : each m = [] <;> simp [List.length_pos_iff, hpos]
      · have hlt : j < m + 1 ↔ j < m := by omega
        by_cases hpos : each m = [] <;> simp [List.length_pos_iff, hpos, hj, hlt]
  exact hrange maxMachine

theorem roundBatches_batched {taken : List RdmaOpRegion} (hnode : ∀ r ∈ taken, r.node < maxMachine)
    (hle : ∀ j, (taken.filter (·.node = j)).length ≤ op.oroMax) :
    Batched op (roundBatches fun j => taken.filter (·.node = j)) taken := by
  have hmem : ∀ b ∈ roundBatches fun j => taken.filter (·.node = j),
      0 < b.2.length ∧ b.2 = taken.filter (·.node = b.1) := by
    intro b hb
    obtain ⟨hb, hpos⟩ := List.mem_filter.mp hb
    obtain ⟨j, -, rfl⟩ := List.mem_map.mp hb
    exact ⟨by simpa using hpos, rfl⟩
  refine ⟨fun b hb => List.length_pos_iff.mp (hmem b hb).1, fun b hb => ?_, fun b hb r hr => ?_,
    fun j => ?_⟩
  · rw [(hmem b hb).2]
    exact hle b.1
  · rw [(hmem b hb).2] at hr
    simpa using (List.mem_filter.mp hr).2
  · rw [flatMap_roundBatches]
    split
    · rfl
    · rename_i hj
      symm
      rw [List.filter_eq_nil_iff]
      intro r hr he
      exact hj (of_decide_eq_true he ▸ hnode r hr)

theorem Batched.append {bs cs : List (ℕ × List RdmaOpRegion)} {taken rest : List RdmaOpRegion}
    (h : Batched op bs taken) (h' : Batched op cs rest) : Batched op (bs ++ cs) (taken ++ rest) where
  pos b hb := (List.mem_append.mp hb).elim (h.pos b) (h'.pos b)
  size b hb := (List.mem_append.mp hb).elim (h.size b) (h'.size b)
  own b hb := (List.mem_append.mp hb).elim (h.own b) (h'.own b)
  order j := by
    rw [List.filter_append, List.flatMap_append, h.order, h'.order, List.filter_append]

/-- As the batches keep the order within each node, together they are the regions. -/
theorem Batched.perm {bs : List (ℕ × List RdmaOpRegion)} (h : Batched op bs rs) :
    (bs.flatMap (·.2)).Perm rs := by
  have hfilter : ∀ j, (bs.flatMap (·.2)).filter (·.node = j) = (bs.filter (·.1 = j)).flatMap (·.2) := by
    intro j
    have hown := h.own
    clear h
    induction bs with
    | nil => rfl
    | cons b bs ih =>
      have hb : b.2.filter (·.node = j) = if b.1 = j then b.2 else [] := by
        split
        · rename_i hj
          exact List.filter_eq_self.mpr fun r hr => by simp [hown b (by simp) r hr, hj]
        · rename_i hj
          exact List.filter_eq_nil_iff.mpr fun r hr => by simp [hown b (by simp) r hr, hj]
      rw [List.flatMap_cons, List.filter_append, hb, ih fun c hc => hown c (by simp [hc])]
      by_cases hj : b.1 = j <;> simp [hj]
  rw [List.perm_iff_count]
  intro r
  have hcount := congrArg (List.count r) ((hfilter r.node).trans (h.order r.node))
  rwa [List.count_filter (by simp), List.count_filter (by simp)] at hcount

end batches

end SmartTree
