import Mathlib.Data.List.Count
import Mathlib.Data.Nat.Notation

/-! What the code of a coroutine does to the scheduler: the requests it posts, the completions
it polls, the elements it queues and where it yields. Data decides between branches; here every
decision is open. -/
namespace SmartTree.Coroutine

/-- A work request of `ibv_post_send`; only a signaled one produces a completion, with its id. -/
structure WorkRequest where
  signaled : Bool
  wrId : ℕ
deriving DecidableEq

/-- Code over a shared state `E` that the predicates of waiting coroutines look at. -/
inductive Cmd (E : Type*)
  | skip
  | post (wrs : List WorkRequest)
  /-- `pollWithCQ`. -/
  | poll (num : ℕ)
  /-- `busy_waiting_queue.push`. -/
  | push (coroId : ℕ) (ready : E → Bool)
  /-- `(*ctx->yield)(*ctx->master)`. -/
  | yield
  | seq (c d : Cmd E)
  | choose (f : ℕ → Cmd E)
  /-- Any number of rounds. -/
  | loop (c : Cmd E)

variable {E : Type*}

namespace Cmd

def oneOf (cs : List (Cmd E)) : Cmd E := .choose fun i => cs.getD i .skip

/-- A command behind a label that a `goto` may return to. -/
def again (c : Cmd E) : Cmd E := .seq c (.loop c)

def chooseList : ℕ → (List ℕ → Cmd E) → Cmd E
  | 0, f => f []
  | n + 1, f => .choose fun x => chooseList n fun xs => f (x :: xs)

end Cmd

/-- `rdmaRead`, `rdmaWrite`, `rdmaCompareAndSwap` and `rdmaCompareAndSwapMask`. -/
def rdmaOne (isSignaled : Bool) (wrId : ℕ) : List WorkRequest := [⟨isSignaled, wrId⟩]

/-- `rdmaWriteBatch`: only the last of the `k` requests is signaled. -/
def rdmaBatch (k : ℕ) (isSignaled : Bool) (wrId : ℕ) : List WorkRequest :=
  (List.range k).map fun i => ⟨i + 1 == k && isSignaled, wrId⟩

/-- `rdmaTwoCasMask`: only the second request is signaled. -/
def rdmaTwo (isSignaled : Bool) (wrId : ℕ) : List WorkRequest := [⟨false, 0⟩, ⟨isSignaled, wrId⟩]

namespace Dsm

/-- A function of `DSM` that issues an operation: a coroutine has it signaled in any case and
yields at once. -/
def issue (op : Bool → ℕ → List WorkRequest) (signal : Bool) : Option ℕ → Cmd E
  | none => .post (op signal 0)
  | some coroId => .seq (.post (op true coroId)) .yield

/-- The end of the `_sync` functions: a thread without coroutines polls. -/
def settle (num : ℕ) : Option ℕ → Cmd E
  | none => .poll num
  | some _ => .skip

variable (ctx : Option ℕ)

def read (signal : Bool) : Cmd E := issue rdmaOne signal ctx
def write (signal : Bool) : Cmd E := issue rdmaOne signal ctx
def cas (signal : Bool) : Cmd E := issue rdmaOne signal ctx
def casMask (signal : Bool) : Cmd E := issue rdmaOne signal ctx
def writeBatch (k : ℕ) (signal : Bool) : Cmd E := issue (rdmaBatch k) signal ctx
def twoCasMask (signal : Bool) : Cmd E := issue rdmaTwo signal ctx

def readSync : Cmd E := .seq (read ctx true) (settle 1 ctx)
def writeSync : Cmd E := .seq (write ctx true) (settle 1 ctx)
def casSync : Cmd E := .seq (cas ctx true) (settle 1 ctx)
def casMaskSync : Cmd E := .seq (casMask ctx true) (settle 1 ctx)

/-- `two_cas_mask_sync`; words on different nodes take two operations. -/
def twoCasMaskSync (sameNode : Bool) : Cmd E :=
  if sameNode then .seq (twoCasMask ctx true) (settle 1 ctx)
  else .seq (casMask ctx true) (.seq (casMask ctx true) (settle 2 ctx))

/-- The loop of `write_batches_sync` over the number of regions for each machine. -/
def writeBatches : List ℕ → Cmd E
  | [] => .skip
  | cnt :: rest => .seq (if 0 < cnt then writeBatch ctx cnt true else .skip) (writeBatches rest)

def writeBatchesSync (cnts : List ℕ) : Cmd E :=
  .seq (writeBatches ctx cnts) (settle (cnts.countP (0 < ·)) ctx)

end Dsm

/-- Code of the coroutine `id` that yields only right after it has posted requests with exactly
one completion, its own, or after it has queued itself; and that never polls. -/
inductive Disciplined (id : ℕ) : Cmd E → Prop
  | skip : Disciplined id .skip
  | await {wrs} (h : (wrs.filter WorkRequest.signaled).map WorkRequest.wrId = [id]) :
    Disciplined id (.seq (.post wrs) .yield)
  | wait (ready : E → Bool) : Disciplined id (.seq (.push id ready) .yield)
  | seq {c d} (hc : Disciplined id c) (hd : Disciplined id d) : Disciplined id (.seq c d)
  | choose {f} (h : ∀ n, Disciplined id (f n)) : Disciplined id (.choose f)
  | loop {c} (h : Disciplined id c) : Disciplined id (.loop c)

namespace Disciplined
variable {id : ℕ} {c d : Cmd E}

theorem oneOf {cs : List (Cmd E)} (h : ∀ c ∈ cs, Disciplined id c) : Disciplined id (.oneOf cs) := by
  refine .choose fun i => ?_
  rw [List.getD_eq_getElem?_getD]
  cases hi : cs[i]? with
  | none => exact .skip
  | some c => exact h c (List.mem_of_getElem? hi)

theorem again (h : Disciplined id c) : Disciplined id (.again c) := .seq h (.loop h)

theorem chooseList {n : ℕ} {f : List ℕ → Cmd E} (h : ∀ xs, Disciplined id (f xs)) :
    Disciplined id (.chooseList n f) := by
  induction n generalizing f with
  | zero => exact h []
  | succ n ih => exact .choose fun x => ih fun xs => h (x :: xs)

theorem settle (num : ℕ) : Disciplined id (E := E) (Dsm.settle num (some id)) := .skip

theorem one (signal : Bool) : Disciplined id (E := E) (Dsm.issue rdmaOne signal (some id)) := .await rfl

theorem twoCasMask (signal : Bool) : Disciplined id (E := E) (Dsm.twoCasMask (some id) signal) :=
  .await rfl

theorem rdmaBatch_signaled (k wrId : ℕ) :
    ((rdmaBatch (k + 1) true wrId).filter WorkRequest.signaled).map WorkRequest.wrId = [wrId] := by
  have hinit : ((List.range k).map fun i => (⟨i + 1 == k + 1 && true, wrId⟩ : WorkRequest)).filter
      WorkRequest.signaled = [] := by
    rw [List.filter_eq_nil_iff]
    intro r hr
    obtain ⟨i, hi, rfl⟩ := List.mem_map.mp hr
    have := Nat.ne_of_lt (List.mem_range.mp hi)
    simpa using this
  rw [rdmaBatch, List.range_succ, List.map_append, List.filter_append, hinit]
  simp

theorem writeBatches (cnts : List ℕ) : Disciplined id (E := E) (Dsm.writeBatches (some id) cnts) := by
  induction cnts with
  | nil => exact .skip
  | cons cnt rest ih =>
    refine .seq ?_ ih
    split
    · rename_i hpos
      obtain ⟨k, rfl⟩ := Nat.exists_eq_add_of_lt hpos
      rw [Nat.zero_add]
      exact .await (rdmaBatch_signaled k id)
    · exact .skip

theorem writeBatchesSync (cnts : List ℕ) :
    Disciplined id (E := E) (Dsm.writeBatchesSync (some id) cnts) := .seq (writeBatches cnts) (settle _)

theorem readSync : Disciplined id (E := E) (Dsm.readSync (some id)) := .seq (one true) (settle 1)
theorem writeSync : Disciplined id (E := E) (Dsm.writeSync (some id)) := .seq (one true) (settle 1)
theorem casSync : Disciplined id (E := E) (Dsm.casSync (some id)) := .seq (one true) (settle 1)
theorem casMaskSync : Disciplined id (E := E) (Dsm.casMaskSync (some id)) := .seq (one true) (settle 1)

theorem twoCasMaskSync (sameNode : Bool) :
    Disciplined id (E := E) (Dsm.twoCasMaskSync (some id) sameNode) := by
  cases sameNode with
  | false => exact .seq (one true) (.seq (one true) (settle 2))
  | true => exact .seq (twoCasMask true) (settle 1)

end Disciplined
end SmartTree.Coroutine
