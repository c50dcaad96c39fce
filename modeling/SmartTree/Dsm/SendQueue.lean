import Mathlib.Data.Int.Notation
import Mathlib.Data.List.Basic
import Mathlib.Logic.Function.Basic
import Mathlib.Order.Monotone.Basic

/-! The send queues of a thread and its completion queue. A queue takes requests while it has
room, and only polling their completions gives the room back. -/
namespace SmartTree

def kQPMaxDepth : ℕ := 4096

/-- `IBV_WR_RDMA_READ` and `IBV_WR_RDMA_WRITE`. -/
inductive Opcode
  | rdmaRead | rdmaWrite
deriving DecidableEq

structure WorkRequest where
  opcode : Opcode
  inline : Bool
  source : BitVec 64
  size : BitVec 64
  remoteAddr : BitVec 64
  rkey : BitVec 32
  signaled : Bool
  wrId : ℕ

/-- The queue of each memory node: how many requests it can hold and how many it holds. -/
structure SendQueues where
  depth : ℕ
  held : ℕ → ℕ

/-- What `ibv_post_send` leaves; `ok` is its return value 0. -/
structure Posted where
  queues : SendQueues
  taken : List WorkRequest
  ok : Bool

namespace SendQueues

/-- The queues `createQueuePair` makes, with nothing in them. -/
def idle : SendQueues := ⟨kQPMaxDepth, fun _ => 0⟩

def room (q : SendQueues) (node : ℕ) : ℕ := q.depth - q.held node

/-- `ibv_post_send`: the requests are taken one after the other, up to the first for which there
is no room. -/
def ibvPostSend (q : SendQueues) (node : ℕ) (requests : List WorkRequest) : Posted :=
  let taken := requests.take (q.room node)
  { queues := { q with held := Function.update q.held node (q.held node + taken.length) }
    taken := taken
    ok := requests.length ≤ q.room node }

theorem room_ibvPostSend (q : SendQueues) (node j : ℕ) (requests : List WorkRequest) :
    (q.ibvPostSend node requests).queues.room j =
      if j = node then q.room j - requests.length else q.room j := by
  unfold ibvPostSend room
  by_cases h : j = node
  · subst h
    simp only [Function.update_self, List.length_take, if_true]
    omega
  · simp [h]

end SendQueues

/-- The completions that the first `t` polls have found. -/
def arrived (poll : ℕ → Option Bool) (t : ℕ) : ℕ := (List.range t).countP fun i => (poll i).isSome

/-- A completion queue: what the polls find if that many completions are to come, each `some` with
whether its status is a success. All of them come, at some time, and no others. -/
structure CompletionQueue where
  ibvPollCq : ℕ → ℕ → Option Bool
  atMost : ∀ c t, arrived (ibvPollCq c) t ≤ c
  all : ∀ c, ∃ t, arrived (ibvPollCq c) t = c

/-- `pollWithCQ` from the `t`-th poll on, with the status `wc` holds: how many completions it has
found and what it returns. -/
def pollWithCQ (poll : ℕ → Option Bool) (pollNumber : ℕ) : ℕ → ℕ → ℕ → Bool → Option (ℕ × ℤ)
  | 0, _, _, _ => none
  | fuel + 1, t, count, wc =>
    let newCount := if (poll t).isSome then 1 else 0
    let count := count + newCount
    let wc := (poll t).getD wc
    if count < pollNumber then pollWithCQ poll pollNumber fuel (t + 1) count wc
    else some (count, if wc then count else -1)

section poll
variable {poll : ℕ → Option Bool} {pollNumber : ℕ}

theorem arrived_succ (t : ℕ) : arrived poll (t + 1) = arrived poll t + if (poll t).isSome then 1 else 0 := by
  rw [arrived, List.range_succ, List.countP_append, List.countP_singleton, arrived]

theorem arrived_mono : Monotone (arrived poll) := by
  refine monotone_nat_of_le_succ fun t => ?_
  rw [arrived_succ]
  exact Nat.le_add_right _ _

theorem pollWithCQ_waits (h : ∀ t, arrived poll t < pollNumber) (fuel t : ℕ) (wc : Bool) :
    pollWithCQ poll pollNumber fuel t (arrived poll t) wc = none := by
  induction fuel generalizing t wc with
  | zero => rfl
  | succ fuel ih =>
    simp only [pollWithCQ, ← arrived_succ, h, if_true]
    exact ih (t + 1) _

theorem pollWithCQ_returns {fuel t : ℕ} (hfuel : 0 < fuel) (h : pollNumber ≤ arrived poll (t + fuel))
    (wc : Bool) : ∃ t' code, pollWithCQ poll pollNumber fuel t (arrived poll t) wc =
      some (arrived poll t', code) ∧ pollNumber ≤ arrived poll t' := by
  induction fuel generalizing t wc with
  | zero => omega
  | succ fuel ih =>
    simp only [pollWithCQ, ← arrived_succ]
    by_cases hmore : arrived poll (t + 1) < pollNumber
    · have hpos : 0 < fuel := by
        by_contra hz
        obtain rfl : fuel = 0 := by omega
        exact absurd h (not_le.mpr hmore)
      rw [if_pos hmore]
      exact ih hpos (by rwa [Nat.add_right_comm, Nat.add_assoc]) _
    · rw [if_neg hmore]
      exact ⟨t + 1, _, rfl, not_lt.mp hmore⟩

end poll

namespace CompletionQueue
variable (cq : CompletionQueue)

/-- Waiting for as many completions as are to come ends, with exactly these. -/
theorem pollWithCQ_all (c : ℕ) (wc : Bool) : ∃ fuel₀, ∀ fuel ≥ fuel₀, ∃ code,
    pollWithCQ (cq.ibvPollCq c) c fuel 0 0 wc = some (c, code) := by
  obtain ⟨t, ht⟩ := cq.all c
  refine ⟨t + 1, fun fuel hfuel => ?_⟩
  have hle : c ≤ arrived (cq.ibvPollCq c) (0 + fuel) := ht.ge.trans (arrived_mono (by omega))
  obtain ⟨t', code, he, hc⟩ := pollWithCQ_returns (by omega) hle wc
  rw [le_antisymm (cq.atMost c t') hc] at he
  exact ⟨code, he⟩

theorem pollWithCQ_more {c pollNumber : ℕ} (h : c < pollNumber) (fuel : ℕ) (wc : Bool) :
    pollWithCQ (cq.ibvPollCq c) pollNumber fuel 0 0 wc = none :=
  pollWithCQ_waits (fun t => (cq.atMost c t).trans_lt h) fuel 0 wc

def prompt : CompletionQueue where
  ibvPollCq c t := if t < c then some true else none
  atMost c t := by
    induction t with
    | zero => exact Nat.zero_le _
    | succ t ih =>
      rw [arrived_succ]
      by_cases h : t < c
      · have hle : arrived (fun t => if t < c then some true else none) t ≤ t :=
          List.countP_le_length.trans_eq List.length_range
        simp only [h, if_true, Option.isSome_some]
        omega
      · simpa [h] using ih
  all c := by
    refine ⟨c, ?_⟩
    rw [arrived, List.countP_eq_length.mpr fun t ht => ?_, List.length_range]
    simp [List.mem_range.mp ht]

end CompletionQueue
end SmartTree
