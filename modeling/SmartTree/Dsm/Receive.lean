import SmartTree.Lib.Transition
import Mathlib.Data.List.Range
import Mathlib.Data.Int.ModEq
import Mathlib.Tactic.Ring

/-! `AbstractMessageConnection`: receive buffers are posted in batches and filled in the order of
posting; a batch is posted again when the last of its messages is handed out. -/
namespace SmartTree
open Transition

def kBatchCount : ℕ := 4
def messageSize : ℕ := 96

structure MessageConnection where
  messageNR : ℕ
  messagePool : ℕ
  recvPadding : ℕ

/-- The receiving side: the buffers that are posted and not yet filled, and, oldest first, the
buffer each message was delivered into and the pointer each `getMessage` returned. -/
structure Receiver where
  curMessage : ℕ
  posted : List ℕ
  delivered : List ℕ
  returned : List ℕ
deriving DecidableEq

inductive ReceiveStep
  | deliver
  | getMessage
deriving DecidableEq

namespace MessageConnection
variable (c : MessageConnection)

def subNR : ℕ := c.messageNR / kBatchCount

def buffer (i : ℕ) : ℕ := c.messagePool + i * messageSize

def recvs (k : ℕ) : List ℕ := (List.range c.subNR).map fun i => c.buffer (k * c.subNR + i)

def initRecv : Receiver := ⟨0, (List.range kBatchCount).flatMap c.recvs, [], []⟩

/-- `getMessage`; the batch index is computed in 32 bits. -/
def getMessage (s : Receiver) : Receiver :=
  let m := c.buffer s.curMessage + c.recvPadding
  let cur := (s.curMessage + 1) % c.messageNR
  let batch := (cur / c.subNR + (2 ^ 32 - 1) + kBatchCount) % 2 ^ 32 % kBatchCount
  { s with
    curMessage := cur
    posted := s.posted ++ if cur % c.subNR = 0 then c.recvs batch else []
    returned := s.returned ++ [m] }

/-- A message arrives in the buffer posted first; `getMessage` is called once for a message that
has arrived. -/
def receive (s : Receiver) : ReceiveStep → Option Receiver
  | .deliver =>
    match s.posted with
    | [] => none
    | b :: rest => some { s with posted := rest, delivered := s.delivered ++ [b] }
  | .getMessage => if s.returned.length < s.delivered.length then some (c.getMessage s) else none

def system : System Receiver ReceiveStep where
  init s := s = c.initRecv
  next := c.receive

/-- The buffers posted so far, in order: the whole pool once and then one batch for each batch of
messages handed out. -/
def postedUpTo (g : ℕ) : List ℕ :=
  (List.range (c.messageNR + g / c.subNR * c.subNR)).map fun j => c.buffer (j % c.messageNR)

structure Inv (s : Receiver) : Prop where
  cur : s.curMessage = s.returned.length % c.messageNR
  returned : s.returned = (List.range s.returned.length).map fun j =>
    c.buffer (j % c.messageNR) + c.recvPadding
  posted : s.delivered ++ s.posted = c.postedUpTo s.returned.length
  arrived : s.returned.length ≤ s.delivered.length

theorem flatMap_range_mul {α : Type*} (f : ℕ → α) (b w : ℕ) :
    ((List.range b).flatMap fun k => (List.range w).map fun i => f (k * w + i)) =
      (List.range (b * w)).map f := by
  induction b with
  | zero => simp
  | succ b ih =>
    rw [List.range_succ, List.flatMap_append, ih, Nat.succ_mul, List.range_add]
    simp [Function.comp_def]

theorem mul_add_mod_mul {a w i : ℕ} (b : ℕ) (hi : i < w) (hb : 0 < b) :
    (a * w + i) % (b * w) = a % b * w + i := by
  have hlt : a % b * w + i < b * w := by
    have := Nat.mul_le_mul_right w (Nat.succ_le_of_lt (Nat.mod_lt a hb))
    rw [Nat.succ_mul] at this
    omega
  have hsplit : a * w + i = a % b * w + i + b * w * (a / b) := by
    conv_lhs => rw [← Nat.mod_add_div a b]
    ring
  rw [hsplit, Nat.add_mul_mod_self_left, Nat.mod_eq_of_lt hlt]

variable {c} {s t : Receiver}

theorem Inv.delivered (h : c.Inv s) {j : ℕ} (hj : j < s.delivered.length) :
    s.delivered[j]? = some (c.buffer (j % c.messageNR)) := by
  have hlen := congrArg List.length h.posted
  rw [List.length_append, postedUpTo, List.length_map, List.length_range] at hlen
  rw [← List.getElem?_append_left hj, h.posted, postedUpTo, List.getElem?_map,
    List.getElem?_range (by omega)]
  rfl

theorem buffer_inj {i j : ℕ} (h : c.buffer i = c.buffer j) : i = j := by
  simp only [buffer, messageSize] at h
  omega

section divisible
variable (hdiv : kBatchCount ∣ c.messageNR)
include hdiv

theorem messageNR_eq : c.messageNR = kBatchCount * c.subNR := (Nat.mul_div_cancel' hdiv).symm

theorem inv_initRecv : c.Inv c.initRecv where
  cur := (Nat.zero_mod _).symm
  returned := rfl
  posted := by
    have hpool : c.initRecv.posted = (List.range c.messageNR).map c.buffer := by
      rw [messageNR_eq hdiv]
      exact flatMap_range_mul c.buffer kBatchCount c.subNR
    rw [hpool]
    simp only [initRecv, postedUpTo, List.length_nil, Nat.zero_div, Nat.zero_mul, Nat.add_zero,
      List.nil_append]
    exact List.map_congr_left fun j hj => by rw [Nat.mod_eq_of_lt (List.mem_range.mp hj)]
  arrived := le_rfl

theorem postedUpTo_succ (g : ℕ) (hpos : 0 < c.subNR) :
    c.postedUpTo (g + 1) = c.postedUpTo g ++
      if (g + 1) % c.messageNR % c.subNR = 0 then
        c.recvs (((g + 1) % c.messageNR / c.subNR + (2 ^ 32 - 1) + kBatchCount) % 2 ^ 32 % kBatchCount)
      else [] := by
  have hN := messageNR_eq hdiv
  rw [Nat.mod_mod_of_dvd _ (hN ▸ Nat.dvd_mul_left _ _)]
  by_cases hb : (g + 1) % c.subNR = 0
  · have hdvd := Nat.dvd_of_mod_eq_zero hb
    have hdivs : (g + 1) / c.subNR = g / c.subNR + 1 := by rw [Nat.succ_div, if_pos hdvd]
    have hround : (g + 1) % c.messageNR = (g / c.subNR + 1) % kBatchCount * c.subNR := by
      have hmod := mul_add_mod_mul (a := g / c.subNR + 1) kBatchCount hpos (by decide)
      rw [← hdivs, Nat.add_zero, Nat.div_mul_cancel hdvd, ← hN, Nat.add_zero] at hmod
      rw [hmod, hdivs, Nat.add_zero]
    have hbatch : ((g / c.subNR + 1) % kBatchCount + (2 ^ 32 - 1) + kBatchCount) % 2 ^ 32 %
        kBatchCount = g / c.subNR % kBatchCount := by
      simp only [kBatchCount]
      omega
    rw [if_pos hb, hround, Nat.mul_div_cancel _ hpos, hbatch, postedUpTo, hdivs, Nat.succ_mul,
      ← Nat.add_assoc, List.range_add, List.map_append, List.map_map, postedUpTo, recvs]
    refine congrArg (HAppend.hAppend _) (List.map_congr_left fun i hi => ?_)
    have hmod : (g / c.subNR * c.subNR + i) % c.messageNR =
        g / c.subNR % kBatchCount * c.subNR + i := by
      rw [hN]
      exact mul_add_mod_mul kBatchCount (List.mem_range.mp hi) (by decide)
    rw [Function.comp_apply, Nat.add_assoc, Nat.add_mod_left, hmod]
  · have hdivs : (g + 1) / c.subNR = g / c.subNR := by
      rw [Nat.succ_div, if_neg (fun h => hb (Nat.mod_eq_zero_of_dvd h)), Nat.add_zero]
    rw [if_neg hb, List.append_nil, postedUpTo, postedUpTo, hdivs]

theorem Inv.subNR_pos (h : c.Inv s) (hlt : s.returned.length < s.delivered.length) :
    0 < c.subNR := by
  by_contra h0
  have h0 : c.subNR = 0 := by omega
  have hlen := congrArg List.length h.posted
  rw [postedUpTo, messageNR_eq hdiv, h0] at hlen
  simp at hlen
  simp [hlen] at hlt

theorem Inv.step (h : c.Inv s) {a : ReceiveStep} (ht : c.system.next s a = some t) : c.Inv t := by
  cases a with
  | deliver =>
    change (match s.posted with
      | [] => none
      | b :: rest => some { s with posted := rest, delivered := s.delivered ++ [b] }) = some t at ht
    cases hp : s.posted with
    | nil => simp [hp] at ht
    | cons b rest =>
      rw [hp] at ht
      cases ht
      refine ⟨h.cur, h.returned, ?_, ?_⟩
      · rw [← h.posted, hp, List.append_assoc]
        rfl
      · rw [List.length_append]
        exact h.arrived.trans (Nat.le_add_right _ _)
  | getMessage =>
    change (if s.returned.length < s.delivered.length then some (c.getMessage s) else none) =
      some t at ht
    split at ht
    · rename_i hlt
      cases ht
      have hlen : (c.getMessage s).returned.length = s.returned.length + 1 := by simp [getMessage]
      have hcur : (s.curMessage + 1) % c.messageNR = (s.returned.length + 1) % c.messageNR := by
        rw [h.cur, Nat.mod_add_mod]
      refine ⟨by rw [hlen]; exact hcur, ?_, ?_, by rw [hlen]; exact hlt⟩
      · rw [hlen, List.range_succ, List.map_append, ← h.returned, List.map_singleton, ← h.cur]
        rfl
      · rw [hlen, postedUpTo_succ hdiv _ (h.subNR_pos hdiv hlt), ← h.posted, ← hcur, List.append_assoc]
        rfl
    · cases ht

theorem inv_of_reachable (h : c.system.Reachable s) : c.Inv s :=
  h.invariant (fun _ hi => hi ▸ inv_initRecv hdiv) fun _ _ _ _ hs _ ht => hs.step hdiv ht

end divisible

/-- In every run the `j`-th call returns the buffer of the `j`-th message; the next message in
that buffer is the one a whole round later, and it is not delivered before the `j`-th call. -/
theorem receive_ring_aligned (hdiv : kBatchCount ∣ c.messageNR) (h : c.system.Reachable s) :
    (∀ j < s.returned.length, s.returned[j]? = s.delivered[j]?.map (· + c.recvPadding)) ∧
    (∀ i j, j < i → i < s.delivered.length → s.delivered[i]? = s.delivered[j]? →
      j + c.messageNR ≤ i) ∧
    ∀ j, j + c.messageNR < s.delivered.length →
      s.delivered[j + c.messageNR]? = s.delivered[j]? ∧ j < s.returned.length := by
  have hi := inv_of_reachable hdiv h
  refine ⟨fun j hj => ?_, fun i j hji hlt he => ?_, fun j hj => ⟨?_, ?_⟩⟩
  · rw [hi.delivered (hj.trans_le hi.arrived), hi.returned, List.getElem?_map,
      List.getElem?_range hj]
    rfl
  · rw [hi.delivered hlt, hi.delivered (hji.trans hlt)] at he
    have hmod := buffer_inj (Option.some.inj he)
    have hdvd := (Nat.modEq_iff_dvd' hji.le).mp hmod.symm
    have := Nat.le_of_dvd (by omega) hdvd
    omega
  · rw [hi.delivered hj, hi.delivered (by omega), Nat.add_mod_right]
  · have hlen := congrArg List.length hi.posted
    rw [List.length_append, postedUpTo, List.length_map, List.length_range] at hlen
    have := Nat.div_mul_le_self s.returned.length c.subNR
    omega

/-- Six messages through a pool of four. -/
theorem six_messages_aligned : ∃ s, (system ⟨4, 0, 40⟩).Reachable s ∧ 6 ≤ s.delivered.length ∧
    ∀ j < s.returned.length, s.returned[j]? = s.delivered[j]?.map (· + 40) := by
  obtain ⟨s, hs, hlen⟩ : (system ⟨4, 0, 40⟩).Ends (initRecv ⟨4, 0, 40⟩)
      [.deliver, .deliver, .getMessage, .deliver, .getMessage, .deliver, .deliver, .deliver,
        .getMessage] fun s => 6 ≤ s.delivered.length := by decide
  have hr : (system ⟨4, 0, 40⟩).Reachable s := System.Reachable.run (.init rfl) hs
  exact ⟨s, hr, hlen, (receive_ring_aligned (by decide) hr).1⟩

end MessageConnection
end SmartTree
