import Mathlib.Logic.Function.Basic
import SmartTree.GlobalAddress
import SmartTree.Lib.Transition

/-! The chunk allocator of a memory node: one flag for each chunk and a tail that only moves
up, until the pool is used up and the allocator starts over. -/
namespace SmartTree
open Transition

structure GlobalAllocator where
  start : GlobalAddress
  bitmap : ℕ → Bool
  bitmapLen : ℕ
  bitmapTail : ℕ

namespace GlobalAllocator

def clearBitmap : ℕ → Bool := Function.update (fun _ => false) 0 true

def new (start : GlobalAddress) (size : ℕ) : GlobalAllocator where
  start := start
  bitmap := clearBitmap
  bitmapLen := size / kChunkSize
  bitmapTail := 1

def chunk (g : GlobalAllocator) (j : ℕ) : GlobalAddress :=
  g.start.addOffset (BitVec.ofNat 64 (j * kChunkSize))

def allocChunck (g : GlobalAllocator) : GlobalAddress × GlobalAllocator :=
  let full := g.bitmapLen ≤ g.bitmapTail
  let res := if full then { g.start with nodeID := 2 } else g.start
  let g := if full then { g with bitmapTail := 1, bitmap := clearBitmap } else g
  if g.bitmap g.bitmapTail = false then
    (res.addOffset (BitVec.ofNat 64 (g.bitmapTail * kChunkSize)),
      { g with
        bitmap := Function.update g.bitmap g.bitmapTail true
        bitmapTail := g.bitmapTail + 1 })
  else (res, g)

theorem allocChunck_over (g : GlobalAllocator) (h : g.bitmapLen ≤ g.bitmapTail) :
    g.allocChunck.1.nodeID = 2 := by
  unfold allocChunck
  simp only [h, if_true]
  split
  · exact GlobalAddress.nodeID_addOffset _ _
  · rfl

def freeChunk (g : GlobalAllocator) (addr : GlobalAddress) : GlobalAllocator :=
  { g with
    bitmap := Function.update g.bitmap
      ((addr.offset.setWidth 64 - g.start.offset.setWidth 64).toNat / kChunkSize) false }

end GlobalAllocator

structure ChunkPool where
  alloc : GlobalAllocator
  allocated : List GlobalAddress

inductive ChunkCall
  | alloc
  | free (addr : GlobalAddress)

namespace ChunkPool

def next (s : ChunkPool) : ChunkCall → Option ChunkPool
  | .alloc => some ⟨s.alloc.allocChunck.2, s.alloc.allocChunck.1 :: s.allocated⟩
  | .free a =>
    if a ∈ s.allocated then some ⟨s.alloc.freeChunk a, s.allocated.erase a⟩ else none

def system (start : GlobalAddress) (size : ℕ) : System ChunkPool ChunkCall where
  init s := s = ⟨.new start size, []⟩
  next := next

/-- The address is that of a chunk of the pool that is not allocated. -/
def Fresh (s : ChunkPool) (a : GlobalAddress) : Prop :=
  a.nodeID = s.alloc.start.nodeID ∧
    (∃ j, 1 ≤ j ∧ j < s.alloc.bitmapLen ∧
      a.offset.toNat = s.alloc.start.offset.toNat + j * kChunkSize) ∧
    a ∉ s.allocated

def TailInside (s : ChunkPool) : ChunkCall → Prop
  | .alloc => s.alloc.bitmapTail < s.alloc.bitmapLen
  | .free _ => True

instance (s : ChunkPool) (c : ChunkCall) : Decidable (TailInside s c) :=
  match c with
  | .alloc => inferInstanceAs (Decidable (_ < _))
  | .free _ => isTrue trivial

/-- Chunks from the tail on have never been handed out. -/
structure Inv (start : GlobalAddress) (size : ℕ) (s : ChunkPool) : Prop where
  start_eq : s.alloc.start = start
  len_eq : s.alloc.bitmapLen = size / kChunkSize
  pos : 1 ≤ s.alloc.bitmapTail
  clear : ∀ j, s.alloc.bitmapTail ≤ j → s.alloc.bitmap j = false
  below : ∀ a ∈ s.allocated, ∃ j, 1 ≤ j ∧ j < s.alloc.bitmapTail ∧ j < s.alloc.bitmapLen ∧
    a = s.alloc.chunk j

variable {start : GlobalAddress} {size : ℕ} {s : ChunkPool}

theorem inv_new : Inv start size ⟨.new start size, []⟩ where
  start_eq := rfl
  len_eq := rfl
  pos := le_rfl
  clear j hj := by
    have hne : j ≠ 0 := Nat.pos_iff_ne_zero.mp hj
    simp [GlobalAllocator.new, GlobalAllocator.clearBitmap, hne]
  below a ha := by cases ha

theorem Inv.allocChunck_eq (h : Inv start size s) (ht : s.alloc.bitmapTail < s.alloc.bitmapLen) :
    s.alloc.allocChunck = (s.alloc.chunk s.alloc.bitmapTail,
      { s.alloc with
        bitmap := Function.update s.alloc.bitmap s.alloc.bitmapTail true
        bitmapTail := s.alloc.bitmapTail + 1 }) := by
  have hover : ¬ s.alloc.bitmapLen ≤ s.alloc.bitmapTail := by omega
  simp [GlobalAllocator.allocChunck, GlobalAllocator.chunk, hover, h.clear _ le_rfl]

theorem Inv.alloc (h : Inv start size s) (ht : s.alloc.bitmapTail < s.alloc.bitmapLen) :
    Inv start size ⟨s.alloc.allocChunck.2, s.alloc.allocChunck.1 :: s.allocated⟩ := by
  rw [h.allocChunck_eq ht]
  refine ⟨h.start_eq, h.len_eq, Nat.le_succ_of_le h.pos, fun j hj => ?_, fun a ha => ?_⟩
  · dsimp only at hj ⊢
    rw [Function.update_of_ne (by omega)]
    exact h.clear j (by omega)
  · rcases List.mem_cons.mp ha with rfl | ha
    · exact ⟨s.alloc.bitmapTail, h.pos, Nat.lt_succ_self _, ht, rfl⟩
    · obtain ⟨j, h1, h2, h3, h4⟩ := h.below a ha
      exact ⟨j, h1, Nat.lt_succ_of_lt h2, h3, h4⟩

theorem Inv.toNat_chunk (h : Inv start size s) (hfit : start.offset.toNat + size ≤ 2 ^ 48) {j : ℕ}
    (hj : j < s.alloc.bitmapLen) :
    (s.alloc.chunk j).offset.toNat = start.offset.toNat + j * kChunkSize := by
  have hle : (j + 1) * kChunkSize ≤ size := by
    rw [h.len_eq] at hj
    exact (Nat.le_div_iff_mul_le (by decide)).mp hj
  have hpos : 0 < kChunkSize := by decide
  rw [Nat.add_one_mul] at hle
  have hof : (BitVec.ofNat 64 (j * kChunkSize)).toNat = j * kChunkSize := by
    rw [BitVec.toNat_ofNat, Nat.mod_eq_of_lt]
    omega
  rw [GlobalAllocator.chunk, GlobalAddress.toNat_addOffset_of_lt, hof, h.start_eq]
  rw [hof, h.start_eq]
  omega

theorem Inv.chunk_inj (h : Inv start size s) (hfit : start.offset.toNat + size ≤ 2 ^ 48) {i j : ℕ}
    (hi : i < s.alloc.bitmapLen) (hj : j < s.alloc.bitmapLen)
    (he : s.alloc.chunk i = s.alloc.chunk j) : i = j := by
  have ho := congrArg (fun a => a.offset.toNat) he
  simp only [h.toNat_chunk hfit hi, h.toNat_chunk hfit hj] at ho
  exact Nat.eq_of_mul_eq_mul_right (by decide) (Nat.add_left_cancel ho)

theorem Inv.free (h : Inv start size s) (a : GlobalAddress) :
    Inv start size ⟨s.alloc.freeChunk a, s.allocated.erase a⟩ := by
  refine ⟨h.start_eq, h.len_eq, h.pos, fun j hj => ?_, fun b hb => h.below b (List.mem_of_mem_erase hb)⟩
  by_cases he : j = (a.offset.setWidth 64 - s.alloc.start.offset.setWidth 64).toNat / kChunkSize
  · rw [he]
    exact Function.update_self ..
  · exact (Function.update_of_ne he ..).trans (h.clear j hj)

theorem inv_of_reach (h : (system start size).Reach TailInside s) : Inv start size s := by
  refine h.invariant (fun t ht => ht ▸ inv_new) fun t c u _ ih hg hn => ?_
  cases c with
  | alloc => cases hn; exact ih.alloc hg
  | free a =>
    simp only [system, next] at hn
    split at hn
    · cases hn; exact ih.free a
    · cases hn

/-- As long as `alloc_chunck` is called within the pool it hands out fresh chunks, and, unless
the pool is on node 2, only then. -/
theorem fresh_of_tailInside (hfit : start.offset.toNat + size ≤ 2 ^ 48)
    (h : (system start size).Reach TailInside s) :
    (s.alloc.bitmapTail < s.alloc.bitmapLen → s.Fresh s.alloc.allocChunck.1) ∧
      (start.nodeID ≠ 2 → s.Fresh s.alloc.allocChunck.1 →
        s.alloc.bitmapTail < s.alloc.bitmapLen) := by
  have hi := inv_of_reach h
  constructor
  · intro ht
    rw [hi.allocChunck_eq ht]
    refine ⟨GlobalAddress.nodeID_addOffset _ _, ⟨s.alloc.bitmapTail, hi.pos, ht, ?_⟩, fun hm => ?_⟩
    · rw [hi.toNat_chunk hfit ht, hi.start_eq]
    · obtain ⟨j, -, hlt, hj, he⟩ := hi.below _ hm
      exact absurd (hi.chunk_inj hfit ht hj he) (by omega)
  · intro hn hf
    by_contra hge
    have hres := s.alloc.allocChunck_over (not_lt.mp hge)
    rw [hf.1, hi.start_eq] at hres
    exact hn hres

def smallPool : ChunkPool := ⟨.new ⟨0, 0⟩ (3 * kChunkSize), []⟩

/-- The second call within a pool of three chunks. -/
theorem fresh_second_chunk :
    (system ⟨0, 0⟩ (3 * kChunkSize)).Ends smallPool [.alloc] fun s => s.Fresh s.alloc.allocChunck.1 := by
  obtain ⟨s, hs, ht⟩ : (system ⟨0, 0⟩ (3 * kChunkSize)).Ends smallPool [.alloc]
      fun s => s.alloc.bitmapTail < s.alloc.bitmapLen := by decide +kernel
  have hm : (system ⟨0, 0⟩ (3 * kChunkSize)).Meets TailInside smallPool [.alloc] := by decide +kernel
  exact ⟨s, hs, (fresh_of_tailInside (by decide +kernel) (.run (.init rfl) hm hs)).1 ht⟩

/-- Once the pool is used up, the next chunk is on another node and the one after that is still
allocated. -/
theorem chunk_handed_out_twice :
    ((system ⟨0, 0⟩ (3 * kChunkSize)).Ends smallPool [.alloc, .alloc]
      fun s => ¬ s.Fresh s.alloc.allocChunck.1) ∧
    (system ⟨0, 0⟩ (3 * kChunkSize)).Ends smallPool [.alloc, .alloc, .alloc]
      fun s => s.alloc.allocChunck.1 ∈ s.allocated := by
  constructor
  · obtain ⟨s, hs, hn⟩ : (system ⟨0, 0⟩ (3 * kChunkSize)).Ends smallPool [.alloc, .alloc]
        fun s => s.alloc.allocChunck.1.nodeID ≠ s.alloc.start.nodeID := by decide +kernel
    exact ⟨s, hs, fun hf => hn hf.1⟩
  · decide +kernel

end ChunkPool
end SmartTree
