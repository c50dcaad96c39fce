import SmartTree.LocalAllocatorClean
import SmartTree.Tree.Hands

/-! The tree over the bytes of the memory nodes. Clients get their blocks from the allocators of
their threads, each step writes its ranges, and nothing is said about what it writes there. -/
namespace SmartTree
open Transition

def GlobalAddress.toAddr (g : GlobalAddress) : Addr := g.nodeID.toNat + 2 ^ 16 * g.offset.toNat

def globalAddress (a : Addr) : GlobalAddress := ⟨BitVec.ofNat 16 a, BitVec.ofNat 48 (a / 2 ^ 16)⟩

@[simp] theorem globalAddress_toAddr (g : GlobalAddress) : globalAddress g.toAddr = g := by
  obtain ⟨node, off⟩ := g
  have h1 := node.isLt
  have h2 := off.isLt
  unfold globalAddress GlobalAddress.toAddr
  congr 1
  · refine BitVec.eq_of_toNat_eq ?_
    simp only [BitVec.toNat_ofNat]
    omega
  · refine BitVec.eq_of_toNat_eq ?_
    simp only [BitVec.toNat_ofNat]
    omega

def kRootPointerStoreOffest : ℕ := kChunkSize / 2

/-- `define::dsmSize`, in bytes. -/
def dsmSize : ℕ := 20 * 1024 * 1024 * 1024

def Span.Has (x : BitVec 16 × ℕ) : Span → Prop
  | .root => x.1 = 0 ∧ kRootPointerStoreOffest ≤ x.2 ∧ x.2 < kRootPointerStoreOffest + 8
  | .block a off len => x.1 = (globalAddress a).nodeID ∧
      (globalAddress a).offset.toNat + off ≤ x.2 ∧ x.2 < (globalAddress a).offset.toNat + off + len

instance (x : BitVec 16 × ℕ) (s : Span) : Decidable (s.Has x) :=
  match s with
  | .root => inferInstanceAs (Decidable (_ ∧ _ ∧ _))
  | .block _ _ _ => inferInstanceAs (Decidable (_ ∧ _ ∧ _))

namespace Blocks
variable {τ : Type*} [DecidableEq τ] [Fintype τ] {nodeNum dirNum : ℕ} [NeZero nodeNum]
  [NeZero dirNum]

/-- `DSM::alloc` for one block after the other; the `i`-th chunk is what a directory grants at the
`i`-th call if it is asked. The tree takes the addresses it is given. -/
def allocAll (t : τ) : List (Addr × ℕ) → List GlobalAddress → Blocks τ nodeNum dirNum →
    Option (Blocks τ nodeNum dirNum)
  | [], _, s => some s
  | (a, size) :: rest, chunks, s =>
    let size := BitVec.ofNat 64 size
    let chunk := chunks.headD .null
    if ((s.thread t).alloc size chunk).1.toAddr = a ∧ chunk.offset.toNat + kChunkSize ≤ dsmSize then
      (s.next (.alloc t size chunk)).bind (allocAll t rest chunks.tail)
    else none

/-- `DSM::free` for one node after the other. -/
def freeAll (t : τ) : List Addr → Blocks τ nodeNum dirNum → Option (Blocks τ nodeNum dirNum)
  | [], s => some s
  | a :: rest, s =>
    (s.next (.free t (globalAddress a) (BitVec.ofNat 64 allocationPageSize))).bind (freeAll t rest)

section serve
variable {s u : Blocks τ nodeNum dirNum} {t : τ} {Z : Set (BitVec 16 × ℕ)} {w : ℕ} {a : Addr} {size : ℕ}

/-- Thread `t` has been handed a block of this size at this word. -/
structure Holds (s : Blocks τ nodeNum dirNum) (t : τ) (a : Addr) (size : ℕ) : Prop where
  word : (globalAddress a).toAddr = a
  live : (globalAddress a, BitVec.ofNat 64 size) ∈ s.live t

structure Serves (Z : Set (BitVec 16 × ℕ)) (w : ℕ) (t : τ) (requests : List (Addr × ℕ))
    (s u : Blocks τ nodeNum dirNum) : Prop where
  inv : Inv u
  clean : u.Clean Z w
  live : ∀ t' b, b ∈ s.live t' → b ∈ u.live t'
  got : ∀ a size, (a, size) ∈ requests → u.Holds t a size ∧
    behind w (globalAddress a) (up (BitVec.ofNat 64 size).toNat) ⊆ Z

theorem next_alloc {size : BitVec 64} {chunk : GlobalAddress}
    (hn : s.next (.alloc t size chunk) = some u) : 0 < size ∧ size.toNat ≤ kChunkSize ∧
      u.live = Function.update s.live t ((((s.thread t).alloc size chunk).1, size) :: s.live t) := by
  simp only [Blocks.next] at hn
  split at hn
  · rename_i hok
    cases hn
    exact ⟨hok.1, hok.2.1, rfl⟩
  · cases hn

omit [DecidableEq τ] [Fintype τ] in
theorem belowTop_of_dsmSize {size : BitVec 64} {chunk : GlobalAddress}
    (h : chunk.offset.toNat + kChunkSize ≤ dsmSize) : s.BelowTop (.alloc t size chunk) := by
  intro _
  have : dsmSize < 2 ^ 48 := by decide
  omega

theorem allocAll_serves {requests : List (Addr × ℕ)} {chunks : List GlobalAddress} (h : Inv s)
    (hc : s.Clean Z w) (hn : s.allocAll t requests chunks = some u) : Serves Z w t requests s u := by
  induction requests generalizing s chunks with
  | nil =>
    cases hn
    exact ⟨h, hc, fun _ _ => id, by simp⟩
  | cons q rest ih =>
    obtain ⟨a, size⟩ := q
    simp only [allocAll] at hn
    split at hn
    · rename_i hcond
      obtain ⟨ha, hroom⟩ := hcond
      obtain ⟨v, hv, hn⟩ := Option.bind_eq_some_iff.mp hn
      have hbelow : s.BelowTop (.alloc t (BitVec.ofNat 64 size) (chunks.headD .null)) :=
        belowTop_of_dsmSize hroom
      obtain ⟨hcv, hb⟩ := hc.alloc h hbelow hv
      obtain ⟨-, -, hlive⟩ := next_alloc hv
      obtain ⟨h1, h2, h3, h4⟩ := ih (h.next hbelow hv) hcv hn
      refine ⟨h1, h2, fun t' b hm => h3 t' b ?_, fun x k hx => ?_⟩
      · rw [hlive]
        by_cases ht : t' = t
        · subst ht
          simp [hm]
        · simpa [Function.update_of_ne ht] using hm
      · obtain hx | hx := List.mem_cons.mp hx
        · cases hx
          subst ha
          simp only [globalAddress_toAddr]
          exact ⟨⟨by simp, h3 t _ (by simp [hlive])⟩, hb⟩
        · exact h4 x k hx
    · cases hn

theorem next_free_live {g : GlobalAddress} {size : BitVec 64} (hn : s.next (.free t g size) = some u)
    {t' : τ} {b : GlobalAddress × BitVec 64} (hb : b ∈ s.live t') :
    b ∈ u.live t' ∨ b = (g, size) := by
  simp only [Blocks.next] at hn
  split at hn
  · obtain ⟨d, -, rfl⟩ := Option.map_eq_some_iff.mp hn
    by_cases hbg : b = (g, size)
    · exact .inr hbg
    · left
      by_cases ht : t' = t
      · subst ht
        simpa using (List.mem_erase_of_ne hbg).mpr hb
      · simpa [Function.update_of_ne ht] using hb
  · cases hn

/-- Nodes that are given back clean leave everything else in place. -/
theorem freeAll_frees {nodes : List Addr} (h : Inv s) (hc : s.Clean Z w)
    (hz : ∀ a ∈ nodes, behind w (globalAddress a)
      (up (BitVec.ofNat 64 allocationPageSize).toNat) ⊆ Z)
    (hn : s.freeAll t nodes = some u) : Inv u ∧ u.Clean Z w ∧ ∀ t' b, b ∈ s.live t' →
      b ∈ u.live t' ∨ ∃ a ∈ nodes, b = (globalAddress a, BitVec.ofNat 64 allocationPageSize) := by
  induction nodes generalizing s with
  | nil =>
    cases hn
    exact ⟨h, hc, fun _ _ => .inl⟩
  | cons a rest ih =>
    simp only [freeAll] at hn
    obtain ⟨v, hv, hn⟩ := Option.bind_eq_some_iff.mp hn
    obtain ⟨h1, h2, h3⟩ := ih (h.next (c := .free _ _ _) trivial hv) (hc.free h (hz a List.mem_cons_self) hv)
      (fun x hx => hz x (List.mem_cons_of_mem a hx)) hn
    refine ⟨h1, h2, fun t' b hb => ?_⟩
    obtain hb | rfl := next_free_live hv hb
    · exact (h3 t' b hb).imp_right fun ⟨x, hx, he⟩ => ⟨x, List.mem_cons_of_mem a hx, he⟩
    · exact .inr ⟨a, List.mem_cons_self, rfl⟩

end serve
end Blocks

/-- The tree, the allocators and the bytes of the memory nodes. -/
structure Store (ι τ : Type*) (nodeNum dirNum : ℕ) where
  world : World ι keyLen
  blocks : Blocks τ nodeNum dirNum
  byte : BitVec 16 × ℕ → UInt8

structure StoreStep (ι : Type*) where
  client : ι
  choice : Choice keyLen
  chunks : List GlobalAddress
  fill : BitVec 16 × ℕ → UInt8

namespace Store
variable {ι τ : Type*} [DecidableEq ι] [Fintype ι] [DecidableEq τ] [Fintype τ] {nodeNum dirNum : ℕ}
  [NeZero nodeNum] [NeZero dirNum]

def next (crc : Key keyLen → Value → UInt64) (thread : ι → τ) (s : Store ι τ nodeNum dirNum)
    (l : StoreStep ι) : Option (Store ι τ nodeNum dirNum) :=
  let c := s.world.client l.client
  let t := thread l.client
  (s.world.next crc (l.client, l.choice)).bind fun w =>
    (s.blocks.allocAll t (c.requests l.choice) l.chunks).bind fun b =>
      (b.freeAll t (c.reclaims s.world.mem l.choice)).map fun b =>
        { world := w, blocks := b
          byte := fun x => if (c.writes l.choice).any (fun r => decide (r.Has x)) then l.fill x
            else s.byte x }

/-- Nothing running, nothing allocated, and zeros in all memory. -/
structure Initial (s : Store ι τ nodeNum dirNum) : Prop where
  world : s.world.Initial
  leafAddr : ∀ i, (s.world.client i).leafAddr = none
  blocks : s.blocks.Initial
  byte : ∀ x, s.byte x = 0

def system (crc : Key keyLen → Value → UInt64) (thread : ι → τ) (nodeNum dirNum : ℕ) [NeZero nodeNum]
    [NeZero dirNum] : System (Store ι τ nodeNum dirNum) (StoreStep ι) where
  init := Initial
  next := next crc thread

end Store
end SmartTree
