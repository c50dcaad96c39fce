import SmartTree.Tree.Owed
import SmartTree.Tree.Growth

/-! Reverse pointers. A block only ever moves to slots with longer paths, and the updates of
its reverse pointer that are under way lead to where it hangs, or start from a place its
reverse pointer has already left. -/
namespace SmartTree
variable {n : ℕ}

inductive Block
  | leaf (a : Addr)
  | node (a : Addr)
deriving DecidableEq

def Block.addr : Block → Addr
  | leaf a => a
  | node a => a

def Block.casRev (old new : Ptr) : Block → RemoteOp
  | leaf a => .casRevLeaf a old new
  | node a => .casRevNode a old new

def Entry.block? : Entry → Option Block
  | null => none
  | leaf _ a => some (.leaf a)
  | node _ _ a => some (.node a)

def Mem.back (m : Mem n) : Block → Ptr
  | .leaf a => (m.leaf a).rev
  | .node a => (m.node a).rev

def Block.In (L : Layout) : Block → Prop
  | .leaf a => L a = some .leaf
  | .node a => ∃ π, L a = some (.node π)

structure Sits (L : Layout) (m : Mem n) (x : Block) (ptr : Ptr) (σ : List UInt8) : Prop where
  slot : SlotPath L m ptr σ
  load : (m.load ptr).block? = some x

/-- The slot `p` hangs above the slot `q`. -/
def Higher (L : Layout) (m : Mem n) (p q : Ptr) : Prop :=
  ∃ ρ τ, SlotPath L m p ρ ∧ SlotPath L m q τ ∧ ρ.length < τ.length

/-- An update of the block's reverse pointer that may still be carried out: it leads to where the
block hangs, unless the reverse pointer has left the place it starts from. -/
structure Shift (L : Layout) (m : Mem n) (x : Block) (old new : Ptr) : Prop where
  block : x.In L
  above : Higher L m old new
  target : (∃ σ, Sits L m x new σ) ∨ Higher L m old (m.back x)

structure ReadBack (L : Layout) (m : Mem n) (x : Block) (r : Ptr) : Prop where
  block : x.In L
  now : r = m.back x ∨ Higher L m r (m.back x)

def OpBack (L : Layout) (m : Mem n) : RemoteOp → Prop
  | .casRevLeaf a old new => Shift L m (.leaf a) old new
  | .casRevNode a old new => Shift L m (.node a) old new
  | _ => True

/-- What every step in order leaves true of reverse pointers: they move down, and a block leaves
a slot only when it points back to it. -/
structure Turns (L : Layout) (m : Mem n) (L' : Layout) (m' : Mem n) : Prop where
  back : ∀ x, x.In L → m'.back x = m.back x ∨ Higher L m (m.back x) (m'.back x)
  sits : ∀ x ptr σ, Sits L m x ptr σ → Sits L' m' x ptr σ ∨ m.back x = ptr

def lastRev (l : Addr) (ops : List RemoteOp) (r : Ptr) : Ptr :=
  ops.foldl (fun r op => match op with
    | .writeRev a ptr => if a = l then ptr else r
    | _ => r) r

namespace Client

def outstanding (c : Client n) : List RemoteOp := c.pending ++ c.dueOps

def Points (L : Layout) (m : Mem n) (c : Client n) : Prop :=
  match c.pc with
  | .readLeaf todo => .rev ∉ todo → ReadBack L m (.leaf c.target) c.leaf.rev
  | .readNode todo | .readRest todo => .rev ∉ todo → ReadBack L m (.node c.target) c.page.rev
  | .nodeRead => ReadBack L m (.node c.target) c.page.rev
  | .leafCas site => ∀ l, c.leafAddr = some l →
      lastRev l c.pending (m.leaf l).rev = c.sitePtr c.target site
  | .splitWrite _ nodes false => ∀ l, c.leafAddr = some l →
      lastRev l c.pending (m.leaf l).rev = .slot (nodes.getLastD 0) 1
  | .splitCas sp nodes => c.pending = [] ∧
    (∀ l, c.leafAddr = some l → (m.leaf l).rev = .slot (nodes.getLastD 0) 1) ∧
      ∀ pages, c.pages sp nodes = some pages → ∀ q ∈ pages, (m.node q.1).rev = q.2.rev
  | _ => True

end Client

variable {L L' : Layout} {m m' : Mem n} {c : Client n} {x : Block} {p q : Ptr} {σ : List UInt8}

namespace Higher

theorem mono (hx : Extends L m L' m') (h : Higher L m p q) : Higher L' m' p q := by
  obtain ⟨ρ, τ, hp, hq, hlt⟩ := h
  exact ⟨ρ, τ, hp.mono hx, hq.mono hx, hlt⟩

theorem trans {r : Ptr} (h : Higher L m p q) (h' : Higher L m q r) : Higher L m p r := by
  obtain ⟨ρ, τ, hp, hq, hlt⟩ := h
  obtain ⟨ρ', τ', hq', hr, hlt'⟩ := h'
  obtain rfl := hq.unique hq'
  exact ⟨ρ, τ', hp, hr, by omega⟩

theorem irrefl : ¬ Higher L m p p := by
  rintro ⟨ρ, τ, hp, hq, hlt⟩
  obtain rfl := hp.unique hq
  omega

end Higher

theorem Block.In.mono (hx : Extends L m L' m') (h : x.In L) : x.In L' := by
  cases x with
  | leaf a => exact hx.layout _ _ h
  | node a => exact h.imp fun _ ha => hx.layout _ _ ha

theorem Block.In.ne_none (h : x.In L) : L x.addr ≠ none := by
  cases x with
  | leaf a => exact fun hn => by rw [Block.addr, show L a = _ from h] at hn; cases hn
  | node a =>
    obtain ⟨π, ha⟩ := h
    exact fun hn => by rw [Block.addr, ha] at hn; cases hn

theorem Entry.addr_of_block {e : Entry} (h : e.block? = some x) : e.addr? = some x.addr := by
  cases e <;> cases h <;> rfl

theorem EntryOk.block_in {e : Entry} (h : EntryOk L m σ e) (he : e.block? = some x) : x.In L := by
  cases h with
  | null => cases he
  | leaf hl => cases he; exact hl
  | node ha => cases he; exact ⟨_, ha⟩

theorem EntryOk.block_of_addr {e : Entry} (h : EntryOk L m σ e) (hx : x.In L)
    (he : e.addr? = some x.addr) : e.block? = some x := by
  cases h with
  | null => cases he
  | leaf hl =>
    cases x with
    | leaf a => cases he; rfl
    | node a => obtain ⟨π, ha⟩ := hx; cases he; rw [Block.addr, ha] at hl; cases hl
  | node ha =>
    cases x with
    | leaf a => cases he; rw [Block.addr, show L a = _ from hx] at ha; cases ha
    | node a => cases he; rfl

theorem Sits.block_in (h : Sits L m x p σ) (ht : TreeInv L m) : x.In L :=
  (ht.entry h.slot).block_in h.load

theorem Sits.unique {τ : List UInt8} (h : Sits L m x p σ) (h' : Sits L m x q τ)
    (ht : TreeInv L m) : p = q :=
  ht.unique p q σ τ x.addr h.slot h'.slot (Entry.addr_of_block h.load)
    (Entry.addr_of_block h'.load)

section mono
variable (hx : Extends L m L' m') (ht : Turns L m L' m')
include hx ht

theorem Higher.back (hb : x.In L) (h : Higher L m p (m.back x)) : Higher L' m' p (m'.back x) := by
  obtain he | he := ht.back x hb
  · rw [he]
    exact h.mono hx
  · exact (h.trans he).mono hx

theorem Shift.mono (h : Shift L m x p q) : Shift L' m' x p q where
  block := h.block.mono hx
  above := h.above.mono hx
  target := by
    obtain ⟨σ, hs⟩ | ha := h.target
    · obtain hs | hq := ht.sits x q σ hs
      · exact .inl ⟨σ, hs⟩
      · refine .inr (Higher.back hx ht h.block ?_)
        rw [hq]
        exact h.above
    · exact .inr (ha.back hx ht h.block)

theorem ReadBack.mono (h : ReadBack L m x p) : ReadBack L' m' x p where
  block := h.block.mono hx
  now := by
    obtain rfl | ha := h.now
    · obtain he | he := ht.back x h.block
      · exact .inl he.symm
      · exact .inr (he.mono hx)
    · exact .inr (ha.back hx ht h.block)

theorem OpBack.mono {op : RemoteOp} (h : OpBack L m op) : OpBack L' m' op := by
  cases op with
  | casRevLeaf | casRevNode => exact Shift.mono hx ht h
  | _ => trivial

/-- What a client knows of reverse pointers survives the steps of others, which leave its own
blocks alone. -/
theorem Client.Points.mono (h : c.Points L m)
    (hl : ∀ a ∈ c.owned, (m'.leaf a).rev = (m.leaf a).rev ∧ (m'.node a).rev = (m.node a).rev)
    (hn : ∀ sp nodes pages, c.pc = .splitCas sp nodes → c.pages sp nodes = some pages →
      pages.map Prod.fst = nodes) : c.Points L' m' := by
  have hleaf : ∀ l, c.leafOwned = some l → (m'.leaf l).rev = (m.leaf l).rev :=
    fun l hl' => (hl l (by simp [owned, hl'])).1
  unfold Points at h ⊢
  cases hpc : c.pc <;> simp only [hpc] at h ⊢
  case readLeaf | readNode | readRest => exact fun hk => (h hk).mono hx ht
  case nodeRead => exact h.mono hx ht
  case leafCas =>
    intro l hla
    rw [hleaf l (by simp [leafOwned, hpc, hla])]
    exact h l hla
  case splitWrite sp nodes u =>
    cases u with
    | true => trivial
    | false =>
      intro l hla
      rw [hleaf l (by simp [leafOwned, hpc, hla])]
      exact h l hla
  case splitCas sp nodes =>
    refine ⟨h.1, fun l hla => ?_, fun pages hp q hq => ?_⟩
    · rw [hleaf l (by simp [leafOwned, hpc, hla])]
      exact h.2.1 l hla
    · have hq1 : q.1 ∈ nodes := hn sp nodes pages hpc hp ▸ List.mem_map_of_mem hq
      rw [(hl q.1 (by simp [owned, nodesOwned, hpc, hq1])).2]
      exact h.2.2 pages hp q hq

end mono
end SmartTree
