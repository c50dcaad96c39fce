import SmartTree.Tree.Back
import SmartTree.Tree.RecallStep

/-! Which steps keep reverse pointers in order, and what such a step of a client leaves
behind. -/
namespace SmartTree
variable {n : ℕ} {L : Layout} {m m' : Mem n} {c : Client n} {crc : Key n → Value → UInt64}
  {x : Block} {ptr : Ptr} {σ : List UInt8}

def Pc.writesRev : Pc → Bool
  | .leafCas _ | .splitWrite _ _ _ => true
  | _ => false

def Pc.splits : Pc → Bool
  | .splitCas _ _ => true
  | _ => false

namespace Client

/-- The client writes reverse pointers on current knowledge only: a repair is issued while its
slot still refers to the block, and a write-back leaves the reverse pointer of the leaf as it
is. -/
def Current (m : Mem n) (c : Client n) (ch : Choice n) : Prop :=
  match c.pc, ch with
  | .readLeaf [], .go =>
    c.fromCache = false → c.leaf.rev ≠ c.pPtr → (m.load c.pPtr).addr? = some c.target
  | .nodeRead, .go =>
    c.fromCache = false → c.page.rev ≠ c.pPtr → (m.load c.pPtr).addr? = some c.target
  | .writeBack (.rev :: _), .go => c.leaf.rev = (m.leaf c.target).rev
  | _, _ => True

instance (m : Mem n) (c : Client n) (ch : Choice n) : Decidable (c.Current m ch) := by
  unfold Current
  split <;> infer_instance

/-- What a step that keeps reverse pointers in order may rely on: current knowledge, and a block
that a split moves away from a slot points back to that slot. -/
structure Careful (m : Mem n) (c : Client n) (ch : Choice n) : Prop where
  current : c.Current m ch
  moved : c.pc.splits = true → m.load c.pPtr = c.p → c.p.block?.map m.back = some c.pPtr

structure Backed (L : Layout) (m : Mem n) (c : Client n) : Prop where
  points : c.Points L m
  ops : ∀ op ∈ c.outstanding, OpBack L m op
  own : ∀ l ptr, .writeRev l ptr ∈ c.pending → c.pc.writesRev = true ∧ c.leafAddr = some l

theorem Backed.owned (h : c.Backed L m) {l : Addr} {r : Ptr} (hw : .writeRev l r ∈ c.pending) :
    l ∈ c.owned := by
  obtain ⟨hpc, hl⟩ := h.own l r hw
  cases hp : c.pc <;> simp_all [Pc.writesRev, Client.owned, leafOwned]

end Client

section sits

theorem Entry.Alike.block_eq {e e' : Entry} (h : e.Alike e') : e'.block? = e.block? := by
  cases e <;> cases e' <;> simp_all [Entry.Alike, Entry.block?]

/-- A change that publishes no node leaves every block where it is. -/
theorem Change.sits {ps : List (Addr × Obj)} (h : Change L m ps m') (hps : ∀ q ∈ ps, q.2 = .leaf)
    (hx : Extends L m (L.publish ps) m') (hs : Sits L m x ptr σ) :
    Sits (L.publish ps) m' x ptr σ := by
  refine ⟨hs.slot.mono hx, ?_⟩
  have hne : m.load ptr ≠ .null := by
    intro hn
    have := hs.load
    rw [hn] at this
    cases this
  cases h with
  | quiet hl => rw [hl ptr hs.slot.hasSlot]; exact hs.load
  | leaf hv =>
    rw [Mem.load_store_ne _ _ (by rintro rfl; exact hne hv.load_null)]
    exact hs.load
  | @graft _ _ k _ _ l pages _ _ g =>
    obtain ⟨q, hq, -⟩ := g.head_mem
    cases hps (q.1, .node (cachePath k q.2.hdr)) (by
      rw [grafted]
      exact List.mem_cons_of_mem _ (List.mem_map.mpr ⟨q, hq, rfl⟩))
  | @entryType p τ t =>
    rw [Mem.load_store]
    split
    · rename_i he
      rw [(Entry.Alike.withType _ t).block_eq, ← he]
      exact hs.load
    · exact hs.load
  | @header a hd =>
    rw [Mem.load_setNode_hdr]
    exact hs.load

theorem Change.sits_of (h : Change L m [] m') (hs : Sits L m' x ptr σ) : Sits L m x ptr σ := by
  have halike : ∀ p, HasSlot L p → (m'.load p).Alike (m.load p) := by
    generalize hps : ([] : List (Addr × Obj)) = ps at h
    intro p hp
    cases h with
    | quiet hl => rw [hl p hp]; exact .refl _
    | leaf => cases hps
    | graft => cases hps
    | @entryType q τ t =>
      rw [Mem.load_store]
      split
      · rename_i he
        rw [he]
        exact (Entry.Alike.withType _ t).symm
      · exact .refl _
    | header => rw [Mem.load_setNode_hdr]; exact .refl _
  obtain ⟨hsl, hl⟩ := hs
  refine ⟨?_, by rwa [(halike ptr hsl.hasSlot).block_eq]⟩
  cases hsl with
  | root => exact .root
  | @slot a i π ha he =>
    have := halike (.slot a i) (by simp [HasSlot, ha])
    rw [← this.partialKey_eq]
    exact .slot ha (this.null_iff.not.mpr he)

theorem Chain.last_page {k : Key n} {diff : UInt8} {old : Entry} {l : Addr} {depth len : ℕ}
    {pages : List (Addr × Page)} (h : Chain k diff old l depth len pages) :
    ∃ q ∈ pages, q.2.slots 0 = old.withPartial diff ∧ (pages.map Prod.fst).getLastD 0 = q.1 := by
  induction h with
  | last _ _ hs => exact ⟨_, List.mem_singleton_self _, by simp [hs], rfl⟩
  | link _ _ _ _ ih =>
    obtain ⟨q, hq, h0, hlast⟩ := ih
    exact ⟨q, List.mem_cons_of_mem _ hq, h0, hlast⟩

section graft
variable {k : Key n} {diff : UInt8} {len : ℕ} {l a : Addr} {b : UInt8}
  {pages : List (Addr × Page)} (g : Graft L m ptr σ k diff len l pages)
include g

/-- The displaced block hangs at slot 0 of the last page, further down. -/
theorem Graft.sits_old (hx : (m.load ptr).block? = some x) :
    ∃ τ, Sits (L.publish (grafted k l pages)) (m.store (.node b .node4 a) ptr) x
      (.slot ((pages.map Prod.fst).getLastD 0) 0) τ ∧ σ.length < τ.length := by
  obtain ⟨q, hq, h0, hlast⟩ := g.chain.last_page
  have hload := g.load_page hq (.node b .node4 a) 0
  rw [h0] at hload
  have hblock : ((m.load ptr).withPartial diff).block? = some x := by
    cases he : m.load ptr <;> rw [he] at hx <;> exact hx
  rw [hlast]
  refine ⟨_, ⟨.slot (g.layout_page hq) ?_, by rw [hload]; exact hblock⟩, ?_⟩
  · rw [hload]
    simpa using g.full
  · have := g.page_length hq
    simp only [List.length_append, List.length_singleton]
    omega

theorem Graft.sits_cases (ha : (pages.map Prod.fst).headD 0 = a)
    (hb : (m.load ptr).partialKey = b) (hr : RevChain ptr pages) {p : Ptr} {τ : List UInt8}
    (hs : Sits (L.publish (grafted k l pages)) (m.store (.node b .node4 a) ptr) x p τ) :
    Sits L m x p τ ∧ p ≠ ptr ∨ (∃ q ∈ pages, x = .node q.1 ∧ q.2.rev = p) ∨
    (x = .leaf l ∧ p = .slot ((pages.map Prod.fst).getLastD 0) 1) ∨
    (m.load ptr).block? = some x ∧ p = .slot ((pages.map Prod.fst).getLastD 0) 0 := by
  obtain ⟨hsl, hl⟩ := hs
  obtain hsl | ⟨q, hq, i, rfl, hi, -⟩ := g.slotPath_cases hb hsl
  · by_cases hp : p = ptr
    · subst hp
      rw [Mem.load_store_self] at hl
      cases hl
      obtain ⟨q, hq, rfl, hrev, -⟩ := g.head_addr ha hr
      exact .inr (.inl ⟨q, hq, rfl, hrev⟩)
    · rw [Mem.load_store_ne _ _ hp] at hl
      exact .inl ⟨⟨hsl, hl⟩, hp⟩
  · rw [g.load_page hq] at hl
    obtain ⟨hq', ⟨b', hs⟩, hr', -⟩ | ⟨hs, hlast, -⟩ | ⟨⟨b', hs⟩, hlast⟩ :=
      g.chain.pageSlot hr (by omega) g.fits hq hi
    · rw [hs] at hl
      cases hl
      exact .inr (.inl ⟨_, hq', rfl, hr'⟩)
    · rw [hs] at hl
      refine .inr (.inr (.inr ⟨?_, by rw [hlast]⟩))
      cases he : m.load ptr <;> rw [he] at hl <;> exact hl
    · rw [hs] at hl
      cases hl
      exact .inr (.inr (.inl ⟨rfl, by rw [hlast]⟩))

end graft
end sits

section frame

def RevSame (m m' : Mem n) (c : Client n) : Prop :=
  ∀ a, m.live a = true → a ∉ c.owned →
    (m'.leaf a).rev = (m.leaf a).rev ∧ (m'.node a).rev = (m.node a).rev

theorem RevSame.back (h : RevSame m m' c) (ht : TreeInv L m) (hl : Local L m c) (hx : x.In L) :
    m'.back x = m.back x := by
  have hlive := ht.live x.addr hx.ne_none
  have hown : x.addr ∉ c.owned := fun hm => hx.ne_none (hl.fresh _ hm).1
  cases x with
  | leaf a => exact (h a hlive hown).1
  | node a => exact (h a hlive hown).2

/-- Only pending operations change the reverse pointer of a block that is not the client's own. -/
theorem step_revSame (h : Local L m c) {ch : Choice n} {mv : Move n} (hc : c.Careful m ch)
    (hs : Step crc m c ch mv) : RevSame m mv.mem c ∨ ch = .flush := by
  have hk := h.knows
  cases hs with
  | lockTaken =>
    left
    intro a _ _
    by_cases ha : a = c.target
    · subst ha; simp [Mem.setLeaf]
    · exact ⟨by rw [Mem.setLeaf_ne _ _ ha], rfl⟩
  | @writeWord w todo hpc =>
    left
    intro a _ _
    refine ⟨?_, rfl⟩
    by_cases ha : a = c.target
    · subst ha
      rw [Mem.setLeaf_self]
      cases w with
      | rev =>
        have hcur := hc.current
        simp only [Client.Current, hpc] at hcur
        exact hcur
      | _ => rfl
    · rw [Mem.setLeaf_ne _ _ ha]
  | @leafWrite site a hpc hq hlive =>
    left
    intro x hx _
    have hne : x ≠ a := by rintro rfl; rw [hlive] at hx; cases hx
    exact ⟨by rw [Mem.setLeaf_ne _ _ hne]; rfl, rfl⟩
  | @splitWrite sp nodes unwrite pages hpc hq hp =>
    left
    simp only [Client.Knows, hpc] at hk
    obtain ⟨hn, σ, hsp⟩ := hk
    obtain ⟨l, hl⟩ := hn.leaf
    obtain ⟨pages', hp', hfst, -⟩ := hsp.pages hn
    obtain rfl := Option.some.inj (hp'.symm.trans hp)
    intro a _ ha
    simp only [Client.owned, Client.leafOwned, Client.nodesOwned, hpc, hl, Option.toList_some,
      List.singleton_append, List.mem_cons, not_or] at ha
    have hnode : (m.writePages pages').node a = m.node a :=
      Mem.writePages_node_ne _ (by rw [hfst]; exact ha.2)
    cases unwrite with
    | true =>
      rw [if_pos rfl, hl, Option.getD_some]
      exact ⟨by rw [Mem.setLeaf_ne _ _ ha.1, Mem.writePages_leaf], congrArg Page.rev hnode⟩
    | false =>
      rw [if_neg (by simp)]
      exact ⟨by rw [Mem.writePages_leaf], congrArg Page.rev hnode⟩
  | leafCasDone | splitCasDone => exact .inl fun a _ _ => ⟨by simp, by simp⟩
  | @switchEntry w =>
    left
    intro a _ _
    obtain ⟨-, hm⟩ | ⟨-, -, hm⟩ | ⟨-, -, hm⟩ := w.casEntry_cases m <;> simp [hm]
  | @switchHdr w =>
    left
    intro a _ _
    obtain ⟨-, hm⟩ | ⟨-, d, -, hm⟩ := w.casHdr_cases m
    · simp [hm]
    · rw [hm]
      by_cases ha : a = w.node
      · subst ha; simp [Mem.setNode]
      · exact ⟨rfl, by rw [Mem.setNode_ne _ _ ha]⟩
  | nodeRead => rw [Client.nodeRead_eq]; exact .inl fun _ _ _ => ⟨rfl, rfl⟩
  | flush => exact .inr rfl
  | _ => exact .inl fun _ _ _ => ⟨rfl, rfl⟩

end frame

theorem Mem.back_perform (m : Mem n) (op : RemoteOp) (x : Block) :
    (m.perform op).back x = m.back x ∨
    (∃ old new, op = x.casRev old new ∧ m.back x = old ∧ (m.perform op).back x = new) ∨
    ∃ l ptr, op = .writeRev l ptr ∧ x = .leaf l := by
  cases op with
  | writeRev a ptr =>
    cases x with
    | leaf b =>
      by_cases hb : b = a
      · exact .inr (.inr ⟨a, ptr, rfl, by rw [hb]⟩)
      · exact .inl (by rw [back, perform, Mem.setLeaf_ne _ _ hb]; rfl)
    | node b => exact .inl rfl
  | casRevLeaf a old new =>
    cases x with
    | leaf b =>
      by_cases hb : b = a
      · subst hb
        by_cases he : (m.leaf b).rev = old
        · exact .inr (.inl ⟨old, new, rfl, he, by simp [perform, back, he]⟩)
        · exact .inl (by simp [perform, back, he])
      · exact .inl (by rw [back, perform, Mem.setLeaf_ne _ _ hb]; rfl)
    | node b => exact .inl rfl
  | casRevNode a old new =>
    cases x with
    | leaf b => exact .inl rfl
    | node b =>
      by_cases hb : b = a
      · subst hb
        by_cases he : (m.node b).rev = old
        · exact .inr (.inl ⟨old, new, rfl, he, by simp [perform, back, he]⟩)
        · exact .inl (by simp [perform, back, he])
      · exact .inl (by rw [back, perform, Mem.setNode_ne _ _ hb]; rfl)
  | casHeader a old new =>
    cases x with
    | leaf b => exact .inl rfl
    | node b =>
      by_cases hb : b = a
      · subst hb; exact .inl (by simp [perform, back])
      · exact .inl (by rw [back, perform, Mem.setNode_ne _ _ hb]; rfl)

theorem opBack_casRev {old new : Ptr} (h : OpBack L m (x.casRev old new)) :
    Shift L m x old new := by
  cases x <;> exact h

/-- A step publishes no node, or it is the compare-and-swap of a split. -/
theorem step_publishes {ch : Choice n} {mv : Move n} (hs : Step crc m c ch mv) :
    (∀ q ∈ mv.published, q.2 = .leaf) ∨ ∃ sp nodes, c.pc = .splitCas sp nodes ∧ ch = .go ∧
      m.load c.pPtr = c.p ∧
        mv.mem = m.store (.node c.p.partialKey .node4 (nodes.headD 0)) c.pPtr := by
  cases hs with
  | splitCasDone hpc _ hp => exact .inr ⟨_, _, hpc, rfl, hp, rfl⟩
  | leafCasDone => exact .inl (by simp)
  | nodeRead => rw [Client.nodeRead_eq]; exact .inl (by simp)
  | _ => exact .inl (by intro q hq; cases hq)

theorem step_turns (ht : TreeInv L m) (h : Local L m c) (hr : c.Recalls L m) (hb : c.Backed L m)
    {ch : Choice n} {mv : Move n} (hc : c.Careful m ch) (hs : Step crc m c ch mv) :
    Turns L m (L.publish mv.published) mv.mem := by
  have hx := (step_outcome ht h hs).ext
  have hch := step_change ht h hr hs
  constructor
  · intro x hin
    obtain hsame | rfl := step_revSame h hc hs
    · exact .inl (hsame.back ht h hin)
    · cases hs with
      | @flush op ops hq =>
        obtain he | ⟨old, new, rfl, ho, hnew⟩ | ⟨l, ptr, rfl, rfl⟩ := m.back_perform op x
        · exact .inl he
        · have hop : Shift L m x old new :=
            opBack_casRev (hb.ops (x.casRev old new) (by simp [Client.outstanding, hq]))
          right
          rw [ho, hnew]
          exact hop.above
        · have hown := hb.owned (l := l) (r := ptr) (by simp [hq])
          exact absurd (h.fresh l hown).1 hin.ne_none
  · intro x ptr σ hsit
    obtain hps | ⟨sp, nodes, hpc, rfl, hp, hm⟩ := step_publishes hs
    · exact .inl (hch.sits hps hx hsit)
    · by_cases he : ptr = c.pPtr
      · right
        have hload := hsit.load
        rw [he, hp] at hload
        have := hc.moved (by rw [hpc]; rfl) hp
        rw [hload] at this
        rw [he]
        exact Option.some.inj this
      · refine .inl ⟨hsit.slot.mono hx, ?_⟩
        rw [hm, Mem.load_store_ne _ _ he]
        exact hsit.load

end SmartTree
