import SmartTree.Tree.Settled

/-! A split that has gone through, reverse pointer and header of the displaced object
included, leaves a tree in which everything points back where it hangs. -/
namespace SmartTree
variable {n : ℕ} {L : Layout} {m m' : Mem n} {crc : Key n → Value → UInt64} {ptr : Ptr}
  {σ : List UInt8} {k : Key n} {diff : UInt8} {old : Entry} {l : Addr} {depth len : ℕ}
  {pages : List (Addr × Page)}

def RevChain : Ptr → List (Addr × Page) → Prop
  | _, [] => True
  | rev, q :: rest => q.2.rev = rev ∧ RevChain (.slot q.1 0) rest

theorem splitPages_revChain {nodes : List Addr} {rev : Ptr}
    (h : splitPages k diff old l nodes len depth rev = some pages) : RevChain rev pages := by
  induction nodes generalizing len depth rev pages with
  | nil => cases h; trivial
  | cons a nodes ih =>
    cases nodes with
    | nil =>
      obtain ⟨hdr, -, h⟩ := Option.bind_eq_some_iff.mp h
      obtain ⟨b, -, h⟩ := Option.bind_eq_some_iff.mp h
      cases h
      exact ⟨rfl, trivial⟩
    | cons a' rest =>
      obtain ⟨hdr, -, h⟩ := Option.bind_eq_some_iff.mp h
      obtain ⟨b, -, h⟩ := Option.bind_eq_some_iff.mp h
      obtain ⟨pages', hp, h⟩ := Option.bind_eq_some_iff.mp h
      cases h
      exact ⟨rfl, ih hp⟩

/-- What a slot of a new page leads to: the next page, the displaced entry or the new leaf. -/
inductive PageSlot (k : Key n) (diff : UInt8) (old : Entry) (l : Addr) (stop : ℕ)
    (pages : List (Addr × Page)) (q : Addr × Page) : ℕ → Prop
  | next {q'} (hq : q' ∈ pages) (hs : ∃ b, q.2.slots 0 = .node b .node4 q'.1)
      (hr : q'.2.rev = .slot q.1 0) (hd : q'.2.hdr.depth = (cachePath k q.2.hdr).length + 2) :
    PageSlot k diff old l stop pages q 0
  | old (hs : q.2.slots 0 = old.withPartial diff) (hl : (pages.map Prod.fst).getLastD 0 = q.1)
      (hd : (cachePath k q.2.hdr).length + 1 = stop) : PageSlot k diff old l stop pages q 0
  | leaf (hs : ∃ b, q.2.slots 1 = .leaf b l) (hl : (pages.map Prod.fst).getLastD 0 = q.1) :
    PageSlot k diff old l stop pages q 1

theorem PageSlot.cons {stop i : ℕ} {q r : Addr × Page} (h : PageSlot k diff old l stop pages q i)
    (hq : q ∈ pages) : PageSlot k diff old l stop (r :: pages) q i := by
  have hlast : ((r :: pages).map Prod.fst).getLastD 0 = (pages.map Prod.fst).getLastD 0 := by
    cases pages with
    | nil => cases hq
    | cons x xs => rfl
  cases h with
  | next hq' hs hr hd => exact .next (List.mem_cons_of_mem _ hq') hs hr hd
  | old hs hl hd => exact .old hs (hlast.trans hl) hd
  | leaf hs hl => exact .leaf hs (hlast.trans hl)

theorem Chain.pageSlot (h : Chain k diff old l depth len pages) {rev : Ptr}
    (hr : RevChain rev pages) (hd : 1 ≤ depth) (hn : depth + len ≤ n) {q : Addr × Page}
    (hq : q ∈ pages) {i : ℕ} (hi : q.2.slots i ≠ .null) :
    PageSlot k diff old l (depth + len) pages q i := by
  have hlen : ∀ {d j : ℕ}, 1 ≤ d → d - 1 + j ≤ n →
      (cachePath k ⟨d, .node4, (k.bytes.drop (d - 1)).take j⟩).length + 1 = d + j := by
    intro d j h1 h2
    rw [cachePath_eq, List.length_take, k.length_bytes]
    omega
  induction h generalizing rev with
  | @last a pg depth len _ hh hs =>
    obtain rfl := List.mem_singleton.mp hq
    by_cases h0 : i = 0
    · subst h0
      exact .old (by simp [hs]) rfl (by rw [hh]; exact hlen hd (by omega))
    · by_cases h1 : i = 1
      · subst h1
        exact .leaf ⟨_, by simp [hs]; rfl⟩ rfl
      · simp [hs, h0, h1] at hi
  | @link a pg a' pg' rest depth len hle hh hs hc ih =>
    have hstop : depth + (hPartialLenMax + 1) + (len - (hPartialLenMax + 1)) = depth + len := by
      omega
    obtain rfl | hq := List.mem_cons.mp hq
    · obtain rfl : i = 0 := by
        by_contra h0
        simp [hs, h0] at hi
      have hmem : (a', pg') ∈ (a, pg) :: (a', pg') :: rest := by simp
      refine .next hmem ⟨_, by simp [hs]; rfl⟩ hr.2.1 ?_
      rw [hc.head_depth rfl, hh]
      have := hlen (d := depth) (j := hPartialLenMax) hd (by omega)
      omega
    · have := ih hr.2 (by omega) (by omega) hq
      rw [hstop] at this
      exact this.cons hq

/-- The memory a split leaves once the displaced object has been told: compared with the
moment before the swap, only the slot and that object have changed. -/
structure Displaced (m m' : Mem n) (ptr : Ptr) (d : ℕ) (new : Entry) (back : Ptr) : Prop where
  load : ∀ p, m'.load p = (m.store new ptr).load p
  node : ∀ a, (m.load ptr).addr? ≠ some a →
    (m'.node a).hdr = (m.node a).hdr ∧ (m'.node a).rev = (m.node a).rev
  leaf : ∀ x, (m.load ptr).addr? ≠ some x → m'.leaf x = m.leaf x
  oldLeaf : ∀ b x, m.load ptr = .leaf b x → m'.leaf x = { m.leaf x with rev := back }
  oldNode : ∀ b t a, m.load ptr = .node b t a → (m'.node a).rev = back ∧
    (m'.node a).hdr.depth = d ∧ (m'.node a).hdr.type = (m.node a).hdr.type

namespace Graft
variable (g : Graft L m ptr σ k diff len l pages)
include g

theorem head_addr {a : Addr} (ha : (pages.map Prod.fst).headD 0 = a) {rev : Ptr}
    (hr : RevChain rev pages) : ∃ q ∈ pages, q.1 = a ∧ q.2.rev = rev ∧
      q.2.hdr.depth = σ.length + 1 ∧ q.2.hdr.type = .node4 := by
  cases hp : pages with
  | nil => exact absurd hp g.chain.ne_nil
  | cons q rest =>
    have hq : q ∈ pages := by simp [hp]
    obtain ⟨d, j, -, -, hh, -⟩ := g.chain.page hq
    rw [hp] at ha hr
    exact ⟨q, List.mem_cons_self, ha, hr.1, g.chain.head_depth (by simp [hp]), by rw [hh]⟩

variable {a back : Addr} {b : UInt8} (ht : TreeInv L m)
  (hm : Displaced m m' ptr (σ.length + len + 2) (.node b .node4 a) (.slot back 0))
include ht hm

theorem linked {v : Value} (h : Linked crc L m) (ha : (pages.map Prod.fst).headD 0 = a)
    (hb : (m.load ptr).partialKey = b) (hback : (pages.map Prod.fst).getLastD 0 = back)
    (hrev : RevChain ptr pages) (hw : ∀ q ∈ pages, (m.node q.1).rev = q.2.rev)
    (hl : m.leaf l = .make crc k v (.slot back 1)) :
    Linked crc (L.publish (grafted k l pages)) m' := by
  have hfits := g.fits
  have hfresh : ∀ {x}, x ∈ l :: pages.map Prod.fst → (m.load ptr).addr? ≠ some x := by
    intro x hx he
    exact (ht.entry g.slot).addr_published he (g.fresh x hx).1
  have hpage : ∀ {q}, q ∈ pages →
      (m'.node q.1).hdr = q.2.hdr ∧ (m'.node q.1).rev = q.2.rev := by
    intro q hq
    obtain ⟨h1, h2⟩ := hm.node q.1 (hfresh (List.mem_cons_of_mem _ (List.mem_map_of_mem hq)))
    exact ⟨h1.trans (g.written q hq).1, h2.trans (hw q hq)⟩
  have hload : ∀ {q}, q ∈ pages → ∀ i, m'.load (.slot q.1 i) = q.2.slots i := by
    intro q hq i
    rw [hm.load, g.load_page hq]
  have hnew : m'.leaf l = m.leaf l := hm.leaf l (hfresh List.mem_cons_self)
  -- a slot of the new tree is the split slot, another old slot or a slot of a new page
  have hcases : ∀ {p τ}, SlotPath (L.publish (grafted k l pages)) m' p τ →
      (p = ptr ∧ τ = σ ∧ m'.load p = .node b .node4 a) ∨
      (p ≠ ptr ∧ SlotPath L m p τ ∧ m'.load p = m.load p) ∨
      ∃ q ∈ pages, ∃ i, p = .slot q.1 i ∧ τ = cachePath k q.2.hdr ++ [(q.2.slots i).partialKey] ∧
        m'.load p = q.2.slots i ∧ PageSlot k diff (m.load ptr) l (σ.length + 1 + len) pages q i := by
    intro p τ hp
    have hp' := hp.of_load fun p _ => hm.load p
    obtain hs | ⟨q, hq, i, rfl, hne, hτ⟩ := g.slotPath_cases hb hp'
    · by_cases hpp : p = ptr
      · subst hpp
        exact .inl ⟨rfl, hs.unique g.slot, by rw [hm.load, Mem.load_store_self]⟩
      · exact .inr (.inl ⟨hpp, hs, by rw [hm.load, Mem.load_store_ne _ _ hpp]⟩)
    · exact .inr (.inr ⟨q, hq, i, rfl, hτ, hload hq i,
        g.chain.pageSlot hrev (by omega) hfits hq hne⟩)
  have hother : ∀ {p τ x}, p ≠ ptr → SlotPath L m p τ → (m.load p).addr? = some x →
      (m.load ptr).addr? ≠ some x := by
    intro p τ x hne hs hx hy
    exact hne (ht.unique p ptr τ σ x hs g.slot hx hy)
  refine ⟨?_, ?_, ?_⟩
  · intro p τ b' t x hp hx
    obtain ⟨rfl, rfl, hld⟩ | ⟨hne, hs, hld⟩ | ⟨q, hq, i, rfl, rfl, hld, hsl⟩ := hcases hp
    · rw [hld] at hx
      cases hx
      obtain ⟨q, hq, rfl, h1, h2, h3⟩ := g.head_addr ha hrev
      exact ⟨(hpage hq).2.trans h1, by rw [(hpage hq).1, h2], by rw [(hpage hq).1, h3]⟩
    · rw [hld] at hx
      obtain ⟨h1, h2⟩ := hm.node x (hother hne hs (by rw [hx]; rfl))
      obtain ⟨h3, h4, h5⟩ := h.node hs hx
      exact ⟨h2.trans h3, by rw [h1, h4], by rw [h1, h5]⟩
    · rw [hld] at hx
      cases hsl with
      | @next q' hq' hs hr hd =>
        obtain ⟨b₁, hs⟩ := hs
        rw [hs] at hx
        cases hx
        obtain ⟨_, _, -, -, hh, -⟩ := g.chain.page hq'
        exact ⟨(hpage hq').2.trans hr, by rw [(hpage hq').1, hd]; simp,
          by rw [(hpage hq').1, hh]⟩
      | old hs hlast hd =>
        rw [hs] at hx
        obtain ⟨b₁, hold⟩ : ∃ b₁, m.load ptr = .node b₁ t x := by
          cases he : m.load ptr with
          | null => simp [he] at hx
          | leaf c y => simp [he] at hx
          | node c u y =>
            simp only [he, Entry.withPartial_node, Entry.node.injEq] at hx
            exact ⟨c, by rw [hx.2.1, hx.2.2]⟩
        obtain ⟨h1, h2, h3⟩ := hm.oldNode _ _ _ hold
        refine ⟨by rw [h1, ← hlast, hback], ?_, by rw [h3, (h.node g.slot hold).type]⟩
        rw [h2, List.length_append, List.length_singleton]
        omega
      | leaf hs _ =>
        obtain ⟨b₁, hs⟩ := hs
        rw [hs] at hx
        cases hx
  · intro p τ b' x hp hx
    obtain ⟨rfl, rfl, hld⟩ | ⟨hne, hs, hld⟩ | ⟨q, hq, i, rfl, rfl, hld, hsl⟩ := hcases hp
    · rw [hld] at hx
      cases hx
    · rw [hld] at hx
      rw [hm.leaf x (hother hne hs (by rw [hx]; rfl)), h.rev hs hx]
    · rw [hld] at hx
      cases hsl with
      | next hq' hs hr hd =>
        obtain ⟨b₁, hs⟩ := hs
        rw [hs] at hx
        cases hx
      | old hs hlast hd =>
        rw [hs] at hx
        obtain ⟨b₁, hold⟩ : ∃ b₁, m.load ptr = .leaf b₁ x := by
          cases he : m.load ptr with
          | null => simp [he] at hx
          | node c u y => simp [he] at hx
          | leaf c y =>
            simp only [he, Entry.withPartial_leaf, Entry.leaf.injEq] at hx
            exact ⟨c, by rw [hx.2]⟩
        rw [hm.oldLeaf _ _ hold, ← hback, hlast]
      | leaf hs hlast =>
        obtain ⟨b₁, hs⟩ := hs
        rw [hs] at hx
        cases hx
        rw [hnew, hl, ← hlast, hback]
        rfl
  · intro x hx
    obtain hx | ⟨rfl, -⟩ | ⟨q, hq, -, hq'⟩ := g.layout_cases hx
    · by_cases hxp : (m.load ptr).addr? = some x
      · cases he : m.load ptr with
        | null => simp [he] at hxp
        | leaf c y =>
          simp only [he, Entry.addr?_leaf, Option.some.injEq] at hxp
          subst hxp
          rw [hm.oldLeaf _ _ he]
          exact h.leaf hx
        | node c u y =>
          simp only [he, Entry.addr?_node, Option.some.injEq] at hxp
          obtain ⟨π, hy, -⟩ := ht.node_of_load g.slot he
          rw [hxp, hx] at hy
          cases hy
      · rw [hm.leaf x hxp]
        exact h.leaf hx
    · rw [hnew, hl]
      exact ⟨by simp [Leaf.isConsistent, Leaf.make], rfl⟩
    · cases hq'

theorem sized (h : Sized L m) : Sized (L.publish (grafted k l pages)) m' := by
  intro x π i hx hi
  rw [hm.load] at hi
  obtain hx | ⟨-, he⟩ | ⟨q, hq, rfl, -⟩ := g.layout_cases hx
  · have hi' : m.load (.slot x i) ≠ .null := by
      by_cases hp : Ptr.slot x i = ptr
      · rw [hp]; exact g.full
      · rwa [Mem.load_store_ne _ _ hp] at hi
    have htype : (m'.node x).hdr.type = (m.node x).hdr.type := by
      by_cases hxp : (m.load ptr).addr? = some x
      · obtain ⟨c, u, he⟩ := ht.load_node g.slot hxp hx
        exact (hm.oldNode _ _ _ he).2.2
      · rw [(hm.node x hxp).1]
    rw [htype]
    exact h x π i hx hi'
  · cases he
  · rw [g.load_page hq] at hi
    have hq1 : (m.load ptr).addr? ≠ some q.1 := fun he =>
      (ht.entry g.slot).addr_published he (g.page_fresh hq)
    obtain ⟨d, j, -, -, hh, -⟩ := g.chain.page hq
    have hlt : i < 2 := by
      by_contra hge
      exact hi (g.chain.slots_null hq (by omega))
    rw [(hm.node q.1 hq1).1, (g.written q hq).1, hh]
    have : NodeType.node4.num = 4 := by decide
    dsimp only
    omega

end Graft
end SmartTree
