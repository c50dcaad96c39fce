import SmartTree.Tree.Structure

/-! The tree once every write that was begun has been carried out: headers start where
their nodes hang, entries and headers agree on the node type, reverse pointers point back,
and leaves are consistent and unlocked. -/
namespace SmartTree
variable {n : ℕ} {L : Layout} {m m' : Mem n} {crc : Key n → Value → UInt64} {ptr : Ptr}
  {σ π : List UInt8}

structure NodeAt (m : Mem n) (ptr : Ptr) (σ : List UInt8) (t : NodeType) (a : Addr) : Prop where
  rev : (m.node a).rev = ptr
  depth : (m.node a).hdr.depth = σ.length + 1
  type : (m.node a).hdr.type = t

structure Linked (crc : Key n → Value → UInt64) (L : Layout) (m : Mem n) : Prop where
  node : ∀ {ptr σ b t a}, SlotPath L m ptr σ → m.load ptr = .node b t a → NodeAt m ptr σ t a
  rev : ∀ {ptr σ b l}, SlotPath L m ptr σ → m.load ptr = .leaf b l → (m.leaf l).rev = ptr
  leaf : ∀ {l}, L l = some .leaf → (m.leaf l).isConsistent crc = true ∧ (m.leaf l).lock = false

def Sized (L : Layout) (m : Mem n) : Prop :=
  ∀ a π i, L a = some (.node π) → m.load (.slot a i) ≠ .null → i < (m.node a).hdr.type.num

structure Exact (crc : Key n → Value → UInt64) (L : Layout) (m : Mem n) : Prop where
  linked : Linked crc L m
  sized : Sized L m

structure Agrees (L : Layout) (m m' : Mem n) : Prop where
  load : ∀ ptr, HasSlot L ptr → m'.load ptr = m.load ptr
  hdr : ∀ a, L a ≠ none → (m'.node a).hdr = (m.node a).hdr
  rev : ∀ a, L a ≠ none → (m'.node a).rev = (m.node a).rev
  leaf : ∀ l, L l ≠ none → m'.leaf l = m.leaf l

theorem SlotPath.of_load (h : SlotPath L m' ptr σ)
    (hl : ∀ ptr, HasSlot L ptr → m'.load ptr = m.load ptr) : SlotPath L m ptr σ := by
  cases h with
  | root => exact .root
  | @slot a i π ha he =>
    rw [hl (.slot a i) (by simp [HasSlot, ha])] at he ⊢
    exact .slot ha he

theorem TreeInv.addr_ne_none (h : TreeInv L m) {a : Addr} (hs : SlotPath L m ptr σ)
    (ha : (m.load ptr).addr? = some a) : L a ≠ none := (h.entry hs).addr_published ha

theorem TreeInv.leaf_of_load (h : TreeInv L m) {b : UInt8} {l : Addr} (hs : SlotPath L m ptr σ)
    (hl : m.load ptr = .leaf b l) : L l = some .leaf := by
  have he := h.entry hs
  rw [hl] at he
  cases he with | leaf hp _ => exact hp

theorem TreeInv.node_of_load (h : TreeInv L m) {b : UInt8} {t : NodeType} {a : Addr}
    (hs : SlotPath L m ptr σ) (hl : m.load ptr = .node b t a) :
    ∃ π, L a = some (.node π) ∧ σ <+: π := by
  have he := h.entry hs
  rw [hl] at he
  cases he with | node hp hpre => exact ⟨_, hp, hpre⟩

theorem Exact.congr (h : Exact crc L m) (ht : TreeInv L m) (ha : Agrees L m m') :
    Exact crc L m' where
  linked :=
    { node := by
        intro ptr σ b t a hs hl
        have hs' := hs.of_load ha.load
        rw [ha.load ptr hs.hasSlot] at hl
        obtain ⟨h1, h2, h3⟩ := h.linked.node hs' hl
        have hp := ht.addr_ne_none hs' (by rw [hl]; rfl)
        exact ⟨by rw [ha.rev a hp, h1], by rw [ha.hdr a hp, h2], by rw [ha.hdr a hp, h3]⟩
      rev := by
        intro ptr σ b l hs hl
        have hs' := hs.of_load ha.load
        rw [ha.load ptr hs.hasSlot] at hl
        rw [ha.leaf l (ht.addr_ne_none hs' (by rw [hl]; rfl)), h.linked.rev hs' hl]
      leaf := by
        intro l hl
        rw [ha.leaf l (by simp [hl])]
        exact h.linked.leaf hl }
  sized := by
    intro a π i hL hne
    rw [ha.load (.slot a i) (by simp [HasSlot, hL])] at hne
    rw [ha.hdr a (by simp [hL])]
    exact h.sized a π i hL hne

theorem Linked.load_of_nodeRev (h : Linked crc L m) (ht : TreeInv L m) {a : Addr}
    (ha : L a = some (.node π)) (hr : (m.node a).rev = ptr) :
    ∃ b σ, SlotPath L m ptr σ ∧ m.load ptr = .node b (m.node a).hdr.type a := by
  obtain ⟨p, σ, hp, hpa⟩ := ht.parent a (by simp [ha])
  obtain ⟨b, t, hl⟩ := ht.load_node hp hpa ha
  obtain ⟨h1, -, h3⟩ := h.node hp hl
  obtain rfl := h1.symm.trans hr
  exact ⟨b, σ, hp, h3 ▸ hl⟩

theorem Linked.load_of_leafRev (h : Linked crc L m) (ht : TreeInv L m) {l : Addr}
    (hl : L l = some .leaf) (hr : (m.leaf l).rev = ptr) :
    ∃ b σ, SlotPath L m ptr σ ∧ m.load ptr = .leaf b l := by
  obtain ⟨p, σ, hp, hpl⟩ := ht.parent l (by simp [hl])
  cases he : m.load p with
  | null => simp [he] at hpl
  | leaf b x =>
    rw [he] at hpl
    cases hpl
    obtain rfl := (h.rev hp he).symm.trans hr
    exact ⟨b, σ, hp, he⟩
  | node b t x =>
    rw [he] at hpl
    cases hpl
    obtain ⟨π, hx, -⟩ := ht.node_of_load hp he
    rw [hl] at hx
    cases hx

section leaf

theorem Exact.setLeaf (h : Exact crc L m) {l : Addr} {f : Leaf n → Leaf n}
    (hr : (f (m.leaf l)).rev = (m.leaf l).rev) (hc : (f (m.leaf l)).isConsistent crc = true)
    (hk : (f (m.leaf l)).lock = false) : Exact crc L (m.setLeaf l f) where
  linked :=
    { node := fun hs hl => by
        have hs' := hs.of_load fun p _ => m.setLeaf_load p l f
        rw [Mem.setLeaf_load] at hl
        obtain ⟨h1, h2, h3⟩ := h.linked.node hs' hl
        exact ⟨h1, h2, h3⟩
      rev := by
        intro ptr σ b x hs hx
        have hs' := hs.of_load fun p _ => m.setLeaf_load p l f
        rw [Mem.setLeaf_load] at hx
        by_cases hxl : x = l
        · subst hxl
          rw [Mem.setLeaf_self, hr, h.linked.rev hs' hx]
        · rw [Mem.setLeaf_ne _ _ hxl, h.linked.rev hs' hx]
      leaf := by
        intro x hx
        by_cases hxl : x = l
        · subst hxl
          rw [Mem.setLeaf_self]
          exact ⟨hc, hk⟩
        · rw [Mem.setLeaf_ne _ _ hxl]
          exact h.linked.leaf hx }
  sized := fun a π i ha he => h.sized a π i ha (by rwa [Mem.setLeaf_load] at he)

theorem Linked.publishLeaf (h : Linked crc L m) {b : UInt8} {l : Addr} {k : Key n} {v : Value}
    (hv : Vacant L m b ptr σ) (hl : L l = none) (hm : m.leaf l = .make crc k v ptr) :
    Linked crc (L.publish [(l, .leaf)]) (m.store (.leaf b l) ptr) where
  node := by
    intro p τ b' t a hs hpa
    obtain ⟨rfl, -⟩ | ⟨hne, hs'⟩ := publishLeaf_slotPath hv hl hs
    · rw [Mem.load_store_self] at hpa
      cases hpa
    · rw [Mem.load_store_ne _ _ hne] at hpa
      obtain ⟨h1, h2, h3⟩ := h.node hs' hpa
      exact ⟨by simpa using h1, by simpa using h2, by simpa using h3⟩
  rev := by
    intro p τ b' x hs hx
    rw [Mem.store_leaf]
    obtain ⟨rfl, -⟩ | ⟨hne, hs'⟩ := publishLeaf_slotPath hv hl hs
    · rw [Mem.load_store_self] at hx
      cases hx
      rw [hm]
      rfl
    · rw [Mem.load_store_ne _ _ hne] at hx
      exact h.rev hs' hx
  leaf := by
    intro x hx
    rw [Mem.store_leaf]
    by_cases hxl : x = l
    · rw [hxl, hm]
      exact ⟨by simp [Leaf.isConsistent, Leaf.make], rfl⟩
    · exact h.leaf (by simpa [Layout.publish, hxl] using hx)

theorem Sized.publishLeaf (h : Sized L m) {b : UInt8} {l : Addr} (hl : L l = none)
    (hi : ∀ a i, ptr = .slot a i → i < (m.node a).hdr.type.num) :
    Sized (L.publish [(l, .leaf)]) (m.store (.leaf b l) ptr) := by
  intro a π i ha he
  rw [Mem.store_hdr]
  by_cases hp : Ptr.slot a i = ptr
  · exact hi a i hp.symm
  · rw [Mem.load_store_ne _ _ hp] at he
    exact h a π i (publish_leaf_node hl ha) he

end leaf

section grow

/-- The memory after `cas_node_type` has gone through. -/
def Mem.grow (m : Mem n) (ptr : Ptr) (e : Entry) (a : Addr) (t : NodeType) : Mem n :=
  (m.store (e.withType t) ptr).setNode a fun pg => { pg with hdr := { pg.hdr with type := t } }

variable {b : UInt8} {t u : NodeType} {a : Addr}

theorem Mem.grow_load (p : Ptr) : (m.grow ptr (.node b t a) a u).load p =
    if p = ptr then .node b u a else m.load p := by
  rw [← Entry.withType_node b u t a, ← Mem.load_store]
  cases p with
  | root => rfl
  | slot x i =>
    by_cases hx : x = a
    · subst hx; simp [Mem.grow, Mem.load]
    · simp [Mem.grow, Mem.load, Mem.setNode_ne _ _ hx]

theorem Mem.grow_hdr (x : Addr) : ((m.grow ptr (.node b t a) a u).node x).hdr =
    if x = a then { (m.node x).hdr with type := u } else (m.node x).hdr := by
  by_cases hx : x = a
  · subst hx; simp [Mem.grow]
  · simp [Mem.grow, Mem.setNode_ne _ _ hx, hx]

theorem Mem.grow_rev (x : Addr) :
    ((m.grow ptr (.node b t a) a u).node x).rev = (m.node x).rev := by
  by_cases hx : x = a
  · subst hx; simp [Mem.grow]
  · simp [Mem.grow, Mem.setNode_ne _ _ hx]

variable (ht : TreeInv L m) (hs : SlotPath L m ptr σ) (hl : m.load ptr = .node b t a)
include hl

theorem SlotPath.of_grow {p : Ptr} {τ : List UInt8}
    (h : SlotPath L (m.grow ptr (.node b t a) a u) p τ) : SlotPath L m p τ := by
  cases h with
  | root => exact .root
  | @slot x i π hx he =>
    rw [Mem.grow_load] at he ⊢
    by_cases hp : Ptr.slot x i = ptr
    · subst hp
      have hb : ((if Ptr.slot x i = Ptr.slot x i then Entry.node b u a else
          m.load (.slot x i)).partialKey) = (m.load (.slot x i)).partialKey := by simp [hl]
      rw [hb]
      exact .slot hx (by simp [hl])
    · rw [if_neg hp] at he ⊢
      exact .slot hx he

include ht hs

theorem Linked.grow (h : Linked crc L m) : Linked crc L (m.grow ptr (.node b t a) a u) where
  node := by
    intro p τ b' t' x hp hx
    have hp' := hp.of_grow hl
    rw [Mem.grow_load] at hx
    by_cases hpp : p = ptr
    · subst hpp
      rw [if_pos rfl] at hx
      cases hx
      obtain ⟨h1, h2, -⟩ := h.node hp' hl
      exact ⟨by rw [Mem.grow_rev, h1], by simp [Mem.grow_hdr, h2], by simp [Mem.grow_hdr]⟩
    · rw [if_neg hpp] at hx
      have hxa : x ≠ a := by
        rintro rfl
        exact hpp (ht.unique p ptr τ σ x hp' hs (by rw [hx]; rfl) (by rw [hl]; rfl))
      obtain ⟨h1, h2, h3⟩ := h.node hp' hx
      exact ⟨by rw [Mem.grow_rev, h1], by rw [Mem.grow_hdr, if_neg hxa, h2],
        by rw [Mem.grow_hdr, if_neg hxa, h3]⟩
  rev := by
    intro p τ b' x hp hx
    rw [Mem.grow_load] at hx
    by_cases hpp : p = ptr
    · rw [if_pos hpp] at hx
      cases hx
    · rw [if_neg hpp] at hx
      have := h.rev (hp.of_grow hl) hx
      simpa [Mem.grow, Mem.setNode] using this
  leaf := by
    intro x hx
    have := h.leaf hx
    simpa [Mem.grow, Mem.setNode] using this

end grow
end SmartTree
