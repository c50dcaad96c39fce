import SmartTree.Tree.Chain

/-! The two compare-and-swaps that change the tree: a new leaf in an empty slot, and a
chain of new nodes between a slot and what it referred to. Both keep the published
tree in order and only ever add to what others may have learnt. -/
namespace SmartTree
variable {n : ℕ} {L L' : Layout} {m m' : Mem n} {σ π : List UInt8} {ptr : Ptr} {e : Entry}

/-- An empty slot where an entry with this byte may go: every slot before it is taken by
another byte. -/
inductive Vacant (L : Layout) (m : Mem n) (b : UInt8) : Ptr → List UInt8 → Prop
  | root (hn : m.load .root = .null) : Vacant L m b .root []
  | slot {a i π} (ha : L a = some (.node π)) (hi : i < 256) (hn : m.load (.slot a i) = .null)
      (ht : ∀ j < i, m.load (.slot a j) ≠ .null ∧ (m.load (.slot a j)).partialKey ≠ b) :
    Vacant L m b (.slot a i) (π ++ [b])

theorem Vacant.load_null {b : UInt8} (h : Vacant L m b ptr σ) : m.load ptr = .null := by
  cases h <;> assumption

theorem Vacant.hasSlot {b : UInt8} (h : Vacant L m b ptr σ) : HasSlot L ptr := by
  cases h with
  | root => trivial
  | slot ha => simp [HasSlot, ha]

section leaf
variable {b : UInt8} {l : Addr} (h : TreeInv L m) (hv : Vacant L m b ptr σ) (hl : L l = none)
include hl

theorem publish_leaf_of_ne {a : Addr} {o : Obj} (ha : L a = some o) :
    L.publish [(l, .leaf)] a = some o := by
  have hne : a ≠ l := by rintro rfl; simp [hl] at ha
  simp [Layout.publish, hne, ha]

theorem publish_leaf_node {a : Addr} (ha : L.publish [(l, .leaf)] a = some (.node π)) :
    L a = some (.node π) := by
  by_cases hal : a = l
  · subst hal; simp [Layout.publish] at ha
  · simpa [Layout.publish, hal] using ha

include hv

theorem publishLeaf_slotPath {p : Ptr} {τ : List UInt8}
    (hs : SlotPath (L.publish [(l, .leaf)]) (m.store (.leaf b l) ptr) p τ) :
    p = ptr ∧ τ = σ ∨ p ≠ ptr ∧ SlotPath L m p τ := by
  cases hs with
  | root =>
    cases hv with
    | root => exact .inl ⟨rfl, rfl⟩
    | slot => exact .inr ⟨by simp, .root⟩
  | slot ha he =>
    rename_i a i π'
    have ha' := publish_leaf_node hl ha
    by_cases hp : Ptr.slot a i = ptr
    · subst hp
      cases hv with
      | slot hb =>
        rw [Option.some.inj (hb.symm.trans ha') |> Obj.node.inj]
        simp [Mem.load_store_self, Entry.partialKey]
    · rw [Mem.load_store_ne _ _ hp] at he ⊢
      exact .inr ⟨hp, .slot ha' he⟩

theorem publishLeaf_extends : Extends L m (L.publish [(l, .leaf)]) (m.store (.leaf b l) ptr) where
  layout _ _ ha := publish_leaf_of_ne hl ha
  root hr := by
    rw [Mem.load_store]
    split
    · simp
    · exact hr
  key _ _ := by simp
  slot a π i ha he := by
    have hp : Ptr.slot a i ≠ ptr := by rintro rfl; exact he hv.load_null
    rw [Mem.load_store_ne _ _ hp]
    exact ⟨he, rfl⟩
  attached a d hpub ha p τ hs hpa := by
    rcases publishLeaf_slotPath hv hl hs with ⟨rfl, rfl⟩ | ⟨hne, hs⟩
    · rw [Mem.load_store_self] at hpa
      cases hpa
      exact absurd hl hpub
    · exact ha p τ hs (by rwa [Mem.load_store_ne _ _ hne] at hpa)

include h

theorem publishLeaf_node (hk : σ <+: (m.leaf l).key.bytes) {a : Addr} (ha : L a = some (.node π)) :
    NodeOk (L.publish [(l, .leaf)]) (m.store (.leaf b l) ptr) a π := by
  have hext := publishLeaf_extends hv hl
  have hn := h.node a π ha
  by_cases hp : ∃ i, ptr = .slot a i
  · obtain ⟨i, rfl⟩ := hp
    cases hv with
    | slot ha' hi hnull ht =>
      cases ha.symm.trans ha'
      have hself := Mem.load_store_self m (.leaf b l) (.slot a i)
      have hne : ∀ {j}, j ≠ i → (m.store (.leaf b l) (.slot a i)).load (.slot a j)
          = m.load (.slot a j) := fun hj => Mem.load_store_ne _ _ (by simpa using hj)
      -- slots behind `i` are still empty, since `i` was
      have hbehind : ∀ {j}, m.load (.slot a j) ≠ .null → j < i := by
        intro j hj
        by_contra hji
        rcases Nat.lt_or_eq_of_le (not_lt.mp hji) with hlt | rfl
        · exact hn.filled i j hlt hj hnull
        · exact hj hnull
      refine ⟨hn.short, by simpa using hn.hdr, by simpa using hn.type, ?_, ?_, ?_, ?_, ?_⟩
      · by_cases h0 : 0 = i
        · subst h0; rw [hself]; simp
        · rw [hne h0]; exact hn.first
      · intro x y hxy hy
        by_cases hxi : x = i
        · subst hxi; rw [hself]; simp
        · rw [hne hxi]
          by_cases hyi : y = i
          · exact (ht x (by omega)).1
          · rw [hne hyi] at hy; exact hn.filled x y hxy hy
      · intro x y hx hy hxy
        by_cases hxi : x = i <;> by_cases hyi : y = i
        · exact hxi.trans hyi.symm
        · subst hxi
          rw [hself, hne hyi] at hxy
          rw [hne hyi] at hy
          exact absurd hxy.symm (ht y (hbehind hy)).2
        · subst hyi
          rw [hself, hne hxi] at hxy
          rw [hne hxi] at hx
          exact absurd hxy (ht x (hbehind hx)).2
        · rw [hne hxi] at hx hxy
          rw [hne hyi] at hy hxy
          exact hn.distinct x y hx hy hxy
      · intro x hx
        by_cases hxi : x = i
        · exact hxi ▸ hi
        · rw [hne hxi] at hx; exact hn.bound x hx
      · intro x hx
        by_cases hxi : x = i
        · subst hxi
          rw [hself]
          exact .leaf (by simp [Layout.publish]) (by simpa using hk)
        · rw [hne hxi] at hx ⊢
          exact (hn.entry x hx).mono hext
  · have hld : ∀ i, (m.store (.leaf b l) ptr).load (.slot a i) = m.load (.slot a i) :=
      fun i => Mem.load_store_ne _ _ (fun hi => hp ⟨i, hi.symm⟩)
    refine ⟨hn.short, by simpa using hn.hdr, by simpa using hn.type, ?_, ?_, ?_, ?_, ?_⟩
    · simpa only [hld] using hn.first
    · simpa only [hld] using hn.filled
    · simpa only [hld] using hn.distinct
    · simpa only [hld] using hn.bound
    · simp only [hld]
      exact fun i hi => (hn.entry i hi).mono hext

theorem publishLeaf_treeInv (hk : σ <+: (m.leaf l).key.bytes) (hlive : m.live l = true)
    (hvalid : (m.leaf l).valid = true) :
    TreeInv (L.publish [(l, .leaf)]) (m.store (.leaf b l) ptr) where
  live a ha := by
    rw [Mem.store_live]
    by_cases hal : a = l
    · exact hal ▸ hlive
    · exact h.live a (by simpa [Layout.publish, hal] using ha)
  root := by
    have hext := publishLeaf_extends hv hl
    change EntryOk _ _ [] ((m.store (.leaf b l) ptr).load .root)
    by_cases hp : Ptr.root = ptr
    · subst hp
      rw [Mem.load_store_self]
      exact .leaf (by simp [Layout.publish]) List.nil_prefix
    · rw [Mem.load_store_ne _ _ hp]
      exact h.root.mono hext
  node a π ha := publishLeaf_node h hv hl hk (publish_leaf_node hl ha)
  attached a π ha := by
    rw [Mem.store_hdr]
    have ha' := publish_leaf_node hl ha
    exact (publishLeaf_extends hv hl).attached _ _ (by simp [ha']) (h.attached a π ha')
  valid x hx := by
    rw [Mem.store_leaf]
    by_cases hxl : x = l
    · exact hxl ▸ hvalid
    · exact h.valid x (by simpa [Layout.publish, hxl] using hx)
  unique p q τ ρ a hp hq hpa hqa := by
    have hold : ∀ {p τ}, p ≠ ptr → SlotPath L m p τ →
        ((m.store (.leaf b l) ptr).load p).addr? = some l → False := by
      intro p τ hne hs hla
      rw [Mem.load_store_ne _ _ hne] at hla
      exact (h.entry hs).addr_published hla hl
    rcases publishLeaf_slotPath hv hl hp with ⟨rfl, -⟩ | ⟨hpn, hp'⟩ <;>
      rcases publishLeaf_slotPath hv hl hq with ⟨rfl, -⟩ | ⟨hqn, hq'⟩
    · rfl
    · rw [Mem.load_store_self] at hpa
      cases hpa
      exact (hold hqn hq' hqa).elim
    · rw [Mem.load_store_self] at hqa
      cases hqa
      exact (hold hpn hp' hpa).elim
    · rw [Mem.load_store_ne _ _ hpn] at hpa
      rw [Mem.load_store_ne _ _ hqn] at hqa
      exact h.unique p q τ ρ a hp' hq' hpa hqa
  parent a ha := by
    have hext := publishLeaf_extends hv hl
    by_cases hal : a = l
    · subst hal
      refine ⟨ptr, σ, ?_, by simp [Mem.load_store_self]⟩
      cases hv with
      | root => exact .root
      | @slot c i π hc _ _ _ =>
        have := SlotPath.slot (L := L.publish [(a, .leaf)]) (i := i) (publish_leaf_of_ne hl hc)
          (m := m.store (.leaf b a) (.slot c i)) (by simp [Mem.load_store_self])
        simpa [Mem.load_store_self] using this
    · obtain ⟨p, τ, hp, hpa⟩ := h.parent a (by simpa [Layout.publish, hal] using ha)
      have hne : p ≠ ptr := by rintro rfl; simp [hv.load_null] at hpa
      exact ⟨p, τ, hp.mono hext, by rwa [Mem.load_store_ne _ _ hne]⟩
  tail a i ha hi := by
    have ha' : L a = none := by
      by_contra hne
      obtain ⟨o, ho⟩ := Option.ne_none_iff_exists'.mp hne
      rw [publish_leaf_of_ne hl ho] at ha
      cases ha
    have hne : Ptr.slot a i ≠ ptr := by
      rintro rfl
      exact hv.hasSlot ha'
    rw [Mem.load_store_ne _ _ hne]
    exact h.tail a i ha' hi

end leaf

theorem Layout.publish_of_not_mem {ps : List (Addr × Obj)} {a : Addr} (h : a ∉ ps.map Prod.fst) :
    L.publish ps a = L a := by
  induction ps with
  | nil => rfl
  | cons p ps ih =>
    simp only [List.map_cons, List.mem_cons, not_or] at h
    simpa [Layout.publish, h.1] using ih h.2

theorem Layout.publish_of_mem {ps : List (Addr × Obj)} {a : Addr} {o : Obj}
    (hnd : (ps.map Prod.fst).Nodup) (h : (a, o) ∈ ps) : L.publish ps a = some o := by
  induction ps with
  | nil => simp at h
  | cons p ps ih =>
    simp only [List.map_cons, List.nodup_cons] at hnd
    rcases List.mem_cons.mp h with rfl | h
    · simp [Layout.publish]
    · have hne : a ≠ p.1 := by
        rintro rfl
        exact hnd.1 (List.mem_map.mpr ⟨_, h, rfl⟩)
      simpa [Layout.publish, hne] using ih hnd.2 h

/-- Everything that holds when a chain of nodes is about to be put between a slot and what
the slot refers to. -/
structure Graft (L : Layout) (m : Mem n) (ptr : Ptr) (σ : List UInt8) (k : Key n) (diff : UInt8)
    (len : ℕ) (l : Addr) (pages : List (Addr × Page)) : Prop where
  chain : Chain k diff (m.load ptr) l (σ.length + 1) len pages
  slot : SlotPath L m ptr σ
  full : m.load ptr ≠ .null
  key : σ <+: k.bytes
  fits : σ.length + 1 + len ≤ n
  old : EntryOk L m (k.bytes.take (σ.length + len) ++ [diff]) (m.load ptr)
  differs : diff ≠ k.byte (σ.length + 1 + len)
  fresh : ∀ a ∈ l :: pages.map Prod.fst, L a = none ∧ m.live a = true
  nodup : (l :: pages.map Prod.fst).Nodup
  written : ∀ q ∈ pages, (m.node q.1).hdr = q.2.hdr ∧ (m.node q.1).slots = q.2.slots
  leaf : (m.leaf l).key = k ∧ (m.leaf l).valid = true

def grafted (k : Key n) (l : Addr) (pages : List (Addr × Page)) : List (Addr × Obj) :=
  (l, .leaf) :: pages.map fun q => (q.1, .node (cachePath k q.2.hdr))

namespace Graft
variable {k : Key n} {diff : UInt8} {len : ℕ} {l : Addr} {pages : List (Addr × Page)}

theorem map_fst : (grafted k l pages).map Prod.fst = l :: pages.map Prod.fst := by
  simp [grafted, Function.comp_def]

variable (g : Graft L m ptr σ k diff len l pages)
include g

theorem layout_old {a : Addr} {o : Obj} (ha : L a = some o) :
    L.publish (grafted k l pages) a = some o := by
  rw [Layout.publish_of_not_mem, ha]
  rw [map_fst]
  intro hm
  rw [(g.fresh a hm).1] at ha
  cases ha

theorem layout_leaf : L.publish (grafted k l pages) l = some .leaf :=
  Layout.publish_of_mem (map_fst ▸ g.nodup) List.mem_cons_self

theorem layout_page {q : Addr × Page} (hq : q ∈ pages) :
    L.publish (grafted k l pages) q.1 = some (.node (cachePath k q.2.hdr)) :=
  Layout.publish_of_mem (map_fst ▸ g.nodup)
    (List.mem_cons_of_mem _ (List.mem_map.mpr ⟨q, hq, rfl⟩))

theorem page_fresh {q : Addr × Page} (hq : q ∈ pages) : L q.1 = none :=
  (g.fresh q.1 (List.mem_cons_of_mem _ (List.mem_map_of_mem hq))).1

theorem leaf_fresh : L l = none := (g.fresh l List.mem_cons_self).1

theorem layout_cases {a : Addr} {o : Obj} (ha : L.publish (grafted k l pages) a = some o) :
    L a = some o ∨ (a = l ∧ o = .leaf) ∨
      ∃ q ∈ pages, a = q.1 ∧ o = .node (cachePath k q.2.hdr) := by
  by_cases hm : a ∈ l :: pages.map Prod.fst
  · rcases List.mem_cons.mp hm with rfl | hm
    · rw [g.layout_leaf] at ha
      exact .inr (.inl ⟨rfl, (Option.some.inj ha).symm⟩)
    · obtain ⟨q, hq, rfl⟩ := List.mem_map.mp hm
      rw [g.layout_page hq] at ha
      exact .inr (.inr ⟨q, hq, rfl, (Option.some.inj ha).symm⟩)
  · rw [Layout.publish_of_not_mem (by rwa [map_fst])] at ha
    exact .inl ha

/-- Where the path of a page ends: inside the key, not above the split. -/
theorem page_length {q : Addr × Page} (hq : q ∈ pages) :
    σ.length ≤ (cachePath k q.2.hdr).length := by
  obtain ⟨d, j, hd, hj, hh, -⟩ := g.chain.page hq
  have := g.fits
  rw [hh, cachePath_eq, List.length_take, k.length_bytes]
  omega

theorem page_ne {q : Addr × Page} (hq : q ∈ pages) (i : ℕ) : Ptr.slot q.1 i ≠ ptr := by
  rintro rfl
  exact g.slot.hasSlot (g.page_fresh hq)

theorem load_page {q : Addr × Page} (hq : q ∈ pages) (e : Entry) (i : ℕ) :
    (m.store e ptr).load (.slot q.1 i) = q.2.slots i := by
  rw [Mem.load_store_ne _ _ (g.page_ne hq i), ← (g.written q hq).2]
  rfl

theorem head_mem : ∃ q ∈ pages, (pages.map Prod.fst).headD 0 = q.1 ∧
    q.2.hdr.depth = σ.length + 1 := by
  cases hp : pages with
  | nil => exact absurd hp g.chain.ne_nil
  | cons q rest => exact ⟨q, by simp, rfl, g.chain.head_depth (by simp [hp])⟩

theorem slotPath_cases {a : Addr} {b : UInt8} {p : Ptr} {τ : List UInt8}
    (hb : (m.load ptr).partialKey = b)
    (hs : SlotPath (L.publish (grafted k l pages)) (m.store (.node b .node4 a) ptr) p τ) :
    SlotPath L m p τ ∨ ∃ q ∈ pages, ∃ i, p = .slot q.1 i ∧ q.2.slots i ≠ .null ∧
      τ = cachePath k q.2.hdr ++ [(q.2.slots i).partialKey] := by
  cases hs with
  | root => exact .inl .root
  | @slot c i π hc he =>
    rcases g.layout_cases hc with hc' | ⟨-, h⟩ | ⟨q, hq, rfl, h⟩
    · left
      by_cases hp : Ptr.slot c i = ptr
      · subst hp
        rw [Mem.load_store_self, Entry.partialKey_node, ← hb]
        exact .slot hc' g.full
      · rw [Mem.load_store_ne _ _ hp] at he ⊢
        exact .slot hc' he
    · cases h
    · right
      obtain rfl := Obj.node.inj h
      rw [g.load_page hq] at he
      exact ⟨q, hq, i, rfl, he, by rw [g.load_page hq]⟩

section store
variable {a : Addr} {b : UInt8} (ha : (pages.map Prod.fst).headD 0 = a)
  (hb : (m.load ptr).partialKey = b)
include ha hb

theorem toExtends :
    Extends L m (L.publish (grafted k l pages)) (m.store (.node b .node4 a) ptr) where
  layout _ _ := g.layout_old
  root hr := by
    rw [Mem.load_store]
    split
    · simp
    · exact hr
  key _ _ := by simp
  slot c π i hc he := by
    by_cases hp : Ptr.slot c i = ptr
    · subst hp; simp [Mem.load_store_self, hb]
    · rw [Mem.load_store_ne _ _ hp]; exact ⟨he, rfl⟩
  attached c d hpub hat p τ hs hpa := by
    rcases g.slotPath_cases hb hs with hs | ⟨q, hq, i, rfl, -, rfl⟩
    · by_cases hp : p = ptr
      · subst hp
        rw [Mem.load_store_self] at hpa
        obtain ⟨q, hq, hqa, -⟩ := g.head_mem
        cases hpa
        exact absurd (g.page_fresh hq) (by rw [← hqa, ha]; exact hpub)
      · rw [Mem.load_store_ne _ _ hp] at hpa
        exact hat p τ hs hpa
    · rw [g.load_page hq] at hpa
      have hlen := g.page_length hq
      rcases g.chain.target hq hpa with ht | ht | rfl
      · obtain ⟨q', hq', rfl⟩ := List.mem_map.mp (List.mem_of_mem_tail ht)
        exact absurd (g.page_fresh hq') hpub
      · have := hat ptr σ g.slot ht
        simp only [List.length_append, List.length_singleton]
        omega
      · exact absurd g.leaf_fresh hpub

theorem node_page {q : Addr × Page} (hq : q ∈ pages) :
    NodeOk (L.publish (grafted k l pages)) (m.store (.node b .node4 a) ptr) q.1
      (cachePath k q.2.hdr) := by
  have hext := g.toExtends ha hb
  have hfits := g.fits
  obtain ⟨d, j, hd, hj, hh, hspec⟩ := g.chain.page hq
  have hpath : cachePath k q.2.hdr = k.bytes.take (d - 1 + j) := by rw [hh, cachePath_eq]
  have hsucc : k.bytes.take (d - 1 + j) ++ [k.byte (d + j)] = k.bytes.take (d + j) := by
    rw [Key.take_succ (d := d + j) (by omega) (by omega), show d + j - 1 = d - 1 + j by omega]
  have hhdr : HdrPath (cachePath k q.2.hdr) q.2.hdr := by
    rw [hpath, hh]
    exact hdrPath_of_cut (by omega) (by omega)
  have hkey : ((m.store (.node b .node4 a) ptr).leaf l).key = k := by simpa using g.leaf.1
  refine ⟨?_, ?_, ?_, ?_, ?_, ?_, ?_, ?_⟩
  · rw [hpath, List.length_take, k.length_bytes]; omega
  · rw [Mem.store_hdr, (g.written q hq).1]; exact hhdr
  · rw [Mem.store_hdr, (g.written q hq).1, hh]; simp
  · rw [g.load_page hq]
    cases hspec with
    | link q' _ _ hs => simp [hs]
    | last _ hs => simp [hs, g.full]
  · intro x y hxy
    simp only [g.load_page hq]
    cases hspec with
    | link q' _ _ hs => intro hy; simp [hs, show y ≠ 0 by omega] at hy
    | last _ hs =>
      intro hy
      by_cases hy1 : y = 1
      · simp [hs, show x = 0 by omega, g.full]
      · simp [hs, hy1, show y ≠ 0 by omega] at hy
  · intro x y
    simp only [g.load_page hq]
    cases hspec with
    | link q' _ _ hs =>
      intro hx hy _
      have hx0 : x = 0 := by by_contra h0; simp [hs, h0] at hx
      have hy0 : y = 0 := by by_contra h0; simp [hs, h0] at hy
      exact hx0.trans hy0.symm
    | last hstop hs =>
      have hcase : ∀ {x}, q.2.slots x ≠ .null → x = 0 ∧ (q.2.slots x).partialKey = diff ∨
          x = 1 ∧ (q.2.slots x).partialKey = k.byte (d + j) := by
        intro x hx
        by_cases h0 : x = 0
        · subst h0; exact .inl ⟨rfl, by simp [hs, Entry.partialKey_withPartial g.full]⟩
        · by_cases h1 : x = 1
          · subst h1; exact .inr ⟨rfl, by simp [hs]⟩
          · simp [hs, h0, h1] at hx
      intro hx hy hxy
      have hne := g.differs
      rw [← hstop] at hne
      rcases hcase hx with ⟨hx0, hxk⟩ | ⟨hx0, hxk⟩ <;> rcases hcase hy with ⟨hy0, hyk⟩ | ⟨hy0, hyk⟩
      · exact hx0.trans hy0.symm
      · exact absurd (hxk.symm.trans (hxy.trans hyk)) hne
      · exact absurd (hyk.symm.trans (hxy.symm.trans hxk)) hne
      · exact hx0.trans hy0.symm
  · intro x hx
    rw [g.load_page hq] at hx
    by_contra hlt
    exact hx (g.chain.slots_null hq (by omega))
  · intro x hx
    rw [g.load_page hq] at hx ⊢
    cases hspec with
    | link q' hq' hd' hs =>
      obtain rfl : x = 0 := by by_contra h0; simp [hs, h0] at hx
      simp only [hs, if_true, Entry.partialKey_node]
      refine .node (g.layout_page (List.mem_of_mem_tail hq')) ?_
      obtain ⟨d', j', _, _, hh', -⟩ := g.chain.page (List.mem_of_mem_tail hq')
      have hdd : d' = d + j + 1 := by rw [← hd', hh']
      rw [hpath, hsucc, hh', cachePath_eq, hdd, Nat.add_sub_cancel]
      exact (List.take_prefix_take_left (by omega))
    | last hstop hs =>
      by_cases h0 : x = 0
      · subst h0
        simp only [hs, if_true, Entry.partialKey_withPartial g.full]
        have hold := g.old.mono hext
        rw [hpath, show d - 1 + j = σ.length + len by omega]
        cases hm : m.load ptr with
        | null => exact absurd hm g.full
        | leaf b' x => rw [hm] at hold; cases hold with | leaf hl hk => exact .leaf hl hk
        | node b' t x => rw [hm] at hold; cases hold with | node hn hp => exact .node hn hp
      · obtain rfl : x = 1 := by by_contra h1; simp [hs, h0, h1] at hx
        simp only [hs, if_true, if_neg h0, Entry.partialKey_leaf]
        refine .leaf g.layout_leaf ?_
        rw [hkey, hpath, hsucc]
        exact List.take_prefix _ _

omit hb in
/-- The slot now refers to the first new node, which starts right below it. -/
theorem entry_head : EntryOk (L.publish (grafted k l pages)) (m.store (.node b .node4 a) ptr) σ
    (.node b .node4 a) := by
  obtain ⟨q, hq, hqa, hd⟩ := g.head_mem
  obtain ⟨d, j, _, _, hh, -⟩ := g.chain.page hq
  rw [ha] at hqa
  subst hqa
  refine .node (g.layout_page hq) ?_
  rw [hh] at hd
  rw [hh, cachePath_eq, List.prefix_iff_eq_take.mp g.key]
  exact List.take_prefix_take_left (by simp only at hd; omega)

theorem node_old (h : TreeInv L m) {c : Addr} (hc : L c = some (.node π)) :
    NodeOk (L.publish (grafted k l pages)) (m.store (.node b .node4 a) ptr) c π := by
  have hext := g.toExtends ha hb
  have hn := h.node c π hc
  have hnull : ∀ i, (m.store (.node b .node4 a) ptr).load (.slot c i) = .null ↔
      m.load (.slot c i) = .null := by
    intro i
    by_cases hp : Ptr.slot c i = ptr
    · subst hp; simp [Mem.load_store_self, g.full]
    · rw [Mem.load_store_ne _ _ hp]
  have hkey : ∀ i, ((m.store (.node b .node4 a) ptr).load (.slot c i)).partialKey =
      (m.load (.slot c i)).partialKey := by
    intro i
    by_cases hp : Ptr.slot c i = ptr
    · subst hp; simp [Mem.load_store_self, hb]
    · rw [Mem.load_store_ne _ _ hp]
  refine ⟨hn.short, by simpa using hn.hdr, by simpa using hn.type, ?_, ?_, ?_, ?_, ?_⟩
  · simpa only [ne_eq, hnull] using hn.first
  · simpa only [ne_eq, hnull] using hn.filled
  · simpa only [ne_eq, hnull, hkey] using hn.distinct
  · simpa only [ne_eq, hnull] using hn.bound
  · intro i hi
    rw [ne_eq, hnull] at hi
    rw [hkey]
    by_cases hp : Ptr.slot c i = ptr
    · subst hp
      rw [Mem.load_store_self, (SlotPath.slot hc hi).unique g.slot]
      exact g.entry_head ha
    · rw [Mem.load_store_ne _ _ hp]
      exact (hn.entry i hi).mono hext

theorem unique (h : TreeInv L m) {p q : Ptr} {τ ρ : List UInt8} {x : Addr}
    (hp : SlotPath (L.publish (grafted k l pages)) (m.store (.node b .node4 a) ptr) p τ)
    (hq : SlotPath (L.publish (grafted k l pages)) (m.store (.node b .node4 a) ptr) q ρ)
    (hpx : ((m.store (.node b .node4 a) ptr).load p).addr? = some x)
    (hqx : ((m.store (.node b .node4 a) ptr).load q).addr? = some x) : p = q := by
  obtain ⟨q₀, hq₀, hqa, -⟩ := g.head_mem
  rw [ha] at hqa
  have hnd := g.nodup
  rw [List.nodup_cons] at hnd
  -- the displaced object was referred to from the slot alone, and is not new
  have hold : ∀ y, (m.load ptr).addr? = some y → y ∉ l :: pages.map Prod.fst := fun y hy hm =>
    (h.entry g.slot).addr_published hy (g.fresh y hm).1
  have hother : ∀ {p τ}, p ≠ ptr → SlotPath L m p τ →
      ((m.store (.node b .node4 a) ptr).load p).addr? = some x →
        x ∉ l :: pages.map Prod.fst ∧ (m.load ptr).addr? ≠ some x := by
    intro p τ hne hs hx
    rw [Mem.load_store_ne _ _ hne] at hx
    exact ⟨fun hm => (h.entry hs).addr_published hx (g.fresh x hm).1,
      fun hy => hne (h.unique p ptr τ σ x hs g.slot hx hy)⟩
  have hnew : ∀ {r : Addr × Page} {i}, r ∈ pages →
      ((m.store (.node b .node4 a) ptr).load (.slot r.1 i)).addr? = some x →
        (x ∈ l :: pages.map Prod.fst ∨ (m.load ptr).addr? = some x) ∧ x ≠ a := by
    intro r i hr hx
    rw [g.load_page hr] at hx
    rcases g.chain.target hr hx with ht | ht | rfl
    · refine ⟨.inl (List.mem_cons_of_mem _ (List.mem_of_mem_tail ht)), ?_⟩
      rintro rfl
      rw [← ha] at ht
      have hcons := hnd.2
      cases hpg : pages.map Prod.fst with
      | nil => simp [hpg] at ht
      | cons y ys =>
        rw [hpg, List.nodup_cons] at hcons
        simp only [hpg, List.tail_cons, List.headD_cons] at ht
        exact hcons.1 ht
    · refine ⟨.inr ht, ?_⟩
      rintro rfl
      exact hold _ ht (List.mem_cons_of_mem _ (hqa ▸ List.mem_map_of_mem hq₀))
    · refine ⟨.inl List.mem_cons_self, ?_⟩
      rintro rfl
      exact hnd.1 (hqa ▸ List.mem_map_of_mem hq₀)
  have hhead : ∀ {p : Ptr}, p = ptr →
      ((m.store (.node b .node4 a) ptr).load p).addr? = some x → x = a := by
    rintro p rfl hx
    rw [Mem.load_store_self] at hx
    simpa [eq_comm] using hx
  have ham : a ∈ l :: pages.map Prod.fst :=
    List.mem_cons_of_mem _ (hqa ▸ List.mem_map_of_mem hq₀)
  rcases g.slotPath_cases hb hp with hp' | ⟨r, hr, i, rfl, -, -⟩ <;>
    rcases g.slotPath_cases hb hq with hq' | ⟨r', hr', i', rfl, -, -⟩
  · by_cases hpp : p = ptr <;> by_cases hqp : q = ptr
    · exact hpp.trans hqp.symm
    · exact absurd (hhead hpp hpx ▸ ham) (hother hqp hq' hqx).1
    · exact absurd (hhead hqp hqx ▸ ham) (hother hpp hp' hpx).1
    · rw [Mem.load_store_ne _ _ hpp] at hpx
      rw [Mem.load_store_ne _ _ hqp] at hqx
      exact h.unique p q τ ρ x hp' hq' hpx hqx
  · by_cases hpp : p = ptr
    · exact absurd (hhead hpp hpx) (hnew hr' hqx).2
    · obtain ⟨h1, h2⟩ := hother hpp hp' hpx
      exact ((hnew hr' hqx).1.elim h1 h2).elim
  · by_cases hqp : q = ptr
    · exact absurd (hhead hqp hqx) (hnew hr hpx).2
    · obtain ⟨h1, h2⟩ := hother hqp hq' hqx
      exact ((hnew hr hpx).1.elim h1 h2).elim
  · rw [g.load_page hr] at hpx
    rw [g.load_page hr'] at hqx
    obtain ⟨h1, rfl⟩ := g.chain.unique hnd.2 hnd.1
      (fun y hy => by simpa [not_or, and_comm] using hold y hy) hr hr' hpx hqx
    rw [h1]

theorem attached_page (h : TreeInv L m) {q : Addr × Page} (hq : q ∈ pages) :
    Attached (L.publish (grafted k l pages)) (m.store (.node b .node4 a) ptr) q.1
      q.2.hdr.depth := by
  intro p τ hs hpa
  have hnd := g.nodup
  rw [List.nodup_cons] at hnd
  rcases g.slotPath_cases hb hs with hs' | ⟨r, hr, i, rfl, -, rfl⟩
  · by_cases hp : p = ptr
    · subst hp
      obtain ⟨q₀, hq₀, hqa, hd⟩ := g.head_mem
      rw [Mem.load_store_self] at hpa
      have haq : q₀.1 = q.1 := by rw [← hqa, ha]; simpa using hpa
      have hh : q₀.2.hdr = q.2.hdr := by rw [← (g.written q₀ hq₀).1, haq, (g.written q hq).1]
      rw [← hh, hd, hs'.unique g.slot]
    · rw [Mem.load_store_ne _ _ hp] at hpa
      exact absurd (g.page_fresh hq) ((h.entry hs').addr_published hpa)
  · rw [g.load_page hr] at hpa
    obtain ⟨d, j, hd, hj, hh, hspec⟩ := g.chain.page hr
    cases hspec with
    | link q' hq' hd' hsl =>
      have hi : i = 0 := by by_contra h0; simp [hsl, h0] at hpa
      have hqq : q'.1 = q.1 := by simpa [hsl, hi] using hpa
      have hhq : q'.2.hdr = q.2.hdr := by
        rw [← (g.written q' (List.mem_of_mem_tail hq')).1, hqq, (g.written q hq).1]
      have := g.fits
      rw [← hhq, hd', hh, cachePath_eq, List.length_append, List.length_take, k.length_bytes,
        List.length_singleton]
      omega
    | last _ hsl =>
      by_cases h0 : i = 0
      · have ht : (m.load ptr).addr? = some q.1 := by simpa [hsl, h0] using hpa
        exact absurd (g.page_fresh hq) ((h.entry g.slot).addr_published ht)
      · have hi1 : i = 1 := by by_contra h1; simp [hsl, h0, h1] at hpa
        have hlq : l = q.1 := by simpa [hsl, hi1] using hpa
        exact absurd (List.mem_map_of_mem hq) (hlq ▸ hnd.1)

theorem attached_old (h : TreeInv L m) {x : Addr} (hx : (m.load ptr).addr? = some x) :
    Attached (L.publish (grafted k l pages)) (m.store (.node b .node4 a) ptr) x
      (σ.length + len + 2) := by
  have hxn : x ∉ l :: pages.map Prod.fst := fun hm =>
    (h.entry g.slot).addr_published hx (g.fresh x hm).1
  intro p τ hs hpa
  rcases g.slotPath_cases hb hs with hs' | ⟨r, hr, i, rfl, -, rfl⟩
  · exfalso
    by_cases hp : p = ptr
    · subst hp
      obtain ⟨q, hq, hqa, -⟩ := g.head_mem
      rw [Mem.load_store_self] at hpa
      cases hpa
      exact hxn (List.mem_cons_of_mem _ (ha ▸ hqa ▸ List.mem_map_of_mem hq))
    · rw [Mem.load_store_ne _ _ hp] at hpa
      exact hp (h.unique p ptr τ σ x hs' g.slot hpa hx)
  · rw [g.load_page hr] at hpa
    obtain ⟨d, j, hd, hj, hh, hspec⟩ := g.chain.page hr
    have := g.fits
    cases hspec with
    | link q' hq' _ hsl =>
      have hi : i = 0 := by by_contra h0; simp [hsl, h0] at hpa
      have hqx : q'.1 = x := by simpa [hsl, hi] using hpa
      exact absurd (List.mem_cons_of_mem _ (hqx ▸ List.mem_map_of_mem (List.mem_of_mem_tail hq')))
        hxn
    | last hstop _ =>
      rw [hh, cachePath_eq, List.length_append, List.length_take, k.length_bytes,
        List.length_singleton]
      omega

omit ha hb in
theorem slotPath_page {q : Addr × Page} (hq : q ∈ pages) {i : ℕ} {x : Addr}
    (hx : (q.2.slots i).addr? = some x) :
    ∃ τ, SlotPath (L.publish (grafted k l pages)) (m.store (.node b .node4 a) ptr)
      (.slot q.1 i) τ := by
  refine ⟨_, .slot (g.layout_page hq) ?_⟩
  rw [g.load_page hq]
  intro hn
  simp [hn] at hx

theorem treeInv (h : TreeInv L m) :
    TreeInv (L.publish (grafted k l pages)) (m.store (.node b .node4 a) ptr) where
  live x hx := by
    rw [Mem.store_live]
    by_cases hm : x ∈ l :: pages.map Prod.fst
    · exact (g.fresh x hm).2
    · rw [Layout.publish_of_not_mem (by rwa [map_fst])] at hx
      exact h.live x hx
  root := by
    change EntryOk _ _ [] ((m.store (.node b .node4 a) ptr).load .root)
    by_cases hp : Ptr.root = ptr
    · have hσ : σ = [] := by have hs := g.slot; subst hp; cases hs; rfl
      rw [hp, Mem.load_store_self, ← hσ]
      exact g.entry_head ha
    · rw [Mem.load_store_ne _ _ hp]
      exact h.root.mono (g.toExtends ha hb)
  node x π hx := by
    rcases g.layout_cases hx with hx' | ⟨-, hx'⟩ | ⟨q, hq, rfl, hx'⟩
    · exact g.node_old ha hb h hx'
    · cases hx'
    · cases hx'
      exact g.node_page ha hb hq
  attached x π hx := by
    rw [Mem.store_hdr]
    rcases g.layout_cases hx with hx' | ⟨-, hx'⟩ | ⟨q, hq, rfl, -⟩
    · exact (g.toExtends ha hb).attached _ _ (by simp [hx']) (h.attached x π hx')
    · cases hx'
    · rw [(g.written q hq).1]
      exact g.attached_page ha hb h hq
  valid x hx := by
    rw [Mem.store_leaf]
    rcases g.layout_cases hx with hx' | ⟨rfl, -⟩ | ⟨q, hq, rfl, hx'⟩
    · exact h.valid x hx'
    · exact g.leaf.2
    · cases hx'
  unique _ _ _ _ _ hp hq hpx hqx := g.unique ha hb h hp hq hpx hqx
  parent x hx := by
    have hsource : ∀ t, t ∈ (pages.map Prod.fst).tail ∨ (m.load ptr).addr? = some t ∨ t = l →
        ∃ p τ, SlotPath (L.publish (grafted k l pages)) (m.store (.node b .node4 a) ptr) p τ ∧
          ((m.store (.node b .node4 a) ptr).load p).addr? = some t := by
      intro t ht
      obtain ⟨q, hq, i, hi⟩ := g.chain.source ht
      obtain ⟨τ, hτ⟩ := g.slotPath_page hq hi
      exact ⟨_, τ, hτ, by rwa [g.load_page hq]⟩
    obtain ⟨o, ho⟩ := Option.ne_none_iff_exists'.mp hx
    rcases g.layout_cases ho with hx' | ⟨rfl, -⟩ | ⟨q, hq, rfl, -⟩
    · obtain ⟨p, τ, hp, hpx⟩ := h.parent x (by simp [hx'])
      by_cases hpp : p = ptr
      · exact hsource x (.inr (.inl (hpp ▸ hpx)))
      · exact ⟨p, τ, hp.mono (g.toExtends ha hb), by rwa [Mem.load_store_ne _ _ hpp]⟩
    · exact hsource x (.inr (.inr rfl))
    · by_cases hqa : q.1 = a
      · exact ⟨ptr, σ, g.slot.mono (g.toExtends ha hb), by rw [Mem.load_store_self]; simp [hqa]⟩
      · refine hsource q.1 (.inl ?_)
        have hm : q.1 ∈ pages.map Prod.fst := List.mem_map_of_mem hq
        cases hpg : pages.map Prod.fst with
        | nil => simp [hpg] at hm
        | cons y ys =>
          rw [hpg] at hm ha
          rcases List.mem_cons.mp hm with rfl | hm
          · exact absurd ha hqa
          · exact hm
  tail x i hx hi := by
    have hm : x ∉ l :: pages.map Prod.fst := by
      intro hm
      rcases List.mem_cons.mp hm with rfl | hm
      · rw [g.layout_leaf] at hx; cases hx
      · obtain ⟨q, hq, rfl⟩ := List.mem_map.mp hm
        rw [g.layout_page hq] at hx; cases hx
    rw [Layout.publish_of_not_mem (by rwa [map_fst])] at hx
    have hne : Ptr.slot x i ≠ ptr := by
      rintro rfl
      exact g.slot.hasSlot hx
    rw [Mem.load_store_ne _ _ hne]
    exact h.tail x i hx hi

end store
end Graft
end SmartTree
