import SmartTree.Tree.Outcome

/-! The steps that write blocks of the client's own, publish them, or give them back. -/
namespace SmartTree
variable {n : ℕ} {L : Layout} {m m' : Mem n} {c c' : Client n} {crc : Key n → Value → UInt64}

/-- A step that only writes, takes or gives back unpublished blocks. -/
theorem Outcome.own (ht : TreeInv L m) (hs : SameSlots L m m')
    (hh : ∀ a, L a ≠ none → (m'.node a).hdr = (m.node a).hdr)
    (hf : ∀ a, L a = none → m.live a = true → a ∉ c.owned → SameAt m m' a)
    (hc : Local L m' c') (ho : ∀ a ∈ c'.owned, a ∈ c.owned ∨ m.live a = false) :
    Outcome L m c { mem := m', client := c' } where
  tree := hs.treeInv_of_hdr ht hh
  ext := hs.toExtends
  client := hc
  log := by simp
  frame a ha hl hn := ⟨hf a ha hl hn, ha⟩
  owned := ho

section alloc
variable {s : List Addr}

theorem SameSlots.alloc (ht : TreeInv L m) : SameSlots L m (m.alloc s) :=
  ⟨fun _ _ => by simpa using .refl _, fun _ _ => rfl, fun _ _ => rfl,
    fun a ha => (m.alloc_live_of_live (ht.live a ha)).trans (ht.live a ha).symm,
    fun _ _ _ _ => rfl⟩

theorem SameAt.alloc {a : Addr} (h : m.live a = true) : SameAt m (m.alloc s) a :=
  ⟨rfl, rfl, rfl, rfl, (m.alloc_live_of_live h).trans h.symm⟩

theorem TreeInv.unpublished (ht : TreeInv L m) {a : Addr} (h : m.live a = false) : L a = none := by
  by_contra hne
  rw [ht.live a hne] at h
  cases h

end alloc

theorem leafWrite_outcome (ht : TreeInv L m) (h : Local L m c) {site : Site} {a : Addr}
    (hpc : c.pc = .leafWrite site) (ha : m.live a = false) :
    Outcome L m c
      { mem := (m.alloc [a]).setLeaf a fun _ => .make crc c.key c.value (c.sitePtr c.target site)
        client := { c with leafAddr := some a, pc := .leafCas site } } := by
  have hk := h.knows
  simp only [Client.Knows, hpc] at hk
  have hL := ht.unpublished ha
  have hne : ∀ {x}, L x ≠ none → x ≠ a := by rintro x hx rfl; exact hx hL
  have hs : SameSlots L m ((m.alloc [a]).setLeaf a fun _ =>
      .make crc c.key c.value (c.sitePtr c.target site)) :=
    ⟨fun _ _ => by simpa using .refl _, fun x hx => by rw [Mem.setLeaf_ne _ _ (hne hx)]; rfl,
      fun x hx => by rw [Mem.setLeaf_ne _ _ (hne hx)]; rfl, (SameSlots.alloc ht).live,
      fun _ _ _ _ => rfl⟩
  refine .own ht hs (fun _ _ => rfl) ?_ ⟨?_, ?_, ?_, ?_, ?_⟩ ?_
  · intro x _ hlive _
    have hxa : x ≠ a := by rintro rfl; rw [ha] at hlive; cases hlive
    have hsame := SameAt.alloc (s := [a]) hlive
    exact ⟨rfl, rfl, by rw [Mem.setLeaf_ne _ _ hxa]; rfl, by rw [Mem.setLeaf_ne _ _ hxa]; rfl,
      hsame.live⟩
  · exact (hk.mono hs.toExtends).congr ⟨rfl, rfl, rfl, rfl, rfl, rfl⟩
  · intro l hl
    cases hl
    rw [Mem.setLeaf_self]
    exact ⟨rfl, rfl⟩
  · exact fun op hop => (h.ops op hop).mono hs.toExtends
  · intro x hx
    obtain rfl : x = a := by simpa [Client.owned, Client.leafOwned, Client.nodesOwned] using hx
    exact ⟨hL, m.alloc_live_of_mem (by simp)⟩
  · simp [Client.owned, Client.leafOwned, Client.nodesOwned]
  · intro x hx
    obtain rfl : x = a := by simpa [Client.owned, Client.leafOwned, Client.nodesOwned] using hx
    exact .inr ha

section split
variable {sp : Split} {nodes : List Addr}

theorem splitReuse_outcome (ht : TreeInv L m) (h : Local L m c) {l : Addr}
    (hpc : c.pc = .splitPrepare sp) (hl : c.leafAddr = some l)
    (hlen : nodes.length = sp.partialLen / (hPartialLenMax + 1) + 1) (hnd : nodes.Nodup)
    (hfree : ∀ a ∈ nodes, m.live a = false) :
    Outcome L m c
      { mem := m.alloc nodes
        client := { c with
          pending := c.pending ++ [.writeRev l (.slot (nodes.getLastD 0) 1)]
          pc := .splitWrite sp nodes false } } := by
  have hk := h.knows
  simp only [Client.Knows, hpc] at hk
  have hs := SameSlots.alloc (s := nodes) ht
  have howned : c.owned = [l] := by
    simp [Client.owned, Client.leafOwned, Client.nodesOwned, hpc, hl]
  have hl' := h.fresh l (by simp [howned])
  have hnew : ∀ a ∈ nodes, L a = none := fun a ha => ht.unpublished (hfree a ha)
  refine .own ht hs (fun _ _ => rfl) (fun a _ hlive _ => .alloc hlive) ⟨?_, ?_, ?_, ?_, ?_⟩ ?_
  · exact ⟨⟨hlen, l, hl⟩, hk.imp fun _ hsp => (hsp.mono hs.toExtends).congr ⟨rfl, rfl, rfl, rfl, rfl, rfl⟩⟩
  · intro x hx
    have hkept := h.kept
    simp only [Client.LeafKept, hpc] at hkept
    exact hkept x (by simpa [Client.leafOwned, hpc] using hx)
  · intro op hop
    rcases List.mem_append.mp hop with hop | hop
    · exact (h.ops op hop).mono hs.toExtends
    · obtain rfl := List.mem_singleton.mp hop
      trivial
  · intro a ha
    simp only [Client.owned, Client.leafOwned, Client.nodesOwned, hl, Option.toList_some,
      List.singleton_append, List.mem_cons] at ha
    rcases ha with rfl | ha
    · exact ⟨hl'.1, m.alloc_live_of_live hl'.2⟩
    · exact ⟨hnew a ha, m.alloc_live_of_mem ha⟩
  · simp only [Client.owned, Client.leafOwned, Client.nodesOwned, hl, Option.toList_some,
      List.singleton_append, List.nodup_cons]
    refine ⟨fun hm => ?_, hnd⟩
    rw [hfree l hm] at hl'
    cases hl'.2
  · intro a ha
    simp only [Client.owned, Client.leafOwned, Client.nodesOwned, hl, Option.toList_some,
      List.singleton_append, List.mem_cons] at ha
    rcases ha with rfl | ha
    · exact .inl (by simp [howned])
    · exact .inr (hfree a ha)

theorem splitFresh_outcome (ht : TreeInv L m) (h : Local L m c) {l : Addr} {v : Option Value}
    (hpc : c.pc = .splitPrepare sp)
    (hlen : nodes.length = sp.partialLen / (hPartialLenMax + 1) + 1) (hnd : (l :: nodes).Nodup)
    (hfree : ∀ a ∈ l :: nodes, m.live a = false) :
    Outcome L m c
      { mem := m.alloc (l :: nodes)
        client := { c with
          value := v.getD c.value, leafAddr := some l, pc := .splitWrite sp nodes true } } := by
  have hk := h.knows
  simp only [Client.Knows, hpc] at hk
  have hs := SameSlots.alloc (s := l :: nodes) ht
  have howned : Client.owned { c with
      value := v.getD c.value, leafAddr := some l, pc := .splitWrite sp nodes true } = l :: nodes :=
    rfl
  refine .own ht hs (fun _ _ => rfl) (fun a _ hlive _ => .alloc hlive) ⟨?_, trivial, ?_, ?_, ?_⟩ ?_
  · exact ⟨⟨hlen, l, rfl⟩, hk.imp fun _ hsp => (hsp.mono hs.toExtends).congr ⟨rfl, rfl, rfl, rfl, rfl, rfl⟩⟩
  · exact fun op hop => (h.ops op hop).mono hs.toExtends
  · intro a ha
    rw [howned] at ha
    exact ⟨ht.unpublished (hfree a ha), m.alloc_live_of_mem ha⟩
  · rwa [howned]
  · intro a ha
    rw [howned] at ha
    exact .inr (hfree a ha)

/-- The batch leaves every new page as it was laid out, and the leaf written. -/
theorem splitWrite_outcome (ht : TreeInv L m) (h : Local L m c) {unwrite : Bool}
    {pages : List (Addr × Page)} (hpc : c.pc = .splitWrite sp nodes unwrite)
    (hp : c.pages sp nodes = some pages) :
    Outcome L m c
      { mem := if unwrite then (m.writePages pages).setLeaf (c.leafAddr.getD 0) fun _ =>
          .make crc c.key c.value (.slot (nodes.getLastD 0) 1) else m.writePages pages
        client := { c with pc := .splitCas sp nodes } } := by
  have hk := h.knows
  simp only [Client.Knows, hpc] at hk
  obtain ⟨hn, σ, hsp⟩ := hk
  obtain ⟨l, hl⟩ := hn.leaf
  obtain ⟨pages', hp', hfst, hchain⟩ := hsp.pages hn
  obtain rfl := Option.some.inj (hp'.symm.trans hp)
  have howned : c.owned = l :: nodes := by
    simp [Client.owned, Client.leafOwned, Client.nodesOwned, hpc, hl]
  have hfresh := fun a ha => h.fresh a (howned ▸ ha)
  have hnd := h.nodup
  rw [howned, List.nodup_cons] at hnd
  set m' := if unwrite then (m.writePages pages').setLeaf (c.leafAddr.getD 0) fun _ =>
    .make crc c.key c.value (.slot (nodes.getLastD 0) 1) else m.writePages pages' with hm'
  have hnode : m'.node = (m.writePages pages').node := by rw [hm']; split <;> rfl
  have hroot : m'.root = m.root := by rw [hm']; split <;> simp [Mem.setLeaf]
  have hlive : m'.live = m.live := by rw [hm']; split <;> simp [Mem.setLeaf]
  have hleaf : ∀ {x}, x ≠ l → m'.leaf x = m.leaf x := by
    intro x hx
    rw [hm', hl, Option.getD_some]
    split
    · rw [Mem.setLeaf_ne _ _ hx, Mem.writePages_leaf]
    · rw [Mem.writePages_leaf]
  have hother : ∀ {x}, x ∉ l :: nodes → SameAt m m' x := by
    intro x hx
    obtain ⟨hxl, hxn⟩ := not_or.mp (List.mem_cons.not.mp hx)
    have hx' : m'.node x = m.node x := by rw [hnode, Mem.writePages_node_ne _ (hfst ▸ hxn)]
    exact ⟨by rw [hx'], by rw [hx'], by rw [hleaf hxl], by rw [hleaf hxl], by rw [hlive]⟩
  have hpub : ∀ {x}, L x ≠ none → x ∉ l :: nodes := fun hx hm => hx (hfresh _ hm).1
  -- words behind the part that is written are still null in an unpublished block
  have hw : ∀ q ∈ pages', (m'.node q.1).hdr = q.2.hdr ∧ (m'.node q.1).slots = q.2.slots := by
    intro q hq
    rw [hnode, Mem.writePages_node _ (hfst ▸ hnd.2) hq]
    refine ⟨rfl, funext fun i => ?_⟩
    by_cases hi : i < NodeType.node4.num
    · simp [hi]
    · have h4 : 4 ≤ i := not_lt.mp hi
      have hq1 : L q.1 = none :=
        (hfresh q.1 (List.mem_cons_of_mem _ (hfst ▸ List.mem_map_of_mem hq))).1
      have := ht.tail q.1 i hq1 h4
      simp only [hi, if_false, hchain.slots_null hq (by omega : 2 ≤ i)]
      exact this
  have hs : SameSlots L m m' := by
    refine ⟨fun ptr hptr => ?_, fun x hx => (hother (hpub hx)).key,
      fun x hx => (hother (hpub hx)).valid, fun x hx => (hother (hpub hx)).live, ?_⟩
    · cases ptr with
      | root => simp only [Mem.load, hroot]; exact .refl _
      | slot x i => simp only [Mem.load, (hother (hpub hptr)).slots]; exact .refl _
    · intro x i hx hi
      by_cases hxn : x ∈ nodes
      · obtain ⟨q, hq, rfl⟩ := List.mem_map.mp (hfst ▸ hxn)
        rw [ht.tail q.1 i hx hi, Mem.load, (hw q hq).2, hchain.slots_null hq (by omega)]
      · simp only [Mem.load, hnode, Mem.writePages_node_ne _ (hfst ▸ hxn)]
  refine .own ht hs (fun x hx => (hother (hpub hx)).hdr) ?_ ⟨?_, ?_, ?_, ?_, ?_⟩ ?_
  · exact fun x _ _ hx => hother (howned ▸ hx)
  · exact ⟨⟨⟨hn.length, l, hl⟩, pages', hp, hw⟩, σ,
      (hsp.mono hs.toExtends).congr ⟨rfl, rfl, rfl, rfl, rfl, rfl⟩⟩
  · intro x hx
    obtain rfl : l = x := Option.some.inj (hl.symm.trans hx)
    have hkept := h.kept
    simp only [Client.LeafKept, hpc] at hkept
    cases unwrite with
    | true => rw [hm', if_pos rfl, hl, Option.getD_some, Mem.setLeaf_self]; exact ⟨rfl, rfl⟩
    | false =>
      rw [hm', if_neg (by simp), Mem.writePages_leaf]
      exact hkept l (by simp [Client.leafOwned, hpc, hl])
  · exact fun op hop => (h.ops op hop).mono hs.toExtends
  · intro x hx
    have := h.fresh x (by simpa [Client.owned, Client.leafOwned, Client.nodesOwned, hpc] using hx)
    rwa [hlive]
  · simpa [Client.owned, Client.leafOwned, Client.nodesOwned, hpc] using h.nodup
  · exact fun x hx => .inl (by simpa [Client.owned, Client.leafOwned, Client.nodesOwned, hpc] using hx)

theorem Client.SplitOk.graft {σ : List UInt8} (h : Local L m c) (hpc : c.pc = .splitCas sp nodes)
    (hsp : c.SplitOk L m sp σ) (hp : m.load c.pPtr = c.p) :
    ∃ l pages, c.leafAddr = some l ∧ c.pages sp nodes = some pages ∧ pages.map Prod.fst = nodes ∧
      Graft L m c.pPtr σ c.key sp.diff sp.partialLen l pages := by
  have hk := h.knows
  simp only [Client.Knows, hpc] at hk
  obtain ⟨⟨hn, hw⟩, -⟩ := hk
  obtain ⟨l, hl⟩ := hn.leaf
  obtain ⟨pages, hpg, hfst, hchain⟩ := hsp.pages hn
  obtain ⟨pages', hpg', hw⟩ := hw
  obtain rfl := Option.some.inj (hpg'.symm.trans hpg)
  rw [hl, Option.getD_some] at hchain
  have howned : c.owned = l :: nodes := by
    simp [Client.owned, Client.leafOwned, Client.nodesOwned, hpc, hl]
  have hkept := h.kept
  simp only [Client.LeafKept, hpc] at hkept
  refine ⟨l, pages', hl, hpg, hfst, hp ▸ hchain, hsp.located.slot, hp ▸ hsp.full, hsp.located.key,
    hsp.fits, hp ▸ hsp.old, hsp.differs, ?_, ?_, hw, hkept l (by simp [Client.leafOwned, hpc, hl])⟩
  · rw [hfst, ← howned]; exact h.fresh
  · rw [hfst, ← howned]; exact h.nodup

theorem SameAt.store {e : Entry} {ptr : Ptr} {a : Addr} (hp : HasSlot L ptr) (ha : L a = none) :
    SameAt m (m.store e ptr) a := by
  refine ⟨by simp, ?_, by simp, by simp, by simp⟩
  cases ptr with
  | root => rfl
  | slot x i =>
    have hne : a ≠ x := by rintro rfl; exact hp ha
    rw [Mem.store, Mem.setNode_ne _ _ hne]

theorem Graft.cacheable {ptr : Ptr} {σ : List UInt8} {k : Key n} {diff : UInt8} {len : ℕ}
    {l a : Addr} {b : UInt8} {pages : List (Addr × Page)} (g : Graft L m ptr σ k diff len l pages)
    (ha : (pages.map Prod.fst).headD 0 = a) (hb : (m.load ptr).partialKey = b)
    {q : Addr × Page} (hq : q ∈ pages) : ∀ x ∈ Client.addToCache k q.2 q.1,
      LogOk (L.publish (grafted k l pages)) (m.store (.node b .node4 a) ptr) x := by
  have hn := g.node_page ha hb hq
  obtain ⟨d, j, hd, hj, hh, -⟩ := g.chain.page hq
  have := g.fits
  refine Client.addToCache_logOk (g.layout_page hq) ?_ (List.prefix_append _ _) ?_ (by rw [hh]; dsimp only; omega)
  · have := hn.hdr
    rwa [Mem.store_hdr, (g.written q hq).1] at this
  · intro i _ hne
    rw [← g.load_page hq (.node b .node4 a)] at hne ⊢
    exact ⟨hne, rfl, hn.entry i hne⟩

theorem splitCasDone_outcome (ht : TreeInv L m) (h : Local L m c) (hpc : c.pc = .splitCas sp nodes)
    (hp : m.load c.pPtr = c.p) :
    Outcome L m c
      { mem := m.store (.node c.p.partialKey .node4 (nodes.headD 0)) c.pPtr
        client := { c with pc := .splitRev sp nodes }
        published := (c.leafAddr.getD 0, .leaf) ::
          ((c.pages sp nodes).getD []).map fun q => (q.1, .node (cachePath c.key q.2.hdr)) } := by
  have hk := h.knows
  simp only [Client.Knows, hpc] at hk
  obtain ⟨-, σ, hsp⟩ := hk
  obtain ⟨l, pages, hl, hpg, hfst, g⟩ := hsp.graft h hpc hp
  have hhead : (pages.map Prod.fst).headD 0 = nodes.headD 0 := by rw [hfst]
  have hbyte : (m.load c.pPtr).partialKey = c.p.partialKey := by rw [hp]
  have howned : c.owned = l :: nodes := by
    simp [Client.owned, Client.leafOwned, Client.nodesOwned, hpc, hl]
  have hx := g.toExtends hhead hbyte
  have hpub : (c.leafAddr.getD 0, .leaf) ::
      ((c.pages sp nodes).getD []).map (fun q => (q.1, .node (cachePath c.key q.2.hdr))) =
        grafted c.key l pages := by rw [hl, hpg]; rfl
  rw [hpub]
  refine ⟨g.treeInv hhead hbyte ht, hx, ⟨⟨?_, ?_⟩, ?_, ?_, ?_, ?_⟩, by simp, ?_, ?_⟩
  · intro pages' hpg' q hq
    obtain rfl := Option.some.inj (hpg.symm.trans hpg')
    exact g.cacheable hhead hbyte hq
  · intro i hi
    obtain ⟨a, π, hs, hd⟩ := hsp.hdr i hi
    refine ⟨a, π, (hs.mono hx).congr ⟨rfl, rfl, rfl, rfl, rfl, rfl⟩, ?_⟩
    obtain ⟨b, t, hpe⟩ := hs.entry
    have hat := g.attached_old hhead hbyte ht (x := a) (by rw [hp, hpe]; rfl)
    rwa [show σ.length + sp.partialLen + 2 = c.page.hdr.depth + i + 1 by omega] at hat
  · simp [Client.LeafKept, Client.leafOwned]
  · exact fun op hop => (h.ops op hop).mono hx
  · simp [Client.owned, Client.leafOwned, Client.nodesOwned]
  · simp [Client.owned, Client.leafOwned, Client.nodesOwned]
  · intro a ha _ hn
    refine ⟨.store g.slot.hasSlot ha, ?_⟩
    rwa [Layout.publish_of_not_mem]
    rwa [Graft.map_fst, hfst, ← howned]
  · simp [Client.owned, Client.leafOwned, Client.nodesOwned]

theorem splitCasFailed_outcome (ht : TreeInv L m) (h : Local L m c)
    (hpc : c.pc = .splitCas sp nodes) :
    Outcome L m c
      { mem := m.free nodes, client := { c with p := m.load c.pPtr, pc := .next } } := by
  have hk := h.knows
  simp only [Client.Knows, hpc] at hk
  obtain ⟨⟨hn, -⟩, σ, hsp⟩ := hk
  obtain ⟨l, hl⟩ := hn.leaf
  have howned : c.owned = l :: nodes := by
    simp [Client.owned, Client.leafOwned, Client.nodesOwned, hpc, hl]
  have hfresh := fun a ha => h.fresh a (howned ▸ ha)
  have hnd := h.nodup
  rw [howned, List.nodup_cons] at hnd
  have hs : SameSlots L m (m.free nodes) :=
    ⟨fun _ _ => by simpa using .refl _, fun _ _ => rfl, fun _ _ => rfl,
      fun a ha => m.free_live_of_not_mem fun hm => ha (hfresh a (List.mem_cons_of_mem _ hm)).1,
      fun _ _ _ _ => rfl⟩
  have hfull : m.load c.pPtr ≠ .null := hsp.located.filled hsp.full
  have howned' : Client.owned { c with p := m.load c.pPtr, pc := .next } = [l] := by
    simp [Client.owned, Client.leafOwned, Client.nodesOwned, hl]
  refine .own ht hs (fun _ _ => rfl) ?_ ⟨⟨σ, ?_⟩, ?_, ?_, ?_, ?_⟩ ?_
  · intro a _ _ ha
    rw [howned, List.mem_cons, not_or] at ha
    exact ⟨rfl, rfl, rfl, rfl, m.free_live_of_not_mem ha.2⟩
  · have hloc := hsp.located.mono hs.toExtends
    exact ⟨hloc.slot, hloc.depth, hloc.key, (ht.entry hsp.located.slot).mono hs.toExtends,
      fun hnull => absurd hnull hfull, fun _ => by simpa using hfull⟩
  · intro x hx
    have hkept := h.kept
    simp only [Client.LeafKept, hpc] at hkept
    exact hkept x (by simpa [Client.leafOwned, hpc] using hx)
  · exact fun op hop => (h.ops op hop).mono hs.toExtends
  · intro a ha
    obtain rfl := List.mem_singleton.mp (howned' ▸ ha)
    obtain ⟨h1, h2⟩ := hfresh a List.mem_cons_self
    exact ⟨h1, (m.free_live_of_not_mem hnd.1).trans h2⟩
  · rw [howned']; simp
  · intro a ha
    obtain rfl := List.mem_singleton.mp (howned' ▸ ha)
    exact .inl (by simp [howned])

end split

section publish

/-- The empty slot a leaf is meant for, once the compare-and-swap has found it empty. -/
theorem Client.SiteOk.vacant (ht : TreeInv L m) {site : Site} {b : UInt8} (h : c.SiteOk L m site)
    (hb : c.siteByte site = some b) (hn : m.load (c.sitePtr c.target site) = .null) :
    ∃ σ, Vacant L m b (c.sitePtr c.target site) σ ∧ σ <+: c.key.bytes := by
  have hslot : ∀ {a π i}, c.InNode L m a π → getPartial c.key c.depth = some b →
      m.load (.slot a i) = .null → Tried m a (c.key.byte c.depth) i → i < 256 →
      ∃ σ, Vacant L m b (.slot a i) σ ∧ σ <+: c.key.bytes := by
    intro a π i hi hb hn htr hlt
    obtain rfl := Option.some.inj ((hi.getPartial ht).symm.trans hb)
    refine ⟨_, .slot hi.layout hlt hn htr, ?_⟩
    rw [hi.depth]
    exact Key.append_byte_prefix hi.key (ht.node a π hi.layout).short
  cases h with
  | @null σ hσ hp =>
    rw [Client.sitePtr, (hσ.null hp).1] at hn ⊢
    exact ⟨[], .root hn, List.nil_prefix⟩
  | empty hi _ htr hlt =>
    rw [Client.sitePtr, hi.target] at hn ⊢
    exact hslot hi hb hn htr (hlt.trans_le (NodeType.num_le _))
  | behind hi htr _ hlt =>
    rw [Client.sitePtr, hi.target] at hn ⊢
    exact hslot hi hb hn htr hlt

theorem leafCasDone_knows {site : Site} (h : c.SiteOk L m site) :
    (c.leafCasDone c.target site).Knows L m := by
  cases h with
  | null | empty => trivial
  | @behind a π i hi _ h0 hlt =>
    obtain ⟨t, h1, h2, -⟩ := numToNodeType_spec h0 hlt
    obtain ⟨b, hp⟩ := hi.entry
    rw [Client.leafCasDone, h1, hi.target]
    exact ⟨⟨π, hi.layout⟩, h2, hi.slot, hp ▸ .node hi.layout List.nil_prefix, .null⟩

theorem leafCasDone_pc (a : Addr) (site : Site) : ∃ pc, c.leafCasDone a site = { c with pc := pc } ∧
    (pc = .finish true ∨ pc = .fault ∨ ∃ w, pc = .switchEntry w) := by
  cases site with
  | null | empty => exact ⟨_, rfl, .inl rfl⟩
  | behind i =>
    rw [Client.leafCasDone]
    split
    · exact ⟨_, rfl, .inr (.inl rfl)⟩
    · exact ⟨_, rfl, .inr (.inr ⟨_, rfl⟩)⟩

theorem leafCasDone_outcome (ht : TreeInv L m) (h : Local L m c) {site : Site} {b : UInt8} {l : Addr}
    (hpc : c.pc = .leafCas site) (hb : c.siteByte site = some b) (hl : c.leafAddr = some l)
    (hn : m.load (c.sitePtr c.target site) = .null) :
    Outcome L m c
      { mem := m.store (.leaf b l) (c.sitePtr c.target site)
        client := c.leafCasDone c.target site, published := [(l, .leaf)] } := by
  have hk := h.knows
  have hkept := h.kept
  simp only [Client.Knows, hpc] at hk
  simp only [Client.LeafKept, hpc] at hkept
  have howned : c.owned = [l] := by
    simp [Client.owned, Client.leafOwned, Client.nodesOwned, hpc, hl]
  obtain ⟨hL, hlive⟩ := h.fresh l (by simp [howned])
  obtain ⟨hkey, hvalid⟩ := hkept l (by simp [Client.leafOwned, hpc, hl])
  obtain ⟨σ, hv, hσ⟩ := hk.vacant ht hb hn
  have hx := publishLeaf_extends hv hL
  have hdone := (leafCasDone_knows hk).mono hx fun sp nodes hsp => by
    obtain ⟨pc, he, hpc'⟩ := leafCasDone_pc (c := c) c.target site
    rw [he] at hsp
    rcases hpc' with rfl | rfl | ⟨w, rfl⟩ <;> cases hsp
  obtain ⟨pc, he, hpc'⟩ := leafCasDone_pc (c := c) c.target site
  rw [he] at hdone ⊢
  have hfree : Client.leafOwned { c with pc := pc } = none ∧
      Client.nodesOwned { c with pc := pc } = [] := by
    rcases hpc' with rfl | rfl | ⟨w, rfl⟩ <;> exact ⟨rfl, rfl⟩
  have hempty : Client.owned { c with pc := pc } = [] := by simp [Client.owned, hfree]
  refine ⟨publishLeaf_treeInv ht hv hL (hkey ▸ hσ) hlive hvalid, hx, ⟨?_, ?_, ?_, ?_, ?_⟩, by simp,
    ?_, ?_⟩
  · exact hdone
  · unfold Client.LeafKept
    split
    · trivial
    · simp [hfree.1]
  · exact fun op hop => (h.ops op hop).mono hx
  · simp [hempty]
  · simp [hempty]
  · intro a ha _ hna
    refine ⟨.store hv.hasSlot ha, ?_⟩
    rwa [Layout.publish_of_not_mem]
    simpa [howned] using hna
  · simp [hempty]

end publish

section switch
variable {w : Switch}

theorem EntryOk.nil {σ : List UInt8} {e : Entry} (h : EntryOk L m σ e) : EntryOk L m [] e := by
  cases h with
  | null => exact .null
  | leaf hl _ => exact .leaf hl List.nil_prefix
  | node ha _ => exact .node ha List.nil_prefix

theorem switchEntry_outcome (ht : TreeInv L m) (h : Local L m c) (hpc : c.pc = .switchEntry w) :
    Outcome L m c
      { mem := (w.casEntry m).1, client := { c with pc := .switchHdr (w.casEntry m).2 } } := by
  have hk := h.knows
  simp only [Client.Knows, hpc] at hk
  obtain ⟨σ, hσ⟩ := hk.slot
  have hown : Client.leafOwned { c with pc := .switchHdr (w.casEntry m).2 } = c.leafOwned ∨
      Client.leafOwned { c with pc := .switchHdr (w.casEntry m).2 } = none := .inr rfl
  have hw : Client.SwitchOk L m (w.casEntry m).2 := by
    unfold Switch.casEntry
    dsimp only
    split
    · exact ⟨hk.node, hk.next, hk.slot, hk.entry, hk.buf⟩
    · exact ⟨hk.node, hk.next, hk.slot, hk.entry, (ht.entry hσ).nil⟩
  by_cases hs : m.load w.ptr = w.p ∧ w.entryDone = false
  · have hm : (w.casEntry m).1 = m.store (w.p.withType w.next) w.ptr := by
      simp [Switch.casEntry, hs]
    rw [hm]
    have hsame : SameSlots L m (m.store (w.p.withType w.next) w.ptr) := by
      refine ⟨fun ptr _ => ?_, by simp, by simp, by simp, fun a i ha _ => ?_⟩
      · by_cases hp : ptr = w.ptr
        · rw [hp, Mem.load_store_self, hs.1]; exact .withType _ _
        · rw [Mem.load_store_ne _ _ hp]; exact .refl _
      · exact Mem.load_store_ne _ _ (by rintro he; exact (he ▸ hσ.hasSlot : HasSlot L (.slot a i)) ha)
    exact .touch ht h hsame (hdrs_same ht fun _ => by simp) (fun a ha => .store hσ.hasSlot ha) hw
      h.ops rfl hown rfl (by simp [hpc])
  · have hm : (w.casEntry m).1 = m := by
      unfold Switch.casEntry
      dsimp only
      split
      · rfl
      · rename_i hd
        rw [if_neg fun he => hs ⟨he, by simpa using hd⟩]
    rw [hm]
    exact .quiet ht h hw h.ops rfl hown rfl (by simp [hpc]) (by simp)

theorem afterCas_knows (h : Client.SwitchOk L m w) :
    Client.Knows L m { c with pc := w.afterCas } := by
  unfold Switch.afterCas
  split
  · exact h
  · exact ⟨h.node, h.next, h.slot, h.buf, h.buf⟩

theorem switchHdr_outcome (ht : TreeInv L m) (h : Local L m c) (hpc : c.pc = .switchHdr w) :
    Outcome L m c
      { mem := (w.casHdr m).1, client := { c with pc := (w.casHdr m).2.afterCas } } := by
  have hk := h.knows
  simp only [Client.Knows, hpc] at hk
  obtain ⟨π, hπ⟩ := hk.node
  have hw : Client.SwitchOk L m (w.casHdr m).2 := by
    unfold Switch.casHdr
    split
    · exact hk
    · exact ⟨hk.node, hk.next, hk.slot, hk.entry, hk.buf⟩
  have hpc' : (∃ u, (w.casHdr m).2.afterCas = .switchEnd u) ∨
      ∃ u, (w.casHdr m).2.afterCas = .switchDown u := by
    unfold Switch.afterCas
    split
    · exact .inl ⟨_, rfl⟩
    · exact .inr ⟨_, rfl⟩
  have hown : Client.leafOwned { c with pc := (w.casHdr m).2.afterCas } = none := by
    rcases hpc' with ⟨u, hu⟩ | ⟨u, hu⟩ <;> simp [Client.leafOwned, hu]
  have hnodes : Client.nodesOwned { c with pc := (w.casHdr m).2.afterCas } = [] := by
    rcases hpc' with ⟨u, hu⟩ | ⟨u, hu⟩ <;> simp [Client.nodesOwned, hu]
  by_cases hd : w.hdrDone = true
  · have hm : (w.casHdr m).1 = m := by simp [Switch.casHdr, hd]
    rw [hm]
    exact .quiet ht h (afterCas_knows hw) h.ops rfl (.inr hown) hnodes (by simp [hpc]) (by simp)
  · have hm : (w.casHdr m).1 =
        m.setNode w.node fun pg => { pg with hdr := pg.hdr.casType w.hdr w.next } := by
      simp [Switch.casHdr, hd]
    rw [hm]
    have hslots : ∀ a, ((m.setNode w.node fun pg =>
        { pg with hdr := pg.hdr.casType w.hdr w.next }).node a).slots = (m.node a).slots := by
      intro a
      by_cases ha : a = w.node
      · subst ha; simp
      · rw [Mem.setNode_ne _ _ ha]
    have hload : ∀ ptr, (m.setNode w.node fun pg =>
        { pg with hdr := pg.hdr.casType w.hdr w.next }).load ptr = m.load ptr := by
      intro ptr
      cases ptr with
      | root => rfl
      | slot a i => simp only [Mem.load, hslots]
    have hsame : SameSlots L m (m.setNode w.node fun pg =>
        { pg with hdr := pg.hdr.casType w.hdr w.next }) :=
      ⟨fun ptr _ => by rw [hload]; exact .refl _, fun _ _ => rfl, fun _ _ => rfl, fun _ _ => rfl,
        fun a i _ _ => hload _⟩
    refine .touch ht h hsame ?_ ?_ (afterCas_knows hw) h.ops rfl (.inr hown) hnodes (by simp [hpc])
    · intro a π' ha
      have hold := hdrs_same ht (fun _ => rfl) a π' ha
      by_cases haw : a = w.node
      · subst haw
        simp only [Mem.setNode_self, Header.casType]
        split
        · exact ⟨⟨hold.1.pos, hold.1.le, hold.1.partials⟩, hk.next, hold.2.2⟩
        · exact hold
      · rwa [Mem.setNode_ne _ _ haw]
    · intro a ha
      have hne : a ≠ w.node := by rintro rfl; rw [hπ] at ha; cases ha
      exact ⟨by rw [Mem.setNode_ne _ _ hne], hslots a, rfl, rfl, rfl⟩

theorem switchDown_knows (ht : TreeInv L m) (h : Client.SwitchOk L m w) :
    Client.Knows L m { c with pc := w.down m } := by
  unfold Switch.down
  split
  · rename_i b t a hp
    split
    · exact ⟨h.node, h.next, h.slot, h.entry, h.buf⟩
    · have he := h.entry
      rw [hp] at he
      cases he with
      | node ha _ =>
        have h0 := (ht.node _ _ ha).first
        exact ⟨h.node, h.next, ⟨_, .slot ha h0⟩, (ht.entry (.slot ha h0)).nil, h.buf⟩
  · exact ⟨h.node, h.next, h.slot, h.entry, h.buf⟩

theorem switchEnd_knows (h : Client.SwitchOk L m w) :
    Client.Knows L m { c with pc := w.close } := by
  unfold Switch.close
  dsimp only
  split
  · split
    · trivial
    · exact h
  · split
    · trivial
    · exact ⟨h.node, h.next, h.slot, h.entry, h.buf⟩

end switch
end SmartTree
