import SmartTree.Tree.Recall

/-! The steps of all clients seen as changes of the published tree, and what a client
remembers after it has read or computed. -/
namespace SmartTree
variable {n : ℕ} {L : Layout} {m : Mem n} {c c' : Client n} {crc : Key n → Value → UInt64}

section change

theorem perform_change (m : Mem n) (op : RemoteOp) : Change L m [] (m.perform op) := by
  cases op with
  | casHeader a e new =>
    have hm : m.perform (.casHeader a e new) =
        m.setNode a fun pg => { pg with hdr := (m.node a).hdr.casSplit e new } := rfl
    rw [hm]
    refine .header ?_
    rw [Header.casSplit]
    split <;> exact le_rfl
  | writeRev | casRevLeaf => exact .quiet (fun _ _ => by simp) fun _ _ => rfl
  | casRevNode x e new =>
    refine .quiet (fun _ _ => by simp) fun a _ => ?_
    obtain h | ⟨_, _, h, -⟩ := m.perform_hdr a (.casRevNode x e new)
    · exact h
    · cases h

theorem switchEntry_change {w : Switch} (hw : w.Follows L m) (ha : w.AtNode) :
    Change L m [] (w.casEntry m).1 := by
  unfold Switch.casEntry
  dsimp only
  split
  · exact .quiet (fun _ _ => rfl) fun _ _ => rfl
  · rename_i hd
    dsimp only
    split
    · rename_i hp
      obtain ⟨σ, -, hs, -⟩ := hw.ptr
      rw [← hp]
      exact .entryType hs (hp ▸ (ha.lt (by simpa using hd)).le)
    · exact .quiet (fun _ _ => rfl) fun _ _ => rfl

theorem switchHdr_change {w : Switch} (hw : w.Follows L m) : Change L m [] (w.casHdr m).1 := by
  unfold Switch.casHdr
  split
  · exact .quiet (fun _ _ => rfl) fun _ _ => rfl
  · rename_i hd
    have hm : (m.setNode w.node fun pg => { pg with hdr := pg.hdr.casType w.hdr w.next }) =
        m.setNode w.node fun pg => { pg with hdr := (m.node w.node).hdr.casType w.hdr w.next } := rfl
    dsimp only
    rw [hm]
    refine .header ?_
    rw [Header.casType]
    split
    · rename_i he
      exact he ▸ (hw.lt (by simpa using hd)).le
    · exact le_rfl

/-- The batch of writes of a split goes to blocks of the client's own. -/
theorem splitWrite_quiet (h : Local L m c) {sp : Split} {nodes : List Addr} {unwrite : Bool}
    {pages : List (Addr × Page)} (hpc : c.pc = .splitWrite sp nodes unwrite)
    (hp : c.pages sp nodes = some pages) (l : Addr) (f : Leaf n → Leaf n) :
    let m' := if unwrite then (m.writePages pages).setLeaf l f else m.writePages pages
    (∀ ptr, HasSlot L ptr → m'.load ptr = m.load ptr) ∧
      ∀ a, L a ≠ none → (m'.node a).hdr = (m.node a).hdr := by
  have hk := h.knows
  simp only [Client.Knows, hpc] at hk
  obtain ⟨hn, σ, hsp⟩ := hk
  obtain ⟨pages', hp', hfst, -⟩ := hsp.pages hn
  obtain rfl := Option.some.inj (hp'.symm.trans hp)
  have hnode : ∀ a, L a ≠ none → (m.writePages pages').node a = m.node a := fun a ha =>
    Mem.writePages_node_ne _ fun hm => ha (h.fresh a
      (by simp [Client.owned, Client.nodesOwned, hpc, ← hfst, hm])).1
  have hload : ∀ ptr, HasSlot L ptr → (m.writePages pages').load ptr = m.load ptr := by
    intro ptr hs
    cases ptr with
    | root => simp [Mem.load]
    | slot a i => simp only [Mem.load, hnode a hs]
  refine ⟨fun ptr hs => ?_, fun a ha => ?_⟩
  · rw [← hload ptr hs]
    split
    · simp
    · rfl
  · rw [← hnode a ha]
    split <;> rfl

theorem splitCasDone_change (h : Local L m c) {sp : Split} {nodes : List Addr}
    (hpc : c.pc = .splitCas sp nodes) (hp : m.load c.pPtr = c.p) :
    Change L m ((c.leafAddr.getD 0, .leaf) ::
        ((c.pages sp nodes).getD []).map fun q => (q.1, .node (cachePath c.key q.2.hdr)))
      (m.store (.node c.p.partialKey .node4 (nodes.headD 0)) c.pPtr) := by
  have hk := h.knows
  simp only [Client.Knows, hpc] at hk
  obtain ⟨-, σ, hsp⟩ := hk
  obtain ⟨l, pages, hl, hpg, hfst, g⟩ := hsp.graft h hpc hp
  rw [hl, hpg, Option.getD_some, Option.getD_some]
  exact .graft g (by rw [hfst]) (by rw [hp])

theorem step_change (ht : TreeInv L m) (h : Local L m c) (hr : c.Recalls L m) {ch : Choice n}
    {mv : Move n} (hs : Step crc m c ch mv) : Change L m mv.published mv.mem := by
  have hk := h.knows
  cases hs with
  | leafCasDone hpc _ hb hl hn =>
    simp only [Client.Knows, hpc] at hk
    obtain ⟨σ, hv, -⟩ := hk.vacant ht hb hn
    exact .leaf hv (h.fresh _ (by simp [Client.owned, Client.leafOwned, hpc, hl])).1
  | splitWrite hpc _ hp =>
    exact .quiet (splitWrite_quiet h hpc hp _ _).1 (splitWrite_quiet h hpc hp _ _).2
  | splitCasDone hpc _ hp => exact splitCasDone_change h hpc hp
  | switchEntry hpc =>
    simp only [Client.Recalls, hpc] at hr
    exact switchEntry_change hr.1 hr.2
  | switchHdr hpc =>
    simp only [Client.Recalls, hpc] at hr
    exact switchHdr_change hr.1
  | flush => exact perform_change m _
  | nodeRead => rw [Client.nodeRead_eq]; exact .quiet (fun _ _ => rfl) fun _ _ => rfl
  | lockTaken | writeWord | leafWrite | splitReuse | splitFresh | splitCasFailed =>
    exact .quiet (fun _ _ => by simp) fun _ _ => rfl
  | _ => exact .quiet (fun _ _ => rfl) fun _ _ => rfl

end change

theorem PageHeld.word {a : Addr} {t : NodeType} {todo : List NodeWord} {π : List UInt8}
    (ha : L a = some (.node π)) {pg : Page} {j : ℕ} {w : NodeWord} (hw : todo[j]? = some w) (h : PageHeld L m a t todo pg) :
    PageHeld L m a t (todo.eraseIdx j) ((m.node a).copy w pg) where
  node := h.node
  hdr hk := by
    obtain hk | rfl := Client.not_mem_eraseIdx hw hk
    · cases w <;> first | exact h.hdr hk | exact le_rfl
    · exact le_rfl
  slot i hi hk := by
    have hnow : Held L m (.slot a i) ((m.node a).slots i) := Held.of_slot ha
    obtain hk | rfl := Client.not_mem_eraseIdx hw hk
    · cases w with
      | slot x =>
        by_cases hx : i = x
        · subst hx; simpa [Page.copy] using hnow
        · simpa [Page.copy, hx] using h.slot i hi hk
      | _ => exact h.slot i hi hk
    · simpa [Page.copy] using hnow

theorem PageHeld.hdrHeld {t : NodeType} {pg : Page} (h : PageHeld L m c.target t [] pg) :
    HdrHeld L m c.p pg.hdr := by
  intro a ha
  have hta : c.target = a := by simp [Client.target, ha]
  exact hta ▸ ⟨h.node, h.hdr (by simp)⟩

namespace Client

theorem next_recalls (hk : ∃ σ, Located L m c σ) (h : Held L m c.pPtr c.p) :
    c.next.Recalls L m := by
  obtain ⟨σ, hσ⟩ := hk
  unfold next
  split
  · rename_i hp
    split
    · trivial
    · split
      · trivial
      · exact ⟨⟨h, fun a ha => by rw [hp] at ha; cases ha⟩, trivial⟩
  · exact h
  · rename_i b t a hp
    refine ⟨h, ?_, fun hk => absurd (by simp [nodeWords]) hk, fun i hi hk => ?_⟩
    · simpa [target, hp] using hσ.entry.addr_published (a := a) (by rw [hp]; rfl)
    · exact absurd (by simpa [nodeWords, slotWords, hp] using hi) hk

theorem leafRead_recalls {a : Addr} (h : Held L m c.pPtr c.p) :
    (c.leafRead crc a).Recalls L m := by
  unfold leafRead
  split
  · exact h
  · split <;> exact h

theorem gotLeaf_recalls (h : Held L m c.pPtr c.p) : c.gotLeaf.Recalls L m := by
  unfold gotLeaf
  split
  · split <;> trivial
  · split
    · split
      · trivial
      · exact h
    · split
      · trivial
      · split
        · trivial
        · exact h

section node
variable {todo : List NodeWord} {a : Addr} {t : NodeType}

theorem typeRead_recalls (h : Held L m c.pPtr c.p ∧ PageHeld L m c.target c.p.type [] c.page)
    {b : UInt8} (hp : c.p = .node b t a) : c.typeRead.Recalls L m := by
  obtain ⟨hh, hpg⟩ := h
  have hta : target { c with p := c.p.withType c.page.hdr.type } = c.target := by
    simp [target, hp]
  have hty : (c.p.withType c.page.hdr.type).type = c.page.hdr.type := by rw [hp]; rfl
  unfold typeRead
  split
  · rename_i hlt
    refine ⟨hh.withType _, hta ▸ hpg.node, fun _ => hta ▸ hpg.hdr (by simp), fun i hi hk => ?_⟩
    have hlo : i < c.p.type.num := by
      by_contra hge
      refine hk (List.mem_map.mpr ⟨i - c.p.type.num, List.mem_range.mpr ?_, ?_⟩)
      · simp only [hty] at hi; omega
      · congr 1; omega
    exact hta ▸ hpg.slot i hlo (by simp)
  · rename_i hlt
    refine ⟨hh.withType _, hta ▸ hpg.node, fun _ => hta ▸ hpg.hdr (by simp), fun i hi hk => ?_⟩
    have := NodeType.num_mono (not_lt.mp hlt)
    simp only [hty] at hi
    exact hta ▸ hpg.slot i (by omega) (by simp)

theorem checkHeader_recalls
    (h : Held L m c.pPtr c.p ∧ PageHeld L m c.target c.p.type [] c.page) :
    c.checkHeader.Recalls L m := by
  unfold checkHeader
  dsimp only
  split
  · trivial
  · exact h
  · split
    · trivial
    · split
      · trivial
      · exact h.1

theorem addToCache_logHeld {k : Key n} {pg : Page}
    (h : ∀ i < pg.hdr.type.num, Held L m (.slot a i) (pg.slots i)) :
    ∀ q ∈ addToCache k pg a, LogHeld L m q := by
  intro q hq i e he
  unfold addToCache at hq
  split at hq
  · cases hq
  · obtain rfl := List.mem_singleton.mp hq
    obtain ⟨hlt, hget⟩ := List.getElem?_eq_some_iff.mp he
    simp only [CacheEntry.ofPage, List.length_map, List.length_range] at hlt
    simp only [CacheEntry.ofPage, List.getElem_map, List.getElem_range] at hget
    rw [← hget]
    exact h i hlt

theorem nodeRead_recalls
    (h : Held L m c.pPtr c.p ∧ PageHeld L m c.target c.p.type [] c.page)
    (hty : c.p.type = c.page.hdr.type) :
    (c.nodeRead m c.target).client.Recalls L m ∧
      ∀ q ∈ (c.nodeRead m c.target).added, LogHeld L m q := by
  unfold nodeRead
  dsimp only
  split
  · exact ⟨h.1, by simp⟩
  · refine ⟨checkHeader_recalls h, fun q hq => ?_⟩
    split at hq
    · exact addToCache_logHeld (fun i hi => h.2.slot i (hty ▸ hi) (by simp)) q hq
    · cases hq

theorem scan_recalls (h : Held L m c.pPtr c.p ∧ PageHeld L m c.target c.p.type [] c.page) :
    (c.scan c.target).Recalls L m := by
  unfold scan
  split
  · trivial
  · split
    · rename_i i hi
      exact h.2.slot i (List.mem_range.mp (List.mem_of_find?_eq_some hi)) (by simp)
    · cases c.isSearch
      · exact ⟨h.1, h.2.hdrHeld⟩
      · trivial

theorem emptyScan_recalls (h : Held L m c.pPtr c.p ∧ HdrHeld L m c.p c.page.hdr) {i : ℕ} :
    (c.emptyScan i).Recalls L m := by
  unfold emptyScan
  split
  · exact ⟨h, trivial⟩
  · split
    · trivial
    · exact ⟨h, le_rfl⟩

end node

theorem leafPrepare_recalls {site : Site} {v : Option Value}
    (h : (Held L m c.pPtr c.p ∧ HdrHeld L m c.p c.page.hdr) ∧ site.Behind c.p.type) :
    (c.leafPrepare site v).Recalls L m := by
  unfold leafPrepare
  dsimp only
  split
  · trivial
  · exact h
  · exact h

theorem leafCasFailed_recalls {site : Site} {b : UInt8} (hk : SiteOk L m c site)
    (h : (Held L m c.pPtr c.p ∧ HdrHeld L m c.p c.page.hdr) ∧ site.Behind c.p.type) :
    (c.leafCasFailed c.target (m.load (c.sitePtr c.target site)) b site).Recalls L m := by
  cases hk with
  | null hσ _ => exact Held.of_load hσ.slot rfl
  | @empty a π i hi =>
    rw [sitePtr, leafCasFailed, hi.target]
    split
    · exact Held.of_slot hi.layout
    · exact h.1
  | @behind a π i hi =>
    rw [sitePtr, leafCasFailed, hi.target]
    split
    · exact Held.of_slot hi.layout
    · split
      · exact ⟨h.1, Nat.le_succ_of_le h.2⟩
      · trivial

end Client

end SmartTree
