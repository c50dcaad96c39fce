import SmartTree.Tree.RecallRead

/-! What a client remembers after a step that publishes, and after each round of
`cas_node_type`. -/
namespace SmartTree
variable {n : ℕ} {L : Layout} {m : Mem n} {c c' : Client n} {crc : Key n → Value → UInt64}

theorem NodeType.code_lt_of_num {t u : NodeType} {i : ℕ} (ht : t.num ≤ i) (hu : i < u.num) :
    t.code < u.code := by
  by_contra hge
  have := NodeType.num_mono (not_lt.mp hge)
  omega

theorem leafCasDone_recalls {site : Site} (hk : c.SiteOk L m site)
    (h : (Held L m c.pPtr c.p ∧ HdrHeld L m c.p c.page.hdr) ∧ site.Behind c.p.type) :
    (c.leafCasDone c.target site).Recalls L m := by
  cases hk with
  | null | empty => trivial
  | @behind a π i hi _ h0 hlt =>
    obtain ⟨t, h1, h2, h3⟩ := numToNodeType_spec h0 hlt
    obtain ⟨b, hp⟩ := hi.entry
    have hcode : c.p.type.code < t.code := NodeType.code_lt_of_num h.2 h3
    rw [Client.leafCasDone, h1, hi.target]
    refine ⟨⟨⟨π, hi.layout⟩, h.1.1 a (by rw [hp]; rfl), ?_, ?_, fun _ => ?_⟩, ?_, fun _ => hcode⟩
    · simp
    · simp
    · exact hi.type_num ▸ hcode
    · rw [hp]; rfl

theorem splitCasDone_recalls (h : Local L m c) {sp : Split} {nodes : List Addr}
    (hpc : c.pc = .splitCas sp nodes) (hp : m.load c.pPtr = c.p) :
    Client.Recalls (L.publish ((c.leafAddr.getD 0, .leaf) ::
        ((c.pages sp nodes).getD []).map fun q => (q.1, .node (cachePath c.key q.2.hdr))))
      (m.store (.node c.p.partialKey .node4 (nodes.headD 0)) c.pPtr)
      { c with pc := .splitRev sp nodes } := by
  have hk := h.knows
  simp only [Client.Knows, hpc] at hk
  obtain ⟨-, σ, hsp⟩ := hk
  obtain ⟨l, pages, hl, hpg, hfst, g⟩ := hsp.graft h hpc hp
  have hpub : (c.leafAddr.getD 0, .leaf) ::
      ((c.pages sp nodes).getD []).map (fun q => (q.1, .node (cachePath c.key q.2.hdr))) =
        grafted c.key l pages := by rw [hl, hpg]; rfl
  rw [hpub]
  intro pages' hpg' q hq i
  obtain rfl := Option.some.inj (hpg.symm.trans hpg')
  rw [← g.load_page hq (.node c.p.partialKey .node4 (nodes.headD 0)) i]
  exact Held.of_slot (g.layout_page hq)

theorem splitRev_recalls {sp : Split} {nodes : List Addr} (h : c.PagesHeld L m sp nodes) :
    (c.splitRev m sp nodes).client.Recalls L m ∧
      ∀ q ∈ (c.splitRev m sp nodes).added, LogHeld L m q := by
  constructor
  · unfold Client.splitRev
    cases sp.hdrIdx <;> trivial
  · intro q hq
    obtain ⟨x, hx, hq⟩ := List.mem_flatMap.mp hq
    cases hp : c.pages sp nodes with
    | none => simp [hp] at hx
    | some pages =>
      exact Client.addToCache_logHeld (fun i _ => h pages hp x (by simpa [hp] using hx) i) q hq

section switch
variable {w : Switch}

theorem EntryOk.eq_node {σ : List UInt8} {e : Entry} {a : Addr} {π : List UInt8}
    (h : EntryOk L m σ e) (he : e.addr? = some a) (ha : L a = some (.node π)) :
    ∃ b t, e = .node b t a := by
  cases h with
  | null => cases he
  | leaf hl => cases he; rw [ha] at hl; cases hl
  | node => cases he; exact ⟨_, _, rfl⟩

theorem Switch.casEntry_cases (w : Switch) (m : Mem n) :
    w.entryDone = true ∧ w.casEntry m = (m, { w with both := false }) ∨
    w.entryDone = false ∧ m.load w.ptr = w.p ∧
      w.casEntry m = (m.store (w.p.withType w.next) w.ptr,
        { w with both := !w.hdrDone, entryDone := true, entryBuf := w.p }) ∨
    w.entryDone = false ∧ m.load w.ptr ≠ w.p ∧
      w.casEntry m = (m, { w with both := !w.hdrDone, entryBuf := m.load w.ptr }) := by
  cases hd : w.entryDone with
  | true => left; simp [casEntry, hd]
  | false =>
    by_cases hp : m.load w.ptr = w.p
    · right; left; simp [casEntry, hd, hp]
    · right; right; simp [casEntry, hd, hp]

theorem switchEntry_recalls (ht : TreeInv L m) (hk : Client.SwitchOk L m w) (hw : w.Follows L m)
    (ha : w.AtNode) (hw' : w.Follows L (w.casEntry m).1) (hx : Extends L m L (w.casEntry m).1) :
    Client.Recalls L (w.casEntry m).1 { c with pc := .switchHdr (w.casEntry m).2 } := by
  obtain ⟨π, hπ⟩ := hw.node
  obtain ⟨σ, e, hs, hb, he⟩ := hw.ptr
  obtain ⟨hd, hc⟩ | ⟨hd, hp, hc⟩ | ⟨hd, hp, hc⟩ := w.casEntry_cases m
  · rw [hc]
    refine ⟨⟨hw.node, hw.ptr, hw.entry, hw.hdr, hw.lt⟩, fun _ => ⟨ha.addr, ha.lt⟩, fun hf => ?_⟩
    simp [hd] at hf
  · rw [hc] at hw' hx ⊢
    obtain ⟨b, t, hnode⟩ := hk.entry.eq_node ha.addr hπ
    refine ⟨⟨hw'.node, hw'.ptr, fun _ => ?_, hw'.hdr, hw'.lt⟩, fun _ => ⟨ha.addr, ?_⟩, ?_⟩
    · refine ⟨w.ptr, σ, b, w.next, hs.mono hx, ?_, le_rfl⟩
      rw [Mem.load_store_self, hnode]
      rfl
    · simp
    · simp
  · rw [hc]
    refine ⟨⟨hw.node, hw.ptr, hw.entry, hw.hdr, hw.lt⟩, ?_, fun _ => ⟨?_, ⟨e, hb, he⟩, ?_⟩⟩
    · simp [hd]
    · exact (ht.entry hs).nil
    · exact ⟨σ, _, hs, .here, .refl _⟩

/-- The masked compare-and-swap of the header has been carried out where it is reported so. -/
theorem Switch.casHdr_cases (w : Switch) (m : Mem n) :
    w.hdrDone = true ∧ w.casHdr m = (m, w) ∨
    w.hdrDone = false ∧ ∃ d, (d = true → (m.node w.node).hdr.type = w.hdr.type) ∧
      w.casHdr m = (m.setNode w.node fun pg => { pg with hdr := pg.hdr.casType w.hdr w.next },
        { w with hdrDone := d, hdrBuf := (m.node w.node).hdr }) := by
  cases hd : w.hdrDone with
  | true => left; simp [casHdr, hd]
  | false =>
    right
    refine ⟨rfl, if w.both then decide ((m.node w.node).hdr = w.hdr)
      else decide ((m.node w.node).hdr.type = w.hdr.type), ?_, by simp [casHdr, hd]⟩
    cases w.both with
    | true => intro h; rw [of_decide_eq_true h]
    | false => exact of_decide_eq_true

theorem afterCas_recalls (hw : w.Follows L m) (hb : w.Buffered m)
    (ha : w.entryDone = true → w.AtNode) (hs : w.entryDone = false → w.Sought L m w.entryBuf) :
    Client.Recalls L m { c with pc := w.afterCas } := by
  unfold Switch.afterCas
  split
  · rename_i hd
    exact ⟨hw, hb, ha hd⟩
  · rename_i hd
    obtain ⟨h1, h2, h3⟩ := hs (by simpa using hd)
    exact ⟨⟨hw.node, hw.ptr, hw.entry, hw.hdr, hw.lt⟩, hb, h1, h2, h3⟩

theorem switchHdr_recalls (hw : w.Follows L m) (hw' : w.Follows L (w.casHdr m).1)
    (hg : Grows L m (w.casHdr m).1) (ha : w.entryDone = true → w.AtNode)
    (hs : w.entryDone = false → w.Sought L (w.casHdr m).1 w.entryBuf) :
    Client.Recalls L (w.casHdr m).1 { c with pc := (w.casHdr m).2.afterCas } := by
  obtain ⟨π, hπ⟩ := hw.node
  obtain ⟨hd, hc⟩ | ⟨hd, d, hty, hc⟩ := w.casHdr_cases m
  · rw [hc] at hs ⊢
    exact afterCas_recalls hw (fun hf => by simp [hd] at hf) ha hs
  · rw [hc] at hw' hg hs ⊢
    refine afterCas_recalls ⟨hw'.node, hw'.ptr, hw'.entry, fun hdone => ?_, fun _ => hw'.lt hd⟩
      (fun _ => hg.hdr _ (by simp [hπ])) (fun he => ⟨(ha he).addr, (ha he).lt⟩) fun he => ?_
    · simp [Mem.setNode_self, Header.casType, hty hdone]
    · obtain ⟨h1, h2, h3⟩ := hs he
      exact ⟨h1, h2, h3⟩

/-- An entry read from a slot at some time declares no more than the node's entry does now. -/
theorem Switch.Sought.declared (ht : TreeInv L m) {e : Entry} {b : UInt8} {t : NodeType} {a : Addr}
    (h : w.Sought L m e) (he : e = .node b t a) : Declared L m a t := by
  obtain ⟨σ, e', hs, hb, hg⟩ := h.seen
  obtain ⟨p, τ, hp, hl⟩ := ht.slot_of_below hs hb
  rw [he] at hg
  cases hg with | node hc => exact ⟨p, τ, _, _, hp, hl, hc⟩

theorem Switch.Sought.eq_node {e : Entry} {π : List UInt8} (h : w.Sought L m e)
    (ha : L w.node = some (.node π)) : ∃ b t a, e = .node b t a ∧
      (a ≠ w.node → ∃ e', m.Below (m.load (.slot a 0)) e' ∧ e'.addr? = some w.node) := by
  obtain ⟨e', hb, he⟩ := h.node
  cases hb with
  | here =>
    obtain ⟨b, t, rfl⟩ := h.ok.eq_node he ha
    exact ⟨b, t, _, rfl, fun hne => absurd rfl hne⟩
  | @down b t a _ hb => exact ⟨b, t, a, rfl, fun _ => ⟨e', hb, he⟩⟩

/-- One round of the loop: the node is found, or it is found further down. -/
theorem switchDown_recalls (ht : TreeInv L m) (hw : w.Follows L m) (hb : w.Buffered m)
    (hs : w.Sought L m w.p) : Client.Recalls L m { c with pc := w.down m } := by
  obtain ⟨π, hπ⟩ := hw.node
  obtain ⟨b, t, a, hp, hdown⟩ := hs.eq_node hπ
  have hok := hs.ok
  rw [hp] at hok
  simp only [Switch.down, hp]
  split
  · rename_i ha
    refine ⟨⟨hw.node, hw.ptr, fun hd => ?_, hw.hdr, hw.lt⟩, hb, ?_, fun hd => ?_⟩
    · obtain ⟨p, τ, b', u, h1, h2, h3⟩ := hs.declared ht hp
      exact ⟨p, τ, b', u, h1, ha ▸ h2, (of_decide_eq_true hd).trans h3⟩
    · exact congrArg some ha
    · exact not_le.mp (of_decide_eq_false hd)
  · rename_i ha
    obtain ⟨e', hb', he'⟩ := hdown ha
    cases hok with
    | @node _ _ _ τ hτ _ =>
      have hsl : SlotPath L m (.slot a 0) _ := .slot hτ (ht.node a τ hτ).first
      exact ⟨⟨hw.node, ⟨_, e', hsl, hb', he'⟩, hw.entry, hw.hdr, hw.lt⟩, hb, (ht.entry hsl).nil,
        ⟨e', hb', he'⟩, _, _, hsl, .here, .refl _⟩

theorem switchEnd_recalls (hw : w.Follows L m) (hb : w.Buffered m) (ha : w.AtNode) :
    Client.Recalls L m { c with pc := w.close } := by
  unfold Switch.close
  dsimp only
  split
  · split
    · trivial
    · exact ⟨hw, ha⟩
  · rename_i hd
    split
    · trivial
    · refine ⟨⟨hw.node, hw.ptr, hw.entry, fun hdone => ?_, fun hdone => ?_⟩, ha.addr, ha.lt⟩
      · exact (of_decide_eq_true hdone).trans (hb (by simpa using hd))
      · exact not_le.mp (of_decide_eq_false hdone)

end switch

theorem step_recalls (ht : TreeInv L m) (h : Local L m c) (hr : c.Recalls L m) {ch : Choice n}
    {mv : Move n} (hs : Step crc m c ch mv) :
    mv.client.Recalls (L.publish mv.published) mv.mem ∧
      ∀ q ∈ mv.added, LogHeld (L.publish mv.published) mv.mem q := by
  have ho := step_outcome ht h hs
  have hr' := hr.mono ho.ext (step_change ht h hr hs).grows ht ho.tree
  have hk := h.knows
  cases hs with
  | readRoot hpc =>
    refine ⟨?_, by simp⟩
    have hroot : Held L m .root m.root := Held.of_load .root rfl
    cases hn : c.isSearch && m.root.isNull
    · exact hroot
    · trivial
  | next hpc =>
    simp only [Client.Knows, hpc] at hk
    simp only [Client.Recalls, hpc] at hr
    exact ⟨Client.next_recalls hk hr, by simp⟩
  | leafRead hpc =>
    simp only [Client.Recalls, hpc] at hr
    exact ⟨Client.leafRead_recalls hr, by simp⟩
  | leafWord hpc =>
    simp only [Client.Recalls, hpc] at hr
    exact ⟨hr, by simp⟩
  | reread hpc =>
    simp only [Client.Knows, hpc] at hk
    obtain ⟨-, σ, hσ⟩ := hk
    exact ⟨Held.of_load hσ.slot rfl, by simp⟩
  | gotLeaf hpc =>
    simp only [Client.Recalls, hpc] at hr
    exact ⟨Client.gotLeaf_recalls hr, by simp⟩
  | combineUpdate hpc =>
    simp only [Client.Recalls, hpc] at hr
    refine ⟨?_, by simp⟩
    split
    · trivial
    · exact hr
  | lockBusy => exact ⟨hr, by simp⟩
  | lockTaken hpc | writeWord hpc | splitReuse hpc | splitFresh hpc | splitWrite hpc =>
    simp only [Client.Recalls, hpc] at hr'
    exact ⟨hr', by simp⟩
  | writeFault | written | splitFault | finish => exact ⟨trivial, by simp⟩
  | combineWrite hpc =>
    simp only [Client.Recalls, hpc] at hr
    exact ⟨hr, by simp⟩
  | leafPrepare hpc =>
    simp only [Client.Recalls, hpc] at hr
    exact ⟨Client.leafPrepare_recalls hr, by simp⟩
  | leafWrite hpc =>
    simp only [Client.Recalls, hpc] at hr'
    exact ⟨hr', by simp⟩
  | @leafCasDone site b l hpc hq hb hl hn =>
    simp only [Client.Recalls, hpc] at hr'
    simp only [Client.Knows, hpc] at hk
    exact ⟨leafCasDone_recalls (hk.mono ho.ext) hr', by simp⟩
  | leafCasFailed hpc =>
    simp only [Client.Recalls, hpc] at hr
    simp only [Client.Knows, hpc] at hk
    exact ⟨Client.leafCasFailed_recalls hk hr, by simp⟩
  | splitCasDone hpc _ hp => exact ⟨splitCasDone_recalls h hpc hp, by simp⟩
  | splitCasFailed hpc =>
    simp only [Client.Knows, hpc] at hk
    obtain ⟨-, σ, hσ⟩ := hk
    exact ⟨Held.of_load (hσ.located.slot.mono ho.ext) (by simp), by simp⟩
  | splitRev hpc =>
    simp only [Client.Recalls, hpc] at hr
    exact splitRev_recalls hr
  | splitHdr => exact ⟨trivial, by simp⟩
  | typeRead hpc =>
    simp only [Client.Knows, hpc] at hk
    simp only [Client.Recalls, hpc] at hr
    obtain ⟨-, b, t, a, π, hp, -⟩ := hk
    exact ⟨Client.typeRead_recalls hr hp, by simp⟩
  | nodeWord hpc hw =>
    simp only [Client.Knows, hpc] at hk
    simp only [Client.Recalls, hpc] at hr
    obtain ⟨-, b, t, a, π, hp, ha, -⟩ := hk
    have hta : L c.target = some (.node π) := by simpa [Client.target, hp] using ha
    exact ⟨⟨hr.1, hr.2.word hta hw⟩, by simp⟩
  | restRead hpc =>
    simp only [Client.Recalls, hpc] at hr
    exact ⟨hr, by simp⟩
  | restWord hpc hw =>
    simp only [Client.Knows, hpc] at hk
    simp only [Client.Recalls, hpc] at hr
    obtain ⟨-, -, b, a, π, hp, ha, -⟩ := hk
    have hta : L c.target = some (.node π) := by simpa [Client.target, hp] using ha
    exact ⟨⟨hr.1, hr.2.word hta hw⟩, by simp⟩
  | nodeRead hpc =>
    simp only [Client.Knows, hpc] at hk
    simp only [Client.Recalls, hpc] at hr
    obtain ⟨-, b, a, π, hp, -⟩ := hk
    have := Client.nodeRead_recalls hr (by rw [hp]; rfl)
    rw [Client.nodeRead_eq]
    exact this
  | scan hpc =>
    simp only [Client.Recalls, hpc] at hr
    exact ⟨Client.scan_recalls hr, by simp⟩
  | emptyScan hpc =>
    simp only [Client.Recalls, hpc] at hr
    exact ⟨Client.emptyScan_recalls hr, by simp⟩
  | switchEntry hpc =>
    simp only [Client.Knows, hpc] at hk
    simp only [Client.Recalls, hpc] at hr hr'
    exact ⟨switchEntry_recalls ht hk hr.1 hr.2 hr'.1 ho.ext, by simp⟩
  | switchHdr hpc =>
    simp only [Client.Recalls, hpc] at hr hr'
    have hg := (switchHdr_change hr.1).grows
    exact ⟨switchHdr_recalls hr.1 hr'.1 hg hr.2.1 hr'.2.2, by simp⟩
  | switchDown hpc =>
    simp only [Client.Recalls, hpc] at hr
    exact ⟨switchDown_recalls ht hr.1 hr.2.1 hr.2.2, by simp⟩
  | switchEnd hpc =>
    simp only [Client.Recalls, hpc] at hr
    exact ⟨switchEnd_recalls hr.1 hr.2.1 hr.2.2, by simp⟩
  | flush => exact ⟨hr', by simp⟩

end SmartTree
