import SmartTree.Tree.NodeGrowth

/-! What a step does to node types: who touches a published slot or a header, and how long a
client keeps raising a node. -/
namespace SmartTree
variable {n : ℕ} {L : Layout} {m : Mem n} {c : Client n} {crc : Key n → Value → UInt64}

theorem NodeType.code_injective : Function.Injective NodeType.code := by
  intro t u h
  cases t <;> cases u <;> first | rfl | cases h

def Pc.raises (a : Addr) (t : NodeType) : Pc → Prop
  | .switchEntry w | .switchHdr w | .switchDown w | .switchEnd w => w.node = a ∧ t.code ≤ w.next.code
  | _ => False

inductive Touches (L : Layout) (m : Mem n) (c : Client n) : Move n → Prop
  | quiet {mv} (hp : mv.published = [])
      (hl : ∀ ptr, HasSlot L ptr → mv.mem.load ptr = m.load ptr)
      (ht : ∀ a, L a ≠ none → (mv.mem.node a).hdr.type = (m.node a).hdr.type) : Touches L m c mv
  | leaf {site b l} (hpc : c.pc = .leafCas site) (hb : c.siteByte site = some b)
      (hl : c.leafAddr = some l) (hn : m.load (c.sitePtr c.target site) = .null) :
    Touches L m c
      { mem := m.store (.leaf b l) (c.sitePtr c.target site)
        client := c.leafCasDone c.target site, published := [(l, .leaf)] }
  | split {sp nodes} (hpc : c.pc = .splitCas sp nodes) (hp : m.load c.pPtr = c.p) :
    Touches L m c
      { mem := m.store (.node c.p.partialKey .node4 (nodes.headD 0)) c.pPtr
        client := { c with pc := .splitRev sp nodes }
        published := (c.leafAddr.getD 0, .leaf) ::
          ((c.pages sp nodes).getD []).map fun q => (q.1, .node (cachePath c.key q.2.hdr)) }
  | entry {w} (hpc : c.pc = .switchEntry w) :
    Touches L m c
      { mem := (w.casEntry m).1, client := { c with pc := .switchHdr (w.casEntry m).2 } }
  | header {w} (hpc : c.pc = .switchHdr w) :
    Touches L m c
      { mem := (w.casHdr m).1, client := { c with pc := (w.casHdr m).2.afterCas } }

theorem perform_touches (op : RemoteOp) (ptr : Ptr) (a : Addr) :
    (m.perform op).load ptr = m.load ptr ∧
      ((m.perform op).node a).hdr.type = (m.node a).hdr.type := by
  refine ⟨by simp, ?_⟩
  obtain h | ⟨e, new, rfl, h⟩ := m.perform_hdr a op
  · rw [h]
  · rw [h, Header.casSplit]
    split <;> rfl

theorem step_touches (h : Local L m c) {ch : Choice n} {mv : Move n} (hs : Step crc m c ch mv) :
    Touches L m c mv := by
  cases hs with
  | leafCasDone hpc _ hb hl hn => exact .leaf hpc hb hl hn
  | splitCasDone hpc _ hp => exact .split hpc hp
  | switchEntry hpc => exact .entry hpc
  | switchHdr hpc => exact .header hpc
  | splitWrite hpc _ hp =>
    exact .quiet rfl (splitWrite_quiet h hpc hp _ _).1 fun a ha =>
      congrArg Header.type ((splitWrite_quiet h hpc hp _ _).2 a ha)
  | flush => exact .quiet rfl (fun ptr _ => (perform_touches _ ptr 0).1) fun a _ =>
      (perform_touches _ .root a).2
  | nodeRead => rw [Client.nodeRead_eq]; exact .quiet rfl (fun _ _ => rfl) fun _ _ => rfl
  | lockTaken | writeWord | leafWrite | splitReuse | splitFresh | splitCasFailed =>
    exact .quiet rfl (fun _ _ => by simp) fun _ _ => rfl
  | _ => exact .quiet rfl (fun _ _ => rfl) fun _ _ => rfl

section graft
variable {ptr : Ptr} {σ : List UInt8} {k : Key n} {diff : UInt8} {len : ℕ} {l a : Addr} {b : UInt8}
  {pages : List (Addr × Page)} (g : Graft L m ptr σ k diff len l pages)
include g

/-- The node entries after a split: those from before, with their types, and those of the new
nodes. -/
theorem Graft.entry_cases (ha : (pages.map Prod.fst).headD 0 = a)
    (hb : (m.load ptr).partialKey = b) {p : Ptr} {τ : List UInt8} {e : UInt8} {t : NodeType}
    {x : Addr} (hs : SlotPath (L.publish (grafted k l pages)) (m.store (.node b .node4 a) ptr) p τ)
    (hl : (m.store (.node b .node4 a) ptr).load p = .node e t x) :
    (∃ p' τ' b', SlotPath L m p' τ' ∧ m.load p' = .node b' t x) ∨
      (∃ q ∈ pages, q.1 = x) ∧ t = .node4 := by
  obtain hsl | ⟨q, hq, i, rfl, hi, -⟩ := g.slotPath_cases hb hs
  · by_cases hp : p = ptr
    · subst hp
      rw [Mem.load_store_self] at hl
      cases hl
      obtain ⟨q, hq, he, -⟩ := g.head_mem
      exact .inr ⟨⟨q, hq, by rw [← ha, he]⟩, rfl⟩
    · rw [Mem.load_store_ne _ _ hp] at hl
      exact .inl ⟨p, τ, e, hsl, hl⟩
  · rw [g.load_page hq] at hl
    obtain ⟨d, j, -, -, -, hspec⟩ := g.chain.page hq
    cases hspec with
    | link q' hq' _ hslots =>
      by_cases h0 : i = 0
      · simp only [hslots, h0, if_true] at hl
        cases hl
        exact .inr ⟨⟨q', List.mem_of_mem_tail hq', rfl⟩, rfl⟩
      · simp [hslots, h0] at hl
    | last _ hslots =>
      by_cases h0 : i = 0
      · simp only [hslots, h0, if_true] at hl
        left
        cases he : m.load ptr with
        | null => rw [he] at hl; cases hl
        | leaf => rw [he] at hl; cases hl
        | node b₁ t₁ x₁ =>
          rw [he] at hl
          cases hl
          exact ⟨ptr, σ, b₁, g.slot, he⟩
      · by_cases h1 : i = 1
        · simp [hslots, h1] at hl
        · simp [hslots, h0, h1] at hl

end graft

theorem Declared.published {a : Addr} {t : NodeType} (h : Declared L m a t) (ht : TreeInv L m) :
    L a ≠ none := by
  obtain ⟨ptr, σ, b, u, hs, hl, -⟩ := h
  exact (ht.entry hs).addr_published (by rw [hl]; rfl)

theorem Switch.close_again (w : Switch) (h : w.close ≠ .finish true) :
    ∃ w', w.close = .switchEntry w' ∧ w'.node = w.node ∧ w'.next = w.next := by
  have hkey : ∀ w' : Switch, w'.node = w.node → w'.next = w.next →
      (if w'.entryDone && w'.hdrDone then Pc.finish true else .switchEntry w') ≠ .finish true →
      ∃ w'', (if w'.entryDone && w'.hdrDone then Pc.finish true else .switchEntry w') =
        .switchEntry w'' ∧ w''.node = w.node ∧ w''.next = w.next := by
    intro w' hn hnext hne
    cases hd : w'.entryDone && w'.hdrDone with
    | true => simp [hd] at hne
    | false => exact ⟨w', by simp, hn, hnext⟩
  exact hkey _ (by cases w.hdrDone <;> rfl) (by cases w.hdrDone <;> rfl) h

/-- A client stops raising a node only when header and entry declare the type. -/
theorem step_raises (hr : c.Recalls L m) {ch : Choice n} {mv : Move n} (hs : Step crc m c ch mv)
    {a : Addr} {t : NodeType} (h : c.pc.raises a t) :
    mv.client.pc.raises a t ∨ t.code ≤ (m.node a).hdr.type.code ∧ Declared L m a t := by
  cases hs with
  | @switchEntry w hpc =>
    rw [hpc] at h
    obtain ⟨-, he⟩ | ⟨-, -, he⟩ | ⟨-, -, he⟩ := w.casEntry_cases m <;>
      exact .inl (by simpa [he, Pc.raises] using h)
  | @switchHdr w hpc =>
    rw [hpc] at h
    left
    obtain ⟨-, he⟩ | ⟨-, d, -, he⟩ := w.casHdr_cases m <;>
      (rw [he, Switch.afterCas]; split <;> exact h)
  | @switchDown w hpc =>
    rw [hpc] at h
    left
    rw [Switch.down]
    split
    · split <;> exact h
    · exact h
  | @switchEnd w hpc =>
    rw [hpc] at h
    obtain ⟨rfl, hle⟩ := h
    simp only [Client.Recalls, hpc] at hr
    obtain ⟨hf, hb, -⟩ := hr
    by_cases hclose : w.close = .finish true
    · right
      obtain ⟨he, hd⟩ := Switch.close_finish hclose
      obtain ⟨ptr, σ, b, u, h1, h2, h3⟩ := hf.entry he
      refine ⟨hle.trans ?_, ptr, σ, b, u, h1, h2, hle.trans h3⟩
      obtain hd | ⟨hd, hbuf⟩ := hd
      · exact hf.hdr hd
      · exact hbuf.trans (hb hd)
    · obtain ⟨w', he, hn, hnext⟩ := w.close_again hclose
      left
      rw [he]
      exact ⟨hn, hnext ▸ hle⟩
  | flush => exact .inl h
  | readRoot hpc | next hpc | leafRead hpc | leafWord hpc | reread hpc | gotLeaf hpc
  | combineUpdate hpc | lockBusy hpc | lockTaken hpc | writeFault hpc | combineWrite hpc
  | written hpc | writeWord hpc | leafPrepare hpc | leafWrite hpc | leafCasDone hpc
  | leafCasFailed hpc | splitReuse hpc | splitFresh hpc | splitFault hpc | splitWrite hpc
  | splitCasDone hpc | splitCasFailed hpc | splitRev hpc | splitHdr hpc | typeRead hpc
  | nodeWord hpc | restRead hpc | restWord hpc | nodeRead hpc | scan hpc | emptyScan hpc
  | finish hpc =>
    rw [hpc] at h
    exact h.elim

end SmartTree
