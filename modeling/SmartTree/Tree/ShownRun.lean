import SmartTree.Tree.ShownClient

/-! What is in sight stays in sight over whole runs: the steps of an insert that publish, and
the invariant of the system. -/
namespace SmartTree
open Transition
variable {n : ℕ} {L : Layout} {m m' : Mem n} {c : Client n} {crc : Key n → Value → UInt64}

namespace Client

def slotBehind (c : Client n) : Option ℕ :=
  match c.pc with
  | .leafCas (.behind i) => some i
  | _ => none

/-- An insert that loses the race for a slot behind the declared size to its own byte goes on
there only when the header covers the slot. -/
def InBounds (m : Mem n) (c : Client n) : Prop :=
  ∀ i ∈ c.slotBehind, m.load (.slot c.target i) ≠ .null →
    (m.load (.slot c.target i)).partialKey = c.key.byte c.depth → i < (m.node c.target).hdr.type.num

instance (m : Mem n) (c : Client n) : Decidable (c.InBounds m) :=
  inferInstanceAs (Decidable (∀ i ∈ c.slotBehind, _ → _ → _))

end Client

/-- The client's next step of its own, not the completion of an issued operation. -/
def Choice.isGo : Choice n → Bool
  | .go => true
  | _ => false

/-- A new leaf is in sight at once, or behind the declared size only. -/
theorem leafCasDone_shows {site : Site} {b : UInt8} {l : Addr} (hk : c.SiteOk L m site)
    (hr : HdrHeld L m c.p c.page.hdr)
    (hc : Change L m [(l, .leaf)] (m.store (.leaf b l) (c.sitePtr c.target site)))
    (ht' : TreeInv (L.publish [(l, .leaf)]) (m.store (.leaf b l) (c.sitePtr c.target site)))
    (hx : Extends L m (L.publish [(l, .leaf)]) (m.store (.leaf b l) (c.sitePtr c.target site)))
    (hkey : (m.leaf l).key = c.key) (h : Open L m 0 c.p) :
    (c.leafCasDone c.target site).Shows (L.publish [(l, .leaf)])
      (m.store (.leaf b l) (c.sitePtr c.target site)) := by
  have hload := m.load_store_self (.leaf b l) (c.sitePtr c.target site)
  set m' := m.store (.leaf b l) (c.sitePtr c.target site) with hm'
  set L' := L.publish [(l, .leaf)] with hL'
  have hbytes : BytesOf L' m' l c.key.bytes := by
    have := BytesOf.leaf (L := L') (m := m') (a := l) (by simp [hL', Layout.publish])
    rwa [hm', Mem.store_leaf, hkey] at this
  have hnode : ∀ {a π i}, c.InNode L m a π → m'.load (.slot a i) = .leaf b l →
      EntryOk L' m' (π ++ [(m'.load (.slot a i)).partialKey]) (.leaf b l) ∧
        Open L' m' (π.length + 1) (.leaf b l) := by
    intro a π i hi hl
    have hs : SlotPath L' m' (.slot a i) _ := .slot (hx.layout _ _ hi.layout) (by simp [hl])
    have ho := Open.of_load ht' hs
    have hok := ht'.entry hs
    rw [List.length_append, List.length_singleton] at ho
    rw [hl] at ho
    exact ⟨by rwa [hl] at hok ⊢, ho⟩
  cases hk with
  | null hσ hp =>
    rw [Client.sitePtr, (hσ.null hp).1] at hload
    have ho := Open.of_load ht' (SlotPath.root (L := L') (m := m'))
    rw [hload] at ho
    exact fun _ => ho.shown rfl hbytes
  | @empty a π i hi _ _ hlt =>
    obtain ⟨bp, hp⟩ := hi.entry
    rw [Client.sitePtr, hi.target] at hload
    obtain ⟨hok, ho⟩ := hnode hi hload
    have hcode := (hr a (by rw [hp]; rfl)).2.trans (hc.grows.hdr a (by simp [hi.layout]))
    have hopen := h.mono hi.entryOk hc ht' hx
    rw [hp] at hopen
    have := hopen.below ht' (hx.layout _ _ hi.layout) (by simp [hload])
      (hlt.trans_le (NodeType.num_mono hcode)) hok ho
    exact fun _ => this.shown rfl hbytes
  | @behind a π i hi _ h0 hlt =>
    obtain ⟨t, h1, -, h3⟩ := numToNodeType_spec h0 hlt
    obtain ⟨bp, hp⟩ := hi.entry
    rw [Client.sitePtr, hi.target] at hload
    obtain ⟨hok, ho⟩ := hnode hi hload
    have hopen := h.mono hi.entryOk hc ht' hx
    rw [hp] at hopen
    have := hopen.below_but ht' (hx.layout _ _ hi.layout) (by simp [hload]) hok ho rfl hbytes
    rw [Client.leafCasDone, h1, hi.target]
    refine this.weaken fun y j _ _ _ _ hyj => .inr ?_
    obtain ⟨rfl, rfl⟩ := hyj
    exact ⟨rfl, h3⟩

theorem leafCasFailed_shows (ht : TreeInv L m) {site : Site} {b : UInt8} (hpc : c.pc = .leafCas site)
    (hk : c.SiteOk L m site) (hb : c.siteByte site = some b)
    (hn : m.load (c.sitePtr c.target site) ≠ .null)
    (hr : HdrHeld L m c.p c.page.hdr) (hin : c.InBounds m) (h : Open L m 0 c.p) :
    (c.leafCasFailed c.target (m.load (c.sitePtr c.target site)) b site).Shows L m := by
  cases hk with
  | null hσ hp =>
    obtain ⟨hroot, -⟩ := hσ.null hp
    have ho := Open.of_load ht (SlotPath.root (L := L) (m := m))
    simp only [Client.leafCasFailed, Client.sitePtr, hroot]
    exact ho
  | @empty a π i hi _ _ hlt =>
    obtain rfl := Option.some.inj ((hi.getPartial ht).symm.trans hb)
    obtain ⟨bp, hp⟩ := hi.entry
    have hcode := NodeType.num_mono (hr a (by rw [hp]; rfl)).2
    rw [Client.sitePtr, hi.target] at hn ⊢
    rw [Client.leafCasFailed]
    split
    · have ho := Open.of_load ht (.slot hi.layout hn)
      rw [List.length_append, List.length_singleton] at ho
      exact Client.descend_shows ht hi hn (.of_load ht hi.layout) (hlt.trans_le hcode) h ho
    · exact h
  | @behind a π i hi _ _ _ =>
    obtain rfl := Option.some.inj ((hi.getPartial ht).symm.trans hb)
    have hin := hin i (by simp [Client.slotBehind, hpc])
    rw [hi.target] at hin
    rw [Client.sitePtr, hi.target] at hn ⊢
    rw [Client.leafCasFailed]
    split
    · rename_i hbyte
      have ho := Open.of_load ht (.slot hi.layout hn)
      rw [List.length_append, List.length_singleton] at ho
      exact Client.descend_shows ht hi hn (.of_load ht hi.layout) (hin hn hbyte) h ho
    · split
      · exact h
      · trivial

theorem splitCasDone_shows (ht : TreeInv L m) (h : Local L m c) {sp : Split} {nodes : List Addr}
    (hpc : c.pc = .splitCas sp nodes) (hp : m.load c.pPtr = c.p) (ho : Open L m 0 c.p) :
    Client.Shows (L.publish ((c.leafAddr.getD 0, .leaf) ::
        ((c.pages sp nodes).getD []).map fun q => (q.1, .node (cachePath c.key q.2.hdr))))
      (m.store (.node c.p.partialKey .node4 (nodes.headD 0)) c.pPtr)
      { c with pc := .splitRev sp nodes } := by
  have hout := splitCasDone_outcome ht h hpc hp
  have hk := h.knows
  simp only [Client.Knows, hpc] at hk
  obtain ⟨-, σ, hsp⟩ := hk
  obtain ⟨l, pages, hl, hpg, hfst, g⟩ := hsp.graft h hpc hp
  have hpub : (c.leafAddr.getD 0, .leaf) ::
      ((c.pages sp nodes).getD []).map (fun q => (q.1, .node (cachePath c.key q.2.hdr))) =
        grafted c.key l pages := by rw [hl, hpg]; rfl
  have ht' := hout.tree
  have hcache := hout.client.knows
  dsimp only at ht' hcache
  rw [hpub] at ht' hcache ⊢
  have hsight := g.shown (x := nodes.headD 0) ht (congrArg Entry.partialKey hp) (hp ▸ ho)
  refine ⟨hsight, fun pages' hpg' q hq x hx => ?_⟩
  have hlog := hcache.1 pages' hpg' q hq x hx
  obtain rfl := Option.some.inj (hpg.symm.trans hpg')
  have hL := g.layout_page hq
  have hhdr := (g.written q hq).1
  refine PageOpen.logOpen (b := 0) (t := .node4) (fun π hπ i _ _ => ?_) (fun a τ ha hb => ?_) ?_ hx hlog
  · rw [← g.load_page hq (.node c.p.partialKey .node4 (nodes.headD 0))]
    by_cases hn : (m.store (.node c.p.partialKey .node4 (nodes.headD 0)) c.pPtr).load (.slot q.1 i) =
        .null
    · exact hn ▸ .null _
    · have hos := Open.of_load ht' (.slot hπ hn)
      rwa [List.length_append, List.length_singleton] at hos
  · cases ha
    obtain rfl := hb.unique (.node hL)
    obtain ⟨d, j, -, -, hh, -⟩ := g.chain.page hq
    refine (hsight.of_prefix ?_).weaken fun _ _ _ _ _ _ hf => hf.elim
    rw [hh, cachePath_eq]
    exact List.take_prefix _ _
  · rw [Mem.store_hdr, hhdr]

section switch
variable {w : Switch}

theorem Client.Raising.congr {w' : Switch} (h : c.Raising L m w) (hn : w'.node = w.node)
    (ht : w'.next = w.next) : c.Raising L m w' := by
  unfold Raising
  rw [hn, ht]
  exact h

theorem switchDown_shows (h : c.Raising L m w) :
    Client.Shows L m { c with pc := w.down m } := by
  unfold Switch.down
  split
  · split
    · exact h.congr rfl rfl
    · exact h.congr rfl rfl
  · exact h.congr rfl rfl

theorem afterCas_shows (h : c.Raising L m w) : Client.Shows L m { c with pc := w.afterCas } := by
  unfold Switch.afterCas
  split
  · exact h
  · exact h.congr rfl rfl

theorem switchEnd_shows (hf : w.Follows L m) (hb : w.Buffered m) (h : c.Raising L m w) :
    Client.Shows L m { c with pc := w.close } := by
  by_cases hclose : w.close = .finish true
  · rw [hclose]
    have hcode : w.next.code ≤ (m.node w.node).hdr.type.code := by
      obtain ⟨-, hd | ⟨hd, hle⟩⟩ := Switch.close_finish hclose
      · exact hf.hdr hd
      · exact hle.trans (hb hd)
    refine fun _ => h.weaken fun a i _ _ _ _ hai => .inl ?_
    obtain ⟨rfl, hi⟩ := hai
    exact hi.trans_le (NodeType.num_mono hcode)
  · obtain ⟨w', he, hn, ht⟩ := w.close_again hclose
    rw [he]
    exact h.congr hn ht

end switch

theorem step_shows (ht : TreeInv L m) (hl : Local L m c) (hr : c.Recalls L m) (hst : c.Stores L m)
    (h : c.Shows L m) {ch : Choice n} (hin : ch.isGo = true → c.InBounds m) {mv : Move n}
    (hs : Step crc m c ch mv) :
    mv.client.Shows (L.publish mv.published) mv.mem ∧
      ∀ q ∈ mv.added, LogOpen (L.publish mv.published) mv.mem q := by
  have ho := step_outcome ht hl hs
  have hc := step_change ht hl hr hs
  have h' := h.mono hc ho.tree ho.ext hl.knows hst
  have hk := hl.knows
  cases hs with
  | readRoot hpc =>
    refine ⟨?_, by simp⟩
    have hroot := Open.of_load ht (SlotPath.root (L := L) (m := m))
    cases c.isSearch && m.root.isNull
    · exact hroot
    · trivial
  | next hpc =>
    simp only [Client.Shows, hpc] at h
    exact ⟨Client.next_shows h, by simp⟩
  | leafRead hpc =>
    simp only [Client.Shows, hpc] at h
    exact ⟨Client.leafRead_shows h, by simp⟩
  | leafWord hpc =>
    simp only [Client.Shows, hpc] at h
    exact ⟨h, by simp⟩
  | reread hpc =>
    simp only [Client.Knows, hpc] at hk
    simp only [Client.Shows, hpc] at h
    obtain ⟨hne, σ, hσ⟩ := hk
    exact ⟨h.reload ht hσ.slot hσ.entry hne, by simp⟩
  | gotLeaf hpc =>
    simp only [Client.Knows, hpc] at hk
    simp only [Client.Shows, hpc] at h
    exact ⟨Client.gotLeaf_shows h hk, by simp⟩
  | combineUpdate hpc =>
    simp only [Client.Knows, hpc] at hk
    simp only [Client.Shows, hpc] at h
    obtain ⟨hkey, b, l, hp, hL, hb⟩ := hk
    refine ⟨?_, by simp⟩
    dsimp only
    split
    · exact fun _ => Client.inSight_of_leaf h hp hL hb hkey
    · exact h
  | lockBusy => exact ⟨h, by simp⟩
  | lockTaken hpc | writeWord hpc | splitReuse hpc | splitFresh hpc | splitWrite hpc
  | leafWrite hpc =>
    simp only [Client.Shows, hpc] at h'
    exact ⟨h', by simp⟩
  | combineWrite hpc =>
    simp only [Client.Shows, hpc] at h
    exact ⟨h, by simp⟩
  | written hpc =>
    simp only [Client.Knows, hpc] at hk
    simp only [Client.Shows, hpc] at h
    obtain ⟨hkey, b, l, hp, hL, hb⟩ := hk
    exact ⟨fun _ => Client.inSight_of_leaf h hp hL hb hkey, by simp⟩
  | writeFault | splitFault | finish => exact ⟨trivial, by simp⟩
  | leafPrepare hpc =>
    simp only [Client.Shows, hpc] at h
    exact ⟨Client.leafPrepare_shows h, by simp⟩
  | @leafCasDone site b l hpc _ _ hla =>
    simp only [Client.Knows, hpc] at hk
    simp only [Client.Shows, hpc] at h
    simp only [Client.Recalls, hpc] at hr
    have hkept := hl.kept
    simp only [Client.LeafKept, hpc] at hkept
    have hkey := (hkept l (by simp [Client.leafOwned, hpc, hla])).1
    exact ⟨leafCasDone_shows hk hr.1.2 hc ho.tree ho.ext hkey h, by simp⟩
  | leafCasFailed hpc _ hb _ hn =>
    simp only [Client.Knows, hpc] at hk
    simp only [Client.Shows, hpc] at h
    simp only [Client.Recalls, hpc] at hr
    exact ⟨leafCasFailed_shows ht hpc hk hb hn hr.1.2 (hin rfl) h, by simp⟩
  | splitCasDone hpc _ hp =>
    simp only [Client.Shows, hpc] at h
    exact ⟨splitCasDone_shows ht hl hpc hp h, by simp⟩
  | splitCasFailed hpc =>
    simp only [Client.Knows, hpc] at hk
    simp only [Client.Shows, hpc] at h'
    obtain ⟨-, σ, hσ⟩ := hk
    have := h'.reload ho.tree (hσ.located.slot.mono ho.ext) (hσ.located.entry.mono ho.ext) hσ.full
    rw [Mem.free_load] at this
    exact ⟨this, by simp⟩
  | @splitRev sp nodes hpc =>
    simp only [Client.Shows, hpc] at h
    refine ⟨?_, fun q hq => ?_⟩
    · unfold Client.splitRev
      cases sp.hdrIdx with
      | none => exact fun _ => h.1
      | some => exact h.1
    · obtain ⟨x, hx, hq⟩ := List.mem_flatMap.mp hq
      cases hp : c.pages sp nodes with
      | none => simp [hp] at hx
      | some pages => exact h.2 pages hp x (by simpa [hp] using hx) q hq
  | splitHdr hpc =>
    simp only [Client.Shows, hpc] at h
    exact ⟨fun _ => h, by simp⟩
  | typeRead hpc =>
    simp only [Client.Knows, hpc] at hk
    simp only [Client.Shows, hpc] at h
    obtain ⟨-, b, t, a, π, hp, -⟩ := hk
    exact ⟨Client.typeRead_shows h hp, by simp⟩
  | nodeWord hpc hw =>
    simp only [Client.Shows, hpc] at h
    exact ⟨⟨h.1, h.2.word ht hw⟩, by simp⟩
  | restRead hpc =>
    simp only [Client.Shows, hpc] at h
    exact ⟨h, by simp⟩
  | restWord hpc hw =>
    simp only [Client.Shows, hpc] at h
    exact ⟨⟨h.1, h.2.word ht hw⟩, by simp⟩
  | nodeRead hpc =>
    simp only [Client.Knows, hpc] at hk
    simp only [Client.Shows, hpc] at h
    simp only [Client.Recalls, hpc] at hr
    have := Client.nodeRead_shows ht hk hr.2 h
    rw [Client.nodeRead_eq]
    exact this
  | scan hpc =>
    simp only [Client.Knows, hpc] at hk
    simp only [Client.Shows, hpc] at h
    simp only [Client.Recalls, hpc] at hr
    obtain ⟨a, π, hn⟩ := hk
    exact ⟨Client.scan_shows ht hn hr.2 h, by simp⟩
  | emptyScan hpc =>
    simp only [Client.Shows, hpc] at h
    exact ⟨Client.emptyScan_shows h, by simp⟩
  | @switchEntry w hpc =>
    simp only [Client.Shows, hpc] at h'
    refine ⟨?_, by simp⟩
    obtain ⟨-, he⟩ | ⟨-, -, he⟩ | ⟨-, -, he⟩ := w.casEntry_cases m <;>
      exact Client.Raising.congr h' (by rw [he]) (by rw [he])
  | @switchHdr w hpc =>
    simp only [Client.Shows, hpc] at h'
    refine ⟨afterCas_shows (Client.Raising.congr h' ?_ ?_), by simp⟩
    · obtain ⟨-, he⟩ | ⟨-, d, -, he⟩ := w.casHdr_cases m <;> rw [he]
    · obtain ⟨-, he⟩ | ⟨-, d, -, he⟩ := w.casHdr_cases m <;> rw [he]
  | switchDown hpc =>
    simp only [Client.Shows, hpc] at h
    exact ⟨switchDown_shows h, by simp⟩
  | switchEnd hpc =>
    simp only [Client.Shows, hpc] at h
    simp only [Client.Recalls, hpc] at hr
    exact ⟨switchEnd_shows hr.1 hr.2.1 h, by simp⟩
  | flush => exact ⟨h', by simp⟩

namespace World
variable {ι : Type*}

/-- Everything that has been completed is in sight, and so is what clients and caches hold. -/
structure Sighted (s : World ι n) : Prop where
  recalling : Recalling s
  storing : Storing s
  client : ∀ i, (s.client i).Shows s.layout s.mem
  log : ∀ q ∈ s.log, LogOpen s.layout s.mem q
  done : ∀ k ∈ s.done, InSight s.layout s.mem k

theorem Initial.sighted {s : World ι n} (h : Initial s) : Sighted s where
  recalling := h.recalling
  storing := h.storing
  client i := by simp [Client.Shows, h.idle i]
  log := by simp [h.log]
  done := by simp [h.done]

def Bounded (s : World ι n) (a : ι × Choice n) : Prop :=
  a.2.isGo = true → (s.client a.1).InBounds s.mem

instance (s : World ι n) (a : ι × Choice n) : Decidable (s.Bounded a) :=
  inferInstanceAs (Decidable (_ → _))

variable [DecidableEq ι] [Fintype ι]

theorem Begins.shows {log : List (List UInt8 × CacheEntry)} {hit : Option ℕ} {c' : Client n}
    (hb : Begins log c hit c') (ht : TreeInv L m) (hlog : ∀ q ∈ log, LogOk L m q)
    (hopen : ∀ q ∈ log, LogOpen L m q) : c'.Shows L m := by
  cases hb with
  | root => trivial
  | @hit j path ce i e hq hp hlen hi he hbyte =>
    have hok := hlog _ (List.mem_of_getElem? hq)
    have ho := hopen _ (List.mem_of_getElem? hq)
    obtain ⟨h1, h2, h3⟩ := hok.slot i e hi he
    obtain ⟨hlt, hoe⟩ := ho.slot i e hi
    exact ho.node.below ht hok.layout h1 hlt (h2 ▸ h3) hoe

theorem Sighted.takes {s t : World ι n} {a : ι × Choice n} (h : Sighted s) (hin : s.Bounded a)
    (ht : Takes crc s a t) : Sighted t := by
  have hrec := (h.recalling.takes ht).1
  have hsto := h.storing.takes ht
  have hsafe := h.recalling.safe
  cases ht with
  | @start i isSearch k v isLoad hit c' hpc hb =>
    refine ⟨hrec, hsto, fun j => ?_, fun q hq => h.log q (by simpa [put] using hq), h.done⟩
    by_cases hj : j = i
    · subst hj
      rw [put_client_self]
      exact Begins.shows hb hsafe.tree hsafe.log h.log
    · rw [put_client_ne _ _ hj]
      exact h.client j
  | @step i ch mv hs =>
    have ho := step_outcome hsafe.tree (hsafe.client i) hs
    have hc := step_change hsafe.tree (hsafe.client i) (h.recalling.client i) hs
    obtain ⟨hclient, hadded⟩ := step_shows hsafe.tree (hsafe.client i) (h.recalling.client i)
      (h.storing.client i) (h.client i) hin hs
    refine ⟨hrec, hsto, fun j => ?_, fun q hq => ?_, fun k hk => ?_⟩
    · by_cases hj : j = i
      · subst hj
        rw [put_client_self]
        exact hclient
      · rw [put_client_ne _ _ hj]
        exact (h.client j).mono hc ho.tree ho.ext (hsafe.client j).knows (h.storing.client j)
    · obtain hq | hq := List.mem_append.mp hq
      · exact (h.log q hq).mono hc ho.tree ho.ext (hsafe.log q hq)
      · exact hadded q hq
    · obtain hk | hk := List.mem_append.mp hk
      swap
      · exact (h.storing.done k hk).shown_mono hc ho.tree ho.ext (h.done k hk)
      · obtain ⟨r, hpc, hsr, rfl⟩ := step_returned hs hk
        have hshow := h.client i
        simp only [Client.Shows, hpc] at hshow
        exact (h.storing.client i (by simp [Client.Past, hpc, hsr])).shown_mono hc ho.tree ho.ext
          (hshow hsr)

theorem sighted_of_reach {s : World ι n} (h : (treeSystem ι crc).Reach Bounded s) : Sighted s :=
  h.invariant (P := Sighted) (fun _ => Initial.sighted) fun _ _ _ _ ih hw hn => ih.takes hw (next_takes hn)

end World
end SmartTree
