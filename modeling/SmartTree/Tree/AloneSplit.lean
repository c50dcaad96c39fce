import SmartTree.Tree.AloneWrite

/-! A lone client's splits: the slot still holds the entry that was read, and the object it
displaces still points back at the slot. -/
namespace SmartTree
variable {n : ℕ} {L : Layout} {m : Mem n} {c : Client n} {crc : Key n → Value → UInt64}

namespace Alone
variable (h : Alone crc L m c)
include h
variable {sp : Split} {nodes : List Addr}

theorem splitFresh (ht : TreeInv L m) {l : Addr} {v : Option Value} (hpc : c.pc = .splitPrepare sp) :
    Alone crc L (m.alloc (l :: nodes)) { c with
      value := v.getD c.value, leafAddr := some l, pc := .splitWrite sp nodes true } := by
  have hs := h.sees
  simp only [Client.Sees, hpc] at hs
  obtain ⟨⟨hq, hld⟩, -, hseen⟩ := hs
  have hx := h.exact (by simp [hpc, Pc.owes]) hq
  refine .of_exact rfl hq ?_ ?_
  · exact hx.congr ht ⟨fun _ _ => by simp, fun _ _ => rfl, fun _ _ => rfl, fun _ _ => rfl⟩
  · exact ⟨⟨hq, by simpa using hld⟩, hseen, rfl⟩

theorem splitWrite (ht : TreeInv L m) (hl : Local L m c) {unwrite : Bool}
    {pages : List (Addr × Page)} (hpc : c.pc = .splitWrite sp nodes unwrite)
    (hp : c.pages sp nodes = some pages) :
    Alone crc L (if unwrite then (m.writePages pages).setLeaf (c.leafAddr.getD 0) fun _ =>
        .make crc c.key c.value (.slot (nodes.getLastD 0) 1) else m.writePages pages)
      { c with pc := .splitCas sp nodes } := by
  have hs := h.sees
  have hk := hl.knows
  simp only [Client.Sees, hpc] at hs
  simp only [Client.Knows, hpc] at hk
  obtain ⟨hn, σ, hsp⟩ := hk
  obtain ⟨⟨hq, hld⟩, hseen, rfl⟩ := hs
  obtain ⟨l, hla⟩ := hn.leaf
  obtain ⟨pages', hp', hfst, -⟩ := hsp.pages hn
  obtain rfl := Option.some.inj (hp'.symm.trans hp)
  have howned : c.owned = l :: nodes := by
    simp [Client.owned, Client.leafOwned, Client.nodesOwned, hpc, hla]
  have hfresh : ∀ {x}, L x ≠ none → x ≠ l ∧ x ∉ pages'.map Prod.fst := by
    intro x hx
    have : x ∉ c.owned := fun hm => hx (hl.fresh x hm).1
    rw [howned, List.mem_cons, not_or] at this
    exact ⟨this.1, hfst ▸ this.2⟩
  have hnd : (pages'.map Prod.fst).Nodup := by
    have := hl.nodup
    rw [howned, List.nodup_cons] at this
    exact hfst ▸ this.2
  have hagree : Agrees L m ((m.writePages pages').setLeaf l fun _ =>
      .make crc c.key c.value (.slot (nodes.getLastD 0) 1)) := by
    refine ⟨fun p hpp => ?_, fun a ha => ?_, fun a ha => ?_, fun x hx => ?_⟩
    · cases p with
      | root => simp [Mem.load, Mem.setLeaf]
      | slot a i => exact congrArg (fun pg : Page => pg.slots i) (m.writePages_node_ne (hfresh hpp).2)
    · exact congrArg Page.hdr (m.writePages_node_ne (hfresh ha).2)
    · exact congrArg Page.rev (m.writePages_node_ne (hfresh ha).2)
    · rw [Mem.setLeaf_ne _ _ (hfresh hx).1, Mem.writePages_leaf]
  have hl0 : c.leafAddr.getD 0 = l := by rw [hla]; rfl
  rw [if_pos rfl, hl0]
  refine .of_exact rfl hq ?_ ?_
  · exact (h.exact (by simp [hpc, Pc.owes]) hq).congr ht hagree
  · refine ⟨⟨hq, (hagree.load _ hsp.located.slot.hasSlot).trans hld⟩, fun b t a hpa => ?_,
      ⟨l, hla, Mem.setLeaf_self ..⟩, fun pages hpg q hq' => ?_⟩
    · obtain ⟨h1, h2⟩ := hseen b t a hpa
      have he := hsp.located.entry
      rw [show c.p = .node b t a from hpa] at he
      cases he with
      | node ha _ => exact ⟨h1, h2.trans (hagree.hdr a (by simp [ha])).symm⟩
    · obtain rfl := Option.some.inj (hp.symm.trans hpg)
      have hnode := congrArg Page.rev (m.writePages_node hnd hq')
      exact hnode

omit h in
/-- The object a split displaces still points at the slot, so it is told where it hangs now. -/
theorem displaced (nodes : List Addr) {σ : List UInt8} (hx : Linked crc L m) (hsp : c.SplitOk L m sp σ)
    (hld : m.load c.pPtr = c.p) (hseen : c.HdrSeen m sp) (hq : c.pending = []) :
    Displaced m (Client.settle (m.store (.node c.p.partialKey .node4 (nodes.headD 0)) c.pPtr)
        { c with pc := .splitRev sp nodes })
      c.pPtr (σ.length + sp.partialLen + 2) (.node c.p.partialKey .node4 (nodes.headD 0))
      (.slot (nodes.getLastD 0) 0) := by
  have hset : Client.settle (m.store (.node c.p.partialKey .node4 (nodes.headD 0)) c.pPtr)
      { c with pc := .splitRev sp nodes } = (c.revOps nodes ++ c.hdrOps sp.hdrIdx).foldl Mem.perform
        (m.store (.node c.p.partialKey .node4 (nodes.headD 0)) c.pPtr) := by
    simp only [Client.settle, Client.dueOps, hq]
    rfl
  rw [hset]
  generalize hm : m.store (.node c.p.partialKey .node4 (nodes.headD 0)) c.pPtr = m₁
  have hhdr : ∀ a, (m₁.node a).hdr = (m.node a).hdr := by simp [← hm]
  have hrev : ∀ a, (m₁.node a).rev = (m.node a).rev := by simp [← hm]
  have hleaf : m₁.leaf = m.leaf := by simp [← hm]
  cases he : c.p with
  | null => exact absurd he hsp.full
  | leaf b x =>
    have hidx : sp.hdrIdx = none := by
      by_contra hne
      obtain ⟨i, hi⟩ := Option.ne_none_iff_exists'.mp hne
      obtain ⟨a, π, hs, -⟩ := hsp.hdr i hi
      obtain ⟨b', t, hp⟩ := hs.entry
      cases he.symm.trans hp
    have hr := hx.rev hsp.located.slot (hld.trans he)
    have hops : c.revOps nodes ++ c.hdrOps sp.hdrIdx =
        [.casRevLeaf x c.pPtr (.slot (nodes.getLastD 0) 0)] := by
      simp [Client.revOps, Client.hdrOps, he, hidx]
    rw [hops, List.foldl_cons, List.foldl_nil]
    refine ⟨fun p => by simp [← hm, he], fun a _ => ⟨hhdr a, hrev a⟩, fun y hy => ?_, ?_, ?_⟩
    · have hyx : y ≠ x := by rintro rfl; exact hy (by rw [hld, he]; rfl)
      rw [Mem.perform, Mem.setLeaf_ne _ _ hyx, hleaf]
    · intro b' y hy
      cases hld.symm.trans hy |>.symm.trans he
      rw [Mem.perform, Mem.setLeaf_self, hleaf, if_pos hr]
    · intro b' t a ha
      cases hld.symm.trans ha |>.symm.trans he
  | node b t a =>
    obtain ⟨hidx, hsame⟩ := hseen b t a he
    obtain ⟨i, hi⟩ := Option.ne_none_iff_exists'.mp hidx
    obtain ⟨_, _, -, hdep⟩ := hsp.hdr i hi
    have hr := (hx.node hsp.located.slot (hld.trans he)).rev
    have hops : c.revOps nodes ++ c.hdrOps sp.hdrIdx =
        [.casRevNode a c.pPtr (.slot (nodes.getLastD 0) 0),
          .casHeader a c.page.hdr (c.page.hdr.splitHeader i)] := by
      simp [Client.revOps, Client.hdrOps, Client.target, he, hi]
    rw [hops, List.foldl_cons, List.foldl_cons, List.foldl_nil]
    refine ⟨fun p => by simp [← hm, he], fun x hxa => ?_, fun y _ => congrFun hleaf y, ?_, ?_⟩
    · have hne : x ≠ a := by rintro rfl; exact hxa (by rw [hld, he]; rfl)
      simp only [Mem.perform, Mem.setNode_ne _ _ hne]
      exact ⟨hhdr x, hrev x⟩
    · intro b' y hy
      cases hld.symm.trans hy |>.symm.trans he
    · intro b' t' x hxa
      cases hld.symm.trans hxa |>.symm.trans he
      simp only [Mem.perform, Mem.setNode_self, hrev, hr, if_true, hhdr, ← hsame, Header.casSplit,
        and_self, Header.splitHeader]
      exact ⟨trivial, by omega, trivial⟩

theorem splitCasDone (ht : TreeInv L m) (hl : Local L m c) (hpc : c.pc = .splitCas sp nodes) :
    Alone crc (L.publish ((c.leafAddr.getD 0, .leaf) ::
        ((c.pages sp nodes).getD []).map fun q => (q.1, .node (cachePath c.key q.2.hdr))))
      (m.store (.node c.p.partialKey .node4 (nodes.headD 0)) c.pPtr)
      { c with pc := .splitRev sp nodes } := by
  have hs := h.sees
  have hk := hl.knows
  simp only [Client.Sees, hpc] at hs
  simp only [Client.Knows, hpc] at hk
  obtain ⟨-, σ, hsp⟩ := hk
  obtain ⟨⟨hq, hld⟩, hseen, ⟨l', hla', hmake⟩, hrev⟩ := hs
  obtain ⟨l, pages, hla, hpg, hfst, g⟩ := hsp.graft hl hpc hld
  obtain rfl := Option.some.inj (hla.symm.trans hla')
  have hx := h.exact (by simp [hpc, Pc.owes]) hq
  have hdis := displaced nodes hx.linked hsp hld hseen hq
  have hpub : (c.leafAddr.getD 0, .leaf) ::
      ((c.pages sp nodes).getD []).map (fun q => (q.1, .node (cachePath c.key q.2.hdr))) =
        grafted c.key l pages := by rw [hla, hpg]; rfl
  rw [hpub]
  refine ⟨⟨?_, g.sized ht hdis hx.sized⟩, hq, fun pages' hpg' q hqm => ?_⟩
  · exact g.linked ht hdis hx.linked (by rw [hfst]) (by rw [hld]) (by rw [hfst])
      (splitPages_revChain hpg) (hrev pages hpg) hmake
  · obtain rfl := Option.some.inj (hpg.symm.trans hpg')
    refine ⟨g.layout_page hqm, by rw [Mem.store_hdr]; exact (g.written q hqm).1, funext fun i => ?_⟩
    exact g.load_page hqm _ i

theorem splitRev (hpc : c.pc = .splitRev sp nodes) :
    Alone crc L m (c.splitRev m sp nodes).client := by
  have hx := h.settled
  simp only [Client.settle, Client.dueOps, hpc] at hx
  rw [← List.append_assoc] at hx
  unfold Client.splitRev
  cases hi : sp.hdrIdx with
  | none =>
    rw [hi, Client.hdrOps, List.append_nil] at hx
    exact ⟨by rwa [Client.settle_calm rfl], trivial⟩
  | some i =>
    rw [hi] at hx
    exact ⟨hx, trivial⟩

theorem splitHdr {i : ℕ} (hpc : c.pc = .splitHdr i) : Alone crc L m (c.splitHdr i) := by
  have hx := h.settled
  simp only [Client.settle, Client.dueOps, hpc] at hx
  exact ⟨by rwa [Client.settle_calm rfl], trivial⟩

end Alone
end SmartTree
