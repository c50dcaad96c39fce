import SmartTree.Tree.AloneRead

/-! The steps of a lone client that write a leaf or grow a node: every compare-and-swap
finds what it expects, and what is still owed makes the tree exact. -/
namespace SmartTree
variable {n : ℕ} {L : Layout} {m : Mem n} {c : Client n} {crc : Key n → Value → UInt64}

theorem Mem.setLeaf_setLeaf {a : Addr} {f g : Leaf n → Leaf n} :
    (m.setLeaf a f).setLeaf a g = m.setLeaf a fun l => g (f l) := by
  simp [Mem.setLeaf]

theorem Mem.setLeaf_of_eq {a : Addr} {f : Leaf n → Leaf n} (h : f (m.leaf a) = m.leaf a) :
    m.setLeaf a f = m := by
  simp [Mem.setLeaf, h]

namespace Alone
variable (h : Alone crc L m c)
include h

section leaf

theorem combineUpdate {v : Option Value} (hpc : c.pc = .combineUpdate) :
    Alone crc L m { c with
      value := v.getD c.value
      pc := if c.leaf.value = v.getD c.value then .finish true else .acquireLock } := by
  have hs := h.sees
  simp only [Client.Sees, hpc] at hs
  obtain ⟨⟨hq, hld⟩, hla, hleaf⟩ := hs
  split
  · exact h.quiet (by simp [hpc, Pc.owes]) rfl rfl trivial
  · exact h.quiet (by simp [hpc, Pc.owes]) rfl rfl ⟨⟨hq, hld⟩, hla, hleaf⟩

theorem lockTaken (hpc : c.pc = .acquireLock) (hl : (m.leaf c.target).lock = false) :
    Alone crc L (m.setLeaf c.target fun l => { l with lock := true })
      { c with pc := .combineWrite } := by
  have hs := h.sees
  simp only [Client.Sees, hpc] at hs
  obtain ⟨⟨hq, hld⟩, hla, hleaf⟩ := hs
  have hunlock : { m.leaf c.target with lock := false } = m.leaf c.target := by rw [← hl]
  constructor
  · have hback : Client.settle (m.setLeaf c.target fun l => { l with lock := true })
        { c with pc := .combineWrite } = m := by
      simp only [Client.settle, Client.dueOps, hq]
      exact Mem.setLeaf_setLeaf.trans (Mem.setLeaf_of_eq hunlock)
    rw [hback]
    exact h.exact (by simp [hpc, Pc.owes]) hq
  · refine ⟨hq, hleaf.trans ?_⟩
    change _ = { (m.setLeaf c.target fun l => { l with lock := true }).leaf c.target with
      lock := false }
    rw [Mem.setLeaf_self, hunlock]

theorem combineWrite {v : Option Value} (hpc : c.pc = .combineWrite) :
    Alone crc L m { c with
      value := v.getD c.value
      leaf := { c.leaf with
        value := v.getD c.value, checksum := crc c.leaf.key (v.getD c.value), lock := false }
      pc := .writeBack leafWords } := by
  have hs := h.sees
  have hx := h.settled
  simp only [Client.Sees, hpc] at hs
  obtain ⟨hq, hleaf⟩ := hs
  simp only [Client.settle, Client.dueOps, hpc, hq] at hx
  refine ⟨?_, trivial⟩
  simp only [Client.settle, Client.dueOps, hq, Leaf.copy_all]
  have hset := hx.setLeaf (l := c.target) (f := fun _ => { c.leaf with
    value := v.getD c.value, checksum := crc c.leaf.key (v.getD c.value), lock := false })
    (by simp [hleaf]) (by simp [Leaf.isConsistent]) rfl
  rw [Mem.setLeaf_setLeaf] at hset
  exact hset

theorem written (hpc : c.pc = .writeBack []) : Alone crc L m { c with pc := .finish true } := by
  have hx := h.settled
  refine ⟨?_, trivial⟩
  simp only [Client.settle, Client.dueOps, hpc, List.foldl_nil] at hx
  rw [Mem.setLeaf_of_eq rfl] at hx
  exact hx

theorem writeWord {w : LeafWord} {todo : List LeafWord} (hpc : c.pc = .writeBack (w :: todo))
    (hq : c.pending = []) :
    Alone crc L (m.setLeaf c.target (c.leaf.copy w)) { c with pc := .writeBack todo } := by
  have hx := h.settled
  refine ⟨?_, trivial⟩
  simp only [Client.settle, Client.dueOps, hpc, hq] at hx
  simp only [Client.settle, Client.dueOps, hq, List.nil_append, List.foldl_nil]
  exact Mem.setLeaf_setLeaf.symm ▸ hx

theorem leafPrepare {site : Site} {v : Option Value} (hpc : c.pc = .leafPrepare site) :
    Alone crc L m (c.leafPrepare site v) := by
  have hs := h.sees
  simp only [Client.Sees, hpc] at hs
  obtain ⟨⟨hq, hld⟩, hla, hfree⟩ := hs
  have hc : c.pc.owes = false := by simp [hpc, Pc.owes]
  unfold Client.leafPrepare
  split
  · exact h.quiet hc rfl rfl trivial
  · rename_i hla'
    rw [hla] at hla'
    cases hla'
  · exact h.quiet hc rfl rfl ⟨⟨hq, hld⟩, hla, hfree⟩

theorem leafWrite (ht : TreeInv L m) {site : Site} {a : Addr}
    (hpc : c.pc = .leafWrite site) (ha : m.live a = false) :
    Alone crc L
      ((m.alloc [a]).setLeaf a fun _ => .make crc c.key c.value (c.sitePtr c.target site))
      { c with leafAddr := some a, pc := .leafCas site } := by
  have hs := h.sees
  simp only [Client.Sees, hpc] at hs
  obtain ⟨⟨hq, hld⟩, hla, hnull, hsite⟩ := hs
  have hx := h.exact (by simp [hpc, Pc.owes]) hq
  have hL := ht.unpublished ha
  have hload : ∀ p, ((m.alloc [a]).setLeaf a fun _ =>
      .make crc c.key c.value (c.sitePtr c.target site)).load p = m.load p := by simp
  refine .of_exact rfl hq ?_ ?_
  · refine hx.congr ht ⟨fun p _ => hload p, fun _ _ => rfl, fun _ _ => rfl, fun x hxl => ?_⟩
    have hne : x ≠ a := by rintro rfl; exact hxl hL
    rw [Mem.setLeaf_ne _ _ hne]
    rfl
  · exact ⟨⟨hq, (hload _).trans hld⟩, ⟨(hload _).trans hnull, hsite⟩, a, rfl, Mem.setLeaf_self ..⟩

/-- A leaf behind the node's size counts as soon as `cas_node_type` has gone through. -/
theorem leafBehind (ht : TreeInv L m) (hl : Local L m c) {i : ℕ} {b : UInt8} {l : Addr}
    (hpc : c.pc = .leafCas (.behind i)) (hb : c.siteByte (.behind i) = some b)
    (hla : c.leafAddr = some l) :
    Alone crc (L.publish [(l, .leaf)]) (m.store (.leaf b l) (.slot c.target i))
      (c.leafCasDone c.target (.behind i)) := by
  have hs := h.sees
  simp only [Client.Sees, hpc] at hs
  obtain ⟨⟨hq, hld⟩, ⟨hnull, hnum, hhdr⟩, l', hla', hmake⟩ := hs
  obtain rfl := Option.some.inj (hla.symm.trans hla')
  have hx := h.exact (by simp [hpc, Pc.owes]) hq
  have hk := hl.knows
  simp only [Client.Knows, hpc] at hk
  have hL := (hl.fresh l (by simp [Client.owned, Client.leafOwned, hpc, hla])).1
  obtain ⟨σ, hv, -⟩ := hk.vacant ht hb hnull
  have hout := leafCasDone_outcome ht hl hpc hb hla hnull
  have hlink := hx.linked.publishLeaf hv hL hmake
  obtain _ | _ | ⟨hi, -, h0, hlt⟩ := hk
  rename_i a π
  obtain ⟨t, ht1, -, ht2⟩ := numToNodeType_spec h0 hlt
  obtain ⟨b', hp⟩ := hi.entry
  obtain ⟨τ, hτ⟩ := hi.slot
  have htar := hi.target
  have hne : c.pPtr ≠ .slot c.target i := by
    intro he
    rw [he] at hld
    cases hld.symm.trans hnull |>.symm.trans hp
  have hld' : (m.store (.leaf b l) (.slot c.target i)).load c.pPtr = c.p := by
    rw [Mem.load_store_ne _ _ hne, hld]
  rw [Client.leafCasDone, ht1]
  constructor
  · simp only [Client.settle, Client.dueOps, hq, List.nil_append, List.foldl_nil, hp, htar]
    rw [hp, htar] at hld'
    rw [htar] at hlink hout hnum
    refine ⟨hlink.grow hout.tree (hτ.mono hout.ext) hld', ?_⟩
    intro x ρ j hx' hj
    rw [Mem.grow_hdr]
    rw [Mem.grow_load] at hj
    have hj' : (m.store (.leaf b l) (.slot a i)).load (.slot x j) ≠ .null := by
      by_cases hpj : Ptr.slot x j = c.pPtr
      · rw [hpj, hld']; simp
      · rwa [if_neg hpj] at hj
    have hxL := publish_leaf_node hL hx'
    by_cases hxa : x = a
    · subst hxa
      rw [if_pos rfl]
      by_cases hji : j = i
      · exact hji ▸ ht2
      · rw [Mem.load_store_ne _ _ (by simpa using hji)] at hj'
        have := hx.sized _ _ _ hxL hj'
        dsimp only
        omega
    · rw [if_neg hxa, Mem.store_hdr]
      rw [Mem.load_store_ne _ _ (by simp [hxa])] at hj'
      exact hx.sized _ _ _ hxL hj'
  · exact ⟨hq, hld', by simpa using hhdr, rfl, rfl⟩

theorem leafCasDone (ht : TreeInv L m) (hl : Local L m c) {site : Site} {b : UInt8} {l : Addr}
    (hpc : c.pc = .leafCas site) (hb : c.siteByte site = some b) (hla : c.leafAddr = some l) :
    Alone crc (L.publish [(l, .leaf)]) (m.store (.leaf b l) (c.sitePtr c.target site))
      (c.leafCasDone c.target site) := by
  have hs := h.sees
  simp only [Client.Sees, hpc] at hs
  obtain ⟨⟨hq, hld⟩, ⟨hnull, hsite⟩, l', hla', hmake⟩ := hs
  obtain rfl := Option.some.inj (hla.symm.trans hla')
  have hx := h.exact (by simp [hpc, Pc.owes]) hq
  have hk := hl.knows
  simp only [Client.Knows, hpc] at hk
  have hL := (hl.fresh l (by simp [Client.owned, Client.leafOwned, hpc, hla])).1
  obtain ⟨σ, hv, -⟩ := hk.vacant ht hb hnull
  have hlink := hx.linked.publishLeaf hv hL hmake
  cases site with
  | null =>
    refine .of_exact rfl hq ⟨hlink, hx.sized.publishLeaf hL fun a i hp => ?_⟩ trivial
    cases hk with
    | null hσ hn => cases (hσ.null hn).1.symm.trans hp
  | empty i =>
    refine .of_exact rfl hq ⟨hlink, hx.sized.publishLeaf hL fun a j hp => ?_⟩ trivial
    cases hp
    exact hsite
  | behind i => exact h.leafBehind ht hl hpc hb hla

end leaf

section switch

theorem switchEntry {w : Switch} (hpc : c.pc = .switchEntry w) :
    Alone crc L (w.casEntry m).1 { c with pc := .switchHdr (w.casEntry m).2 } := by
  have hs := h.sees
  have hx := h.settled
  simp only [Client.Sees, hpc] at hs
  obtain ⟨hq, hld, hhdr, he, hd⟩ := hs
  simp only [Client.settle, Client.dueOps, hpc, hq] at hx
  have hcas : w.casEntry m = (m.store (w.p.withType w.next) w.ptr,
      { w with both := true, entryDone := true, entryBuf := m.load w.ptr }) := by
    simp [Switch.casEntry, he, hd, hld]
  rw [hcas]
  constructor
  · simp only [Client.settle, Client.dueOps, hq]
    exact hx
  · exact ⟨hq, by simpa using hhdr, rfl, hd, rfl⟩

theorem switchHdr {w : Switch} (hpc : c.pc = .switchHdr w) :
    Alone crc L (w.casHdr m).1 { c with pc := (w.casHdr m).2.afterCas } := by
  have hs := h.sees
  have hx := h.settled
  simp only [Client.Sees, hpc] at hs
  obtain ⟨hq, hhdr, he, hd, hb⟩ := hs
  simp only [Client.settle, Client.dueOps, hpc, hq] at hx
  have hcas : w.casHdr m = (m.setNode w.node fun pg => { pg with hdr := pg.hdr.casType w.hdr w.next },
      { w with hdrDone := true, hdrBuf := (m.node w.node).hdr }) := by
    simp [Switch.casHdr, hd, hb, hhdr]
  have hset : (m.setNode w.node fun pg => { pg with hdr := pg.hdr.casType w.hdr w.next }) =
      m.setNode w.node fun pg => { pg with hdr := { pg.hdr with type := w.next } } := by
    simp [Mem.setNode, Header.casType, hhdr]
  rw [hcas, Switch.afterCas, if_pos he]
  refine .of_exact rfl hq ?_ ⟨he, rfl⟩
  rw [hset]
  exact hx

theorem switchEnd {w : Switch} (hpc : c.pc = .switchEnd w) :
    Alone crc L m { c with pc := w.close } := by
  have hs := h.sees
  simp only [Client.Sees, hpc] at hs
  have hclose : w.close = .finish true := by simp [Switch.close, hs.1, hs.2]
  rw [hclose]
  exact h.quiet (by simp [hpc, Pc.owes]) rfl rfl trivial

end switch

end Alone
end SmartTree
