import SmartTree.Tree.MapRead

/-! The writes of a lone client change the map as its insert does, at one step each: when the
new value of a leaf is decided, or when the compare-and-swap hangs a new leaf into the tree. -/
namespace SmartTree
open Transition MapMachine
variable {n : ℕ} {L L' : Layout} {m m' : Mem n} {c c' : Client n} {x : MapState (Key n) Value}
  {v : Option Value} {crc : Key n → Value → UInt64}

namespace Client

namespace Mapped

theorem merged (h : c.Mapped L m x) (hs : c.isSearch = false) (hpc : c.pc ≠ .idle)
    (hop : c'.op = some (.insert c.isLoad c.key (v.getD c.value)))
    (hc : Represents L (c'.settle m') (c'.effect x.content)) (hr : c'.Replies x.content) :
    ∃ y, (machine (Key n) Value).run x (v.map .merge).toList = some y ∧ c'.Mapped L m' y := by
  obtain ⟨M, r⟩ := x
  obtain rfl : r = _ := h.running.trans (op_insert hs hpc)
  cases v with
  | none => exact ⟨_, rfl, hop.symm, hc, hr⟩
  | some v => exact ⟨_, rfl, hop.symm, hc, hr⟩

/-- The same while the insert does not count and no published leaf changes. -/
theorem mergedBefore (h : c.Mapped L m x) (hs : c.isSearch = false) (hpc : c.pc ≠ .idle)
    (hw : c.pc.writing = false) (he : c.effect x.content = x.content)
    (hop : c'.op = some (.insert c.isLoad c.key (v.getD c.value)))
    (hw' : c'.pc.writing = false) (he' : c'.effect x.content = x.content)
    (hp : ∀ l, L l = some .leaf → m'.pair l = m.pair l) (hr : c'.Replies x.content) :
    ∃ y, (machine (Key n) Value).run x (v.map .merge).toList = some y ∧ c'.Mapped L m' y := by
  refine h.merged hs hpc hop ?_ hr
  rw [he']
  exact (h.before hw he).congr fun l hl => by rw [settle_pair hw', hp l hl]

section update
variable (h : c.Mapped L m x)
  (hk : c.leaf.key = c.key ∧ ∃ b l, c.p = .leaf b l ∧ L l = some .leaf ∧ LeafBuf m l [] c.leaf)
include h hk

theorem combineUpdate (ha : Alone crc L m c) (hpc : c.pc = .combineUpdate) :
    ∃ y, (machine (Key n) Value).run x (v.map .merge).toList = some y ∧ Mapped L m { c with
      value := v.getD c.value
      pc := if c.leaf.value = v.getD c.value then .finish true else .acquireLock } y := by
  have hs := ha.sees
  have hr := h.replies
  simp only [Sees, hpc] at hs
  simp only [Replies, hpc] at hr
  obtain ⟨hsearch, hload⟩ := hr
  obtain ⟨-, -, hleaf⟩ := hs
  obtain ⟨hkey, b, l, hp, hl, -⟩ := hk
  have hw : c.pc.writing = false := by simp [hpc, Pc.writing]
  have he : c.effect x.content = x.content := by simp [effect, hpc]
  have hval := (h.before hw he).leaf hl
  rw [show l = c.target by simp [target, hp], ← hleaf, hkey] at hval
  split
  · rename_i heq
    refine h.mergedBefore hsearch (by simp [hpc]) hw he (by simp [op, call, hsearch]) rfl ?_
      (fun _ _ => rfl) (by simp [Replies, hsearch])
    simp only [effect, hsearch, Bool.false_eq_true, if_false]
    exact put_same (heq ▸ hval)
  · exact h.mergedBefore hsearch (by simp [hpc]) hw he (by simp [op, call, hsearch]) rfl rfl
      (fun _ _ => rfl) ⟨hsearch, hload⟩

/-- From here on the new value counts, although no word of the leaf has been written. -/
theorem combineWrite (ht : TreeInv L m) (ha : Alone crc L m c) (hpc : c.pc = .combineWrite) :
    ∃ y, (machine (Key n) Value).run x (v.map .merge).toList = some y ∧ Mapped L m { c with
      value := v.getD c.value
      leaf := { c.leaf with
        value := v.getD c.value, checksum := crc c.leaf.key (v.getD c.value), lock := false }
      pc := .writeBack leafWords } y := by
  have hs := ha.sees
  have hr := h.replies
  simp only [Sees, hpc] at hs
  simp only [Replies, hpc] at hr
  obtain ⟨hsearch, hload⟩ := hr
  obtain ⟨hq, hleaf⟩ := hs
  obtain ⟨hkey, b, l, hp, hl, -⟩ := hk
  have htar : c.target = l := by simp [target, hp]
  have hmkey : (m.leaf l).key = c.key := htar ▸ (congrArg Leaf.key hleaf).symm.trans hkey
  refine h.merged hsearch (by simp [hpc]) (by simp [op, call, hsearch]) ?_ ⟨hsearch, hload⟩
  have hrep := h.before (by simp [hpc, Pc.writing]) (by simp [effect, hpc])
  simp only [effect, hload, put_replace]
  refine hrep.update ht hl hmkey fun a => ?_
  simp only [settle, dueOps, hq, Leaf.copy_all]
  change (m.setLeaf c.target _).pair a = _
  rw [Mem.pair_setLeaf rfl, htar, hkey]

omit hk in
theorem written (hpc : c.pc = .writeBack []) : Mapped L m { c with pc := .finish true } x := by
  have hr := h.replies
  simp only [Replies, hpc] at hr
  refine h.same (by simp [op, call, hpc]) (by simp [effect, hpc, hr.1]) (fun l _ => ?_)
    (by simp [Replies, hr.1])
  simp only [settle, dueOps, hpc, List.foldl_nil, Mem.setLeaf_of_eq]

omit hk in
theorem writeWord {w : LeafWord} {todo : List LeafWord} (hpc : c.pc = .writeBack (w :: todo))
    (hq : c.pending = []) :
    Mapped L (m.setLeaf c.target (c.leaf.copy w)) { c with pc := .writeBack todo } x := by
  have hr := h.replies
  simp only [Replies, hpc] at hr
  refine h.same (by simp [op, call, hpc]) (by simp [effect, hpc]) (fun l _ => ?_) hr
  simp only [settle, dueOps, hpc, hq, List.nil_append, List.foldl_nil]
  exact congrArg (fun m : Mem n => m.pair l) Mem.setLeaf_setLeaf

end update

theorem lands (h : c.Mapped L m x) (ht' : TreeInv L' m') (hs : c.isSearch = false)
    (hw : c.pc.writing = false) (he : c.effect x.content = x.content) {l : Addr} {pc : Pc}
    (hl : L l = none) (hL : ∀ a, L' a = some .leaf ↔ a = l ∨ L a = some .leaf)
    (hp : ∀ a, m'.pair a = m.pair a) (hpair : m.pair l = (c.key, c.value)) (hpc : c.pc ≠ .idle)
    (hpc' : pc = .finish true ∨ (∃ w, pc = .switchEntry w) ∨ ∃ sp nodes, pc = .splitRev sp nodes) :
    Mapped L' m' { c with pc := pc } x := by
  have hrep := h.before hw he
  have hnone : ¬ Planted L m c.key := by
    rintro ⟨a, ha, hk⟩
    have hkeys : (m'.leaf a).key = (m'.leaf l).key := by
      have h1 := congrArg Prod.fst (hp a)
      have h2 := congrArg Prod.fst ((hp l).trans hpair)
      exact h1.trans (hk.trans h2.symm)
    obtain rfl := ht'.leaf_inj ((hL a).mpr (.inr ha)) ((hL l).mpr (.inl rfl)) hkeys
    rw [hl] at ha
    cases ha
  have hput := hrep.publish hnone ((hp l).trans hpair) hL fun a _ => hp a
  rw [← (put_absent (hrep.absent hnone) : put x.content c.isLoad c.key c.value = _)] at hput
  have hop : op { c with pc := pc } = c.op := by
    rw [op_insert hs hpc]
    obtain rfl | ⟨w, rfl⟩ | ⟨sp, nodes, rfl⟩ := hpc' <;> simp [op, call, hs]
  refine ⟨h.running.trans hop.symm, ?_, ?_⟩
  · obtain rfl | ⟨w, rfl⟩ | ⟨sp, nodes, rfl⟩ := hpc'
    · simp only [effect, hs, Bool.false_eq_true, if_false]
      exact hput.congr fun a _ => settle_pair rfl a
    · exact hput.congr fun a _ => settle_pair rfl a
    · exact hput.congr fun a _ => settle_pair rfl a
  · obtain rfl | ⟨w, rfl⟩ | ⟨sp, nodes, rfl⟩ := hpc'
    · simp [Replies, hs]
    · exact hs
    · exact hs

theorem leafCasDone (h : c.Mapped L m x) (hl : Local L m c) (ha : Alone crc L m c) {site : Site}
    {b : UInt8} {l : Addr} (hpc : c.pc = .leafCas site) (hla : c.leafAddr = some l)
    (hout : Outcome L m c
      { mem := m.store (.leaf b l) (c.sitePtr c.target site)
        client := c.leafCasDone c.target site, published := [(l, .leaf)] }) :
    Mapped (L.publish [(l, .leaf)]) (m.store (.leaf b l) (c.sitePtr c.target site))
      (c.leafCasDone c.target site) x := by
  have hs := ha.sees
  have hr := h.replies
  simp only [Sees, hpc] at hs
  simp only [Replies, hpc] at hr
  obtain ⟨-, -, l', hla', hmake⟩ := hs
  obtain rfl := Option.some.inj (hla.symm.trans hla')
  have hL := (hl.fresh l (by simp [owned, leafOwned, hpc, hla])).1
  have hk' := hout.client.knows
  obtain ⟨pc, he, hpc'⟩ := leafCasDone_pc (c := c) c.target site
  dsimp only at hk'
  rw [he] at hk' ⊢
  refine h.lands hout.tree hr (by simp [hpc, Pc.writing]) (by simp [effect, hpc]) hL (fun a => ?_)
    (fun a => by simp [Mem.pair]) (by simp [Mem.pair, hmake, Leaf.make]) (by simp [hpc]) ?_
  · by_cases hal : a = l
    · simp [Layout.publish, hal]
    · simp [Layout.publish, hal]
  · obtain rfl | rfl | hw := hpc'
    · exact .inl rfl
    · exact hk'.elim
    · exact .inr (.inl hw)

theorem splitCasDone (h : c.Mapped L m x) (hl : Local L m c) (ha : Alone crc L m c) {sp : Split}
    {nodes : List Addr} (hpc : c.pc = .splitCas sp nodes) (hp : m.load c.pPtr = c.p)
    (hout : Outcome L m c
      { mem := m.store (.node c.p.partialKey .node4 (nodes.headD 0)) c.pPtr
        client := { c with pc := .splitRev sp nodes }
        published := (c.leafAddr.getD 0, .leaf) ::
          ((c.pages sp nodes).getD []).map fun q => (q.1, .node (cachePath c.key q.2.hdr)) }) :
    Mapped (L.publish ((c.leafAddr.getD 0, .leaf) ::
        ((c.pages sp nodes).getD []).map fun q => (q.1, .node (cachePath c.key q.2.hdr))))
      (m.store (.node c.p.partialKey .node4 (nodes.headD 0)) c.pPtr)
      { c with pc := .splitRev sp nodes } x := by
  have hs := ha.sees
  have hr := h.replies
  have hk := hl.knows
  simp only [Sees, hpc] at hs
  simp only [Replies, hpc] at hr
  simp only [Knows, hpc] at hk
  obtain ⟨-, -, ⟨l', hla', hmake⟩, -⟩ := hs
  obtain ⟨-, σ, hsp⟩ := hk
  obtain ⟨l, pages, hla, hpg, -, g⟩ := hsp.graft hl hpc hp
  obtain rfl := Option.some.inj (hla.symm.trans hla')
  refine h.lands (l := l) hout.tree hr (by simp [hpc, Pc.writing]) (by simp [effect, hpc])
    g.leaf_fresh (fun a => ?_) (fun a => by simp [Mem.pair]) (by simp [Mem.pair, hmake, Leaf.make])
    (by simp [hpc]) (.inr (.inr ⟨sp, nodes, rfl⟩))
  rw [hla, hpg]
  constructor
  · intro hleaf
    obtain h | ⟨rfl, -⟩ | ⟨q, -, -, ho⟩ := g.layout_cases hleaf
    · exact .inr h
    · exact .inl rfl
    · cases ho
  · rintro (rfl | h)
    · exact g.layout_leaf
    · exact g.layout_old h

end Mapped
end Client
end SmartTree
