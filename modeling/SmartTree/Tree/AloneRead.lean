import SmartTree.Tree.Owed

/-! The steps of a lone client that read and compute. Reads find the words as they are, a
cached entry is accepted only if its slot still holds it, and nothing needs repair. -/
namespace SmartTree
variable {n : ℕ} {L : Layout} {m : Mem n} {c : Client n} {crc : Key n → Value → UInt64}

namespace Client

theorem Stands.congr {c' : Client n} (h : c.Stands m) (hl : c'.leafAddr = c.leafAddr)
    (hptr : c'.pPtr = c.pPtr) (hp : c'.p = c.p) (hf : c'.fromCache = c.fromCache)
    (hq : c'.pending = c.pending) : c'.Stands m := by
  obtain ⟨h1, h2, h3⟩ := h
  exact ⟨hl.trans h1, by rwa [hp, hptr], by rwa [hf, hq, hptr, hp]⟩

theorem Stands.of_load {c' : Client n} (hl : c'.leafAddr = none) (hq : c'.pending = [])
    (hp : m.load c'.pPtr = c'.p) : c'.Stands m :=
  ⟨hl, fun _ => by rw [hp], fun _ => ⟨hq, hp⟩⟩

theorem Stands.load_leaf (h : c.Stands m) (ht : TreeInv L m) (hx : Linked crc L m) {b : UInt8}
    {l : Addr} (hp : c.p = .leaf b l) (hl : L l = some .leaf) (hr : (m.leaf l).rev = c.pPtr) :
    m.load c.pPtr = c.p := by
  obtain ⟨b', σ, -, hld⟩ := hx.load_of_leafRev ht hl hr
  have hb := h.byte (by simp [hp])
  rw [hld, hp] at hb
  rw [hld, hp, ← Entry.partialKey_leaf b l, ← hb, Entry.partialKey_leaf]

theorem Stands.load_node (h : c.Stands m) (ht : TreeInv L m) (hx : Linked crc L m) {b : UInt8}
    {a : Addr} {π : List UInt8} (hp : c.p = .node b (m.node a).hdr.type a)
    (ha : L a = some (.node π)) (hr : (m.node a).rev = c.pPtr) : m.load c.pPtr = c.p := by
  obtain ⟨b', σ, -, hld⟩ := hx.load_of_nodeRev ht ha hr
  have hb := h.byte (by simp [hp])
  rw [hld, hp, Entry.partialKey_node, Entry.partialKey_node] at hb
  rw [hld, hp, hb]

end Client

namespace Alone
variable (h : Alone crc L m c)
include h

theorem readRoot (hpc : c.pc = .readRoot) (hq : c.pending = []) :
    Alone crc L m { c with
      pPtr := .root, p := m.root, depth := 1
      pc := if c.isSearch && m.root.isNull then .noTree else .next } := by
  have hs := h.sees
  simp only [Client.Sees, hpc] at hs
  by_cases hn : (c.isSearch && m.root.isNull) = true
  · exact h.quiet (by simp [hpc, Pc.owes]) (by simp [hn, Pc.owes]) rfl (by simp [Client.Sees, hn])
  · refine h.quiet (by simp [hpc, Pc.owes]) (by simp [hn, Pc.owes]) rfl ?_
    simp only [Client.Sees, hn]
    exact .of_load hs hq rfl

theorem next (hk : ∃ σ, c.Located L m σ) (hpc : c.pc = .next) : Alone crc L m c.next := by
  have hs := h.sees
  simp only [Client.Sees, hpc] at hs
  have hc : c.pc.owes = false := by simp [hpc, Pc.owes]
  unfold Client.next
  split
  · rename_i hp
    obtain ⟨σ, hσ⟩ := hk
    obtain ⟨hq, hld⟩ := hs.current (hσ.null hp).2
    split
    · exact h.quiet hc rfl rfl trivial
    · split
      · exact h.quiet hc rfl rfl trivial
      · exact h.quiet hc rfl rfl ⟨⟨hq, hld⟩, hs.leafAddr, hld.trans hp, trivial⟩
  · exact h.quiet hc rfl rfl
      ⟨hs.congr rfl rfl rfl rfl rfl, fun hne => absurd rfl hne, fun w hw => absurd (mem_leafWords w) hw⟩
  · rename_i b t a hp
    refine h.quiet hc rfl rfl
      ⟨hs.congr rfl rfl rfl rfl rfl, fun hne => absurd (by simp [hp]) hne, fun w hw hn => ?_⟩
    exact absurd (by simpa [hp] using hw) hn

theorem reread (hpc : c.pc = .reread) (hq : c.pending = []) :
    Alone crc L m { c with p := m.load c.pPtr, fromCache := false, pc := .next } := by
  have hs := h.sees
  simp only [Client.Sees, hpc] at hs
  exact h.quiet (by simp [hpc, Pc.owes]) rfl rfl (Client.Stands.of_load hs.leafAddr hq rfl)

theorem leafWord {todo : List LeafWord} {j : ℕ} {w : LeafWord} (hpc : c.pc = .readLeaf todo)
    (hw : todo[j]? = some w) (hq : c.pending = []) :
    Alone crc L m { c with
      leaf := (m.leaf c.target).copy w c.leaf, pc := .readLeaf (todo.eraseIdx j) } := by
  have hs := h.sees
  simp only [Client.Sees, hpc] at hs
  obtain ⟨hst, -, hcopy⟩ := hs
  refine h.quiet (by simp [hpc, Pc.owes]) rfl rfl
    ⟨hst.congr rfl rfl rfl rfl rfl, fun _ => hq, fun x hx => Leaf.copy_copy ?_⟩
  obtain hx | rfl := Client.not_mem_eraseIdx hw hx
  · exact .inr (hcopy x hx)
  · exact .inl rfl

/-- A leaf that was read without the cache is valid, and one from the cache is accepted only
if it still hangs at the slot. -/
theorem leafRead (ht : TreeInv L m) (hk : c.Knows L m) (hpc : c.pc = .readLeaf []) :
    Alone crc L m (c.leafRead crc c.target) := by
  have hs := h.sees
  simp only [Client.Sees, hpc] at hs
  simp only [Client.Knows, hpc] at hk
  obtain ⟨⟨σ, hσ⟩, b, l, hp, -⟩ := hk
  obtain ⟨hst, hq, hcopy⟩ := hs
  replace hq := hq (by simp [leafWords])
  have hc : c.pc.owes = false := by simp [hpc, Pc.owes]
  have hx := (h.exact hc hq).linked
  have htar : c.target = l := by simp [Client.target, hp]
  have hl := (hσ.leaf hp).1
  have hleaf : c.leaf = m.leaf l := htar ▸ Leaf.eq_of_copy fun w => hcopy w (by simp)
  have hrep : c.repairLeaf c.target = [] := by
    unfold Client.repairLeaf
    cases hf : c.fromCache with
    | true => simp
    | false =>
      have hld := (hst.current hf).2
      rw [hp] at hld
      simp [hleaf, hx.rev hσ.slot hld]
  have hcons : c.leaf.isConsistent crc = true := hleaf ▸ (hx.leaf hl).1
  unfold Client.leafRead
  rw [hrep, List.append_nil]
  by_cases hv : c.leaf.isValid c.pPtr c.fromCache = true
  · simp only [hv, hcons, Bool.not_true]
    refine h.quiet hc rfl rfl ⟨⟨hq, ?_⟩, hst.leafAddr, htar.symm ▸ hleaf⟩
    cases hf : c.fromCache with
    | true =>
      rw [hf, Leaf.isValid, hleaf] at hv
      simp only [Bool.not_true, Bool.false_or, Bool.and_eq_true, decide_eq_true_eq] at hv
      exact hst.load_leaf ht hx hp hl hv.2.symm
    | false => exact (hst.current hf).2
  · simp only [hv, Bool.not_false, if_true]
    exact h.quiet hc rfl rfl (hst.congr rfl rfl rfl rfl rfl)

theorem gotLeaf (hk : c.Knows L m) (hpc : c.pc = .gotLeaf) : Alone crc L m c.gotLeaf := by
  have hs := h.sees
  simp only [Client.Sees, hpc] at hs
  simp only [Client.Knows, hpc] at hk
  obtain ⟨-, b, l, hp, -⟩ := hk
  obtain ⟨⟨hq, hld⟩, hla, hleaf⟩ := hs
  have hc : c.pc.owes = false := by simp [hpc, Pc.owes]
  unfold Client.gotLeaf
  split
  · split <;> exact h.quiet hc rfl rfl trivial
  · split
    · cases c.isLoad
      · exact h.quiet hc rfl rfl ⟨⟨hq, hld⟩, hla, hleaf⟩
      · exact h.quiet hc rfl rfl trivial
    · split
      · exact h.quiet hc rfl rfl trivial
      · split
        · exact h.quiet hc rfl rfl trivial
        · refine h.quiet hc rfl rfl ⟨⟨hq, hld⟩, hla, fun b t a hp' => ?_⟩
          cases hp.symm.trans hp'

theorem nodeWord {todo : List NodeWord} {j : ℕ} {w : NodeWord} (hpc : c.pc = .readNode todo)
    (hw : todo[j]? = some w) (hq : c.pending = []) :
    Alone crc L m { c with
      page := (m.node c.target).copy w c.page, pc := .readNode (todo.eraseIdx j) } := by
  have hs := h.sees
  simp only [Client.Sees, hpc] at hs
  obtain ⟨hst, -, hseen⟩ := hs
  exact h.quiet (by simp [hpc, Pc.owes]) rfl rfl
    ⟨hst.congr rfl rfl rfl rfl rfl, fun _ => hq, hseen.word hw⟩

theorem restWord {todo : List NodeWord} {j : ℕ} {w : NodeWord} (hpc : c.pc = .readRest todo)
    (hw : todo[j]? = some w) : Alone crc L m { c with
      page := (m.node c.target).copy w c.page, pc := .readRest (todo.eraseIdx j) } := by
  have hs := h.sees
  simp only [Client.Sees, hpc] at hs
  obtain ⟨hst, hq, hseen⟩ := hs
  exact h.quiet (by simp [hpc, Pc.owes]) rfl rfl
    ⟨hst.congr rfl rfl rfl rfl rfl, hq, hseen.word hw⟩

theorem restRead (hpc : c.pc = .readRest []) : Alone crc L m { c with pc := .nodeRead } := by
  have hs := h.sees
  simp only [Client.Sees, hpc] at hs
  obtain ⟨hst, hq, hseen⟩ := hs
  exact h.quiet (by simp [hpc, Pc.owes]) rfl rfl
    ⟨hst.congr rfl rfl rfl rfl rfl, hq, hseen.congr rfl rfl⟩

/-- The entry in a slot has the type of the header already, so only a cached one changes. -/
theorem typeRead (hk : c.Knows L m) (hpc : c.pc = .readNode []) : Alone crc L m c.typeRead := by
  have hs := h.sees
  simp only [Client.Sees, hpc] at hs
  simp only [Client.Knows, hpc] at hk
  obtain ⟨⟨σ, hσ⟩, b, t, a, π, hp, ha, -⟩ := hk
  obtain ⟨hst, hq, hseen⟩ := hs
  replace hq := hq (by simp [nodeWords])
  have hc : c.pc.owes = false := by simp [hpc, Pc.owes]
  have hx := (h.exact hc hq).linked
  have htar : c.target = a := by simp [Client.target, hp]
  have hhdr := hseen.hdr
  have hst' : ∀ {pc}, Client.Stands m { c with p := c.p.withType c.page.hdr.type, pc := pc } := by
    intro pc
    refine ⟨hst.leafAddr, fun _ => ?_, fun hf => ⟨hq, ?_⟩⟩
    · rw [hst.byte (by simp [hp]), hp]
      rfl
    · have hld := (hst.current hf).2
      have hty := (hx.node hσ.slot (hld.trans hp)).type
      rw [hld, hp, hhdr, htar, hty]
      rfl
  unfold Client.typeRead
  split
  · refine h.quiet hc rfl rfl ⟨hst', hq, hseen.withType hp fun i hi hge => ?_⟩
    rw [hp, Entry.type_node]
    exact mem_slotWords.mpr ⟨hge, hi⟩
  · rename_i hlt
    rw [hp, Entry.type_node] at hlt
    have := NodeType.num_mono (not_lt.mp hlt)
    exact h.quiet hc rfl rfl ⟨hst', hq, hseen.withType hp fun i hi hge => by omega⟩

theorem checkHeader (hc : c.pc.owes = false) (hh : c.Holds m) (hla : c.leafAddr = none)
    (hseen : c.PageSeen m []) : Alone crc L m c.checkHeader := by
  unfold Client.checkHeader
  dsimp only
  split
  · exact h.quiet hc rfl rfl trivial
  · exact h.quiet hc rfl rfl ⟨⟨hh.pending, hh.load⟩, hla, hseen.congr rfl rfl⟩
  · split
    · exact h.quiet hc rfl rfl trivial
    · split
      · exact h.quiet hc rfl rfl trivial
      · refine h.quiet hc rfl rfl ⟨⟨hh.pending, hh.load⟩, hla, fun b t a hp => ⟨by simp, ?_⟩⟩
        have htar : c.target = a := by simp [Client.target, show c.p = .node b t a from hp]
        exact htar ▸ hseen.hdr

/-- A node is accepted only if it hangs at the slot, and then its reverse pointer is right. -/
theorem nodeRead (ht : TreeInv L m) (hk : c.Knows L m) (hpc : c.pc = .nodeRead) :
    Alone crc L m (c.nodeRead m c.target).client := by
  have hs := h.sees
  simp only [Client.Sees, hpc] at hs
  simp only [Client.Knows, hpc] at hk
  obtain ⟨⟨σ, hσ⟩, b, a, π, hp, ha, -⟩ := hk
  obtain ⟨hst, hq, hseen⟩ := hs
  have hc : c.pc.owes = false := by simp [hpc, Pc.owes]
  have hx := (h.exact hc hq).linked
  have htar : c.target = a := by simp [Client.target, hp]
  have hhdr := hseen.hdr
  have hrev := hseen.rev
  rw [htar] at hhdr hrev
  have hrep : c.repairNode c.target = [] := by
    unfold Client.repairNode
    cases hf : c.fromCache with
    | true => simp
    | false =>
      have hld := (hst.current hf).2
      rw [hp] at hld
      simp [hrev, (hx.node hσ.slot hld).rev]
  have hself : { c with pending := c.pending ++ c.repairNode c.target } = c := by
    rw [hrep, List.append_nil]
  unfold Client.nodeRead
  rw [hself]
  by_cases hv : c.page.isValid c.pPtr c.depth c.fromCache = true
  · simp only [hv, Bool.not_true]
    refine h.checkHeader hc ⟨hq, ?_⟩ hst.leafAddr hseen
    cases hf : c.fromCache with
    | true =>
      simp only [hf, Page.isValid, Bool.not_true, Bool.false_or, Bool.and_eq_true,
        decide_eq_true_eq] at hv
      exact hst.load_node ht hx (hhdr ▸ hp) ha (hrev ▸ hv.2.symm)
    | false => exact (hst.current hf).2
  · simp only [hv, Bool.not_false, if_true]
    exact h.quiet hc rfl rfl (hst.congr rfl rfl rfl rfl rfl)

theorem scan (hk : c.Knows L m) (hpc : c.pc = .scan) : Alone crc L m (c.scan c.target) := by
  have hs := h.sees
  simp only [Client.Sees, hpc] at hs
  simp only [Client.Knows, hpc] at hk
  obtain ⟨a, π, hn⟩ := hk
  obtain ⟨⟨hq, hld⟩, hla, hseen⟩ := hs
  have hc : c.pc.owes = false := by simp [hpc, Pc.owes]
  unfold Client.scan
  split
  · exact h.quiet hc rfl rfl trivial
  · split
    · rename_i i hi
      have hlt : i < c.p.type.num := List.mem_range.mp (List.mem_of_find?_eq_some hi)
      exact h.quiet hc rfl rfl (Client.Stands.of_load hla hq (hseen.slot hlt).symm)
    · cases c.isSearch
      · exact h.quiet hc rfl rfl ⟨rfl, ⟨hq, hld⟩, hla, hseen.congr rfl rfl⟩
      · exact h.quiet hc rfl rfl trivial

/-- The first empty slot of the copy is empty, and so is the first one behind the node's size. -/
theorem emptyScan (hk : c.Knows L m) {i : ℕ} (hpc : c.pc = .emptyScan i) :
    Alone crc L m (c.emptyScan i) := by
  have hs := h.sees
  simp only [Client.Sees, hpc] at hs
  simp only [Client.Knows, hpc] at hk
  obtain ⟨a, π, hn, -⟩ := hk
  obtain ⟨rfl, ⟨hq, hld⟩, hla, hseen⟩ := hs
  have hc : c.pc.owes = false := by simp [hpc, Pc.owes]
  have hx := h.exact hc hq
  have hnum : c.p.type.num = (m.node c.target).hdr.type.num := by rw [hn.type_num, hseen.hdr]
  unfold Client.emptyScan
  split
  · rename_i j hj
    have hlt : j < c.p.type.num := List.mem_range.mp (List.mem_of_find?_eq_some hj)
    have hnull := List.find?_some hj
    simp only [Entry.isNull, Bool.and_eq_true, beq_iff_eq] at hnull
    exact h.quiet hc rfl rfl ⟨⟨hq, hld⟩, hla, (hseen.slot hlt).symm.trans hnull.2, hnum ▸ hlt⟩
  · split
    · exact h.quiet hc rfl rfl trivial
    · refine h.quiet hc rfl rfl ⟨⟨hq, hld⟩, hla, ?_, hnum, hseen.hdr⟩
      change m.load (.slot c.target c.p.type.num) = .null
      by_contra hne
      have := hx.sized _ _ _ (hn.target ▸ hn.layout) hne
      omega

end Alone
end SmartTree
