import Mathlib.Data.Fintype.EquivFin
import SmartTree.Tree.Knows
import SmartTree.Tree.Match

/-! What a client knows after each of its own steps. Steps that only read or compute are
treated here; the memory they leave is the one they found. -/
namespace SmartTree
variable {n : ℕ} {L : Layout} {m : Mem n} {c c' : Client n}

namespace NodeType

theorem num_pos {t : NodeType} (h : t ≠ .deleted) : 4 ≤ t.num := by
  cases t <;> first | exact absurd rfl h | decide

theorem num_mono {t u : NodeType} (h : t.code ≤ u.code) : t.num ≤ u.num := by
  cases t <;> cases u <;> revert h <;> decide

theorem num_lt {t : NodeType} (h : t ≠ .node256) : t.num < 256 := by
  cases t <;> first | exact absurd rfl h | decide

end NodeType

/-- A slot index behind the smallest node has a type, and the type covers it. -/
theorem numToNodeType_spec {i : ℕ} (h0 : 0 < i) (hi : i < 256) :
    ∃ t, numToNodeType i = some t ∧ t ≠ .deleted ∧ i < t.num := by
  have h : ∀ i < 256, 0 < i →
      (numToNodeType i).any fun t => decide (t ≠ .deleted ∧ i < t.num) := by decide +kernel
  obtain ⟨t, ht, hs⟩ := (Option.any_eq_true _ _).mp (h i hi h0)
  exact ⟨t, ht, of_decide_eq_true hs⟩

theorem SlotSeen.of_load (ht : TreeInv L m) {a : Addr} {π : List UInt8} {i : ℕ}
    (ha : L a = some (.node π)) : SlotSeen L m π a i (m.load (.slot a i)) :=
  fun he => ⟨he, rfl, (ht.node a π ha).entry i he⟩

/-- Not every byte but one can be taken by 256 slots with different bytes. -/
theorem not_tried_all (ht : TreeInv L m) {a : Addr} {π : List UInt8} {b : UInt8}
    (ha : L a = some (.node π)) : ¬ Tried m a b 256 := by
  intro htr
  let f : Fin 256 → Fin 256 := fun i => ⟨(m.load (.slot a i)).partialKey.toNat, UInt8.toNat_lt _⟩
  have hinj : Function.Injective f := by
    intro i j hij
    have hb := UInt8.toNat_inj.mp (Fin.mk.inj hij)
    exact Fin.ext ((ht.node a π ha).distinct i j (htr i i.2).1 (htr j j.2).1 hb)
  obtain ⟨i, hi⟩ := Finite.injective_iff_surjective.mp hinj ⟨b.toNat, UInt8.toNat_lt b⟩
  exact (htr i i.2).2 (UInt8.toNat_inj.mp (Fin.mk.inj hi))

theorem Local.move (h : Local L m c) (hk : c'.Knows L m) (hop : ∀ op ∈ c'.pending, OpOk L m op)
    (hkey : c'.key = c.key) (hown : c'.leafOwned = c.leafOwned ∨ c'.leafOwned = none)
    (hnodes : c'.nodesOwned = []) (hpc : ∀ sp nodes u, c.pc ≠ .splitWrite sp nodes u) :
    Local L m c' where
  knows := hk
  kept := by
    have hc := h.kept
    unfold Client.LeafKept at hc ⊢
    split
    · trivial
    · intro l hl
      rcases hown with ho | ho
      · rw [ho] at hl
        split at hc
        · exact absurd ‹_› (hpc _ _ _)
        · rw [hkey]; exact hc l hl
      · rw [ho] at hl; cases hl
  ops := hop
  fresh a ha := by
    rw [Client.owned, hnodes, List.append_nil] at ha
    rcases hown with ho | ho
    · exact h.fresh a (by rw [Client.owned, ← ho]; exact List.mem_append_left _ ha)
    · rw [ho] at ha; cases ha
  nodup := by
    rw [Client.owned, hnodes, List.append_nil]
    cases c'.leafOwned <;> simp

namespace Client

theorem readRoot_knows (ht : TreeInv L m) (h : c.fromCache = false) :
    Knows L m { c with
      pPtr := .root, p := m.root, depth := 1
      pc := if c.isSearch && m.root.isNull then .noTree else .next } := by
  by_cases hn : (c.isSearch && m.root.isNull) = true
  · simp [Knows, hn]
  · simp only [Knows, hn]
    exact ⟨[], .root, rfl, List.nil_prefix, ht.root, fun _ => ⟨rfl, h⟩, id⟩

theorem reread_knows (ht : TreeInv L m) (h : c.p ≠ .null ∧ ∃ σ, Located L m c σ) :
    Knows L m { c with p := m.load c.pPtr, fromCache := false, pc := .next } := by
  obtain ⟨hp, σ, hσ⟩ := h
  exact ⟨σ, hσ.slot, hσ.depth, hσ.key, ht.entry hσ.slot, fun hn => absurd hn (hσ.filled hp), id⟩

theorem next_knows (h : ∃ σ, Located L m c σ) : c.next.Knows L m := by
  obtain ⟨σ, hσ⟩ := h
  have he := hσ.entry
  unfold next
  split
  · rename_i hp
    rw [if_neg (by simp [(hσ.null hp).2])]
    split
    · trivial
    · exact SiteOk.null (hσ.congr rfl rfl rfl rfl rfl) hp
  · rename_i b l hp
    exact ⟨⟨σ, hσ.congr rfl rfl rfl rfl rfl⟩, b, l, hp,
      ⟨fun hk => absurd (by simp [leafWords]) hk, fun hk => absurd (by simp [leafWords]) hk⟩⟩
  · rename_i b t a hp
    rw [hp] at he
    cases he with
    | @node _ _ _ π ha _ =>
      refine ⟨⟨σ, hσ.congr rfl rfl rfl rfl rfl⟩, b, t, a, π, hp, ha, ?_, ?_⟩
      · exact fun hk => absurd (by simp [nodeWords]) hk
      · exact fun i hi hk => absurd (by simpa [nodeWords, slotWords] using hi) hk

theorem leafRead_knows {crc : Key n → Value → UInt64} {a : Addr}
    (h : (∃ σ, Located L m c σ) ∧ ∃ b l, c.p = .leaf b l ∧ LeafBuf m l [] c.leaf) :
    (c.leafRead crc a).Knows L m := by
  obtain ⟨⟨σ, hσ⟩, b, l, hp, hb⟩ := h
  unfold leafRead
  split
  · exact ⟨by simp [hp], σ, hσ.congr rfl rfl rfl rfl rfl⟩
  · split
    · exact ⟨⟨σ, hσ.congr rfl rfl rfl rfl rfl⟩, b, l, hp,
        ⟨fun hk => absurd (by simp [leafWords]) hk, fun hk => absurd (by simp [leafWords]) hk⟩⟩
    · exact ⟨⟨σ, hσ.congr rfl rfl rfl rfl rfl⟩, b, l, hp, hb⟩

/-- A word that is not left after one has been taken out was read before or just now. -/
theorem not_mem_eraseIdx {α : Type*} {todo : List α} {j : ℕ} {w x : α} (hw : todo[j]? = some w)
    (hx : x ∉ todo.eraseIdx j) : x ∉ todo ∨ x = w := by
  by_contra hne
  obtain ⟨hm, hxw⟩ := not_or.mp hne
  obtain ⟨i, hi⟩ := List.mem_iff_getElem?.mp (not_not.mp hm)
  refine hx (List.mem_eraseIdx_iff_getElem?.mpr ⟨i, ?_, hi⟩)
  rintro rfl
  exact hxw (Option.some.inj (hi.symm.trans hw))

theorem leafWord_knows (ht : TreeInv L m) {todo : List LeafWord} {j : ℕ} {w : LeafWord}
    (h : (∃ σ, Located L m c σ) ∧ ∃ b l, c.p = .leaf b l ∧ LeafBuf m l todo c.leaf)
    (hw : todo[j]? = some w) :
    Knows L m { c with
      leaf := (m.leaf c.target).copy w c.leaf, pc := .readLeaf (todo.eraseIdx j) } := by
  obtain ⟨⟨σ, hσ⟩, b, l, hp, hb⟩ := h
  have hl : c.target = l := by simp [target, hp]
  refine ⟨⟨σ, hσ.congr rfl rfl rfl rfl rfl⟩, b, l, hp, ?_, ?_⟩
  · intro hk
    rcases not_mem_eraseIdx hw hk with hk | rfl
    · cases w <;> first | exact hb.key hk | exact congrArg (fun a => (m.leaf a).key) hl
    · exact congrArg (fun a => (m.leaf a).key) hl
  · intro hk
    have hv := ht.valid l (hσ.leaf hp).1
    rcases not_mem_eraseIdx hw hk with hk | rfl
    · cases w <;> first | exact hb.valid hk | (rw [hl]; exact hv)
    · rw [hl]; exact hv

theorem gotLeaf_knows
    (h : (∃ σ, Located L m c σ) ∧ ∃ b l, c.p = .leaf b l ∧ LeafBuf m l [] c.leaf) :
    c.gotLeaf.Knows L m := by
  obtain ⟨⟨σ, hσ⟩, b, l, hp, hb⟩ := h
  obtain ⟨hl, hkl⟩ := hσ.leaf hp
  rw [← hb.key (by simp)] at hkl
  unfold gotLeaf
  split
  · split <;> trivial
  · split
    · rename_i hk
      split
      · trivial
      · exact ⟨hk, b, l, hp, hl, hb⟩
    · rename_i hk
      obtain ⟨len, h1, h2, h3, h4⟩ := longestCommonPrefix_spec hkl hσ.key hk
      rw [hσ.depth, h1]
      simp only [getPartial_eq h2]
      refine ⟨σ, hσ.congr rfl rfl hσ.depth.symm rfl rfl, by simp [hp], h2, ?_, h4,
        fun i hi => by cases hi⟩
      rw [hp]
      refine .leaf hl ?_
      rw [← hb.key (by simp)]
      change c.key.bytes.take (σ.length + len) ++ [c.leaf.key.byte (σ.length + 1 + len)] <+: _
      have hs := Key.take_succ (k := c.leaf.key) (d := σ.length + 1 + len) (by omega) h2
      rw [← h3, show σ.length + len = σ.length + 1 + len - 1 by omega, ← hs]
      exact List.take_prefix _ _

section node
variable {todo : List NodeWord} {a : Addr} {π : List UInt8} {hi : ℕ}

theorem PageBuf.word (ht : TreeInv L m) (ha : L a = some (.node π)) {pg : Page} {j : ℕ}
    {w : NodeWord} (hw : todo[j]? = some w) (hb : PageBuf L m π a todo hi pg) :
    PageBuf L m π a (todo.eraseIdx j) hi ((m.node a).copy w pg) where
  hdr hk := by
    have hn := ht.node a π ha
    rcases not_mem_eraseIdx hw hk with hk | rfl
    · cases w <;> first | exact hb.hdr hk | exact ⟨hn.hdr, hn.type⟩
    · exact ⟨hn.hdr, hn.type⟩
  slot i hlt hk := by
    have hseen : SlotSeen L m π a i (m.load (.slot a i)) := .of_load ht ha
    rcases not_mem_eraseIdx hw hk with hk | rfl
    · cases w with
      | slot x =>
        by_cases hx : i = x
        · subst hx
          simpa [Page.copy, Mem.load] using hseen
        · simpa [Page.copy, hx] using hb.slot i hlt hk
      | _ => exact hb.slot i hlt hk
    · simpa [Page.copy, Mem.load] using hseen

theorem nodeWord_knows (ht : TreeInv L m) {j : ℕ} {w : NodeWord}
    (h : (∃ σ, Located L m c σ) ∧ ∃ b t a π, c.p = .node b t a ∧ L a = some (.node π) ∧
      PageBuf L m π a todo t.num c.page) (hw : todo[j]? = some w) :
    Knows L m { c with
      page := (m.node c.target).copy w c.page, pc := .readNode (todo.eraseIdx j) } := by
  obtain ⟨⟨σ, hσ⟩, b, t, a, π, hp, ha, hb⟩ := h
  have hta : c.target = a := by simp [target, hp]
  rw [hta]
  exact ⟨⟨σ, hσ.congr rfl rfl rfl rfl rfl⟩, b, t, a, π, hp, ha, PageBuf.word ht ha hw hb⟩

theorem restWord_knows (ht : TreeInv L m) {j : ℕ} {w : NodeWord}
    (h : (∃ σ, Located L m c σ) ∧ .hdr ∉ todo ∧ ∃ b a π, c.p = .node b c.page.hdr.type a ∧
      L a = some (.node π) ∧ PageBuf L m π a todo c.page.hdr.type.num c.page)
    (hw : todo[j]? = some w) :
    Knows L m { c with
      page := (m.node c.target).copy w c.page, pc := .readRest (todo.eraseIdx j) } := by
  obtain ⟨⟨σ, hσ⟩, hh, b, a, π, hp, ha, hb⟩ := h
  have hta : c.target = a := by simp [target, hp]
  have hpg : ((m.node a).copy w c.page).hdr = c.page.hdr := by
    cases w with
    | hdr => exact absurd (List.mem_of_getElem? hw) hh
    | _ => rfl
  rw [hta]
  refine ⟨⟨σ, hσ.congr rfl rfl rfl rfl rfl⟩, fun hm => hh (List.mem_of_mem_eraseIdx hm), b, a, π,
    ?_, ha, ?_⟩
  · simpa only [hpg] using hp
  · simpa only [hpg] using PageBuf.word ht ha hw hb

/-- The entry takes the header's type; what lies beyond its own is still to be read. -/
theorem typeRead_knows
    (h : (∃ σ, Located L m c σ) ∧ ∃ b t a π, c.p = .node b t a ∧ L a = some (.node π) ∧
      PageBuf L m π a [] t.num c.page) : c.typeRead.Knows L m := by
  obtain ⟨⟨σ, hσ⟩, b, t, a, π, hp, ha, hb⟩ := h
  have hloc : ∀ {pc}, Located L m
      { c with p := c.p.withType c.page.hdr.type, pc := pc } σ := by
    intro pc
    refine ⟨hσ.slot, hσ.depth, hσ.key, (Entry.Alike.withType c.p _).entryOk hσ.entry, ?_, ?_⟩
    · simp [hp]
    · exact fun _ => hσ.filled (by simp [hp])
  unfold typeRead
  split
  · rename_i hlt
    rw [hp, Entry.type_node] at hlt ⊢
    refine ⟨⟨σ, hp ▸ hloc⟩, by simp [slotWords], b, a, π, by simp, ha,
      fun _ => hb.hdr (by simp), fun i hi hk => hb.slot i ?_ (by simp)⟩
    by_contra hge
    refine hk (List.mem_map.mpr ⟨i - t.num, List.mem_range.mpr ?_, ?_⟩)
    · simp only at hi; omega
    · congr 1; omega
  · rename_i hlt
    rw [hp, Entry.type_node] at hlt
    refine ⟨⟨σ, hloc⟩, b, a, π, by simp [hp], ha, hb.hdr, fun i hi hk => hb.slot i ?_ hk⟩
    have := NodeType.num_mono (not_lt.mp hlt)
    simp only at hi
    omega

theorem restRead_knows
    (h : (∃ σ, Located L m c σ) ∧ .hdr ∉ ([] : List NodeWord) ∧ ∃ b a π,
      c.p = .node b c.page.hdr.type a ∧ L a = some (.node π) ∧
      PageBuf L m π a [] c.page.hdr.type.num c.page) :
    Knows L m { c with pc := .nodeRead } := by
  obtain ⟨⟨σ, hσ⟩, -, b, a, π, hp, ha, hb⟩ := h
  exact ⟨⟨σ, hσ.congr rfl rfl rfl rfl rfl⟩, b, a, π, hp, ha, hb⟩

/-- The key follows the node's path to its end, or the node is to be split where it leaves. -/
theorem checkHeader_knows (ht : TreeInv L m) {b : UInt8} {σ : List UInt8}
    (hσ : Located L m c σ) (hp : c.p = .node b c.page.hdr.type a) (ha : L a = some (.node π))
    (hb : PageBuf L m π a [] c.page.hdr.type.num c.page)
    (hd : c.page.hdr.depth ≤ c.depth) : c.checkHeader.Knows L m := by
  obtain ⟨hh, hty⟩ := hb.hdr (by simp)
  have hshort := (ht.node a π ha).short
  have hσπ : σ <+: π := by
    have he := hσ.entry
    rw [hp] at he
    cases he with
    | node ha' hpre => cases ha.symm.trans ha'; exact hpre
  have hend := hh.end_eq
  unfold checkHeader
  rcases hh.firstDiff (k := c.key) (by omega) hσ.key hσπ (hσ.depth ▸ hd) with
    ⟨h1, h2⟩ | ⟨i, x, h1, h2, h3, h4, h5, h6⟩
  · simp only [h1]
    exact ⟨a, π, ⟨b, hp⟩, ha, h2, hend, hty, fun i hi => hb.slot i hi (by simp), σ, hσ.slot⟩
  · simp only [h1]
    split
    · trivial
    · rw [if_neg (by rw [hσ.depth]; omega)]
      have hlen : σ.length + (c.page.hdr.depth + i - c.depth) = c.page.hdr.depth + i - 1 := by
        rw [hσ.depth]; omega
      refine ⟨σ, hσ.congr rfl rfl rfl rfl rfl, by simp [hp], ?_, ?_, ?_, ?_⟩
      · simp only [hσ.depth]; omega
      · simp only [hp, hlen, List.getD_eq_getElem?_getD, h2, Option.getD_some]
        exact .node ha h6
      · simp only [List.getD_eq_getElem?_getD, h2, Option.getD_some]
        rwa [show σ.length + 1 + (c.page.hdr.depth + i - c.depth) = c.page.hdr.depth + i by
          rw [hσ.depth]; omega]
      · intro j hj
        cases hj
        refine ⟨a, π, ⟨⟨b, _, hp⟩, ha, hh, (List.getElem?_eq_some_iff.mp h2).1⟩, ?_⟩
        simp only [hσ.depth]; omega

/-- A page whose header is up to date is filed under the node's path. -/
theorem addToCache_logOk {pg : Page} {k : Key n} (ha : L a = some (.node π)) (hh : HdrPath π pg.hdr)
    (hk : k.pre (pg.hdr.depth - 1) <+: π)
    (hs : ∀ i < pg.hdr.type.num, SlotSeen L m π a i (pg.slots i)) (hle : pg.hdr.depth - 1 ≤ n) :
    ∀ q ∈ addToCache k pg a, LogOk L m q := by
  have hpath : cachePath k pg.hdr = π := by
    have hlen : (k.pre (pg.hdr.depth - 1)).length = pg.hdr.depth - 1 := by
      simp [Key.pre, hle]
    have htake : k.pre (pg.hdr.depth - 1) = π.take (pg.hdr.depth - 1) := by
      have := List.prefix_iff_eq_take.mp hk
      rwa [hlen] at this
    rw [cachePath, htake, hh.partials, List.take_append_drop]
  intro q hq
  unfold addToCache at hq
  split at hq
  · cases hq
  · obtain rfl := List.mem_singleton.mp hq
    rw [hpath]
    refine ⟨ha, hh.end_eq, fun i e he => ?_⟩
    obtain ⟨hlt, hget⟩ := List.getElem?_eq_some_iff.mp he
    simp only [CacheEntry.ofPage, List.length_map, List.length_range] at hlt
    simp only [CacheEntry.ofPage, List.getElem_map, List.getElem_range] at hget
    rw [← hget]
    exact hs i hlt

theorem nodeRead_knows (ht : TreeInv L m)
    (h : (∃ σ, Located L m c σ) ∧ ∃ b a π, c.p = .node b c.page.hdr.type a ∧
      L a = some (.node π) ∧ PageBuf L m π a [] c.page.hdr.type.num c.page) :
    (c.nodeRead m c.target).client.Knows L m ∧
      ∀ q ∈ (c.nodeRead m c.target).added, LogOk L m q := by
  obtain ⟨⟨σ, hσ⟩, b, a, π, hp, ha, hb⟩ := h
  have hta : c.target = a := by simp [target, hp]
  unfold nodeRead
  rw [hta]
  by_cases hv : (!c.page.isValid c.pPtr c.depth c.fromCache) = true
  · simp only [hv, if_true]
    refine ⟨⟨by simp [hp], σ, hσ.congr rfl rfl rfl rfl rfl⟩, by simp⟩
  · simp only [hv]
    have hd : c.page.hdr.depth ≤ c.depth := by
      simp only [Page.isValid, Bool.not_eq_true', Bool.not_eq_false, Bool.and_eq_true,
        decide_eq_true_eq] at hv
      exact hv.1.2
    refine ⟨checkHeader_knows ht (hσ.congr rfl rfl rfl rfl rfl) hp ha hb hd, ?_⟩
    intro q hq
    simp only [Bool.false_eq_true, if_false] at hq
    split at hq
    · rename_i hde
      have hσπ : σ <+: π := by
        have he := hσ.entry
        rw [hp] at he
        cases he with
        | node ha' hpre => cases ha.symm.trans ha'; exact hpre
      have hlen : σ.length ≤ n := by simpa using hσ.key.length_le
      have hds : c.page.hdr.depth - 1 = σ.length := by rw [← hde, hσ.depth]; omega
      refine addToCache_logOk ha (hb.hdr (by simp)).1 ?_ (fun i hi => hb.slot i hi (by simp)) (by omega)
        q hq
      rw [hds, Key.pre, ← List.prefix_iff_eq_take.mp hσ.key]
      exact hσπ
    · cases hq

theorem descend_knows (ht : TreeInv L m) {i : ℕ} {e : Entry} (hn : InNode L m c a π)
    (he : e ≠ .null) (hs : SlotSeen L m π a i e) (hb : e.partialKey = c.key.byte c.depth) :
    (c.descend (.slot a i) e).Knows L m := by
  obtain ⟨h1, h2, h3⟩ := hs he
  have hshort := (ht.node a π hn.layout).short
  rw [hn.depth] at hb
  refine ⟨π ++ [c.key.byte (π.length + 1)], ?_, ?_, Key.append_byte_prefix hn.key hshort, hb ▸ h3,
    fun hnull => absurd hnull he, fun _ => h1⟩
  · rw [← hb, ← h2]
    exact .slot hn.layout h1
  · simp [descend, hn.depth]

theorem InNode.type_num (h : InNode L m c a π) : c.p.type = c.page.hdr.type := by
  obtain ⟨b, hb⟩ := h.entry
  rw [hb, Entry.type_node]

theorem InNode.target (h : InNode L m c a π) : c.target = a := by
  obtain ⟨b, hb⟩ := h.entry
  simp [Client.target, hb]

theorem InNode.getPartial (h : InNode L m c a π) (ht : TreeInv L m) :
    getPartial c.key c.depth = some (c.key.byte c.depth) := by
  have := (ht.node a π h.layout).short
  exact getPartial_eq (by rw [h.depth]; omega)

theorem scan_knows (ht : TreeInv L m) (h : InNode L m c a π) : (c.scan a).Knows L m := by
  unfold scan
  rw [h.getPartial ht, h.type_num]
  dsimp only
  split
  · rename_i i hi
    have hm := List.find?_some hi
    have hlt := List.mem_range.mp (List.mem_of_find?_eq_some hi)
    simp only [Bool.and_eq_true, Bool.not_eq_true', Entry.isNull, beq_eq_false_iff_ne,
      beq_iff_eq] at hm
    exact descend_knows ht h hm.1 (h.slots i hlt) hm.2
  · rename_i hnone
    split
    · trivial
    · refine ⟨a, π, h.congr rfl rfl rfl rfl rfl, fun i hi hne => ?_, fun i hi => absurd hi (by omega)⟩
      have := List.find?_eq_none.mp hnone i (List.mem_range.mpr hi)
      simpa [Entry.isNull, hne] using this

theorem NoMatch.tried (h : InNode L m c a π) {b : UInt8} {i j : ℕ} (hm : c.NoMatch b)
    (ht : Tried m a b i) (hj : j ≤ c.page.hdr.type.num)
    (hs : ∀ x, i ≤ x → x < j → c.page.slots x ≠ .null) : Tried m a b j := by
  intro x hx
  by_cases hxi : x < i
  · exact ht x hxi
  · have hne := hs x (by omega) hx
    obtain ⟨h1, h2, -⟩ := h.slots x (by omega) hne
    exact ⟨h1, h2 ▸ hm x (by omega) hne⟩

/-- Slots are tried in ascending order, so those before the one found are taken. -/
theorem emptyScan_knows (ht : TreeInv L m) {i : ℕ} (h : InNode L m c a π)
    (hm : c.NoMatch (c.key.byte c.depth)) (htr : Tried m a (c.key.byte c.depth) i) :
    (c.emptyScan i).Knows L m := by
  unfold emptyScan
  rw [h.type_num]
  split
  · rename_i j hj
    have hp := List.find?_some hj
    have hlt := List.mem_range.mp (List.mem_of_find?_eq_some hj)
    simp only [Bool.and_eq_true, decide_eq_true_eq, Entry.isNull, beq_iff_eq] at hp
    refine SiteOk.empty (h.congr rfl rfl rfl rfl rfl) hm
      (hm.tried h htr hlt.le fun x hix hxj => ?_) hlt
    obtain ⟨-, as, bs, hrange, hbefore⟩ := List.find?_eq_some_iff_append.mp hj
    have hx : x ∈ as := by
      have hxr : x ∈ as ++ j :: bs := hrange ▸ List.mem_range.mpr (by omega)
      rcases List.mem_append.mp hxr with hx | hx
      · exact hx
      · have hsorted : (as ++ j :: bs).Pairwise (· < ·) := hrange ▸ List.pairwise_lt_range
        rcases List.mem_cons.mp hx with rfl | hx
        · omega
        · have := (List.pairwise_cons.mp (List.pairwise_append.mp hsorted).2.1).1 x hx
          omega
    have := hbefore x hx
    simpa [hix, Entry.isNull] using this
  · rename_i hnone
    have hall : Tried m a (c.key.byte c.depth) c.page.hdr.type.num :=
      hm.tried h htr le_rfl fun x hix hxj => by
        have := List.find?_eq_none.mp hnone x (List.mem_range.mpr hxj)
        simpa [hix, Entry.isNull] using this
    split
    · rename_i h256
      rw [h256] at hall
      exact (not_tried_all ht h.layout hall).elim
    · rename_i hne
      have := NodeType.num_pos h.type
      exact SiteOk.behind (h.congr rfl rfl rfl rfl rfl) hall (by omega) (NodeType.num_lt hne)

theorem leafCasFailed_knows (ht : TreeInv L m) {site : Site} {b : UInt8} (h : SiteOk L m c site)
    (hb : c.siteByte site = some b) (hn : m.load (c.sitePtr c.target site) ≠ .null) :
    (c.leafCasFailed c.target (m.load (c.sitePtr c.target site)) b site).Knows L m := by
  cases h with
  | @null σ hσ hp =>
    exact ⟨σ, hσ.slot, hσ.depth, hσ.key, ht.entry hσ.slot, fun h => absurd h hn, fun _ => hn⟩
  | @empty a π i hi hm htr hlt =>
    have hta : c.target = a := hi.target
    obtain rfl := Option.some.inj ((hi.getPartial ht).symm.trans hb)
    simp only [sitePtr, hta, leafCasFailed] at hn ⊢
    split
    · rename_i hbyte
      exact descend_knows ht hi hn (.of_load ht hi.layout) hbyte
    · rename_i hbyte
      refine ⟨a, π, hi.congr rfl rfl rfl rfl rfl, hm, fun y hy => ?_⟩
      rcases Nat.lt_succ_iff_lt_or_eq.mp hy with hy | rfl
      · exact htr y hy
      · exact ⟨hn, hbyte⟩
  | @behind a π i hi htr h0 hlt =>
    have hta : c.target = a := hi.target
    obtain rfl := Option.some.inj ((hi.getPartial ht).symm.trans hb)
    simp only [sitePtr, hta, leafCasFailed] at hn ⊢
    split
    · rename_i hbyte
      exact descend_knows ht hi hn (.of_load ht hi.layout) hbyte
    · rename_i hbyte
      have hnext : Tried m a (c.key.byte c.depth) (i + 1) := fun y hy => by
        rcases Nat.lt_succ_iff_lt_or_eq.mp hy with hy | rfl
        · exact htr y hy
        · exact ⟨hn, hbyte⟩
      split
      · rename_i hlt'
        exact SiteOk.behind (hi.congr rfl rfl rfl rfl rfl) hnext (by omega) hlt'
      · have h256 : i + 1 = 256 := by omega
        exact (not_tried_all ht hi.layout (h256 ▸ hnext)).elim

end node
end Client
end SmartTree
