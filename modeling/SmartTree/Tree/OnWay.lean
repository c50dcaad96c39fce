import SmartTree.Tree.ShownRun

/-! The way of a key. A search for a key in sight stays on it: every entry it holds, however
stale, is of a block the key leads through, and the slot it has to take next is among those
it reads. -/
namespace SmartTree
open Transition
variable {n : ℕ} {L L' : Layout} {m m' : Mem n} {c : Client n} {k : Key n} {a : Addr}
  {σ π : List UInt8} {e : Entry} {crc : Key n → Value → UInt64}

def OnWay (L : Layout) (m : Mem n) (k : Key n) (e : Entry) : Prop :=
  ∃ a τ, e.addr? = some a ∧ BytesOf L m a τ ∧ τ <+: k.bytes

/-- The words of a page buffer that have been read, up to slot `hi`, seen from the key. -/
structure PageOnWay (L : Layout) (m : Mem n) (k : Key n) (a : Addr) (π : List UInt8) (hi : ℕ)
    (todo : List NodeWord) (pg : Page) : Prop where
  entry : ∀ i < hi, .slot i ∉ todo → pg.slots i ≠ .null →
    π ++ [(pg.slots i).partialKey] <+: k.bytes → OnWay L m k (pg.slots i)
  child : ∃ j, m.load (.slot a j) ≠ .null ∧ π ++ [(m.load (.slot a j)).partialKey] <+: k.bytes ∧
    (.hdr ∉ todo → j < pg.hdr.type.num) ∧
    (j < hi → .slot j ∉ todo → pg.slots j ≠ .null ∧
      (pg.slots j).partialKey = (m.load (.slot a j)).partialKey)

theorem OnWay.mono (h : OnWay L m k e) (hx : Extends L m L' m') : OnWay L' m' k e := by
  obtain ⟨a, τ, ha, hb, hτ⟩ := h
  exact ⟨a, τ, ha, hb.mono hx, hτ⟩

theorem OnWay.alike {e' : Entry} (h : OnWay L m k e) (he : e'.addr? = e.addr?) : OnWay L m k e' := by
  obtain ⟨a, τ, ha, hb, hτ⟩ := h
  exact ⟨a, τ, he.trans ha, hb, hτ⟩

theorem OnWay.ne_null (h : OnWay L m k e) : e ≠ .null := by
  rintro rfl
  obtain ⟨a, τ, ha, -⟩ := h
  cases ha

theorem OnWay.node {b : UInt8} {t : NodeType} (h : OnWay L m k (.node b t a))
    (ha : L a = some (.node π)) : π <+: k.bytes := by
  obtain ⟨x, τ, hx, hb, hτ⟩ := h
  cases hx
  exact hb.unique (.node ha) ▸ hτ

theorem OnWay.leaf {b : UInt8} {l : Addr} (h : OnWay L m k (.leaf b l)) (hl : L l = some .leaf) :
    (m.leaf l).key = k := by
  obtain ⟨x, τ, hx, hb, hτ⟩ := h
  cases hx
  obtain rfl := hb.unique (.leaf hl)
  exact Key.ext_bytes (hτ.eq_of_length (by simp))

theorem PageOnWay.mono {hi : ℕ} {todo : List NodeWord} {pg : Page} (ha : L a = some (.node π))
    (h : PageOnWay L m k a π hi todo pg) (hx : Extends L m L' m') :
    PageOnWay L' m' k a π hi todo pg where
  entry i hlt hk hn hp := (h.entry i hlt hk hn hp).mono hx
  child := by
    obtain ⟨j, h1, h2, h3, h4⟩ := h.child
    obtain ⟨h1', hb⟩ := hx.slot a π j ha h1
    exact ⟨j, h1', by rwa [hb], h3, by rwa [hb]⟩

theorem Planted.slot (ht : TreeInv L m) (hk : Planted L m k) : ∃ q τ b l, SlotPath L m q τ ∧
    m.load q = .leaf b l ∧ BytesOf L m l k.bytes ∧ τ <+: k.bytes := by
  obtain ⟨l, hl, rfl⟩ := hk
  obtain ⟨q, τ, hq, hql⟩ := ht.parent l (by simp [hl])
  obtain ⟨b, hlq⟩ := ht.load_leaf hq hql hl
  have hok := ht.entry hq
  rw [hlq] at hok
  cases hok with | leaf _ h => exact ⟨q, τ, b, l, hq, hlq, .leaf hl, h⟩

/-- Whatever a slot on the way of a stored key holds, the key leads through it. -/
theorem OnWay.of_load (ht : TreeInv L m) (hk : Planted L m k) {p : Ptr} (hp : SlotPath L m p σ)
    (hσ : σ <+: k.bytes) : OnWay L m k (m.load p) := by
  obtain ⟨q, τ, b, l, hq, hlq, hl, hτ⟩ := hk.slot ht
  have hself : OnWay L m k (m.load q) := ⟨l, _, by rw [hlq]; rfl, hl, List.prefix_rfl⟩
  obtain hc | hc := List.prefix_or_prefix_of_prefix hσ hτ
  · obtain rfl | ⟨b', t, x, π, hn, hx, hπ, -⟩ := ht.slot_cases hp hq hc
    · exact hself
    · exact ⟨x, π, by rw [hn]; rfl, .node hx, hπ.trans hτ⟩
  · obtain rfl | ⟨b', t, x, π, hn, -⟩ := ht.slot_cases hq hp hc
    · exact hself
    · rw [hlq] at hn
      cases hn

/-- A node a stored key leads through has a slot that goes on along the key. -/
theorem Planted.child (ht : TreeInv L m) (hk : Planted L m k) (ha : L a = some (.node π))
    (hπ : π <+: k.bytes) :
    ∃ j, m.load (.slot a j) ≠ .null ∧ π ++ [(m.load (.slot a j)).partialKey] <+: k.bytes := by
  obtain ⟨p, σ, b, t, hp, hlp, hσ⟩ := ht.node_slot ha
  obtain ⟨q, τ, b', l, hq, hlq, -, hτ⟩ := hk.slot ht
  have hne : p ≠ q := by
    rintro rfl
    rw [hlp] at hlq
    cases hlq
  have hστ : σ <+: τ := by
    obtain hc | hc := List.prefix_or_prefix_of_prefix (hσ.trans hπ) hτ
    · exact hc
    · obtain rfl | ⟨_, _, _, _, hn, -⟩ := ht.slot_cases hq hp hc
      · exact absurd rfl hne
      · rw [hlq] at hn
        cases hn
  obtain ⟨j, hj, hjτ⟩ := ht.child_on_way hp hlp ha hq hστ hne
  exact ⟨j, hj, hjτ.trans hτ⟩

theorem PageOnWay.word (ht : TreeInv L m) (hk : Planted L m k) (hs : InSight L m k)
    (ha : L a = some (.node π)) {hi j : ℕ} {todo : List NodeWord} {pg : Page} {w : NodeWord}
    (hw : todo[j]? = some w) (h : PageOnWay L m k a π hi todo pg) :
    PageOnWay L m k a π hi (todo.eraseIdx j) ((m.node a).copy w pg) where
  entry i hlt hm := by
    have hnow : (m.node a).slots i ≠ .null → π ++ [((m.node a).slots i).partialKey] <+: k.bytes →
        OnWay L m k ((m.node a).slots i) := fun hn hp =>
      OnWay.of_load ht hk (.slot ha hn) hp
    obtain hm | rfl := Client.not_mem_eraseIdx hw hm
    · cases w with
      | slot x =>
        by_cases hx : i = x
        · subst hx; simpa [Page.copy] using hnow
        · simpa [Page.copy, hx] using h.entry i hlt hm
      | _ => exact h.entry i hlt hm
    · simpa [Page.copy] using hnow
  child := by
    obtain ⟨i, h1, h2, h3, h4⟩ := h.child
    have hshown : i < (m.node a).hdr.type.num := (hs a i π ha h1 h2).resolve_right id
    refine ⟨i, h1, h2, fun hm => ?_, fun hlt hm => ?_⟩
    · obtain hm | rfl := Client.not_mem_eraseIdx hw hm
      · cases w <;> first | exact h3 hm | exact hshown
      · exact hshown
    · have hnow : (m.node a).slots i ≠ .null ∧
          ((m.node a).slots i).partialKey = (m.load (.slot a i)).partialKey := ⟨h1, rfl⟩
      obtain hm | rfl := Client.not_mem_eraseIdx hw hm
      · cases w with
        | slot x =>
          by_cases hx : i = x
          · subst hx; simpa [Page.copy] using hnow
          · simpa [Page.copy, hx] using h4 hlt hm
        | _ => exact h4 hlt hm
      · simpa [Page.copy] using hnow

namespace Client

def SeesWay (L : Layout) (m : Mem n) (c : Client n) (todo : List NodeWord) : Prop :=
  ∃ π, L c.target = some (.node π) ∧ PageOnWay L m c.key c.target π c.p.type.num todo c.page

def Seeks (L : Layout) (m : Mem n) (c : Client n) : Prop :=
  match c.pc with
  | .next | .reread | .readLeaf _ | .gotLeaf => OnWay L m c.key c.p
  | .readNode todo | .readRest todo => OnWay L m c.key c.p ∧ c.SeesWay L m todo
  | .nodeRead | .scan => OnWay L m c.key c.p ∧ c.SeesWay L m []
  | .finish r => r = true
  | .idle | .readRoot => True
  | _ => False

theorem Seeks.mono (h : c.Seeks L m) (hx : Extends L m L' m') : c.Seeks L' m' := by
  have hsee : ∀ todo, c.SeesWay L m todo → c.SeesWay L' m' todo := by
    rintro todo ⟨π, ha, hp⟩
    exact ⟨π, hx.layout _ _ ha, hp.mono ha hx⟩
  unfold Seeks at h ⊢
  cases hpc : c.pc <;> simp only [hpc] at h ⊢
  case next | reread | readLeaf | gotLeaf => exact h.mono hx
  case readNode | readRest | nodeRead | scan => exact ⟨h.1.mono hx, hsee _ h.2⟩
  case finish => exact h

theorem next_seeks (ht : TreeInv L m) (hk : Planted L m c.key) (hloc : ∃ σ, Located L m c σ)
    (h : OnWay L m c.key c.p) : c.next.Seeks L m := by
  obtain ⟨σ, hσ⟩ := hloc
  unfold next
  split
  · rename_i hp
    exact absurd hp h.ne_null
  · exact h
  · rename_i b t a hp
    have hta : c.target = a := by simp [target, hp]
    have hok := hσ.entry
    rw [hp] at hok
    cases hok with
    | @node _ _ _ π ha _ =>
      obtain ⟨j, hj, hjk⟩ := hk.child ht ha ((hp ▸ h).node ha)
      refine ⟨h, π, hta ▸ ha, fun i hi hm => ?_, j, hta ▸ hj, hta ▸ hjk, fun hm => ?_, fun hi hm => ?_⟩
      · exact absurd (by simpa [nodeWords, slotWords, hp] using hi) hm
      · exact absurd (by simp [nodeWords]) hm
      · exact absurd (by simpa [nodeWords, slotWords, hp] using hi) hm

theorem leafRead_seeks (h : OnWay L m c.key c.p) : (c.leafRead crc a).Seeks L m := by
  unfold leafRead
  split
  · exact h
  · split <;> exact h

theorem gotLeaf_seeks (hs : c.isSearch = true)
    (hk : (∃ σ, Located L m c σ) ∧ ∃ b l, c.p = .leaf b l ∧ LeafBuf m l [] c.leaf)
    (h : OnWay L m c.key c.p) : c.gotLeaf.Seeks L m := by
  obtain ⟨⟨σ, hσ⟩, b, l, hp, hb⟩ := hk
  have hkey : c.leaf.key = c.key := (hb.key (by simp)).trans ((hp ▸ h).leaf (hσ.leaf hp).1)
  unfold gotLeaf
  rw [if_pos hs, if_pos hkey]
  exact rfl

theorem typeRead_seeks {b : UInt8} {t : NodeType} (hp : c.p = .node b t a)
    (h : OnWay L m c.key c.p ∧ c.SeesWay L m []) : c.typeRead.Seeks L m := by
  obtain ⟨ho, π, ha, hpg⟩ := h
  have hta : target { c with p := c.p.withType c.page.hdr.type } = c.target := by
    simp [target, hp]
  have hty : (c.p.withType c.page.hdr.type).type = c.page.hdr.type := by rw [hp]; rfl
  have ho' : OnWay L m c.key (c.p.withType c.page.hdr.type) :=
    ho.alike (Entry.Alike.withType _ _).addr_eq
  obtain ⟨j, h1, h2, h3, h4⟩ := hpg.child
  unfold typeRead
  split
  · have hlo : ∀ i < c.page.hdr.type.num,
        .slot i ∉ slotWords c.p.type.num c.page.hdr.type.num → i < c.p.type.num := by
      intro i hi hm
      by_contra hge
      refine hm (List.mem_map.mpr ⟨i - c.p.type.num, List.mem_range.mpr ?_, ?_⟩)
      · omega
      · congr 1; omega
    refine ⟨ho', π, hta ▸ ha, fun i hi hm => ?_, j, hta ▸ h1, hta ▸ h2, fun _ => h3 (by simp),
      fun hi hm => ?_⟩
    · rw [hty] at hi
      exact hpg.entry i (hlo i hi hm) (by simp)
    · rw [hty] at hi
      exact hta ▸ h4 (hlo j hi hm) (by simp)
  · rename_i hlt
    have hnum := NodeType.num_mono (not_lt.mp hlt)
    refine ⟨ho', π, hta ▸ ha, fun i hi hm => ?_, j, hta ▸ h1, hta ▸ h2, fun _ => h3 (by simp),
      fun hi hm => ?_⟩
    · rw [hty] at hi
      exact hpg.entry i (hi.trans_le hnum) (by simp)
    · rw [hty] at hi
      exact hta ▸ h4 (hi.trans_le hnum) (by simp)

theorem nodeRead_seeks (ht : TreeInv L m)
    (hk : (∃ σ, Located L m c σ) ∧ ∃ b a π, c.p = .node b c.page.hdr.type a ∧
      L a = some (.node π) ∧ PageBuf L m π a [] c.page.hdr.type.num c.page)
    (h : OnWay L m c.key c.p ∧ c.SeesWay L m []) : (c.nodeRead m c.target).client.Seeks L m := by
  obtain ⟨⟨σ, hσ⟩, b, a, π, hp, ha, hb⟩ := hk
  have hπ : π <+: c.key.bytes := (hp ▸ h.1).node ha
  have hh := (hb.hdr (by simp)).1
  have hshort := (ht.node a π ha).short
  unfold nodeRead
  dsimp only
  split
  · exact h.1
  · have hfirst : c.page.hdr.firstDiff c.key = some none := by
      obtain ⟨hf, -⟩ | ⟨i, x, -, -, -, hle, hne, hpre⟩ :=
        hh.firstDiff (k := c.key) hshort.le hπ List.prefix_rfl hh.le
      · exact hf
      · have hpos := hh.pos
        have hlen : (c.key.bytes.take (c.page.hdr.depth + i - 1)).length + 1 =
            c.page.hdr.depth + i := by
          rw [List.length_take, c.key.length_bytes]
          omega
        have hbyte := Key.byte_of_append_prefix (hpre.trans hπ)
        rw [hlen] at hbyte
        exact absurd hbyte hne
    unfold checkHeader
    simp only [hfirst]
    exact h

theorem scan_seeks (ht : TreeInv L m) (hn : InNode L m c a π)
    (h : OnWay L m c.key c.p ∧ c.SeesWay L m []) : (c.scan c.target).Seeks L m := by
  obtain ⟨ho, π', ha, hpg⟩ := h
  rw [hn.target] at ha hpg ⊢
  obtain rfl := Obj.node.inj (Option.some.inj (ha.symm.trans hn.layout))
  unfold scan
  rw [hn.getPartial ht]
  dsimp only
  split
  · rename_i i hi
    have hm := List.find?_some hi
    have hlt := List.mem_range.mp (List.mem_of_find?_eq_some hi)
    simp only [Bool.and_eq_true, Bool.not_eq_true', Entry.isNull, beq_eq_false_iff_ne,
      beq_iff_eq] at hm
    refine hpg.entry i hlt (by simp) hm.1 ?_
    rw [hm.2, hn.depth]
    exact Key.append_byte_prefix hn.key (ht.node a π' ha).short
  · rename_i hnone
    obtain ⟨j, h1, h2, h3, h4⟩ := hpg.child
    have hj : j < c.p.type.num := hn.type_num ▸ h3 (by simp)
    obtain ⟨hne, hbyte⟩ := h4 hj (by simp)
    have hkey := Key.byte_of_append_prefix h2
    have := List.find?_eq_none.mp hnone j (List.mem_range.mpr hj)
    simp [Entry.isNull, hne, hbyte, hkey, hn.depth] at this

end Client

end SmartTree
