import SmartTree.Tree.Shown
import SmartTree.Tree.Stored

/-! What clients see and leave in sight. An insert walks over shown slots only, unless it loses
the race for a slot behind the declared size to the same byte and descends there before the
header has grown; with that one step ruled out, every insert that returns has its whole way
shown. -/
namespace SmartTree
open Transition
variable {n : ℕ} {L : Layout} {m m' : Mem n} {c : Client n} {crc : Key n → Value → UInt64}

def PageOpen (L : Layout) (m : Mem n) (a : Addr) (t : NodeType) (todo : List NodeWord)
    (pg : Page) : Prop :=
  ∀ π, L a = some (.node π) → ∀ i < t.num, .slot i ∉ todo → Open L m (π.length + 1) (pg.slots i)

structure LogOpen (L : Layout) (m : Mem n) (q : List UInt8 × CacheEntry) : Prop where
  node : Open L m 0 (.node 0 .node4 q.2.addr)
  slot : ∀ i e, q.2.records[i]? = some e →
    i < (m.node q.2.addr).hdr.type.num ∧ Open L m (q.1.length + 1) e

def InSight (L : Layout) (m : Mem n) (k : Key n) : Prop := Shown L m (fun _ _ _ => False) k.bytes

namespace Client

/-- Every slot on the way of the key is shown, or will be when `cas_node_type` returns. -/
def Raising (L : Layout) (m : Mem n) (c : Client n) (w : Switch) : Prop :=
  Shown L m (fun a i _ => a = w.node ∧ i < w.next.num) c.key.bytes

def Shows (L : Layout) (m : Mem n) (c : Client n) : Prop :=
  match c.pc with
  | .idle | .readRoot | .noTree | .fault => True
  | .finish _ => c.isSearch = false → InSight L m c.key
  | .splitHdr _ => InSight L m c.key
  | .splitRev sp nodes => InSight L m c.key ∧ ∀ pages, c.pages sp nodes = some pages →
      ∀ q ∈ pages, ∀ x ∈ addToCache c.key q.2 q.1, LogOpen L m x
  | .switchEntry w | .switchHdr w | .switchDown w | .switchEnd w => c.Raising L m w
  | .readNode todo | .readRest todo =>
    Open L m 0 c.p ∧ PageOpen L m c.target c.p.type todo c.page
  | .nodeRead | .scan => Open L m 0 c.p ∧ PageOpen L m c.target c.p.type [] c.page
  | _ => Open L m 0 c.p

end Client

theorem Client.InNode.entryOk {a : Addr} {π : List UInt8} (h : c.InNode L m a π) :
    EntryOk L m [] c.p := by
  obtain ⟨b, hp⟩ := h.entry
  rw [hp]
  exact .node h.layout List.nil_prefix

theorem Client.SiteOk.entryOk {site : Site} (h : c.SiteOk L m site) : ∃ σ, EntryOk L m σ c.p := by
  cases h with
  | null hσ => exact ⟨_, hσ.entry⟩
  | empty hi | behind hi => exact ⟨_, hi.entryOk⟩

section mono
variable {ps : List (Addr × Obj)} (hc : Change L m ps m') (ht' : TreeInv (L.publish ps) m')
  (hx : Extends L m (L.publish ps) m')
include hc ht' hx

theorem LogOpen.mono {q : List UInt8 × CacheEntry} (h : LogOpen L m q) (hq : LogOk L m q) :
    LogOpen (L.publish ps) m' q where
  node := h.node.mono (.node (σ := []) hq.layout List.nil_prefix) hc ht' hx
  slot i e he := by
    obtain ⟨hi, ho⟩ := h.slot i e he
    refine ⟨hi.trans_le (NodeType.num_mono (hc.grows.hdr _ (by simp [hq.layout]))), ?_⟩
    by_cases hn : e = .null
    · exact hn ▸ .null _
    · exact ho.mono (hq.slot i e he hn).2.2 hc ht' hx

theorem Planted.shown_mono {k : Key n} {ok : Addr → ℕ → List UInt8 → Prop} (hk : Planted L m k)
    (h : Shown L m ok k.bytes) : Shown (L.publish ps) m' ok k.bytes := by
  obtain ⟨l, hl, rfl⟩ := hk
  exact h.mono (.leaf hl) hc ht' hx

theorem PageOpen.mono {a : Addr} {t : NodeType} {π : List UInt8} {todo : List NodeWord} {pg : Page}
    (h : PageOpen L m a t todo pg) (ha : L a = some (.node π))
    (hb : ∀ i < t.num, .slot i ∉ todo → SlotSeen L m π a i (pg.slots i)) :
    PageOpen (L.publish ps) m' a t todo pg := by
  intro π' ha' i hi hk
  obtain rfl := Obj.node.inj (Option.some.inj (ha'.symm.trans (hx.layout _ _ ha)))
  by_cases hn : pg.slots i = .null
  · exact hn ▸ .null _
  · exact (h π' ha i hi hk).mono (hb i hi hk hn).2.2 hc ht' hx

namespace Client

theorem Shows.mono (h : c.Shows L m) (hk : c.Knows L m) (hs : c.Stores L m) :
    c.Shows (L.publish ps) m' := by
  unfold Shows at h ⊢
  unfold Knows at hk
  unfold Stores Past at hs
  cases hpc : c.pc <;> simp only [hpc] at h hk hs ⊢
  case finish => exact fun hi => (hs hi).shown_mono hc ht' hx (h hi)
  case splitHdr => exact (hs trivial).shown_mono hc ht' hx h
  case splitRev =>
    exact ⟨(hs trivial).shown_mono hc ht' hx h.1, fun pages hp q hq x hm =>
      (h.2 pages hp q hq x hm).mono hc ht' hx (hk.1 pages hp q hq x hm)⟩
  case switchEntry | switchHdr | switchDown | switchEnd =>
    exact (hs trivial).shown_mono hc ht' hx h
  case readNode =>
    obtain ⟨⟨σ, hσ⟩, b, t, a, π, hp, ha, hb⟩ := hk
    have hta : c.target = a := by simp [target, hp]
    have hty : c.p.type = t := by rw [hp]; rfl
    rw [hty, hta] at h ⊢
    exact ⟨h.1.mono hσ.entry hc ht' hx, h.2.mono hc ht' hx ha hb.slot⟩
  case readRest =>
    obtain ⟨⟨σ, hσ⟩, -, b, a, π, hp, ha, hb⟩ := hk
    have hta : c.target = a := by simp [target, hp]
    have hty : c.p.type = c.page.hdr.type := by rw [hp]; rfl
    rw [hty, hta] at h ⊢
    exact ⟨h.1.mono hσ.entry hc ht' hx, h.2.mono hc ht' hx ha hb.slot⟩
  case nodeRead =>
    obtain ⟨⟨σ, hσ⟩, b, a, π, hp, ha, hb⟩ := hk
    have hta : c.target = a := by simp [target, hp]
    have hty : c.p.type = c.page.hdr.type := by rw [hp]; rfl
    rw [hty, hta] at h ⊢
    exact ⟨h.1.mono hσ.entry hc ht' hx, h.2.mono hc ht' hx ha hb.slot⟩
  case scan =>
    obtain ⟨a, π, hi⟩ := hk
    obtain ⟨b, hp⟩ := hi.entry
    have hty : c.p.type = c.page.hdr.type := by rw [hp]; rfl
    rw [hty, hi.target] at h ⊢
    exact ⟨h.1.mono hi.entryOk hc ht' hx, h.2.mono hc ht' hx hi.layout fun i h _ => hi.slots i h⟩
  case next =>
    obtain ⟨σ, hσ⟩ := hk
    exact h.mono hσ.entry hc ht' hx
  case reread =>
    obtain ⟨-, σ, hσ⟩ := hk
    exact h.mono hσ.entry hc ht' hx
  case readLeaf | gotLeaf =>
    obtain ⟨⟨σ, hσ⟩, -⟩ := hk
    exact h.mono hσ.entry hc ht' hx
  case combineUpdate | acquireLock | combineWrite | writeBack =>
    obtain ⟨-, b, l, hp, hl, -⟩ := hk
    rw [hp] at h ⊢
    exact h.mono (.leaf (σ := []) hl List.nil_prefix) hc ht' hx
  case leafPrepare | leafWrite | leafCas =>
    obtain ⟨σ, he⟩ := hk.entryOk
    exact h.mono he hc ht' hx
  case splitPrepare =>
    obtain ⟨σ, hσ⟩ := hk
    exact h.mono hσ.located.entry hc ht' hx
  case splitWrite | splitCas =>
    obtain ⟨-, σ, hσ⟩ := hk
    exact h.mono hσ.located.entry hc ht' hx
  case emptyScan =>
    obtain ⟨a, π, hi, -⟩ := hk
    exact h.mono hi.entryOk hc ht' hx

end Client
end mono

theorem PageOpen.word (ht : TreeInv L m) {a : Addr} {t : NodeType} {todo : List NodeWord} {pg : Page}
    {j : ℕ} {w : NodeWord} (hw : todo[j]? = some w) (h : PageOpen L m a t todo pg) :
    PageOpen L m a t (todo.eraseIdx j) ((m.node a).copy w pg) := by
  intro π ha i hi hk
  have hnow : Open L m (π.length + 1) ((m.node a).slots i) := by
    by_cases hn : m.load (.slot a i) = .null
    · exact (show (m.node a).slots i = .null from hn) ▸ .null _
    · have ho := Open.of_load ht (.slot ha hn)
      rw [List.length_append, List.length_singleton] at ho
      exact ho
  obtain hk | rfl := Client.not_mem_eraseIdx hw hk
  · cases w with
    | slot x =>
      by_cases hx : i = x
      · subst hx; simpa [Page.copy] using hnow
      · simpa [Page.copy, hx] using h π ha i hi hk
    | _ => exact h π ha i hi hk
  · simpa [Page.copy] using hnow

theorem PageOpen.logOpen {a : Addr} {k : Key n} {pg : Page} {b : UInt8} {t : NodeType}
    (h : PageOpen L m a pg.hdr.type [] pg) (ho : Open L m 0 (.node b t a))
    (hh : pg.hdr.type.code ≤ (m.node a).hdr.type.code) {x : List UInt8 × CacheEntry}
    (hx : x ∈ Client.addToCache k pg a) (hlog : LogOk L m x) : LogOpen L m x := by
  unfold Client.addToCache at hx
  split at hx
  · cases hx
  · obtain rfl := List.mem_singleton.mp hx
    refine ⟨ho.alike rfl, fun i e he => ?_⟩
    obtain ⟨hlt, hget⟩ := List.getElem?_eq_some_iff.mp he
    simp only [CacheEntry.ofPage, List.length_map, List.length_range] at hlt
    simp only [CacheEntry.ofPage, List.getElem_map, List.getElem_range] at hget
    rw [← hget]
    exact ⟨hlt.trans_le (NodeType.num_mono hh), h _ hlog.layout i hlt (by simp)⟩

namespace Client

theorem next_shows (h : Open L m 0 c.p) : c.next.Shows L m := by
  unfold next
  split
  · split
    · trivial
    · split
      · rename_i hs
        exact fun hi => by simp [hs] at hi
      · exact h
  · exact h
  · rename_i b t a hp
    refine ⟨h, fun π _ i hi hk => ?_⟩
    exact absurd (by simpa [nodeWords, slotWords, hp] using hi) hk

theorem leafRead_shows {a : Addr} (h : Open L m 0 c.p) : (c.leafRead crc a).Shows L m := by
  unfold leafRead
  split
  · exact h
  · split <;> exact h

theorem inSight_of_leaf {b : UInt8} {l : Addr} (h : Open L m 0 c.p) (hp : c.p = .leaf b l)
    (hl : L l = some .leaf) (hb : LeafBuf m l [] c.leaf) (hk : c.leaf.key = c.key) :
    InSight L m c.key := by
  have hs := h.shown (a := l) (by rw [hp]; rfl) (.leaf hl)
  rwa [← hb.key (by simp), hk] at hs

theorem gotLeaf_shows (h : Open L m 0 c.p)
    (hk : (∃ σ, Located L m c σ) ∧ ∃ b l, c.p = .leaf b l ∧ LeafBuf m l [] c.leaf) :
    c.gotLeaf.Shows L m := by
  obtain ⟨⟨σ, hσ⟩, b, l, hp, hb⟩ := hk
  unfold gotLeaf
  split
  · rename_i hs
    split <;> exact fun hi => by simp [hs] at hi
  · split
    · rename_i hkey
      split
      · exact fun _ => inSight_of_leaf h hp (hσ.leaf hp).1 hb hkey
      · exact h
    · split
      · trivial
      · split
        · trivial
        · exact h

theorem typeRead_shows (h : Open L m 0 c.p ∧ PageOpen L m c.target c.p.type [] c.page)
    {b : UInt8} {t : NodeType} {a : Addr} (hp : c.p = .node b t a) : c.typeRead.Shows L m := by
  obtain ⟨ho, hpg⟩ := h
  have hta : target { c with p := c.p.withType c.page.hdr.type } = c.target := by
    simp [target, hp]
  have hty : (c.p.withType c.page.hdr.type).type = c.page.hdr.type := by rw [hp]; rfl
  have ho' : Open L m 0 (c.p.withType c.page.hdr.type) :=
    ho.alike (Entry.Alike.withType _ _).addr_eq
  unfold typeRead
  split
  · refine ⟨ho', fun π ha i hi hk => ?_⟩
    have hlo : i < c.p.type.num := by
      by_contra hge
      refine hk (List.mem_map.mpr ⟨i - c.p.type.num, List.mem_range.mpr ?_, ?_⟩)
      · simp only [hty] at hi; omega
      · congr 1; omega
    exact hpg π (hta ▸ ha) i hlo (by simp)
  · rename_i hlt
    refine ⟨ho', fun π ha i hi hk => ?_⟩
    have := NodeType.num_mono (not_lt.mp hlt)
    simp only [hty] at hi
    exact hpg π (hta ▸ ha) i (by omega) (by simp)

theorem checkHeader_shows (h : Open L m 0 c.p ∧ PageOpen L m c.target c.p.type [] c.page) :
    c.checkHeader.Shows L m := by
  unfold checkHeader
  dsimp only
  split
  · trivial
  · exact h
  · split
    · rename_i hs
      exact fun hi => by simp [hs] at hi
    · split
      · trivial
      · exact h.1

theorem nodeRead_shows (ht : TreeInv L m)
    (hk : (∃ σ, Located L m c σ) ∧ ∃ b a π, c.p = .node b c.page.hdr.type a ∧
      L a = some (.node π) ∧ PageBuf L m π a [] c.page.hdr.type.num c.page)
    (hr : PageHeld L m c.target c.p.type [] c.page)
    (h : Open L m 0 c.p ∧ PageOpen L m c.target c.p.type [] c.page) :
    (c.nodeRead m c.target).client.Shows L m ∧
      ∀ q ∈ (c.nodeRead m c.target).added, LogOpen L m q := by
  obtain ⟨-, hlog⟩ := nodeRead_knows ht hk
  obtain ⟨-, b, a, π, hp, -⟩ := hk
  have hty : c.p.type = c.page.hdr.type := by rw [hp]; rfl
  have hta : c.target = a := by simp [target, hp]
  unfold nodeRead at hlog ⊢
  dsimp only at hlog ⊢
  split
  · exact ⟨h.1, by simp⟩
  · rename_i hv
    refine ⟨checkHeader_shows h, fun q hq => ?_⟩
    rw [if_neg hv] at hlog
    have hq' := hlog q hq
    split at hq
    · exact (hty ▸ h.2).logOpen (b := b) (t := c.page.hdr.type) (hta ▸ hp ▸ h.1) (hr.hdr (by simp))
        hq hq'
    · cases hq

theorem descend_shows (ht : TreeInv L m) {a : Addr} {π : List UInt8} {i : ℕ} {e : Entry}
    (hn : InNode L m c a π) (he : e ≠ .null) (hs : SlotSeen L m π a i e)
    (hi : i < (m.node a).hdr.type.num) (h : Open L m 0 c.p) (ho : Open L m (π.length + 1) e) :
    (c.descend (.slot a i) e).Shows L m := by
  obtain ⟨b, hp⟩ := hn.entry
  obtain ⟨h1, h2, h3⟩ := hs he
  rw [hp] at h
  exact h.below ht hn.layout h1 hi (h2 ▸ h3) ho

theorem scan_shows (ht : TreeInv L m) {a : Addr} {π : List UInt8} (hn : InNode L m c a π)
    (hr : PageHeld L m c.target c.p.type [] c.page)
    (h : Open L m 0 c.p ∧ PageOpen L m c.target c.p.type [] c.page) :
    (c.scan c.target).Shows L m := by
  unfold scan
  split
  · trivial
  · split
    · rename_i i hi
      have hm := List.find?_some hi
      have hlt := List.mem_range.mp (List.mem_of_find?_eq_some hi)
      simp only [Bool.and_eq_true, Bool.not_eq_true', Entry.isNull, beq_eq_false_iff_ne] at hm
      have hcode := NodeType.num_mono (hr.hdr (by simp))
      rw [hn.type_num] at hlt
      rw [hn.target] at hcode ⊢
      refine descend_shows ht hn hm.1 (hn.slots i hlt) (hlt.trans_le hcode) h.1 ?_
      exact h.2 π (hn.target ▸ hn.layout) i (hn.type_num ▸ hlt) (by simp)
    · cases hs : c.isSearch with
      | true => exact fun hi => by cases hi
      | false => exact h.1

theorem emptyScan_shows (h : Open L m 0 c.p) {i : ℕ} : (c.emptyScan i).Shows L m := by
  unfold emptyScan
  split
  · exact h
  · split
    · trivial
    · exact h

theorem leafPrepare_shows {site : Site} {v : Option Value} (h : Open L m 0 c.p) :
    (c.leafPrepare site v).Shows L m := by
  unfold leafPrepare
  dsimp only
  split
  · trivial
  · exact h
  · exact h

end Client
end SmartTree
