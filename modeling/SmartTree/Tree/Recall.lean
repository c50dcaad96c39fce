import SmartTree.Tree.Growth

/-! What a client remembers of the slots it has read. Whatever an entry referred to when it
was read is found from its slot ever after, so `cas_node_type` can look for its node from a
slot that has been replaced. -/
namespace SmartTree
variable {n : ℕ}

def Finds (L : Layout) (m : Mem n) (ptr : Ptr) (a : Addr) : Prop :=
  ∃ σ e, SlotPath L m ptr σ ∧ m.Below (m.load ptr) e ∧ e.addr? = some a

def Held (L : Layout) (m : Mem n) (ptr : Ptr) (e : Entry) : Prop :=
  ∀ a, e.addr? = some a → Finds L m ptr a

def Declared (L : Layout) (m : Mem n) (a : Addr) (t : NodeType) : Prop :=
  ∃ ptr σ b u, SlotPath L m ptr σ ∧ m.load ptr = .node b u a ∧ t.code ≤ u.code

def LogHeld (L : Layout) (m : Mem n) (q : List UInt8 × CacheEntry) : Prop :=
  ∀ i e, q.2.records[i]? = some e → Held L m (.slot q.2.addr i) e

namespace Switch

structure Follows (L : Layout) (m : Mem n) (w : Switch) : Prop where
  node : ∃ π, L w.node = some (.node π)
  ptr : Finds L m w.ptr w.node
  entry : w.entryDone = true → Declared L m w.node w.next
  hdr : w.hdrDone = true → w.next.code ≤ (m.node w.node).hdr.type.code
  lt : w.hdrDone = false → w.hdr.type.code < w.next.code

/-- The expected entry refers to the node, with a smaller type as long as there is one. -/
structure AtNode (w : Switch) : Prop where
  addr : w.p.addr? = some w.node
  lt : w.entryDone = false → w.p.type.code < w.next.code

/-- An entry read from `ptr` from which the node is found. -/
structure Sought (L : Layout) (m : Mem n) (w : Switch) (e : Entry) : Prop where
  ok : EntryOk L m [] e
  node : ∃ e', m.Below e e' ∧ e'.addr? = some w.node
  seen : ∃ σ e', SlotPath L m w.ptr σ ∧ m.Below (m.load w.ptr) e' ∧ e.Grown e'

def Buffered (m : Mem n) (w : Switch) : Prop :=
  w.hdrDone = false → w.hdrBuf.type.code ≤ (m.node w.node).hdr.type.code

end Switch

structure PageHeld (L : Layout) (m : Mem n) (a : Addr) (t : NodeType) (todo : List NodeWord)
    (pg : Page) : Prop where
  node : L a ≠ none
  hdr : .hdr ∉ todo → pg.hdr.type.code ≤ (m.node a).hdr.type.code
  slot : ∀ i < t.num, .slot i ∉ todo → Held L m (.slot a i) (pg.slots i)

def HdrHeld (L : Layout) (m : Mem n) (e : Entry) (h : Header) : Prop :=
  ∀ a, e.addr? = some a → L a ≠ none ∧ h.type.code ≤ (m.node a).hdr.type.code

def Site.Behind (t : NodeType) : Site → Prop
  | .behind i => t.num ≤ i
  | _ => True

namespace Client

def PagesHeld (L : Layout) (m : Mem n) (c : Client n) (sp : Split) (nodes : List Addr) : Prop :=
  ∀ pages, c.pages sp nodes = some pages → ∀ q ∈ pages, ∀ i, Held L m (.slot q.1 i) (q.2.slots i)

def Recalls (L : Layout) (m : Mem n) (c : Client n) : Prop :=
  match c.pc with
  | .idle | .readRoot | .noTree | .fault | .finish _ | .splitHdr _ => True
  | .readNode todo | .readRest todo =>
    Held L m c.pPtr c.p ∧ PageHeld L m c.target c.p.type todo c.page
  | .nodeRead | .scan => Held L m c.pPtr c.p ∧ PageHeld L m c.target c.p.type [] c.page
  | .emptyScan _ => Held L m c.pPtr c.p ∧ HdrHeld L m c.p c.page.hdr
  | .leafPrepare site | .leafWrite site | .leafCas site =>
    (Held L m c.pPtr c.p ∧ HdrHeld L m c.p c.page.hdr) ∧ site.Behind c.p.type
  | .splitRev sp nodes => c.PagesHeld L m sp nodes
  | .switchEntry w => w.Follows L m ∧ w.AtNode
  | .switchHdr w => w.Follows L m ∧ (w.entryDone = true → w.AtNode) ∧
      (w.entryDone = false → w.Sought L m w.entryBuf)
  | .switchDown w => w.Follows L m ∧ w.Buffered m ∧ w.Sought L m w.p
  | .switchEnd w => w.Follows L m ∧ w.Buffered m ∧ w.AtNode
  | _ => Held L m c.pPtr c.p

end Client

variable {L L' : Layout} {m m' : Mem n} {c c' : Client n} {ptr : Ptr} {σ : List UInt8} {e : Entry}

theorem Held.of_load (hs : SlotPath L m ptr σ) (hl : m.load ptr = e) : Held L m ptr e :=
  fun _ ha => ⟨σ, e, hs, hl ▸ .here, ha⟩

theorem Held.withType (h : Held L m ptr e) (t : NodeType) : Held L m ptr (e.withType t) :=
  fun a ha => h a (by rwa [(Entry.Alike.withType e t).addr_eq] at ha)

theorem Held.of_slot {a : Addr} {π : List UInt8} {i : ℕ} (ha : L a = some (.node π)) :
    Held L m (.slot a i) (m.load (.slot a i)) := by
  intro x hx
  have he : m.load (.slot a i) ≠ .null := by rintro he; simp [he] at hx
  exact Held.of_load (.slot ha he) rfl x hx

theorem Extends.ne_none (hx : Extends L m L' m') {a : Addr} (ha : L a ≠ none) : L' a ≠ none := by
  obtain ⟨o, ho⟩ := Option.ne_none_iff_exists'.mp ha
  rw [hx.layout _ _ ho]
  simp

section mono
variable (hx : Extends L m L' m') (hg : Grows L m m') (ht : TreeInv L m)
  (ht' : TreeInv L' m')
include hx hg ht

theorem Finds.mono {a : Addr} (h : Finds L m ptr a) : Finds L' m' ptr a := by
  obtain ⟨σ, e, hs, hb, ha⟩ := h
  obtain ⟨e', hb', hge⟩ := hg.below_slot ht hs hb (by rintro rfl; cases ha)
  exact ⟨σ, e', hs.mono hx, hb', hge.addr_eq.trans ha⟩

theorem Held.mono (h : Held L m ptr e) : Held L' m' ptr e :=
  fun a ha => (h a ha).mono hx hg ht

theorem LogHeld.mono {q : List UInt8 × CacheEntry} (h : LogHeld L m q) : LogHeld L' m' q :=
  fun i e he => (h i e he).mono hx hg ht

omit ht in
include ht' in
theorem Declared.mono {a : Addr} {t : NodeType} (h : Declared L m a t) : Declared L' m' a t := by
  obtain ⟨ptr, σ, b, u, hs, hl, hc⟩ := h
  obtain ⟨e, hb, hge⟩ := hg.slot ptr σ hs (by simp [hl])
  obtain ⟨p, τ, hp, hle⟩ := ht'.slot_of_below (hs.mono hx) hb
  rw [hl] at hge
  cases hge with | node hc' => exact ⟨p, τ, _, _, hp, hle, hc.trans hc'⟩

namespace Switch
variable {w : Switch}

include ht' in
theorem Follows.mono (h : w.Follows L m) : w.Follows L' m' where
  node := h.node.imp fun _ ha => hx.layout _ _ ha
  ptr := h.ptr.mono hx hg ht
  entry hd := (h.entry hd).mono hx hg ht'
  hdr hd := by
    obtain ⟨π, ha⟩ := h.node
    exact (h.hdr hd).trans (hg.hdr _ (by simp [ha]))
  lt := h.lt

theorem Sought.mono (h : w.Sought L m e) : w.Sought L' m' e where
  ok := h.ok.mono hx
  node := by
    obtain ⟨e', hb, ha⟩ := h.node
    obtain ⟨e₁, hb₁, hg₁⟩ := hg.below ht h.ok hb
    exact ⟨e₁, hb₁, hg₁.addr_eq.trans ha⟩
  seen := by
    obtain ⟨e', hb, ha⟩ := h.node
    obtain ⟨σ, e₁, hs, hb₁, hg₁⟩ := h.seen
    have hne : e₁ ≠ .null := by
      rintro rfl
      cases hg₁
      cases hb
      cases ha
    obtain ⟨e₂, hb₂, hg₂⟩ := hg.below_slot ht hs hb₁ hne
    exact ⟨σ, e₂, hs.mono hx, hb₂, hg₁.trans hg₂⟩

omit hx ht in
theorem Buffered.mono (h : w.Buffered m) {π : List UInt8} (ha : L w.node = some (.node π)) :
    w.Buffered m' :=
  fun hd => (h hd).trans (hg.hdr _ (by simp [ha]))

end Switch

theorem PageHeld.mono {a : Addr} {t : NodeType} {todo : List NodeWord} {pg : Page}
    (h : PageHeld L m a t todo pg) : PageHeld L' m' a t todo pg where
  node := hx.ne_none h.node
  hdr hk := (h.hdr hk).trans (hg.hdr _ h.node)
  slot i hi hk := (h.slot i hi hk).mono hx hg ht

omit ht in
theorem HdrHeld.mono {hd : Header} (h : HdrHeld L m e hd) : HdrHeld L' m' e hd :=
  fun a ha => ⟨hx.ne_none (h a ha).1, (h a ha).2.trans (hg.hdr _ (h a ha).1)⟩

namespace Client

include ht' in
theorem Recalls.mono (h : c.Recalls L m) : c.Recalls L' m' := by
  unfold Recalls at h ⊢
  cases hpc : c.pc <;> simp only [hpc] at h ⊢
  case readNode | readRest | nodeRead | scan =>
    exact ⟨h.1.mono hx hg ht, h.2.mono hx hg ht⟩
  case emptyScan => exact ⟨h.1.mono hx hg ht, h.2.mono hx hg⟩
  case leafPrepare | leafWrite | leafCas =>
    exact ⟨⟨h.1.1.mono hx hg ht, h.1.2.mono hx hg⟩, h.2⟩
  case splitRev => exact fun pages hp q hq i => (h pages hp q hq i).mono hx hg ht
  case switchEntry => exact ⟨h.1.mono hx hg ht ht', h.2⟩
  case switchHdr =>
    exact ⟨h.1.mono hx hg ht ht', h.2.1, fun hd => (h.2.2 hd).mono hx hg ht⟩
  case switchDown =>
    obtain ⟨π, ha⟩ := h.1.node
    exact ⟨h.1.mono hx hg ht ht', h.2.1.mono hg ha, h.2.2.mono hx hg ht⟩
  case switchEnd =>
    obtain ⟨π, ha⟩ := h.1.node
    exact ⟨h.1.mono hx hg ht ht', h.2.1.mono hg ha, h.2.2⟩
  all_goals exact h.mono hx hg ht

end Client
end mono
end SmartTree
