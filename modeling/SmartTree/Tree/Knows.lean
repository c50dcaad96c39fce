import SmartTree.Tree.Publish

/-! What a client knows at each program point. All of it is learnt from words that may
be stale by the time they are used, and all of it stays true while others run. -/
namespace SmartTree
variable {n : ℕ}

def SlotSeen (L : Layout) (m : Mem n) (π : List UInt8) (a : Addr) (i : ℕ) (e : Entry) : Prop :=
  e ≠ .null → m.load (.slot a i) ≠ .null ∧ (m.load (.slot a i)).partialKey = e.partialKey ∧
    EntryOk L m (π ++ [e.partialKey]) e

/-- The slots before `j` are taken by other bytes. -/
def Tried (m : Mem n) (a : Addr) (b : UInt8) (j : ℕ) : Prop :=
  ∀ i < j, m.load (.slot a i) ≠ .null ∧ (m.load (.slot a i)).partialKey ≠ b

structure LeafBuf (m : Mem n) (l : Addr) (todo : List LeafWord) (buf : Leaf n) : Prop where
  key : .key ∉ todo → buf.key = (m.leaf l).key
  valid : .valid ∉ todo → buf.valid = true

/-- The words of a page buffer that have been read, up to slot `hi`. -/
structure PageBuf (L : Layout) (m : Mem n) (π : List UInt8) (a : Addr) (todo : List NodeWord)
    (hi : ℕ) (pg : Page) : Prop where
  hdr : .hdr ∉ todo → HdrPath π pg.hdr ∧ pg.hdr.type ≠ .deleted
  slot : ∀ i < hi, .slot i ∉ todo → SlotSeen L m π a i (pg.slots i)

structure LogOk (L : Layout) (m : Mem n) (q : List UInt8 × CacheEntry) : Prop where
  layout : L q.2.addr = some (.node q.1)
  depth : q.2.depth = q.1.length + 1
  slot : ∀ i e, q.2.records[i]? = some e → SlotSeen L m q.1 q.2.addr i e

namespace Client

/-- The client stands at a published slot on the path of its key and holds an entry that is,
or was, in it. -/
structure Located (L : Layout) (m : Mem n) (c : Client n) (σ : List UInt8) : Prop where
  slot : SlotPath L m c.pPtr σ
  depth : c.depth = σ.length + 1
  key : σ <+: c.key.bytes
  entry : EntryOk L m σ c.p
  null : c.p = .null → c.pPtr = .root ∧ c.fromCache = false
  filled : c.p ≠ .null → m.load c.pPtr ≠ .null

structure InNode (L : Layout) (m : Mem n) (c : Client n) (a : Addr) (π : List UInt8) : Prop where
  entry : ∃ b, c.p = .node b c.page.hdr.type a
  layout : L a = some (.node π)
  key : π <+: c.key.bytes
  depth : c.depth = π.length + 1
  type : c.page.hdr.type ≠ .deleted
  slots : ∀ i < c.page.hdr.type.num, SlotSeen L m π a i (c.page.slots i)
  slot : ∃ σ, SlotPath L m c.pPtr σ

def NoMatch (c : Client n) (b : UInt8) : Prop :=
  ∀ i < c.page.hdr.type.num, c.page.slots i ≠ .null → (c.page.slots i).partialKey ≠ b

inductive SiteOk (L : Layout) (m : Mem n) (c : Client n) : Site → Prop
  | null {σ} (h : Located L m c σ) (hp : c.p = .null) : SiteOk L m c .null
  | empty {a π i} (h : InNode L m c a π) (hm : c.NoMatch (c.key.byte c.depth))
      (ht : Tried m a (c.key.byte c.depth) i) (hi : i < c.page.hdr.type.num) :
    SiteOk L m c (.empty i)
  | behind {a π i} (h : InNode L m c a π) (ht : Tried m a (c.key.byte c.depth) i) (h0 : 0 < i)
      (hi : i < 256) : SiteOk L m c (.behind i)

/-- The header a header split starts from, and that the node will not hang above its new one. -/
structure HdrSplit (L : Layout) (c : Client n) (i : ℕ) (a : Addr) (π : List UInt8) : Prop where
  entry : ∃ b t, c.p = .node b t a
  layout : L a = some (.node π)
  hdr : HdrPath π c.page.hdr
  lt : i < c.page.hdr.partials.length

structure SplitOk (L : Layout) (m : Mem n) (c : Client n) (sp : Split) (σ : List UInt8) : Prop where
  located : Located L m c σ
  full : c.p ≠ .null
  fits : σ.length + 1 + sp.partialLen ≤ n
  old : EntryOk L m (c.key.bytes.take (σ.length + sp.partialLen) ++ [sp.diff]) c.p
  differs : sp.diff ≠ c.key.byte (σ.length + 1 + sp.partialLen)
  hdr : ∀ i, sp.hdrIdx = some i → ∃ a π, HdrSplit L c i a π ∧
    c.page.hdr.depth + i = σ.length + 1 + sp.partialLen

structure SwitchOk (L : Layout) (m : Mem n) (w : Switch) : Prop where
  node : ∃ π, L w.node = some (.node π)
  next : w.next ≠ .deleted
  slot : ∃ σ, SlotPath L m w.ptr σ
  entry : EntryOk L m [] w.p
  buf : EntryOk L m [] w.entryBuf

def Written (m : Mem n) (c : Client n) (sp : Split) (nodes : List Addr) : Prop :=
  ∃ pages, c.pages sp nodes = some pages ∧
    ∀ q ∈ pages, (m.node q.1).hdr = q.2.hdr ∧ (m.node q.1).slots = q.2.slots

def Cacheable (L : Layout) (m : Mem n) (c : Client n) (sp : Split) (nodes : List Addr) : Prop :=
  ∀ pages, c.pages sp nodes = some pages → ∀ q ∈ pages, ∀ x ∈ addToCache c.key q.2 q.1, LogOk L m x

structure NodesFor (c : Client n) (sp : Split) (nodes : List Addr) : Prop where
  length : nodes.length = sp.partialLen / (hPartialLenMax + 1) + 1
  leaf : ∃ l, c.leafAddr = some l

def HdrDue (L : Layout) (m : Mem n) (c : Client n) (i : ℕ) : Prop :=
  ∃ a π, HdrSplit L c i a π ∧ Attached L m a (c.page.hdr.depth + i + 1)

def Knows (L : Layout) (m : Mem n) (c : Client n) : Prop :=
  match c.pc with
  | .idle | .finish _ | .noTree => True
  | .fault => False
  | .readRoot => c.fromCache = false
  | .next => ∃ σ, Located L m c σ
  | .reread => c.p ≠ .null ∧ ∃ σ, Located L m c σ
  | .readLeaf todo => (∃ σ, Located L m c σ) ∧ ∃ b l, c.p = .leaf b l ∧ LeafBuf m l todo c.leaf
  | .gotLeaf => (∃ σ, Located L m c σ) ∧ ∃ b l, c.p = .leaf b l ∧ LeafBuf m l [] c.leaf
  | .combineUpdate | .acquireLock | .combineWrite | .writeBack _ =>
    c.leaf.key = c.key ∧ ∃ b l, c.p = .leaf b l ∧ L l = some .leaf ∧ LeafBuf m l [] c.leaf
  | .leafPrepare site | .leafWrite site | .leafCas site => SiteOk L m c site
  | .splitPrepare sp => ∃ σ, SplitOk L m c sp σ
  | .splitWrite sp nodes _ => c.NodesFor sp nodes ∧ ∃ σ, SplitOk L m c sp σ
  | .splitCas sp nodes => (c.NodesFor sp nodes ∧ Written m c sp nodes) ∧ ∃ σ, SplitOk L m c sp σ
  | .splitRev sp nodes => Cacheable L m c sp nodes ∧ ∀ i, sp.hdrIdx = some i → HdrDue L m c i
  | .splitHdr i => HdrDue L m c i
  | .readNode todo => (∃ σ, Located L m c σ) ∧ ∃ b t a π, c.p = .node b t a ∧
      L a = some (.node π) ∧ PageBuf L m π a todo t.num c.page
  | .readRest todo => (∃ σ, Located L m c σ) ∧ .hdr ∉ todo ∧ ∃ b a π,
      c.p = .node b c.page.hdr.type a ∧ L a = some (.node π) ∧
        PageBuf L m π a todo c.page.hdr.type.num c.page
  | .nodeRead => (∃ σ, Located L m c σ) ∧ ∃ b a π, c.p = .node b c.page.hdr.type a ∧
      L a = some (.node π) ∧ PageBuf L m π a [] c.page.hdr.type.num c.page
  | .scan => ∃ a π, InNode L m c a π
  | .emptyScan i => ∃ a π, InNode L m c a π ∧ c.NoMatch (c.key.byte c.depth) ∧
      Tried m a (c.key.byte c.depth) i
  | .switchEntry w | .switchHdr w | .switchDown w | .switchEnd w => SwitchOk L m w

def leafOwned (c : Client n) : Option Addr :=
  match c.pc with
  | .idle | .finish _ | .noTree | .fault | .splitRev _ _ | .splitHdr _ | .switchEntry _
  | .switchHdr _ | .switchDown _ | .switchEnd _ => none
  | _ => c.leafAddr

def nodesOwned (c : Client n) : List Addr :=
  match c.pc with
  | .splitWrite _ nodes _ | .splitCas _ nodes => nodes
  | _ => []

def owned (c : Client n) : List Addr := c.leafOwned.toList ++ c.nodesOwned

/-- The client's own leaf has been written, unless the batch of a split will do so. -/
def LeafKept (m : Mem n) (c : Client n) : Prop :=
  match c.pc with
  | .splitWrite _ _ true => True
  | _ => ∀ l, c.leafOwned = some l → (m.leaf l).key = c.key ∧ (m.leaf l).valid = true

end Client

def OpOk (L : Layout) (m : Mem n) : RemoteOp → Prop
  | .casHeader a _ new => ∃ π, L a = some (.node π) ∧ HdrPath π new ∧ Attached L m a new.depth
  | _ => True

structure Local (L : Layout) (m : Mem n) (c : Client n) : Prop where
  knows : c.Knows L m
  kept : c.LeafKept m
  ops : ∀ op ∈ c.pending, OpOk L m op
  fresh : ∀ a ∈ c.owned, L a = none ∧ m.live a = true
  nodup : c.owned.Nodup

structure SameAt (m m' : Mem n) (a : Addr) : Prop where
  hdr : (m'.node a).hdr = (m.node a).hdr
  slots : (m'.node a).slots = (m.node a).slots
  key : (m'.leaf a).key = (m.leaf a).key
  valid : (m'.leaf a).valid = (m.leaf a).valid
  live : m'.live a = m.live a

theorem SameAt.refl (m : Mem n) (a : Addr) : SameAt m m a := ⟨rfl, rfl, rfl, rfl, rfl⟩

section mono
variable {L L' : Layout} {m m' : Mem n} {c : Client n} (hx : Extends L m L' m')
include hx

theorem SlotSeen.mono {π : List UInt8} {a : Addr} {i : ℕ} {e : Entry}
    (h : SlotSeen L m π a i e) (ha : L a = some (.node π)) : SlotSeen L' m' π a i e := by
  intro he
  obtain ⟨h1, h2, h3⟩ := h he
  obtain ⟨h1', h2'⟩ := hx.slot a π i ha h1
  exact ⟨h1', h2'.trans h2, h3.mono hx⟩

theorem Tried.mono {π : List UInt8} {a : Addr} {b : UInt8} {j : ℕ} (h : Tried m a b j)
    (ha : L a = some (.node π)) : Tried m' a b j := by
  intro i hi
  obtain ⟨h1, h2⟩ := h i hi
  obtain ⟨h1', h2'⟩ := hx.slot a π i ha h1
  exact ⟨h1', by rwa [h2']⟩

theorem LeafBuf.mono {l : Addr} {todo : List LeafWord} {buf : Leaf n}
    (h : LeafBuf m l todo buf) (hl : L l = some .leaf) : LeafBuf m' l todo buf :=
  ⟨fun hk => (h.key hk).trans (hx.key l hl).symm, h.valid⟩

theorem PageBuf.mono {π : List UInt8} {a : Addr} {todo : List NodeWord} {hi : ℕ} {pg : Page}
    (h : PageBuf L m π a todo hi pg) (ha : L a = some (.node π)) :
    PageBuf L' m' π a todo hi pg :=
  ⟨h.hdr, fun i hlt ht => (h.slot i hlt ht).mono hx ha⟩

theorem LogOk.mono {q : List UInt8 × CacheEntry} (h : LogOk L m q) : LogOk L' m' q :=
  ⟨hx.layout _ _ h.layout, h.depth, fun i e he => (h.slot i e he).mono hx h.layout⟩

theorem OpOk.mono {op : RemoteOp} (h : OpOk L m op) : OpOk L' m' op := by
  cases op with
  | casHeader a e new =>
    obtain ⟨π, ha, hp, hd⟩ := h
    exact ⟨π, hx.layout _ _ ha, hp, hx.attached a _ (by simp [ha]) hd⟩
  | _ => trivial

namespace Client

theorem Located.mono {σ : List UInt8} (h : Located L m c σ) : Located L' m' c σ :=
  ⟨h.slot.mono hx, h.depth, h.key, h.entry.mono hx, h.null,
    fun hp => h.slot.filled hx (h.filled hp)⟩

theorem InNode.mono {a : Addr} {π : List UInt8} (h : InNode L m c a π) : InNode L' m' c a π :=
  ⟨h.entry, hx.layout _ _ h.layout, h.key, h.depth, h.type,
    fun i hi => (h.slots i hi).mono hx h.layout, h.slot.imp fun _ hs => hs.mono hx⟩

theorem SiteOk.mono {site : Site} (h : SiteOk L m c site) : SiteOk L' m' c site := by
  cases h with
  | null h hp => exact .null (h.mono hx) hp
  | empty h hm ht hi => exact .empty (h.mono hx) hm (ht.mono hx h.layout) hi
  | behind h ht h0 hi => exact .behind (h.mono hx) (ht.mono hx h.layout) h0 hi

theorem HdrSplit.mono {i : ℕ} {a : Addr} {π : List UInt8} (h : HdrSplit L c i a π) :
    HdrSplit L' c i a π :=
  ⟨h.entry, hx.layout _ _ h.layout, h.hdr, h.lt⟩

theorem SplitOk.mono {sp : Split} {σ : List UInt8} (h : SplitOk L m c sp σ) :
    SplitOk L' m' c sp σ where
  located := h.located.mono hx
  full := h.full
  fits := h.fits
  old := h.old.mono hx
  differs := h.differs
  hdr i hi := by
    obtain ⟨a, π, hs, hd⟩ := h.hdr i hi
    exact ⟨a, π, hs.mono hx, hd⟩

theorem SwitchOk.mono {w : Switch} (h : SwitchOk L m w) : SwitchOk L' m' w :=
  ⟨h.node.imp fun _ ha => hx.layout _ _ ha, h.next, h.slot.imp fun _ hs => hs.mono hx,
    h.entry.mono hx, h.buf.mono hx⟩

theorem Cacheable.mono {sp : Split} {nodes : List Addr} (h : Cacheable L m c sp nodes) :
    Cacheable L' m' c sp nodes :=
  fun pages hp q hq x hm => (h pages hp q hq x hm).mono hx

theorem HdrDue.mono {i : ℕ} (h : HdrDue L m c i) : HdrDue L' m' c i := by
  obtain ⟨a, π, hs, hd⟩ := h
  exact ⟨a, π, hs.mono hx, hx.attached a _ (by simp [hs.layout]) hd⟩

omit hx in
theorem Located.leaf {σ : List UInt8} {b : UInt8} {l : Addr} (h : Located L m c σ)
    (hp : c.p = .leaf b l) : L l = some .leaf ∧ σ <+: (m.leaf l).key.bytes := by
  have he := h.entry
  rw [hp] at he
  cases he with
  | leaf hl hk => exact ⟨hl, hk⟩

/-- What a client knows survives the steps of others, which leave its own blocks alone. -/
theorem Knows.mono (h : c.Knows L m)
    (hw : ∀ sp nodes, c.pc = .splitCas sp nodes → Written m c sp nodes → Written m' c sp nodes) :
    c.Knows L' m' := by
  unfold Knows at h ⊢
  cases hpc : c.pc <;> simp only [hpc] at h ⊢
  case next => exact h.imp fun _ hs => hs.mono hx
  case readRoot => exact h
  case reread => exact ⟨h.1, h.2.imp fun _ hs => hs.mono hx⟩
  case readLeaf todo =>
    obtain ⟨⟨σ, hσ⟩, b, l, hp, hb⟩ := h
    exact ⟨⟨σ, hσ.mono hx⟩, b, l, hp, hb.mono hx (hσ.leaf hp).1⟩
  case gotLeaf =>
    obtain ⟨⟨σ, hσ⟩, b, l, hp, hb⟩ := h
    exact ⟨⟨σ, hσ.mono hx⟩, b, l, hp, hb.mono hx (hσ.leaf hp).1⟩
  case combineUpdate | acquireLock | combineWrite | writeBack =>
    obtain ⟨hk, b, l, hp, hl, hb⟩ := h
    exact ⟨hk, b, l, hp, hx.layout _ _ hl, hb.mono hx hl⟩
  case leafPrepare | leafWrite | leafCas => exact h.mono hx
  case splitPrepare => exact h.imp fun _ hs => hs.mono hx
  case splitWrite => exact ⟨h.1, h.2.imp fun _ hs => hs.mono hx⟩
  case splitCas sp nodes =>
    exact ⟨⟨h.1.1, hw sp nodes hpc h.1.2⟩, h.2.imp fun _ hs => hs.mono hx⟩
  case splitRev => exact ⟨h.1.mono hx, fun i hi => (h.2 i hi).mono hx⟩
  case splitHdr => exact h.mono hx
  case readNode =>
    obtain ⟨hloc, b, t, a, π, hp, ha, hb⟩ := h
    exact ⟨hloc.imp fun _ hs => hs.mono hx, b, t, a, π, hp, hx.layout _ _ ha, hb.mono hx ha⟩
  case readRest =>
    obtain ⟨hloc, ht, b, a, π, hp, ha, hb⟩ := h
    exact ⟨hloc.imp fun _ hs => hs.mono hx, ht, b, a, π, hp, hx.layout _ _ ha, hb.mono hx ha⟩
  case nodeRead =>
    obtain ⟨hloc, b, a, π, hp, ha, hb⟩ := h
    exact ⟨hloc.imp fun _ hs => hs.mono hx, b, a, π, hp, hx.layout _ _ ha, hb.mono hx ha⟩
  case scan =>
    obtain ⟨a, π, hn⟩ := h
    exact ⟨a, π, hn.mono hx⟩
  case emptyScan =>
    obtain ⟨a, π, hn, hm, ht⟩ := h
    exact ⟨a, π, hn.mono hx, hm, ht.mono hx hn.layout⟩
  case switchEntry | switchHdr | switchDown | switchEnd => exact h.mono hx

end Client
end mono

section frame
variable {L L' : Layout} {m m' : Mem n} {c : Client n}

theorem Client.LeafKept.mono (h : c.LeafKept m) (hf : ∀ a ∈ c.owned, SameAt m m' a) :
    c.LeafKept m' := by
  unfold LeafKept at h ⊢
  split
  · trivial
  · intro l hl
    have hs := hf l (by simp [owned, hl])
    rw [hs.key, hs.valid]
    split at h
    · rename_i hne _ _ _ hpc
      exact absurd hpc (hne _ _)
    · exact h l hl

theorem Client.Written.mono {sp : Split} {nodes : List Addr} (h : Written m c sp nodes)
    (hf : ∀ a ∈ nodes, SameAt m m' a)
    (hn : ∀ pages, c.pages sp nodes = some pages → pages.map Prod.fst = nodes) :
    Written m' c sp nodes := by
  obtain ⟨pages, hp, hw⟩ := h
  refine ⟨pages, hp, fun q hq => ?_⟩
  have hs := hf q.1 (hn pages hp ▸ List.mem_map_of_mem hq)
  rw [hs.hdr, hs.slots]
  exact hw q hq

theorem Client.SplitOk.pages {sp : Split} {σ : List UInt8} {nodes : List Addr}
    (h : SplitOk L m c sp σ) (hn : c.NodesFor sp nodes) :
    ∃ pages, c.pages sp nodes = some pages ∧ pages.map Prod.fst = nodes ∧
      Chain c.key sp.diff c.p (c.leafAddr.getD 0) (σ.length + 1) sp.partialLen pages := by
  unfold Client.pages
  rw [h.located.depth]
  exact splitPages_chain (by omega) h.fits hn.length

theorem Local.mono (h : Local L m c) (hx : Extends L m L' m')
    (hf : ∀ a ∈ c.owned, SameAt m m' a ∧ L' a = none) : Local L' m' c where
  knows := by
    refine h.knows.mono hx fun sp nodes hpc hw => ?_
    have hk := h.knows
    simp only [Client.Knows, hpc] at hk
    obtain ⟨⟨hn, -⟩, σ, hs⟩ := hk
    refine hw.mono (fun a ha => (hf a (by simp [Client.owned, Client.nodesOwned, hpc, ha])).1) ?_
    intro pages hp
    obtain ⟨pages', hp', hfst, -⟩ := hs.pages hn
    rwa [Option.some.inj (hp.symm.trans hp')]
  kept := h.kept.mono fun a ha => (hf a ha).1
  ops op hop := (h.ops op hop).mono hx
  fresh a ha := ⟨(hf a ha).2, (hf a ha).1.live.trans (h.fresh a ha).2⟩
  nodup := h.nodup

end frame

namespace Client
variable {L : Layout} {m : Mem n} {c c' : Client n}

theorem Located.congr {σ : List UInt8} (h : Located L m c σ) (hptr : c'.pPtr = c.pPtr)
    (hp : c'.p = c.p) (hd : c'.depth = c.depth) (hk : c'.key = c.key)
    (hf : c'.fromCache = c.fromCache) : Located L m c' σ := by
  obtain ⟨h1, h2, h3, h4, h5, h6⟩ := h
  exact ⟨hptr ▸ h1, hd ▸ h2, hk ▸ h3, hp ▸ h4, by rwa [hp, hptr, hf], by rwa [hp, hptr]⟩

theorem InNode.congr {a : Addr} {π : List UInt8} (h : InNode L m c a π) (hptr : c'.pPtr = c.pPtr)
    (hp : c'.p = c.p) (hd : c'.depth = c.depth) (hk : c'.key = c.key) (hpg : c'.page = c.page) :
    InNode L m c' a π := by
  obtain ⟨h1, h2, h3, h4, h5, h6, h7⟩ := h
  exact ⟨by rwa [hp, hpg], h2, hk ▸ h3, hd ▸ h4, hpg ▸ h5, by rwa [hpg], hptr ▸ h7⟩

structure Same (c c' : Client n) : Prop where
  pPtr : c'.pPtr = c.pPtr
  p : c'.p = c.p
  depth : c'.depth = c.depth
  key : c'.key = c.key
  fromCache : c'.fromCache = c.fromCache
  page : c'.page = c.page

theorem SiteOk.congr {site : Site} (h : SiteOk L m c site) (e : Same c c') :
    SiteOk L m c' site := by
  cases h with
  | null h hp => exact .null (h.congr e.pPtr e.p e.depth e.key e.fromCache) (e.p ▸ hp)
  | empty h hm ht hi =>
    refine .empty (h.congr e.pPtr e.p e.depth e.key e.page) ?_ ?_ (by rwa [e.page])
    · rw [e.key, e.depth]; unfold NoMatch; rwa [e.page]
    · rwa [e.key, e.depth]
  | behind h ht h0 hi =>
    exact .behind (h.congr e.pPtr e.p e.depth e.key e.page) (by rwa [e.key, e.depth]) h0 hi

theorem HdrSplit.congr {i : ℕ} {a : Addr} {π : List UInt8} (h : HdrSplit L c i a π)
    (e : Same c c') : HdrSplit L c' i a π := by
  obtain ⟨h1, h2, h3, h4⟩ := h
  exact ⟨by rwa [e.p], h2, e.page ▸ h3, e.page ▸ h4⟩

theorem SplitOk.congr {sp : Split} {σ : List UInt8} (h : SplitOk L m c sp σ) (e : Same c c') :
    SplitOk L m c' sp σ where
  located := h.located.congr e.pPtr e.p e.depth e.key e.fromCache
  full := e.p ▸ h.full
  fits := h.fits
  old := by rw [e.key, e.p]; exact h.old
  differs := e.key ▸ h.differs
  hdr i hi := by
    obtain ⟨a, π, hs, hd⟩ := h.hdr i hi
    exact ⟨a, π, hs.congr e, by rwa [e.page]⟩

theorem HdrDue.congr {i : ℕ} (h : HdrDue L m c i) (e : Same c c') : HdrDue L m c' i := by
  obtain ⟨a, π, hs, hd⟩ := h
  exact ⟨a, π, hs.congr e, e.page ▸ hd⟩

theorem Knows.pending (h : c.Knows L m) (ops : List RemoteOp) :
    Knows L m { c with pending := ops } := by
  unfold Knows at h ⊢
  cases hpc : c.pc <;> simp only [hpc] at h ⊢
  case next => exact h.imp fun _ hl => hl.congr rfl rfl rfl rfl rfl
  case reread => exact ⟨h.1, h.2.imp fun _ hl => hl.congr rfl rfl rfl rfl rfl⟩
  case readLeaf | gotLeaf | readNode | readRest | nodeRead =>
    exact ⟨h.1.imp fun _ hl => hl.congr rfl rfl rfl rfl rfl, h.2⟩
  case leafPrepare | leafWrite | leafCas => exact h.congr ⟨rfl, rfl, rfl, rfl, rfl, rfl⟩
  case splitPrepare => exact h.imp fun _ hs => hs.congr ⟨rfl, rfl, rfl, rfl, rfl, rfl⟩
  case splitWrite =>
    exact ⟨⟨h.1.length, h.1.leaf⟩, h.2.imp fun _ hs => hs.congr ⟨rfl, rfl, rfl, rfl, rfl, rfl⟩⟩
  case splitCas =>
    exact ⟨⟨⟨h.1.1.length, h.1.1.leaf⟩, h.1.2⟩,
      h.2.imp fun _ hs => hs.congr ⟨rfl, rfl, rfl, rfl, rfl, rfl⟩⟩
  case splitRev => exact ⟨h.1, fun i hi => (h.2 i hi).congr ⟨rfl, rfl, rfl, rfl, rfl, rfl⟩⟩
  case splitHdr => exact h.congr ⟨rfl, rfl, rfl, rfl, rfl, rfl⟩
  case scan =>
    obtain ⟨a, π, hn⟩ := h
    exact ⟨a, π, hn.congr rfl rfl rfl rfl rfl⟩
  case emptyScan =>
    obtain ⟨a, π, hn, hm⟩ := h
    exact ⟨a, π, hn.congr rfl rfl rfl rfl rfl, hm⟩
  all_goals exact h

end Client
end SmartTree
