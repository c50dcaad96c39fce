import SmartTree.Tree.Grafted

/-! One client alone. Whatever it has begun and not finished is settled in thought: the
memory `settle` describes is exact at every program point, and what the client has read
of it is still current. -/
namespace SmartTree
variable {n : ℕ} {L : Layout} {m : Mem n} {c c' : Client n} {crc : Key n → Value → UInt64}

namespace Client

def revOps (c : Client n) (nodes : List Addr) : List RemoteOp :=
  match c.p with
  | .leaf _ a => [.casRevLeaf a c.pPtr (.slot (nodes.getLastD 0) 0)]
  | .node _ _ a => [.casRevNode a c.pPtr (.slot (nodes.getLastD 0) 0)]
  | .null => []

def hdrOps (c : Client n) : Option ℕ → List RemoteOp
  | none => []
  | some i => [.casHeader c.target c.page.hdr (c.page.hdr.splitHeader i)]

def dueOps (c : Client n) : List RemoteOp :=
  match c.pc with
  | .splitRev sp nodes => c.revOps nodes ++ c.hdrOps sp.hdrIdx
  | .splitHdr i => c.hdrOps (some i)
  | _ => []

/-- The memory once the client's pending operations, and the writes it is in the middle of,
have been carried out. -/
def settle (m : Mem n) (c : Client n) : Mem n :=
  let m := (c.pending ++ c.dueOps).foldl Mem.perform m
  match c.pc with
  | .switchEntry w => m.grow w.ptr w.p w.node w.next
  | .switchHdr w => m.setNode w.node fun pg => { pg with hdr := { pg.hdr with type := w.next } }
  | .combineWrite => m.setLeaf c.target fun l => { l with lock := false }
  | .writeBack todo => m.setLeaf c.target fun l => todo.foldl (fun l w => c.leaf.copy w l) l
  | _ => m

end Client

def Pc.owes : Pc → Bool
  | .splitRev _ _ | .splitHdr _ | .switchEntry _ | .switchHdr _ | .combineWrite | .writeBack _ => true
  | _ => false

namespace Client

theorem settle_calm (h : c.pc.owes = false) : c.settle m = c.pending.foldl Mem.perform m := by
  unfold settle dueOps
  cases hpc : c.pc <;> simp_all [Pc.owes]

theorem settle_quiet (h : c.pc.owes = false) (h' : c'.pc.owes = false)
    (hq : c'.pending = c.pending) : c'.settle m = c.settle m := by
  rw [settle_calm h, settle_calm h', hq]

theorem settle_eq (h : c.pc.owes = false) (hq : c.pending = []) : c.settle m = m := by
  rw [settle_calm h, hq]
  rfl

/-- The client stands at a slot whose byte it knows; an entry that is not from the cache is
the one in the slot. -/
structure Stands (m : Mem n) (c : Client n) : Prop where
  leafAddr : c.leafAddr = none
  byte : c.p ≠ .null → (m.load c.pPtr).partialKey = c.p.partialKey
  current : c.fromCache = false → c.pending = [] ∧ m.load c.pPtr = c.p

/-- The client holds the entry its slot holds, and nothing it issued is outstanding. -/
structure Holds (m : Mem n) (c : Client n) : Prop where
  pending : c.pending = []
  load : m.load c.pPtr = c.p

def PageSeen (m : Mem n) (c : Client n) (todo : List NodeWord) : Prop :=
  ∀ w ∈ nodeWords c.p.type, w ∉ todo → (m.node c.target).copy w c.page = c.page

/-- The slot for the new leaf is empty, and next to the slots in use. -/
def SiteFree (m : Mem n) (c : Client n) (site : Site) : Prop :=
  m.load (c.sitePtr c.target site) = .null ∧
    match site with
    | .null => True
    | .empty i => i < (m.node c.target).hdr.type.num
    | .behind i => i = (m.node c.target).hdr.type.num ∧ c.page.hdr = (m.node c.target).hdr

/-- A node is displaced by a header split only, and has the header the client has read. -/
def HdrSeen (m : Mem n) (c : Client n) (sp : Split) : Prop :=
  ∀ b t a, c.p = .node b t a → sp.hdrIdx ≠ none ∧ c.page.hdr = (m.node a).hdr

def Grown (L : Layout) (m : Mem n) (c : Client n) (sp : Split) (nodes : List Addr) : Prop :=
  ∀ pages, c.pages sp nodes = some pages → ∀ q ∈ pages,
    L q.1 = some (.node (cachePath c.key q.2.hdr)) ∧ (m.node q.1).hdr = q.2.hdr ∧
      (m.node q.1).slots = q.2.slots

def Sees (crc : Key n → Value → UInt64) (L : Layout) (m : Mem n) (c : Client n) : Prop :=
  match c.pc with
  | .readRoot => c.leafAddr = none
  | .next | .reread => c.Stands m
  | .readLeaf todo => c.Stands m ∧ (todo ≠ leafWords → c.pending = []) ∧
      ∀ w, w ∉ todo → (m.leaf c.target).copy w c.leaf = c.leaf
  | .gotLeaf | .combineUpdate | .acquireLock =>
    c.Holds m ∧ c.leafAddr = none ∧ c.leaf = m.leaf c.target
  | .combineWrite => c.pending = [] ∧ c.leaf = { m.leaf c.target with lock := false }
  | .leafPrepare site | .leafWrite site => c.Holds m ∧ c.leafAddr = none ∧ c.SiteFree m site
  | .leafCas site => c.Holds m ∧ c.SiteFree m site ∧
      ∃ l, c.leafAddr = some l ∧ m.leaf l = .make crc c.key c.value (c.sitePtr c.target site)
  | .splitPrepare sp => c.Holds m ∧ c.leafAddr = none ∧ c.HdrSeen m sp
  | .splitWrite sp _ unwrite => c.Holds m ∧ c.HdrSeen m sp ∧ unwrite = true
  | .splitCas sp nodes => c.Holds m ∧ c.HdrSeen m sp ∧
      (∃ l, c.leafAddr = some l ∧
        m.leaf l = .make crc c.key c.value (.slot (nodes.getLastD 0) 1)) ∧
      ∀ pages, c.pages sp nodes = some pages → ∀ q ∈ pages, (m.node q.1).rev = q.2.rev
  | .splitRev sp nodes => c.pending = [] ∧ c.Grown L m sp nodes
  | .readNode todo => c.Stands m ∧ (todo ≠ nodeWords c.p.type → c.pending = []) ∧
      c.PageSeen m todo
  | .readRest todo => c.Stands m ∧ c.pending = [] ∧ c.PageSeen m todo
  | .nodeRead => c.Stands m ∧ c.pending = [] ∧ c.PageSeen m []
  | .scan => c.Holds m ∧ c.leafAddr = none ∧ c.PageSeen m []
  | .emptyScan i => i = 0 ∧ c.Holds m ∧ c.leafAddr = none ∧ c.PageSeen m []
  | .switchEntry w => c.pending = [] ∧ m.load w.ptr = w.p ∧ w.hdr = (m.node w.node).hdr ∧
      w.entryDone = false ∧ w.hdrDone = false
  | .switchHdr w => c.pending = [] ∧ w.hdr = (m.node w.node).hdr ∧ w.entryDone = true ∧
      w.hdrDone = false ∧ w.both = true
  | .switchDown _ => False
  | .switchEnd w => w.entryDone = true ∧ w.hdrDone = true
  | _ => True

end Client

structure Alone (crc : Key n → Value → UInt64) (L : Layout) (m : Mem n) (c : Client n) : Prop where
  settled : Exact crc L (c.settle m)
  sees : c.Sees crc L m

theorem Alone.exact (h : Alone crc L m c) (hc : c.pc.owes = false) (hq : c.pending = []) :
    Exact crc L m := by
  have := h.settled
  rwa [Client.settle_eq hc hq] at this

theorem Alone.of_exact (hc : c.pc.owes = false) (hq : c.pending = []) (hx : Exact crc L m)
    (hs : c.Sees crc L m) : Alone crc L m c :=
  ⟨by rwa [Client.settle_eq hc hq], hs⟩

theorem Alone.quiet (h : Alone crc L m c) (hc : c.pc.owes = false) (hc' : c'.pc.owes = false)
    (hq : c'.pending = c.pending) (hs : c'.Sees crc L m) : Alone crc L m c' :=
  ⟨by rw [Client.settle_quiet hc hc' hq]; exact h.settled, hs⟩

section words

theorem mem_leafWords (w : LeafWord) : w ∈ leafWords := by cases w <;> decide

theorem Leaf.copy_copy {src dst : Leaf n} {w w' : LeafWord}
    (h : w' = w ∨ src.copy w' dst = dst) : src.copy w' (src.copy w dst) = src.copy w dst := by
  obtain rfl | h := h
  · cases w' <;> rfl
  · rw [← h]
    cases w <;> cases w' <;> rfl

theorem Leaf.eq_of_copy {src dst : Leaf n} (h : ∀ w, src.copy w dst = dst) : dst = src := by
  have h1 := congrArg Leaf.rev (h .rev)
  have h2 := congrArg Leaf.valid (h .valid)
  have h3 := congrArg Leaf.checksum (h .checksum)
  have h4 := congrArg Leaf.key (h .key)
  have h5 := congrArg Leaf.value (h .value)
  have h6 := congrArg Leaf.lock (h .lock)
  cases src
  cases dst
  simp_all [Leaf.copy]

theorem Leaf.copy_all (src dst : Leaf n) :
    leafWords.foldl (fun l w => src.copy w l) dst = src := rfl

theorem mem_slotWords {lo hi i : ℕ} : .slot i ∈ slotWords lo hi ↔ lo ≤ i ∧ i < hi := by
  simp only [slotWords, List.mem_map, List.mem_range, NodeWord.slot.injEq]
  constructor
  · rintro ⟨j, hj, rfl⟩
    omega
  · rintro ⟨h1, h2⟩
    exact ⟨i - lo, by omega, by omega⟩

theorem mem_nodeWords {t : NodeType} {i : ℕ} : .slot i ∈ nodeWords t ↔ i < t.num := by
  simp [nodeWords, slotWords]

theorem Page.copy_copy {src dst : Page} {w w' : NodeWord}
    (h : w' = w ∨ src.copy w' dst = dst) : src.copy w' (src.copy w dst) = src.copy w dst := by
  obtain rfl | h := h
  · cases w' <;> simp [Page.copy]
  · rw [← h]
    cases w with
    | slot i =>
      cases w' with
      | slot j =>
        by_cases hij : i = j
        · subst hij; simp [Page.copy]
        · simp [Page.copy, Function.update_comm hij]
      | _ => rfl
    | _ => cases w' <;> simp [Page.copy]

theorem Page.hdr_of_copy {src dst : Page} (h : src.copy .hdr dst = dst) : dst.hdr = src.hdr :=
  (congrArg Page.hdr h).symm

theorem Page.rev_of_copy {src dst : Page} (h : src.copy .rev dst = dst) : dst.rev = src.rev :=
  (congrArg Page.rev h).symm

theorem Page.slot_of_copy {src dst : Page} {i : ℕ} (h : src.copy (.slot i) dst = dst) :
    dst.slots i = src.slots i := by
  have := congrFun (congrArg Page.slots h) i
  simpa [Page.copy] using this.symm

namespace Client.PageSeen

theorem hdr (h : c.PageSeen m []) : c.page.hdr = (m.node c.target).hdr :=
  Page.hdr_of_copy (h _ (by simp [nodeWords]) (by simp))

theorem rev (h : c.PageSeen m []) : c.page.rev = (m.node c.target).rev :=
  Page.rev_of_copy (h _ (by simp [nodeWords]) (by simp))

theorem slot (h : c.PageSeen m []) {i : ℕ} (hi : i < c.p.type.num) :
    c.page.slots i = m.load (.slot c.target i) :=
  Page.slot_of_copy (h _ (mem_nodeWords.mpr hi) (by simp))

theorem congr {todo : List NodeWord} (h : c.PageSeen m todo) (hp : c'.p = c.p)
    (hpg : c'.page = c.page) : c'.PageSeen m todo := by
  unfold PageSeen target at *
  rwa [hp, hpg]

theorem word {todo : List NodeWord} (h : c.PageSeen m todo) {j : ℕ} {w : NodeWord}
    (hw : todo[j]? = some w) {pc : Pc} :
    PageSeen m { c with page := (m.node c.target).copy w c.page, pc := pc } (todo.eraseIdx j) := by
  intro x hx hn
  refine Page.copy_copy ?_
  obtain hn | rfl := not_mem_eraseIdx hw hn
  · exact .inr (h x hx hn)
  · exact .inl rfl

/-- With the type of the header, the slots behind the declared ones are left to read. -/
theorem withType {b : UInt8} {t t' : NodeType} {a : Addr} (h : c.PageSeen m []) (hp : c.p = .node b t a)
    {todo : List NodeWord} {pc : Pc} (htodo : ∀ i < t'.num, t.num ≤ i → NodeWord.slot i ∈ todo) :
    PageSeen m { c with p := c.p.withType t', pc := pc } todo := by
  intro w hw hn
  have htar : target { c with p := c.p.withType t', pc := pc } = c.target := by simp [target, hp]
  rw [htar]
  refine h w ?_ (by simp)
  rw [hp] at hw ⊢
  simp only [Entry.withType_node, Entry.type_node] at hw ⊢
  cases w with
  | slot i =>
    refine mem_nodeWords.mpr ?_
    by_contra hge
    exact hn (htodo i (mem_nodeWords.mp hw) (by omega))
  | _ => simp [nodeWords]

end Client.PageSeen
end words
end SmartTree
