import SmartTree.Tree.BackMove

/-! The bytes of remote memory that a step of a client writes. Each range lies in a leaf block, in a
published node, in the first 48 bytes of a node the client has just been handed, or is the root
word. -/
namespace SmartTree
variable {n : ℕ}

inductive Span
  | root
  | block (a : Addr) (off len : ℕ)
deriving DecidableEq

/-- `sizeof(Leaf)`: reverse pointer, valid byte, checksum, key, value and lock byte. -/
def leafSize (n : ℕ) : ℕ := 8 + 1 + 8 + n + 8 + 1

/-- What a new page writes: reverse pointer, header and the slots of the smallest node. -/
def pageSize : ℕ := 8 + 8 + NodeType.node4.num * 8

def allocationPageSize : ℕ := 8 + 8 + 256 * 8

def LeafWord.span (n : ℕ) (a : Addr) : LeafWord → Span
  | .rev => .block a 0 8
  | .valid => .block a 8 1
  | .checksum => .block a 9 8
  | .key => .block a 17 n
  | .value => .block a (17 + n) 8
  | .lock => .block a (25 + n) 1

def Ptr.span : Ptr → Span
  | .root => .root
  | .slot a i => .block a (16 + 8 * i) 8

def RemoteOp.span : RemoteOp → Span
  | .writeRev a _ => .block a 0 8
  | .casRevLeaf a _ _ => .block a 0 8
  | .casRevNode a _ _ => .block a 0 8
  | .casHeader a _ _ => .block a 8 8

/-- What a step writes; a compare-and-swap counts whether it succeeds or not. -/
def Client.writes (c : Client n) (ch : Choice n) : List Span :=
  match c.pc, ch with
  | .acquireLock, .go => [LeafWord.lock.span n c.target]
  | .writeBack (w :: _), .go => [w.span n c.target]
  | .leafWrite _, .alloc a => [.block a 0 (leafSize n)]
  | .leafCas site, .go => [(c.sitePtr c.target site).span]
  | .splitWrite _ nodes unwrite, .go => nodes.map (.block · 0 pageSize) ++
      if unwrite then [.block (c.leafAddr.getD 0) 0 (leafSize n)] else []
  | .splitCas _ _, .go => [c.pPtr.span]
  | .switchEntry w, .go => [w.ptr.span]
  | .switchHdr w, .go => [.block w.node 8 8]
  | _, .flush => c.pending.head?.toList.map RemoteOp.span
  | _, _ => []

def Client.drafts (c : Client n) : List Addr :=
  match c.pc with
  | .splitWrite _ nodes _ => nodes
  | _ => []

/-- What a range may belong to; `leaf` says which blocks are leaves. -/
inductive Span.Lies (n : ℕ) (L : Layout) (leaf : Addr → Prop) (own : List Addr) : Span → Prop
  | root : Lies n L leaf own .root
  | leaf {a off len} (ha : leaf a) (h : off + len ≤ leafSize n) : Lies n L leaf own (.block a off len)
  | node {a off len π} (ha : L a = some (.node π)) (h : off + len ≤ allocationPageSize) :
    Lies n L leaf own (.block a off len)
  | own {a off len} (ha : a ∈ own) (h : off + len ≤ pageSize) : Lies n L leaf own (.block a off len)

/-- What an operation that nobody waits for may write to. -/
def RemoteOp.Fits (L : Layout) (leaf : Addr → Prop) : RemoteOp → Prop
  | .writeRev l _ => leaf l
  | .casRevLeaf a _ _ => leaf a
  | .casRevNode a _ _ => ∃ π, L a = some (.node π)
  | .casHeader a _ _ => ∃ π, L a = some (.node π)

/-- The client's leaf is a leaf block, and so is what its operations write to, or a published
node. -/
structure Client.Uses (L : Layout) (leaf : Addr → Prop) (c : Client n) : Prop where
  leafAddr : ∀ l, c.leafAddr = some l → leaf l
  ops : ∀ op ∈ c.outstanding, op.Fits L leaf

variable {L L' : Layout} {m : Mem n} {c c' : Client n} {crc : Key n → Value → UInt64}
  {leaf leaf' : Addr → Prop}

theorem RemoteOp.Fits.mono {op : RemoteOp} (h : op.Fits L leaf)
    (hL : ∀ a o, L a = some o → L' a = some o) (hl : ∀ a, leaf a → leaf' a) : op.Fits L' leaf' := by
  cases op with
  | writeRev l _ | casRevLeaf l _ _ => exact hl l h
  | casRevNode a _ _ | casHeader a _ _ => exact h.imp fun π ha => hL a _ ha

theorem Client.Uses.mono (h : c.Uses L leaf) (hL : ∀ a o, L a = some o → L' a = some o)
    (hl : ∀ a, leaf a → leaf' a) : c.Uses L' leaf' :=
  ⟨fun l hc => hl l (h.leafAddr l hc), fun op hop => (h.ops op hop).mono hL hl⟩

section issues
variable (hleaf : ∀ a, L a = some .leaf → leaf a)
include hleaf

omit hleaf in
theorem Client.Uses.move (h : c.Uses L leaf)
    (hl : ∀ l, c'.leafAddr = some l → c.leafAddr = some l ∨ leaf l) (hdue : c'.dueOps = [])
    (hops : ∀ op ∈ c'.pending, op ∈ c.pending ∨ op.Fits L leaf) : c'.Uses L leaf where
  leafAddr l hc := (hl l hc).elim (h.leafAddr l) id
  ops op hop := by
    rw [outstanding, hdue, List.append_nil] at hop
    exact (hops op hop).elim (fun hop => h.ops op (List.mem_append_left _ hop)) id

theorem revOps_fits {σ : List UInt8} (hp : EntryOk L m σ c.p) {nodes : List Addr} :
    ∀ op ∈ c.revOps nodes, op.Fits L leaf := by
  intro op hop
  unfold Client.revOps at hop
  split at hop
  case h_1 he =>
    obtain rfl := List.mem_singleton.mp hop
    rw [he] at hp
    cases hp with | leaf hl _ => exact hleaf _ hl
  case h_2 he =>
    obtain rfl := List.mem_singleton.mp hop
    rw [he] at hp
    cases hp with | node ha _ => exact ⟨_, ha⟩
  case h_3 => cases hop

theorem repairLeaf_fits {σ : List UInt8} (hσ : c.Located L m σ) {b : UInt8} {l : Addr}
    (hp : c.p = .leaf b l) : ∀ op ∈ c.repairLeaf c.target, op.Fits L leaf := by
  intro op hop
  unfold Client.repairLeaf at hop
  split at hop
  · obtain rfl := List.mem_singleton.mp hop
    have hta : c.target = l := by simp [Client.target, hp]
    exact hleaf _ (hta ▸ (hσ.leaf hp).1)
  · cases hop

omit hleaf in
theorem repairNode_fits {b : UInt8} {t : NodeType} {a : Addr} {π : List UInt8}
    (hp : c.p = .node b t a) (ha : L a = some (.node π)) :
    ∀ op ∈ c.repairNode c.target, op.Fits L leaf := by
  intro op hop
  unfold Client.repairNode at hop
  split at hop
  · obtain rfl := List.mem_singleton.mp hop
    have hta : c.target = a := by simp [Client.target, hp]
    exact ⟨π, hta ▸ ha⟩
  · cases hop

omit hleaf in
theorem hdrOps_fits {i : ℕ} {a : Addr} {π : List UInt8} (hd : Client.HdrSplit L c i a π) :
    ∀ op ∈ c.hdrOps (some i), op.Fits L leaf := by
  intro op hop
  obtain rfl := List.mem_singleton.mp hop
  obtain ⟨b, t, hp⟩ := hd.entry
  have hta : c.target = a := by simp [Client.target, hp]
  exact ⟨π, hta ▸ hd.layout⟩

/-- A client goes on to write to nothing but leaf blocks and published nodes. -/
theorem step_uses (h : Local L m c) (hu : c.Uses L leaf) {ch : Choice n} {mv : Move n}
    (hs : Step crc m c ch mv)
    (hnew : ∀ l, mv.client.leafAddr = some l → c.leafAddr = some l ∨ leaf l) :
    mv.client.Uses L leaf := by
  have hk := h.knows
  have hsame : ∀ op ∈ c.pending, op ∈ c.pending ∨ op.Fits L leaf := fun _ => .inl
  have hquiet : ∀ {c' : Client n}, (∀ l, c'.leafAddr = some l → c.leafAddr = some l ∨ leaf l) →
      c'.pc.silent = true → c'.pending = c.pending → c'.Uses L leaf :=
    fun hl hpc hp => hu.move hl (Client.due_of_silent hpc) (hp ▸ hsame)
  cases hs with
  | readRoot => exact hquiet hnew (by cases c.isSearch && m.root.isNull <;> rfl) rfl
  | next =>
    refine hu.move hnew ?_ (Client.next_pending.symm ▸ hsame)
    unfold Client.next
    split
    · split
      · rfl
      · split <;> rfl
    · rfl
    · rfl
  | leafRead hpc =>
    simp only [Client.Knows, hpc] at hk
    obtain ⟨⟨σ, hσ⟩, b, l, hp, -⟩ := hk
    refine hu.move hnew ?_ fun op hop => ?_
    · unfold Client.leafRead
      split
      · rfl
      · split <;> rfl
    · exact (List.mem_append.mp hop).imp_right (repairLeaf_fits hleaf hσ hp op)
  | leafWord | nodeWord | restWord | restRead | splitWrite | leafWrite | splitFresh =>
    exact hu.move hnew rfl hsame
  | reread | lockTaken | writeFault | combineWrite | written | writeWord | splitFault
  | splitCasFailed | switchEntry | finish => exact hquiet hnew rfl rfl
  | gotLeaf => exact hquiet hnew Client.gotLeaf_silent.1 Client.gotLeaf_silent.2
  | combineUpdate => exact hquiet hnew (by dsimp only; split <;> rfl) rfl
  | lockBusy => exact hu
  | leafPrepare hpc =>
    unfold Client.leafPrepare at hnew ⊢
    dsimp only at hnew ⊢
    split
    · exact hquiet (fun _ => .inl) rfl rfl
    · rename_i l _ hl
      refine hu.move (fun _ => .inl) rfl fun op hop => ?_
      obtain hop | hop := List.mem_append.mp hop
      · exact .inl hop
      · obtain rfl := List.mem_singleton.mp hop
        exact .inr (hu.leafAddr l hl)
    · exact hquiet (fun _ => .inl) rfl rfl
  | leafCasDone => exact hquiet hnew Client.leafCasDone_silent.1 Client.leafCasDone_silent.2
  | leafCasFailed => exact hquiet hnew Client.leafCasFailed_silent.1 Client.leafCasFailed_silent.2
  | @splitReuse sp nodes l hpc hl =>
    refine hu.move hnew rfl fun op hop => ?_
    obtain hop | hop := List.mem_append.mp hop
    · exact .inl hop
    · obtain rfl := List.mem_singleton.mp hop
      exact .inr (hu.leafAddr l hl)
  | @splitCasDone sp nodes hpc hq =>
    simp only [Client.Knows, hpc] at hk
    obtain ⟨-, σ, hsp⟩ := hk
    refine ⟨hu.leafAddr, fun op hop => ?_⟩
    simp only [Client.outstanding, Client.dueOps, hq, List.nil_append] at hop
    obtain hop | hop := List.mem_append.mp hop
    · exact revOps_fits hleaf hsp.located.entry op hop
    · cases hi : sp.hdrIdx with
      | none => simp [Client.hdrOps, hi] at hop
      | some i =>
        obtain ⟨a, π, hd, -⟩ := hsp.hdr i hi
        exact hdrOps_fits hd op (hi ▸ hop)
  | splitRev hpc => exact ⟨hu.leafAddr, fun op hop => hu.ops op (splitRev_outstanding hpc ▸ hop)⟩
  | splitHdr hpc =>
    refine ⟨hu.leafAddr, fun op hop => hu.ops op ?_⟩
    simpa [Client.outstanding, Client.dueOps, hpc, Client.splitHdr, Client.hdrOps] using hop
  | typeRead =>
    refine hu.move hnew ?_ hsame
    unfold Client.typeRead
    split <;> rfl
  | nodeRead hpc =>
    simp only [Client.Knows, hpc] at hk
    obtain ⟨-, b, a, π, hp, ha, -⟩ := hk
    refine hu.move hnew (Client.due_of_silent Client.nodeRead_silent.1) fun op hop => ?_
    rw [Client.nodeRead_silent.2] at hop
    exact (List.mem_append.mp hop).imp_right (repairNode_fits hp ha op)
  | scan => exact hquiet hnew Client.scan_silent.1 Client.scan_silent.2
  | emptyScan => exact hquiet hnew Client.emptyScan_silent.1 Client.emptyScan_silent.2
  | switchHdr => exact hquiet hnew Switch.afterCas_silent rfl
  | switchDown => exact hquiet hnew Switch.down_silent rfl
  | switchEnd => exact hquiet hnew Switch.close_silent rfl
  | flush hq =>
    refine ⟨hu.leafAddr, fun op hop => hu.ops op ?_⟩
    obtain hop | hop := List.mem_append.mp hop
    · exact List.mem_append_left _ (hq ▸ List.mem_cons_of_mem _ hop)
    · exact List.mem_append_right _ hop

end issues

section lies

theorem Ptr.span_lies (ht : TreeInv L m) {ptr : Ptr} {σ : List UInt8} (h : SlotPath L m ptr σ)
    (own : List Addr) : ptr.span.Lies n L leaf own := by
  cases h with
  | root => exact .root
  | @slot a i π ha he =>
    have := (ht.node a π ha).bound i he
    exact .node ha (by unfold allocationPageSize; omega)

theorem site_lies {site : Site} (h : c.SiteOk L m site) (own : List Addr) :
    (c.sitePtr c.target site).span.Lies n L leaf own := by
  cases h with
  | null hσ hp =>
    obtain ⟨hptr, -⟩ := hσ.null hp
    simpa only [Client.sitePtr, hptr] using .root
  | @empty a π i hn hm htr hi =>
    have := NodeType.num_le c.page.hdr.type
    rw [hn.target]
    exact .node hn.layout (by unfold allocationPageSize; omega)
  | @behind a π i hn htr h0 hi =>
    rw [hn.target]
    exact .node hn.layout (by unfold allocationPageSize; omega)

theorem LeafWord.span_lies {a : Addr} (ha : leaf a) (w : LeafWord) (own : List Addr) :
    (w.span n a).Lies n L leaf own := by
  cases w <;> exact .leaf ha (by unfold leafSize; omega)

theorem RemoteOp.Fits.lies {op : RemoteOp} (h : op.Fits L leaf) (own : List Addr) :
    op.span.Lies n L leaf own := by
  cases op with
  | writeRev | casRevLeaf => exact .leaf h (by unfold leafSize; omega)
  | casRevNode | casHeader =>
    obtain ⟨π, ha⟩ := h
    exact .node ha (by unfold allocationPageSize; omega)

theorem writes_lie (hleaf : ∀ a, L a = some .leaf → leaf a) (ht : TreeInv L m) (h : Local L m c)
    (hu : c.Uses L leaf) {ch : Choice n} {mv : Move n} (hs : Step crc m c ch mv)
    (hnew : ∀ l, mv.client.leafAddr = some l → c.leafAddr = some l ∨ leaf l) :
    ∀ s ∈ c.writes ch, s.Lies n L leaf c.drafts := by
  intro s hmem
  have hk := h.knows
  unfold Client.writes at hmem
  split at hmem
  case h_1 hpc =>
    obtain rfl := List.mem_singleton.mp hmem
    simp only [Client.Knows, hpc] at hk
    obtain ⟨-, b, l, hp, hl, -⟩ := hk
    have hta : c.target = l := by simp [Client.target, hp]
    exact LeafWord.span_lies (hta ▸ hleaf l hl) _ _
  case h_2 hpc =>
    obtain rfl := List.mem_singleton.mp hmem
    simp only [Client.Knows, hpc] at hk
    obtain ⟨-, b, l, hp, hl, -⟩ := hk
    have hta : c.target = l := by simp [Client.target, hp]
    exact LeafWord.span_lies (hta ▸ hleaf l hl) _ _
  case h_3 =>
    obtain rfl := List.mem_singleton.mp hmem
    cases hs with
    | leafWrite =>
      exact .leaf ((hnew _ rfl).elim (hu.leafAddr _) id) (by omega)
  case h_4 hpc =>
    obtain rfl := List.mem_singleton.mp hmem
    simp only [Client.Knows, hpc] at hk
    exact site_lies hk _
  case h_5 hpc =>
    simp only [Client.Knows, hpc] at hk
    obtain ⟨⟨-, l, hl⟩, -⟩ := hk
    obtain hmem | hmem := List.mem_append.mp hmem
    · obtain ⟨a, ha, rfl⟩ := List.mem_map.mp hmem
      exact .own (by simpa [Client.drafts, hpc] using ha) (by omega)
    · split at hmem
      · obtain rfl := List.mem_singleton.mp hmem
        rw [hl]
        exact .leaf (hu.leafAddr l hl) (by omega)
      · cases hmem
  case h_6 hpc =>
    obtain rfl := List.mem_singleton.mp hmem
    simp only [Client.Knows, hpc] at hk
    obtain ⟨-, σ, hsp⟩ := hk
    exact Ptr.span_lies ht hsp.located.slot _
  case h_7 hpc =>
    obtain rfl := List.mem_singleton.mp hmem
    simp only [Client.Knows, hpc] at hk
    obtain ⟨σ, hσ⟩ := hk.slot
    exact Ptr.span_lies ht hσ _
  case h_8 hpc =>
    obtain rfl := List.mem_singleton.mp hmem
    simp only [Client.Knows, hpc] at hk
    obtain ⟨π, hπ⟩ := hk.node
    exact .node hπ (by unfold allocationPageSize; omega)
  case h_9 =>
    obtain ⟨op, hop, rfl⟩ := List.mem_map.mp hmem
    have hin : op ∈ c.outstanding :=
      List.mem_append_left _ (List.mem_of_mem_head? (Option.mem_toList.mp hop))
    exact (hu.ops op hin).lies _
  case h_10 => cases hmem

end lies
end SmartTree
