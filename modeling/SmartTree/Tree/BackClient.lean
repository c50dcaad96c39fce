import SmartTree.Tree.BackStep

/-! What a client has written and read of reverse pointers after each of its own steps. -/
namespace SmartTree
variable {n : ℕ} {L L' : Layout} {m m' : Mem n} {c c' : Client n} {crc : Key n → Value → UInt64}
  {x : Block}

def Pc.silent : Pc → Bool
  | .readLeaf _ | .readNode _ | .readRest _ | .nodeRead | .leafCas _ | .splitWrite _ _ _
  | .splitCas _ _ | .splitRev _ _ | .splitHdr _ => false
  | _ => true

def Lags (L : Layout) (m : Mem n) : Prop :=
  ∀ x ptr σ, Sits L m x ptr σ → m.back x = ptr ∨ Higher L m (m.back x) ptr

theorem Lags.repair (h : Lags L m) (ht : TreeInv L m) {ptr r : Ptr} {σ : List UInt8}
    (hr : ReadBack L m x r) (hs : SlotPath L m ptr σ) (ha : (m.load ptr).addr? = some x.addr)
    (hne : r ≠ ptr) : Shift L m x r ptr := by
  have hsit : Sits L m x ptr σ := ⟨hs, (ht.entry hs).block_of_addr hr.block ha⟩
  refine ⟨hr.block, ?_, .inl ⟨σ, hsit⟩⟩
  obtain rfl | hr := hr.now
  · exact (h x ptr σ hsit).resolve_left hne
  · obtain hb | hb := h x ptr σ hsit
    · exact hb ▸ hr
    · exact hr.trans hb

namespace Client

theorem points_of_silent (h : c.pc.silent = true) : c.Points L m := by
  unfold Points
  cases hpc : c.pc <;> simp_all [Pc.silent]

theorem due_of_silent (h : c.pc.silent = true) : c.dueOps = [] := by
  unfold dueOps
  cases hpc : c.pc <;> simp_all [Pc.silent]

theorem due_of_writesRev (h : c.pc.writesRev = true) : c.dueOps = [] := by
  unfold dueOps
  cases hpc : c.pc <;> simp_all [Pc.writesRev]

theorem Backed.move (h : c.Backed L m) (hops : ∀ op ∈ c.outstanding, OpBack L' m' op)
    (hno : c.pc.writesRev = false ∨ c.pending = [])
    (hpend : ∀ op ∈ c'.pending, op ∈ c.pending ∨ OpBack L' m' op ∧ ∀ l r, op ≠ .writeRev l r)
    (hdue : c'.dueOps = []) (hp : c'.Points L' m') : c'.Backed L' m' where
  points := hp
  ops op hop := by
    rw [outstanding, hdue, List.append_nil] at hop
    obtain hop | hop := hpend op hop
    · exact hops op (List.mem_append_left _ hop)
    · exact hop.1
  own l r hw := by
    obtain hw | hw := hpend _ hw
    · obtain hno | hno := hno
      · rw [(h.own l r hw).1] at hno
        cases hno
      · rw [hno] at hw
        cases hw
    · exact absurd rfl (hw.2 l r)

theorem Backed.silent (h : c.Backed L m) (hops : ∀ op ∈ c.outstanding, OpBack L' m' op)
    (hno : c.pc.writesRev = false ∨ c.pending = []) (hpend : c'.pending = c.pending)
    (hs : c'.pc.silent = true) : c'.Backed L' m' :=
  h.move hops hno (fun _ hop => .inl (hpend ▸ hop)) (due_of_silent hs) (points_of_silent hs)

theorem gotLeaf_silent : c.gotLeaf.pc.silent = true ∧ c.gotLeaf.pending = c.pending := by
  unfold gotLeaf
  split
  · split <;> exact ⟨rfl, rfl⟩
  · split
    · cases c.isLoad <;> exact ⟨rfl, rfl⟩
    · split
      · exact ⟨rfl, rfl⟩
      · split <;> exact ⟨rfl, rfl⟩

theorem leafCasFailed_silent {a : Addr} {e : Entry} {b : UInt8} {site : Site} :
    (c.leafCasFailed a e b site).pc.silent = true ∧
      (c.leafCasFailed a e b site).pending = c.pending := by
  cases site with
  | null => exact ⟨rfl, rfl⟩
  | empty i => rw [leafCasFailed]; split <;> exact ⟨rfl, rfl⟩
  | behind i =>
    rw [leafCasFailed]
    split
    · exact ⟨rfl, rfl⟩
    · split <;> exact ⟨rfl, rfl⟩

theorem leafCasDone_silent {a : Addr} {site : Site} :
    (c.leafCasDone a site).pc.silent = true ∧ (c.leafCasDone a site).pending = c.pending := by
  obtain ⟨pc, he, rfl | rfl | ⟨w, rfl⟩⟩ := leafCasDone_pc (c := c) a site <;>
    rw [he] <;> exact ⟨rfl, rfl⟩

theorem checkHeader_silent :
    c.checkHeader.pc.silent = true ∧ c.checkHeader.pending = c.pending := by
  unfold checkHeader
  dsimp only
  split
  · exact ⟨rfl, rfl⟩
  · exact ⟨rfl, rfl⟩
  · split
    · exact ⟨rfl, rfl⟩
    · split <;> exact ⟨rfl, rfl⟩

theorem scan_silent {a : Addr} : (c.scan a).pc.silent = true ∧ (c.scan a).pending = c.pending := by
  unfold scan
  split
  · exact ⟨rfl, rfl⟩
  · split
    · exact ⟨rfl, rfl⟩
    · cases c.isSearch <;> exact ⟨rfl, rfl⟩

theorem emptyScan_silent {i : ℕ} :
    (c.emptyScan i).pc.silent = true ∧ (c.emptyScan i).pending = c.pending := by
  unfold emptyScan
  split
  · exact ⟨rfl, rfl⟩
  · split <;> exact ⟨rfl, rfl⟩

theorem nodeRead_silent {a : Addr} : (c.nodeRead m a).client.pc.silent = true ∧
    (c.nodeRead m a).client.pending = c.pending ++ c.repairNode a := by
  unfold nodeRead
  dsimp only
  split
  · exact ⟨rfl, rfl⟩
  · exact checkHeader_silent

end Client

theorem Switch.down_silent {w : Switch} : (w.down m).silent = true := by
  unfold down
  split
  · split <;> rfl
  · rfl

theorem Switch.close_silent {w : Switch} : w.close.silent = true := by
  unfold close
  dsimp only
  cases w.hdrDone <;> simp only [Bool.false_eq_true, if_true, if_false] <;> split <;> rfl

theorem Switch.afterCas_silent {w : Switch} : w.afterCas.silent = true := by
  unfold afterCas
  split <;> rfl

section own

theorem lastRev_append (l : Addr) (ops ops' : List RemoteOp) (r : Ptr) :
    lastRev l (ops ++ ops') r = lastRev l ops' (lastRev l ops r) := List.foldl_append ..

theorem lastRev_writeRev (l : Addr) (ops : List RemoteOp) (r ptr : Ptr) :
    lastRev l (ops ++ [.writeRev l ptr]) r = ptr := by
  rw [lastRev_append]
  simp [lastRev]

/-- A leaf that is reused is told its new slot before anything else happens to it. -/
theorem Client.Backed.tell (hb : c.Backed L m) (hops : ∀ op ∈ c.outstanding, OpBack L' m' op)
    (hno : c.pc.writesRev = false) {l : Addr} {ptr : Ptr}
    (hpend : c'.pending = c.pending ++ [.writeRev l ptr]) (hl : c'.leafAddr = some l)
    (hpc : c'.pc.writesRev = true) (hp : c'.Points L' m') : c'.Backed L' m' where
  points := hp
  ops op hop := by
    rw [Client.outstanding, Client.due_of_writesRev hpc, List.append_nil, hpend] at hop
    obtain hop | hop := List.mem_append.mp hop
    · exact hops op (List.mem_append_left _ hop)
    · obtain rfl := List.mem_singleton.mp hop
      trivial
  own l' r hw := by
    rw [hpend] at hw
    obtain hw | hw := List.mem_append.mp hw
    · rw [(hb.own l' r hw).1] at hno
      cases hno
    · cases List.mem_singleton.mp hw
      exact ⟨hpc, hl⟩

theorem leafPrepare_backed (hb : c.Backed L m) {site : Site} {v : Option Value}
    (hpc : c.pc = .leafPrepare site) : (c.leafPrepare site v).Backed L m := by
  have hno : c.pc.writesRev = false := by rw [hpc]; rfl
  unfold Client.leafPrepare
  dsimp only
  split
  · exact hb.silent hb.ops (.inl hno) rfl rfl
  · rename_i l _ hl
    refine hb.tell hb.ops hno rfl hl rfl fun l' hl' => ?_
    obtain rfl := Option.some.inj (hl.symm.trans hl')
    exact lastRev_writeRev ..
  · exact hb.silent hb.ops (.inl hno) rfl rfl

/-- The new pages and the new leaf point back to where the split will put them. -/
theorem splitWrite_points (h : Local L m c) (hb : c.Backed L m) {sp : Split} {nodes : List Addr}
    {unwrite : Bool} {pages : List (Addr × Page)} (hpc : c.pc = .splitWrite sp nodes unwrite)
    (hq : c.pending = []) (hp : c.pages sp nodes = some pages) :
    Client.Points L (if unwrite then (m.writePages pages).setLeaf (c.leafAddr.getD 0) fun _ =>
        .make crc c.key c.value (.slot (nodes.getLastD 0) 1) else m.writePages pages)
      { c with pc := .splitCas sp nodes } := by
  have hk := h.knows
  simp only [Client.Knows, hpc] at hk
  obtain ⟨hn, σ, hsp⟩ := hk
  obtain ⟨pages', hp', hfst, -⟩ := hsp.pages hn
  obtain rfl := Option.some.inj (hp'.symm.trans hp)
  have hnd : (pages'.map Prod.fst).Nodup := by
    have := h.nodup
    simp only [Client.owned, Client.nodesOwned, hpc] at this
    rw [hfst]
    exact this.of_append_right
  refine ⟨hq, fun l hl => ?_, fun pages hpg q hqm => ?_⟩
  · cases unwrite with
    | true =>
      have hl' : c.leafAddr = some l := hl
      rw [if_pos rfl, hl', Option.getD_some, Mem.setLeaf_self]
      rfl
    | false =>
      have hpt := hb.points
      simp only [Client.Points, hpc, hq] at hpt
      rw [if_neg (by simp), Mem.writePages_leaf]
      exact hpt l hl
  · obtain rfl := Option.some.inj (hp'.symm.trans hpg)
    have hnode := congrArg Page.rev (Mem.writePages_node m hnd hqm)
    split
    · exact hnode
    · exact hnode

theorem Client.mem_revOps {nodes : List Addr} {op : RemoteOp} :
    op ∈ c.revOps nodes ↔
      ∃ x, c.p.block? = some x ∧ op = x.casRev c.pPtr (.slot (nodes.getLastD 0) 0) := by
  cases hp : c.p <;> simp [Client.revOps, hp, Entry.block?, Block.casRev]

theorem splitCasDone_backed (h : Local L m c) {sp : Split} {nodes : List Addr}
    (hpc : c.pc = .splitCas sp nodes) (hq : c.pending = []) (hp : m.load c.pPtr = c.p)
    (hx : Extends L m (L.publish ((c.leafAddr.getD 0, .leaf) ::
        ((c.pages sp nodes).getD []).map fun q => (q.1, .node (cachePath c.key q.2.hdr))))
      (m.store (.node c.p.partialKey .node4 (nodes.headD 0)) c.pPtr)) :
    Client.Backed (L.publish ((c.leafAddr.getD 0, .leaf) ::
        ((c.pages sp nodes).getD []).map fun q => (q.1, .node (cachePath c.key q.2.hdr))))
      (m.store (.node c.p.partialKey .node4 (nodes.headD 0)) c.pPtr)
      { c with pc := .splitRev sp nodes } := by
  have hk := h.knows
  simp only [Client.Knows, hpc] at hk
  obtain ⟨-, σ, hsp⟩ := hk
  obtain ⟨l, pages, hl, hpg, hfst, g⟩ := hsp.graft h hpc hp
  have hpub : (c.leafAddr.getD 0, .leaf) ::
      ((c.pages sp nodes).getD []).map (fun q => (q.1, .node (cachePath c.key q.2.hdr))) =
        grafted c.key l pages := by rw [hl, hpg]; rfl
  rw [hpub] at hx ⊢
  have hshift : ∀ x, c.p.block? = some x → Shift (L.publish (grafted c.key l pages))
      (m.store (.node c.p.partialKey .node4 (nodes.headD 0)) c.pPtr) x c.pPtr
        (.slot (nodes.getLastD 0) 0) := by
    intro x hbx
    obtain ⟨τ, hsit, hlt⟩ := g.sits_old (x := x) (b := c.p.partialKey) (a := nodes.headD 0)
      (by rw [hp]; exact hbx)
    rw [hfst] at hsit
    exact ⟨(hsp.located.entry.block_in hbx).mono hx, ⟨σ, τ, g.slot.mono hx, hsit.slot, hlt⟩,
      .inl ⟨τ, hsit⟩⟩
  refine ⟨trivial, fun op hop => ?_, fun l r hw => ?_⟩
  · simp only [Client.outstanding, Client.dueOps, hq, List.nil_append] at hop
    obtain hop | hop := List.mem_append.mp hop
    · obtain ⟨x, hbx, rfl⟩ := Client.mem_revOps.mp hop
      have := hshift x hbx
      cases x <;> exact this
    · cases hi : sp.hdrIdx with
      | none => rw [hi] at hop; cases hop
      | some i =>
        rw [hi] at hop
        obtain rfl := List.mem_singleton.mp hop
        trivial
  · simp [hq] at hw

theorem splitRev_outstanding {sp : Split} {nodes : List Addr} (hpc : c.pc = .splitRev sp nodes) :
    (c.splitRev m sp nodes).client.outstanding = c.outstanding := by
  cases hi : sp.hdrIdx <;> cases hp : c.p <;>
    simp [Client.outstanding, Client.dueOps, Client.splitRev, Client.revOps, Client.hdrOps,
      Client.target, hpc, hi, hp]

theorem splitRev_backed (hb : c.Backed L m) {sp : Split} {nodes : List Addr}
    (hpc : c.pc = .splitRev sp nodes) : (c.splitRev m sp nodes).client.Backed L m where
  points := by
    unfold Client.splitRev
    cases sp.hdrIdx <;> trivial
  ops op hop := hb.ops op (splitRev_outstanding hpc ▸ hop)
  own l r hw := by
    obtain hw | hw := List.mem_append.mp hw
    · have hno := (hb.own l r hw).1
      rw [hpc] at hno
      cases hno
    · obtain ⟨x, -, hx⟩ := Client.mem_revOps.mp hw
      cases x <;> cases hx

end own

section read

theorem leafWord_readBack {todo : List LeafWord} {j : ℕ} {w : LeafWord}
    (hl : L c.target = some .leaf) (hw : todo[j]? = some w)
    (h : .rev ∉ todo → ReadBack L m (.leaf c.target) c.leaf.rev)
    (hk : .rev ∉ todo.eraseIdx j) :
    ReadBack L m (.leaf c.target) ((m.leaf c.target).copy w c.leaf).rev := by
  obtain hk | rfl := Client.not_mem_eraseIdx hw hk
  · cases w with
    | rev => exact ⟨hl, .inl rfl⟩
    | _ => exact h hk
  · exact ⟨hl, .inl rfl⟩

theorem nodeWord_readBack {todo : List NodeWord} {j : ℕ} {w : NodeWord} {π : List UInt8}
    (ha : L c.target = some (.node π)) (hw : todo[j]? = some w)
    (h : .rev ∉ todo → ReadBack L m (.node c.target) c.page.rev)
    (hk : .rev ∉ todo.eraseIdx j) :
    ReadBack L m (.node c.target) ((m.node c.target).copy w c.page).rev := by
  obtain hk | rfl := Client.not_mem_eraseIdx hw hk
  · cases w with
    | rev => exact ⟨⟨π, ha⟩, .inl rfl⟩
    | _ => exact h hk
  · exact ⟨⟨π, ha⟩, .inl rfl⟩

theorem leafRead_pc (crc : Key n → Value → UInt64) (c : Client n) (a : Addr) :
    (c.leafRead crc a).pc = .reread ∨ (c.leafRead crc a).pc = .readLeaf leafWords ∨
      (c.leafRead crc a).pc = .gotLeaf := by
  unfold Client.leafRead
  split
  · exact .inl rfl
  · split
    · exact .inr (.inl rfl)
    · exact .inr (.inr rfl)

theorem leafRead_backed (ht : TreeInv L m) (h : Local L m c) (hb : c.Backed L m)
    (hlag : Lags L m) (hpc : c.pc = .readLeaf []) (hc : c.Current m .go) :
    (c.leafRead crc c.target).Backed L m := by
  have hk := h.knows
  have hpt := hb.points
  simp only [Client.Knows, hpc] at hk
  simp only [Client.Points, hpc] at hpt
  simp only [Client.Current, hpc] at hc
  obtain ⟨⟨σ, hσ⟩, b, l, hp, -⟩ := hk
  have hta : (Block.leaf c.target).In L := by
    have := (hσ.leaf hp).1
    simpa [Block.In, Client.target, hp] using this
  refine hb.move hb.ops (.inl (by rw [hpc]; rfl)) (fun op hop => ?_) ?_ ?_
  · obtain hop | hop := List.mem_append.mp hop
    · exact .inl hop
    · right
      unfold Client.repairLeaf at hop
      split at hop
      · rename_i hne
        simp only [Bool.and_eq_true, Bool.not_eq_true', decide_eq_true_eq] at hne
        obtain rfl := List.mem_singleton.mp hop
        exact ⟨hlag.repair ht (x := .leaf c.target) (hpt (by simp)) hσ.slot (hc hne.1 hne.2) hne.2,
          by simp⟩
      · cases hop
  · obtain hpc' | hpc' | hpc' := leafRead_pc crc c c.target <;>
      simp [Client.dueOps, hpc']
  · obtain hpc' | hpc' | hpc' := leafRead_pc crc c c.target <;>
      simp [Client.Points, hpc', leafWords]

theorem typeRead_backed (hb : c.Backed L m) (hpc : c.pc = .readNode []) {b : UInt8} {t : NodeType}
    {a : Addr} (hp : c.p = .node b t a) : c.typeRead.Backed L m := by
  have hpt := hb.points
  simp only [Client.Points, hpc] at hpt
  have hta : Client.target { c with p := c.p.withType c.page.hdr.type } = c.target := by
    simp [Client.target, hp]
  have hread : ReadBack L m (.node (Client.target { c with
      p := c.p.withType c.page.hdr.type })) c.page.rev := hta ▸ hpt (by simp)
  unfold Client.typeRead
  split
  · exact hb.move hb.ops (.inl (by rw [hpc]; rfl)) (fun _ hop => .inl hop) rfl fun _ => hread
  · exact hb.move hb.ops (.inl (by rw [hpc]; rfl)) (fun _ hop => .inl hop) rfl hread

theorem nodeRead_backed (ht : TreeInv L m) (h : Local L m c) (hb : c.Backed L m)
    (hlag : Lags L m) (hpc : c.pc = .nodeRead) (hc : c.Current m .go) :
    (c.nodeRead m c.target).client.Backed L m := by
  have hk := h.knows
  have hpt := hb.points
  simp only [Client.Knows, hpc] at hk
  simp only [Client.Points, hpc] at hpt
  simp only [Client.Current, hpc] at hc
  obtain ⟨⟨σ, hσ⟩, -⟩ := hk
  obtain ⟨hs, hpend⟩ := Client.nodeRead_silent (m := m) (c := c) (a := c.target)
  refine hb.move hb.ops (.inl (by rw [hpc]; rfl)) (fun op hop => ?_) (Client.due_of_silent hs)
    (Client.points_of_silent hs)
  rw [hpend] at hop
  obtain hop | hop := List.mem_append.mp hop
  · exact .inl hop
  · right
    unfold Client.repairNode at hop
    split at hop
    · rename_i hne
      simp only [Bool.and_eq_true, Bool.not_eq_true', decide_eq_true_eq] at hne
      obtain rfl := List.mem_singleton.mp hop
      exact ⟨hlag.repair ht (x := .node c.target) hpt hσ.slot (hc hne.1 hne.2) hne.2, by simp⟩
    · cases hop

end read

section flush
variable {op : RemoteOp} {ops : List RemoteOp}

theorem lastRev_perform {l : Addr} (hl : L l = none) (hop : OpBack L m op) :
    lastRev l ops ((m.perform op).leaf l).rev = lastRev l (op :: ops) (m.leaf l).rev := by
  have hstep : ((m.perform op).leaf l).rev = lastRev l [op] (m.leaf l).rev := by
    cases op with
    | writeRev a ptr =>
      by_cases ha : l = a
      · subst ha; simp [Mem.perform, lastRev]
      · rw [Mem.perform, Mem.setLeaf_ne _ _ ha]
        simp [lastRev, Ne.symm ha]
    | casRevLeaf a old new =>
      have hne : l ≠ a := by rintro rfl; exact hop.block.ne_none hl
      rw [Mem.perform, Mem.setLeaf_ne _ _ hne]
      rfl
    | casRevNode | casHeader => rfl
  rw [hstep]
  exact (lastRev_append l [op] ops _).symm

theorem flush_backed (h : Local L m c) (hb : c.Backed L m) (hq : c.pending = op :: ops)
    (hx : Extends L m L (m.perform op)) (ht : Turns L m L (m.perform op)) :
    Client.Backed L (m.perform op) { c with pending := ops } := by
  have hop : OpBack L m op := hb.ops op (by simp [Client.outstanding, hq])
  have hfresh : ∀ l, c.leafOwned = some l → L l = none :=
    fun l hl => (h.fresh l (by simp [Client.owned, hl])).1
  refine ⟨?_, fun o ho => ?_, fun l r hw => ?_⟩
  · have hpt := hb.points
    unfold Client.Points at hpt ⊢
    cases hpc : c.pc <;> simp only [hpc] at hpt ⊢
    case readLeaf | readNode | readRest => exact fun hk => (hpt hk).mono hx ht
    case nodeRead => exact hpt.mono hx ht
    case leafCas =>
      intro l hl
      rw [lastRev_perform (hfresh l (by simp [Client.leafOwned, hpc, hl])) hop, ← hq]
      exact hpt l hl
    case splitWrite sp nodes u =>
      cases u with
      | true => trivial
      | false =>
        intro l hl
        rw [lastRev_perform (hfresh l (by simp [Client.leafOwned, hpc, hl])) hop, ← hq]
        exact hpt l hl
    case splitCas => exact absurd hq (by simp [hpt.1])
  · refine (hb.ops o ?_).mono hx ht
    obtain ho | ho := List.mem_append.mp ho
    · simp [Client.outstanding, hq, show o ∈ ops from ho]
    · exact List.mem_append_right _ ho
  · exact hb.own l r (by rw [hq]; exact List.mem_cons_of_mem _ hw)

end flush
end SmartTree
