import SmartTree.Tree.BackClient

/-! The steps of a client that keeps reverse pointers in order: what it has written and read of
them, what it leaves alone, and that nothing outstanding is lost. -/
namespace SmartTree
variable {n : ℕ} {L : Layout} {m : Mem n} {c : Client n} {crc : Key n → Value → UInt64}

theorem step_backed (ht : TreeInv L m) (h : Local L m c) (hr : c.Recalls L m) (hb : c.Backed L m)
    (hlag : Lags L m) {ch : Choice n} {mv : Move n} (hc : c.Careful m ch)
    (hs : Step crc m c ch mv) : mv.client.Backed (L.publish mv.published) mv.mem := by
  have hx := (step_outcome ht h hs).ext
  have htn := step_turns ht h hr hb hc hs
  have hops : ∀ op ∈ c.outstanding, OpBack (L.publish mv.published) mv.mem op :=
    fun op hop => (hb.ops op hop).mono hx htn
  have hk := h.knows
  have hpt := hb.points
  cases hs with
  | readRoot hpc hq =>
    exact hb.silent hops (.inr hq) rfl (by cases c.isSearch && m.root.isNull <;> rfl)
  | next hpc =>
    have hno : c.pc.writesRev = false := by rw [hpc]; rfl
    unfold Client.next
    split
    · split
      · exact hb.silent hops (.inl hno) rfl rfl
      · split <;> exact hb.silent hops (.inl hno) rfl rfl
    · exact hb.move hops (.inl hno) (fun _ => .inl) rfl
        fun hk => absurd (by simp [leafWords]) hk
    · exact hb.move hops (.inl hno) (fun _ => .inl) rfl
        fun hk => absurd (by simp [nodeWords]) hk
  | leafRead hpc => exact leafRead_backed ht h hb hlag hpc hc.current
  | leafWord hpc hw hq =>
    simp only [Client.Knows, hpc] at hk
    simp only [Client.Points, hpc] at hpt
    obtain ⟨⟨σ, hσ⟩, b, l, hp, -⟩ := hk
    have hta : L c.target = some .leaf := by
      simpa [Client.target, hp] using (hσ.leaf hp).1
    exact hb.move hops (.inr hq) (fun _ => .inl) rfl (leafWord_readBack hta hw hpt)
  | reread hpc hq => exact hb.silent hops (.inr hq) rfl rfl
  | gotLeaf hpc =>
    exact hb.silent hops (.inl (by rw [hpc]; rfl)) Client.gotLeaf_silent.2 Client.gotLeaf_silent.1
  | combineUpdate hpc =>
    exact hb.silent hops (.inl (by rw [hpc]; rfl)) rfl (by dsimp only; split <;> rfl)
  | lockBusy hpc hq => exact hb.silent hops (.inr hq) rfl (by rw [hpc]; rfl)
  | lockTaken hpc hq | writeWord hpc hq => exact hb.silent hops (.inr hq) rfl rfl
  | writeFault hpc | combineWrite hpc | written hpc | finish hpc =>
    exact hb.silent hops (.inl (by rw [hpc]; rfl)) rfl rfl
  | leafPrepare hpc => exact leafPrepare_backed hb hpc
  | leafWrite hpc hq _ =>
    refine hb.move hops (.inr hq) (fun _ => .inl) rfl fun l hl => ?_
    cases hl
    simp only [hq, Mem.setLeaf_self]
    rfl
  | leafCasDone hpc hq =>
    exact hb.silent hops (.inr hq) Client.leafCasDone_silent.2 Client.leafCasDone_silent.1
  | leafCasFailed hpc hq =>
    exact hb.silent hops (.inr hq) Client.leafCasFailed_silent.2 Client.leafCasFailed_silent.1
  | splitReuse hpc hl =>
    refine hb.tell hops (by rw [hpc]; rfl) rfl hl rfl fun l' hl' => ?_
    obtain rfl := Option.some.inj (hl.symm.trans hl')
    exact lastRev_writeRev ..
  | splitFresh hpc =>
    exact hb.move hops (.inl (by rw [hpc]; rfl)) (fun _ => .inl) rfl trivial
  | splitFault hpc hp =>
    simp only [Client.Knows, hpc] at hk
    obtain ⟨hn, σ, hsp⟩ := hk
    obtain ⟨pages, hpg, -⟩ := hsp.pages hn
    rw [hp] at hpg
    cases hpg
  | splitWrite hpc hq hp =>
    exact hb.move hops (.inr hq) (fun _ => .inl) rfl (splitWrite_points h hb hpc hq hp)
  | splitCasDone hpc hq hp => exact splitCasDone_backed h hpc hq hp hx
  | splitCasFailed hpc hq => exact hb.silent hops (.inr hq) rfl rfl
  | splitRev hpc => exact splitRev_backed hb hpc
  | splitHdr hpc =>
    refine hb.move hops (.inl (by rw [hpc]; rfl)) (fun op hop => ?_) rfl trivial
    obtain hop | hop := List.mem_append.mp hop
    · exact .inl hop
    · obtain rfl := List.mem_singleton.mp hop
      exact .inr ⟨trivial, by simp⟩
  | typeRead hpc =>
    simp only [Client.Knows, hpc] at hk
    obtain ⟨-, b, t, a, π, hp, -⟩ := hk
    exact typeRead_backed hb hpc hp
  | nodeWord hpc hw hq =>
    simp only [Client.Knows, hpc] at hk
    simp only [Client.Points, hpc] at hpt
    obtain ⟨-, b, t, a, π, hp, ha, -⟩ := hk
    have hta : L c.target = some (.node π) := by simpa [Client.target, hp] using ha
    exact hb.move hops (.inr hq) (fun _ => .inl) rfl (nodeWord_readBack hta hw hpt)
  | restRead hpc =>
    simp only [Client.Points, hpc] at hpt
    exact hb.move hops (.inl (by rw [hpc]; rfl)) (fun _ => .inl) rfl (hpt (by simp))
  | restWord hpc hw hq =>
    simp only [Client.Knows, hpc] at hk
    simp only [Client.Points, hpc] at hpt
    obtain ⟨-, -, b, a, π, hp, ha, -⟩ := hk
    have hta : L c.target = some (.node π) := by simpa [Client.target, hp] using ha
    exact hb.move hops (.inr hq) (fun _ => .inl) rfl (nodeWord_readBack hta hw hpt)
  | nodeRead hpc =>
    have := nodeRead_backed ht h hb hlag hpc hc.current
    rw [Client.nodeRead_eq]
    exact this
  | scan hpc =>
    exact hb.silent hops (.inl (by rw [hpc]; rfl)) Client.scan_silent.2 Client.scan_silent.1
  | emptyScan hpc =>
    exact hb.silent hops (.inl (by rw [hpc]; rfl)) Client.emptyScan_silent.2
      Client.emptyScan_silent.1
  | switchEntry hpc hq => exact hb.silent hops (.inr hq) rfl rfl
  | switchHdr hpc hq => exact hb.silent hops (.inr hq) rfl Switch.afterCas_silent
  | switchDown hpc hq => exact hb.silent hops (.inr hq) rfl Switch.down_silent
  | switchEnd hpc => exact hb.silent hops (.inl (by rw [hpc]; rfl)) rfl Switch.close_silent
  | flush hq => exact flush_backed h hb hq hx htn

/-- Reverse pointers of unpublished blocks are written by their owner only. -/
theorem step_foreign (h : Local L m c) (hb : c.Backed L m) {ch : Choice n} {mv : Move n}
    (hc : c.Careful m ch) (hs : Step crc m c ch mv) {a : Addr} (ha : L a = none)
    (hlive : m.live a = true) (hown : a ∉ c.owned) :
    (mv.mem.leaf a).rev = (m.leaf a).rev ∧ (mv.mem.node a).rev = (m.node a).rev := by
  obtain hsame | rfl := step_revSame h hc hs
  · exact hsame a hlive hown
  · cases hs with
    | @flush op ops hq =>
      have hback : ∀ x : Block, x.addr = a → (m.perform op).back x = m.back x := by
        intro x hx
        obtain he | ⟨old, new, rfl, -⟩ | ⟨l, ptr, rfl, rfl⟩ := m.back_perform op x
        · exact he
        · have hop : Shift L m x old new :=
            opBack_casRev (hb.ops (x.casRev old new) (by simp [Client.outstanding, hq]))
          exact absurd (hx ▸ ha) hop.block.ne_none
        · have hl : l ∈ c.owned := hb.owned (r := ptr) (by simp [hq])
          obtain rfl : l = a := hx
          exact absurd hl hown
      exact ⟨hback (.leaf a) rfl, hback (.node a) rfl⟩

theorem Client.next_pending : c.next.pending = c.pending := by
  unfold next
  split
  · split
    · rfl
    · split <;> rfl
  · rfl
  · rfl

theorem Client.leafPrepare_pending {site : Site} {v : Option Value} {op : RemoteOp}
    (hop : op ∈ c.pending) : op ∈ (c.leafPrepare site v).pending := by
  unfold leafPrepare
  dsimp only
  split
  · exact hop
  · exact List.mem_append_left _ hop
  · exact hop

theorem step_outstanding {ch : Choice n} {mv : Move n} (hs : Step crc m c ch mv)
    (hch : ch ≠ .flush) {op : RemoteOp} (hop : op ∈ c.outstanding) :
    op ∈ mv.client.outstanding := by
  have hkeep : ∀ {c' : Client n}, c.dueOps = [] → (op ∈ c.pending → op ∈ c'.pending) →
      op ∈ c'.outstanding := by
    intro c' hdue hsub
    rw [Client.outstanding, hdue, List.append_nil] at hop
    exact List.mem_append_left _ (hsub hop)
  cases hs with
  | readRoot hpc hq | leafWord hpc _ hq | reread hpc hq | lockTaken hpc hq | writeWord hpc hq
  | leafWrite hpc hq | leafCasDone hpc hq | leafCasFailed hpc hq | splitWrite hpc hq
  | splitCasDone hpc hq | splitCasFailed hpc hq | nodeWord hpc _ hq | restWord hpc _ hq
  | switchEntry hpc hq | switchHdr hpc hq | switchDown hpc hq =>
    simp [Client.outstanding, Client.dueOps, hpc, hq] at hop
  | lockBusy => exact hop
  | next hpc => exact hkeep (by simp [Client.dueOps, hpc]) fun h =>
      (Client.next_pending (c := c)).symm ▸ h
  | leafRead hpc =>
    exact hkeep (by simp [Client.dueOps, hpc]) fun h => List.mem_append_left _ h
  | gotLeaf hpc =>
    exact hkeep (by simp [Client.dueOps, hpc]) fun h =>
      (Client.gotLeaf_silent (c := c)).2.symm ▸ h
  | combineUpdate hpc | writeFault hpc | combineWrite hpc | written hpc | splitFresh hpc
  | splitFault hpc | typeRead hpc | restRead hpc | switchEnd hpc | finish hpc =>
    exact hkeep (by simp [Client.dueOps, hpc]) fun h => h
  | leafPrepare hpc =>
    exact hkeep (by simp [Client.dueOps, hpc]) Client.leafPrepare_pending
  | splitReuse hpc =>
    exact hkeep (by simp [Client.dueOps, hpc]) fun h => List.mem_append_left _ h
  | splitRev hpc => exact splitRev_outstanding (m := m) hpc ▸ hop
  | splitHdr hpc =>
    simpa [Client.outstanding, Client.dueOps, hpc, Client.splitHdr, Client.hdrOps] using hop
  | nodeRead hpc =>
    exact hkeep (by simp [Client.dueOps, hpc]) fun h =>
      Client.nodeRead_silent.2 ▸ List.mem_append_left _ h
  | scan hpc => exact hkeep (by simp [Client.dueOps, hpc]) fun h =>
      (Client.scan_silent (c := c)).2.symm ▸ h
  | emptyScan hpc =>
    exact hkeep (by simp [Client.dueOps, hpc]) fun h =>
      (Client.emptyScan_silent (c := c)).2.symm ▸ h
  | flush => exact absurd rfl hch

end SmartTree
