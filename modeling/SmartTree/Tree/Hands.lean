import SmartTree.Tree.Writes

/-! The blocks a step of a client is handed, publishes and gives back. -/
namespace SmartTree
variable {n : ℕ} {L : Layout} {m : Mem n} {c : Client n} {crc : Key n → Value → UInt64}

/-- The blocks a step asks for and their sizes, in order: nodes come before the leaf. -/
def Client.requests (c : Client n) (ch : Choice n) : List (Addr × ℕ) :=
  match c.pc, ch with
  | .leafWrite _, .alloc a => [(a, leafSize n)]
  | .splitPrepare _, .split v as =>
    match c.leafAddr, v, as with
    | some _, none, nodes => nodes.map (·, allocationPageSize)
    | _, _, l :: nodes => nodes.map (·, allocationPageSize) ++ [(l, leafSize n)]
    | _, _, [] => []
  | _, _ => []

/-- `reclaim_memory`: the nodes of a split whose compare-and-swap fails. -/
def Client.reclaims (m : Mem n) (c : Client n) (ch : Choice n) : List Addr :=
  match c.pc, ch with
  | .splitCas _ nodes, .go => if m.load c.pPtr = c.p then [] else nodes
  | _, _ => []

/-- How a step changes the blocks in the client's hands: what it is handed, publishes and gives
back. -/
structure Hands (m : Mem n) (c : Client n) (ch : Choice n) (mv : Move n) : Prop where
  leafAddr : ∀ l, mv.client.leafAddr = some l → c.leafAddr = some l ∨ (l, leafSize n) ∈ c.requests ch
  nodes : ∀ a ∈ mv.client.nodesOwned,
    a ∈ c.nodesOwned ∧ c.reclaims m ch = [] ∨ (a, allocationPageSize) ∈ c.requests ch
  leaf : ∀ a, (a, .leaf) ∈ mv.published → c.leafAddr = some a
  node : ∀ a π, (a, .node π) ∈ mv.published → a ∈ c.nodesOwned ∧ c.reclaims m ch = []
  slots : ∀ a π, (a, .node π) ∈ mv.published → (mv.mem.node a).slots = (m.node a).slots
  live : ∀ a, mv.mem.live a = true →
    m.live a = true ∧ a ∉ c.reclaims m ch ∨ ∃ size, (a, size) ∈ c.requests ch

theorem Client.reclaims_owned {ch : Choice n} : ∀ a ∈ c.reclaims m ch, a ∈ c.nodesOwned := by
  intro a ha
  unfold reclaims at ha
  split at ha
  · rename_i hpc
    split at ha
    · cases ha
    · simpa [nodesOwned, hpc] using ha
  · cases ha

theorem Client.reclaims_eq_nil {ch : Choice n} (h : ∀ sp nodes, c.pc ≠ .splitCas sp nodes) :
    c.reclaims m ch = [] := by
  unfold reclaims
  split
  · exact absurd ‹_› (h _ _)
  · rfl

theorem Client.drafts_owned : ∀ a ∈ c.drafts, a ∈ c.nodesOwned := by
  intro a ha
  unfold drafts at ha
  split at ha
  · simpa [nodesOwned, ‹c.pc = _›] using ha
  · cases ha

/-- Nodes that are about to be written are not given back in that step. -/
theorem Client.reclaims_of_draft {ch : Choice n} {a : Addr} (h : a ∈ c.drafts) :
    c.reclaims m ch = [] := by
  unfold drafts at h
  split at h
  · exact reclaims_eq_nil (by simp [‹c.pc = _›])
  · cases h

theorem Client.reclaims_of_request {ch : Choice n} {q : Addr × ℕ} (h : q ∈ c.requests ch) :
    c.reclaims m ch = [] := by
  unfold requests at h
  split at h
  · exact reclaims_eq_nil (by simp [‹c.pc = _›])
  · exact reclaims_eq_nil (by simp [‹c.pc = _›])
  · cases h

theorem Client.requests_size {ch : Choice n} {a : Addr} {k : ℕ} (h : (a, k) ∈ c.requests ch) :
    k = leafSize n ∨ k = allocationPageSize := by
  unfold requests at h
  split at h
  · simp only [List.mem_singleton, Prod.mk.injEq] at h
    exact .inl h.2
  · split at h <;> simp at h <;> grind
  · cases h

theorem Hands.keep {ch : Choice n} {mv : Move n} (hl : mv.client.leafAddr = c.leafAddr)
    (hn : ∀ a ∈ mv.client.nodesOwned, a ∈ c.nodesOwned) (hp : mv.published = [])
    (hlive : mv.mem.live = m.live) (hre : c.reclaims m ch = []) : Hands m c ch mv where
  leafAddr _ h := .inl (hl ▸ h)
  nodes a ha := .inl ⟨hn a ha, hre⟩
  leaf _ h := by simp [hp] at h
  node _ _ h := by simp [hp] at h
  slots _ _ h := by simp [hp] at h
  live a ha := .inl ⟨hlive ▸ ha, by simp [hre]⟩

theorem Hands.plain {ch : Choice n} {mv : Move n} (h : c.Plain mv.client) (hp : mv.published = [])
    (hlive : mv.mem.live = m.live) (hpc : ∀ sp nodes, c.pc ≠ .splitCas sp nodes) :
    Hands m c ch mv :=
  .keep h.leafAddr (by simp [h.nodes]) hp hlive (Client.reclaims_eq_nil hpc)

theorem Client.requests_reuse {sp : Split} {nodes : List Addr} {l : Addr}
    (hpc : c.pc = .splitPrepare sp) (hl : c.leafAddr = some l) :
    c.requests (.split none nodes) = nodes.map (·, allocationPageSize) := by
  simp only [requests, hpc, hl]

theorem Client.requests_fresh {sp : Split} {v : Option Value} {nodes : List Addr} {l : Addr}
    (hpc : c.pc = .splitPrepare sp) (hf : c.leafAddr = none ∨ v ≠ none) :
    c.requests (.split v (l :: nodes)) =
      nodes.map (·, allocationPageSize) ++ [(l, leafSize n)] := by
  cases hl : c.leafAddr <;> cases v <;> simp_all [requests]

theorem splitReuse_hands {sp : Split} {nodes : List Addr} {l : Addr} {c' : Client n}
    (hpc : c.pc = .splitPrepare sp) (hl : c.leafAddr = some l) (hl' : c'.leafAddr = c.leafAddr)
    (hn : c'.nodesOwned = nodes) :
    Hands m c (.split none nodes) { mem := m.alloc nodes, client := c' } where
  leafAddr _ h := .inl (hl' ▸ h)
  nodes a ha := .inr (by simpa [Client.requests_reuse hpc hl, hn] using ha)
  leaf := by simp
  node := by simp
  slots := by simp
  live a ha := by
    simp only [Mem.alloc, Bool.or_eq_true, decide_eq_true_eq] at ha
    obtain ha | ha := ha
    · exact .inr ⟨allocationPageSize, by simpa [Client.requests_reuse hpc hl] using ha⟩
    · exact .inl ⟨ha, by simp [Client.reclaims_eq_nil (c := c) (m := m) (by simp [hpc])]⟩

theorem splitFresh_hands {sp : Split} {v : Option Value} {nodes : List Addr} {l : Addr}
    {c' : Client n} (hpc : c.pc = .splitPrepare sp) (hf : c.leafAddr = none ∨ v ≠ none)
    (hl : c'.leafAddr = some l) (hn : c'.nodesOwned = nodes) :
    Hands m c (.split v (l :: nodes)) { mem := m.alloc (l :: nodes), client := c' } where
  leafAddr x h := by
    obtain rfl := Option.some.inj (hl.symm.trans h)
    exact .inr (by simp [Client.requests_fresh hpc hf])
  nodes a ha := .inr (by simp [Client.requests_fresh hpc hf, hn ▸ ha])
  leaf := by simp
  node := by simp
  slots := by simp
  live a ha := by
    simp only [Mem.alloc, Bool.or_eq_true, decide_eq_true_eq] at ha
    obtain ha | ha := ha
    · obtain rfl | ha := List.mem_cons.mp ha
      · exact .inr ⟨leafSize n, by simp [Client.requests_fresh hpc hf]⟩
      · exact .inr ⟨allocationPageSize, by simp [Client.requests_fresh hpc hf, ha]⟩
    · exact .inl ⟨ha, by simp [Client.reclaims_eq_nil (c := c) (m := m) (by simp [hpc])]⟩

theorem splitPrepare_hands {sp : Split} {v : Option Value} {as : List Addr} {mv : Move n}
    (hpc : c.pc = .splitPrepare sp) (h : c.splitPrepare m sp v as = some mv) :
    Hands m c (.split v as) mv := by
  unfold Client.splitPrepare at h
  split at h
  · split at h
    case h_1 hl _ =>
      dsimp only at h
      split at h
      · cases h
        exact splitReuse_hands hpc hl rfl rfl
      · cases h
    case h_2 hne _ =>
      dsimp only at h
      split at h
      · cases h
        refine splitFresh_hands hpc ?_ rfl rfl
        cases hl : c.leafAddr with
        | none => exact .inl rfl
        | some x => exact .inr fun hv => hne x hl hv
      · cases h
    case h_3 => cases h
  · cases h

theorem act_split {sp : Split} {v : Option Value} {as : List Addr} (hpc : c.pc = .splitPrepare sp) :
    c.act crc m (.split v as) = c.splitPrepare m sp v as := by
  cases c
  cases hpc
  rfl

theorem Switch.casEntry_live {w : Switch} : (w.casEntry m).1.live = m.live := by
  unfold casEntry
  dsimp only
  split
  · rfl
  · split
    · exact m.store_live _ _
    · rfl

theorem Switch.casHdr_live {w : Switch} : (w.casHdr m).1.live = m.live := by
  unfold casHdr
  split <;> rfl

theorem act_hands (h : Local L m c) {ch : Choice n} {mv : Move n}
    (ha : c.act crc m ch = some mv) : Hands m c ch mv := by
  have hs := act_step ha
  cases hs with
  | readRoot hpc =>
    refine .plain ?_ rfl rfl (by simp [hpc])
    cases c.isSearch && m.root.isNull <;> exact ⟨rfl, rfl, rfl, fun _ => .inl⟩
  | next hpc => exact .plain Client.next_plain rfl rfl (by simp [hpc])
  | leafRead hpc => exact .plain Client.leafRead_plain rfl rfl (by simp [hpc])
  | gotLeaf hpc => exact .plain Client.gotLeaf_plain rfl rfl (by simp [hpc])
  | combineUpdate hpc =>
    refine .plain ?_ rfl rfl (by simp [hpc])
    dsimp only
    split <;> exact ⟨rfl, rfl, rfl, fun _ => .inl⟩
  | lockBusy hpc => exact .keep rfl (fun _ => id) rfl rfl (Client.reclaims_eq_nil (by simp [hpc]))
  | leafPrepare hpc => exact .plain Client.leafPrepare_plain rfl rfl (by simp [hpc])
  | @leafWrite site a hpc =>
    have hreq : c.requests (.alloc a) = [(a, leafSize n)] := by simp [Client.requests, hpc]
    refine ⟨fun l hl => .inr ?_, by simp [Client.nodesOwned], by simp, by simp, by simp, fun x hx => ?_⟩
    · cases hl
      simp [hreq]
    · by_cases hxa : x = a
      · exact .inr ⟨leafSize n, by simp [hreq, hxa]⟩
      · refine .inl ⟨?_, by simp [Client.reclaims_eq_nil (c := c) (m := m) (by simp [hpc])]⟩
        simpa [Mem.setLeaf, Mem.alloc, hxa] using hx
  | leafCasDone hpc _ _ hl =>
    have hre : c.reclaims m .go = [] := Client.reclaims_eq_nil (by simp [hpc])
    obtain ⟨pc, he, hpc'⟩ := leafCasDone_pc (c := c) c.target _
    rw [he]
    refine ⟨fun _ => .inl, fun a ha => ?_, fun a ha => ?_, by simp, by simp,
      fun a ha => .inl ⟨?_, by simp [hre]⟩⟩
    · obtain rfl | rfl | ⟨w, rfl⟩ := hpc' <;> cases ha
    · cases List.mem_singleton.mp ha
      exact hl
    · simpa using ha
  | leafCasFailed hpc => exact .plain Client.leafCasFailed_plain rfl rfl (by simp [hpc])
  | splitReuse hpc | splitFresh hpc =>
    exact splitPrepare_hands hpc (act_split hpc ▸ ha)
  | @splitWrite sp nodes unwrite pages hpc =>
    refine .keep rfl (fun a ha => ?_) rfl ?_ (Client.reclaims_eq_nil (by simp [hpc]))
    · simpa [Client.nodesOwned, hpc] using ha
    · cases unwrite
      · exact m.writePages_live pages
      · exact m.writePages_live pages
  | @splitCasDone sp nodes hpc hq hp =>
    have hre : c.reclaims m .go = [] := by simp [Client.reclaims, hpc, hp]
    have hk := h.knows
    simp only [Client.Knows, hpc] at hk
    obtain ⟨⟨hn, -⟩, σ, hsp⟩ := hk
    obtain ⟨l, hl⟩ := hn.leaf
    obtain ⟨pages, hpg, hfst, -⟩ := hsp.pages hn
    have hnode : ∀ a π, (a, .node π) ∈ (c.leafAddr.getD 0, Obj.leaf) ::
        ((c.pages sp nodes).getD []).map (fun q => (q.1, .node (cachePath c.key q.2.hdr))) →
        a ∈ c.nodesOwned := by
      intro a π ha
      simp only [hpg, Option.getD_some, List.mem_cons, Prod.mk.injEq, reduceCtorEq, and_false,
        List.mem_map, Obj.node.injEq, false_or] at ha
      obtain ⟨q, hq, rfl, -⟩ := ha
      simp only [Client.nodesOwned, hpc, ← hfst]
      exact List.mem_map_of_mem hq
    refine ⟨fun _ => .inl, by simp [Client.nodesOwned], fun a ha => ?_,
      fun a π ha => ⟨hnode a π ha, hre⟩, fun a π ha => ?_, fun a ha => .inl ⟨?_, by simp [hre]⟩⟩
    · simp [hpg, hl] at ha
      rw [ha, hl]
    · -- the slot that is replaced is published, the new nodes are not
      have hfresh := (h.fresh a (List.mem_append_right _ (hnode a π ha))).1
      funext i
      refine m.load_store_ne _ (q := .slot a i) fun he => ?_
      have hslot := hsp.located.slot
      rw [← he] at hslot
      cases hslot with | slot hx _ => rw [hx] at hfresh; cases hfresh
    · simpa using ha
  | @splitCasFailed sp nodes hpc hq hp =>
    refine ⟨fun _ => .inl, by simp [Client.nodesOwned], by simp, by simp, by simp, fun a ha => .inl ?_⟩
    simpa [Mem.free, Client.reclaims, hpc, hp, and_comm] using ha
  | splitRev hpc => exact .plain Client.splitRev_plain rfl rfl (by simp [hpc])
  | typeRead hpc => exact .plain Client.typeRead_plain rfl rfl (by simp [hpc])
  | nodeRead hpc =>
    rw [Client.nodeRead_eq]
    exact .plain Client.nodeRead_plain rfl rfl (by simp [hpc])
  | scan hpc => exact .plain Client.scan_plain rfl rfl (by simp [hpc])
  | emptyScan hpc => exact .plain Client.emptyScan_plain rfl rfl (by simp [hpc])
  | splitHdr hpc =>
    exact .keep rfl (by simp [Client.nodesOwned, Client.splitHdr]) rfl rfl
      (Client.reclaims_eq_nil (by simp [hpc]))
  | switchEntry hpc =>
    exact .plain ⟨rfl, rfl, rfl, fun _ => .inl⟩ rfl Switch.casEntry_live (by simp [hpc])
  | switchHdr hpc =>
    refine .plain ⟨rfl, rfl, ?_, fun _ => .inl⟩ rfl Switch.casHdr_live (by simp [hpc])
    unfold Switch.afterCas
    split <;> rfl
  | switchDown hpc => exact .plain ⟨rfl, rfl, Switch.down_nodes, fun _ => .inl⟩ rfl rfl (by simp [hpc])
  | switchEnd hpc => exact .plain ⟨rfl, rfl, Switch.close_nodes, fun _ => .inl⟩ rfl rfl (by simp [hpc])
  | flush hq =>
    refine .keep rfl (fun _ => id) rfl (m.perform_live _) ?_
    unfold Client.reclaims
    split <;> simp_all
  | leafWord hpc | reread hpc | lockTaken hpc | writeFault hpc | combineWrite hpc | written hpc
  | writeWord hpc | splitFault hpc | nodeWord hpc | restRead hpc | restWord hpc
  | finish hpc =>
    exact .plain ⟨rfl, rfl, rfl, fun _ => .inl⟩ rfl rfl (by simp [hpc])

theorem publish_cases {ps : List (Addr × Obj)} {a : Addr} {o : Obj} (h : L.publish ps a = some o) :
    L a = some o ∨ (a, o) ∈ ps := by
  induction ps with
  | nil => exact .inl h
  | cons p ps ih =>
    rw [Layout.publish, List.foldr_cons, Function.update_apply] at h
    split at h
    · cases h
      subst ‹a = p.1›
      exact .inr List.mem_cons_self
    · exact (ih h).imp_right (List.mem_cons_of_mem p)

namespace World
variable {ι : Type*} [DecidableEq ι] [Fintype ι] {s t : World ι n} {i : ι} {ch : Choice n}

/-- A step of client `i`, or the beginning of an operation. -/
structure Moves (s : World ι n) (i : ι) (ch : Choice n) (mv : Move n) : Prop where
  outcome : Outcome s.layout s.mem (s.client i) mv
  hands : Hands s.mem (s.client i) ch mv
  uses : ∀ leaf, (∀ a, s.layout a = some .leaf → leaf a) → (s.client i).Uses s.layout leaf →
    (∀ l, mv.client.leafAddr = some l → (s.client i).leafAddr = some l ∨ leaf l) →
    mv.client.Uses s.layout leaf ∧
      ∀ r ∈ (s.client i).writes ch, r.Lies n s.layout leaf (s.client i).drafts

omit [DecidableEq ι] in
theorem start_moves (h : Safe s) {isSearch isLoad : Bool} {k : Key n} {v : Value} {hit : Option ℕ}
    {c' : Client n} (hpc : (s.client i).pc = .idle)
    (hb : Begins s.log (s.opening i isSearch k v isLoad) hit c') :
    Moves s i (.begin isSearch k v isLoad hit) { mem := s.mem, client := c' } where
  outcome := h.start hb
  hands := by
    have hre : (s.client i).reclaims s.mem (.begin isSearch k v isLoad hit) = [] :=
      Client.reclaims_eq_nil (by simp [hpc])
    cases hb <;> refine ⟨by rintro _ ⟨⟩, by simp [Client.nodesOwned], by simp, by simp, by simp,
      fun a ha => .inl ⟨ha, by simp [hre]⟩⟩
  uses leaf _ hu hnew := by
    have hpend : c'.pending = (s.client i).pending := by cases hb <;> rfl
    have hdue : c'.dueOps = [] := by cases hb <;> rfl
    refine ⟨hu.move hnew hdue (hpend ▸ fun _ => .inl), ?_⟩
    simp [Client.writes, hpc]

theorem next_moves (h : Safe s) (hn : s.next crc (i, ch) = some t) :
    ∃ mv, t = s.put i mv ∧ Moves s i ch mv := by
  unfold next at hn
  dsimp only at hn
  split at hn
  · obtain ⟨c', hc, rfl⟩ := Option.map_eq_some_iff.mp hn
    exact ⟨_, rfl, start_moves h ‹_› (start_begins hc)⟩
  · cases hn
  · obtain ⟨mv, hact, rfl⟩ := Option.map_eq_some_iff.mp hn
    have hs := act_step hact
    exact ⟨mv, rfl, step_outcome h.tree (h.client i) hs, act_hands (h.client i) hact,
      fun leaf hleaf hu hnew => ⟨step_uses hleaf (h.client i) hu hs hnew,
        writes_lie hleaf h.tree (h.client i) hu hs hnew⟩⟩

end World
end SmartTree
