import SmartTree.Tree.Local

/-! What one step of a client leaves behind: the tree stays in order, nothing others may
know becomes false, blocks of others stay as they are, and the client again knows what its
new program point asks for. -/
namespace SmartTree
variable {n : ℕ} {L : Layout} {m m' : Mem n} {c c' : Client n} {crc : Key n → Value → UInt64}

structure Outcome (L : Layout) (m : Mem n) (c : Client n) (mv : Move n) : Prop where
  tree : TreeInv (L.publish mv.published) mv.mem
  ext : Extends L m (L.publish mv.published) mv.mem
  client : Local (L.publish mv.published) mv.mem mv.client
  log : ∀ q ∈ mv.added, LogOk (L.publish mv.published) mv.mem q
  frame : ∀ a, L a = none → m.live a = true → a ∉ c.owned →
    SameAt m mv.mem a ∧ L.publish mv.published a = none
  owned : ∀ a ∈ mv.client.owned, a ∈ c.owned ∨ m.live a = false

theorem Outcome.quiet (ht : TreeInv L m) (h : Local L m c) {added : List (List UInt8 × CacheEntry)}
    {ret : Option (Key n)} (hk : c'.Knows L m) (hop : ∀ op ∈ c'.pending, OpOk L m op)
    (hkey : c'.key = c.key) (hown : c'.leafOwned = c.leafOwned ∨ c'.leafOwned = none)
    (hnodes : c'.nodesOwned = []) (hpc : ∀ sp nodes u, c.pc ≠ .splitWrite sp nodes u)
    (hlog : ∀ q ∈ added, LogOk L m q) :
    Outcome L m c { mem := m, client := c', added := added, returned := ret } where
  tree := ht
  ext := .refl L m
  client := h.move hk hop hkey hown hnodes hpc
  log := hlog
  frame a ha _ _ := ⟨.refl m a, ha⟩
  owned a ha := by
    rw [Client.owned, hnodes, List.append_nil] at ha
    rcases hown with ho | ho
    · rw [ho] at ha
      exact .inl (List.mem_append_left _ ha)
    · rw [ho] at ha; cases ha

/-- A step that changes published blocks only, in ways the tree does not depend on. -/
theorem Outcome.touch (ht : TreeInv L m) (h : Local L m c) (hs : SameSlots L m m')
    (hh : ∀ a π, L a = some (.node π) → HdrPath π (m'.node a).hdr ∧
      (m'.node a).hdr.type ≠ .deleted ∧ Attached L m a (m'.node a).hdr.depth)
    (hf : ∀ a, L a = none → SameAt m m' a) (hk : c'.Knows L m)
    (hop : ∀ op ∈ c'.pending, OpOk L m op) (hkey : c'.key = c.key)
    (hown : c'.leafOwned = c.leafOwned ∨ c'.leafOwned = none)
    (hnodes : c'.nodesOwned = []) (hpc : ∀ sp nodes u, c.pc ≠ .splitWrite sp nodes u) :
    Outcome L m c { mem := m', client := c' } where
  tree := hs.treeInv ht hh
  ext := hs.toExtends
  client := by
    have hl := h.move hk hop hkey hown hnodes hpc
    exact hl.mono hs.toExtends fun a ha => ⟨hf a (hl.fresh a ha).1, (hl.fresh a ha).1⟩
  log := by simp
  frame a ha _ _ := ⟨hf a ha, ha⟩
  owned := by
    have ho : Outcome L m c { mem := m, client := c' } :=
      .quiet ht h hk hop hkey hown hnodes hpc (by simp)
    exact ho.owned

section leafWrites

theorem SameSlots.setLeaf {l : Addr} {f : Leaf n → Leaf n}
    (hk : (f (m.leaf l)).key = (m.leaf l).key) (hv : (f (m.leaf l)).valid = (m.leaf l).valid) :
    SameSlots L m (m.setLeaf l f) where
  load ptr _ := by cases ptr <;> exact .refl _
  key x _ := by
    by_cases hx : x = l
    · subst hx; simpa [Mem.setLeaf] using hk
    · simp [Mem.setLeaf, hx]
  valid x _ := by
    by_cases hx : x = l
    · subst hx; simpa [Mem.setLeaf] using hv
    · simp [Mem.setLeaf, hx]
  live _ _ := rfl
  tail _ _ _ _ := rfl

theorem SameAt.setLeaf {l a : Addr} {f : Leaf n → Leaf n} (hne : a ≠ l) :
    SameAt m (m.setLeaf l f) a :=
  ⟨rfl, rfl, by simp [Mem.setLeaf, hne], by simp [Mem.setLeaf, hne], rfl⟩

theorem hdrs_same (ht : TreeInv L m) (hh : ∀ a, (m'.node a).hdr = (m.node a).hdr) :
    ∀ a π, L a = some (.node π) → HdrPath π (m'.node a).hdr ∧
      (m'.node a).hdr.type ≠ .deleted ∧ Attached L m a (m'.node a).hdr.depth := by
  intro a π ha
  rw [hh]
  exact ⟨(ht.node a π ha).hdr, (ht.node a π ha).type, ht.attached a π ha⟩

theorem lockTaken_outcome (ht : TreeInv L m) (h : Local L m c) (hpc : c.pc = .acquireLock) :
    Outcome L m c { mem := m.setLeaf c.target fun l => { l with lock := true }
                    client := { c with pc := .combineWrite } } := by
  have hk := h.knows
  simp only [Client.Knows, hpc] at hk
  obtain ⟨hkey, b, l, hp, hl, hb⟩ := hk
  have hta : c.target = l := by simp [Client.target, hp]
  refine .touch ht h (.setLeaf rfl rfl) (hdrs_same ht fun _ => rfl) ?_ ⟨hkey, b, l, hp, hl, hb⟩ h.ops
    rfl ?_ rfl (by simp [hpc])
  · intro a ha
    exact .setLeaf (by rintro rfl; rw [hta, hl] at ha; cases ha)
  · simp [Client.leafOwned, hpc]

theorem writeWord_outcome (ht : TreeInv L m) (h : Local L m c) {w : LeafWord}
    {todo : List LeafWord} (hpc : c.pc = .writeBack (w :: todo)) :
    Outcome L m c { mem := m.setLeaf c.target (c.leaf.copy w)
                    client := { c with pc := .writeBack todo } } := by
  have hk := h.knows
  simp only [Client.Knows, hpc] at hk
  obtain ⟨hkey, b, l, hp, hl, hb⟩ := hk
  have hta : c.target = l := by simp [Client.target, hp]
  refine .touch ht h (.setLeaf ?_ ?_) (hdrs_same ht fun _ => rfl) ?_ ⟨hkey, b, l, hp, hl, hb⟩ h.ops
    rfl ?_ rfl (by simp [hpc])
  · rw [hta]
    cases w <;> first | rfl | exact hb.key (by simp)
  · rw [hta]
    cases w <;> first | rfl | exact (hb.valid (by simp)).trans (ht.valid l hl).symm
  · intro a ha
    exact .setLeaf (by rintro rfl; rw [hta, hl] at ha; cases ha)
  · simp [Client.leafOwned, hpc]

end leafWrites

section pending

/-- Operations nobody waits for change reverse pointers, or move a header down to where its
node already hangs. -/
theorem flush_outcome (ht : TreeInv L m) (h : Local L m c) {op : RemoteOp} {ops : List RemoteOp}
    (hq : c.pending = op :: ops) :
    Outcome L m c { mem := m.perform op, client := { c with pending := ops } } := by
  have hop : OpOk L m op := h.ops op (by simp [hq])
  have hs : SameSlots L m (m.perform op) :=
    ⟨fun _ _ => by simpa using .refl _, fun _ _ => by simp, fun _ _ => by simp, fun _ _ => by simp,
      fun _ _ _ _ => by simp⟩
  have hh : ∀ a π, L a = some (.node π) → HdrPath π ((m.perform op).node a).hdr ∧
      ((m.perform op).node a).hdr.type ≠ .deleted ∧
        Attached L m a ((m.perform op).node a).hdr.depth := by
    intro a π ha
    have hold := hdrs_same ht (fun _ => rfl) a π ha
    rcases m.perform_hdr a op with he | ⟨e, new, rfl, he⟩
    · rwa [he]
    · obtain ⟨π', ha', hp, hat⟩ := hop
      cases ha.symm.trans ha'
      rw [he, Header.casSplit]
      split
      · exact ⟨⟨hp.pos, hp.le, hp.partials⟩, hold.2.1, hat⟩
      · exact hold
  have hf : ∀ a, L a = none → SameAt m (m.perform op) a := by
    intro a ha
    refine ⟨?_, by simp, by simp, by simp, by simp⟩
    rcases m.perform_hdr a op with he | ⟨e, new, rfl, -⟩
    · exact he
    · obtain ⟨π, ha', -⟩ := hop
      rw [ha'] at ha
      cases ha
  refine ⟨hs.treeInv ht hh, hs.toExtends, ?_, by simp, fun a ha _ _ => ⟨hf a ha, ha⟩, fun a ha => .inl ha⟩
  have hl : Local L m { c with pending := ops } :=
    ⟨h.knows.pending ops, h.kept, fun o ho => h.ops o (by simp [hq, ho]), h.fresh, h.nodup⟩
  exact hl.mono hs.toExtends fun a ha => ⟨hf a (h.fresh a ha).1, (h.fresh a ha).1⟩

end pending
end SmartTree
