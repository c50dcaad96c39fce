import SmartTree.Tree.Raise
import SmartTree.Tree.Reverse
import SmartTree.Tree.Route

/-! Node types over whole runs: a type that a header or an entry declares, and a type that a
filled slot asks for, is on both sides or a client is about to put it there. At rest the header
and the entry of a node agree, and all filled slots are declared. -/
namespace SmartTree
open Transition
variable {n : ℕ} {crc : Key n → Value → UInt64}

namespace World
variable {ι : Type*}

/-- Header and entry of the node declare this type, or a client sees to it. -/
def Raised (s : World ι n) (a : Addr) (t : NodeType) : Prop :=
  t.code ≤ (s.mem.node a).hdr.type.code ∧ Declared s.layout s.mem a t ∨
    ∃ i, (s.client i).pc.raises a t

structure Levelled (s : World ι n) : Prop where
  recalling : Recalling s
  slot : ∀ a π i, s.layout a = some (.node π) → s.mem.load (.slot a i) ≠ .null →
    ∃ t, i < t.num ∧ s.Raised a t
  entry : ∀ ptr σ b t a, SlotPath s.layout s.mem ptr σ → s.mem.load ptr = .node b t a →
    s.Raised a t
  hdr : ∀ a π, s.layout a = some (.node π) → s.Raised a (s.mem.node a).hdr.type

theorem Initial.levelled {s : World ι n} (h : Initial s) : Levelled s where
  recalling := h.recalling
  slot a π i ha := by simp [h.layout] at ha
  entry ptr σ b t a hs hl := by
    cases hs with
    | root => rw [show s.mem.load .root = .null from h.root] at hl; cases hl
    | slot ha => simp [h.layout] at ha
  hdr a π ha := by simp [h.layout] at ha

variable [DecidableEq ι]

section step
variable {s : World ι n} {i : ι} {mv : Move n} (h : Levelled s)
  (hup : ∀ x u, s.Raised x u → (s.put i mv).Raised x u)

theorem raised_self {x : Addr} {u : NodeType} (hr : mv.client.pc.raises x u) :
    (s.put i mv).Raised x u := .inr ⟨i, by rwa [put_client_self]⟩

structure LevelKept (s : World ι n) (i : ι) (mv : Move n) : Prop where
  slot : ∀ a π j, s.layout.publish mv.published a = some (.node π) →
    mv.mem.load (.slot a j) ≠ .null → ∃ t, j < t.num ∧ (s.put i mv).Raised a t
  entry : ∀ ptr σ b t a, SlotPath (s.layout.publish mv.published) mv.mem ptr σ →
    mv.mem.load ptr = .node b t a → (s.put i mv).Raised a t
  hdr : ∀ a π, s.layout.publish mv.published a = some (.node π) →
    (s.put i mv).Raised a (mv.mem.node a).hdr.type

include h hup

theorem Levelled.quiet (hp : mv.published = [])
    (hl : ∀ ptr, HasSlot s.layout ptr → mv.mem.load ptr = s.mem.load ptr)
    (ht : ∀ a, s.layout a ≠ none → (mv.mem.node a).hdr.type = (s.mem.node a).hdr.type) :
    LevelKept s i mv := by
  have hpub : s.layout.publish mv.published = s.layout := by rw [hp]; rfl
  refine ⟨fun a π j ha hj => ?_, fun ptr σ b t a hs hload => ?_, fun a π ha => ?_⟩
  · rw [hpub] at ha
    rw [hl _ (by simp [HasSlot, ha])] at hj
    obtain ⟨t, h1, h2⟩ := h.slot a π j ha hj
    exact ⟨t, h1, hup _ _ h2⟩
  · rw [hpub] at hs
    have hs' := hs.of_load hl
    rw [hl _ hs.hasSlot] at hload
    exact hup _ _ (h.entry ptr σ b t a hs' hload)
  · rw [hpub] at ha
    rw [ht a (by simp [ha])]
    exact hup _ _ (h.hdr a π ha)

omit hup in
theorem Levelled.leaf {site : Site} {b : UInt8} {l : Addr}
    (hpc : (s.client i).pc = .leafCas site) (hb : (s.client i).siteByte site = some b)
    (hl : (s.client i).leafAddr = some l)
    (hn : s.mem.load ((s.client i).sitePtr (s.client i).target site) = .null)
    (hmv : mv = { mem := s.mem.store (.leaf b l) ((s.client i).sitePtr (s.client i).target site)
                  client := (s.client i).leafCasDone (s.client i).target site
                  published := [(l, .leaf)] })
    (hup : ∀ x u, s.Raised x u → (s.put i mv).Raised x u) : LevelKept s i mv := by
  have hloc := h.recalling.safe.client i
  have htree := h.recalling.safe.tree
  have hk := hloc.knows
  have hr := h.recalling.client i
  simp only [Client.Knows, hpc] at hk
  simp only [Client.Recalls, hpc] at hr
  obtain ⟨σ, hv, -⟩ := hk.vacant htree hb hn
  have hL := (hloc.fresh l (by simp [Client.owned, Client.leafOwned, hpc, hl])).1
  subst hmv
  refine ⟨fun a π j ha hj => ?_, fun ptr τ b' t a hs hload => ?_, fun a π ha => ?_⟩
  · have ha' := publish_leaf_node hL ha
    by_cases hp : Ptr.slot a j = (s.client i).sitePtr (s.client i).target site
    · cases hk with
      | null hσ hnull =>
        rw [Client.sitePtr, (hσ.null hnull).1] at hp
        cases hp
      | @empty a' π' j' hi hm htried hlt =>
        rw [Client.sitePtr, hi.target] at hp
        cases hp
        obtain ⟨b₁, hp₁⟩ := hi.entry
        have hcode := (hr.1.2 a (by rw [hp₁]; rfl)).2
        exact ⟨_, lt_of_lt_of_le hlt (NodeType.num_mono hcode), hup _ _ (h.hdr a π ha')⟩
      | @behind a' π' j' hi htried h0 hlt =>
        rw [Client.sitePtr, hi.target] at hp
        cases hp
        obtain ⟨t, h1, -, h3⟩ := numToNodeType_spec h0 hlt
        refine ⟨t, h3, raised_self ?_⟩
        rw [Client.leafCasDone, h1, hi.target]
        exact ⟨rfl, le_rfl⟩
    · rw [Mem.load_store_ne _ _ hp] at hj
      obtain ⟨t, h1, h2⟩ := h.slot a π j ha' hj
      exact ⟨t, h1, hup _ _ h2⟩
  · obtain ⟨rfl, -⟩ | ⟨hne, hs'⟩ := publishLeaf_slotPath hv hL hs
    · rw [Mem.load_store_self] at hload
      cases hload
    · rw [Mem.load_store_ne _ _ hne] at hload
      exact hup _ _ (h.entry ptr τ b' t a hs' hload)
  · rw [Mem.store_hdr]
    exact hup _ _ (h.hdr a π (publish_leaf_node hL ha))

omit hup in
theorem Levelled.split {sp : Split} {nodes : List Addr}
    (hpc : (s.client i).pc = .splitCas sp nodes)
    (hp : s.mem.load (s.client i).pPtr = (s.client i).p) {c' : Client n}
    (ht' : TreeInv (s.layout.publish (((s.client i).leafAddr.getD 0, .leaf) ::
        (((s.client i).pages sp nodes).getD []).map fun q =>
          (q.1, .node (cachePath (s.client i).key q.2.hdr))))
      (s.mem.store (.node (s.client i).p.partialKey .node4 (nodes.headD 0)) (s.client i).pPtr))
    (hmv : mv = { mem := s.mem.store (.node (s.client i).p.partialKey .node4 (nodes.headD 0))
                    (s.client i).pPtr
                  client := c'
                  published := ((s.client i).leafAddr.getD 0, .leaf) ::
                    (((s.client i).pages sp nodes).getD []).map fun q =>
                      (q.1, .node (cachePath (s.client i).key q.2.hdr)) })
    (hup : ∀ x u, s.Raised x u → (s.put i mv).Raised x u) : LevelKept s i mv := by
  have hloc := h.recalling.safe.client i
  have htree := h.recalling.safe.tree
  have hk := hloc.knows
  simp only [Client.Knows, hpc] at hk
  obtain ⟨-, σ, hsp⟩ := hk
  obtain ⟨l, pages, hl, hpg, hfst, g⟩ := hsp.graft hloc hpc hp
  have hpub : ((s.client i).leafAddr.getD 0, .leaf) ::
      (((s.client i).pages sp nodes).getD []).map (fun q =>
        (q.1, .node (cachePath (s.client i).key q.2.hdr))) =
        grafted (s.client i).key l pages := by rw [hl, hpg]; rfl
  rw [hpub] at ht' hmv
  have hcases := fun {p τ b t x} => g.entry_cases (p := p) (τ := τ) (x := x) (t := t)
    (a := nodes.headD 0) (by rw [hfst]) (congrArg Entry.partialKey hp) (e := b)
  -- a new node has the smallest type on both sides
  have hnew : ∀ q ∈ pages, (s.put i mv).Raised q.1 .node4 := by
    intro q hq
    obtain ⟨d, j, -, -, hh, -⟩ := g.chain.page hq
    obtain ⟨p, τ, b, t, hs, hload, -⟩ := ht'.node_slot (g.layout_page hq)
    left
    subst hmv
    refine ⟨?_, p, τ, b, t, hs, hload, ?_⟩
    · change _ ≤ ((s.mem.store _ _).node q.1).hdr.type.code
      rw [Mem.store_hdr, (g.written q hq).1, hh]
    · obtain ⟨p', τ', b', hs', hl'⟩ | ⟨-, rfl⟩ := hcases hs hload
      · exact absurd (g.page_fresh hq) ((htree.entry hs').addr_published (by rw [hl']; rfl))
      · exact le_rfl
  subst hmv
  refine ⟨fun a π j ha hj => ?_, fun ptr τ b' t a hs hload => ?_, fun a π ha => ?_⟩
  · obtain ha' | ⟨-, hleaf⟩ | ⟨q, hq, rfl, -⟩ := g.layout_cases ha
    · have hj' : s.mem.load (.slot a j) ≠ .null := by
        by_cases hpp : Ptr.slot a j = (s.client i).pPtr
        · rw [hpp]
          exact g.full
        · rwa [Mem.load_store_ne _ _ hpp] at hj
      obtain ⟨t, h1, h2⟩ := h.slot a π j ha' hj'
      exact ⟨t, h1, hup _ _ h2⟩
    · cases hleaf
    · rw [g.load_page hq] at hj
      have hj2 : j < 2 := by
        by_contra hge
        exact hj (g.chain.slots_null hq (by omega))
      exact ⟨.node4, by rw [show NodeType.node4.num = 4 from rfl]; omega, hnew q hq⟩
  · obtain ⟨p', τ', b₁, hs', hl'⟩ | ⟨⟨q, hq, rfl⟩, rfl⟩ := hcases hs hload
    · exact hup _ _ (h.entry p' τ' b₁ t a hs' hl')
    · exact hnew q hq
  · rw [Mem.store_hdr]
    obtain ha' | ⟨-, hleaf⟩ | ⟨q, hq, rfl, -⟩ := g.layout_cases ha
    · exact hup _ _ (h.hdr a π ha')
    · cases hleaf
    · obtain ⟨d, j, -, -, hh, -⟩ := g.chain.page hq
      rw [(g.written q hq).1, hh]
      exact hnew q hq

theorem Levelled.switchEntry {w : Switch} (hpc : (s.client i).pc = .switchEntry w)
    (hmem : mv.mem = (w.casEntry s.mem).1) (hp : mv.published = [])
    (hraise : mv.client.pc.raises w.node w.next) : LevelKept s i mv := by
  have hr := h.recalling.client i
  simp only [Client.Recalls, hpc] at hr
  obtain ⟨-, hc⟩ | ⟨-, hcur, hc⟩ | ⟨-, -, hc⟩ := w.casEntry_cases s.mem
  · rw [hc] at hmem
    exact h.quiet hup hp (fun _ _ => by rw [hmem]) fun _ _ => by rw [hmem]
  · rw [hc] at hmem
    have hpub : s.layout.publish mv.published = s.layout := by rw [hp]; rfl
    have halike : ∀ p, (s.mem.load p).Alike (mv.mem.load p) := by
      intro p
      rw [hmem, Mem.load_store]
      split
      · rename_i he
        rw [he, hcur]
        exact .withType _ _
      · exact .refl _
    refine ⟨fun a π j ha hj => ?_, fun ptr τ b t a hs hload => ?_, fun a π ha => ?_⟩
    · rw [hpub] at ha
      obtain ⟨t, h1, h2⟩ := h.slot a π j ha fun hn => hj ((halike _).null_iff.mpr hn)
      exact ⟨t, h1, hup _ _ h2⟩
    · by_cases he : ptr = w.ptr
      · rw [hmem, he, Mem.load_store_self] at hload
        have ha := hr.2.addr
        cases hwp : w.p with
        | null => rw [hwp] at hload; cases hload
        | leaf => rw [hwp] at hload; cases hload
        | node b₁ t₁ x =>
          rw [hwp] at hload ha
          cases hload
          cases ha
          exact raised_self hraise
      · rw [hpub] at hs
        rw [hmem, Mem.load_store_ne _ _ he] at hload
        have hs' : SlotPath s.layout s.mem ptr τ := by
          cases hs with
          | root => exact .root
          | slot ha hne =>
            rw [(halike _).partialKey_eq]
            exact .slot ha fun hn => hne ((halike _).null_iff.mpr hn)
        exact hup _ _ (h.entry ptr τ b t a hs' hload)
    · rw [hpub] at ha
      rw [hmem, Mem.store_hdr]
      exact hup _ _ (h.hdr a π ha)
  · rw [hc] at hmem
    exact h.quiet hup hp (fun _ _ => by rw [hmem]) fun _ _ => by rw [hmem]

theorem Levelled.switchHdr {w : Switch} (hmem : mv.mem = (w.casHdr s.mem).1)
    (hp : mv.published = []) (hraise : mv.client.pc.raises w.node w.next) : LevelKept s i mv := by
  obtain ⟨-, hc⟩ | ⟨-, d, -, hc⟩ := w.casHdr_cases s.mem
  · rw [hc] at hmem
    exact h.quiet hup hp (fun _ _ => by rw [hmem]) fun _ _ => by rw [hmem]
  · rw [hc] at hmem
    have hpub : s.layout.publish mv.published = s.layout := by rw [hp]; rfl
    have hload : ∀ p, mv.mem.load p = s.mem.load p := fun p => by
      rw [hmem]
      exact Mem.load_setNode_hdr _ _ _ p
    refine ⟨fun a π j ha hj => ?_, fun ptr τ b t a hs hl => ?_, fun a π ha => ?_⟩
    · rw [hpub] at ha
      rw [hload] at hj
      obtain ⟨t, h1, h2⟩ := h.slot a π j ha hj
      exact ⟨t, h1, hup _ _ h2⟩
    · rw [hpub] at hs
      rw [hload] at hl
      exact hup _ _ (h.entry ptr τ b t a (hs.of_load fun p _ => hload p) hl)
    · rw [hpub] at ha
      by_cases haw : a = w.node
      · subst haw
        rw [hmem, Mem.setNode_self, Header.casType]
        split
        · exact raised_self hraise
        · exact hup _ _ (h.hdr _ π ha)
      · rw [hmem, Mem.setNode_ne _ _ haw]
        exact hup _ _ (h.hdr a π ha)

end step

variable [Fintype ι]

theorem Raised.takes {s t : World ι n} {a : ι × Choice n} {x : Addr} {u : NodeType}
    (h : Recalling s) (ht : Takes crc s a t) (hr : s.Raised x u) : t.Raised x u := by
  obtain ⟨-, hg⟩ := h.takes ht
  obtain ⟨hsafe, hx⟩ := h.safe.takes ht
  have hdone : u.code ≤ (s.mem.node x).hdr.type.code ∧ Declared s.layout s.mem x u →
      t.Raised x u := fun ⟨hle, hd⟩ =>
    .inl ⟨hle.trans (hg.hdr x (hd.published h.safe.tree)), hd.mono hx hg hsafe.tree⟩
  obtain hr | ⟨j, hj⟩ := hr
  · exact hdone hr
  · cases ht with
    | @start i isSearch k v isLoad hit c' hpc hb =>
      refine .inr ⟨j, ?_⟩
      by_cases hji : j = i
      · subst hji
        rw [hpc] at hj
        exact hj.elim
      · rwa [put_client_ne _ _ hji]
    | @step i ch mv hs =>
      by_cases hji : j = i
      · subst hji
        obtain hj | hd := step_raises (h.client j) hs hj
        · exact .inr ⟨j, by rwa [put_client_self]⟩
        · exact hdone hd
      · exact .inr ⟨j, by rwa [put_client_ne _ _ hji]⟩

theorem Levelled.takes {s t : World ι n} {a : ι × Choice n} (h : Levelled s)
    (ht : Takes crc s a t) : Levelled t := by
  have hrec := (h.recalling.takes ht).1
  have hup : ∀ x u, s.Raised x u → t.Raised x u := fun x u hr => hr.takes h.recalling ht
  cases ht with
  | start => exact ⟨hrec, fun a π j ha hj => (h.slot a π j ha hj).imp fun _ hr => ⟨hr.1, hup _ _ hr.2⟩,
      fun ptr σ b u a hs hl => hup _ _ (h.entry ptr σ b u a hs hl),
      fun a π ha => hup _ _ (h.hdr a π ha)⟩
  | @step i ch mv hs =>
    have hloc := h.recalling.safe.client i
    have hraises := fun {a u} => step_raises (h.recalling.client i) (a := a) (t := u) hs
    suffices hk : LevelKept s i mv from ⟨hrec, hk.slot, hk.entry, hk.hdr⟩
    cases step_touches hloc hs with
    | quiet hp hl ht => exact h.quiet hup hp hl ht
    | leaf hpc hb hl hn => exact h.leaf hpc hb hl hn rfl hup
    | split hpc hp => exact h.split hpc hp hrec.safe.tree rfl hup
    | @entry w hpc =>
      refine h.switchEntry hup hpc rfl rfl ?_
      obtain ⟨-, he⟩ | ⟨-, -, he⟩ | ⟨-, -, he⟩ := w.casEntry_cases s.mem <;>
        (rw [he]; exact ⟨rfl, le_rfl⟩)
    | @header w hpc =>
      refine h.switchHdr hup rfl rfl ?_
      obtain ⟨-, he⟩ | ⟨-, d, -, he⟩ := w.casHdr_cases s.mem <;>
        (rw [he, Switch.afterCas]; split <;> exact ⟨rfl, le_rfl⟩)

theorem levelled_of_reachable {s : World ι n} (h : (treeSystem ι crc).Reachable s) : Levelled s :=
  h.invariant (P := Levelled) (fun _ hi => Initial.levelled hi)
    fun _ _ _ _ ih _ hn => ih.takes (next_takes hn)

/-- A tree nobody is working on: entries and headers declare the same type, and every filled slot
is a declared one. -/
structure Resting (L : Layout) (m : Mem n) : Prop where
  tree : TreeInv L m
  slot : ∀ a π i, L a = some (.node π) → m.load (.slot a i) ≠ .null →
    i < (m.node a).hdr.type.num
  type : ∀ ptr σ b t a, SlotPath L m ptr σ → m.load ptr = .node b t a →
    t = (m.node a).hdr.type

theorem resting_of_reachable {s : World ι n} (h : (treeSystem ι crc).Reachable s)
    (hrest : s.AtRest) : Resting s.layout s.mem := by
  have hs := levelled_of_reachable h
  have htree := hs.recalling.safe.tree
  -- nobody is raising anything
  have hdone : ∀ {a t}, s.Raised a t → t.code ≤ (s.mem.node a).hdr.type.code ∧
      Declared s.layout s.mem a t := by
    intro a t hr
    obtain hr | ⟨i, hi⟩ := hr
    · exact hr
    · rw [Pc.isIdle_iff.mp (hrest.1 i)] at hi
      exact hi.elim
  refine ⟨htree, fun a π i ha hi => ?_, fun ptr σ b t a hp hl => ?_⟩
  · obtain ⟨t, hlt, hr⟩ := hs.slot a π i ha hi
    exact lt_of_lt_of_le hlt (NodeType.num_mono (hdone hr).1)
  · have hle := (hdone (hs.entry ptr σ b t a hp hl)).1
    have hok := htree.entry hp
    rw [hl] at hok
    cases hok with
    | node ha =>
      obtain ⟨p, τ, b', u, h1, h2, h3⟩ := (hdone (hs.hdr a _ ha)).2
      obtain rfl := htree.unique p ptr τ σ a h1 hp (by rw [h2]; rfl) (by rw [hl]; rfl)
      rw [hl] at h2
      cases h2
      exact NodeType.code_injective (le_antisymm hle h3)

end World
end SmartTree
