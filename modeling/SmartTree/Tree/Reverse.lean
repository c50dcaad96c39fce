import SmartTree.Tree.BackMove
import SmartTree.Tree.NodeGrowth

/-! Reverse pointers over whole runs: as long as they are written in order, they are accurate
whenever the system is at rest. -/
namespace SmartTree
open Transition
variable {n : ℕ} {L : Layout} {m : Mem n} {c : Client n} {crc : Key n → Value → UInt64}

/-- The slots of the tree: the root pointer, and those of the nodes its slots refer to. -/
inductive Mem.TreeSlot (m : Mem n) : Ptr → Prop
  | root : TreeSlot m .root
  | slot {p b t a i} (h : TreeSlot m p) (hl : m.load p = .node b t a) (hi : i < 256) :
    TreeSlot m (.slot a i)

/-- Every leaf and every node of the tree points back to the slot that refers to it. -/
def Mem.Accurate (m : Mem n) : Prop :=
  ∀ ptr x, m.TreeSlot ptr → (m.load ptr).block? = some x → m.back x = ptr

def RemoteOp.turns (x : Block) : RemoteOp → Bool
  | .casRevLeaf a _ _ => x = .leaf a
  | .casRevNode a _ _ => x = .node a
  | _ => false

theorem Pc.splits_iff {pc : Pc} : pc.splits = true ↔ ∃ sp nodes, pc = .splitCas sp nodes := by
  cases pc <;> simp [splits]

theorem Entry.exists_block {e : Entry} (h : e ≠ .null) : ∃ x, e.block? = some x := by
  cases e <;> simp_all [block?]

/-- The slots of the tree that hold something are those reached along bytes. -/
theorem Mem.TreeSlot.slotAt {ptr : Ptr} (h : m.TreeSlot ptr) (hne : m.load ptr ≠ .null) :
    ∃ σ, m.SlotAt ptr σ := by
  induction h with
  | root => exact ⟨[], .root⟩
  | slot _ hl _ ih =>
    obtain ⟨σ, hσ⟩ := ih (by rw [hl]; simp)
    exact ⟨_, .child hσ hl hne⟩

namespace World
variable {ι : Type*}

/-- Safety, what clients remember, and reverse pointers that are accurate or about to be. -/
structure Backed (s : World ι n) : Prop where
  recalling : Recalling s
  client : ∀ i, (s.client i).Backed s.layout s.mem
  owed : ∀ x ptr σ, Sits s.layout s.mem x ptr σ → s.mem.back x = ptr ∨
    ∃ i, x.casRev (s.mem.back x) ptr ∈ (s.client i).outstanding

theorem Backed.lags {s : World ι n} (h : Backed s) : Lags s.layout s.mem := by
  intro x ptr σ hs
  obtain he | ⟨i, hop⟩ := h.owed x ptr σ hs
  · exact .inl he
  · exact .inr (opBack_casRev ((h.client i).ops _ hop)).above

theorem Initial.backed {s : World ι n} (h : Initial s) : Backed s where
  recalling := h.recalling
  client i := by
    refine ⟨by simp [Client.Points, h.idle i], fun op hop => ?_, fun l r hw => ?_⟩
    · simp [Client.outstanding, Client.dueOps, h.idle i, h.pending i] at hop
    · simp [h.pending i] at hw
  owed x ptr σ hs := by
    have hl := hs.load
    cases hs.slot with
    | root => rw [show s.mem.load .root = .null from h.root] at hl; cases hl
    | slot ha => simp [h.layout] at ha

theorem Backed.owed_leaf {s : World ι n} {i : ι} {site : Site} {b : UInt8} {l : Addr}
    (h : Backed s) (hpc : (s.client i).pc = .leafCas site) (hq : (s.client i).pending = [])
    (hb : (s.client i).siteByte site = some b) (hl : (s.client i).leafAddr = some l)
    (hn : s.mem.load ((s.client i).sitePtr (s.client i).target site) = .null) {x : Block}
    {ptr : Ptr} {σ : List UInt8}
    (hsit : Sits (s.layout.publish [(l, .leaf)])
      (s.mem.store (.leaf b l) ((s.client i).sitePtr (s.client i).target site)) x ptr σ) :
    Sits s.layout s.mem x ptr σ ∨ s.mem.back x = ptr := by
  have hloc := h.recalling.safe.client i
  have hk := hloc.knows
  have hpt := (h.client i).points
  simp only [Client.Knows, hpc] at hk
  simp only [Client.Points, hpc, hq] at hpt
  obtain ⟨σ', hv, -⟩ := hk.vacant h.recalling.safe.tree hb hn
  have hL := (hloc.fresh l (by simp [Client.owned, Client.leafOwned, hpc, hl])).1
  have hload := hsit.load
  obtain ⟨rfl, -⟩ | ⟨hne, hsl⟩ := publishLeaf_slotPath hv hL hsit.slot
  · rw [Mem.load_store_self] at hload
    cases hload
    exact .inr (hpt l hl)
  · rw [Mem.load_store_ne _ _ hne] at hload
    exact .inl ⟨hsl, hload⟩

/-- The blocks a split publishes point back; the one it displaces is owed its new slot. -/
theorem Backed.owed_split {s : World ι n} {i : ι} {sp : Split} {nodes : List Addr} (h : Backed s)
    (hpc : (s.client i).pc = .splitCas sp nodes) (hp : s.mem.load (s.client i).pPtr = (s.client i).p)
    (hc : (s.client i).Careful s.mem .go) {x : Block} {ptr : Ptr} {σ : List UInt8}
    (hsit : Sits (s.layout.publish (((s.client i).leafAddr.getD 0, .leaf) ::
        (((s.client i).pages sp nodes).getD []).map fun q =>
          (q.1, .node (cachePath (s.client i).key q.2.hdr))))
      (s.mem.store (.node (s.client i).p.partialKey .node4 (nodes.headD 0)) (s.client i).pPtr)
        x ptr σ) :
    Sits s.layout s.mem x ptr σ ∨ s.mem.back x = ptr ∨
      x.casRev (s.mem.back x) ptr ∈ (s.client i).revOps nodes := by
  have hloc := h.recalling.safe.client i
  have hk := hloc.knows
  have hpt := (h.client i).points
  simp only [Client.Knows, hpc] at hk
  simp only [Client.Points, hpc] at hpt
  obtain ⟨-, σ', hsp⟩ := hk
  obtain ⟨l, pages, hl, hpg, hfst, g⟩ := hsp.graft hloc hpc hp
  have hpub : ((s.client i).leafAddr.getD 0, .leaf) ::
      (((s.client i).pages sp nodes).getD []).map (fun q =>
        (q.1, .node (cachePath (s.client i).key q.2.hdr))) =
        grafted (s.client i).key l pages := by rw [hl, hpg]; rfl
  rw [hpub] at hsit
  obtain ⟨hs, -⟩ | ⟨q, hq, rfl, hrev⟩ | ⟨rfl, rfl⟩ | ⟨hx, rfl⟩ :=
    g.sits_cases (by rw [hfst]) (by rw [hp]) (splitPages_revChain hpg) hsit
  · exact .inl hs
  · exact .inr (.inl ((hpt.2.2 pages hpg q hq).trans hrev))
  · exact .inr (.inl (hfst ▸ hpt.2.1 l hl))
  · right; right
    rw [hp] at hx
    have hback := hc.moved (by rw [hpc]; rfl) hp
    rw [hx] at hback
    exact Client.mem_revOps.mpr ⟨x, hx, by rw [Option.some.inj hback, hfst]⟩

variable [DecidableEq ι]

/-- A pending operation is carried out: the block it is about is then where it points to. -/
theorem Backed.owed_flush {s : World ι n} {i : ι} {op : RemoteOp} {ops : List RemoteOp}
    (h : Backed s) (hq : (s.client i).pending = op :: ops) {x : Block} {ptr : Ptr}
    {σ : List UInt8} (hs : Sits s.layout s.mem x ptr σ) :
    (s.mem.perform op).back x = ptr ∨ ∃ j, x.casRev ((s.mem.perform op).back x) ptr ∈
      (Function.update s.client i { s.client i with pending := ops } j).outstanding := by
  have htree := h.recalling.safe.tree
  have hmem : op ∈ (s.client i).outstanding := by simp [Client.outstanding, hq]
  obtain he | ⟨old, new, rfl, ho, hnew⟩ | ⟨l, r, rfl, rfl⟩ := s.mem.back_perform op x
  · rw [he]
    obtain hb | ⟨j, hj⟩ := h.owed x ptr σ hs
    · exact .inl hb
    · by_cases hji : j = i
      · subst hji
        rw [Client.outstanding, hq, List.cons_append] at hj
        obtain hj | hj := List.mem_cons.mp hj
        · -- the operation that was owed has just succeeded
          left
          rw [← he, ← hj]
          cases x <;> simp [Block.casRev, Mem.perform, Mem.back]
        · exact .inr ⟨j, by rw [Function.update_self]; exact hj⟩
      · exact .inr ⟨j, by rwa [Function.update_of_ne hji]⟩
  · left
    obtain ⟨-, -, ⟨τ, hτ⟩ | hlt⟩ := opBack_casRev ((h.client i).ops _ hmem)
    · exact hnew.trans (hτ.unique hs htree)
    · exact absurd (ho ▸ hlt) Higher.irrefl
  · have hown : l ∈ (s.client i).owned := (h.client i).owned (r := r) (by simp [hq])
    have hin : (Block.leaf l).In s.layout := hs.block_in htree
    exact absurd ((h.recalling.safe.client i).fresh l hown).1 hin.ne_none

theorem Backed.owed_keep {s : World ι n} {i : ι} {ch : Choice n} {mv : Move n} (h : Backed s)
    (hs : Step crc s.mem (s.client i) ch mv) (hch : ch ≠ .flush) {x : Block} {ptr : Ptr}
    {σ : List UInt8} (hsit : Sits s.layout s.mem x ptr σ) (hb : mv.mem.back x = s.mem.back x) :
    mv.mem.back x = ptr ∨
      ∃ j, x.casRev (mv.mem.back x) ptr ∈ ((s.put i mv).client j).outstanding := by
  rw [hb]
  obtain he | ⟨j, hj⟩ := h.owed x ptr σ hsit
  · exact .inl he
  · right
    refine ⟨j, ?_⟩
    by_cases hji : j = i
    · subst hji
      rw [put_client_self]
      exact step_outstanding hs hch hj
    · rwa [put_client_ne _ _ hji]

theorem Begins.silent {log : List (List UInt8 × CacheEntry)} {c c' : Client n} {hit : Option ℕ}
    (h : Begins log c hit c') : c'.pc.silent = true ∧ c'.pending = c.pending := by
  cases h <;> exact ⟨rfl, rfl⟩

theorem Backed.owed_step {s : World ι n} {i : ι} {ch : Choice n} {mv : Move n} (h : Backed s)
    (hc : (s.client i).Careful s.mem ch) (hs : Step crc s.mem (s.client i) ch mv) {x : Block}
    {ptr : Ptr} {σ : List UInt8} (hsit : Sits (s.layout.publish mv.published) mv.mem x ptr σ) :
    mv.mem.back x = ptr ∨
      ∃ j, x.casRev (mv.mem.back x) ptr ∈ ((s.put i mv).client j).outstanding := by
  have htree := h.recalling.safe.tree
  have hloc := h.recalling.safe.client i
  have hch := step_change htree hloc (h.recalling.client i) hs
  have hkeep : ch ≠ .flush → Sits s.layout s.mem x ptr σ → mv.mem.back x = ptr ∨
      ∃ j, x.casRev (mv.mem.back x) ptr ∈ ((s.put i mv).client j).outstanding := by
    intro hfl hsit
    have hsame := (step_revSame hloc hc hs).resolve_right hfl
    exact h.owed_keep hs hfl hsit (hsame.back htree hloc (hsit.block_in htree))
  cases hs with
  | flush hq => exact h.owed_flush hq (Change.sits_of (perform_change _ _) hsit)
  | leafCasDone hpc hq hb hl hn =>
    obtain hsit | hback := h.owed_leaf hpc hq hb hl hn hsit
    · exact hkeep (by simp) hsit
    · exact .inl (by cases x <;> simpa [Mem.back] using hback)
  | splitCasDone hpc hq hp =>
    have hsame : ∀ e p, (s.mem.store e p).back x = s.mem.back x :=
      fun e p => by cases x <;> simp [Mem.back]
    obtain hsit | hback | hop := h.owed_split hpc hp hc hsit
    · exact hkeep (by simp) hsit
    · exact .inl ((hsame _ _).trans hback)
    · right
      rw [hsame]
      refine ⟨i, ?_⟩
      rw [put_client_self]
      exact List.mem_append_right _ (List.mem_append_left _ hop)
  | nodeRead =>
    rw [Client.nodeRead_eq] at hsit hch hkeep ⊢
    exact hkeep (by simp) (hch.sits_of hsit)
  | _ => exact hkeep (by simp) (hch.sits_of hsit)

variable [Fintype ι]

theorem Backed.takes {s t : World ι n} {a : ι × Choice n} (h : Backed s)
    (hc : (s.client a.1).Careful s.mem a.2) (ht : Takes crc s a t) : Backed t := by
  have hsafe := h.recalling.safe
  obtain ⟨-, hx⟩ := hsafe.takes ht
  have hrec := (h.recalling.takes ht).1
  cases ht with
  | @start i isSearch k v isLoad hit c' hpc hb =>
    obtain ⟨hsil, hpend⟩ := Begins.silent hb
    refine ⟨hrec, fun j => ?_, fun x ptr σ hsit => ?_⟩
    · by_cases hj : j = i
      · subst hj
        rw [put_client_self]
        exact (h.client j).silent (h.client j).ops (.inl (by rw [hpc]; rfl)) hpend hsil
      · rw [put_client_ne _ _ hj]
        exact h.client j
    · obtain he | ⟨j, hj⟩ := h.owed x ptr σ hsit
      · exact .inl he
      · refine .inr ⟨j, ?_⟩
        by_cases hji : j = i
        · subst hji
          rw [Client.outstanding, Client.due_of_silent (by rw [hpc]; rfl)] at hj
          rw [put_client_self, Client.outstanding, Client.due_of_silent hsil, hpend]
          exact hj
        · rwa [put_client_ne _ _ hji]
  | @step i ch mv hs =>
    have hturns := step_turns hsafe.tree (hsafe.client i) (h.recalling.client i) (h.client i) hc hs
    refine ⟨hrec, fun j => ?_, fun x ptr σ hsit => h.owed_step hc hs hsit⟩
    by_cases hj : j = i
    · subst hj
      rw [put_client_self]
      exact step_backed hsafe.tree (hsafe.client j) (h.recalling.client j) (h.client j) h.lags hc hs
    · rw [put_client_ne _ _ hj]
      refine ⟨(h.client j).points.mono hx hturns (fun a ha => ?_) fun sp nodes pages hpc hp => ?_,
        fun op hop => ((h.client j).ops op hop).mono hx hturns, (h.client j).own⟩
      · obtain ⟨hL, hlive⟩ := (hsafe.client j).fresh a ha
        exact step_foreign (hsafe.client i) (h.client i) hc hs hL hlive (hsafe.apart j i hj a ha)
      · have hk := (hsafe.client j).knows
        simp only [Client.Knows, hpc] at hk
        obtain ⟨hn, σ, hsp⟩ := hk
        obtain ⟨pages', hp', hfst, -⟩ := hsp.pages hn.1
        obtain rfl := Option.some.inj (hp'.symm.trans hp)
        exact hfst

/-- No operation is in flight and all issued remote operations have completed. -/
def AtRest (s : World ι n) : Prop := (∀ i, (s.client i).pc.isIdle = true) ∧ s.Settled

instance (s : World ι n) : Decidable s.AtRest := inferInstanceAs (Decidable ((∀ _, _) ∧ _))

/-- Reverse pointers are written in order: on current knowledge only, and a split moves a block
only while no update of its reverse pointer is under way. -/
def Orderly (s : World ι n) (a : ι × Choice n) : Prop :=
  (s.client a.1).Current s.mem a.2 ∧ ((s.client a.1).pc.splits = true →
    ∀ x ∈ (s.client a.1).p.block?, ∀ j, ∀ op ∈ (s.client j).outstanding, op.turns x = false)

instance (s : World ι n) (a : ι × Choice n) : Decidable (s.Orderly a) :=
  inferInstanceAs (Decidable (_ ∧ _))

omit [DecidableEq ι] [Fintype ι] in
/-- A block of which no update is under way points back to its slot. -/
theorem Backed.careful {s : World ι n} {a : ι × Choice n} (h : Backed s) (ho : s.Orderly a) :
    (s.client a.1).Careful s.mem a.2 := by
  refine ⟨ho.1, fun hsp hp => ?_⟩
  have hk := (h.recalling.safe.client a.1).knows
  obtain ⟨sp, nodes, hpc⟩ := Pc.splits_iff.mp hsp
  simp only [Client.Knows, hpc] at hk
  obtain ⟨-, σ, hok⟩ := hk
  obtain ⟨x, hx⟩ := Entry.exists_block hok.full
  rw [hx, Option.map_some, Option.some_inj]
  obtain he | ⟨j, hop⟩ := h.owed x _ σ ⟨hok.located.slot, by rw [hp, hx]⟩
  · exact he
  · have := ho.2 hsp x hx j _ hop
    cases x <;> simp [Block.casRev, RemoteOp.turns] at this

theorem backed_of_reach {s : World ι n} (h : (treeSystem ι crc).Reach Orderly s) : Backed s :=
  h.invariant (P := Backed) (fun _ hi => Initial.backed hi)
    fun _ _ _ _ ih ho hn => ih.takes (ih.careful ho) (next_takes hn)

/-- In a run that writes reverse pointers in order, every block of the tree points back to
the slot that refers to it whenever the system is at rest. -/
theorem reverse_pointers_accurate {s : World ι n}
    (h : (treeSystem ι crc).Reach Orderly s)
    (hrest : s.AtRest) : s.mem.Accurate := by
  have hb := backed_of_reach h
  intro ptr x hslot hx
  obtain ⟨σ, hat⟩ := hslot.slotAt (by rintro hn; rw [hn] at hx; cases hx)
  have hσ := hb.recalling.safe.tree.slotAt_iff.mp hat
  obtain he | ⟨i, hop⟩ := hb.owed x ptr σ ⟨hσ, hx⟩
  · exact he
  · have hpc := Pc.isIdle_iff.mp (hrest.1 i)
    have hq := List.isEmpty_iff.mp (hrest.2 i)
    simp [Client.outstanding, Client.dueOps, hpc, hq] at hop

open scoped Transition.Numbered

/-- Two clients that write reverse pointers in order: a leaf is displaced twice. -/
def orderlyRun : List (Fin 2 × (Choice 2 ⊕ ℕ)) :=
  let key (a b : UInt8) : Key 2 := .ofList [a, b]
  inserts 0 (key 1 0) ++ inserts 1 (key 2 0) ++ inserts 1 (key 1 5) ++ inserts 0 (key 1 0)

theorem orderly_run_accurate : ∃ t, (treeSystem (Fin 2) fun _ _ => 0).run (empty (Fin 2) 2)
    (script (fun _ _ => 0) orderlyRun (empty (Fin 2) 2)) = some t ∧
      t.mem.load (.slot 4 0) = .leaf 0 0 ∧ t.mem.Accurate := by
  have hm : (treeSystem (Fin 2) fun _ _ => 0).Meets Orderly (empty (Fin 2) 2)
      (script (fun _ _ => 0) orderlyRun (empty (Fin 2) 2)) := by decide +kernel
  obtain ⟨t, ht, hrest, hl⟩ : (treeSystem (Fin 2) fun _ _ => 0).Ends (empty (Fin 2) 2)
      (script (fun _ _ => 0) orderlyRun (empty (Fin 2) 2)) fun t =>
        t.AtRest ∧ t.mem.load (.slot 4 0) = .leaf 0 0 := by decide +kernel
  exact ⟨t, ht, hl, reverse_pointers_accurate (.run (.init empty_initial) hm ht) hrest⟩

/-- A search that has found the first leaf at the root repairs its reverse pointer after the leaf
was moved below a new node. -/
def staleRepair : List (Fin 2 × (Choice 2 ⊕ ℕ)) :=
  let key (a b : UInt8) : Key 2 := .ofList [a, b]
  inserts 0 (key 1 0) ++ [(1, .inl (.begin true (key 1 0) 0 false none)), (1, .inr 2)] ++
    inserts 0 (key 2 0) ++ [(1, .inr 100)]

theorem stale_repair_misdirects : ∃ t, (treeSystem (Fin 2) fun _ _ => 0).run (empty (Fin 2) 2)
    (script (fun _ _ => 0) staleRepair (empty (Fin 2) 2)) = some t ∧ t.AtRest ∧
      ¬ t.mem.Accurate := by
  obtain ⟨t, ht, hrest, ⟨hroot, hslot⟩, hrev⟩ :
      (treeSystem (Fin 2) fun _ _ => 0).Ends (empty (Fin 2) 2)
        (script (fun _ _ => 0) staleRepair (empty (Fin 2) 2)) fun t =>
          t.AtRest ∧ (t.mem.load .root = .node 0 .node4 2 ∧ t.mem.load (.slot 2 0) = .leaf 1 0) ∧
            t.mem.back (.leaf 0) = .root := by decide +kernel
  refine ⟨t, ht, hrest, fun hacc => ?_⟩
  have := hacc (.slot 2 0) (.leaf 0) (.slot .root hroot (by decide)) (by rw [hslot]; rfl)
  rw [hrev] at this
  cases this

end World
end SmartTree
