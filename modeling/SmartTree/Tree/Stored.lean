import SmartTree.Tree.Route

/-! Completed inserts are never lost: from the moment `Tree::insert` returns there is one leaf
with its key in the tree, and it stays the one, whatever splits and switches follow. -/
namespace SmartTree
open Transition
variable {n : ℕ} {L L' : Layout} {m m' : Mem n} {c : Client n} {k : Key n}
  {crc : Key n → Value → UInt64}

def Planted (L : Layout) (m : Mem n) (k : Key n) : Prop := ∃ l, L l = some .leaf ∧ (m.leaf l).key = k

theorem Planted.mono (h : Planted L m k) (hx : Extends L m L' m') : Planted L' m' k := by
  obtain ⟨l, hl, hk⟩ := h
  exact ⟨l, hx.layout _ _ hl, (hx.key l hl).trans hk⟩

namespace Client

def Past (c : Client n) : Prop :=
  match c.pc with
  | .splitRev _ _ | .splitHdr _ | .switchEntry _ | .switchHdr _ | .switchDown _ | .switchEnd _ => True
  | .finish _ => c.isSearch = false
  | _ => False

def Stores (L : Layout) (m : Mem n) (c : Client n) : Prop := c.Past → Planted L m c.key

theorem Stores.mono (h : c.Stores L m) (hx : Extends L m L' m') : c.Stores L' m' :=
  fun hp => (h hp).mono hx

theorem next_not_past : ¬ c.next.Past := by
  unfold next
  split
  · split
    · exact id
    · split
      · rename_i hs
        exact fun h => by simp [Past, hs] at h
      · exact id
  · exact id
  · exact id

theorem checkHeader_not_past : ¬ c.checkHeader.Past := by
  unfold checkHeader
  dsimp only
  split
  · exact id
  · exact id
  · split
    · rename_i hs
      exact fun h => by simp [Past, hs] at h
    · split <;> exact id

theorem nodeRead_not_past {a : Addr} : ¬ (c.nodeRead m a).client.Past := by
  unfold nodeRead
  dsimp only
  split
  · exact id
  · exact checkHeader_not_past

theorem scan_not_past {a : Addr} : ¬ (c.scan a).Past := by
  unfold scan
  split
  · exact id
  · split
    · exact id
    · cases hs : c.isSearch <;> simp [Past]

theorem leafCasFailed_not_past {a : Addr} {e : Entry} {b : UInt8} {site : Site} :
    ¬ (c.leafCasFailed a e b site).Past := by
  cases site with
  | null => exact id
  | empty => rw [leafCasFailed]; split <;> exact id
  | behind =>
    rw [leafCasFailed]
    split
    · exact id
    · split <;> exact id

theorem gotLeaf_stores
    (h : (∃ σ, Located L m c σ) ∧ ∃ b l, c.p = .leaf b l ∧ LeafBuf m l [] c.leaf) :
    c.gotLeaf.Stores L m := by
  obtain ⟨⟨σ, hσ⟩, b, l, hp, hb⟩ := h
  unfold gotLeaf
  split
  · rename_i hs
    split <;> exact fun h => by simp [Past, hs] at h
  · split
    · rename_i hk
      exact fun _ => ⟨l, (hσ.leaf hp).1, (hb.key (by simp)).symm.trans hk⟩
    · split
      · exact False.elim
      · split <;> exact False.elim

end Client

theorem step_stores (ht : TreeInv L m) (h : Local L m c) (hc : c.Stores L m) {ch : Choice n}
    {mv : Move n} (hs : Step crc m c ch mv) :
    mv.client.Stores (L.publish mv.published) mv.mem := by
  have hx := (step_outcome ht h hs).ext
  have hk := h.knows
  cases hs with
  | next => exact fun hp => absurd hp Client.next_not_past
  | leafRead =>
    unfold Client.leafRead
    split
    · exact False.elim
    · split <;> exact False.elim
  | gotLeaf hpc =>
    simp only [Client.Knows, hpc] at hk
    exact Client.gotLeaf_stores hk
  | combineUpdate hpc =>
    simp only [Client.Knows, hpc] at hk
    obtain ⟨hkey, b, l, -, hl, hb⟩ := hk
    exact fun _ => ⟨l, hl, (hb.key (by simp)).symm.trans hkey⟩
  | written hpc =>
    simp only [Client.Knows, hpc] at hk
    obtain ⟨hkey, b, l, -, hl, hb⟩ := hk
    exact fun _ => ⟨l, hl, (hb.key (by simp)).symm.trans hkey⟩
  | leafPrepare =>
    unfold Client.leafPrepare
    dsimp only
    split <;> exact False.elim
  | @leafCasDone site b l hpc _ _ hl =>
    obtain ⟨pc, he, -⟩ := leafCasDone_pc (c := c) c.target site
    have hkept := h.kept
    simp only [Client.LeafKept, hpc] at hkept
    have hkey := (hkept l (by simp [Client.leafOwned, hpc, hl])).1
    dsimp only
    rw [he]
    exact fun _ => ⟨l, by simp [Layout.publish], by simpa using hkey⟩
  | leafCasFailed => exact fun hp => absurd hp Client.leafCasFailed_not_past
  | splitCasDone hpc _ hp =>
    simp only [Client.Knows, hpc] at hk
    obtain ⟨-, σ, hsp⟩ := hk
    obtain ⟨l, pages, hl, hpg, -, g⟩ := hsp.graft h hpc hp
    refine fun _ => ⟨l, ?_, by simpa using g.leaf.1⟩
    rw [hl, hpg]
    exact g.layout_leaf
  | splitRev hpc =>
    have hst := hc (by simp [Client.Past, hpc])
    exact fun _ => hst
  | splitHdr hpc =>
    have hst := hc (by simp [Client.Past, hpc])
    exact fun _ => hst
  | typeRead =>
    unfold Client.typeRead
    split <;> exact False.elim
  | nodeRead =>
    rw [Client.nodeRead_eq]
    exact fun hp => absurd hp Client.nodeRead_not_past
  | scan => exact fun hp => absurd hp Client.scan_not_past
  | emptyScan =>
    unfold Client.emptyScan
    split
    · exact False.elim
    · split <;> exact False.elim
  | switchEntry hpc | switchHdr hpc | switchDown hpc | switchEnd hpc =>
    have hst := hc (by simp [Client.Past, hpc])
    exact fun _ => hst.mono hx
  | flush => exact hc.mono hx
  | readRoot =>
    dsimp only
    cases c.isSearch && m.root.isNull <;> exact False.elim
  | lockBusy => exact hc
  | _ => exact False.elim

theorem step_returned {ch : Choice n} {mv : Move n} (hs : Step crc m c ch mv)
    (hk : k ∈ mv.returned.toList) : ∃ r, c.pc = .finish r ∧ c.isSearch = false ∧ k = c.key := by
  cases hs with
  | @finish r hpc =>
    cases hsr : c.isSearch with
    | true => simp [hsr] at hk
    | false => exact ⟨r, hpc, rfl, by simpa [hsr] using hk⟩
  | nodeRead => rw [Client.nodeRead_eq] at hk; cases hk
  | _ => cases hk

namespace World
variable {ι : Type*}

/-- Safety, and every insert that is past its point of no return has stored its key. -/
structure Storing (s : World ι n) : Prop where
  safe : Safe s
  client : ∀ i, (s.client i).Stores s.layout s.mem
  done : ∀ k ∈ s.done, Planted s.layout s.mem k

theorem Initial.storing {s : World ι n} (h : Initial s) : Storing s where
  safe := h.safe
  client i hp := by simp [Client.Past, h.idle i] at hp
  done := by simp [h.done]

variable [DecidableEq ι] [Fintype ι]

theorem Storing.takes {s t : World ι n} {a : ι × Choice n} (h : Storing s) (ht : Takes crc s a t) :
    Storing t := by
  obtain ⟨hsafe, hx⟩ := h.safe.takes ht
  have hothers : ∀ j, (s.client j).Stores t.layout t.mem := fun j => (h.client j).mono hx
  have hdone : ∀ k ∈ s.done, Planted t.layout t.mem k := fun k hk => (h.done k hk).mono hx
  cases ht with
  | @start i _ _ _ _ _ _ hpc hb =>
    refine ⟨hsafe, fun j => ?_, hdone⟩
    by_cases hj : j = i
    · subst hj
      rw [put_client_self]
      cases hb <;> exact False.elim
    · rw [put_client_ne _ _ hj]
      exact hothers j
  | @step i ch mv hs =>
    refine ⟨hsafe, fun j => ?_, fun k hk => ?_⟩
    · by_cases hj : j = i
      · subst hj
        rw [put_client_self]
        exact step_stores h.safe.tree (h.safe.client _) (h.client _) hs
      · rw [put_client_ne _ _ hj]
        exact hothers j
    · obtain hk | hk := List.mem_append.mp hk
      swap
      · exact hdone k hk
      · obtain ⟨r, hpc, hsr, rfl⟩ := step_returned hs hk
        exact hothers i (by simp [Client.Past, hpc, hsr])

theorem storing_of_reachable {s : World ι n} (h : (treeSystem ι crc).Reachable s) : Storing s :=
  h.invariant (P := Storing) (fun _ hi => Initial.storing hi)
    fun _ _ _ _ ih _ hn => ih.takes (next_takes hn)

/-- A completed insert is never lost: from the state in which it has returned on there is one
leaf with its key in the tree, always the same one, reached along the bytes of the key. -/
theorem completed_insert_kept {s : World ι n} (h : (treeSystem ι crc).Reachable s) {k : Key n}
    (hk : k ∈ s.done) :
    ∃ l, ∀ as t, (treeSystem ι crc).run s as = some t →
      (∃ σ b, Spells t.mem σ (.leaf b l) ∧ σ <+: k.bytes) ∧ (t.mem.leaf l).key = k ∧
      ∀ σ b l', Spells t.mem σ (.leaf b l') → (t.mem.leaf l').key = k → l' = l := by
  have hs := storing_of_reachable h
  obtain ⟨l, hl, hkey⟩ := hs.done k hk
  refine ⟨l, fun as t hr => ?_⟩
  obtain ⟨hlayout, hkeys⟩ := extends_of_run hs.safe hr
  have ht := (safe_of_reachable (h.run hr)).tree
  have hkt : (t.mem.leaf l).key = k := (hkeys l hl).trans hkey
  obtain ⟨b, σ, hsp, hσ⟩ := ht.spells_leaf (hlayout l _ hl)
  refine ⟨⟨σ, b, hsp, hkt ▸ hσ⟩, hkt, fun τ b' l' hsp' hk' => ?_⟩
  exact (ht.spells_unique hsp' hsp (hk'.trans hkt.symm)).2

open scoped Transition.Numbered

/-- Both inserts of the race have returned. -/
theorem kept_after_race : ∃ s, (treeSystem (Fin 2) fun _ _ => 0).run (empty (Fin 2) 8)
      (raceRun ++ [(0, .go), (1, .go), (1, .go)]) = some s ∧ int2key 8 0x0102 ∈ s.done ∧
    ∃ l, ∀ as t, (treeSystem (Fin 2) fun _ _ => 0).run s as = some t →
      (∃ σ b, Spells t.mem σ (.leaf b l) ∧ σ <+: (int2key 8 0x0102).bytes) ∧
      (t.mem.leaf l).key = int2key 8 0x0102 ∧
      ∀ σ b l', Spells t.mem σ (.leaf b l') → (t.mem.leaf l').key = int2key 8 0x0102 → l' = l := by
  obtain ⟨s, hs, hk⟩ : (treeSystem (Fin 2) fun _ _ => 0).Ends (empty (Fin 2) 8)
      (raceRun ++ [(0, .go), (1, .go), (1, .go)]) fun s => int2key 8 0x0102 ∈ s.done := by
    decide +kernel
  exact ⟨s, hs, hk, completed_insert_kept (empty_reachable.run hs) hk⟩

end World
end SmartTree
