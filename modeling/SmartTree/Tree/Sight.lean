import SmartTree.Tree.OnWay

/-! Completed inserts are visible: what a search does that began after an insert of its key had
returned, in every run in which inserts go down in bounds. -/
namespace SmartTree
open Transition
variable {n : ℕ} {L : Layout} {m : Mem n} {c : Client n} {crc : Key n → Value → UInt64}

structure Client.SameRequest (c c' : Client n) : Prop where
  key : c'.key = c.key
  isSearch : c'.isSearch = c.isSearch

theorem step_request {ch : Choice n} {mv : Move n} (hs : Step crc m c ch mv) :
    c.SameRequest mv.client := by
  cases hs with
  | next =>
    unfold Client.next
    split
    · split
      · exact ⟨rfl, rfl⟩
      · split <;> exact ⟨rfl, rfl⟩
    · exact ⟨rfl, rfl⟩
    · exact ⟨rfl, rfl⟩
  | gotLeaf =>
    unfold Client.gotLeaf
    split
    · split <;> exact ⟨rfl, rfl⟩
    · split
      · exact ⟨rfl, rfl⟩
      · split
        · exact ⟨rfl, rfl⟩
        · split <;> exact ⟨rfl, rfl⟩
  | leafPrepare =>
    unfold Client.leafPrepare
    dsimp only
    split <;> exact ⟨rfl, rfl⟩
  | @leafCasDone site =>
    obtain ⟨pc, he, -⟩ := leafCasDone_pc (c := c) c.target site
    dsimp only
    rw [he]
    exact ⟨rfl, rfl⟩
  | @leafCasFailed site =>
    cases site with
    | null => exact ⟨rfl, rfl⟩
    | empty => dsimp only [Client.leafCasFailed]; split <;> exact ⟨rfl, rfl⟩
    | behind =>
      dsimp only [Client.leafCasFailed]
      split
      · exact ⟨rfl, rfl⟩
      · split <;> exact ⟨rfl, rfl⟩
  | nodeRead =>
    unfold Client.nodeRead
    dsimp only
    split
    · exact ⟨rfl, rfl⟩
    · unfold Client.checkHeader
      dsimp only
      split
      · exact ⟨rfl, rfl⟩
      · exact ⟨rfl, rfl⟩
      · split
        · exact ⟨rfl, rfl⟩
        · split <;> exact ⟨rfl, rfl⟩
  | scan =>
    unfold Client.scan
    split
    · exact ⟨rfl, rfl⟩
    · split <;> exact ⟨rfl, rfl⟩
  | emptyScan =>
    unfold Client.emptyScan
    split
    · exact ⟨rfl, rfl⟩
    · split <;> exact ⟨rfl, rfl⟩
  | _ => exact ⟨rfl, rfl⟩

theorem step_idle (hpc : c.pc = .idle) {ch : Choice n} {mv : Move n} (hs : Step crc m c ch mv) :
    mv.client.pc = .idle := by
  cases hs <;> simp_all

theorem step_seeks (ht : TreeInv L m) (hl : Local L m c) (hsr : c.isSearch = true)
    (hst : Planted L m c.key) (hsi : InSight L m c.key) (h : c.Seeks L m) {ch : Choice n} {mv : Move n}
    (hs : Step crc m c ch mv) : mv.client.Seeks (L.publish mv.published) mv.mem := by
  have ho := step_outcome ht hl hs
  have hk := hl.knows
  cases hs with
  | readRoot hpc =>
    have hroot := OnWay.of_load ht hst (SlotPath.root (L := L) (m := m)) List.nil_prefix
    have hne : m.root.isNull = false := by
      have := hroot.ne_null
      simpa [Entry.isNull, Mem.load] using this
    simp only [hne, Bool.and_false]
    exact hroot
  | next hpc =>
    simp only [Client.Knows, hpc] at hk
    simp only [Client.Seeks, hpc] at h
    exact Client.next_seeks ht hst hk h
  | leafRead hpc =>
    simp only [Client.Seeks, hpc] at h
    exact Client.leafRead_seeks h
  | leafWord hpc =>
    simp only [Client.Seeks, hpc] at h
    exact h
  | reread hpc =>
    simp only [Client.Knows, hpc] at hk
    obtain ⟨-, σ, hσ⟩ := hk
    exact OnWay.of_load ht hst hσ.slot hσ.key
  | gotLeaf hpc =>
    simp only [Client.Knows, hpc] at hk
    simp only [Client.Seeks, hpc] at h
    exact Client.gotLeaf_seeks hsr hk h
  | typeRead hpc =>
    simp only [Client.Knows, hpc] at hk
    simp only [Client.Seeks, hpc] at h
    obtain ⟨-, b, t, a, π, hp, -⟩ := hk
    exact Client.typeRead_seeks hp h
  | nodeWord hpc hw | restWord hpc hw =>
    simp only [Client.Seeks, hpc] at h
    obtain ⟨hw', π, ha, hpg⟩ := h
    exact ⟨hw', π, ha, hpg.word ht hst hsi ha hw⟩
  | restRead hpc =>
    simp only [Client.Seeks, hpc] at h
    exact h
  | nodeRead hpc =>
    simp only [Client.Knows, hpc] at hk
    simp only [Client.Seeks, hpc] at h
    have := Client.nodeRead_seeks ht hk h
    rw [Client.nodeRead_eq]
    exact this
  | scan hpc =>
    simp only [Client.Knows, hpc] at hk
    simp only [Client.Seeks, hpc] at h
    obtain ⟨a, π, hn⟩ := hk
    exact Client.scan_seeks ht hn h
  | finish => trivial
  | flush => exact h.mono ho.ext
  | combineUpdate hpc | lockBusy hpc | lockTaken hpc | writeFault hpc | combineWrite hpc
  | written hpc | writeWord hpc | leafPrepare hpc | leafWrite hpc | leafCasDone hpc
  | leafCasFailed hpc | splitReuse hpc | splitFresh hpc | splitFault hpc | splitWrite hpc
  | splitCasDone hpc | splitCasFailed hpc | splitRev hpc | splitHdr hpc | emptyScan hpc
  | switchEntry hpc | switchHdr hpc | switchDown hpc | switchEnd hpc =>
    simp only [Client.Seeks, hpc] at h

namespace World
variable {ι : Type*}

/-- The client searches for a key that is in the tree, for everyone to see. -/
structure Wanted (s : World ι n) (c : Client n) : Prop where
  search : c.isSearch = true
  stored : Planted s.layout s.mem c.key
  sight : InSight s.layout s.mem c.key

structure Tracked (s : World ι n) (c : Client n) : Prop extends Wanted s c where
  seeks : c.Seeks s.layout s.mem

variable [DecidableEq ι] [Fintype ι]

/-- A search that starts at the root after an insert of its key has returned is on its way. -/
theorem Sighted.begins {s t : World ι n} (h : Sighted s) {i : ι} {k : Key n} {v : Value}
    {isLoad : Bool} (hk : k ∈ s.done) (ht : Takes crc s (i, .begin true k v isLoad none) t) :
    Tracked t (t.client i) := by
  cases ht with
  | start hpc hb =>
    rw [put_client_self]
    cases hb with | root => exact ⟨⟨rfl, h.storing.done k hk, h.done k hk⟩, trivial⟩
  | step hs => cases hs

theorem Wanted.takes {s t : World ι n} {a : ι × Choice n} {i : ι} (hs : Sighted s)
    (h : (s.client i).pc ≠ .idle → Wanted s (s.client i)) (hone : a.1 = i → a.2.isBegin = false)
    (ht : Takes crc s a t) (hne : (t.client i).pc ≠ .idle) : Wanted t (t.client i) := by
  have hsafe := hs.recalling.safe
  cases ht with
  | @start j isSearch k v isLoad hit c' hpc hb =>
    have hj : i ≠ j := fun hj => by simpa [Choice.isBegin] using hone hj.symm
    rw [put_client_ne _ _ hj] at hne ⊢
    obtain ⟨h1, h2, h3⟩ := h hne
    exact ⟨h1, h2, h3⟩
  | @step j ch mv hstep =>
    have ho := step_outcome hsafe.tree (hsafe.client j) hstep
    have hc := step_change hsafe.tree (hsafe.client j) (hs.recalling.client j) hstep
    by_cases hj : i = j
    · subst hj
      rw [put_client_self] at hne ⊢
      obtain ⟨hkey, hsr⟩ := step_request hstep
      have hc' := h fun hpc => hne (step_idle hpc hstep)
      refine ⟨hsr ▸ hc'.search, ?_, ?_⟩
      · rw [hkey]
        exact hc'.stored.mono ho.ext
      · rw [hkey]
        exact hc'.stored.shown_mono hc ho.tree ho.ext hc'.sight
    · rw [put_client_ne _ _ hj] at hne ⊢
      have hc' := h hne
      exact ⟨hc'.search, hc'.stored.mono ho.ext, hc'.stored.shown_mono hc ho.tree ho.ext hc'.sight⟩

theorem Tracked.takes {s t : World ι n} {a : ι × Choice n} {i : ι} (hs : Sighted s)
    (h : (s.client i).pc ≠ .idle → Tracked s (s.client i)) (hone : a.1 = i → a.2.isBegin = false)
    (ht : Takes crc s a t) (hne : (t.client i).pc ≠ .idle) : Tracked t (t.client i) := by
  refine ⟨Wanted.takes hs (fun hpc => (h hpc).toWanted) hone ht hne, ?_⟩
  have hsafe := hs.recalling.safe
  cases ht with
  | @start j isSearch k v isLoad hit c' hpc hb =>
    have hj : i ≠ j := fun hj => by simpa [Choice.isBegin] using hone hj.symm
    rw [put_client_ne _ _ hj] at hne ⊢
    exact (h hne).seeks
  | @step j ch mv hstep =>
    by_cases hj : i = j
    · subst hj
      rw [put_client_self] at hne ⊢
      have hc := h fun hpc => hne (step_idle hpc hstep)
      exact step_seeks hsafe.tree (hsafe.client i) hc.search hc.stored hc.sight hc.seeks hstep
    · rw [put_client_ne _ _ hj] at hne ⊢
      exact (h hne).seeks.mono (step_outcome hsafe.tree (hsafe.client j) hstep).ext

/-- A completed insert is visible: a search that starts at the root after an insert of its key has
returned does not miss the tree and does not return false, however it is interleaved with others,
which may start from cached entries. -/
theorem completed_insert_visible {s s' t : World ι n} (h : (treeSystem ι crc).Reach Bounded s) {i : ι}
    {k : Key n} {v : Value} {isLoad : Bool} (hk : k ∈ s.done)
    (hb : (treeSystem ι crc).next s (i, .begin true k v isLoad none) = some s')
    {as : List (ι × Choice n)}
    (hm : (treeSystem ι crc).Meets (fun s a => s.Bounded a ∧ (a.1 = i → a.2.isBegin = false)) s' as)
    (hr : (treeSystem ι crc).run s' as = some t) :
    (t.client i).pc ≠ .noTree ∧ (t.client i).pc ≠ .finish false := by
  have hs := sighted_of_reach h
  obtain ⟨-, hi⟩ := hm.invariant
    (P := fun s => Sighted s ∧ ((s.client i).pc ≠ .idle → Tracked s (s.client i)))
    (fun s a t hP hG hn => ⟨hP.1.takes hG.1 (next_takes hn),
      Tracked.takes hP.1 hP.2 hG.2 (next_takes hn)⟩)
    ⟨hs.takes (fun hgo => by cases hgo) (next_takes hb), fun _ => hs.begins hk (next_takes hb)⟩ hr
  constructor
  · intro hpc
    have hseek := (hi (by simp [hpc])).seeks
    simp [Client.Seeks, hpc] at hseek
  · intro hpc
    have hseek := (hi (by simp [hpc])).seeks
    simp [Client.Seeks, hpc] at hseek

open scoped Transition.Numbered

/-- Inserts below one node, the fifth of which grows it; another client inserts a key that shares the
new slot. -/
def besideFifth (last : ℕ) : List (Fin 2 × Choice 3) :=
  script (fun _ _ => 0) ([1, 2, 3, 4].flatMap (fun b => inserts 0 (.ofList [1, b, 0])) ++
    [(0, .inl (.begin false (.ofList [1, 5, 0]) 0 false none)), (0, .inr last)] ++
    inserts 1 (.ofList [1, 5, 1])) (empty (Fin 2) 3)

def lookBeside : Fin 2 × Choice 3 := (1, .begin true (.ofList [1, 5, 1]) 0 false none)

theorem visible_beside_fifth : ∃ s s' t, (treeSystem (Fin 2) fun _ _ => 0).run (empty (Fin 2) 3)
      (besideFifth 100) = some s ∧ Key.ofList [1, 5, 1] ∈ s.done ∧
    (treeSystem (Fin 2) fun _ _ => 0).next s lookBeside = some s' ∧
    (treeSystem (Fin 2) fun _ _ => 0).run s' (script (fun _ _ => 0) [(1, .inr 34)] s') = some t ∧
    (t.client 1).pc ≠ .noTree ∧ (t.client 1).pc ≠ .finish false := by
  have hm : (treeSystem (Fin 2) fun _ _ => 0).Meets Bounded (empty (Fin 2) 3) (besideFifth 100) := by
    decide +kernel
  obtain ⟨s, hs, hk, s', hb, hm', t, ht, -⟩ : (treeSystem (Fin 2) fun _ _ => 0).Ends (empty (Fin 2) 3)
      (besideFifth 100) fun s => Key.ofList [1, 5, 1] ∈ s.done ∧
        (treeSystem (Fin 2) fun _ _ => 0).Ends s [lookBeside] fun s' =>
          (treeSystem (Fin 2) fun _ _ => 0).Meets
            (fun s a => s.Bounded a ∧ (a.1 = 1 → a.2.isBegin = false)) s'
              (script (fun _ _ => 0) [(1, .inr 34)] s') ∧
          (treeSystem (Fin 2) fun _ _ => 0).Ends s' (script (fun _ _ => 0) [(1, .inr 34)] s')
            fun _ => True := by
    decide +kernel
  rw [System.run_cons] at hb
  obtain ⟨u, hu, hb⟩ := Option.bind_eq_some_iff.mp hb
  cases hb
  exact ⟨s, s', t, hs, hk, hu, ht,
    completed_insert_visible (System.Reach.run (.init empty_initial) hm hs) hk hu hm' ht⟩

end World
end SmartTree
