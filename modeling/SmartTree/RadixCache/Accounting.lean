import SmartTree.RadixCache.Ledger
import SmartTree.RadixCache.LongestPrefix

/-! The accounting of the cache is exact. Between two calls the manager records the present
size of every node of the trie, except for a root that nothing was added to, its counter is the
budget less these sizes and those of the live entries, and every live entry waits in
`eviction_list`; so an eviction that empties the list leaves no entry behind. -/
namespace SmartTree

namespace Trie
variable {t t' : Trie} {path path' : ℕ → List UInt8} {s : SlotPtr} {p q : EntryPtr} {bs : List UInt8}

def Live (t : Trie) (p : EntryPtr) : Prop := ∃ s : SlotPtr, s.1 < t.size ∧ t.entryAt s = some p

theorem live_iff_holds (path : ℕ → List UInt8) : t.Live p ↔ ∃ w, t.Holds path w p := by
  constructor
  · rintro ⟨s, hs, hp⟩
    exact ⟨_, s, hs, hp, rfl⟩
  · rintro ⟨w, s, hs, hp, -⟩
    exact ⟨s, hs, hp⟩

inductive Reaches (t : Trie) : ℕ → Prop
  | root : Reaches t 0
  | next {i j : ℕ} {b : UInt8} (h : Reaches t i) (hn : t.nextAt i b = some j) : Reaches t j

theorem WF.reaches_iff (wf : t.WF path) {i : ℕ} : t.Reaches i ↔ i < t.size := by
  constructor
  · intro h
    induction h with
    | root => exact wf.tree.alive_root
    | next _ hn ih => exact (wf.tree.link _ _ _ ih hn).1
  · -- by the length of the path, which is longer than that of the parent
    intro hi
    induction hm : (path i).length using Nat.strongRecOn generalizing i with
    | _ d ih =>
      by_cases h0 : i = 0
      · exact h0 ▸ .root
      · obtain ⟨j, b, hj, hn⟩ := wf.tree.parent i hi h0
        have hp := (wf.tree.link j b i hj hn).2
        have hlt : (path j).length < d := by
          rw [← hm, hp, RadixTree.length_full]
          omega
        exact .next (ih _ hlt hj rfl) hn

/-- A write to the entry of a record that is there leaves all sizes as they are. -/
theorem contentSize_clear (h : t.entryAt s = some p) (k : ℕ) :
    ((t.setEntry s.1 s.2 none).node k).contentSize = (t.node k).contentSize := by
  refine CacheNode.contentSize_congr (header_setEntry ..) fun c => ?_
  rw [setEntry, records_setRecord]
  split
  · rename_i hk
    obtain ⟨v, hv, -⟩ := Option.bind_eq_some_iff.mp h
    rw [hk.1, hk.2, hv]
    rfl
  · rfl

/-- With every entry in one slot only, clearing its slot takes the entry out. -/
theorem live_clear (wf : t.WF path) (hinj : ∀ w w' q, t.Holds path w q → t.Holds path w' q → w = w')
    (hs : s.1 < t.size) (hp : t.entryAt s = some p) :
    (t.setEntry s.1 s.2 none).Live q ↔ q ≠ p ∧ t.Live q := by
  constructor
  · rintro ⟨x, hx, hq⟩
    rw [entryAt_setEntry] at hq
    split at hq
    · cases hq
    · rename_i hne
      refine ⟨fun he => hne ?_, x, hx, hq⟩
      have hw := hinj _ _ q ⟨x, hx, hq, rfl⟩ ⟨s, hs, he ▸ hp, rfl⟩
      obtain ⟨h₁, h₂⟩ := wf.tree.full_inj hx hs hw
      exact Prod.ext h₁ h₂
  · rintro ⟨hne, x, hx, hq⟩
    refine ⟨x, hx, ?_⟩
    rw [entryAt_setEntry, if_neg, hq]
    rintro rfl
    exact hne (Option.some.inj (hq.symm.trans hp))

/-- An insertion adds its entry to the live ones and takes out the one it replaces. -/
theorem Inserts.live_iff {old : Option EntryPtr} (hi : Inserts t path bs p t' path' old)
    (hinj : ∀ w w' q, t.Holds path w q → t.Holds path w' q → w = w') (hp : ¬ t.Live p) :
    t'.Live q ↔ q = p ∨ t.Live q ∧ old ≠ some q := by
  rw [live_iff_holds path', live_iff_holds path]
  constructor
  · rintro ⟨w, hw⟩
    rw [hi.holds] at hw
    split at hw
    · exact .inl hw
    · rename_i hne
      exact .inr ⟨⟨w, hw⟩, fun ho => hne (hinj w bs q hw ((hi.old q).mp ho))⟩
  · rintro (rfl | ⟨⟨w, hw⟩, ho⟩)
    · exact ⟨bs, (hi.holds bs q).mpr (by rw [if_pos rfl])⟩
    · refine ⟨w, (hi.holds w q).mpr ?_⟩
      rw [if_neg]
      · exact hw
      · rintro rfl
        exact ho ((hi.old q).mpr hw)

end Trie

namespace MeteredCache
open FreeMemManager (Balanced)
variable {m m' : MeteredCache} {live : Finset EntryPtr} {s : SlotPtr} {p : EntryPtr}

def pathLen : ℕ := keyLen + hPartialLenMax

def entrySize (m : MeteredCache) (p : EntryPtr) : ℕ := (m.index.entry p).contentSize

structure Inv (m : MeteredCache) (live : Finset EntryPtr) : Prop where
  index : ∃ l path, RadixCache.CacheInv (pathLen + 1) m.index l path
  mem_live : ∀ p, p ∈ live ↔ m.index.trie.Live p
  retired : ∀ g < m.root, ∀ p, ¬ (m.retired g).Live p
  sized : ∀ id < m.index.trie.size, m.freeManager.nodeMemSize id ≠ none →
    m.freeManager.nodeMemSize id = some (BitVec.ofNat 64 (m.index.trie.node id).contentSize)
  charged : ∀ id < m.index.trie.size, m.freeManager.nodeMemSize id = none →
    id = 0 ∧ m.index.trie = .empty
  beyond : ∀ id, m.index.trie.size ≤ id → m.freeManager.nodeMemSize id = none
  short : ∀ id < m.index.trie.size, (m.index.trie.node id).header.partials.length ≤ pathLen
  small : ∀ p ∈ live, m.entrySize p ≤ 2065
  noted : ∀ s p, s.1 < m.index.trie.size → m.index.trie.entryAt s = some p →
    ((m.root, s), p) ∈ m.evictionList
  here : ∀ x ∈ m.evictionList, x.1.1 = m.root ∧ x.1.2.1 < m.index.trie.size
  balanced : Balanced m.freeManager m.budget m.index.trie.size live m.entrySize
  cacheSize : m.cacheSize < 2 ^ 31

def owed (m : MeteredCache) (live : Finset EntryPtr) : ℕ :=
  m.freeManager.owed m.index.trie.size live m.entrySize

theorem Inv.budget_lt (inv : Inv m live) : m.budget < 2 ^ 51 := by
  have := inv.cacheSize
  rw [budget, mB]
  omega

theorem Inv.remain (inv : Inv m live) (ho : m.owed live < 2 ^ 62) :
    m.freeManager.remainSize = (m.budget : ℤ) - m.owed live := by
  have := inv.budget_lt
  exact inv.balanced.remain (by omega) ho

@[simp] theorem cacheSize_invalidate (m : MeteredCache) (x : Option RootSlot) (op : Option EntryPtr) :
    (m.invalidate x op).cacheSize = m.cacheSize := by
  unfold invalidate
  split
  · split_ifs <;> rfl
  · rfl

theorem invalidate_here (hp : m.index.trie.entryAt s = some p) :
    m.invalidate (some (m.root, s)) (some p) =
      { m with
        index := m.index.invalidate (some s) (some p)
        freeManager := m.freeManager.free (BitVec.ofNat 32 (m.entrySize p)) } := by
  simp [invalidate, entryAt, RadixCache.invalidate, hp, entrySize]

theorem trie_invalidate (hp : m.index.trie.entryAt s = some p) :
    (m.index.invalidate (some s) (some p)).trie = m.index.trie.setEntry s.1 s.2 none := by
  simp [RadixCache.invalidate, hp]

theorem Inv.clear (inv : Inv m live) (hs : s.1 < m.index.trie.size)
    (hp : m.index.trie.entryAt s = some p) :
    Inv (m.invalidate (some (m.root, s)) (some p)) (live.erase p) ∧
      (m.invalidate (some (m.root, s)) (some p)).owed (live.erase p) ≤ m.owed live := by
  obtain ⟨l, path, hc⟩ := inv.index
  have hlive : p ∈ live := (inv.mem_live p).mpr ⟨s, hs, hp⟩
  have htrie := trie_invalidate hp
  have hsize : (m.index.invalidate (some s) (some p)).trie.size = m.index.trie.size := by rw [htrie]; rfl
  have hcontent : ∀ k, ((m.index.invalidate (some s) (some p)).trie.node k).contentSize =
      (m.index.trie.node k).contentSize := by
    intro k
    rw [htrie, Trie.contentSize_clear hp]
  have hent : ∀ x q, (m.index.invalidate (some s) (some p)).trie.entryAt x = some q →
      m.index.trie.entryAt x = some q := by
    intro x q hq
    rw [htrie, Trie.entryAt_setEntry] at hq
    split at hq
    · cases hq
    · exact hq
  rw [invalidate_here hp]
  have hentry : entrySize { m with
      index := m.index.invalidate (some s) (some p)
      freeManager := m.freeManager.free (BitVec.ofNat 32 (m.entrySize p)) } = m.entrySize := by
    funext q
    simp [entrySize]
  constructor
  · exact {
      index := ⟨Function.update l _ none, path, hc.clear hs hp
        (fun w hw => Function.update_of_ne hw ..) fun q e h => by simp at h⟩
      mem_live := fun q => by
        rw [Finset.mem_erase, inv.mem_live, htrie, Trie.live_clear hc.wf hc.inj hs hp]
      retired := inv.retired
      sized := fun id hid hne => by
        dsimp only at hid ⊢
        rw [hcontent]
        exact inv.sized id (hsize ▸ hid) hne
      charged := fun id hid hn => by
        obtain ⟨rfl, he⟩ := inv.charged id (hsize ▸ hid) hn
        rw [he] at hp
        cases hp
      beyond := fun id hid => inv.beyond id (hsize ▸ hid)
      short := fun id hid => by
        dsimp only at hid ⊢
        rw [htrie, Trie.header_setEntry]
        exact inv.short id (hsize ▸ hid)
      small := fun q hq => by
        rw [hentry]
        exact inv.small q (Finset.mem_of_mem_erase hq)
      noted := fun x q hx hq => inv.noted x q (hsize ▸ hx) (hent x q hq)
      here := fun x hx => by
        dsimp only
        rw [hsize]
        exact inv.here x hx
      balanced := by
        rw [hentry]
        dsimp only
        rw [hsize]
        exact inv.balanced.free hlive (by have := inv.small p hlive; omega)
      cacheSize := inv.cacheSize }
  · rw [owed, owed, ← FreeMemManager.owed_erase hlive]
    dsimp only
    rw [hsize, FreeMemManager.owed_free, hentry]
    exact Nat.le_add_right ..

/-- Entries that are not where they were noted, or of tries below earlier roots, stay as they
are. -/
theorem Inv.invalidate (inv : Inv m live) {x : Option RootSlot} (op : Option EntryPtr)
    (hx : ∀ s ∈ x, m.HasSlot s) :
    ∃ live', Inv (m.invalidate x op) live' ∧ (m.invalidate x op).owed live' ≤ m.owed live := by
  cases x with
  | none => exact ⟨live, inv, le_rfl⟩
  | some x =>
    cases op with
    | none => exact ⟨live, inv, le_rfl⟩
    | some p =>
      obtain ⟨g, s⟩ := x
      obtain ⟨hle, hs⟩ := hx _ rfl
      dsimp only at hle hs
      by_cases hp : m.entryAt (g, s) = some p
      · by_cases hg : g = m.root
        · subst hg
          rw [if_pos rfl] at hs
          rw [entryAt, if_pos rfl] at hp
          exact ⟨_, inv.clear hs hp⟩
        · rw [if_neg hg] at hs
          rw [entryAt, if_neg hg] at hp
          exact absurd ⟨s, hs, hp⟩ (inv.retired g (lt_of_le_of_ne hle hg) p)
      · have hsame : m.invalidate (some (g, s)) (some p) = m := by
          simp [MeteredCache.invalidate, hp]
        rw [hsame]
        exact ⟨live, inv, le_rfl⟩
theorem invalidate_evictionList (m : MeteredCache) (l : List (RootSlot × EntryPtr)) (x : Option RootSlot)
    (op : Option EntryPtr) : ({ m with evictionList := l } : MeteredCache).invalidate x op =
      { m.invalidate x op with evictionList := l } := by
  unfold MeteredCache.invalidate entryAt
  cases x with
  | none => rfl
  | some s =>
    cases op with
    | none => rfl
    | some p =>
      dsimp only
      split_ifs <;> rfl

section evict
variable {x : RootSlot} {l rest : List (RootSlot × EntryPtr)}

theorem Inv.pop (inv : Inv m live) (hl : m.evictionList = (x, p) :: rest) (hne : m.entryAt x ≠ some p) :
    Inv { m with evictionList := rest } live :=
  { inv with
    noted := fun s q hs hq => by
      have hmem := inv.noted s q hs hq
      rw [hl] at hmem
      obtain he | hmem := List.mem_cons.mp hmem
      · obtain ⟨rfl, rfl⟩ := Prod.mk.inj he
        rw [entryAt, if_pos rfl] at hne
        exact absurd hq hne
      · exact hmem
    here := fun y hy => inv.here y (by rw [hl]; exact List.mem_cons_of_mem _ hy) }

theorem Inv.round (inv : Inv m live) (hl : m.evictionList = (x, p) :: rest) :
    ∃ live' m', m' = (if m.entryAt x = some p then { m with evictionList := rest }.invalidate (some x) (some p)
        else { m with evictionList := rest }) ∧ m'.evictionList = rest ∧ Inv m' live' ∧
      m'.owed live' ≤ m.owed live := by
  obtain ⟨hg, hs⟩ := inv.here (x, p) (by simp [hl])
  obtain ⟨g, s⟩ := x
  dsimp only at hg hs
  subst hg
  by_cases hp : m.entryAt (m.root, s) = some p
  · rw [if_pos hp, invalidate_evictionList]
    rw [entryAt, if_pos rfl] at hp
    obtain ⟨inv', ho⟩ := inv.clear hs hp
    have hl' : (m.invalidate (some (m.root, s)) (some p)).evictionList = ((m.root, s), p) :: rest := by
      rw [invalidate_here hp, hl]
    refine ⟨_, _, rfl, rfl, inv'.pop hl' ?_, ho⟩
    rw [invalidate_here hp, entryAt]
    simp [trie_invalidate hp]
  · rw [if_neg hp]
    exact ⟨live, _, rfl, rfl, inv.pop hl hp, le_rfl⟩

theorem Inv.evictLoop (inv : Inv m live) (hl : m.evictionList = l) :
    ∃ live', Inv (evictLoop l m).1 live' ∧ (evictLoop l m).1.owed live' ≤ m.owed live ∧
      ((evictLoop l m).2 = true → (evictLoop l m).1.evictionList = []) ∧
      ((evictLoop l m).2 = false → 0 ≤ (evictLoop l m).1.freeManager.remainSize) := by
  induction l generalizing m live with
  | nil =>
    have hsame : MeteredCache.evictLoop [] m = (m, true) := by rw [MeteredCache.evictLoop, ← hl]
    rw [hsame]
    exact ⟨live, inv, le_rfl, fun _ => hl, by simp⟩
  | cons y rest ih =>
    obtain ⟨x, p⟩ := y
    obtain ⟨live₁, m₁, hm, hrest, inv₁, ho⟩ := inv.round hl
    rw [MeteredCache.evictLoop,
      show ({ m with evictionList := rest } : MeteredCache).entryAt x = m.entryAt x from rfl, ← hm]
    split
    · obtain ⟨live₂, inv₂, ho₂, h⟩ := ih inv₁ hrest
      exact ⟨live₂, inv₂, ho₂.trans ho, h⟩
    · rename_i hstop
      refine ⟨live₁, inv₁, ho, fun he => hrest.trans (List.isEmpty_iff.mp he), fun he => ?_⟩
      rw [List.isEmpty_eq_false_iff] at he
      exact not_lt.mp fun hlt => hstop ⟨hlt, he⟩

theorem Inv.rebuild (inv : Inv m live) (hl : m.evictionList = []) : Inv m.rebuild ∅ := by
  obtain ⟨_, path, hc⟩ := inv.index
  have hnone : ∀ q, ¬ m.index.trie.Live q := by
    rintro q ⟨s, hs, hq⟩
    simpa [hl] using inv.noted s q hs hq
  have hempty : ∀ q, ¬ Trie.empty.Live q := by
    rintro q ⟨s, -, hq⟩
    cases hq
  exact {
    index := ⟨_, _, .empty rfl hc.pool.nodup fun q hq => (hc.pool.free q hq).1⟩
    mem_live := fun q => iff_of_false (Finset.notMem_empty q) (hempty q)
    retired := fun g hg q => by
      obtain hg | rfl := Nat.lt_succ_iff_lt_or_eq.mp hg
      · rw [MeteredCache.rebuild]
        dsimp only
        rw [Function.update_of_ne hg.ne]
        exact inv.retired g hg q
      · rw [MeteredCache.rebuild]
        dsimp only
        rw [Function.update_self]
        exact hnone q
    sized := fun id _ hne => absurd rfl hne
    charged := fun id hid _ => ⟨Nat.lt_one_iff.mp hid, rfl⟩
    beyond := fun _ _ => rfl
    short := fun id _ => Nat.zero_le _
    small := by simp
    noted := fun s q hs hq => absurd ⟨s, hs, hq⟩ (hempty q)
    here := fun y hy => by
      rw [MeteredCache.rebuild, hl] at hy
      cases hy
    balanced := FreeMemManager.balanced_ofSize ..
    cacheSize := inv.cacheSize }

theorem Inv.evict (inv : Inv m live) (ho : m.owed live < 2 ^ 62) :
    ∃ live', Inv m.evict live' ∧ m.evict.owed live' ≤ m.evict.budget := by
  obtain ⟨live', inv', ho', hempty, hremain⟩ := inv.evictLoop rfl
  rw [MeteredCache.evict]
  cases hf : (MeteredCache.evictLoop m.evictionList m).2 with
  | true =>
    have hzero := FreeMemManager.owed_ofSize (BitVec.ofNat 64 (MeteredCache.evictLoop m.evictionList m).1.budget)
    exact ⟨∅, inv'.rebuild (hempty hf), (hzero ..).trans_le (Nat.zero_le _)⟩
  | false =>
    have := hremain hf
    rw [inv'.remain (by omega)] at this
    exact ⟨live', inv', by simpa using this⟩

end evict

end MeteredCache
end SmartTree
