import SmartTree.RadixCache.AccountingInsert

/-! In every state that calls reach, the budget less the remaining size is what the trie and
its live entries take, and it is not exceeded. -/
namespace SmartTree.MeteredCache
variable {m m' : MeteredCache} {live : Finset EntryPtr} {p : EntryPtr}

def Good (m : MeteredCache) : Prop := ∃ live, Inv m live ∧ m.owed live ≤ m.budget

theorem Good.remain_nonneg (h : Good m) : 0 ≤ m.freeManager.remainSize := by
  obtain ⟨live, inv, ho⟩ := h
  have := inv.budget_lt
  rw [inv.remain (by omega)]
  omega

theorem good_initial (h : m.Initial) : Good m := by
  obtain ⟨hc, hroot, hl, hsize, hf⟩ := h
  have ht : m.index.trie = .empty := hc.1
  have hempty : ∀ q, ¬ m.index.trie.Live q := by
    rintro q ⟨s, -, hq⟩
    rw [ht] at hq
    cases hq
  refine ⟨∅, ?_, ?_⟩
  · exact {
      index := ⟨_, _, .initial hc⟩
      mem_live := fun q => iff_of_false (Finset.notMem_empty q) (hempty q)
      retired := fun g hg => absurd hg (by omega)
      sized := fun id _ hne => absurd (by rw [hf]; rfl) hne
      charged := fun id hid _ => by
        rw [ht] at hid
        exact ⟨Nat.lt_one_iff.mp hid, ht⟩
      beyond := fun _ _ => by rw [hf]; rfl
      short := fun id _ => by rw [ht]; exact Nat.zero_le _
      small := by simp
      noted := fun s q hs hq => absurd ⟨s, hs, hq⟩ (hempty q)
      here := by simp [hl]
      balanced := by
        rw [hf]
        exact FreeMemManager.balanced_ofSize ..
      cacheSize := hsize }
  · rw [owed, hf, FreeMemManager.owed_ofSize]
    exact Nat.zero_le _

theorem contentSize_ofPage (pg : Page) (a : Addr) (ns : ℕ) :
    (TimedEntry.ofPage pg a ns).contentSize ≤ 2065 := by
  have hn := pg.hdr.type.num_le
  simp only [TimedEntry.contentSize, TimedEntry.ofPage, CacheEntry.ofPage, List.length_map,
    List.length_range]
  omega

/-- The arguments of `add_to_cache` that it can read. -/
def Readable (pNode : Page) : Prop :=
  0 < pNode.hdr.depth ∧ pNode.hdr.depth - 1 ≤ keyLen ∧ pNode.hdr.partials.length ≤ hPartialLenMax

instance : DecidablePred Readable := fun _ => inferInstanceAs (Decidable (_ ∧ _ ∧ _))

section add
variable {k : Key keyLen} {pNode : Page} {a : Addr}

/-- `add_to_cache` returns unless the pool is exhausted, and within the budget. -/
theorem Good.add (h : Good m) (hr : Readable pNode)
    (hroom : pNode.hdr.depth = 1 ∨ (m.index.allocate (.ofPage pNode a m.index.nowNs)).isSome) :
    ∃ m', m.addToCache k pNode a = some m' ∧ Good m' := by
  obtain ⟨hpos, hkey, hpart⟩ := hr
  rw [addToCache, if_neg (by omega)]
  by_cases hd : pNode.hdr.depth - 1 = 0
  · exact ⟨m, if_pos hd, h⟩
  rw [if_neg hd]
  obtain ⟨⟨p, c⟩, ha⟩ := Option.isSome_iff_exists.mp (hroom.resolve_left (by omega))
  obtain ⟨live, inv, ho⟩ := h
  have hlen : (cachePath k pNode.hdr).length = pNode.hdr.depth - 1 + pNode.hdr.partials.length := by
    simp only [cachePath, Key.pre, List.length_append, List.length_take, Key.length_bytes]
    omega
  have hne : cachePath k pNode.hdr ≠ [] := List.length_pos_iff.mp (by omega)
  obtain ⟨m₁, live₁, hins, inv₁, ho₁⟩ :=
    inv.insert ha (contentSize_ofPage ..) hne (by rw [pathLen]; omega)
  rw [ha]
  dsimp only [Option.bind_eq_bind, Option.bind_some]
  rw [hins]
  refine ⟨_, rfl, ?_⟩
  have hb := inv.budget_lt
  split
  · obtain ⟨live₂, inv₂, ho₂⟩ := inv₁.evict (by omega)
    exact ⟨live₂, inv₂, ho₂⟩
  · rename_i hle
    rw [inv₁.remain (by omega)] at hle
    exact ⟨live₁, inv₁, by omega⟩

theorem Good.added (h : Good m) (hm : m.addToCache k pNode a = some m') : Good m' := by
  have hr : Readable pNode := by
    by_contra hr
    rw [addToCache, if_pos] at hm
    · cases hm
    · rw [Readable] at hr
      omega
  have hroom : pNode.hdr.depth = 1 ∨ (m.index.allocate (.ofPage pNode a m.index.nowNs)).isSome := by
    by_contra hroom
    obtain ⟨hd, hroom⟩ := not_or.mp hroom
    obtain ⟨hpos, hkey, hpart⟩ := hr
    rw [addToCache, if_neg (by omega), if_neg (by omega), Option.not_isSome_iff_eq_none.mp hroom] at hm
    cases hm
  obtain ⟨m₁, hm₁, h₁⟩ := h.add (k := k) hr hroom
  exact Option.some.inj (hm₁.symm.trans hm) ▸ h₁

end add

theorem Good.invalidate (h : Good m) {x : Option RootSlot} (op : Option EntryPtr)
    (hx : ∀ s ∈ x, m.HasSlot s) : Good (m.invalidate x op) := by
  obtain ⟨live, inv, ho⟩ := h
  obtain ⟨live', inv', ho'⟩ := inv.invalidate op hx
  refine ⟨live', inv', ho'.trans ?_⟩
  rwa [budget, cacheSize_invalidate]

theorem Good.elapse (h : Good m) (ns : ℕ) :
    Good { m with index := { m.index with nowNs := m.index.nowNs + ns } } := by
  obtain ⟨live, inv, ho⟩ := h
  obtain ⟨l, path, hc⟩ := inv.index
  exact ⟨live, { inv with index := ⟨l, path, hc.elapse ns⟩ }, ho⟩

theorem size_invalidate (m : MeteredCache) (s : SlotPtr) (p : EntryPtr) :
    (m.invalidate (some (m.root, s)) (some p)).index.trie.size = m.index.trie.size := by
  by_cases hp : m.index.trie.entryAt s = some p
  · rw [invalidate_here hp, RadixCache.size_invalidate]
  · simp [MeteredCache.invalidate, entryAt, hp]

theorem Good.scan {k : Key keyLen} {items : List SearchRet} {x : Option (RootSlot × EntryPtr × ℕ)}
    (h : Good m) (hs : ∀ it ∈ items, it.entryPtrPtr.1 < m.index.trie.size)
    (hm : scanStack k items m = some (m', x)) : Good m' := by
  induction items generalizing m with
  | nil =>
    cases hm
    exact h
  | cons it items ih =>
    have hrest : ∀ it ∈ items, it.entryPtrPtr.1 < m.index.trie.size := fun y hy => hs y (by simp [hy])
    obtain ⟨b, hb, hm⟩ := Option.bind_eq_some_iff.mp hm
    cases hp : it.entryPtr with
    | none =>
      rw [hp] at hm
      exact ih h hrest hm
    | some p =>
      rw [hp] at hm
      dsimp only at hm
      split at hm
      · refine ih (h.invalidate (some p) ?_) ?_ hm
        · rintro _ ⟨⟩
          exact ⟨le_rfl, by simpa using hs it (by simp)⟩
        · rwa [size_invalidate]
      · split at hm
        · cases hm
          exact h
        · exact ih h hrest hm

theorem Good.search {k : Key keyLen} {x : Option (RootSlot × EntryPtr × ℕ)} (h : Good m)
    (hm : m.searchFromCache k = some (m', x)) : Good m' := by
  obtain ⟨items, hit, hm⟩ := Option.bind_eq_some_iff.mp hm
  refine h.scan (fun it hmem => ?_) hm
  obtain ⟨live, inv, -⟩ := h
  obtain ⟨l, path, hc⟩ := inv.index
  obtain ⟨items', hit', hcol⟩ := Trie.search_collects hc.wf (k.pre (keyLen - 1))
  rw [hit] at hit'
  cases hit'
  obtain ⟨s, hs, rfl, -, -⟩ := hcol.sound it hmem
  exact hs.1

theorem scanStack_returns (k : Key keyLen) {items : List SearchRet}
    (hs : ∀ it ∈ items, it.nextIdx < keyLen) (m : MeteredCache) :
    ∃ r, scanStack k items m = some r := by
  induction items generalizing m with
  | nil => exact ⟨_, rfl⟩
  | cons it items ih =>
    have hrest : ∀ it ∈ items, it.nextIdx < keyLen := fun y hy => hs y (by simp [hy])
    obtain ⟨b, hb⟩ : ∃ b, k.bytes[it.nextIdx]? = some b :=
      ⟨_, List.getElem?_eq_getElem (by rw [k.length_bytes]; exact hs it (by simp))⟩
    rw [scanStack, hb, Option.bind_eq_bind, Option.bind_some]
    split
    · exact ih hrest m
    · split
      · exact ih hrest _
      · split
        · exact ⟨_, rfl⟩
        · exact ih hrest m

theorem Good.search_returns (h : Good m) (k : Key keyLen) : ∃ r, m.searchFromCache k = some r := by
  obtain ⟨live, inv, -⟩ := h
  obtain ⟨l, path, hc⟩ := inv.index
  obtain ⟨items, hit, hcol⟩ := Trie.search_collects hc.wf (k.pre (keyLen - 1))
  obtain ⟨r, hr⟩ := scanStack_returns k (fun _ => hcol.nextIdx_lt) m
  exact ⟨r, by rw [searchFromCache, hit]; exact hr⟩

theorem Good.next (h : Good m) {a : Call} (hm : m.next a = some m') : Good m' := by
  cases a with
  | add k pNode nodeAddr => exact h.added hm
  | invalidate x op =>
    rw [MeteredCache.next] at hm
    split at hm
    · rename_i hx
      cases hm
      exact h.invalidate op hx
    · cases hm
  | search k =>
    obtain ⟨⟨m₁, x⟩, hs, rfl⟩ := Option.map_eq_some_iff.mp hm
    exact h.search hs
  | elapse ns =>
    cases hm
    exact h.elapse ns

/-- The pages and the slots that a call is given are such, and the pool can serve it. -/
def Served (m : MeteredCache) : Call → Prop
  | .add _ pNode a => Readable pNode ∧
      (pNode.hdr.depth = 1 ∨ (m.index.allocate (.ofPage pNode a m.index.nowNs)).isSome)
  | .invalidate s _ => ∀ x ∈ s, m.HasSlot x
  | .search _ | .elapse _ => True

instance (m : MeteredCache) : DecidablePred m.Served
  | .add .. => inferInstanceAs (Decidable (_ ∧ (_ ∨ _)))
  | .invalidate s _ => inferInstanceAs (Decidable (∀ x ∈ s, m.HasSlot x))
  | .search _ | .elapse _ => isTrue trivial

/-- Every call that is served returns, the eviction of an addition included. -/
theorem Good.returns (h : Good m) {a : Call} (hs : m.Served a) :
    ∃ m', m.next a = some m' ∧ Good m' := by
  obtain ⟨m', hm⟩ : ∃ m', m.next a = some m' := by
    cases a with
    | add k pNode nodeAddr => exact (h.add hs.1 hs.2).imp fun _ => And.left
    | invalidate x op => exact ⟨_, if_pos hs⟩
    | search k =>
      obtain ⟨r, hr⟩ := h.search_returns k
      exact ⟨r.1, by rw [MeteredCache.next, hr]; rfl⟩
    | elapse ns => exact ⟨_, rfl⟩
  exact ⟨m', hm, h.next hm⟩

theorem good_of_reachable (h : system.Reachable m) : Good m :=
  h.invariant (fun _ => good_initial) fun _ _ _ _ h _ hm => h.next hm

def FreshRoot (m : MeteredCache) (id : ℕ) : Prop := id = 0 ∧ m.freeManager.nodeMemSize 0 = none

/-- What is missing from the budget is what the nodes below `cache_root` and the live entries
take, every live entry waits in `eviction_list`, and the budget is not exceeded. -/
structure Exact (m : MeteredCache) : Prop where
  sum : ∃ nodes live : Finset ℕ,
    (∀ id, id ∈ nodes ↔ m.index.trie.Reaches id ∧ ¬ m.FreshRoot id) ∧
    (∀ p, p ∈ live ↔ ∃ s : SlotPtr, m.index.trie.Reaches s.1 ∧ m.index.trie.entryAt s = some p) ∧
    (m.budget : ℤ) - m.freeManager.remainSize =
      ((∑ id ∈ nodes, (m.index.trie.node id).contentSize + ∑ p ∈ live, (m.index.entry p).contentSize : ℕ) : ℤ)
  noted : ∀ (s : SlotPtr) p, m.index.trie.Reaches s.1 → m.index.trie.entryAt s = some p →
    ((m.root, s), p) ∈ m.evictionList
  bounded : 0 ≤ m.freeManager.remainSize

def chargedNodes (m : MeteredCache) : Finset ℕ :=
  (Finset.range m.index.trie.size).filter (m.freeManager.nodeMemSize · ≠ none)

theorem Inv.sum_recorded (inv : Inv m live) :
    ∑ id ∈ Finset.range m.index.trie.size, m.freeManager.recorded id =
      ∑ id ∈ m.chargedNodes, (m.index.trie.node id).contentSize := by
  rw [chargedNodes, Finset.sum_filter]
  refine Finset.sum_congr rfl fun id hid => ?_
  have hid := Finset.mem_range.mp hid
  split
  · rename_i hne
    have hle := contentSize_le_nodeBound (inv.short id hid)
    have hlt : nodeBound < 2 ^ 64 := by decide
    rw [FreeMemManager.recorded, inv.sized id hid hne, Option.getD_some, BitVec.toNat_ofNat,
      Nat.mod_eq_of_lt (by omega)]
  · rename_i hn
    rw [FreeMemManager.recorded, not_not.mp hn]
    rfl

theorem Good.exact (h : Good m) : Exact m := by
  have hnn := h.remain_nonneg
  obtain ⟨live, inv, ho⟩ := h
  obtain ⟨l, path, hc⟩ := inv.index
  have hb := inv.budget_lt
  refine ⟨⟨m.chargedNodes, live, fun id => ?_, fun p => ?_, ?_⟩, fun s p hs hp => ?_, hnn⟩
  · rw [chargedNodes, Finset.mem_filter, Finset.mem_range, hc.wf.reaches_iff, FreshRoot]
    refine and_congr_right fun hid => not_congr ⟨fun hn => ?_, fun ⟨h0, hn⟩ => h0 ▸ hn⟩
    obtain ⟨rfl, -⟩ := inv.charged id hid hn
    exact ⟨rfl, hn⟩
  · rw [inv.mem_live, Trie.Live]
    simp only [hc.wf.reaches_iff]
  · rw [inv.remain (by omega), owed, FreeMemManager.owed, inv.sum_recorded, sub_sub_cancel]
    rfl
  · rw [hc.wf.reaches_iff] at hs
    exact inv.noted s p hs hp

/-- In every state that calls of the cache reach, its memory accounting is exact, and an
addition that the pool can serve returns within the budget. -/
theorem accounting_exact (h : system.Reachable m) :
    Exact m ∧ ∀ (k : Key keyLen) (pNode : Page) (a : Addr), Readable pNode →
      (m.index.allocate (.ofPage pNode a m.index.nowNs)).isSome →
      ∃ m', m.addToCache k pNode a = some m' ∧ 0 ≤ m'.freeManager.remainSize := by
  have hgood := good_of_reachable h
  refine ⟨hgood.exact, fun k pNode a hr hroom => ?_⟩
  obtain ⟨m', hm, h'⟩ := hgood.add hr (.inr hroom)
  exact ⟨m', hm, h'.remain_nonneg⟩

/-- A cache of `size` megabytes before the first call. -/
def emptyMetered (size : ℕ) : MeteredCache where
  index := RadixCache.emptyCache
  root := 0
  retired _ := .empty
  freeManager := .ofSize (BitVec.ofNat 64 (mB * size))
  evictionList := []
  cacheSize := size

/-- Three prefixes with two splits, an invalidation, and a replacement. -/
def replaceRun : List Call :=
  [.add (int2key 8 0x0102030405060708) (RadixCache.pageWith 2 [2, 3, 4, 5] 6) 1,
    .add (int2key 8 0x0102030405060708) (RadixCache.pageWith 3 [3] 4) 2,
    .add (int2key 8 0x0102090405060708) (RadixCache.pageWith 4 [4] 5) 3,
    .invalidate (some (0, 2, 3)) (some 1),
    .add (int2key 8 0x0102090405060708) (RadixCache.pageWith 4 [4] 5) 4]

theorem accounting_after_replacement :
    system.Ends (emptyMetered 1) replaceRun fun m =>
      (m.freeManager.remainSize = 2 ^ 20 - 189 ∧ m.evictionList.length = 4) ∧ Exact m := by
  have he : system.Ends (emptyMetered 1) replaceRun fun m =>
      m.freeManager.remainSize = 2 ^ 20 - 189 ∧ m.evictionList.length = 4 := by
    decide +kernel
  obtain ⟨m, hm, hr⟩ := he
  have h0 : system.Reachable (emptyMetered 1) :=
    .init ⟨⟨rfl, rfl, rfl, rfl⟩, rfl, rfl, by decide, rfl⟩
  exact ⟨m, hm, hr, (accounting_exact (h0.run hm)).1⟩

/-- For every finite sequence of calls, one at a time: as long as the pool can serve them they all
return, and the accounting is exact after them. -/
theorem served_calls_account {m₀ : MeteredCache} (h₀ : m₀.Initial) {calls : List Call}
    (hs : system.Meets Served m₀ calls) : system.Ends m₀ calls Exact := by
  obtain ⟨m, hr, hm⟩ := hs.ends (fun _ _ h hs => h.returns hs) (good_initial h₀)
  exact ⟨m, hr, hm.exact⟩

theorem replacement_served : system.Meets Served (emptyMetered 1) replaceRun ∧
    system.Ends (emptyMetered 1) replaceRun Exact := by
  have hs : system.Meets Served (emptyMetered 1) replaceRun := by decide +kernel
  exact ⟨hs, served_calls_account ⟨⟨rfl, rfl, rfl, rfl⟩, rfl, rfl, by decide, rfl⟩ hs⟩

-- without any budget every addition evicts its own entry and replaces the trie
example : system.Ends (emptyMetered 0) (replaceRun.take 2) fun m =>
    m.root = 2 ∧ m.freeManager.remainSize = 0 := by
  decide +kernel

end SmartTree.MeteredCache
