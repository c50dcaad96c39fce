import SmartTree.RadixCache.Accounting

/-! An insertion keeps the accounts in order: it charges three nodes and its entry at most, and
the entry it replaces is refunded. -/
namespace SmartTree.MeteredCache
open FreeMemManager (settled mem_settled nodeMemSize_settle)
variable {m : MeteredCache} {live : Finset EntryPtr} {p : EntryPtr}
variable {c : RadixCache} {e : TimedEntry} {bs : List UInt8}

@[simp] theorem trie_indexAfter (c : RadixCache) (r : Inserted) : (indexAfter c r).trie = r.trie := by
  unfold indexAfter
  split <;> rfl

@[simp] theorem entry_indexAfter (c : RadixCache) (r : Inserted) : (indexAfter c r).entry = c.entry := by
  unfold indexAfter
  split <;> rfl

def nodeBound : ℕ := 1 + pathLen + 17 * 256

theorem contentSize_le_nodeBound {nd : CacheNode} (h : nd.header.partials.length ≤ pathLen) :
    nd.contentSize ≤ nodeBound := by
  refine nd.contentSize_le.trans ?_
  exact Nat.add_le_add_right (Nat.add_le_add_left h 1) _

theorem Inv.settle (inv : Inv m live) {r : Inserted} {entry : EntryPtr → TimedEntry}
    (hch : m.index.trie.Charges p pathLen r) (hp : p ∉ live) (hold : ∀ q, r.old = some q → q ∈ live)
    (hsame : ∀ q ∈ live, (entry q).contentSize = m.entrySize q)
    (hsmall : ∀ q, q = p ∨ q ∈ live → (entry q).contentSize ≤ 2065) :
    (m.freeManager.settle r entry p).Balanced m.budget r.trie.size (settled r.old p live)
      (fun q => (entry q).contentSize) ∧
    (m.freeManager.settle r entry p).owed r.trie.size (settled r.old p live)
      (fun q => (entry q).contentSize) ≤ m.owed live + 2 ^ 14 := by
  have howed : m.freeManager.owed r.trie.size live m.entrySize = m.owed live :=
    FreeMemManager.owed_grow hch.size inv.beyond
  have hsum : m.freeManager.owed r.trie.size live (fun q => (entry q).contentSize) = m.owed live := by
    rw [← howed, FreeMemManager.owed, FreeMemManager.owed, Finset.sum_congr rfl hsame]
  have hbal : m.freeManager.Balanced m.budget r.trie.size live fun q => (entry q).contentSize := by
    rw [FreeMemManager.Balanced, hsum]
    exact inv.balanced
  obtain ⟨hbal', ho⟩ := hbal.settle nodeBound hch.alive
    (fun id hid => contentSize_le_nodeBound (hch.short id (hch.alive id hid))) (by decide) hp hold
    fun q hq => (hsmall q hq).trans_lt (by decide)
  refine ⟨hbal', ho.trans ?_⟩
  have h₁ := Nat.mul_le_mul_right nodeBound hch.few
  have h₂ := hsmall p (.inl rfl)
  have h₃ : 3 * nodeBound + 2065 ≤ 2 ^ 14 := by decide
  omega

theorem Inv.insert (inv : Inv m live) (ha : m.index.allocate e = some (p, c))
    (he : e.contentSize ≤ 2065) (hbs : bs ≠ []) (hlen : bs.length ≤ pathLen) :
    ∃ m' live', ({ m with index := c } : MeteredCache).insert bs p = some m' ∧ Inv m' live' ∧
      m'.owed live' ≤ m.owed live + 2 ^ 14 := by
  obtain ⟨l, path, hc⟩ := inv.index
  obtain ⟨hnot, -, ht, -, hentry⟩ := hc.pool.allocate ha
  obtain ⟨r, path', hr, hi, hend⟩ := hc.wf.insertMetered hbs p
  obtain ⟨t', old, path'', hins, hc'⟩ := hc.insert hbs (by omega) ha
  have hch := hend.charges hlen inv.short
  have hfresh : ¬ m.index.trie.Live p := fun h => hnot ((Trie.live_iff_holds path).mp h)
  have hp : p ∉ live := fun h => hfresh ((inv.mem_live p).mp h)
  -- the two descriptions of the insertion are of one insertion
  obtain ⟨rfl, rfl⟩ : r.trie = t' ∧ r.old = old := by
    rw [Trie.insert, ht, ← Trie.insertMetered_map hbs, hr] at hins
    exact Prod.mk.inj (Option.some.inj hins)
  have hold : ∀ q, r.old = some q → q ∈ live := fun q hq =>
    (inv.mem_live q).mpr ((Trie.live_iff_holds path).mpr ⟨bs, (hi.old q).mp hq⟩)
  have hsame : ∀ q ∈ live, (c.entry q).contentSize = m.entrySize q := by
    intro q hq
    rw [hentry, Function.update_of_ne (ne_of_mem_of_not_mem hq hp)]
    rfl
  have hsmall : ∀ q, q = p ∨ q ∈ live → (c.entry q).contentSize ≤ 2065 := by
    rintro q (rfl | hq)
    · rwa [hentry, Function.update_self]
    · exact (hsame q hq).trans_le (inv.small q hq)
  have hrec : ∀ id < r.trie.size, id ∉ r.charged → m.freeManager.nodeMemSize id ≠ none := by
    intro id hid hne hnone
    obtain ⟨rfl, hempty⟩ := inv.charged id (hch.kept id hid hne).1 hnone
    rw [hempty] at hr
    exact hne (Trie.root_charged hr)
  obtain ⟨hbal, howed⟩ := inv.settle hch hp hold hsame hsmall
  have hsize : ∀ id < r.trie.size, (m.freeManager.settle r c.entry p).nodeMemSize id =
      some (BitVec.ofNat 64 (r.trie.node id).contentSize) := by
    intro id hid
    rw [nodeMemSize_settle]
    split
    · rfl
    · rename_i hne
      obtain ⟨hlt, hk⟩ := hch.kept id hid hne
      rw [hk]
      exact inv.sized id hlt (hrec id hid hne)
  have hes : entrySize ⟨indexAfter c r, m.root, m.retired, m.freeManager.settle r c.entry p,
      m.evictionList ++ [((m.root, r.slot), p)], m.cacheSize⟩ = fun q => (c.entry q).contentSize := by
    funext q
    rw [entrySize, entry_indexAfter]
  refine ⟨{ m with
    index := indexAfter c r
    freeManager := m.freeManager.settle r c.entry p
    evictionList := m.evictionList ++ [((m.root, r.slot), p)] }, settled r.old p live, ?_, ?_, ?_⟩
  · rw [MeteredCache.insert, ht, hr]
    rfl
  · exact {
      index := ⟨_, _, hc'⟩
      mem_live := fun q => by
        rw [mem_settled, inv.mem_live, trie_indexAfter, hi.live_iff hc.inj hfresh, or_and_right]
        refine or_congr_left (and_iff_left_of_imp ?_)
        rintro rfl ho
        exact hp (hold q ho)
      retired := inv.retired
      sized := fun id hid _ => by
        rw [trie_indexAfter] at hid ⊢
        exact hsize id hid
      charged := fun id hid hn => by
        rw [trie_indexAfter] at hid
        rw [hsize id hid] at hn
        cases hn
      beyond := fun id hid => by
        rw [trie_indexAfter] at hid
        rw [nodeMemSize_settle, if_neg (fun h => (hch.alive id h).not_ge hid)]
        exact inv.beyond id (hch.size.trans hid)
      short := fun id hid => by
        rw [trie_indexAfter] at hid ⊢
        exact hch.short id hid
      small := fun q hq => by
        rw [entrySize, entry_indexAfter]
        exact hsmall q (mem_settled.mp hq).1
      noted := fun x q hx hq => by
        rw [trie_indexAfter] at hx hq
        obtain ⟨rfl, rfl⟩ | ⟨hx, hq⟩ := hch.entries x q hx hq
        · simp
        · exact List.mem_append_left _ (inv.noted x q hx hq)
      here := fun x hx => by
        rw [trie_indexAfter]
        obtain hx | hx := List.mem_append.mp hx
        · exact ⟨(inv.here x hx).1, (inv.here x hx).2.trans_le hch.size⟩
        · obtain rfl := List.mem_singleton.mp hx
          exact ⟨rfl, hch.slot⟩
      balanced := by
        rw [hes, trie_indexAfter]
        exact hbal
      cacheSize := inv.cacheSize }
  · rw [owed, hes, trie_indexAfter]
    exact howed

end SmartTree.MeteredCache
