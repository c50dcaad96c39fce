import SmartTree.RadixCache.Insert
import Mathlib.Data.List.Perm.Basic

/-! The cache as a map from prefixes to the entries added last. The map changes by additions
and invalidations alone; the trie holds the entries of the map, except for expired ones that
a search has dropped already. -/
namespace SmartTree.RadixCache
open RadixTree (full full_congr)
variable {n : ℕ}

inductive Call (n : ℕ)
  | add (k : Key n) (pNode : Page) (nodeAddr : Addr)
  | invalidate (entryPtrPtr : Option SlotPtr) (entryPtr : Option EntryPtr)
  | search (k : Key n)
  | elapse (ns : ℕ)

/-- One call, or the passing of time. A slot pointer that a call is given points to a slot. -/
def next (c : RadixCache) : Call n → Option RadixCache
  | .add k pNode nodeAddr => c.addToCache k pNode nodeAddr
  | .invalidate s p =>
    if ∀ x ∈ s, x.1 < c.trie.size then some (c.invalidate s p) else none
  | .search k => (c.searchFromCache k).map Prod.fst
  | .elapse ns => some { c with nowNs := c.nowNs + ns }

/-- The entry added last under each prefix, unless it was invalidated since. -/
abbrev Live := List UInt8 → Option (EntryPtr × TimedEntry)

def Live.next (c : RadixCache) (live : Live) : Call n → Live
  | .add k pNode nodeAddr =>
    if pNode.hdr.depth ≤ 1 then live
    else match c.allocate (.ofPage pNode nodeAddr c.nowNs) with
      | none => live
      | some (p, _) =>
        Function.update live (cachePath k pNode.hdr) (some (p, .ofPage pNode nodeAddr c.nowNs))
  | .invalidate (some s) (some p) => fun w =>
    if c.trie.slotOf w = some s ∧ (live w).map Prod.fst = some p then none else live w
  | _ => live

/-- An empty cache; the memory of the pool and the clock are arbitrary. -/
def Initial (c : RadixCache) : Prop :=
  c.trie = .empty ∧ c.curIdx = 0 ∧ c.freelist = [] ∧ c.gc = []

def system (n : ℕ) : Transition.System (RadixCache × Live) (Call n) where
  init s := s.1.Initial ∧ s.2 = fun _ => none
  next s a := (s.1.next a).map fun c => (c, s.2.next s.1 a)

/-- Nodes are added with a depth of their own and a full prefix that leaves a byte of the key. -/
def Fits : Call n → Prop
  | .add _ pNode _ => 0 < pNode.hdr.depth ∧ pNode.hdr.depth - 1 + pNode.hdr.partials.length ≤ n - 1
  | _ => True

instance : ∀ a : Call n, Decidable (Fits a)
  | .add _ _ _ => inferInstanceAs (Decidable (_ ∧ _))
  | .invalidate _ _ => inferInstanceAs (Decidable True)
  | .search _ => inferInstanceAs (Decidable True)
  | .elapse _ => inferInstanceAs (Decidable True)

/-! The pool: an entry is held by the trie, waits for its release, or is free. -/
section pool
variable {c c' : RadixCache} {held held' : EntryPtr → Prop} {p : EntryPtr} {e : TimedEntry}

structure PoolOk (c : RadixCache) (held : EntryPtr → Prop) : Prop where
  nodup : (c.gc ++ c.freelist).Nodup
  free : ∀ p ∈ c.gc ++ c.freelist, p < c.curIdx ∧ ¬ held p
  used : ∀ p, held p → p < c.curIdx

theorem PoolOk.mono (h : PoolOk c held) (hle : ∀ q, held' q → held q) : PoolOk c held' where
  nodup := h.nodup
  free q hq := ⟨(h.free q hq).1, fun hh => (h.free q hq).2 (hle q hh)⟩
  used q hq := h.used q (hle q hq)

theorem PoolOk.setTrie (h : PoolOk c held) (t : Trie) : PoolOk { c with trie := t } held :=
  ⟨h.nodup, h.free, h.used⟩

theorem drain_perm (gc free : List EntryPtr) : ((drain gc free).1 ++ (drain gc free).2).Perm (gc ++ free) := by
  induction gc generalizing free with
  | nil => exact .refl _
  | cons p gc ih =>
    rw [drain]
    split
    · refine (ih (free ++ [p])).trans ?_
      rw [← List.append_assoc]
      exact List.perm_append_singleton ..
    · exact .refl _

theorem safelyDelete_perm (c : RadixCache) (p : EntryPtr) :
    ((c.safelyDelete p).gc ++ (c.safelyDelete p).freelist).Perm (p :: (c.gc ++ c.freelist)) := by
  refine (drain_perm (c.gc ++ [p]) c.freelist).trans ?_
  rw [List.append_assoc]
  exact List.perm_middle

/-- An entry that the trie held and no longer holds goes to the queue. -/
theorem PoolOk.safelyDelete (h : PoolOk c held) (hp : held p) (hle : ∀ q, held' q → held q ∧ q ≠ p) :
    PoolOk (c.safelyDelete p) held' := by
  have hperm := safelyDelete_perm c p
  refine ⟨hperm.nodup_iff.mpr (List.nodup_cons.mpr ⟨fun hmem => (h.free p hmem).2 hp, h.nodup⟩),
    fun q hq => ?_, fun q hq => h.used q (hle q hq).1⟩
  obtain rfl | hq := List.mem_cons.mp (hperm.mem_iff.mp hq)
  · exact ⟨h.used q hp, fun hh => (hle q hh).2 rfl⟩
  · exact ⟨(h.free q hq).1, fun hh => (h.free q hq).2 (hle q hh).1⟩

theorem PoolOk.allocate (h : PoolOk c held) (ha : c.allocate e = some (p, c')) :
    ¬ held p ∧ PoolOk c' (fun q => held q ∨ q = p) ∧ c'.trie = c.trie ∧ c'.nowNs = c.nowNs ∧
      c'.entry = Function.update c.entry p e := by
  rw [RadixCache.allocate] at ha
  cases hf : c.freelist with
  | cons q rest =>
    have hn := h.nodup
    simp only [hf] at ha hn
    cases ha
    have hq := h.free p (by simp [hf])
    refine ⟨hq.2, ⟨hn.sublist ?_, fun r hr => ?_, fun r hr => ?_⟩, rfl, rfl, rfl⟩
    · exact (List.sublist_cons_self p rest).append_left _
    · have hne : r ≠ p := by
        rintro rfl
        rw [List.perm_middle.nodup_iff, List.nodup_cons] at hn
        exact hn.1 hr
      have hr' := h.free r (by rw [hf]; exact (List.sublist_cons_self p rest).append_left _ |>.subset hr)
      exact ⟨hr'.1, fun hh => hh.elim hr'.2 hne⟩
    · obtain hr | rfl := hr
      exacts [h.used r hr, hq.1]
  | nil =>
    simp only [hf] at ha
    split at ha
    · cases ha
      refine ⟨fun hh => Nat.lt_irrefl _ (h.used _ hh), ⟨by simpa [hf] using h.nodup, fun r hr => ?_,
        fun r hr => ?_⟩, rfl, rfl, rfl⟩
      · have hr' := h.free r (by simpa [hf] using hr)
        exact ⟨Nat.lt_succ_of_lt hr'.1, fun hh => hh.elim hr'.2 hr'.1.ne⟩
      · obtain hr | rfl := hr
        exacts [Nat.lt_succ_of_lt (h.used r hr), Nat.lt_succ_self _]
    · cases ha

end pool

@[simp] theorem entry_safelyDelete (c : RadixCache) (p : EntryPtr) : (c.safelyDelete p).entry = c.entry := rfl
@[simp] theorem nowNs_safelyDelete (c : RadixCache) (p : EntryPtr) : (c.safelyDelete p).nowNs = c.nowNs := rfl
@[simp] theorem trie_safelyDelete (c : RadixCache) (p : EntryPtr) : (c.safelyDelete p).trie = c.trie := rfl

/-- The trie holds exactly the live entries, expired ones apart, and the memory they point to
has not been used again. -/
structure CacheInv (n : ℕ) (c : RadixCache) (live : Live) (path : ℕ → List UInt8) : Prop where
  wf : c.trie.WF path
  pool : PoolOk c fun p => ∃ w, c.trie.Holds path w p
  held : ∀ w p, c.trie.Holds path w p → live w = some (p, c.entry p)
  inj : ∀ w w' p, c.trie.Holds path w p → c.trie.Holds path w' p → w = w'
  kept : ∀ w p e, live w = some (p, e) → c.trie.Holds path w p ∨ c.isExpired e = true
  short : ∀ w p e, live w = some (p, e) → w.length ≤ n - 1

section step
variable {c c' : RadixCache} {live live' : Live} {path : ℕ → List UInt8} {s : SlotPtr} {p : EntryPtr}

theorem not_holds_empty (w : List UInt8) (p : EntryPtr) : ¬ Trie.empty.Holds path w p := by
  rintro ⟨s, -, hp, -⟩
  cases hp

theorem CacheInv.empty (ht : c.trie = .empty) (hn : (c.gc ++ c.freelist).Nodup)
    (hlt : ∀ p ∈ c.gc ++ c.freelist, p < c.curIdx) : CacheInv n c (fun _ => none) fun _ => [] := by
  have hno : ∀ w p, ¬ c.trie.Holds (fun _ => []) w p := ht ▸ not_holds_empty
  refine ⟨ht ▸ Trie.empty_wf, ⟨hn, fun p hp => ⟨hlt p hp, fun ⟨w, hw⟩ => hno w p hw⟩,
    fun p ⟨w, hw⟩ => absurd hw (hno w p)⟩,
    fun w p h => absurd h (hno w p), fun w _ p h => absurd h (hno w p), by simp, by simp⟩

theorem CacheInv.initial (h : c.Initial) : CacheInv n c (fun _ => none) fun _ => [] := by
  obtain ⟨ht, hidx, hfree, hgc⟩ := h
  exact .empty ht (by simp [hfree, hgc]) (by simp [hfree, hgc])

/-- Clearing a slot takes its entry out of the trie and nothing else. -/
theorem holds_clear (wf : c.trie.WF path) (hs : s.1 < c.trie.size) (w : List UInt8) (q : EntryPtr) :
    (c.trie.setEntry s.1 s.2 none).Holds path w q ↔
      c.trie.Holds path w q ∧ w ≠ full c.trie.view path s.1 s.2 := by
  have hf : ∀ x : SlotPtr, full (c.trie.setEntry s.1 s.2 none).view path x.1 x.2 =
      full c.trie.view path x.1 x.2 := fun x => full_congr (by simp [Trie.view])
  constructor
  · rintro ⟨x, hx, hq, rfl⟩
    rw [Trie.entryAt_setEntry] at hq
    split at hq
    · cases hq
    · rename_i hne
      refine ⟨⟨x, hx, hq, (hf x).symm⟩, fun he => hne ?_⟩
      obtain ⟨h₁, h₂⟩ := wf.tree.full_inj hx hs ((hf x).symm.trans he)
      exact Prod.ext h₁ h₂
  · rintro ⟨⟨x, hx, hq, rfl⟩, hne⟩
    refine ⟨x, hx, ?_, hf x⟩
    rw [Trie.entryAt_setEntry, if_neg, hq]
    rintro rfl
    exact hne rfl

/-- An invalidation that finds its entry, for a map that has forgotten the entry of the slot
or has it expired. -/
theorem CacheInv.clear (inv : CacheInv n c live path) (hs : s.1 < c.trie.size) (hp : c.trie.entryAt s = some p)
    (hne : ∀ w, w ≠ full c.trie.view path s.1 s.2 → live' w = live w)
    (hw : ∀ q e, live' (full c.trie.view path s.1 s.2) = some (q, e) →
      live (full c.trie.view path s.1 s.2) = some (q, e) ∧ c.isExpired e = true) :
    CacheInv n (c.invalidate (some s) (some p)) live' path := by
  have hold : c.trie.Holds path (full c.trie.view path s.1 s.2) p := ⟨s, hs, hp, rfl⟩
  have hlive : ∀ w q e, live' w = some (q, e) → live w = some (q, e) := by
    intro w q e h
    by_cases he : w = full c.trie.view path s.1 s.2
    · exact he ▸ (hw q e (he ▸ h)).1
    · exact hne w he ▸ h
  simp only [invalidate, hp, if_true]
  refine ⟨inv.wf.setEntry none, ?_, fun w q h => ?_, fun w w' q h h' => ?_, fun w q e h => ?_,
    fun w q e h => inv.short w q e (hlive w q e h)⟩
  · refine (inv.pool.setTrie (c.trie.setEntry s.1 s.2 none)).safelyDelete ⟨_, hold⟩ ?_
    rintro q ⟨w, hq⟩
    obtain ⟨hq, hwne⟩ := (holds_clear inv.wf hs w q).mp hq
    exact ⟨⟨w, hq⟩, fun he => hwne (inv.inj w _ p (he ▸ hq) hold)⟩
  · obtain ⟨hq, hwne⟩ := (holds_clear inv.wf hs w q).mp h
    rw [hne w hwne]
    exact inv.held w q hq
  · exact inv.inj w w' q ((holds_clear inv.wf hs w q).mp h).1 ((holds_clear inv.wf hs w' q).mp h').1
  · by_cases he : w = full c.trie.view path s.1 s.2
    · exact .inr (hw q e (he ▸ h)).2
    · exact (inv.kept w q e (hlive w q e h)).imp_left fun hh => (holds_clear inv.wf hs w q).mpr ⟨hh, he⟩

theorem invalidate_of_ne (h : c.trie.entryAt s ≠ some p) : c.invalidate (some s) (some p) = c := by
  simp [invalidate, h]

theorem CacheInv.expire (inv : CacheInv n c live path) (hs : s.1 < c.trie.size)
    (he : c.isExpired (c.entry p) = true) : CacheInv n (c.invalidate (some s) (some p)) live path := by
  by_cases hp : c.trie.entryAt s = some p
  · refine inv.clear hs hp (fun _ _ => rfl) fun q e h => ⟨h, ?_⟩
    rw [inv.held _ p ⟨s, hs, hp, rfl⟩] at h
    cases h
    exact he
  · rwa [invalidate_of_ne hp]

theorem Live.next_invalidate (c : RadixCache) (live : Live) (s : SlotPtr) (p : EntryPtr)
    (w : List UInt8) : live.next c (.invalidate (some s) (some p) : Call n) w =
      if c.trie.slotOf w = some s ∧ (live w).map Prod.fst = some p then none else live w := rfl

theorem CacheInv.invalidate (inv : CacheInv n c live path) (os : Option SlotPtr) (op : Option EntryPtr)
    (hs : ∀ x ∈ os, x.1 < c.trie.size) :
    CacheInv n (c.invalidate os op) (live.next c (.invalidate os op : Call n)) path := by
  cases os with
  | none => exact inv
  | some s =>
    cases op with
    | none => exact inv
    | some p =>
      have hs := hs s rfl
      by_cases hp : c.trie.entryAt s = some p
      · have hlive := inv.held _ p ⟨s, hs, hp, rfl⟩
        refine inv.clear hs hp (fun w hw => ?_) fun q e h => ?_
        · rw [Live.next_invalidate, if_neg]
          rintro ⟨hsw, -⟩
          exact hw ((Trie.slotOf_eq_some inv.wf).mp hsw).2.symm
        · rw [Live.next_invalidate, if_pos] at h
          · cases h
          · refine ⟨(Trie.slotOf_eq_some inv.wf).mpr ⟨⟨hs, ?_⟩, rfl⟩, by rw [hlive]; rfl⟩
            cases hr : (c.trie.node s.1).records s.2
            · simp [Trie.entryAt, hr] at hp
            · rfl
      · -- the slot holds something else, so what the map forgets has expired
        rw [invalidate_of_ne hp]
        have hsome : ∀ w q e, live.next c (.invalidate (some s) (some p) : Call n) w = some (q, e) →
            live w = some (q, e) := by
          intro w q e h
          rw [Live.next_invalidate] at h
          split at h
          · cases h
          · exact h
        refine ⟨inv.wf, inv.pool, fun w q h => ?_, inv.inj, fun w q e h => inv.kept w q e (hsome w q e h),
          fun w q e h => inv.short w q e (hsome w q e h)⟩
        rw [Live.next_invalidate, inv.held w q h, if_neg]
        rintro ⟨hsw, hq⟩
        obtain ⟨x, hx, hxq, rfl⟩ := h
        obtain ⟨h₁, h₂⟩ := inv.wf.tree.full_inj hs hx ((Trie.slotOf_eq_some inv.wf).mp hsw).2
        rw [← show s = x from Prod.ext h₁ h₂] at hxq
        exact hp (hxq.trans hq)

theorem CacheInv.elapse (inv : CacheInv n c live path) (ns : ℕ) :
    CacheInv n { c with nowNs := c.nowNs + ns } live path where
  wf := inv.wf
  pool := ⟨inv.pool.nodup, inv.pool.free, inv.pool.used⟩
  held := inv.held
  inj := inv.inj
  kept w p e h := (inv.kept w p e h).imp_right fun he => by
    simp only [isExpired, decide_eq_true_eq] at he ⊢
    omega
  short := inv.short

/-- A new entry is filed under its prefix; the one it replaces is queued for release. -/
theorem CacheInv.insert (inv : CacheInv n c live path) {bs : List UInt8} {e : TimedEntry}
    (hbs : bs ≠ []) (hlen : bs.length ≤ n - 1) (ha : c.allocate e = some (p, c')) :
    ∃ t' old path', c'.trie.insert bs p = some (t', old) ∧
      CacheInv n (match old with
        | none => { c' with trie := t' }
        | some q => { c' with trie := t' }.safelyDelete q) (Function.update live bs (some (p, e))) path' := by
  obtain ⟨hnot, hpool, ht, hnow, hentry⟩ := inv.pool.allocate ha
  obtain ⟨t', old, path', hins, hi⟩ := inv.wf.insert_inserts hbs p
  refine ⟨t', old, path', ht ▸ hins, ?_⟩
  have hne : ∀ w q, c.trie.Holds path w q → q ≠ p := by
    rintro w q hq rfl
    exact hnot ⟨w, hq⟩
  -- what does not depend on the pool, for the cache before and after the release
  suffices h : ∀ d : RadixCache, d.trie = t' → d.entry = c'.entry → d.nowNs = c.nowNs →
      PoolOk d (fun q => ∃ w, t'.Holds path' w q) →
        CacheInv n d (Function.update live bs (some (p, e))) path' by
    cases old with
    | none =>
      refine h _ rfl rfl hnow ((hpool.setTrie t').mono ?_)
      rintro q ⟨w, hq⟩
      rw [hi.holds] at hq
      split at hq
      exacts [.inr hq, .inl ⟨w, hq⟩]
    | some r =>
      have hr := (hi.old r).mp rfl
      refine h _ rfl rfl hnow ((hpool.setTrie t').safelyDelete (.inl ⟨bs, hr⟩) ?_)
      rintro q ⟨w, hq⟩
      rw [hi.holds] at hq
      split at hq
      · exact ⟨.inr hq, hq ▸ (hne bs r hr).symm⟩
      · rename_i hw
        exact ⟨.inl ⟨w, hq⟩, fun he => hw (inv.inj w bs r (he ▸ hq) hr)⟩
  rintro d rfl hd hdn hdp
  refine ⟨hi.wf, hdp, fun w q h => ?_, fun w w' q h h' => ?_, fun w q e' h => ?_, fun w q e' h => ?_⟩
  · rw [hi.holds] at h
    rw [hd, hentry]
    split at h
    · rename_i hw
      simp [hw, h]
    · rename_i hw
      rw [Function.update_of_ne hw, Function.update_of_ne (hne w q h), inv.held w q h]
  · rw [hi.holds] at h h'
    split at h <;> split at h'
    · simp_all
    · exact absurd h (hne w' q h')
    · exact absurd h' (hne w q h)
    · exact inv.inj w w' q h h'
  · rw [hi.holds]
    by_cases hw : w = bs
    · subst hw
      rw [Function.update_self] at h
      cases h
      exact .inl (by simp)
    · rw [Function.update_of_ne hw] at h
      rw [if_neg hw]
      refine (inv.kept w q e' h).imp_right fun he => ?_
      simpa [isExpired, hdn] using he
  · by_cases hw : w = bs
    · exact hw ▸ hlen
    · rw [Function.update_of_ne hw] at h
      exact inv.short w q e' h

theorem CacheInv.add (inv : CacheInv n c live path) {k : Key n} {pNode : Page} {a : Addr}
    (hfit : Fits (.add k pNode a)) (hn : c.addToCache k pNode a = some c') :
    ∃ path', CacheInv n c' (live.next c (.add k pNode a)) path' := by
  obtain ⟨hpos, hlen⟩ := hfit
  rw [addToCache, if_neg (by omega)] at hn
  by_cases h1 : pNode.hdr.depth - 1 = 0
  · rw [if_pos h1] at hn
    cases hn
    exact ⟨path, by rwa [Live.next, if_pos (by omega)]⟩
  rw [if_neg h1] at hn
  cases ha : c.allocate (.ofPage pNode a c.nowNs) with
  | none => simp [ha] at hn
  | some r =>
    obtain ⟨p, d⟩ := r
    have hpath : (cachePath k pNode.hdr).length = pNode.hdr.depth - 1 + pNode.hdr.partials.length := by
      simp only [cachePath, Key.pre, List.length_append, List.length_take, Key.length_bytes]
      omega
    have hne : cachePath k pNode.hdr ≠ [] := List.length_pos_iff.mp (by omega)
    obtain ⟨t', old, path', hins, hi⟩ := inv.insert hne (by omega) ha
    refine ⟨path', ?_⟩
    simp only [ha, hins, Option.bind_eq_bind, Option.bind_some] at hn
    rw [Live.next, if_neg (by omega), ha]
    cases hn
    exact hi

@[simp] theorem size_invalidate (c : RadixCache) (s : Option SlotPtr) (p : Option EntryPtr) :
    (c.invalidate s p).trie.size = c.trie.size := by
  unfold RadixCache.invalidate
  split
  · split <;> rfl
  · rfl

@[simp] theorem entry_invalidate (c : RadixCache) (s : Option SlotPtr) (p : Option EntryPtr) :
    (c.invalidate s p).entry = c.entry := by
  unfold RadixCache.invalidate
  split
  · split <;> rfl
  · rfl

@[simp] theorem isExpired_invalidate (c : RadixCache) (s : Option SlotPtr) (p : Option EntryPtr)
    (e : TimedEntry) : (c.invalidate s p).isExpired e = c.isExpired e := by
  unfold RadixCache.invalidate
  split
  · split <;> rfl
  · rfl

end step
end SmartTree.RadixCache
