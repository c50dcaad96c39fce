import SmartTree.RadixCache.Live

/-! A search answers from the longest prefix of the key that has a live, unexpired entry with
a record for the next byte of the key. -/
namespace SmartTree.RadixCache
open RadixTree (full)
variable {n : ℕ}

def LeadsOn (b : UInt8) (r : Entry) : Prop := r ≠ .null ∧ r.partialKey = b

instance (b : UInt8) (r : Entry) : Decidable (LeadsOn b r) := inferInstanceAs (Decidable (_ ∧ _))

def Hit (c : RadixCache) (live : Live) (k : Key n) (w : List UInt8) : Prop :=
  w <+: k.bytes ∧ ∃ p e b, live w = some (p, e) ∧ c.isExpired e = false ∧
    k.bytes[w.length]? = some b ∧ ∃ r ∈ e.records, LeadsOn b r

/-- Slot, entry and index are those of the longest such prefix, the index being that of the
first record that leads on. -/
def Longest (c : RadixCache) (live : Live) (k : Key n) (s : SlotPtr) (p : EntryPtr) (i : ℕ) : Prop :=
  ∃ w, Hit c live k w ∧ (∀ w', Hit c live k w' → w'.length ≤ w.length) ∧
    live w = some (p, c.entry p) ∧ c.trie.slotOf w = some s ∧ c.trie.entryAt s = some p ∧
    ∃ b, k.bytes[w.length]? = some b ∧ (∃ r, (c.entry p).records[i]? = some r ∧ LeadsOn b r) ∧
      ∀ j r, j < i → (c.entry p).records[j]? = some r → ¬ LeadsOn b r

/-- `search_from_cache` returns, finds something iff there is such a prefix, and then finds
the longest. -/
def AnswersLongest (c : RadixCache) (live : Live) (k : Key n) : Prop :=
  ∃ c' r, c.searchFromCache k = some (c', r) ∧ (r.isSome ↔ ∃ w, Hit c live k w) ∧
    ∀ s p i, r = some (s, p, i) → Longest c live k s p i

section step
variable {c c' : RadixCache} {live : Live} {path : ℕ → List UInt8} {s : SlotPtr} {p : EntryPtr}

def answer (c : RadixCache) (k : Key n) (it : SearchRet) : Option (SlotPtr × EntryPtr × ℕ) := do
  let p ← it.entryPtr
  if c.isExpired (c.entry p) then none
  else
    let i ← findRecord (c.entry p) (← k.bytes[it.nextIdx]?)
    return (it.entryPtrPtr, p, i)

/-- The scan answers from the first item that has an answer; what it drops on the way has
expired. -/
theorem scanStack_spec (k : Key n) (items : List SearchRet) (c : RadixCache)
    (inv : CacheInv n c live path) (hk : ∀ it ∈ items, it.nextIdx < n)
    (hs : ∀ it ∈ items, it.entryPtrPtr.1 < c.trie.size) :
    ∃ c', scanStack k items c = some (c', items.findSome? (c.answer k)) ∧ CacheInv n c' live path := by
  induction items generalizing c with
  | nil => exact ⟨c, rfl, inv⟩
  | cons it items ih =>
    obtain ⟨b, hb⟩ : ∃ b, k.bytes[it.nextIdx]? = some b :=
      ⟨_, List.getElem?_eq_getElem (by simpa using hk it (by simp))⟩
    have hrest : ∀ it ∈ items, it.nextIdx < n := fun x hx => hk x (by simp [hx])
    have hslots : ∀ it ∈ items, it.entryPtrPtr.1 < c.trie.size := fun x hx => hs x (by simp [hx])
    rw [scanStack, List.findSome?_cons]
    simp only [hb, Option.bind_eq_bind, Option.bind_some]
    cases hp : it.entryPtr with
    | none =>
      rw [show c.answer k it = none by simp [answer, hp]]
      exact ih c inv hrest hslots
    | some p =>
      by_cases he : c.isExpired (c.entry p) = true
      · rw [show c.answer k it = none by simp [answer, hp, he]]
        simp only [he, if_true]
        obtain ⟨c', hc', inv'⟩ := ih _ (inv.expire (hs it (by simp)) he) hrest (by simpa using hslots)
        refine ⟨c', ?_, inv'⟩
        rw [hc']
        congr 3
        funext x
        simp [answer]
      · dsimp only
        rw [if_neg he]
        cases hr : findRecord (c.entry p) b with
        | none =>
          rw [show c.answer k it = none by simp [answer, hp, hb, hr]]
          exact ih c inv hrest hslots
        | some i =>
          rw [show c.answer k it = some (it.entryPtrPtr, p, i) by simp [answer, hp, he, hb, hr]]
          exact ⟨c, rfl, inv⟩

theorem findRecord_eq_some {e : TimedEntry} {b : UInt8} {i : ℕ} : findRecord e b = some i ↔
    (∃ r, e.records[i]? = some r ∧ LeadsOn b r) ∧
      ∀ j r, j < i → e.records[j]? = some r → ¬ LeadsOn b r := by
  rw [findRecord, List.findIdx?_eq_some_iff_getElem]
  constructor
  · rintro ⟨hi, hr, hlt⟩
    refine ⟨⟨_, List.getElem?_eq_getElem hi, of_decide_eq_true hr⟩, fun j r hj hr hl => ?_⟩
    obtain ⟨hj', rfl⟩ := List.getElem?_eq_some_iff.mp hr
    exact hlt j hj (decide_eq_true hl)
  · rintro ⟨⟨r, hr, hl⟩, hlt⟩
    obtain ⟨hi, rfl⟩ := List.getElem?_eq_some_iff.mp hr
    exact ⟨hi, decide_eq_true hl, fun j hj h =>
      hlt j _ hj (List.getElem?_eq_getElem (by omega)) (of_decide_eq_true h)⟩

theorem findRecord_isSome {e : TimedEntry} {b : UInt8} :
    (findRecord e b).isSome ↔ ∃ r ∈ e.records, LeadsOn b r := by
  simp [findRecord, LeadsOn]

theorem answer_item {k : Key n} {i : ℕ} {s' : SlotPtr} :
    c.answer k (c.trie.item path s) = some (s', p, i) ↔
      s' = s ∧ c.trie.entryAt s = some p ∧ c.isExpired (c.entry p) = false ∧
        ∃ b, k.bytes[(full c.trie.view path s.1 s.2).length]? = some b ∧ findRecord (c.entry p) b = some i := by
  simp only [answer, Trie.item, Option.bind_eq_bind, Option.bind_eq_some_iff]
  constructor
  · rintro ⟨q, hq, h⟩
    split at h
    · cases h
    · rename_i he
      obtain ⟨b, hb, i', hi', h⟩ : ∃ b, _ ∧ ∃ i', _ ∧ _ := by
        simpa only [Option.bind_eq_some_iff] using h
      cases h
      exact ⟨rfl, hq, by simpa using he, b, hb, hi'⟩
  · rintro ⟨rfl, hp, he, b, hb, hi⟩
    exact ⟨p, hp, by simp [he, hb, hi]⟩

/-- The prefixes with a hit are those of the items that have an answer. -/
theorem CacheInv.hit_iff (inv : CacheInv n c live path) {k : Key n} {w : List UInt8} :
    Hit c live k w ↔ ∃ s x, c.trie.HasSlot s ∧ full c.trie.view path s.1 s.2 = w ∧
      w <+: k.pre (n - 1) ∧ c.answer k (c.trie.item path s) = some x := by
  constructor
  · rintro ⟨hw, p, e, b, hlive, he, hb, hr⟩
    have hh := (inv.kept w p e hlive).resolve_right (by simp [he])
    have heq := inv.held w p hh
    rw [hlive] at heq
    obtain ⟨-, rfl⟩ := Prod.mk.inj (Option.some.inj heq)
    obtain ⟨s, hs, hp, rfl⟩ := hh
    obtain ⟨i, hi⟩ := Option.isSome_iff_exists.mp (findRecord_isSome.mpr hr)
    have hslot : c.trie.HasSlot s := by
      refine ⟨hs, ?_⟩
      cases hrec : (c.trie.node s.1).records s.2
      · simp [Trie.entryAt, hrec] at hp
      · rfl
    refine ⟨s, (s, p, i), hslot, rfl, ?_, answer_item.mpr ⟨rfl, hp, he, b, hb, hi⟩⟩
    exact List.prefix_take_iff.mpr ⟨hw, inv.short _ p _ hlive⟩
  · rintro ⟨s, ⟨s', p, i⟩, hs, rfl, hw, hx⟩
    obtain ⟨rfl, hp, he, b, hb, hi⟩ := answer_item.mp hx
    refine ⟨hw.trans (List.take_prefix ..), p, c.entry p, b, inv.held _ p ⟨s', hs.1, hp, rfl⟩, he, hb, ?_⟩
    exact findRecord_isSome.mp (by simp [hi])

theorem CacheInv.search (inv : CacheInv n c live path) (k : Key n) :
    ∃ items c', c.trie.search (k.pre (n - 1)) = some items ∧
      c.trie.Collects path (k.pre (n - 1)) 0 items ∧
      c.searchFromCache k = some (c', items.findSome? (c.answer k)) ∧ CacheInv n c' live path := by
  obtain ⟨items, hit, hc⟩ := Trie.search_collects inv.wf (k.pre (n - 1))
  have hslot : ∀ it ∈ items, it.entryPtrPtr.1 < c.trie.size := by
    intro it hmem
    obtain ⟨s, hs, rfl, -, -⟩ := hc.sound it hmem
    exact hs.1
  obtain ⟨c', hscan, inv'⟩ := scanStack_spec k items c inv (fun _ => hc.nextIdx_lt) hslot
  exact ⟨items, c', hit, hc, by simp [searchFromCache, hit, hscan], inv'⟩

theorem CacheInv.answersLongest (inv : CacheInv n c live path) (k : Key n) : AnswersLongest c live k := by
  obtain ⟨items, c', -, hc, hsearch, -⟩ := inv.search k
  have hroot : path 0 = [] := inv.wf.tree.path_root
  have hmem : ∀ s, c.trie.HasSlot s → full c.trie.view path s.1 s.2 <+: k.pre (n - 1) →
      c.trie.item path s ∈ items :=
    fun s hs hf => hc.complete s hs (by rw [hroot]; exact List.nil_prefix) hf
  refine ⟨c', _, hsearch, ⟨fun h => ?_, fun ⟨w, hw⟩ => ?_⟩, fun s p i hr => ?_⟩
  · obtain ⟨x, hx⟩ := Option.isSome_iff_exists.mp h
    obtain ⟨it, hit, hx⟩ := List.exists_of_findSome?_eq_some hx
    obtain ⟨s, hs, rfl, hf, -⟩ := hc.sound it hit
    exact ⟨_, inv.hit_iff.mpr ⟨s, x, hs, rfl, hf, hx⟩⟩
  · obtain ⟨s, x, hs, rfl, hf, hx⟩ := inv.hit_iff.mp hw
    rw [List.findSome?_isSome_iff]
    exact ⟨_, hmem s hs hf, by rw [hx]; rfl⟩
  · obtain ⟨l₁, it, l₂, rfl, hx, hnone⟩ := List.findSome?_eq_some_iff.mp hr
    obtain ⟨s', hs, rfl, hf, -⟩ := hc.sound it (by simp)
    obtain ⟨rfl, hp, he, b, hb, hi⟩ := answer_item.mp hx
    refine ⟨_, inv.hit_iff.mpr ⟨s, _, hs, rfl, hf, hx⟩, fun w hw => ?_, inv.held _ p ⟨s, hs.1, hp, rfl⟩,
      (Trie.slotOf_eq_some inv.wf).mpr ⟨hs, rfl⟩, hp, b, hb, findRecord_eq_some.mp hi⟩
    -- an item with an answer is not above the one that answered, and below it words get shorter
    obtain ⟨s', x, hs', rfl, hf', hx'⟩ := inv.hit_iff.mp hw
    have hsorted := hc.sorted
    rw [List.pairwise_append, List.pairwise_cons] at hsorted
    obtain hmem | hmem := List.mem_append.mp (hmem s' hs' hf')
    · rw [hnone _ hmem] at hx'
      cases hx'
    · obtain he | hmem := List.mem_cons.mp hmem
      · exact (congrArg SearchRet.nextIdx he).le
      · exact (hsorted.2.1.1 _ hmem).le

theorem CacheInv.step (inv : CacheInv n c live path) {a : Call n} (hfit : Fits a) (hn : c.next a = some c') :
    ∃ path', CacheInv n c' (live.next c a) path' := by
  cases a with
  | add k pNode nodeAddr => exact inv.add hfit hn
  | invalidate s p =>
    rw [RadixCache.next] at hn
    split at hn
    · rename_i hs
      cases hn
      exact ⟨path, inv.invalidate s p hs⟩
    · cases hn
  | search k =>
    obtain ⟨items, d, -, -, hsearch, inv'⟩ := inv.search k
    simp only [RadixCache.next, hsearch, Option.map_some] at hn
    cases hn
    exact ⟨path, inv'⟩
  | elapse ns =>
    cases hn
    exact ⟨path, inv.elapse ns⟩

end step

/-- In every state the cache answers a search from the longest prefix of the key that has a
live, unexpired entry with a record for the next byte. -/
theorem answersLongest_of_reach {s : RadixCache × Live}
    (h : (system n).Reach (fun _ a => Fits a) s) (k : Key n) : AnswersLongest s.1 s.2 k := by
  obtain ⟨path, inv⟩ : ∃ path, CacheInv n s.1 s.2 path := by
    refine h.invariant (P := fun s => ∃ path, CacheInv n s.1 s.2 path) ?_ ?_
    · rintro ⟨c, live⟩ ⟨hi, rfl⟩
      exact ⟨_, .initial hi⟩
    · rintro ⟨c, live⟩ a t - ⟨path, inv⟩ hfit hn
      obtain ⟨c', hc', rfl⟩ := Option.map_eq_some_iff.mp hn
      exact inv.step hfit hc'
  exact inv.answersLongest k

/-- A node at a depth with a compressed path and one record, a leaf under the byte `b`. -/
def pageWith (depth : ℕ) (partials : List UInt8) (b : UInt8) : Page where
  rev := .root
  hdr := ⟨depth, .node4, partials⟩
  slots i := if i = 1 then .leaf b 0 else .null

def splitRun : List (Call 8) :=
  [.add (int2key 8 0x0102030405060708) (pageWith 2 [2, 3, 4, 5] 6) 1,
    .add (int2key 8 0x0102030405060708) (pageWith 3 [3] 4) 2,
    .add (int2key 8 0x0102090405060708) (pageWith 4 [4] 5) 3]

def emptyCache : RadixCache := ⟨.empty, fun _ => ⟨⟨0, 0, []⟩, 0⟩, 0, [], [], 0⟩

theorem answersLongest_after_split :
    (system 8).Ends (emptyCache, fun _ => none) splitRun fun s =>
      (s.1.searchFromCache (int2key 8 0x0102030407060708)).map Prod.snd = some (some ((2, 3), 1, 1)) ∧
      AnswersLongest s.1 s.2 (int2key 8 0x0102030407060708) := by
  have hm : (system 8).Meets (fun _ a => Fits a) (emptyCache, fun _ => none) splitRun := by
    decide +kernel
  have he : (system 8).Ends (emptyCache, fun _ => none) splitRun fun s =>
      (s.1.searchFromCache (int2key 8 0x0102030407060708)).map Prod.snd = some (some ((2, 3), 1, 1)) := by
    decide +kernel
  obtain ⟨s, hs, hr⟩ := he
  refine ⟨s, hs, hr, answersLongest_of_reach (Transition.System.Reach.run ?_ hm hs) _⟩
  exact .init ⟨⟨rfl, rfl, rfl, rfl⟩, rfl⟩

end SmartTree.RadixCache
