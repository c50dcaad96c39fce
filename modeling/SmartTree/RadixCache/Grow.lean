import SmartTree.RadixCache.Search

/-! The writes to the trie, and what they do to the words its slots stand for. Besides the
write to a slot there are two: a node under a free link and a node in the middle of a header. -/
namespace SmartTree.Trie
open RadixTree

section writes
variable (t : Trie) (id k : ℕ) (b c : UInt8) (s : SlotPtr) (nd : CacheNode)

@[simp] theorem size_setEntry (e) : (t.setEntry id b e).size = t.size := rfl
@[simp] theorem size_setNext (x) : (t.setNext id b x).size = t.size := rfl
@[simp] theorem size_setHeader (h) : (t.setHeader id h).size = t.size := rfl
@[simp] theorem size_alloc : (t.alloc nd).size = t.size + 1 := rfl

theorem records_setRecord (v : CacheNodeValue) :
    ((t.setRecord id b v).node k).records c =
      if k = id ∧ c = b then some v else (t.node k).records c := by
  by_cases hk : k = id
  · subst hk
    by_cases hc : c = b <;> simp [setRecord, hc]
  · simp [setRecord, hk]

@[simp] theorem header_setEntry (e) : ((t.setEntry id b e).node k).header = (t.node k).header := by
  by_cases hk : k = id
  · subst hk
    simp [setEntry, setRecord]
  · simp [setEntry, setRecord, hk]

@[simp] theorem header_setNext (x) : ((t.setNext id b x).node k).header = (t.node k).header := by
  by_cases hk : k = id
  · subst hk
    simp [setNext, setRecord]
  · simp [setNext, setRecord, hk]

@[simp] theorem entryAt_setEntry (e) :
    (t.setEntry id b e).entryAt s = if s = (id, b) then e else t.entryAt s := by
  obtain ⟨k, c⟩ := s
  simp only [entryAt, setEntry, records_setRecord, Prod.mk.injEq]
  split <;> rfl

@[simp] theorem nextAt_setEntry (e) : (t.setEntry id b e).nextAt k c = t.nextAt k c := by
  simp only [nextAt, setEntry, records_setRecord]
  split
  · rename_i h
    obtain ⟨rfl, rfl⟩ := h
    cases hr : (t.node k).records c <;> simp [CacheNode.record, hr]
  · rfl

@[simp] theorem entryAt_setNext (x) : (t.setNext id b x).entryAt s = t.entryAt s := by
  obtain ⟨k, c⟩ := s
  simp only [entryAt, setNext, records_setRecord]
  split
  · rename_i h
    obtain ⟨rfl, rfl⟩ := h
    cases hr : (t.node k).records c <;> simp [CacheNode.record, hr]
  · rfl

@[simp] theorem nextAt_setNext (x) :
    (t.setNext id b x).nextAt k c = if k = id ∧ c = b then x else t.nextAt k c := by
  simp only [nextAt, setNext, records_setRecord]
  split <;> rfl

@[simp] theorem header_setHeader (h) :
    ((t.setHeader id h).node k).header = if k = id then h else (t.node k).header := by
  by_cases hk : k = id <;> simp [setHeader, hk]

@[simp] theorem records_setHeader (h) :
    ((t.setHeader id h).node k).records = (t.node k).records := by
  by_cases hk : k = id
  · subst hk
    simp [setHeader]
  · simp [setHeader, hk]

@[simp] theorem entryAt_setHeader (h) : (t.setHeader id h).entryAt s = t.entryAt s := by
  simp [entryAt]

@[simp] theorem nextAt_setHeader (h) : (t.setHeader id h).nextAt k c = t.nextAt k c := by
  simp [nextAt]

@[simp] theorem node_alloc : (t.alloc nd).node k = if k = t.size then nd else t.node k := by
  by_cases hk : k = t.size <;> simp [alloc, hk]

@[simp] theorem entryAt_alloc : (t.alloc nd).entryAt s =
    if s.1 = t.size then (nd.records s.2).bind CacheNodeValue.cacheEntry else t.entryAt s := by
  rw [entryAt, node_alloc]
  split <;> rfl

@[simp] theorem nextAt_alloc : (t.alloc nd).nextAt k c =
    if k = t.size then (nd.records c).bind CacheNodeValue.next else t.nextAt k c := by
  rw [nextAt, node_alloc]
  split <;> rfl

theorem setRecord_alloc (v : CacheNodeValue) : (t.alloc nd).setRecord t.size b v =
    t.alloc ⟨nd.header, Function.update nd.records b (some v)⟩ := by
  simp [setRecord, alloc]

end writes

def Holds (t : Trie) (path : ℕ → List UInt8) (w : List UInt8) (p : EntryPtr) : Prop :=
  ∃ s : SlotPtr, s.1 < t.size ∧ t.entryAt s = some p ∧ full t.view path s.1 s.2 = w

/-- What an insertion of `e` under `bs` does to the slots; `old` is the entry it replaces. -/
structure Inserts (t : Trie) (path : ℕ → List UInt8) (bs : List UInt8) (e : EntryPtr) (t' : Trie)
    (path' : ℕ → List UInt8) (old : Option EntryPtr) : Prop where
  wf : t'.WF path'
  holds : ∀ w p, t'.Holds path' w p ↔ if w = bs then p = e else t.Holds path w p
  old : ∀ p, old = some p ↔ t.Holds path bs p
  kept : ∀ s : SlotPtr, s.1 < t.size → s.1 < t'.size ∧ full t'.view path' s.1 s.2 = full t.view path s.1 s.2

section grow
variable {t t' : Trie} {path path' : ℕ → List UInt8} {bs : List UInt8} {e : EntryPtr} {id : ℕ} {b : UInt8}

theorem WF.setEntry (wf : t.WF path) (e : Option EntryPtr) : (t.setEntry id b e).WF path := by
  have hv : (t.setEntry id b e).view = t.view := by
    simp [view, funext_iff]
  refine ⟨hv ▸ wf.tree, fun i hi => ?_, ?_⟩
  · rw [header_setEntry]
    exact wf.depth i hi
  · rw [header_setEntry]
    exact wf.root

/-- Last level: the slot is there, or is made, and takes the new entry. -/
theorem WF.inserts_setEntry (wf : t.WF path) (hid : id < t.size) (hb : full t.view path id b = bs) :
    Inserts t path bs e (t.setEntry id b (some e)) path (t.entryAt (id, b)) := by
  have hf : ∀ s : SlotPtr, full (t.setEntry id b (some e)).view path s.1 s.2 =
      full t.view path s.1 s.2 := fun s => full_congr (by simp [view])
  refine ⟨wf.setEntry _, fun w p => ?_, fun p => ?_, fun s hs => ⟨hs, hf s⟩⟩
  · constructor
    · rintro ⟨s, hs, hp, rfl⟩
      rw [hf, entryAt_setEntry] at *
      by_cases he : s = (id, b)
      · subst he
        simpa [hb, eq_comm] using hp
      · rw [if_neg he] at hp
        rw [if_neg, Holds]
        · exact ⟨s, hs, hp, rfl⟩
        · intro hw
          obtain ⟨h₁, h₂⟩ := wf.tree.full_inj hs hid (hw.trans hb.symm)
          exact he (Prod.ext h₁ h₂)
    · intro h
      split at h
      · exact ⟨(id, b), hid, by simp [h], by rw [hf, hb]; simp_all⟩
      · rename_i hw
        obtain ⟨s, hs, hp, rfl⟩ := h
        refine ⟨s, hs, ?_, hf s⟩
        rw [entryAt_setEntry, if_neg, hp]
        rintro rfl
        exact hw hb
  · constructor
    · intro hp
      exact ⟨(id, b), hid, hp, hb⟩
    · rintro ⟨s, hs, hp, hw⟩
      obtain ⟨h₁, h₂⟩ := wf.tree.full_inj hs hid (hw.trans hb.symm)
      rw [← hp, ← show s = (id, b) from Prod.ext h₁ h₂]

/-- A trie that has grown by new nodes, of whose slots one stands for `bs` and holds the only
new entry. That the word had no slot before follows from the new trie being a tree. -/
theorem Inserts.of_grown (wf' : t'.WF path') (hsize : t.size ≤ t'.size)
    (hkept : ∀ s : SlotPtr, s.1 < t.size →
      t'.entryAt s = t.entryAt s ∧ full t'.view path' s.1 s.2 = full t.view path s.1 s.2)
    (s₀ : SlotPtr) (hs₀ : t.size ≤ s₀.1) (hs₀' : s₀.1 < t'.size)
    (hb : full t'.view path' s₀.1 s₀.2 = bs)
    (hnew : ∀ s : SlotPtr, t.size ≤ s.1 → s.1 < t'.size →
      t'.entryAt s = if s = s₀ then some e else none) :
    Inserts t path bs e t' path' none := by
  have hno : ∀ s : SlotPtr, s.1 < t.size → full t.view path s.1 s.2 ≠ bs := by
    intro s hs hw
    rw [← (hkept s hs).2, ← hb] at hw
    have := (wf'.tree.full_inj (Nat.lt_of_lt_of_le hs hsize) hs₀' hw).1
    omega
  refine ⟨wf', fun w p => ?_, fun p => ?_, fun s hs => ⟨by omega, (hkept s hs).2⟩⟩
  · constructor
    · rintro ⟨s, hs, hp, rfl⟩
      obtain hlt | hge := Nat.lt_or_ge s.1 t.size
      · rw [(hkept s hlt).2, if_neg (hno s hlt)]
        exact ⟨s, hlt, (hkept s hlt).1 ▸ hp, rfl⟩
      · rw [hnew s hge hs] at hp
        split at hp
        · rename_i he
          rw [he, hb, if_pos rfl]
          exact (Option.some.inj hp).symm
        · cases hp
    · intro h
      split at h
      · rename_i hw
        exact ⟨s₀, hs₀', by rw [hnew s₀ hs₀ hs₀', if_pos rfl, h], hw ▸ hb⟩
      · obtain ⟨s, hs, hp, rfl⟩ := h
        exact ⟨s, by omega, (hkept s hs).1.trans hp, (hkept s hs).2⟩
  · constructor
    · rintro ⟨⟩
    · rintro ⟨s, hs, -, hw⟩
      exact absurd hw (hno s hs)

structure Keeps (t : Trie) (path : ℕ → List UInt8) (t' : Trie) (path' : ℕ → List UInt8) : Prop where
  holds : ∀ w p, t'.Holds path' w p ↔ t.Holds path w p
  kept : ∀ s : SlotPtr, s.1 < t.size → s.1 < t'.size ∧ full t'.view path' s.1 s.2 = full t.view path s.1 s.2

theorem Inserts.of_keeps {t₁ : Trie} {path₁ : ℕ → List UInt8} {old : Option EntryPtr}
    (h : Inserts t₁ path₁ bs e t' path' old) (hk : Keeps t path t₁ path₁) :
    Inserts t path bs e t' path' old where
  wf := h.wf
  holds w p := by rw [h.holds, hk.holds]
  old p := by rw [h.old, hk.holds]
  kept s hs := ⟨(h.kept s (hk.kept s hs).1).1, (h.kept s (hk.kept s hs).1).2.trans (hk.kept s hs).2⟩

theorem Keeps.of_grown (hsize : t.size ≤ t'.size)
    (hkept : ∀ s : SlotPtr, s.1 < t.size →
      t'.entryAt s = t.entryAt s ∧ full t'.view path' s.1 s.2 = full t.view path s.1 s.2)
    (hnew : ∀ s : SlotPtr, t.size ≤ s.1 → s.1 < t'.size → t'.entryAt s = none) :
    Keeps t path t' path' := by
  refine ⟨fun w p => ⟨?_, ?_⟩, fun s hs => ⟨by omega, (hkept s hs).2⟩⟩
  · rintro ⟨s, hs, hp, rfl⟩
    obtain hlt | hge := Nat.lt_or_ge s.1 t.size
    · exact ⟨s, hlt, (hkept s hlt).1 ▸ hp, (hkept s hlt).2.symm⟩
    · rw [hnew s hge hs] at hp
      cases hp
  · rintro ⟨s, hs, hp, rfl⟩
    exact ⟨s, by omega, (hkept s hs).1.trans hp, (hkept s hs).2⟩

theorem WF.hang (wf : t.WF path) (hid : id < t.size) (hfree : t.nextAt id b = none) {nd : CacheNode}
    (hd : nd.header.depth = (full t.view path id b).length)
    (hn : ∀ c, (nd.records c).bind CacheNodeValue.next = none) :
    ((t.setNext id b (some t.size)).alloc nd).WF (hangPath t.view path id b t.size) := by
  have hne : ∀ k, k < t.size → k ≠ t.size := fun k hk => hk.ne
  refine ⟨wf.tree.hang (x := t.size) ⟨by simp [view], rfl, fun k => ?_⟩ (fun k hk => ?_) hid hfree ?_
    (fun c => ?_) (fun k c hk h => ?_), fun i hi => ?_, ?_⟩
  · simp only [view, size_alloc, size_setNext]
    omega
  · simp [view, hk]
  · simp [view, hne id hid]
  · simpa [view] using hn c
  · have hkc : ¬(k = id ∧ c = b) := by tauto
    simp [view, hne k hk, hkc]
  · by_cases he : i = t.size
    · subst he
      simpa [hangPath_self] using hd
    · rw [hangPath_of_ne he]
      simpa [he] using wf.depth i (by simp at hi; omega)
  · simpa [(hne 0 wf.tree.alive_root)] using wf.root

/-- The trie with a new node in the middle of the header of `j`, which hangs in the slot `a`
of the node `id`. -/
def splice (t : Trie) (id : ℕ) (a : UInt8) (j i : ℕ) (nd : CacheNode) : Trie :=
  ((t.setNext id a (some t.size)).setHeader j ((t.node j).header.splitHeader i)).alloc nd

section splice
variable {a h : UInt8} {j : ℕ} {l₁ l₂ : List UInt8} {nd : CacheNode}

@[simp] theorem size_splice (t : Trie) (id : ℕ) (a : UInt8) (j i : ℕ) (nd : CacheNode) :
    (t.splice id a j i nd).size = t.size + 1 := rfl

@[simp] theorem node_splice_size (t : Trie) (id : ℕ) (a : UInt8) (j i : ℕ) (nd : CacheNode) :
    (t.splice id a j i nd).node t.size = nd := by
  simp [splice]

theorem entryAt_splice {s : SlotPtr} {i : ℕ} (hs : s.1 < t.size) :
    (t.splice id a j i nd).entryAt s = t.entryAt s := by
  simp [splice, hs.ne]

theorem label_splice (hl : (t.node j).header.partials = l₁ ++ h :: l₂) {k : ℕ} (hk : k ≠ t.size) :
    (t.splice id a j l₁.length nd).view.label k = if k = j then l₂ else t.view.label k := by
  by_cases hj : k = j
  · subst hj
    simp [view, splice, CacheHeader.splitHeader, hl, hk]
  · simp [view, splice, hj, hk]

theorem full_splice (hl : (t.node j).header.partials = l₁ ++ h :: l₂) (hj : j < t.size) {k : ℕ}
    (hk : k < t.size) (b : UInt8) :
    full (t.splice id a j l₁.length nd).view (splitPath path j t.size l₁ h) k b =
      full t.view path k b := by
  have hj' : (t.splice id a j l₁.length nd).view.label j = l₂ := by
    rw [label_splice hl hj.ne, if_pos rfl]
  refine full_splitPath (fun k hx hkj => ?_) hl hj' hk.ne b
  rw [label_splice hl hx, if_neg hkj]

theorem WF.splice (wf : t.WF path) (hid : id < t.size) (hj : t.nextAt id a = some j)
    (hl : (t.node j).header.partials = l₁ ++ h :: l₂) (hd : nd.header = ⟨(path j).length, l₁⟩)
    (hh : (nd.records h).bind CacheNodeValue.next = some j)
    (hn : ∀ c, c ≠ h → (nd.records c).bind CacheNodeValue.next = none) :
    (t.splice id a j l₁.length nd).WF (splitPath path j t.size l₁ h) := by
  have hja : j < t.size := (wf.tree.link id a j hid hj).1
  have hj0 : j ≠ 0 := wf.tree.ne_root hid hj
  have hnext : ∀ k c, k < t.size → (t.splice id a j l₁.length nd).nextAt k c =
      if k = id ∧ c = a then some t.size else t.nextAt k c := by
    intro k c hk
    simp [Trie.splice, hk.ne]
  have hnew : ∀ c, (t.splice id a j l₁.length nd).nextAt t.size c =
      (nd.records c).bind CacheNodeValue.next := by
    intro c
    simp [nextAt]
  refine ⟨wf.tree.split (x := t.size) ⟨by simp [view], rfl, fun k => ?_⟩ (fun k hx hkj => ?_) hid hj hl
    ?_ ?_ ?_ ((hnew h).trans hh) (fun c hc => (hnew c).trans (hn c hc)) (fun k c hk h => ?_),
    fun i hi => ?_, ?_⟩
  · simp only [view, size_splice]
    omega
  · rw [label_splice hl hx, if_neg hkj]
  · rw [label_splice hl hja.ne, if_pos rfl]
  · simp [view, hd]
  · simp only [view]
    rw [hnext id a hid, if_pos ⟨rfl, rfl⟩]
  · simp only [view]
    rw [hnext k c hk, if_neg (by tauto)]
  · by_cases hx : i = t.size
    · subst hx
      simp [hd, splitPath_new hja.ne']
    · have hdep := wf.depth i (by
        rw [size_splice] at hi
        omega)
      by_cases hij : i = j
      · subst hij
        simp [Trie.splice, hx, splitPath_old, CacheHeader.splitHeader, hdep, Nat.add_assoc]
      · simp [Trie.splice, hx, hij, splitPath_of_ne hx hij, hdep]
  · have h0 : (0 : ℕ) ≠ t.size := (show 0 < t.size from wf.tree.alive_root).ne
    simp [Trie.splice, h0, hj0.symm, wf.root]

end splice

end grow
end SmartTree.Trie
