import SmartTree.RadixCache.Meter

/-! What `_insert` charges: every node that it makes or whose size it changes. -/
namespace SmartTree

namespace CacheNode

theorem contentSize_congr {nd nd' : CacheNode} (hh : nd'.header = nd.header)
    (hr : ∀ b, (nd'.records b).isSome = (nd.records b).isSome) : nd'.contentSize = nd.contentSize := by
  simp [contentSize, recordNum, hh, hr]

theorem contentSize_le (nd : CacheNode) : nd.contentSize ≤ 1 + nd.header.partials.length + 17 * 256 := by
  have h : nd.recordNum ≤ allBytes.length := List.countP_le_length
  rw [allBytes, List.length_map, List.length_range] at h
  rw [contentSize, CacheHeader.contentSize]
  omega

end CacheNode

namespace Trie
variable {t t' : Trie} {bs : List UInt8} {e : EntryPtr} {r : Inserted}

/-- A write to the link of a record that is there leaves all sizes as they are. -/
theorem contentSize_setNext {id : ℕ} {b : UInt8} (h : ((t.node id).records b).isSome) (x : Option ℕ)
    (k : ℕ) : ((t.setNext id b x).node k).contentSize = (t.node k).contentSize := by
  refine CacheNode.contentSize_congr (header_setNext ..) fun c => ?_
  rw [setNext, records_setRecord]
  split
  · rename_i hk
    rw [hk.1, hk.2, h]
    rfl
  · rfl

theorem contentSize_setEntry {id k : ℕ} (h : k ≠ id) (b : UInt8) (x : Option EntryPtr) :
    ((t.setEntry id b x).node k).contentSize = (t.node k).contentSize := by
  rw [setEntry, setRecord]
  dsimp only
  rw [Function.update_of_ne h]

theorem contentSize_setHeader {id k : ℕ} (h : k ≠ id) (hd : CacheHeader) :
    ((t.setHeader id hd).node k).contentSize = (t.node k).contentSize := by
  rw [setHeader]
  dsimp only
  rw [Function.update_of_ne h]

theorem isSome_of_next {nd : CacheNode} {b : UInt8} {j : ℕ} (h : (nd.record b).next = some j) :
    (nd.records b).isSome := by
  cases hr : nd.records b with
  | none => simp [CacheNode.record, hr] at h
  | some v => rfl

inductive Ending (t : Trie) (bs : List UInt8) (e : EntryPtr) : Inserted → Prop
  | split {parent node idx i : ℕ} {cur h : UInt8} {t' : Trie} {charged : List ℕ} {slot : SlotPtr}
      (hid : node < t.size) (ht : t.splitNode bs e parent node idx i cur h = some t')
      (hc : t.splitCharged bs e node idx i cur h = some (charged, slot)) :
      Ending t bs e ⟨t', none, charged, slot⟩
  | last {node : ℕ} {b : UInt8} (hid : node < t.size) :
      Ending t bs e ⟨t.setEntry node b (some e), ((t.node node).record b).cacheEntry, [node], (node, b)⟩
  | hang {node start : ℕ} {b back : UInt8} (hid : node < t.size) (hb : bs.getLast? = some back) :
      Ending t bs e ⟨(t.setNext node b (some t.size)).alloc (.leaf bs start e), none, [node, t.size],
        (t.size, back)⟩

theorem insertMetered_ending {path : ℕ → List UInt8} (wf : t.WF path) (fuel : ℕ) (parent : Option ℕ)
    (node idx : ℕ) (hid : node < t.size)
    (h : insertMetered bs e fuel parent node idx t = some r) : Ending t bs e r := by
  induction fuel generalizing parent node idx with
  | zero => cases h
  | succ fuel ih =>
    rw [insertMetered] at h
    obtain ⟨d, hd, h⟩ := Option.bind_eq_some_iff.mp h
    cases d with
    | some d =>
      obtain ⟨i, cur, hb⟩ := d
      obtain ⟨p, hp, h⟩ := Option.bind_eq_some_iff.mp h
      obtain ⟨t', ht, h⟩ := Option.bind_eq_some_iff.mp h
      obtain ⟨x, hx, h⟩ := Option.bind_eq_some_iff.mp h
      cases h
      exact .split hid ht hx
    | none =>
      obtain ⟨b, hb, h⟩ := Option.bind_eq_some_iff.mp h
      dsimp only at h
      split at h
      · cases h
        exact .last hid
      · cases hv : ((t.node node).record b).next with
        | none =>
          rw [hv] at h
          obtain ⟨back, hback, h⟩ := Option.bind_eq_some_iff.mp h
          cases h
          exact .hang hid hback
        | some j =>
          rw [hv] at h
          have hj : t.nextAt node b = some j := by
            obtain ⟨v, hr⟩ := Option.isSome_iff_exists.mp (isSome_of_next hv)
            simpa [nextAt, CacheNode.record, hr] using hv
          exact ih _ j _ (wf.tree.link node b j hid hj).1 h

/-- `u` is `t` with more nodes; those that are new or differ in size are among `ids`, and no
header has more than `len` bytes. -/
structure Reshapes (t : Trie) (len : ℕ) (ids : List ℕ) (u : Trie) : Prop where
  size : t.size ≤ u.size
  alive : ∀ id ∈ ids, id < u.size
  kept : ∀ id < u.size, id ∉ ids → id < t.size ∧ (u.node id).contentSize = (t.node id).contentSize
  short : ∀ id < u.size, (u.node id).header.partials.length ≤ len

/-- Its entries are entries of `t` in the same slots. -/
def KeepsEntries (t u : Trie) : Prop :=
  ∀ (s : SlotPtr) q, s.1 < u.size → u.entryAt s = some q → s.1 < t.size ∧ t.entryAt s = some q

/-- What an insertion means for the accounting: nodes that it does not charge are as before,
and so are the entries except for the new one in the slot it notes. -/
structure Charges (t : Trie) (e : EntryPtr) (len : ℕ) (r : Inserted) : Prop
    extends Reshapes t len r.charged r.trie where
  few : r.charged.length ≤ 3
  slot : r.slot.1 < r.trie.size
  entries : ∀ (s : SlotPtr) q, s.1 < r.trie.size → r.trie.entryAt s = some q →
    s = r.slot ∧ q = e ∨ s.1 < t.size ∧ t.entryAt s = some q

section shapes
variable {u : Trie} {len node : ℕ} {ids ids' : List ℕ} {nd : CacheNode}

theorem Reshapes.alloc (hu : Reshapes t len ids u) (hnd : nd.header.partials.length ≤ len)
    (hids : ∀ k, k ∈ ids' ↔ k = u.size ∨ k ∈ ids) : Reshapes t len ids' (u.alloc nd) where
  size := hu.size.trans (Nat.le_succ _)
  alive id h := by
    obtain rfl | h := (hids id).mp h
    · exact Nat.lt_succ_self _
    · exact Nat.lt_succ_of_lt (hu.alive id h)
  kept id h hne := by
    rw [hids, not_or] at hne
    rw [node_alloc, if_neg hne.1]
    exact hu.kept id (lt_of_le_of_ne (Nat.lt_succ_iff.mp h) hne.1) hne.2
  short id h := by
    rw [node_alloc]
    split
    · exact hnd
    · rename_i hne
      exact hu.short id (lt_of_le_of_ne (Nat.lt_succ_iff.mp h) hne)

theorem KeepsEntries.alloc (hu : KeepsEntries t u)
    (he : ∀ b, (nd.records b).bind CacheNodeValue.cacheEntry = none) : KeepsEntries t (u.alloc nd) := by
  intro s q hs hq
  rw [entryAt_alloc] at hq
  split at hq
  · rw [he] at hq
    cases hq
  · rename_i hne
    exact hu s q (lt_of_le_of_ne (Nat.lt_succ_iff.mp hs) hne) hq

theorem Reshapes.file {b : UInt8} (hu : Reshapes t len ids u) (hk : KeepsEntries t u)
    (hnd : nd.header.partials.length ≤ len) (hids : ∀ k, k ∈ ids' ↔ k = u.size ∨ k ∈ ids)
    (hfew : ids'.length ≤ 3)
    (he : ∀ c q, (nd.records c).bind CacheNodeValue.cacheEntry = some q → c = b ∧ q = e) :
    Charges t e len ⟨u.alloc nd, none, ids', (u.size, b)⟩ where
  toReshapes := hu.alloc hnd hids
  few := hfew
  slot := Nat.lt_succ_self _
  entries s q hs hq := by
    dsimp only at hs hq ⊢
    rw [entryAt_alloc] at hq
    split at hq
    · rename_i hsize
      obtain ⟨hb, rfl⟩ := he s.2 q hq
      exact .inl ⟨Prod.ext hsize hb, rfl⟩
    · rename_i hne
      exact .inr (hk s q (lt_of_le_of_ne (Nat.lt_succ_iff.mp hs) hne) hq)

theorem charges_last {b : UInt8} {old : Option EntryPtr} (hid : node < t.size)
    (hlen : ∀ id < t.size, (t.node id).header.partials.length ≤ len) :
    Charges t e len ⟨t.setEntry node b (some e), old, [node], (node, b)⟩ where
  size := le_rfl
  alive := by simpa using hid
  kept id h hne := ⟨h, contentSize_setEntry (by simpa using hne) ..⟩
  short id h := by
    rw [header_setEntry]
    exact hlen id h
  few := by simp
  slot := hid
  entries s q hs hq := by
    rw [entryAt_setEntry] at hq
    split at hq
    · rename_i he
      exact .inl ⟨he, (Option.some.inj hq).symm⟩
    · exact .inr ⟨hs, hq⟩

theorem length_leaf_le (start : ℕ) : (CacheNode.leaf bs start e).header.partials.length ≤ bs.length := by
  simp only [CacheNode.leaf, CacheHeader.ofBytes, List.length_take, List.length_drop]
  omega

theorem entry_leaf {start : ℕ} {back : UInt8} (hb : bs.getLast? = some back) (b : UInt8) (q : EntryPtr)
    (h : ((CacheNode.leaf bs start e).records b).bind CacheNodeValue.cacheEntry = some q) :
    b = back ∧ q = e := by
  simp only [CacheNode.leaf, hb] at h
  split at h
  · rename_i he
    exact ⟨(Option.some.inj he).symm, (Option.some.inj h).symm⟩
  · cases h

theorem charges_hang {start : ℕ} {b back : UInt8} (hid : node < t.size) (hb : bs.getLast? = some back)
    (hbs : bs.length ≤ len) (hlen : ∀ id < t.size, (t.node id).header.partials.length ≤ len) :
    Charges t e len ⟨(t.setNext node b (some t.size)).alloc (.leaf bs start e), none, [node, t.size],
      (t.size, back)⟩ := by
  have hu : Reshapes t len [node] (t.setNext node b (some t.size)) := by
    refine ⟨le_rfl, by simpa using hid, fun id h hne => ⟨h, ?_⟩, fun id h => ?_⟩
    · simp only [setNext, setRecord, Function.update_of_ne (List.ne_of_not_mem_cons hne)]
    · rw [header_setNext]
      exact hlen id h
  have hk : KeepsEntries t (t.setNext node b (some t.size)) := by
    intro s q hs hq
    rw [entryAt_setNext] at hq
    exact ⟨hs, hq⟩
  refine hu.file hk ((length_leaf_le start).trans hbs) (fun k => ?_) (by simp) (entry_leaf hb)
  simp [or_comm]

/-- The node that a split makes has the new entry at the second byte, or nowhere and a leaf
node nested under it. -/
theorem split_entries (bs : List UInt8) (e : EntryPtr) (start partialLen next nested : ℕ) (byte₁ byte₂ : UInt8) :
    ((CacheNode.split bs start partialLen byte₁ next byte₂ e nested).2 = none ∧
      ∀ b q, ((CacheNode.split bs start partialLen byte₁ next byte₂ e nested).1.records b).bind
        CacheNodeValue.cacheEntry = some q → b = byte₂ ∧ q = e) ∨
    (∃ start', (CacheNode.split bs start partialLen byte₁ next byte₂ e nested).2 =
        some (.leaf bs start' e)) ∧
      ∀ b, ((CacheNode.split bs start partialLen byte₁ next byte₂ e nested).1.records b).bind
        CacheNodeValue.cacheEntry = none := by
  rw [CacheNode.split]
  split_ifs with h₁ h₂
  · refine .inl ⟨rfl, fun b q h => ?_⟩
    dsimp only at h
    split_ifs at h with hb
    · exact ⟨hb.trans h₁, (Option.some.inj h).symm⟩
    · cases h
  · refine .inl ⟨rfl, fun b q h => ?_⟩
    dsimp only at h
    split_ifs at h with hb hb'
    · cases h
    · exact ⟨hb', (Option.some.inj h).symm⟩
    · cases h
  · refine .inr ⟨⟨_, rfl⟩, fun b => ?_⟩
    dsimp only
    split_ifs <;> rfl

theorem length_split_le (bs : List UInt8) (e : EntryPtr) (start partialLen next nested : ℕ) (byte₁ byte₂ : UInt8) :
    (CacheNode.split bs start partialLen byte₁ next byte₂ e nested).1.header.partials.length ≤
      bs.length := by
  have hh : (CacheNode.split bs start partialLen byte₁ next byte₂ e nested).1.header =
      CacheHeader.ofBytes bs start partialLen := by
    rw [CacheNode.split]
    split_ifs <;> rfl
  rw [hh, CacheHeader.ofBytes, List.length_take, List.length_drop]
  omega

/-- Before the nodes that a split makes, the link of the parent is moved and the header of the
node is cut; that changes the size of the node only. -/
theorem splitNode_eq {parent idx i : ℕ} {cur h : UInt8} (hid : node < t.size)
    (hlen : ∀ id < t.size, (t.node id).header.partials.length ≤ len)
    (ht : t.splitNode bs e parent node idx i cur h = some t') :
    ∃ u, u.size = t.size ∧ Reshapes t len [node] u ∧ KeepsEntries t u ∧ t' =
      match CacheNode.split bs idx ((t.node node).header.depth + i - idx) h node cur e (t.size + 1) with
      | (new, none) => u.alloc new
      | (new, some nd) => (u.alloc new).alloc nd := by
  obtain ⟨b, hb, ht⟩ := Option.bind_eq_some_iff.mp ht
  dsimp only at ht
  split at ht
  · cases ht
  · rename_i hn
    refine ⟨(t.setNext parent b (some t.size)).setHeader node ((t.node node).header.splitHeader i),
      rfl, ⟨le_rfl, by simpa using hid, fun k hk hne => ⟨hk, ?_⟩, fun k hk => ?_⟩, fun s q hs hq => ?_, ?_⟩
    · rw [contentSize_setHeader (List.ne_of_not_mem_cons hne),
        contentSize_setNext (isSome_of_next (not_not.mp hn))]
    · rw [header_setHeader]
      split
      · rename_i he
        have := hlen k hk
        rw [CacheHeader.splitHeader, List.length_drop, ← he]
        omega
      · rw [header_setNext]
        exact hlen k hk
    · rw [entryAt_setHeader, entryAt_setNext] at hq
      exact ⟨hs, hq⟩
    · generalize CacheNode.split bs idx ((t.node node).header.depth + i - idx) h node cur e
        (t.size + 1) = sp at ht ⊢
      obtain ⟨new, nested⟩ := sp
      cases nested <;> exact (Option.some.inj ht).symm

theorem charges_split {parent idx i : ℕ} {cur h : UInt8} {slot : SlotPtr} (hid : node < t.size)
    (hbs : bs.length ≤ len) (hlen : ∀ id < t.size, (t.node id).header.partials.length ≤ len)
    (ht : t.splitNode bs e parent node idx i cur h = some t')
    (hc : t.splitCharged bs e node idx i cur h = some (ids, slot)) :
    Charges t e len ⟨t', none, ids, slot⟩ := by
  obtain ⟨u, hsize, hu, hk, rfl⟩ := splitNode_eq hid hlen ht
  obtain ⟨back, hback, hc⟩ := Option.bind_eq_some_iff.mp hc
  have hshort := (length_split_le bs e idx ((t.node node).header.depth + i - idx) node (t.size + 1) h
    cur).trans hbs
  have hent := split_entries bs e idx ((t.node node).header.depth + i - idx) node
    (t.size + 1) h cur
  generalize CacheNode.split bs idx ((t.node node).header.depth + i - idx) h node cur e
    (t.size + 1) = sp at hc hshort hent ⊢
  obtain ⟨new, nested⟩ := sp
  obtain ⟨rfl, hent⟩ | ⟨⟨start, rfl⟩, hent⟩ := hent
  · cases hc
    rw [← hsize]
    exact hu.file hk hshort (by simp) (by simp) hent
  · cases hc
    have hu' : Reshapes t len [t.size, node] (u.alloc new) := hu.alloc hshort (by simp [hsize])
    have hs : t.size + 1 = (u.alloc new).size := by rw [size_alloc, hsize]
    rw [hs]
    refine hu'.file (hk.alloc hent) ((length_leaf_le start).trans hbs) (fun k => ?_) (by simp)
      (entry_leaf hback)
    simp [or_left_comm]

theorem Ending.charges (h : Ending t bs e r) (hbs : bs.length ≤ len)
    (hlen : ∀ id < t.size, (t.node id).header.partials.length ≤ len) : Charges t e len r := by
  cases h with
  | split hid ht hc => exact charges_split hid hbs hlen ht hc
  | last hid => exact charges_last hid hlen
  | hang hid hb => exact charges_hang hid hb hbs hlen

end shapes

theorem insertMetered_map (hbs : bs ≠ []) (fuel : ℕ) (parent : Option ℕ) (node idx : ℕ) :
    (insertMetered bs e fuel parent node idx t).map (fun r => (r.trie, r.old)) =
      insertLoop bs e fuel parent node idx t := by
  induction fuel generalizing parent node idx with
  | zero => rfl
  | succ fuel ih =>
    have hback := List.getLast?_eq_some_getLast hbs
    rw [insertMetered, insertLoop]
    cases parseHeader bs (t.node node).header.depth (t.node node).header.partials 0 with
    | none => rfl
    | some d =>
      cases d with
      | some d =>
        obtain ⟨i, cur, h⟩ := d
        cases parent with
        | none => rfl
        | some p =>
          have hc : ∃ x, t.splitCharged bs e node idx i cur h = some x :=
            ⟨_, by rw [splitCharged, hback]; rfl⟩
          obtain ⟨x, hx⟩ := hc
          cases ht : t.splitNode bs e p node idx i cur h <;> simp [ht, hx]
      | none =>
        cases hb : bs[(t.node node).header.depth + (t.node node).header.partials.length]? with
        | none => simp [hb]
        | some b =>
          simp only [hb, Option.bind_eq_bind, Option.bind_some]
          split
          · rfl
          · cases ((t.node node).record b).next with
            | none =>
              rw [hback]
              rfl
            | some j => exact ih ..

/-- An insertion returns, files its entry and charges what it changes. -/
theorem WF.insertMetered {path : ℕ → List UInt8} (wf : t.WF path) (hbs : bs ≠ []) (e : EntryPtr) :
    ∃ r path', insertMetered bs e (bs.length + 1) none 0 0 t = some r ∧
      Inserts t path bs e r.trie path' r.old ∧ Ending t bs e r := by
  obtain ⟨t', old, path', hins, hi⟩ := wf.insert_inserts hbs e
  rw [insert, ← insertMetered_map hbs, Option.map_eq_some_iff] at hins
  obtain ⟨r, hr, he⟩ := hins
  obtain ⟨rfl, rfl⟩ := Prod.mk.inj he
  exact ⟨r, path', hr, hi, insertMetered_ending wf _ _ _ _ wf.tree.alive_root hr⟩

theorem root_charged {fuel : ℕ} (h : insertMetered bs e fuel none 0 0 .empty = some r) :
    0 ∈ r.charged := by
  cases fuel with
  | zero => cases h
  | succ fuel =>
    rw [insertMetered] at h
    obtain ⟨d, hd, h⟩ := Option.bind_eq_some_iff.mp h
    obtain rfl : none = d := Option.some.inj hd
    obtain ⟨b, hb, h⟩ := Option.bind_eq_some_iff.mp h
    dsimp only at h
    split at h
    · cases h
      simp
    · obtain ⟨back, hback, h⟩ := Option.bind_eq_some_iff.mp h
      cases h
      simp

end Trie
end SmartTree
