import SmartTree.RadixCache.Grow

/-! `_insert` files the new entry in the slot of its byte string and nowhere else. Its four
shapes are an existing slot, a leaf node under a free link, a node in the middle of a header
that takes the entry itself, and such a node with a leaf node nested under it. -/
namespace SmartTree.Trie
open RadixTree

section insert
variable {t t' : Trie} {path path' : ℕ → List UInt8} {bs : List UInt8} {e : EntryPtr} {id : ℕ} {b : UInt8}

/-- Internal level with a free link: a leaf node takes the rest of the bytes. -/
theorem WF.inserts_hang (wf : t.WF path) (hid : id < t.size) (hfree : t.nextAt id b = none)
    (hb : full t.view path id b <+: bs) (hlt : (full t.view path id b).length < bs.length) :
    Inserts t path bs e
      ((t.setNext id b (some t.size)).alloc (.leaf bs (full t.view path id b).length e))
      (hangPath t.view path id b t.size) none := by
  obtain ⟨w, rfl⟩ := hb
  obtain rfl | ⟨m, z, rfl⟩ := List.eq_nil_or_concat' w
  · simp at hlt
  have hhdr : (CacheNode.leaf (full t.view path id b ++ (m ++ [z]))
      (full t.view path id b).length e).header.partials = m := by
    simp [CacheNode.leaf, CacheHeader.ofBytes]
  have hrec : ∀ c, (CacheNode.leaf (full t.view path id b ++ (m ++ [z]))
      (full t.view path id b).length e).records c = if c = z then some ⟨some e, none⟩ else none := by
    intro c
    simp [CacheNode.leaf, eq_comm]
  refine .of_grown (wf.hang hid hfree rfl fun c => ?_) (by simp) (fun s hs => ?_) (t.size, z)
    (by simp) (by simp) ?_ (fun s hs hs' => ?_)
  · rw [hrec]
    split <;> rfl
  · exact ⟨by simp [hs.ne], full_hangPath (fun k hk => by simp [view, hk]) hs.ne _⟩
  · have hlabel : ((t.setNext id b (some t.size)).alloc (.leaf (full t.view path id b ++ (m ++ [z]))
        (full t.view path id b).length e)).view.label t.size = m := by
      simpa [view] using hhdr
    rw [full, hangPath_self, hlabel, List.append_assoc]
  · obtain ⟨k, c⟩ := s
    obtain rfl : k = t.size := by simp at hs hs'; omega
    by_cases hc : c = z <;> simp [hrec, hc]

section split
variable {a h cur : UInt8} {j : ℕ} {l₁ l₂ : List UInt8}

theorem WF.inserts_splice (wf : t.WF path) (hid : id < t.size) (hj : t.nextAt id a = some j)
    (hl : (t.node j).header.partials = l₁ ++ h :: l₂) {nd : CacheNode}
    (hd : nd.header = ⟨(path j).length, l₁⟩)
    (hn : ∀ c, (nd.records c).bind CacheNodeValue.next = if c = h then some j else none)
    (he : ∀ c, (nd.records c).bind CacheNodeValue.cacheEntry = if c = cur then some e else none)
    (hb : path j ++ l₁ ++ [cur] = bs) :
    Inserts t path bs e (t.splice id a j l₁.length nd) (splitPath path j t.size l₁ h) none := by
  have hja : j < t.size := (wf.tree.link id a j hid hj).1
  refine .of_grown
    (wf.splice hid hj hl hd (by simp [hn]) fun c hc => by simp [hn, hc])
    (by simp) (fun s hs => ⟨entryAt_splice hs, full_splice hl hja hs _⟩) (t.size, cur) (by simp) (by simp) ?_
    (fun s hs hs' => ?_)
  · rw [full, splitPath_new hja.ne', ← hb]
    simp [view, hd]
  · obtain ⟨k, c⟩ := s
    obtain rfl : k = t.size := by simp at hs hs'; omega
    simp [entryAt, he]

/-- The new node leads on to a nested leaf node: first the header is split, then the leaf hung
under the new node. -/
theorem WF.inserts_nested (wf : t.WF path) (hid : id < t.size) (hj : t.nextAt id a = some j)
    (hl : (t.node j).header.partials = l₁ ++ h :: l₂) (hne : cur ≠ h)
    (hb : path j ++ l₁ ++ [cur] <+: bs) (hlt : (path j ++ l₁ ++ [cur]).length < bs.length) :
    ∃ path', Inserts t path bs e ((t.splice id a j l₁.length ⟨⟨(path j).length, l₁⟩,
      fun c => if c = h then some ⟨none, some j⟩
        else if c = cur then some ⟨none, some (t.size + 1)⟩ else none⟩).alloc
          (.leaf bs ((path j).length + l₁.length + 1) e)) path' none := by
  have hja : j < t.size := (wf.tree.link id a j hid hj).1
  let nd : CacheNode := ⟨⟨(path j).length, l₁⟩, fun c => if c = h then some ⟨none, some j⟩ else none⟩
  let t₁ := t.splice id a j l₁.length nd
  have hnd : ∀ c, nd.records c = if c = h then some ⟨none, some j⟩ else none := fun _ => rfl
  have wf₁ : t₁.WF (splitPath path j t.size l₁ h) :=
    wf.splice hid hj hl rfl (by simp [hnd]) fun c hc => by simp [hnd, hc]
  have hx : t.size < t₁.size := by simp [t₁]
  have hfull : full t₁.view (splitPath path j t.size l₁ h) t.size cur = path j ++ l₁ ++ [cur] := by
    rw [full, splitPath_new hja.ne']
    simp [view, t₁, nd]
  have hb₁ : full t₁.view (splitPath path j t.size l₁ h) t.size cur <+: bs := hfull ▸ hb
  have hins := wf₁.inserts_hang (e := e) hx (by simp [t₁, nextAt, hnd, hne]) hb₁ (hfull ▸ hlt)
  rw [hfull] at hins
  -- linking the leaf into the node is what gives the node its second record
  have heq : (t₁.setNext t.size cur (some t₁.size)).alloc (.leaf bs (path j ++ l₁ ++ [cur]).length e) =
      (t.splice id a j l₁.length ⟨⟨(path j).length, l₁⟩,
        fun c => if c = h then some ⟨none, some j⟩
          else if c = cur then some ⟨none, some (t.size + 1)⟩ else none⟩).alloc
            (.leaf bs ((path j).length + l₁.length + 1) e) := by
    have hrec : Function.update nd.records cur (some { nd.record cur with next := some t₁.size }) =
        fun c => if c = h then some ⟨none, some j⟩
          else if c = cur then some ⟨none, some (t.size + 1)⟩ else none := by
      funext c
      by_cases hc : c = cur
      · subst hc
        simp [CacheNode.record, hnd, hne, t₁]
      · simp [hnd, hc]
    have hset : t₁.setNext t.size cur (some t₁.size) = t.splice id a j l₁.length
        ⟨nd.header, Function.update nd.records cur (some { nd.record cur with next := some t₁.size })⟩ := by
      simp only [setNext, t₁, node_splice_size]
      exact setRecord_alloc ..
    rw [hset, hrec]
    simp [nd, Nat.add_assoc]
  refine ⟨_, (heq ▸ hins).of_keeps (.of_grown hx.le
    (fun s hs => ⟨entryAt_splice hs, full_splice hl hja hs _⟩) fun s hs hs' => ?_)⟩
  obtain ⟨k, c⟩ := s
  obtain rfl : k = t.size := by simp [t₁] at hs hs'; omega
  by_cases hc : c = h <;> simp [entryAt, t₁, hnd, hc]

theorem record_next (t : Trie) (id : ℕ) (b : UInt8) : ((t.node id).record b).next = t.nextAt id b := by
  cases h : (t.node id).records b <;> simp [CacheNode.record, nextAt, h]

theorem record_cacheEntry (t : Trie) (id : ℕ) (b : UInt8) :
    ((t.node id).record b).cacheEntry = t.entryAt (id, b) := by
  cases h : (t.node id).records b <;> simp [CacheNode.record, entryAt, h]

theorem WF.splitNode_inserts (wf : t.WF path) (hid : id < t.size) (hj : t.nextAt id a = some j)
    (hl : (t.node j).header.partials = l₁ ++ h :: l₂) (hb : path j ++ l₁ ++ [cur] <+: bs)
    (hstop : path j ++ l₁ ++ [cur] = bs ∨ cur ≠ h) :
    ∃ t' path', t.splitNode bs e id j (path j).length l₁.length cur h = some t' ∧
      Inserts t path bs e t' path' none := by
  obtain ⟨hja, hjp⟩ := wf.tree.link id a j hid hj
  have hbyte : bs[(path j).length - 1]? = some a := by
    obtain ⟨w, rfl⟩ := hb
    rw [hjp]
    simp [full]
  have hhdr : CacheHeader.ofBytes bs (path j).length ((t.node j).header.depth + l₁.length - (path j).length) =
      ⟨(path j).length, l₁⟩ := by
    obtain ⟨w, rfl⟩ := hb
    simp [CacheHeader.ofBytes, wf.depth j hja]
  have hlen := hb.length_le
  simp only [List.length_append, List.length_cons, List.length_nil] at hlen
  simp only [splitNode, hbyte, Option.bind_eq_bind, Option.bind_some, record_next, hj, ne_eq,
    not_true_eq_false, if_false, CacheNode.split, hhdr]
  by_cases hcur : cur = h
  · subst hcur
    have hb' : path j ++ l₁ ++ [cur] = bs := hstop.resolve_right (by simp)
    refine ⟨_, _, by rw [if_pos rfl]; rfl, wf.inserts_splice hid hj hl rfl (fun c => ?_) (fun c => ?_) hb'⟩
    all_goals by_cases hc : c = cur <;> simp [hc]
  · rw [if_neg (Ne.symm hcur)]
    by_cases hend : bs.length - 1 ≤ (path j).length + ((t.node j).header.depth + l₁.length - (path j).length)
    · have hb' : path j ++ l₁ ++ [cur] = bs := by
        refine hb.eq_of_length ?_
        rw [wf.depth j hja] at hend
        simp only [List.length_append, List.length_cons, List.length_nil]
        omega
      refine ⟨_, _, by rw [if_pos hend]; rfl, wf.inserts_splice hid hj hl rfl (fun c => ?_) (fun c => ?_) hb'⟩
      · by_cases hc : c = h
        · simp [hc]
        · by_cases hc' : c = cur <;> simp [hc, hc', hcur]
      · by_cases hc : c = h
        · simp [hc, Ne.symm hcur]
        · by_cases hc' : c = cur <;> simp [hc, hc', hcur]
    · rw [wf.depth j hja] at hend
      obtain ⟨path', hins⟩ := wf.inserts_nested (e := e) hid hj hl hcur hb (by
        simp only [List.length_append, List.length_cons, List.length_nil]
        omega)
      refine ⟨_, path', ?_, hins⟩
      rw [wf.depth j hja, if_neg hend, Nat.add_sub_cancel_left]
      rfl

end split

/-- The loop from a node on the way; the parent is the node whose link led here. -/
theorem WF.insertLoop_inserts (wf : t.WF path) (fuel : ℕ) {parent : Option ℕ} (hid : id < t.size)
    (hp : path id <+: bs) (hlt : (path id).length < bs.length)
    (hpar : id ≠ 0 → ∃ i a, parent = some i ∧ i < t.size ∧ t.nextAt i a = some id)
    (hfuel : bs.length < fuel + (path id).length) :
    ∃ t' old path', insertLoop bs e fuel parent id (path id).length t = some (t', old) ∧
      Inserts t path bs e t' path' old := by
  induction fuel generalizing id parent with
  | zero => omega
  | succ fuel ih =>
    have hd := wf.depth id hid
    obtain ⟨hparse, b, hb⟩ | ⟨l₁, h, l₂, cur, hl, hparse, hc, hstop⟩ := wf.parse_cases hid hp hlt
    · have hbyte := byte_of_full hb
      have hlen : (full t.view path id b).length =
        (path id).length + (t.node id).header.partials.length + 1 := length_full
      have hle := hb.length_le
      rw [hd] at hparse
      simp only [insertLoop, hd, hparse, hbyte, Option.bind_eq_bind, Option.bind_some, record_next,
        record_cacheEntry]
      by_cases hlast : (path id).length + (t.node id).header.partials.length = bs.length - 1
      · rw [if_pos hlast]
        exact ⟨_, _, path, rfl, wf.inserts_setEntry hid (hb.eq_of_length (by omega))⟩
      rw [if_neg hlast]
      cases hnext : t.nextAt id b with
      | none =>
        rw [← hlen]
        exact ⟨_, _, _, rfl, wf.inserts_hang hid hnext hb (by omega)⟩
      | some j =>
        obtain ⟨hja, hjp⟩ := wf.tree.link id b j hid hnext
        rw [← hlen, ← hjp]
        exact ih hja (hjp ▸ hb) (by rw [hjp]; omega) (fun _ => ⟨id, b, rfl, hid, hnext⟩)
          (by rw [hjp]; omega)
    · have hne : id ≠ 0 := by
        rintro rfl
        simp [wf.root] at hl
      obtain ⟨i, a, rfl, hi, hia⟩ := hpar hne
      obtain ⟨t', path', ht', hins⟩ := wf.splitNode_inserts (e := e) hi hia hl hc hstop
      refine ⟨t', none, path', ?_, hins⟩
      rw [hd] at hparse
      simp [insertLoop, hd, hparse, ht']

theorem WF.insert_inserts (wf : t.WF path) (hbs : bs ≠ []) (e : EntryPtr) :
    ∃ t' old path', t.insert bs e = some (t', old) ∧ Inserts t path bs e t' path' old := by
  have hr : path 0 = [] := wf.tree.path_root
  have hpos : (path 0).length < bs.length := by
    rw [hr]
    exact List.length_pos_iff.mpr hbs
  have h : ∃ t' old path', insertLoop bs e (bs.length + 1) none 0 (path 0).length t = some (t', old) ∧
      Inserts t path bs e t' path' old :=
    wf.insertLoop_inserts (bs.length + 1) wf.tree.alive_root (hr ▸ List.nil_prefix) hpos
      (fun h => absurd rfl h) (by omega)
  rwa [hr] at h

theorem empty_wf : empty.WF fun _ => [] where
  tree := {
    alive_root := by simp [view, empty]
    path_root := rfl
    link i a j _ h := by simp [view, empty, nextAt, CacheNode.empty] at h
    parent j hj hr := by simp [view, empty] at hj hr; omega }
  depth _ _ := rfl
  root := rfl

end insert
end SmartTree.Trie
