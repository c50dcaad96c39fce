import SmartTree.Tree.Match
import SmartTree.Tree.Walk

/-! The prefix chain `out_of_place_write_node` builds, seen from the descent of `insert` and
`search`: the new key comes to the new leaf, the keys of the old side to the old entry. -/
namespace SmartTree
variable {n : ℕ}

/-- The bytes of a key at `len` positions from `d` on; position 0 is the virtual byte. -/
def Key.cut (k : Key n) (d len : ℕ) : List UInt8 := (List.range len).map fun i => k.byte (d + i)

/-- One round of the descent in a memory that does not change: past the header, on to the slot
with the next byte of the key. -/
def Mem.descend (m : Mem n) (k : Key n) (w : Walk) : Option Walk :=
  match w.p with
  | .node _ _ a =>
    let r := readNode m w a
    let hdr := r.page.hdr
    if r.valid then
      match hdr.firstDiff k with
      | some none => do
        let b ← getPartial k (hdr.depth + hdr.partials.length)
        descendTo r.page a r.p.type.num (fun e => !e.isNull && e.partialKey == b)
          (hdr.depth + hdr.partials.length) false
      | _ => none
    else none
  | _ => none

def Mem.descends (m : Mem n) (k : Key n) : ℕ → Walk → Option Walk
  | 0, w => some w
  | r + 1, w => (m.descend k w).bind (m.descends k r)

def chainBytes : List (Addr × Page) → List UInt8
  | [] => []
  | [q] => q.2.hdr.partials
  | q :: r :: rest => q.2.hdr.partials ++ (q.2.slots 0).partialKey :: chainBytes (r :: rest)

def ChainDepths : ℕ → List (Addr × Page) → Prop
  | _, [] => True
  | d, q :: rest => q.2.hdr.depth = d ∧ ChainDepths (d + q.2.hdr.partials.length + 1) rest

section loops
variable {k x : Key n} {d len : ℕ}

theorem Key.length_cut : (k.cut d len).length = len := by simp [cut]

theorem Key.cut_succ : k.cut d (len + 1) = k.byte d :: k.cut (d + 1) len := by
  simp only [cut, List.range_succ_eq_map, List.map_cons, List.map_map, Nat.add_zero]
  refine congrArg _ (List.map_congr_left fun i _ => ?_)
  simp only [Function.comp]
  congr 1
  omega

theorem Key.cut_add (j : ℕ) : k.cut d (len + j) = k.cut d len ++ k.cut (d + len) j := by
  induction len generalizing d with
  | zero => simp [cut]
  | succ len ih =>
    rw [show len + 1 + j = len + j + 1 by omega, cut_succ, cut_succ, ih, List.cons_append,
      show d + 1 + len = d + (len + 1) by omega]

theorem partialsFrom_cut (hn : d + len ≤ n + 1) : partialsFrom k d len = some (k.cut d len) := by
  induction len generalizing d with
  | zero => rfl
  | succ len ih =>
    rw [partialsFrom, getPartial_eq (by omega), ih (by omega), Key.cut_succ]
    rfl

theorem ofKey_cut {t : NodeType} (hlen : len ≤ hPartialLenMax) (hn : d + len ≤ n + 1) :
    Header.ofKey k len d t = some ⟨d, t, k.cut d len⟩ := by
  simp [Header.ofKey, hlen, partialsFrom_cut hn]

theorem diffLoop_cut (hn : d + len ≤ n + 1) (h : ∀ i < len, x.byte (d + i) = k.byte (d + i)) :
    Header.diffLoop x d (k.cut d len) = some none := by
  induction len generalizing d with
  | zero => rfl
  | succ len ih =>
    have h0 := h 0 (by omega)
    rw [Nat.add_zero] at h0
    have hrest := ih (d := d + 1) (by omega) fun i hi => by
      have := h (i + 1) (by omega)
      rwa [show d + (i + 1) = d + 1 + i by omega] at this
    rw [Key.cut_succ, Header.diffLoop, getPartial_eq (by omega)]
    simp [h0, hrest]

/-- Where the comparison with a header stops, the bytes before agree. -/
theorem diffLoop_some {bs : List UInt8} {i : ℕ} (h : Header.diffLoop x d bs = some (some i)) :
    d + i ≤ n ∧ (∃ b, bs[i]? = some b ∧ x.byte (d + i) ≠ b) ∧
      ∀ j < i, bs[j]? = some (x.byte (d + j)) := by
  induction bs generalizing d i with
  | nil => simp [Header.diffLoop] at h
  | cons b bs ih =>
    have hd : d ≤ n := by
      by_contra hd
      simp [Header.diffLoop, getPartial, hd] at h
    by_cases hb : x.byte d = b
    · simp only [Header.diffLoop, getPartial_eq hd, Option.bind_eq_bind, Option.bind_some, hb, ne_eq,
        not_true_eq_false, if_false] at h
      obtain ⟨r, hr, hi⟩ := Option.bind_eq_some_iff.mp h
      obtain ⟨i', rfl, rfl⟩ := Option.map_eq_some_iff.mp (Option.some.inj hi)
      obtain ⟨h1, ⟨c, hc, hne⟩, h3⟩ := ih hr
      refine ⟨by omega, ⟨c, by simpa using hc, ?_⟩, fun j hj => ?_⟩
      · rwa [show d + (i' + 1) = d + 1 + i' by omega]
      · cases j with
        | zero => simp [hb]
        | succ j =>
          rw [List.getElem?_cons_succ, h3 j (by omega), show d + (j + 1) = d + 1 + j by omega]
    · simp only [Header.diffLoop, getPartial_eq hd, Option.bind_eq_bind, Option.bind_some, ne_eq, hb,
        not_false_eq_true, if_true] at h
      cases Option.some.inj (Option.some.inj h)
      exact ⟨by simpa using hd, ⟨b, rfl, by simpa using hb⟩, fun j hj => by omega⟩

end loops

/-- The pages stand in memory; behind the smallest node's slots anything may stand. -/
def Stored (m : Mem n) (pages : List (Addr × Page)) : Prop :=
  ∀ q ∈ pages, (m.node q.1).hdr = q.2.hdr ∧ ∀ i < NodeType.node4.num, (m.node q.1).slots i = q.2.slots i

theorem stored_writePages (m : Mem n) {pages : List (Addr × Page)} (h : (pages.map Prod.fst).Nodup) :
    Stored (m.writePages pages) pages := by
  intro q hq
  rw [Mem.writePages_node m h hq]
  exact ⟨rfl, fun i hi => by simp [hi]⟩

section round
variable {m : Mem n} {k x : Key n} {a : Addr} {pg : Page} {depth j : ℕ} {ptr : Ptr} {b : UInt8}

/-- A round through a page cut from a key: the first slot that carries the next byte. -/
theorem descend_page (hst : Stored m [(a, pg)]) (hh : pg.hdr = ⟨depth, .node4, k.cut depth j⟩)
    (hn : depth + j ≤ n) (hx : ∀ i < j, x.byte (depth + i) = k.byte (depth + i)) {i : ℕ}
    (hi : i < NodeType.node4.num) (hne : pg.slots i ≠ .null)
    (hb : (pg.slots i).partialKey = x.byte (depth + j))
    (hfirst : ∀ i' < i, (pg.slots i').partialKey ≠ x.byte (depth + j)) :
    m.descend x ⟨ptr, .node b .node4 a, depth, false⟩ =
      some ⟨.slot a i, pg.slots i, depth + j + 1, false⟩ := by
  obtain ⟨hhdr, hslots⟩ := hst (a, pg) (List.mem_singleton_self _)
  rw [hh] at hhdr
  have hdiff : Header.firstDiff ⟨depth, .node4, k.cut depth j⟩ x = some none :=
    diffLoop_cut (show depth + j ≤ n + 1 by omega) hx
  have hfind : (List.range NodeType.node4.num).find? (fun i' => !((m.node a).slots i').isNull &&
      ((m.node a).slots i').partialKey == x.byte (depth + j)) = some i := by
    refine List.find?_range_eq_some.mpr ⟨?_, List.mem_range.mpr hi, fun i' hlt => ?_⟩
    · rw [hslots i hi]
      simp [Entry.isNull, hne, hb]
    · rw [hslots i' (by omega)]
      simp [hfirst i' hlt]
  have hlen : (k.cut depth j).length = j := Key.length_cut
  simp [Mem.descend, readNode, Page.isValid, hdiff, hhdr, hlen, getPartial_eq hn, descendTo, hfind,
    hslots i hi]

end round

section chain
variable {k : Key n} {diff : UInt8} {old : Entry} {l : Addr}

/-- The chain as it is built: headers and linking bytes spell the bytes of the key, and any key
with these bytes is led through to the last page. -/
structure Leads (k : Key n) (diff : UInt8) (old : Entry) (l : Addr) (depth len : ℕ)
    (pages : List (Addr × Page)) (q : Addr × Page) : Prop where
  last : pages.getLast? = some q
  short : ∀ r ∈ pages, r.2.hdr.partials.length ≤ hPartialLenMax
  spelt : chainBytes pages = k.cut depth len
  depths : ChainDepths depth pages
  deepest : q.2.hdr.depth = depth + (hPartialLenMax + 1) * (len / (hPartialLenMax + 1))
  above : ∀ r ∈ pages, r.2.hdr.depth ≤ q.2.hdr.depth
  slots : q.2.slots = fun i => if i = 0 then old.withPartial diff
    else if i = 1 then .leaf (k.byte (depth + len)) l else .null
  walk : ∀ (m : Mem n) (x : Key n), Stored m pages →
    (∀ i < len, x.byte (depth + i) = k.byte (depth + i)) → ∀ i < NodeType.node4.num,
      q.2.slots i ≠ .null → (q.2.slots i).partialKey = x.byte (depth + len) →
      (∀ i' < i, (q.2.slots i').partialKey ≠ x.byte (depth + len)) → ∀ ptr b,
        m.descends x pages.length ⟨ptr, .node b .node4 ((pages.map Prod.fst).headD 0), depth, false⟩ =
          some ⟨.slot q.1 i, q.2.slots i, depth + len + 1, false⟩

theorem splitPages_leads {nodes : List Addr} {depth len : ℕ} {rev : Ptr} (hn : depth + len ≤ n)
    (hnum : nodes.length = len / (hPartialLenMax + 1) + 1) :
    ∃ pages q, splitPages k diff old l nodes len depth rev = some pages ∧
      pages.map Prod.fst = nodes ∧ Leads k diff old l depth len pages q := by
  induction nodes generalizing depth len rev with
  | nil => simp at hnum
  | cons a nodes ih =>
    cases nodes with
    | nil =>
      have hlen : len ≤ hPartialLenMax := by
        simp only [List.length_cons, List.length_nil, hPartialLenMax] at hnum ⊢
        omega
      let pg : Page := ⟨rev, ⟨depth, .node4, k.cut depth len⟩, fun i =>
        if i = 0 then old.withPartial diff
        else if i = 1 then .leaf (k.byte (depth + len)) l else .null⟩
      refine ⟨[(a, pg)], (a, pg), ?_, rfl, rfl, ?_, rfl, ⟨rfl, trivial⟩, ?_, by simp, rfl, ?_⟩
      · rw [splitPages, ofKey_cut hlen (by omega), getPartial_eq hn]
        rfl
      · intro r hr
        obtain rfl := List.mem_singleton.mp hr
        simpa [pg, Key.length_cut] using hlen
      · simp [pg, Nat.div_eq_of_lt (Nat.lt_succ_of_le hlen)]
      · intro m x hst hx i hi hne hb hfirst ptr b
        simp only [List.length_singleton, Mem.descends]
        rw [List.map_cons, List.headD_cons, descend_page hst rfl hn hx hi hne hb hfirst]
        rfl
    | cons a' rest =>
      simp only [List.length_cons, hPartialLenMax] at hnum
      have hlen : hPartialLenMax + 1 ≤ len := by simp only [hPartialLenMax]; omega
      obtain ⟨pages, q, hp, hfst, hl⟩ := @ih (depth + (hPartialLenMax + 1))
        (len - (hPartialLenMax + 1)) (.slot a 0) (by omega)
        (by simp only [List.length_cons, hPartialLenMax]; omega)
      have hend : depth + (hPartialLenMax + 1) + (len - (hPartialLenMax + 1)) = depth + len := by omega
      obtain ⟨⟨a'', pg'⟩, rest', rfl⟩ := List.exists_cons_of_ne_nil
        (show pages ≠ [] by rintro rfl; simp at hfst)
      obtain ⟨rfl, hrest⟩ := List.cons.inj hfst
      let pg : Page := ⟨rev, ⟨depth, .node4, k.cut depth hPartialLenMax⟩, fun i =>
        if i = 0 then .node (k.byte (depth + hPartialLenMax)) .node4 a'' else .null⟩
      have hpg : pg.slots 0 = .node (k.byte (depth + hPartialLenMax)) .node4 a'' := rfl
      have hdiv : len / (hPartialLenMax + 1) = (len - (hPartialLenMax + 1)) / (hPartialLenMax + 1) + 1 :=
        Nat.div_eq_sub_div (Nat.succ_pos _) hlen
      have hdeep : q.2.hdr.depth = depth + (hPartialLenMax + 1) * (len / (hPartialLenMax + 1)) := by
        rw [hl.deepest, hdiv, Nat.mul_succ]
        omega
      refine ⟨(a, pg) :: (a'', pg') :: rest', q, ?_, by simpa using hrest, ?_, ?_, ?_, ?_, hdeep,
        fun r hr => ?_, ?_, ?_⟩
      · rw [splitPages, ofKey_cut le_rfl (by omega), getPartial_eq (by omega), hp]
        rfl
      · rw [List.getLast?_cons_cons]
        exact hl.last
      · intro r hr
        obtain rfl | hr := List.mem_cons.mp hr
        · exact (Key.length_cut (k := k)).le
        · exact hl.short r hr
      · rw [chainBytes, hl.spelt, hpg]
        conv_rhs => rw [show len = hPartialLenMax + (len - (hPartialLenMax + 1) + 1) by omega,
          Key.cut_add, Key.cut_succ]
        rfl
      · refine ⟨rfl, ?_⟩
        have hd : depth + pg.hdr.partials.length + 1 = depth + (hPartialLenMax + 1) := by
          simp [pg, Key.length_cut, Nat.add_assoc]
        rw [hd]
        exact hl.depths
      · obtain rfl | hr := List.mem_cons.mp hr
        · rw [hdeep]
          exact Nat.le_add_right _ _
        · exact hl.above r hr
      · rw [hl.slots, hend]
      · intro m x hst hx i hi hne hb hfirst ptr b
        have hst' : Stored m ((a'', pg') :: rest') := fun r hr => hst r (List.mem_cons_of_mem _ hr)
        have hhead : Stored m [(a, pg)] := fun r hr => by
          obtain rfl := List.mem_singleton.mp hr
          exact hst _ List.mem_cons_self
        have hx6 : x.byte (depth + hPartialLenMax) = k.byte (depth + hPartialLenMax) :=
          hx _ (by omega)
        rw [List.length_cons, Mem.descends, List.map_cons, List.headD_cons,
          descend_page (i := 0) hhead rfl (by omega) (fun i hi => hx i (by omega)) (by decide)
            (by simp [hpg]) (by rw [hpg, hx6]; rfl) (fun i' hi' => by omega), Option.bind_some, hpg]
        have hwalk := hl.walk m x hst' (fun i hi => by
          have := hx (hPartialLenMax + 1 + i) (by omega)
          rwa [← Nat.add_assoc] at this) i hi hne (by rwa [hend]) (by rwa [hend])
            (.slot a 0) (k.byte (depth + hPartialLenMax))
        rwa [hend] at hwalk

end chain

/-- What a split leaves: the chain spells the bytes of the key, its last node parts the two
sides, and the descent takes the new key to its leaf and the keys of the old side to the old
entry. -/
structure SplitResolves (k : Key n) (depth len : ℕ) (diff : UInt8) (old : Entry) (l : Addr)
    (nodes : List Addr) (ptr : Ptr) (oldSide : Key n → Prop) (pages : List (Addr × Page)) : Prop where
  addrs : pages.map Prod.fst = nodes
  short : ∀ q ∈ pages, q.2.hdr.partials.length ≤ hPartialLenMax
  spelt : chainBytes pages = k.cut depth len
  depths : ChainDepths depth pages
  last : ∃ q, pages.getLast? = some q ∧ q.2.slots 0 = old.withPartial diff ∧
    q.2.slots 1 = .leaf (k.byte (depth + len)) l ∧ (q.2.slots 0).partialKey ≠ (q.2.slots 1).partialKey
  newSide : ∀ m : Mem n, ∃ r,
    (m.writePages pages).descends k r ⟨ptr, .node old.partialKey .node4 (nodes.headD 0), depth, false⟩ =
      some ⟨.slot (nodes.getLastD 0) 1, .leaf (k.byte (depth + len)) l, depth + len + 1, false⟩
  oldSide : ∀ (m : Mem n) (x : Key n), oldSide x → ∃ r,
    (m.writePages pages).descends x r ⟨ptr, .node old.partialKey .node4 (nodes.headD 0), depth, false⟩ =
      some ⟨.slot (nodes.getLastD 0) 0, old.withPartial diff, depth + len + 1, false⟩

section resolves
variable {k : Key n} {diff : UInt8} {old : Entry} {depth len : ℕ} {nodes : List Addr}

theorem splitPages_resolves (hn : depth + len ≤ n) (hold : old ≠ .null)
    (hdiff : diff ≠ k.byte (depth + len))
    (hnum : nodes.length = len / (hPartialLenMax + 1) + 1) (hnd : nodes.Nodup) (l : Addr) (ptr : Ptr)
    (oldSide : Key n → Prop) (hside : ∀ x, oldSide x →
      (∀ i < len, x.byte (depth + i) = k.byte (depth + i)) ∧ x.byte (depth + len) = diff) :
    ∃ pages, splitPages k diff old l nodes len depth ptr = some pages ∧
      SplitResolves k depth len diff old l nodes ptr oldSide pages ∧ ∀ bound,
        ((∀ q ∈ pages, q.2.hdr.depth < bound) ↔
          depth + (hPartialLenMax + 1) * (len / (hPartialLenMax + 1)) < bound) := by
  have hleads : ∃ pages q, splitPages k diff old l nodes len depth ptr = some pages ∧
      pages.map Prod.fst = nodes ∧ Leads k diff old l depth len pages q := splitPages_leads hn hnum
  obtain ⟨pages, q, hp, hfst, hl⟩ := hleads
  have h0 : q.2.slots 0 = old.withPartial diff := by rw [hl.slots]; rfl
  have h1 : q.2.slots 1 = .leaf (k.byte (depth + len)) l := by rw [hl.slots]; rfl
  have hb0 : (q.2.slots 0).partialKey = diff := by rw [h0, Entry.partialKey_withPartial hold]
  have hlast : nodes.getLastD 0 = q.1 := by
    rw [← hfst, List.getLastD_eq_getLast?, List.getLast?_map, hl.last]
    rfl
  have hst : ∀ m : Mem n, Stored (m.writePages pages) pages :=
    fun m => stored_writePages m (hfst ▸ hnd)
  refine ⟨pages, hp, ⟨hfst, hl.short, hl.spelt, hl.depths, ⟨q, hl.last, h0, h1, ?_⟩, fun m => ?_,
    fun m x hx => ?_⟩, fun bound => hl.deepest ▸ ⟨fun h => h q ?_, fun h r hr => ?_⟩⟩
  · rw [hb0, h1]
    exact hdiff
  · refine ⟨pages.length, ?_⟩
    rw [← hfst, hl.walk _ k (hst m) (fun _ _ => rfl) 1 (by decide) (by simp [h1]) (by rw [h1]; rfl)
      fun i' hi' => ?_, h1, hfst, hlast]
    obtain rfl : i' = 0 := by omega
    rwa [hb0]
  · obtain ⟨hx1, hx2⟩ := hside x hx
    refine ⟨pages.length, ?_⟩
    rw [← hfst, hl.walk _ x (hst m) hx1 0 (by decide) (by simpa [h0] using hold) (by rw [hb0, hx2])
      (fun i' hi' => by omega), h0, hfst, hlast]
  · exact List.mem_of_getLast? hl.last
  · exact (hl.above r hr).trans_lt h

theorem longestCommonPrefix_bytes {k' : Key n} (hne : k' ≠ k)
    (h : ∀ p < depth, k'.byte p = k.byte p) (hl : longestCommonPrefix k' k depth = some len) :
    depth + len ≤ n ∧ (∀ i < len, k'.byte (depth + i) = k.byte (depth + i)) ∧
      k'.byte (depth + len) ≠ k.byte (depth + len) := by
  unfold longestCommonPrefix at hl
  split at hl
  · rename_i hd
    obtain rfl := Option.some.inj hl
    obtain ⟨-, h2, h3, h4⟩ := lcpLoop_spec k' k depth (n - depth + 1) 0
    have heq : ∀ i < lcpLoop k' k depth (n - depth + 1) 0, k'.byte (depth + i) = k.byte (depth + i) :=
      fun i hi => h3 i (by omega) hi
    have hlt : lcpLoop k' k depth (n - depth + 1) 0 < n - depth + 1 := by
      by_contra hge
      refine hne (Key.ext_bytes ?_)
      have hall : k'.bytes.take (0 + n) = k.bytes.take (0 + n) :=
        Key.take_eq_of_bytes rfl (by omega) fun i hi => by
          by_cases hp : 0 + 1 + i < depth
          · exact h _ hp
          · have := heq (0 + 1 + i - depth) (by omega)
            rwa [show depth + (0 + 1 + i - depth) = 0 + 1 + i by omega] at this
      rwa [List.take_of_length_le (by simp), List.take_of_length_le (by simp)] at hall
    exact ⟨by omega, heq, h4 (by omega)⟩
  · cases hl

end resolves

end SmartTree
