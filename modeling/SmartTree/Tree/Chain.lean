import SmartTree.Tree.Layout

/-! The pages `out_of_place_write_node` builds: a chain of full headers linked through
slot 0, whose last node holds the old entry and the new leaf. -/
namespace SmartTree
variable {n : ℕ} {k : Key n} {diff : UInt8} {old : Entry} {l : Addr}

inductive Chain (k : Key n) (diff : UInt8) (old : Entry) (l : Addr) :
    (depth len : ℕ) → List (Addr × Page) → Prop
  | last {a pg depth len} (hlen : len ≤ hPartialLenMax)
      (hh : pg.hdr = ⟨depth, .node4, (k.bytes.drop (depth - 1)).take len⟩)
      (hs : pg.slots = fun i => if i = 0 then old.withPartial diff
        else if i = 1 then .leaf (k.byte (depth + len)) l else .null) :
    Chain k diff old l depth len [(a, pg)]
  | link {a pg a' pg' rest depth len} (hlen : hPartialLenMax + 1 ≤ len)
      (hh : pg.hdr = ⟨depth, .node4, (k.bytes.drop (depth - 1)).take hPartialLenMax⟩)
      (hs : pg.slots = fun i => if i = 0 then .node (k.byte (depth + hPartialLenMax)) .node4 a'
        else .null)
      (hc : Chain k diff old l (depth + (hPartialLenMax + 1)) (len - (hPartialLenMax + 1))
        ((a', pg') :: rest)) :
    Chain k diff old l depth len ((a, pg) :: (a', pg') :: rest)

theorem getPartial_eq {d : ℕ} (hd : d ≤ n) : getPartial k d = some (k.byte d) := by
  simp [getPartial, hd]

theorem Key.byte_eq_getElem {d : ℕ} (hd : 1 ≤ d) (hn : d ≤ n) :
    k.bytes[d - 1]? = some (k.byte d) := by
  have hlt : d - 1 < k.bytes.length := by rw [k.length_bytes]; omega
  have h0 : d ≠ 0 := by omega
  simp [Key.byte, h0, List.getD_eq_getElem?_getD, List.getElem?_eq_getElem hlt]

theorem Key.take_succ {d : ℕ} (hd : 1 ≤ d) (hn : d ≤ n) :
    k.bytes.take d = k.bytes.take (d - 1) ++ [k.byte d] := by
  have hlt : d - 1 < k.bytes.length := by rw [k.length_bytes]; omega
  have he := List.take_succ_eq_append_getElem hlt
  have hb : k.bytes[d - 1] = k.byte d := by
    have := Key.byte_eq_getElem (k := k) hd hn
    rwa [List.getElem?_eq_getElem hlt, Option.some.injEq] at this
  rwa [Nat.sub_add_cancel hd, hb] at he

theorem partialsFrom_eq {depth len : ℕ} (hd : 1 ≤ depth) (hn : depth + len ≤ n + 1) :
    partialsFrom k depth len = some ((k.bytes.drop (depth - 1)).take len) := by
  induction len generalizing depth with
  | zero => simp [partialsFrom]
  | succ len ih =>
    have hlt : depth - 1 < k.bytes.length := by rw [k.length_bytes]; omega
    have hb := Key.byte_eq_getElem (k := k) hd (by omega)
    rw [List.getElem?_eq_getElem hlt, Option.some.injEq] at hb
    rw [partialsFrom, getPartial_eq (by omega), ih (by omega) (by omega),
      List.drop_eq_getElem_cons hlt, hb]
    simp [Nat.sub_add_cancel hd]

theorem Header.ofKey_eq {depth len : ℕ} {t : NodeType} (hlen : len ≤ hPartialLenMax)
    (hd : 1 ≤ depth) (hn : depth + len ≤ n + 1) :
    Header.ofKey k len depth t = some ⟨depth, t, (k.bytes.drop (depth - 1)).take len⟩ := by
  simp [Header.ofKey, hlen, partialsFrom_eq hd hn]

/-- The asserts and key indices on the way hold: the number of nodes leaves at most
`hPartialLenMax` bytes for the last one. -/
theorem splitPages_chain {nodes : List Addr} {depth len : ℕ} {rev : Ptr} (hd : 1 ≤ depth)
    (hn : depth + len ≤ n) (hnum : nodes.length = len / (hPartialLenMax + 1) + 1) :
    ∃ pages, splitPages k diff old l nodes len depth rev = some pages ∧
      pages.map Prod.fst = nodes ∧ Chain k diff old l depth len pages := by
  induction nodes generalizing depth len rev with
  | nil => simp at hnum
  | cons a nodes ih =>
    cases nodes with
    | nil =>
      have hlen : len ≤ hPartialLenMax := by
        simp only [List.length_cons, List.length_nil, hPartialLenMax] at hnum ⊢
        omega
      refine ⟨[(a, ⟨rev, ⟨depth, .node4, (k.bytes.drop (depth - 1)).take len⟩, fun i =>
        if i = 0 then old.withPartial diff
        else if i = 1 then .leaf (k.byte (depth + len)) l else .null⟩)], ?_, rfl, .last hlen rfl rfl⟩
      rw [splitPages, Header.ofKey_eq hlen hd (by omega), getPartial_eq (by omega)]
      rfl
    | cons a' rest =>
      simp only [List.length_cons, hPartialLenMax] at hnum
      have hlen : hPartialLenMax + 1 ≤ len := by simp only [hPartialLenMax]; omega
      obtain ⟨pages, hp, hfst, hc⟩ : ∃ pages, splitPages k diff old l (a' :: rest)
          (len - (hPartialLenMax + 1)) (depth + (hPartialLenMax + 1)) (.slot a 0) = some pages ∧
            pages.map Prod.fst = a' :: rest ∧ Chain k diff old l (depth + (hPartialLenMax + 1))
              (len - (hPartialLenMax + 1)) pages :=
        ih (by omega) (by omega) (by simp only [List.length_cons, hPartialLenMax]; omega)
      match pages, hfst, hc with
      | (b, pg') :: rest', hfst, hc =>
        obtain ⟨rfl, hrest⟩ := List.cons.inj hfst
        refine ⟨(a, ⟨rev, ⟨depth, .node4, (k.bytes.drop (depth - 1)).take hPartialLenMax⟩, fun i =>
          if i = 0 then .node (k.byte (depth + hPartialLenMax)) .node4 b else .null⟩) ::
            (b, pg') :: rest', ?_, by simpa using hrest, .link hlen rfl rfl hc⟩
        rw [splitPages, Header.ofKey_eq le_rfl hd (by omega), getPartial_eq (by omega), hp]
        rfl

namespace Chain
variable {depth len : ℕ} {pages : List (Addr × Page)}

theorem ne_nil (h : Chain k diff old l depth len pages) : pages ≠ [] := by cases h <;> simp

theorem slots_null (h : Chain k diff old l depth len pages) {q : Addr × Page} (hq : q ∈ pages)
    {i : ℕ} (hi : 2 ≤ i) : q.2.slots i = .null := by
  induction h with
  | last _ _ hs =>
    obtain rfl := List.mem_singleton.mp hq
    simp only [hs]
    rw [if_neg (by omega), if_neg (by omega)]
  | link _ _ hs _ ih =>
    rcases List.mem_cons.mp hq with rfl | hq
    · simp only [hs]
      rw [if_neg (by omega)]
    · exact ih hq

theorem head_depth (h : Chain k diff old l depth len pages) {q : Addr × Page}
    (hq : pages.head? = some q) : q.2.hdr.depth = depth := by
  cases h <;> cases hq <;> simp_all

/-- A page of the chain: its header is cut from the key, and its slots lead to the next
page, or to the old entry and the new leaf. -/
inductive PageSpec (k : Key n) (diff : UInt8) (old : Entry) (l : Addr) (stop : ℕ)
    (next : List (Addr × Page)) (d j : ℕ) (pg : Page) : Prop
  | link (q : Addr × Page) (hq : q ∈ next) (hd : q.2.hdr.depth = d + j + 1)
      (hs : pg.slots = fun i => if i = 0 then .node (k.byte (d + j)) .node4 q.1 else .null) :
    PageSpec k diff old l stop next d j pg
  | last (hd : d + j = stop)
      (hs : pg.slots = fun i => if i = 0 then old.withPartial diff
        else if i = 1 then .leaf (k.byte (d + j)) l else .null) :
    PageSpec k diff old l stop next d j pg

theorem PageSpec.mono {stop d j : ℕ} {next next' : List (Addr × Page)} {pg : Page}
    (h : PageSpec k diff old l stop next d j pg) (hn : ∀ q ∈ next, q ∈ next') :
    PageSpec k diff old l stop next' d j pg := by
  cases h with
  | link q hq hd hs => exact .link q (hn q hq) hd hs
  | last hd hs => exact .last hd hs

theorem page (h : Chain k diff old l depth len pages) {q : Addr × Page} (hq : q ∈ pages) :
    ∃ d j, depth ≤ d ∧ d + j ≤ depth + len ∧
      q.2.hdr = ⟨d, .node4, (k.bytes.drop (d - 1)).take j⟩ ∧
      PageSpec k diff old l (depth + len) pages.tail d j q.2 := by
  induction h with
  | @last a pg depth len _ hh hs =>
    obtain rfl := List.mem_singleton.mp hq
    exact ⟨depth, len, le_rfl, le_rfl, hh, .last rfl hs⟩
  | @link a pg a' pg' rest depth len hlen hh hs hc ih =>
    rcases List.mem_cons.mp hq with rfl | hq
    · refine ⟨depth, hPartialLenMax, le_rfl, by omega, hh,
        .link (a', pg') List.mem_cons_self ?_ hs⟩
      exact hc.head_depth rfl
    · obtain ⟨d, j, h1, h2, h3, h4⟩ := ih hq
      have hstop : depth + (hPartialLenMax + 1) + (len - (hPartialLenMax + 1)) = depth + len := by
        omega
      rw [hstop] at h2 h4
      exact ⟨d, j, by omega, h2, h3, h4.mono fun x hx => List.mem_cons_of_mem _ hx⟩

theorem target (h : Chain k diff old l depth len pages) {q : Addr × Page} (hq : q ∈ pages)
    {i : ℕ} {t : Addr} (ht : (q.2.slots i).addr? = some t) :
    t ∈ (pages.map Prod.fst).tail ∨ old.addr? = some t ∨ t = l := by
  obtain ⟨d, j, -, -, -, hp⟩ := h.page hq
  cases hp with
  | link q' hq' _ hs =>
    rw [hs] at ht
    by_cases hi : i = 0
    · simp only [hi, if_true, Entry.addr?, Option.some.injEq] at ht
      subst ht
      rw [← List.map_tail]
      exact .inl (List.mem_map_of_mem hq')
    · simp [hi] at ht
  | last _ hs =>
    rw [hs] at ht
    by_cases hi : i = 0
    · subst hi
      exact .inr (.inl (by simpa using ht))
    · by_cases hi1 : i = 1
      · subst hi1
        exact .inr (.inr (by simpa [eq_comm] using ht))
      · simp [hi, hi1] at ht

/-- Every page after the first, the old object and the new leaf are referred to. -/
theorem source (h : Chain k diff old l depth len pages) {t : Addr}
    (ht : t ∈ (pages.map Prod.fst).tail ∨ old.addr? = some t ∨ t = l) :
    ∃ q ∈ pages, ∃ i, (q.2.slots i).addr? = some t := by
  induction h with
  | last _ _ hs =>
    rcases ht with ht | ht | rfl
    · simp at ht
    · exact ⟨_, List.mem_singleton_self _, 0, by simpa [hs] using ht⟩
    · exact ⟨_, List.mem_singleton_self _, 1, by simp [hs]⟩
  | @link a pg a' pg' rest depth len _ _ hs _ ih =>
    by_cases hta : t = a'
    · exact ⟨(a, pg), List.mem_cons_self, 0, by simp [hs, hta]⟩
    · obtain ⟨q, hq, i, hi⟩ := ih (by
        rcases ht with ht | ht
        · exact .inl (by simpa [hta] using ht)
        · exact .inr ht)
      exact ⟨q, List.mem_cons_of_mem _ hq, i, hi⟩

theorem unique (h : Chain k diff old l depth len pages) (hnd : (pages.map Prod.fst).Nodup)
    (hl : l ∉ pages.map Prod.fst)
    (hold : ∀ x, old.addr? = some x → x ∉ pages.map Prod.fst ∧ x ≠ l)
    {q q' : Addr × Page} (hq : q ∈ pages) (hq' : q' ∈ pages) {i i' : ℕ} {t : Addr}
    (ht : (q.2.slots i).addr? = some t) (ht' : (q'.2.slots i').addr? = some t) :
    q.1 = q'.1 ∧ i = i' := by
  induction h with
  | @last a pg depth len _ _ hs =>
    obtain rfl := List.mem_singleton.mp hq
    obtain rfl := List.mem_singleton.mp hq'
    refine ⟨rfl, ?_⟩
    have hcase : ∀ {i}, (pg.slots i).addr? = some t → i = 0 ∧ old.addr? = some t ∨ i = 1 ∧ t = l := by
      intro i hi
      rw [hs] at hi
      by_cases h0 : i = 0
      · subst h0; exact .inl ⟨rfl, by simpa using hi⟩
      · by_cases h1 : i = 1
        · subst h1; exact .inr ⟨rfl, by simpa [eq_comm] using hi⟩
        · simp [h0, h1] at hi
    rcases hcase ht with ⟨rfl, ho⟩ | ⟨rfl, htl⟩ <;> rcases hcase ht' with ⟨rfl, ho'⟩ | ⟨rfl, htl'⟩
    · rfl
    · exact absurd htl' (hold t ho).2
    · exact absurd htl (hold t ho').2
    · rfl
  | @link a pg a' pg' rest depth len _ _ hs hc ih =>
    simp only [List.map_cons, List.nodup_cons, List.mem_cons, not_or] at hnd hl hold
    have hhead : ∀ {i}, (pg.slots i).addr? = some t → i = 0 ∧ t = a' := by
      intro i hi
      rw [hs] at hi
      by_cases h0 : i = 0
      · subst h0; exact ⟨rfl, by simpa [eq_comm] using hi⟩
      · simp [h0] at hi
    have htail : ∀ {q i}, q ∈ (a', pg') :: rest → (q.2.slots i).addr? = some t → t ≠ a' := by
      rintro q i hq hi rfl
      rcases hc.target hq hi with hm | ho | rfl
      · exact hnd.2.1 (by simpa using hm)
      · exact (hold _ ho).1.2.1 rfl
      · exact hl.2.1 rfl
    rcases List.mem_cons.mp hq with rfl | hq <;> rcases List.mem_cons.mp hq' with rfl | hq'
    · exact ⟨rfl, (hhead ht).1.trans (hhead ht').1.symm⟩
    · exact absurd (hhead ht).2 (htail hq' ht')
    · exact absurd (hhead ht').2 (htail hq ht)
    · refine ih ?_ ?_ ?_ hq hq'
      · simpa using hnd.2
      · simpa using hl.2
      · intro x hx
        exact ⟨by simpa using (hold x hx).1.2, (hold x hx).2⟩

end Chain

theorem cachePath_eq {d j : ℕ} {t : NodeType} :
    cachePath k ⟨d, t, (k.bytes.drop (d - 1)).take j⟩ = k.bytes.take (d - 1 + j) := by
  simp [cachePath, Key.pre, List.take_add]

theorem hdrPath_of_cut {d j : ℕ} {t : NodeType} (hd : 1 ≤ d) (hj : d - 1 + j ≤ n) :
    HdrPath (k.bytes.take (d - 1 + j)) ⟨d, t, (k.bytes.drop (d - 1)).take j⟩ := by
  have hl : (k.bytes.take (d - 1 + j)).length = d - 1 + j := by
    rw [List.length_take, k.length_bytes]; omega
  refine ⟨hd, by simp only [hl]; omega, ?_⟩
  rw [List.take_add, List.drop_append_of_le_length (by simp [k.length_bytes]; omega)]
  simp

end SmartTree
