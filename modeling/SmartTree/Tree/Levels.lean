import SmartTree.Tree.RangeQuery
import SmartTree.Tree.Rest
import SmartTree.Tree.Select

/-! One level of a range query on a tree at rest: what its batch makes of each context, whether
the block is read well or a snapshot stands in for it. -/
namespace SmartTree
variable {n : ℕ} {L : Layout} {m : Mem n} {T : Transient n} {crc : Key n → Value → UInt64}
  {lo hi fromKey toKey : Key n} {s : ScanContext n} {σ π : List UInt8}

/-- A context at a slot of the tree, with the entry that is in the slot. -/
structure Stands (L : Layout) (m : Mem n) (lo hi : Key n) (s : ScanContext n) (σ : List UInt8) :
    Prop where
  slot : SlotPath L m s.ePtr σ
  depth : s.depth = σ.length
  entry : m.load s.ePtr = s.e
  full : s.e ≠ .null
  bounds : ∀ b t a, s.e = .node b t a →
    State.Means Above lo s.fromKey σ s.lState ∧ State.Means Below hi s.toKey σ s.rState

namespace ScanContext

/-- The address `range_query` remembers a block by. -/
def token (s : ScanContext n) : Addr := s.e.addr?.getD 0

def Accepted (m : Mem n) (s : ScanContext n) : Prop :=
  s.fromCache = true → s.e.block?.map m.back = some s.ePtr

end ScanContext

def Snapshot.Fails (crc : Key n → Value → UInt64) (x : Snapshot n) (s : ScanContext n) : Prop :=
  match s.e with
  | .leaf _ _ => ¬ (x.leaf.isValid s.ePtr s.fromCache = true ∧ x.leaf.isConsistent crc = true)
  | _ => x.page.isValid s.ePtr (s.depth + 1) s.fromCache = false

/-- What is read for a context: the words in memory, or the snapshot. -/
structure Fetched (m : Mem n) (T : Transient n) (r : Reads n) (i : ℕ) (s : ScanContext n) :
    Prop where
  leaf : r.leaf i = (m.through T).leaf s.token
  page : ∃ old, r.page i = fetchPage (m.through T) s old
  entry : r.entry i = m.load s.ePtr

def ScanContext.Passes (m : Mem n) (T : Transient n) (s : ScanContext n) : Prop :=
  T s.token = none ∧ s.Accepted m

inductive Handled (L : Layout) (m : Mem n) (T : Transient n) (fromKey toKey lo hi : Key n)
    (s : ScanContext n) : Processed n → Prop
  | failed {x} (c : Bool) (h : ¬ s.Passes m T) (hs : x.survivors = [{ s with fromCache := c }])
      (hr : ∀ q ∈ x.ret, ∃ y, T s.token = some y ∧ q = (y.leaf.key, y.leaf.value)) :
      Handled L m T fromKey toKey lo hi s x
  | leaf {x b l} (h : s.Passes m T) (he : s.e = .leaf b l) (hs : ∀ s' ∈ x.survivors, s' = s)
      (hr : x.ret = if fromKey ≤ (m.leaf l).key ∧ (m.leaf l).key < toKey then
        [((m.leaf l).key, (m.leaf l).value)] else []) : Handled L m T fromKey toKey lo hi s x
  | node {x b t a π} (h : s.Passes m T) (he : s.e = .node b t a) (ha : L a = some (.node π))
      (hs : ∀ s' ∈ x.survivors, s'.fromCache = false ∧ ∃ j, s'.ePtr = .slot a j ∧
        Kept lo hi π (m.load (.slot a j)) ∧
          Stands L m lo hi s' (π ++ [(m.load (.slot a j)).partialKey]))
      (hall : ∀ j, Kept lo hi π (m.load (.slot a j)) → ∃ s' ∈ x.survivors, s'.ePtr = .slot a j)
      (hr : x.ret = []) : Handled L m T fromKey toKey lo hi s x

section through
variable {a : Addr}

theorem Mem.through_leaf (h : T a = none) : (m.through T).leaf a = m.leaf a := by
  simp [Mem.through, h]

theorem Mem.through_node (h : T a = none) : (m.through T).node a = m.node a := by
  simp [Mem.through, h]

theorem fetchPage_through (h : T s.token = none) (old : Page) :
    fetchPage (m.through T) s old = fetchPage m s old := by
  unfold fetchPage
  rw [show s.e.addr?.getD 0 = s.token from rfl, Mem.through_node h]

end through

theorem levelReads_fetched {si : List (ScanContext n)} {i : ℕ} (hi : si[i]? = some s)
    (old : List Addr → ℕ → Page) (seen : List Addr) {tokens : List Addr} (h : s.token ∉ tokens) :
    Fetched m (T.after seen) (levelReads m T old seen tokens si) i s := by
  have hT : T.after (seen ++ tokens) s.token = T.after seen s.token := by
    simp [Transient.after, h]
  refine ⟨?_, ⟨old tokens i, ?_⟩, ?_⟩
  · simp only [levelReads, Reads.through, Reads.of, hi, Option.bind_some, Mem.through]
    rw [show s.e.addr?.getD 0 = s.token from rfl, hT]
  · simp only [levelReads, Reads.through, Reads.of, hi, Option.map_some, Option.getD_some, fetchPage,
      Mem.through]
    rw [show s.e.addr?.getD 0 = s.token from rfl, hT]
  · simp only [levelReads, Reads.through, Reads.of, hi, Option.map_some, Option.getD_some]

theorem Stands.same_slot (h : Stands L m lo hi s σ) (ht : TreeInv L m) {s' : ScanContext n}
    {τ : List UInt8} (h' : Stands L m lo hi s' τ) (hs : s.token = s'.token) : s.ePtr = s'.ePtr := by
  obtain ⟨x, hx⟩ := Entry.addr?_ne_none h.full
  obtain ⟨y, hy⟩ := Entry.addr?_ne_none h'.full
  rw [ScanContext.token, ScanContext.token, hx, hy] at hs
  exact ht.unique _ _ _ _ x h.slot h'.slot (by rw [h.entry, hx]) (by rw [h'.entry, hy]; exact congrArg _ hs.symm)

theorem Stands.leaf_layout (h : Stands L m lo hi s σ) (ht : TreeInv L m) {b : UInt8} {l : Addr}
    (he : s.e = .leaf b l) : L l = some .leaf := by
  have hok := ht.entry h.slot
  rw [h.entry, he] at hok
  cases hok with | leaf hl => exact hl

theorem Stands.isValid_leaf (h : Stands L m lo hi s σ) (ht : TreeInv L m) {b : UInt8} {l : Addr}
    (he : s.e = .leaf b l) : (m.leaf l).isValid s.ePtr s.fromCache = true ↔ s.Accepted m := by
  rw [Leaf.isValid, ht.valid l (h.leaf_layout ht he), ScanContext.Accepted, he]
  cases s.fromCache <;> simp [Entry.block?, Mem.back, eq_comm]

theorem Stands.node_path (h : Stands L m lo hi s σ) (ht : TreeInv L m) {b : UInt8} {t : NodeType}
    {a : Addr} (he : s.e = .node b t a) : ∃ π, L a = some (.node π) ∧ σ <+: π := by
  have hok := ht.entry h.slot
  rw [h.entry, he] at hok
  cases hok with | node ha hp => exact ⟨_, ha, hp⟩

theorem Stands.isValid_page (h : Stands L m lo hi s σ) (ht : TreeInv L m) {b : UInt8}
    {t : NodeType} {a : Addr} (he : s.e = .node b t a) (old : Page) :
    (fetchPage m s old).isValid s.ePtr (s.depth + 1) s.fromCache = true ↔ s.Accepted m := by
  obtain ⟨π, ha, -⟩ := h.node_path ht he
  have hty := (ht.node a π ha).type
  have hd : (m.node a).hdr.depth ≤ s.depth + 1 := by
    rw [h.depth]
    exact ht.attached a π ha s.ePtr σ h.slot (by rw [h.entry, he]; rfl)
  have hrev : (fetchPage m s old).rev = (m.node a).rev := by simp [fetchPage, he]
  have hhdr : (fetchPage m s old).hdr = (m.node a).hdr := by simp [fetchPage, he]
  rw [Page.isValid, hrev, hhdr, ScanContext.Accepted, he]
  cases s.fromCache <;> simp [Entry.block?, Mem.back, hty, hd, eq_comm]

/-- A node fetched at rest: every slot that is declared has been fetched. -/
theorem Stands.fetched_slots (hr : World.Resting L m) (h : Stands L m lo hi s σ) {b : UInt8}
    {t : NodeType} {a : Addr} (he : s.e = .node b t a) (old : Page) {j : ℕ}
    (hj : j < (m.node a).hdr.type.num) : (fetchPage m s old).slots j = m.load (.slot a j) := by
  have hty := hr.type s.ePtr σ b t a h.slot (h.entry.trans he)
  have hnum : j < if s.fromCache then NodeType.node256.num else s.e.type.num := by
    split
    · exact lt_of_lt_of_le hj (NodeType.num_le _)
    · rw [he, Entry.type_node, hty]
      exact hj
  simp only [fetchPage, he, Entry.addr?_node, Option.getD_some] at hnum ⊢
  rw [if_pos hnum]
  rfl

theorem forall₂_left {α β : Type*} {R : α → β → Prop} {xs : List α} {ys : List β} {y : β}
    (h : List.Forall₂ R xs ys) (hy : y ∈ ys) : ∃ x ∈ xs, R x y := by
  induction h with
  | nil => cases hy
  | cons hxy _ ih =>
    obtain rfl | hy := List.mem_cons.mp hy
    · exact ⟨_, List.mem_cons_self, hxy⟩
    · obtain ⟨x, hx, hR⟩ := ih hy
      exact ⟨x, List.mem_cons_of_mem _ hx, hR⟩

theorem forall₂_right {α β : Type*} {R : α → β → Prop} {xs : List α} {ys : List β} {x : α}
    (h : List.Forall₂ R xs ys) (hx : x ∈ xs) : ∃ y ∈ ys, R x y :=
  forall₂_left h.flip hx

theorem Stands.children (hr : World.Resting L m) (h : Stands L m lo hi s σ) {b : UInt8}
    {t : NodeType} {a : Addr} (he : s.e = .node b t a) (ha : L a = some (.node π)) (hπ : σ <+: π)
    (old : Page) : ∃ calls ctxs, rangeQueryOnPage (fetchPage m s old) s.depth s.e s.fromKey s.toKey
        s.lState s.rState = some (calls, ctxs) ∧
      (∀ s' ∈ ctxs, s'.fromCache = false ∧ ∃ j, s'.ePtr = .slot a j ∧
        Kept lo hi π (m.load (.slot a j)) ∧
          Stands L m lo hi s' (π ++ [(m.load (.slot a j)).partialKey])) ∧
      ∀ j, Kept lo hi π (m.load (.slot a j)) → ∃ s' ∈ ctxs, s'.ePtr = .slot a j := by
  have ht := hr.tree
  have hn := ht.node a π ha
  have hhdr : (fetchPage m s old).hdr = (m.node a).hdr := by simp [fetchPage, he]
  have hslots := fun {j} => h.fetched_slots hr he old (j := j)
  have hd : (fetchPage m s old).hdr.depth ≤ σ.length + 1 := by
    rw [hhdr]
    exact ht.attached a π ha s.ePtr σ h.slot (by rw [h.entry, he]; rfl)
  obtain ⟨hl, hright⟩ := h.bounds b t a he
  obtain ⟨ctxs, hc, hall⟩ := rangeQueryOnPage_pushes (hhdr ▸ hn.hdr) hn.short hπ hd hl hright
    (p := s.e) (a := a) (by rw [he]; rfl) s.depth
  refine ⟨_, ctxs, hc, fun s' hs' => ?_, fun j hj => ?_⟩
  · obtain ⟨j, hj, hsel⟩ := forall₂_left hall hs'
    obtain ⟨hjr, hk⟩ := List.mem_filter.mp hj
    have hjn : j < (m.node a).hdr.type.num := by rw [← hhdr]; exact List.mem_range.mp hjr
    have hkept := of_decide_eq_true hk
    have hload := hslots hjn
    obtain ⟨h1, h2, h3, h4, h5, h6⟩ := hsel
    rw [hload] at h1 h5 h6 hkept
    refine ⟨h4, j, h2, hkept, ?_, by simpa using h3, by rw [h1, h2], by rw [h1]; exact hkept.1,
      fun _ _ _ _ => ⟨h5, h6⟩⟩
    rw [h2]
    exact .slot ha hkept.1
  · have hjn := hr.slot a π j ha hj.1
    have hmem : j ∈ (List.range (fetchPage m s old).hdr.type.num).filter
        fun j => Kept lo hi π ((fetchPage m s old).slots j) := by
      rw [List.mem_filter, List.mem_range, hhdr]
      exact ⟨hjn, by rw [hslots hjn]; exact decide_eq_true hj⟩
    obtain ⟨s', hs', hsel⟩ := forall₂_right hall hmem
    exact ⟨s', hs', hsel.ePtr⟩

section snapshot
variable {r : Reads n} {i : ℕ} {y : Snapshot n} (hf : Fetched m T r i s) (hy : T s.token = some y)
  (hfail : y.Fails crc s)
include hf hy hfail

theorem Fetched.leaf_fails {b : UInt8} {l : Addr} (he : s.e = .leaf b l) : r.leaf i = y.leaf ∧
    ¬ (y.leaf.isValid s.ePtr s.fromCache = true ∧ y.leaf.isConsistent crc = true) := by
  refine ⟨by rw [hf.leaf]; simp [Mem.through, hy], ?_⟩
  simpa only [Snapshot.Fails, he] using hfail

theorem Fetched.page_fails {b : UInt8} {t : NodeType} {a : Addr} (he : s.e = .node b t a) :
    (r.page i).isValid s.ePtr (s.depth + 1) s.fromCache = false := by
  obtain ⟨old, hpg⟩ := hf.page
  simp only [Snapshot.Fails, he] at hfail
  have htok : a = s.token := by simp [ScanContext.token, he]
  rw [hpg, ← hfail]
  simp [Page.isValid, fetchPage, he, Mem.through, htok, hy]

theorem process_snapshot (h : Stands L m lo hi s σ) :
    ∃ x, process crc fromKey toKey r i s = some x ∧ Handled L m T fromKey toKey lo hi s x := by
  have hnot : ¬ s.Passes m T := fun hp => by simp [hp.1] at hy
  cases he : s.e with
  | null => exact absurd he h.full
  | leaf b l =>
    obtain ⟨hleaf, hbad⟩ := hf.leaf_fails hy hfail he
    simp only [process, he, processLeaf, hleaf, hf.entry, h.entry]
    refine ⟨_, rfl, ?_⟩
    by_cases hv : y.leaf.isValid s.ePtr s.fromCache = true
    · rw [if_neg (by simp [hv]), if_neg fun hc => hbad ⟨hv, hc⟩]
      refine .failed s.fromCache hnot rfl fun q hq => ⟨y, hy, ?_⟩
      simp only at hq
      split at hq
      · exact List.mem_singleton.mp hq
      · cases hq
    · rw [if_pos (by simp [hv])]
      exact .failed false hnot (by rw [← he]) (by simp)
  | node b t a =>
    simp only [process, he, processNode, hf.page_fails hy hfail he, hf.entry, h.entry]
    exact ⟨_, rfl, .failed false hnot (by rw [← he]) (by simp)⟩

end snapshot

theorem process_handled (hr : World.Resting L m) (h : Stands L m lo hi s σ) {r : Reads n} {i : ℕ}
    (hf : Fetched m T r i s) (hfail : ∀ y, T s.token = some y → y.Fails crc s) : ∃ x, process crc fromKey toKey r i s = some x ∧
      Handled L m T fromKey toKey lo hi s x := by
  cases hT : T s.token with
  | some y => exact process_snapshot hf hT (hfail y hT) h
  | none =>
  have ht := hr.tree
  cases he : s.e with
  | null => exact absurd he h.full
  | leaf b l =>
    have htok : s.token = l := by simp [ScanContext.token, he]
    have hleaf : r.leaf i = m.leaf l := by rw [hf.leaf, Mem.through_leaf hT, htok]
    have hv := h.isValid_leaf ht he
    simp only [process, he, processLeaf, hleaf, hf.entry, h.entry]
    refine ⟨_, rfl, ?_⟩
    by_cases hacc : s.Accepted m
    · rw [if_neg (by simp [hv.mpr hacc])]
      refine .leaf ⟨hT, hacc⟩ he (fun s' hs' => ?_) rfl
      simp only at hs'
      split at hs'
      · cases hs'
      · exact List.mem_singleton.mp hs'
    · have hinv : (m.leaf l).isValid s.ePtr s.fromCache = false := by
        simpa using fun hb => hacc (hv.mp hb)
      rw [if_pos (by simp [hinv])]
      exact .failed false (fun hp => hacc hp.2) (by rw [← he]) (by simp)
  | node b t a =>
    obtain ⟨old, hpg⟩ := hf.page
    rw [fetchPage_through hT] at hpg
    have hv := h.isValid_page ht he old
    obtain ⟨π, ha, hπ⟩ := h.node_path ht he
    simp only [process, he, processNode, hpg, hf.entry, h.entry]
    by_cases hacc : s.Accepted m
    · obtain ⟨calls, ctxs, hc, h1, h2⟩ := h.children hr he ha hπ old
      rw [← he, if_neg (by simp [hv.mpr hacc]), hc]
      exact ⟨_, rfl, .node ⟨hT, hacc⟩ he ha h1 h2 rfl⟩
    · have hinv : (fetchPage m s old).isValid s.ePtr (s.depth + 1) s.fromCache = false := by
        simpa using fun hb => hacc (hv.mp hb)
      rw [if_pos (by simp [hinv])]
      exact ⟨_, rfl, .failed false (fun hp => hacc hp.2) (by rw [← he]) (by simp)⟩

theorem processAll_spec {P : ScanContext n → Processed n → Prop} {r : Reads n} {i : ℕ}
    {si : List (ScanContext n)} (h : ∀ j s, si[j]? = some s →
      ∃ x, process crc fromKey toKey r (i + j) s = some x ∧ P s x) :
    ∃ y xs, processAll crc fromKey toKey r i si = some y ∧ List.Forall₂ P si xs ∧
      y.survivors = xs.flatMap Processed.survivors ∧ y.ret = xs.flatMap Processed.ret := by
  induction si generalizing i with
  | nil => exact ⟨{}, [], rfl, .nil, rfl, rfl⟩
  | cons s si ih =>
    obtain ⟨x, hx, hP⟩ := h 0 s rfl
    obtain ⟨y, xs, hy, hall, h1, h2⟩ := ih (i := i + 1) fun j s' hj => by
      have := h (j + 1) s' (by simpa using hj)
      rwa [← add_assoc, add_right_comm] at this
    refine ⟨⟨x.calls ++ y.calls, x.survivors ++ y.survivors, x.ret ++ y.ret⟩, x :: xs, ?_,
      .cons hP hall, by simp [h1], by simp [h2]⟩
    rw [add_zero] at hx
    rw [processAll, hx, hy]
    rfl

theorem claim_spec (ss : List (ScanContext n)) (tokens : List Addr) :
    (∀ s ∈ (claim ss tokens).1, s ∈ ss ∧ s.token ∉ tokens) ∧
    (∀ a, a ∈ (claim ss tokens).2 ↔ a ∈ tokens ∨ ∃ s ∈ (claim ss tokens).1, s.token = a) ∧
    ∀ s ∈ ss, s.token ∈ (claim ss tokens).2 := by
  induction ss generalizing tokens with
  | nil => simp [claim]
  | cons s ss ih =>
    rw [claim]
    dsimp only
    split
    · rename_i hmem
      obtain ⟨h1, h2, h3⟩ := ih tokens
      refine ⟨fun x hx => ⟨List.mem_cons_of_mem _ (h1 x hx).1, (h1 x hx).2⟩, h2, fun x hx => ?_⟩
      obtain rfl | hx := List.mem_cons.mp hx
      · exact (h2 _).mpr (.inl hmem)
      · exact h3 x hx
    · rename_i hmem
      obtain ⟨h1, h2, h3⟩ := ih (s.e.addr?.getD 0 :: tokens)
      refine ⟨fun x hx => ?_, fun a => ?_, fun x hx => ?_⟩
      · obtain rfl | hx := List.mem_cons.mp hx
        · exact ⟨List.mem_cons_self, hmem⟩
        · exact ⟨List.mem_cons_of_mem _ (h1 x hx).1, fun ht => (h1 x hx).2 (List.mem_cons_of_mem _ ht)⟩
      · rw [h2 a, List.mem_cons]
        simp only [List.mem_cons, exists_eq_or_imp, ScanContext.token]
        tauto
      · obtain rfl | hx := List.mem_cons.mp hx
        · exact (h2 _).mpr (.inl List.mem_cons_self)
        · exact h3 x hx

section level
variable {st : RangeState n}

structure LevelDone (L : Layout) (m : Mem n) (T : Transient n)
    (fromKey toKey lo hi : Key n) (st st' : RangeState n) : Prop where
  tokens : st'.tokens = (claim st.survivors st.tokens).2
  from_batch : ∀ s' ∈ st'.survivors, ∃ s ∈ (claim st.survivors st.tokens).1, ∃ x,
    Handled L m T fromKey toKey lo hi s x ∧ s' ∈ x.survivors
  handled : ∀ s ∈ (claim st.survivors st.tokens).1, ∃ x,
    Handled L m T fromKey toKey lo hi s x ∧ (∀ s' ∈ x.survivors, s' ∈ st'.survivors) ∧
      ∀ q ∈ x.ret, q ∈ st'.ret
  kept : ∀ q ∈ st.ret, q ∈ st'.ret
  ret : ∀ q ∈ st'.ret, q ∈ st.ret ∨ ∃ s ∈ (claim st.survivors st.tokens).1, ∃ x,
    Handled L m T fromKey toKey lo hi s x ∧ q ∈ x.ret

theorem rangeLevel_done (hr : World.Resting L m) (hs : ∀ s ∈ st.survivors, ∃ σ, Stands L m lo hi s σ)
    {reads : List (ScanContext n) → Reads n}
    (hf : ∀ i s, (claim st.survivors st.tokens).1[i]? = some s →
      Fetched m T (reads (claim st.survivors st.tokens).1) i s ∧
        ∀ y, T s.token = some y → y.Fails crc s) :
    ∃ calls st', rangeLevel crc fromKey toKey reads st = some (calls, st') ∧
      LevelDone L m T fromKey toKey lo hi st st' := by
  obtain ⟨h1, -, -⟩ := claim_spec st.survivors st.tokens
  obtain ⟨y, xs, hy, hall, hsv, hret⟩ := processAll_spec (i := 0)
    (P := Handled L m T fromKey toKey lo hi) fun j s hj => by
      obtain ⟨σ, hσ⟩ := hs s (h1 s (List.mem_of_getElem? hj)).1
      rw [zero_add]
      exact process_handled hr hσ (hf j s hj).1 (hf j s hj).2
  refine ⟨y.calls, ⟨y.survivors, (claim st.survivors st.tokens).2, st.ret ++ y.ret⟩, ?_, rfl,
    fun s' hs' => ?_, fun s hsc => ?_, fun q hq => List.mem_append_left _ hq, fun q hq => ?_⟩
  · rw [rangeLevel, hy]
    rfl
  · rw [hsv] at hs'
    obtain ⟨x, hx, hs'⟩ := List.mem_flatMap.mp hs'
    obtain ⟨s, hsc, hh⟩ := forall₂_left hall hx
    exact ⟨s, hsc, x, hh, hs'⟩
  · obtain ⟨x, hx, hh⟩ := forall₂_right hall hsc
    refine ⟨x, hh, fun s' hs' => ?_, fun q hq => List.mem_append_right _ ?_⟩
    · rw [hsv]
      exact List.mem_flatMap.mpr ⟨x, hx, hs'⟩
    · rw [hret]
      exact List.mem_flatMap.mpr ⟨x, hx, hq⟩
  · obtain hq | hq := List.mem_append.mp hq
    · exact .inl hq
    · rw [hret] at hq
      obtain ⟨x, hx, hq⟩ := List.mem_flatMap.mp hq
      obtain ⟨s, hsc, hh⟩ := forall₂_left hall hx
      exact .inr ⟨s, hsc, x, hh, hq⟩

end level
end SmartTree
