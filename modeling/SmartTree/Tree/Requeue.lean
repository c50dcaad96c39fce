import SmartTree.Tree.Answers

/-! What a range query puts back when a read fails a check, and what becomes of it. Every block of
the batch is remembered as read, so what is put back with the same block is dropped. -/
namespace SmartTree
variable {n : ℕ} {L : Layout} {m : Mem n} {T : Transient n} {crc : Key n → Value → UInt64}
  {fromKey toKey lo hi : Key n} {start : List (ScanContext n)} {s : ScanContext n} {σ : List UInt8}

/-- The context `range_query` puts back after the `i`-th read of the batch failed. -/
def requeued (crc : Key n → Value → UInt64) (r : Reads n) (i : ℕ) (s : ScanContext n) :
    List (ScanContext n) :=
  match s.e with
  | .null => []
  | .leaf _ _ =>
    if !(r.leaf i).isValid s.ePtr s.fromCache then [{ s with e := r.entry i, fromCache := false }]
    else if (r.leaf i).isConsistent crc then [] else [s]
  | .node _ _ _ =>
    if !(r.page i).isValid s.ePtr (s.depth + 1) s.fromCache then
      [{ s with e := r.entry i, fromCache := false }]
    else []

/-- What the levels of a query make of the reads that fail: no pair is taken from a leaf that is not
consistent, and no context that is put back is dropped by the filter of the blocks read before. -/
structure NothingLost (crc : Key n → Value → UInt64) (fromKey toKey : Key n)
    (reads : List Addr → List (ScanContext n) → Reads n) (states : List (RangeState n)) : Prop where
  consistent : ∀ st ∈ states, ∀ i s x, (claim st.survivors st.tokens).1[i]? = some s →
    process crc fromKey toKey (reads st.tokens (claim st.survivors st.tokens).1) i s = some x →
      x.ret ≠ [] → ((reads st.tokens (claim st.survivors st.tokens).1).leaf i).isConsistent crc = true
  kept : ∀ st ∈ states, ∀ i s, (claim st.survivors st.tokens).1[i]? = some s →
    ∀ s' ∈ requeued crc (reads st.tokens (claim st.survivors st.tokens).1) i s,
      s'.token ∉ (claim st.survivors st.tokens).2

theorem requeued_of_not_passes (ht : TreeInv L m) (h : Stands L m lo hi s σ) {r : Reads n} {i : ℕ}
    (hf : Fetched m T r i s) (hfail : ∀ y, T s.token = some y → y.Fails crc s)
    (hnot : ¬ s.Passes m T) : ∃ s' ∈ requeued crc r i s, s'.token = s.token := by
  have hagain : ({ s with e := r.entry i, fromCache := false } : ScanContext n).token = s.token := by
    rw [hf.entry, h.entry]
    rfl
  cases he : s.e with
  | null => exact absurd he h.full
  | leaf b l =>
    have hbad : ¬ ((r.leaf i).isValid s.ePtr s.fromCache = true ∧
        (r.leaf i).isConsistent crc = true) := by
      cases hT : T s.token with
      | some y =>
        obtain ⟨hleaf, hbad⟩ := hf.leaf_fails hT (hfail y hT) he
        rwa [hleaf]
      | none =>
        have hl : r.leaf i = m.leaf l := by
          rw [hf.leaf, Mem.through_leaf hT]
          simp [ScanContext.token, he]
        exact fun hv => hnot ⟨hT, (h.isValid_leaf ht he).mp (hl ▸ hv.1)⟩
    simp only [requeued, he]
    by_cases hv : (r.leaf i).isValid s.ePtr s.fromCache = true
    · rw [if_neg (by simp [hv]), if_neg fun hc => hbad ⟨hv, hc⟩]
      exact ⟨s, List.mem_singleton_self _, rfl⟩
    · rw [if_pos (by simp [hv])]
      exact ⟨_, List.mem_singleton_self _, hagain⟩
  | node b t a =>
    have hbad : (r.page i).isValid s.ePtr (s.depth + 1) s.fromCache = false := by
      cases hT : T s.token with
      | some y => exact hf.page_fails hT (hfail y hT) he
      | none =>
        obtain ⟨old, hpg⟩ := hf.page
        rw [fetchPage_through hT] at hpg
        rw [hpg]
        simpa using fun hv => hnot ⟨hT, (h.isValid_page ht he old).mp hv⟩
    simp only [requeued, he, hbad]
    exact ⟨_, List.mem_singleton_self _, hagain⟩

/-- A context that passes is not put back, if the leaf in memory is consistent. -/
theorem requeued_of_passes (ht : TreeInv L m) (h : Stands L m lo hi s σ) {r : Reads n} {i : ℕ}
    (hf : Fetched m T r i s) (hgood : ∀ l, L l = some .leaf → (m.leaf l).isConsistent crc = true)
    (hp : s.Passes m T) : requeued crc r i s = [] := by
  obtain ⟨hT, hacc⟩ := hp
  unfold requeued
  cases he : s.e with
  | null => rfl
  | leaf b l =>
    have hl : r.leaf i = m.leaf l := by
      rw [hf.leaf, Mem.through_leaf hT]
      simp [ScanContext.token, he]
    simp [hl, (h.isValid_leaf ht he).mpr hacc, hgood l (h.leaf_layout ht he)]
  | node b t a =>
    obtain ⟨old, hpg⟩ := hf.page
    rw [fetchPage_through hT] at hpg
    simp [hpg, (h.isValid_page ht he old).mpr hacc]

theorem process_ret {r : Reads n} {i : ℕ} {x : Processed n}
    (h : process crc fromKey toKey r i s = some x) (hx : x.ret ≠ []) : ∃ b l, s.e = .leaf b l := by
  unfold process at h
  cases he : s.e with
  | null => simp [he] at h
  | leaf b l => exact ⟨b, l, rfl⟩
  | node b t a =>
    rw [he] at h
    dsimp only at h
    unfold processNode at h
    split at h
    · obtain rfl := Option.some.inj h
      exact absurd rfl hx
    · obtain ⟨q, -, rfl⟩ := Option.map_eq_some_iff.mp h
      exact absurd rfl hx

section run
variable (crc) (old : List Addr → ℕ → Page) {seen : List Addr} (hr : World.Resting L m)
  (hgood : ∀ l, L l = some .leaf → (m.leaf l).isConsistent crc = true)
  (hT : ∀ s σ y, Stands L m lo hi s σ → (s.fromCache = true ↔ Cached start s.token) →
    T.after seen s.token = some y → y.Fails crc s)
  (hinv : LevelInv L m (T.after seen) fromKey toKey lo hi start 0 ⟨start, [], []⟩) (fuel : ℕ)
  (hfuel : n + 2 ≤ fuel)
include hr hgood hT hinv hfuel

/-- Nothing is lost iff no block that is read is rejected: one that is rejected is put back and
dropped. -/
theorem nothingLost_iff : NothingLost crc fromKey toKey (levelReads m T old seen)
      (levelStates crc fromKey toKey (levelReads m T old seen) fuel ⟨start, [], []⟩) ↔
    ∀ a, Visited L m (T.after seen) lo hi start a → ¬ Rejected m (T.after seen) start a := by
  obtain ⟨-, -, -, -, hstates, hread⟩ := hinv.loop crc old hr hT fuel hfuel
  -- what is known of a context of a batch
  have hbatch : ∀ st ∈ levelStates crc fromKey toKey (levelReads m T old seen) fuel ⟨start, [], []⟩,
      ∀ i s, (claim st.survivors st.tokens).1[i]? = some s →
        Visited L m (T.after seen) lo hi start s.token ∧
        (s.Passes m (T.after seen) ↔ ¬ Rejected m (T.after seen) start s.token) ∧
        Fetched m (T.after seen) (levelReads m T old seen st.tokens (claim st.survivors st.tokens).1) i
          s ∧ ∃ σ, Stands L m lo hi s σ ∧ ∀ y, T.after seen s.token = some y → y.Fails crc s := by
    intro st hst i s hi
    obtain ⟨r, hst⟩ := List.mem_iff_getElem?.mp hst
    have h := hstates r st hst
    have hs := List.mem_of_getElem? hi
    obtain ⟨hflag, hpass, hvis, σ, hσ, -⟩ := LevelDone.batch h hs
    exact ⟨⟨_, hvis⟩, hpass, levelReads_fetched hi old seen ((claim_spec _ _).1 s hs).2, σ, hσ,
      fun y => hT s σ y hσ hflag⟩
  constructor
  · intro hlost a hvis hrej
    obtain ⟨r, hnew⟩ := hvis.newAt
    rw [← Nat.zero_add r] at hnew
    obtain ⟨st, hst⟩ := hread r a hnew
    obtain ⟨s, hs, rfl⟩ := (LevelDone.batch_iff (hstates r st hst) a).mpr hnew
    have hst := List.mem_of_getElem? hst
    obtain ⟨i, hi⟩ := List.mem_iff_getElem?.mp hs
    obtain ⟨-, hpass, hf, σ, hσ, hfail⟩ := hbatch st hst i s hi
    obtain ⟨s', hs', htok⟩ := requeued_of_not_passes hr.tree hσ hf hfail fun hp => hpass.mp hp hrej
    refine hlost.kept st hst i s hi s' hs' ?_
    rw [htok]
    exact ((claim_spec _ _).2.1 _).mpr (.inr ⟨s, hs, rfl⟩)
  · intro hclear
    refine ⟨fun st hst i s x hi hx hret => ?_, fun st hst i s hi s' hs' => ?_⟩
    · obtain ⟨hvis, hpass, hf, σ, hσ, -⟩ := hbatch st hst i s hi
      obtain ⟨b, l, he⟩ := process_ret hx hret
      rw [hf.leaf, Mem.through_leaf (hpass.mpr (hclear _ hvis)).1,
        show s.token = l by simp [ScanContext.token, he]]
      exact hgood l (hσ.leaf_layout hr.tree he)
    · obtain ⟨hvis, hpass, hf, σ, hσ, -⟩ := hbatch st hst i s hi
      rw [requeued_of_passes hr.tree hσ hf hgood (hpass.mpr (hclear _ hvis))] at hs'
      cases hs'

end run

section clear
variable (ht : TreeInv L m) (hstart : ∀ s ∈ start, ∃ σ, Stands L m lo hi s σ ∧ Between lo hi σ)

/-- If no block that would be read well has a snapshot, the snapshots change nothing. -/
theorem visitedAt_iff_none (h : ∀ a, Visited L m .none lo hi start a → T a = none) {i : ℕ} {a : Addr} :
    VisitedAt L m T lo hi start i a ↔ VisitedAt L m .none lo hi start i a := by
  have hrej : ∀ {a}, T a = none → (Rejected m T start a ↔ Rejected m .none start a) := by
    intro a ha
    simp [Rejected, ha, Transient.none]
  constructor
  · intro hv
    induction hv with
    | start hs => exact .start hs
    | child _ hr ha hk hx ih => exact .child ih (mt (hrej (h _ ⟨_, ih⟩)).mpr hr) ha hk hx
  · intro hv
    induction hv with
    | start hs => exact .start hs
    | child hv hr ha hk hx ih => exact .child ih (mt (hrej (h _ ⟨_, hv⟩)).mp hr) ha hk hx

theorem visited_iff_none (h : ∀ a, Visited L m .none lo hi start a → T a = none) {a : Addr} :
    Visited L m T lo hi start a ↔ Visited L m .none lo hi start a :=
  exists_congr fun _ => visitedAt_iff_none h

theorem delivered_iff_none (h : ∀ a, Visited L m .none lo hi start a → T a = none)
    {q : Key n × Value} : Delivered L m T fromKey toKey lo hi start q ↔
      Delivered L m .none fromKey toKey lo hi start q := by
  refine exists_congr fun l => and_congr_right fun _ => ?_
  rw [visited_iff_none h]
  refine and_congr_right fun hv => and_congr_left fun _ => not_congr ?_
  simp [Rejected, h l hv, Transient.none]

include ht hstart

/-- Below a context of the first level, if a block the query wants is rejected then so is one that
is read: the highest on the way. -/
theorem exists_visited_rejected {s : ScanContext n} (hs : s ∈ start) {ρ : List UInt8}
    (hρ : Stands L m lo hi s ρ) {p : Ptr} {a : Addr} (hp : SlotPath L m p σ) (h : ρ <+: σ)
    (hb : Between lo hi σ) (ha : (m.load p).addr? = some a) (hrej : Rejected m T start a) :
    ∃ x, Visited L m T lo hi start x ∧ Rejected m T start x := by
  induction hlen : σ.length using Nat.strong_induction_on generalizing p σ a with
  | _ len ih =>
    by_cases hc : Clear L m T start ρ σ p
    · exact ⟨a, (visited_iff ht hstart hp ha).mpr ⟨hb, s, hs, ρ, hρ, h, hc⟩, hrej⟩
    · simp only [Clear, not_forall, not_not] at hc
      obtain ⟨q, τ, x, hq, h1, h2, hne, hx, hrej'⟩ := hc
      refine ih τ.length ?_ hq h1 (hb.mono h2) hx hrej' rfl
      refine hlen ▸ lt_of_le_of_ne h2.length_le fun heq => hne ?_
      obtain rfl := h2.eq_of_length heq
      exact ht.slot_unique hq hp

end clear
end SmartTree
