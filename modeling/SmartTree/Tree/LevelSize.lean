import Mathlib.Data.Finset.Card
import SmartTree.Tree.Visits

/-! The levels of a range query against the send queues. The batch of a level has one region for
each block that is new on the level, so the query returns iff at no level a memory node has more
new blocks than its queue has room for. -/
namespace SmartTree
variable {n : ℕ} {L : Layout} {m : Mem n} {T : Transient n} {lo hi fromKey toKey : Key n}
  {start : List (ScanContext n)} {r : ℕ} {st : RangeState n}

def RangeEnv.Room (env : RangeEnv) (level : ℕ) (P : Addr → Prop) : Prop :=
  ∀ j (S : Finset Addr), (∀ a ∈ S, P a ∧ env.home a = j) → S.card ≤ (env.queues level).room j

theorem RangeEnv.room_congr (env : RangeEnv) {level : ℕ} {P Q : Addr → Prop} (h : ∀ a, P a ↔ Q a) :
    env.Room level P ↔ env.Room level Q := by
  simp only [RangeEnv.Room, h]

theorem claim_nodup (ss : List (ScanContext n)) (tokens : List Addr) :
    ((claim ss tokens).1.map ScanContext.token).Nodup := by
  induction ss generalizing tokens with
  | nil => simp [claim]
  | cons s ss ih =>
    rw [claim]
    dsimp only
    split
    · exact ih tokens
    · refine List.nodup_cons.mpr ⟨fun hmem => ?_, ih _⟩
      obtain ⟨s', hs', htok⟩ := List.mem_map.mp hmem
      refine ((claim_spec ss (s.e.addr?.getD 0 :: tokens)).1 s' hs').2 ?_
      rw [htok]
      exact List.mem_cons_self

theorem levelRegions_filter (env : RangeEnv) (si : List (ScanContext n)) (j : ℕ) :
    ((levelRegions env si).filter (·.node = j)).length =
      ((si.map ScanContext.token).filter (env.home · = j)).length := by
  have hmap : (levelRegions env si).map RdmaOpRegion.node =
      (si.map ScanContext.token).map env.home := by
    refine List.ext_getElem (by simp [levelRegions]) fun i h1 h2 => ?_
    simp [levelRegions, RdmaOpRegion.node, Placement.home, ScanContext.token]
  have := congrArg (fun l => (l.filter (· = j)).length) hmap
  simpa only [List.filter_map, List.length_map, Function.comp_def] using this

theorem RangeEnv.takes_iff (env : RangeEnv) (level : ℕ) (ss : List (ScanContext n))
    (tokens : List Addr) : env.takes level (claim ss tokens).1 = true ↔
      env.Room level fun a => ∃ s ∈ (claim ss tokens).1, s.token = a := by
  have hnodup := claim_nodup ss tokens
  generalize hsi : (claim ss tokens).1 = si at *
  rw [RangeEnv.takes, decide_eq_true_iff]
  constructor
  · intro h j S hS
    refine le_trans ?_ (h.room j)
    rw [levelRegions_filter, ← List.toFinset_card_of_nodup (hnodup.filter _)]
    refine Finset.card_le_card fun a ha => ?_
    obtain ⟨⟨s, hs, rfl⟩, hj⟩ := hS a ha
    simp only [List.mem_toFinset, List.mem_filter, decide_eq_true_iff]
    exact ⟨List.mem_map_of_mem hs, hj⟩
  · refine fun h x hx => ⟨?_, ?_⟩
    · obtain ⟨i, hi, rfl⟩ := List.mem_iff_getElem.mp hx
      simpa [levelRegions, RdmaOpRegion.node] using env.located _
    · rw [levelRegions_filter, ← List.toFinset_card_of_nodup (hnodup.filter _)]
      refine h x.node _ fun a ha => ?_
      simpa [List.mem_filter, List.mem_map] using ha

/-- The batch of a level is taken iff the queues have room for the blocks that are new on it. -/
theorem LevelInv.takes_iff (h : LevelInv L m T fromKey toKey lo hi start r st) (env : RangeEnv)
    (level : ℕ) : env.takes level (claim st.survivors st.tokens).1 = true ↔
      env.Room level (NewAt L m T lo hi start r) := by
  rw [RangeEnv.takes_iff]
  exact env.room_congr (LevelDone.batch_iff h)

/-- The levels return what is to be delivered and what was taken from snapshots iff every level
finds room. -/
theorem LevelInv.returns (crc : Key n → Value → UInt64) (env : RangeEnv) {seen : List Addr} (hr : World.Resting L m)
    (h : LevelInv L m (T.after seen) fromKey toKey lo hi start r st)
    (hT : ∀ s σ y, Stands L m lo hi s σ → (s.fromCache = true ↔ Cached start s.token) →
      T.after seen s.token = some y → y.Fails crc s) (fuel : ℕ) (hfuel : n + 2 ≤ fuel + r) :
    ∃ ret, (levelLoop crc fromKey toKey (levelReads m T env.old seen) env.takes fuel r st = some ret ↔
        ∀ i, env.Room (r + i) (NewAt L m (T.after seen) lo hi start (r + i))) ∧
      (∀ ret', levelLoop crc fromKey toKey (levelReads m T env.old seen) env.takes fuel r st =
        some ret' → ret' = ret) ∧
      (∀ q, Delivered L m (T.after seen) fromKey toKey lo hi start q → q ∈ ret) ∧
      ∀ q ∈ ret, Delivered L m (T.after seen) fromKey toKey lo hi start q ∨
        Torn L m (T.after seen) lo hi start q := by
  obtain ⟨ret, hret, h1, h2, h3, h4⟩ := h.loop crc env.old hr hT fuel hfuel
  refine ⟨ret, ?_, fun ret' h' => ?_, h1, h2⟩
  · rw [levelLoop_eq_some, and_iff_right hret]
    refine ⟨fun htakes i => ?_, fun hroom i st' hi => ((h3 i st' hi).takes_iff env _).mpr (hroom i)⟩
    cases hi : (levelStates crc fromKey toKey (levelReads m T env.old seen) fuel st)[i]? with
    | some st' => exact ((h3 i st' hi).takes_iff env _).mp (htakes i st' hi)
    | none =>
      -- past the last level nothing is new
      intro j S hS
      obtain rfl : S = ∅ := Finset.eq_empty_iff_forall_notMem.mpr fun a ha => by
        obtain ⟨st', hst⟩ := h4 i a (hS a ha).1
        rw [hi] at hst
        cases hst
      exact Nat.zero_le _
  · rw [levelLoop_eq_some, hret] at h'
    exact (Option.some.inj h'.1).symm

end SmartTree
