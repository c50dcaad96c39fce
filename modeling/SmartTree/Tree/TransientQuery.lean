import SmartTree.Tree.Requeue
import SmartTree.Tree.ColdQuery

/-! A range query and reads that fail at first and are good when repeated. `search_entries` repeats
them; the levels put the context back, but its block counts as read and is not read again. -/
namespace SmartTree
open Transition
variable {n : ℕ} {L : Layout} {m : Mem n} {T : Transient n} {crc : Key n → Value → UInt64}
  {fromKey toKey : Key n} {cache : CacheMap} {σ : List UInt8} {p : Ptr}

/-- Every snapshot fails the checks made where its block is read: it is invalid there, or it is a
leaf that is not consistent. Whether the entry comes from the cache is part of the check. -/
def Transient.Caught (T : Transient n) (crc : Key n → Value → UInt64) (m : Mem n) (cache : CacheMap)
    (fromKey toKey : Key n) : Prop :=
  ∀ p σ a y, m.SlotAt p σ → (m.load p).addr? = some a → T a = some y →
    y.Fails crc ⟨m.load p, p, σ.length,
      (searchRangeFromCache cache.lookup fromKey toKey).any fun rc => rc.e.addr? = some a,
      fromKey, toKey, .border, .border⟩

/-- The query returns the same map as when every read is good at once, and nothing is lost. -/
structure Tolerates (crc : Key n → Value → UInt64) (m : Mem n) (T : Transient n)
    (env env' : RangeEnv) (lookup : Key n → Option (Ptr × Entry × ℕ)) (fuel : ℕ)
    (fromKey toKey : Key n) : Prop where
  same : ∃ ret ret', rangeQuery crc m T env lookup fuel fromKey toKey = some ret ∧
    rangeQuery crc m .none env' lookup fuel fromKey toKey = some ret' ∧
    ∀ k, retGet ret k = retGet ret' k
  kept : ∃ start seen, firstLevel m T lookup fuel fromKey toKey = some (start, seen) ∧
    NothingLost crc fromKey toKey (levelReads m T env.old seen)
      (levelStates crc fromKey toKey (levelReads m T env.old seen) fuel ⟨start, [], []⟩)

/-- The blocks that cached entries of the range lead to point back to their slots, and no block the
query reads on its levels has a snapshot. -/
structure Undisturbed (m : Mem n) (T : Transient n) (cache : CacheMap) (fromKey toKey : Key n) :
    Prop where
  back : ∀ k p e c, fromKey ≤ k → k < toKey → cache.lookup k = some (p, e, c) →
    e.block?.map m.back = some p
  good : ∀ p σ a, m.SlotAt p σ → (m.load p).addr? = some a → cache.Wants fromKey toKey σ → T a = none

theorem any_cached_iff {a : Addr} : (searchRangeFromCache cache.lookup fromKey toKey).any
    (fun rc => rc.e.addr? = some a) = true ↔ ∃ k p e c, fromKey ≤ k ∧ k < toKey ∧
      cache.lookup k = some (p, e, c) ∧ e.addr? = some a := by
  rw [List.any_eq_true]
  constructor
  · rintro ⟨rc, hrc, ha⟩
    obtain ⟨k, ⟨p, e, c⟩, h1, h2, hl, rfl⟩ := mem_searchRangeFromCache.mp hrc
    exact ⟨k, p, e, c, h1, h2, hl, by simpa using ha⟩
  · rintro ⟨k, p, e, c, h1, h2, hl, ha⟩
    exact ⟨_, mem_searchRangeFromCache.mpr ⟨k, _, h1, h2, hl, rfl⟩, by simpa using ha⟩

namespace Transient.Caught
variable (hT : T.Caught crc m cache fromKey toKey) (ht : TreeInv L m)
include hT ht

theorem page_invalid {q : Ptr} {τ π : List UInt8} {a : Addr} {y : Snapshot n}
    (hq : SlotPath L m q τ) (hqa : (m.load q).addr? = some a) (ha : L a = some (.node π))
    (hy : T a = some y) (hm : ¬ cache.Meets fromKey toKey) :
    y.page.isValid q (τ.length + 1) false = false := by
  have hcold : (searchRangeFromCache cache.lookup fromKey toKey).any
      (fun rc => rc.e.addr? = some a) = false := by
    rw [Bool.eq_false_iff, ne_eq, any_cached_iff]
    rintro ⟨k, p, e, c, h1, h2, hl, -⟩
    exact hm ⟨k, h1, h2, by simp [hl]⟩
  obtain ⟨b, t, hl⟩ := ht.load_node hq hqa ha
  have := hT q τ a y (ht.slotAt_iff.mpr hq) hqa hy
  simpa only [Snapshot.Fails, hl, hcold] using this

theorem fails {start : List (ScanContext n)} {seen : List Addr} {s : ScanContext n}
    {y : Snapshot n} (hf : First L m cache fromKey toKey start seen)
    (hσ : Stands L m fromKey (toKey.sub 1) s σ) (hfl : s.fromCache = true ↔ Cached start s.token)
    (hy : T.after seen s.token = some y) : y.Fails crc s := by
  have hy' : T s.token = some y := by
    unfold Transient.after at hy
    split at hy
    · cases hy
    · exact hy
  obtain ⟨x, hx⟩ := Entry.addr?_ne_none hσ.full
  have htok : s.token = x := by rw [ScanContext.token, hx]; rfl
  have := hT s.ePtr σ x y (ht.slotAt_iff.mpr hσ.slot) (by rw [hσ.entry, hx]) (htok ▸ hy')
  have hsame : (searchRangeFromCache cache.lookup fromKey toKey).any
      (fun rc => rc.e.addr? = some x) = s.fromCache := by
    rw [Bool.eq_iff_iff, any_cached_iff, hfl, hf.cached, htok]
  rw [hsame, hσ.entry, ← hσ.depth] at this
  exact this

end Transient.Caught

section query
variable (crc) (hr : World.Resting L m) (hc : cache.Correct m) (hlt : fromKey < toKey)
  (hgood : ∀ l, L l = some .leaf → (m.leaf l).isConsistent crc = true)
  (hT : T.Caught crc m cache fromKey toKey) (env env' : RangeEnv) {fuel : ℕ}
  (hfuel : 2 * n + 2 ≤ fuel)
include hr hc hlt hgood hT hfuel

theorem tolerates_iff : Tolerates crc m T env env' cache.lookup fuel fromKey toKey ↔
    Undisturbed m T cache fromKey toKey ∧ cache.LevelsFit env m fromKey toKey ∧
      cache.LevelsFit env' m fromKey toKey := by
  have ht := hr.tree
  obtain ⟨start, seen, hfirst, hf⟩ := firstLevel_first (T := T) hr hc hlt
    (fun _ _ _ _ _ hq hqa ha hy hm => hT.page_invalid ht hq hqa ha hy hm) fuel (by omega)
  obtain ⟨c, hflag⟩ := hf.flag
  have hinv : LevelInv L m (T.after seen) fromKey toKey fromKey (toKey.sub 1) start 0
      ⟨start, [], []⟩ := .initial (fun s hs => (hf.stands s hs).imp fun _ h => h.1) hflag ht
  have hfail : ∀ s σ y, Stands L m fromKey (toKey.sub 1) s σ →
      (s.fromCache = true ↔ Cached start s.token) → T.after seen s.token = some y →
        y.Fails crc s := fun _ _ _ hσ hfl hy => hT.fails ht hf hσ hfl hy
  have hlost := nothingLost_iff crc env.old hr hgood hfail hinv fuel (by omega)
  -- with no snapshot on its levels the query reads what it reads with good reads
  have hnone : Undisturbed m T cache fromKey toKey →
      ∀ a, Visited L m .none fromKey (toKey.sub 1) start a → T.after seen a = none := by
    intro hu a ha
    obtain ⟨s, hs, ρ, q, τ, hρ, hq, hqa, hpre, hb, -⟩ := ha.way ht hf.stands
    have hw := (hf.wants q τ hq (by rintro h; simp [h] at hqa)).mpr ⟨hb, s, hs, ρ, hρ, hpre⟩
    have := hu.good q τ a (ht.slotAt_iff.mpr hq) hqa hw
    simp [Transient.after, this]
  have hfit : Undisturbed m T cache fromKey toKey →
      ((∀ i, env.Room (0 + i) (NewAt L m (T.after seen) fromKey (toKey.sub 1) start (0 + i))) ↔
        cache.LevelsFit env m fromKey toKey) := by
    intro hu
    refine forall_congr' fun i => ?_
    rw [Nat.zero_add]
    refine env.room_congr fun a => ?_
    simp only [NewAt, visitedAt_iff_none (hnone hu), hf.visitedAt_iff ht hlt]
  obtain ⟨ret, hret, honly, h1, h2⟩ := hinv.returns crc env hr hfail fuel (by omega)
  obtain ⟨ret', hret', honly', hmem'⟩ := rangeQuery_answers crc hr hc hlt hfuel env'
  have hquery : rangeQuery crc m T env cache.lookup fuel fromKey toKey = levelLoop crc fromKey toKey
      (levelReads m T env.old seen) env.takes fuel 0 ⟨start, [], []⟩ := by
    rw [rangeQuery, if_neg fun h => h hlt, hfirst]
    rfl
  constructor
  · rintro ⟨⟨r, r', hq, hq', -⟩, start', seen', hfirst', hkept⟩
    rw [hfirst] at hfirst'
    cases hfirst'
    have hclear := hlost.mp hkept
    have hu : Undisturbed m T cache fromKey toKey := by
      refine ⟨fun k p e c h1 h2 hl => ?_, fun p σ a hp ha hw => ?_⟩
      · by_contra hne
        obtain ⟨rfl, σ, ⟨-, -, -, -, -, -, hfull, -⟩, -⟩ := CacheMap.lookup_eq_some hr hc hl
        obtain ⟨a, ha⟩ := Entry.addr?_ne_none hfull
        have hrej := (hf.rejected a).mpr fun hback => hne (hback k p _ c h1 h2 hl ha)
        obtain ⟨s, hs, rfl, hna⟩ := hrej.resolve_left fun h => h rfl
        exact hclear _ (visited_start hs) (.inr ⟨s, hs, rfl, hna⟩)
      · by_contra hne
        have hp := ht.slotAt_iff.mp hp
        obtain ⟨hb, s, hs, ρ, hρ, hpre⟩ := (hf.wants p σ hp (by rintro h; simp [h] at ha)).mp hw
        have hseen : a ∉ seen := fun h => hf.seen a h p σ hp ha hw
        obtain ⟨x, hx, hrej⟩ := exists_visited_rejected (T := T.after seen) ht hf.stands hs hρ hp hpre
          hb ha (.inl (by simpa [Transient.after, hseen] using hne))
        exact hclear x hx hrej
    rw [hquery] at hq
    obtain rfl := honly r hq
    obtain rfl := honly' r' hq'
    exact ⟨hu, (hfit hu).mp (hret.mp hq), hret'.mp hq'⟩
  · rintro ⟨hu, hroom, hroom'⟩
    have hvis := fun a => visited_iff_none (T := T.after seen) (hnone hu) (a := a)
    refine ⟨?_, start, seen, hfirst, hlost.mpr fun a ha hrej => ?_⟩
    · have hmem : ∀ q, q ∈ ret ↔ cache.Finds m fromKey toKey q := by
        intro q
        rw [← hf.delivers, ← delivered_iff_none (hnone hu)]
        refine ⟨fun hq => (h2 q hq).resolve_right ?_, h1 q⟩
        rintro ⟨a, y, ha, hy, -⟩
        rw [hnone hu a ((hvis a).mp ha)] at hy
        cases hy
      refine ⟨ret, ret', hquery ▸ hret.mpr ((hfit hu).mpr hroom), hret'.mpr hroom',
        fun k => Option.ext fun v => ?_⟩
      rw [retGet_iff_finds hr hmem, retGet_iff_finds hr hmem']
    · obtain hT' | hna := hrej
      · exact hT' (hnone hu a ((hvis a).mp ha))
      · exact (hf.rejected a).mp (.inr hna) fun k p e c h1 h2 hl _ => hu.back k p e c h1 h2 hl

end query

namespace World
variable {ι : Type*} [DecidableEq ι] [Fintype ι] {s : World ι n}

/-- On every tree at rest with consistent leaves, for every index cache of current copies and every
pattern of reads that fail at first: the query gives the same answer as with good reads, takes no
pair from an inconsistent leaf and drops nothing it has put back iff the blocks cached entries of
the range lead to point back to their slots, no block read on its levels is read badly and the
levels fit into the send queues. -/
theorem query_tolerates_iff (h : (treeSystem ι crc).Reachable s) (hrest : s.AtRest)
    (hgood : ∀ σ b l, Spells s.mem σ (.leaf b l) → (s.mem.leaf l).isConsistent crc = true)
    (hlt : fromKey < toKey) (hc : cache.Correct s.mem) (hT : T.Caught crc s.mem cache fromKey toKey)
    (env env' : RangeEnv) {fuel : ℕ} (hfuel : 2 * n + 2 ≤ fuel) :
    Tolerates crc s.mem T env env' cache.lookup fuel fromKey toKey ↔
      Undisturbed s.mem T cache fromKey toKey ∧ cache.LevelsFit env s.mem fromKey toKey ∧
        cache.LevelsFit env' s.mem fromKey toKey := by
  have hr := resting_of_reachable h hrest
  refine tolerates_iff crc hr hc hlt (fun l hl => ?_) hT env env' hfuel
  obtain ⟨b, σ, hs, -⟩ := hr.tree.spells_leaf hl
  exact hgood σ b l hs

/-- A snapshot that fails wherever it is read: a leaf with another value and the old checksum. -/
def tornLeaf : Snapshot 2 where
  leaf := ⟨.root, true, 1, .ofList [1, 2], 7, false⟩
  page := ⟨.root, ⟨0, .deleted, []⟩, fun _ => .null⟩

def tornFirst : Transient 2 := fun a => if a = 0 then some tornLeaf else none

theorem tornFirst_caught (m : Mem 2) (cache : CacheMap) (fromKey toKey : Key 2) :
    tornFirst.Caught (fun _ _ => 0) m cache fromKey toKey := by
  intro p σ a y _ ha hy
  obtain rfl : y = tornLeaf := by
    unfold tornFirst at hy
    split at hy
    · exact (Option.some.inj hy).symm
    · cases hy
  have h1 : tornLeaf.leaf.isConsistent (fun _ _ => 0) = false := by decide
  have h2 : ∀ p d c, tornLeaf.page.isValid p d c = false := fun _ _ _ => rfl
  cases hl : m.load p with
  | null => simp [hl] at ha
  | leaf b l => simp [Snapshot.Fails, h1]
  | node b t x => exact h2 _ _ _

structure TwoKeys (m : Mem 2) : Prop where
  root : m.root = .node 0 .node4 2
  slots : ∀ i < 256, m.load (.slot 2 i) = .null ∨ m.load (.slot 2 i) = .leaf 2 0 ∨
    m.load (.slot 2 i) = .leaf 3 1
  checksum : (m.leaf 0).checksum = 0 ∧ (m.leaf 1).checksum = 0

instance (m : Mem 2) : Decidable (TwoKeys m) :=
  decidable_of_iff (m.root = .node 0 .node4 2 ∧
    (∀ i < 256, m.load (.slot 2 i) = .null ∨ m.load (.slot 2 i) = .leaf 2 0 ∨
      m.load (.slot 2 i) = .leaf 3 1) ∧ (m.leaf 0).checksum = 0 ∧ (m.leaf 1).checksum = 0)
    ⟨fun ⟨h1, h2, h3⟩ => ⟨h1, h2, h3⟩, fun h => ⟨h.root, h.slots, h.checksum⟩⟩

theorem TwoKeys.consistent {m : Mem 2} (h : TwoKeys m) {b : UInt8} {l : Addr}
    (hs : Spells m σ (.leaf b l)) : (m.leaf l).isConsistent (fun _ _ => 0) = true := by
  have hall : ∀ {σ e}, Spells m σ e → e = .node 0 .node4 2 ∨ e = .leaf 2 0 ∨ e = .leaf 3 1 := by
    intro σ e hs
    induction hs with
    | root => exact .inl h.root
    | @child s b t a i _ hi he ih =>
      obtain ih | ih | ih := ih
      · cases ih
        exact .inr ((h.slots i hi).resolve_left he)
      · cases ih
      · cases ih
  obtain hl | hl | hl := hall hs
  · cases hl
  · cases hl
    simp [Leaf.isConsistent, h.checksum.1]
  · cases hl
    simp [Leaf.isConsistent, h.checksum.2]

open scoped Transition.Numbered

/-- A query for the other key alone does not read the leaf. -/
theorem query_tolerates_other : ∃ t, (treeSystem (Fin 1) fun _ _ => 0).run (empty (Fin 1) 2)
    (script (fun _ _ => 0) twoKeys (empty (Fin 1) 2)) = some t ∧
      (Tolerates (fun _ _ => 0) t.mem tornFirst (idleEnv (t.mem.node 0)) (idleEnv (t.mem.node 0))
          CacheMap.empty.lookup 6 ⟨[1, 3], rfl⟩ ⟨[1, 4], rfl⟩ ↔
        Undisturbed t.mem tornFirst CacheMap.empty ⟨[1, 3], rfl⟩ ⟨[1, 4], rfl⟩ ∧
          CacheMap.empty.LevelsFit (idleEnv (t.mem.node 0)) t.mem ⟨[1, 3], rfl⟩ ⟨[1, 4], rfl⟩ ∧
          CacheMap.empty.LevelsFit (idleEnv (t.mem.node 0)) t.mem ⟨[1, 3], rfl⟩ ⟨[1, 4], rfl⟩) := by
  obtain ⟨t, ht, hrest, htwo⟩ : (treeSystem (Fin 1) fun _ _ => 0).Ends (empty (Fin 1) 2)
      (script (fun _ _ => 0) twoKeys (empty (Fin 1) 2)) fun t => t.AtRest ∧ TwoKeys t.mem := by
    decide +kernel
  exact ⟨t, ht, query_tolerates_iff (.run empty_reachable ht) hrest (fun _ _ _ => htwo.consistent)
    (by decide) (CacheMap.empty_correct t.mem) (tornFirst_caught _ _ _ _) _ _ (by decide)⟩

/-- The value of the torn read is returned, and the leaf is not read again. -/
theorem query_returns_torn_value : ∃ t, (treeSystem (Fin 1) fun _ _ => 0).run (empty (Fin 1) 2)
    (script (fun _ _ => 0) twoKeys (empty (Fin 1) 2)) = some t ∧ t.AtRest ∧
      (∀ σ b l, Spells t.mem σ (.leaf b l) → (t.mem.leaf l).isConsistent (fun _ _ => 0) = true) ∧
      tornFirst.Caught (fun _ _ => 0) t.mem CacheMap.empty ⟨[1, 2], rfl⟩ ⟨[1, 4], rfl⟩ ∧
      ¬ Tolerates (fun _ _ => 0) t.mem tornFirst (idleEnv (t.mem.node 0)) (idleEnv (t.mem.node 0))
        CacheMap.empty.lookup 6 ⟨[1, 2], rfl⟩ ⟨[1, 4], rfl⟩ := by
  obtain ⟨t, ht, hrest, htwo, hq, hq'⟩ : (treeSystem (Fin 1) fun _ _ => 0).Ends (empty (Fin 1) 2)
      (script (fun _ _ => 0) twoKeys (empty (Fin 1) 2)) fun t => t.AtRest ∧ TwoKeys t.mem ∧
        rangeQuery (fun _ _ => 0) t.mem tornFirst (idleEnv (t.mem.node 0)) CacheMap.empty.lookup 6
          (⟨[1, 2], rfl⟩ : Key 2) ⟨[1, 4], rfl⟩ =
            some [(⟨[1, 2], rfl⟩, 7), (⟨[1, 3], rfl⟩, 0)] ∧
        rangeQuery (fun _ _ => 0) t.mem .none (idleEnv (t.mem.node 0)) CacheMap.empty.lookup 6
          (⟨[1, 2], rfl⟩ : Key 2) ⟨[1, 4], rfl⟩ =
            some [(⟨[1, 2], rfl⟩, 0), (⟨[1, 3], rfl⟩, 0)] := by decide +kernel
  refine ⟨t, ht, hrest, fun _ _ _ => htwo.consistent, tornFirst_caught _ _ _ _, fun htol => ?_⟩
  obtain ⟨ret, ret', hret, hret', hsame⟩ := htol.same
  rw [hq] at hret
  rw [hq'] at hret'
  cases hret
  cases hret'
  exact absurd (hsame ⟨[1, 2], rfl⟩) (by decide)

end World
end SmartTree
