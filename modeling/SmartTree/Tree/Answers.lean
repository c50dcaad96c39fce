import SmartTree.Tree.FirstLevel
import SmartTree.Tree.LevelSize

/-! What a range query on a tree at rest reads and returns, for every index cache of current copies,
and when it returns at all. -/
namespace SmartTree
variable {n : ℕ} {L : Layout} {m : Mem n} {T : Transient n} {crc : Key n → Value → UInt64}
  {fromKey toKey : Key n} {cache : CacheMap} {start : List (ScanContext n)} {σ : List UInt8} {p : Ptr}

/-- The query finds a leaf that hangs at this depth: with a hit in the range, if the cache leads to
the leaf and the block there points back; without one, unless the bounds still agree below the
slot. -/
def CacheMap.Covers (cache : CacheMap) (m : Mem n) (fromKey toKey k : Key n) (depth : ℕ) : Prop :=
  (cache.Meets fromKey toKey →
    ∃ p e c, cache.lookup k = some (p, e, c) ∧ e.block?.map m.back = some p) ∧
  (¬ cache.Meets fromKey toKey →
    ¬ (depth < n ∧ fromKey.pre (depth + 1) = (toKey.sub 1).pre (depth + 1)))

@[simp] theorem Transient.none_after (seen : List Addr) :
    (Transient.none : Transient n).after seen = Transient.none := by
  funext a
  simp [Transient.after, Transient.none]

theorem leaf_spells_iff (ht : TreeInv L m) {b : UInt8} {l : Addr} :
    Spells m σ (.leaf b l) ↔ ∃ p, SlotPath L m p σ ∧ m.load p = .leaf b l := by
  constructor
  · exact ht.slot_of_spells
  · rintro ⟨p, hp, hl⟩
    exact hl ▸ ht.spells_of_slot hp

def CacheMap.Finds (cache : CacheMap) (m : Mem n) (fromKey toKey : Key n) (q : Key n × Value) : Prop :=
  ∃ σ b l, Spells m σ (.leaf b l) ∧ q = ((m.leaf l).key, (m.leaf l).value) ∧ fromKey ≤ q.1 ∧
    q.1 < toKey ∧ cache.Covers m fromKey toKey q.1 σ.length

/-- The query reads what hangs at this path: some key of the range begins with it, and with a hit
in the range a cached entry lies above, without one the bounds have parted. -/
def CacheMap.Wants (cache : CacheMap) (fromKey toKey : Key n) (σ : List UInt8) : Prop :=
  (∃ k : Key n, σ <+: k.bytes ∧ fromKey ≤ k ∧ k < toKey) ∧
  (cache.Meets fromKey toKey → ∃ k p e c, fromKey ≤ k ∧ k < toKey ∧
    cache.lookup k = some (p, e, c) ∧ k.pre c <+: σ) ∧
  (¬ cache.Meets fromKey toKey →
    ¬ (σ.length < n ∧ fromKey.pre (σ.length + 1) = (toKey.sub 1).pre (σ.length + 1)))

/-- The blocks the query starts from: those of the cached entries of the range, or without a hit
those at the highest slots it wants. -/
def CacheMap.Starts (cache : CacheMap) (m : Mem n) (fromKey toKey : Key n) (a : Addr) : Prop :=
  (cache.Meets fromKey toKey → ∃ k p e c, fromKey ≤ k ∧ k < toKey ∧
    cache.lookup k = some (p, e, c) ∧ e.addr? = some a) ∧
  (¬ cache.Meets fromKey toKey → ∃ p σ, m.SlotAt p σ ∧ (m.load p).addr? = some a ∧
    cache.Wants fromKey toKey σ ∧
      ∀ q τ, m.SlotAt q τ → τ <+: σ → cache.Wants fromKey toKey τ → q = p)

/-- The block points back to its slot, if the query comes to it by a cached entry. -/
def CacheMap.PointsBack (cache : CacheMap) (m : Mem n) (fromKey toKey : Key n) (a : Addr) : Prop :=
  ∀ k p e c, fromKey ≤ k → k < toKey → cache.lookup k = some (p, e, c) → e.addr? = some a →
    e.block?.map m.back = some p

inductive CacheMap.ReadAt (cache : CacheMap) (m : Mem n) (fromKey toKey : Key n) : ℕ → Addr → Prop
  | start {a : Addr} (h : cache.Starts m fromKey toKey a) : ReadAt cache m fromKey toKey 0 a
  | child {i : ℕ} {a x : Addr} {j : ℕ} {σ : List UInt8} (h : ReadAt cache m fromKey toKey i a)
      (hback : cache.PointsBack m fromKey toKey a) (hs : m.SlotAt (.slot a j) σ)
      (hb : Between fromKey (toKey.sub 1) σ) (hx : (m.load (.slot a j)).addr? = some x) :
      ReadAt cache m fromKey toKey (i + 1) x

/-- At no level the query comes to more new blocks of a memory node than the send queue of that node
has room for. -/
def CacheMap.LevelsFit (cache : CacheMap) (env : RangeEnv) (m : Mem n) (fromKey toKey : Key n) :
    Prop :=
  ∀ i, env.Room i fun a => cache.ReadAt m fromKey toKey i a ∧
    ∀ i' < i, ¬ cache.ReadAt m fromKey toKey i' a

structure First (L : Layout) (m : Mem n) (cache : CacheMap) (fromKey toKey : Key n)
    (start : List (ScanContext n)) (seen : List Addr) : Prop where
  stands : ∀ s ∈ start, ∃ σ, Stands L m fromKey (toKey.sub 1) s σ ∧ Between fromKey (toKey.sub 1) σ
  flag : ∃ c, ∀ s ∈ start, s.fromCache = c
  starts : ∀ a, (∃ s ∈ start, s.token = a) ↔ cache.Starts m fromKey toKey a
  cached : ∀ a, Cached start a ↔
    ∃ k p e c, fromKey ≤ k ∧ k < toKey ∧ cache.lookup k = some (p, e, c) ∧ e.addr? = some a
  delivers : ∀ q, Delivered L m .none fromKey toKey fromKey (toKey.sub 1) start q ↔
    cache.Finds m fromKey toKey q
  wants : ∀ p σ, SlotPath L m p σ → m.load p ≠ .null → (cache.Wants fromKey toKey σ ↔
    Between fromKey (toKey.sub 1) σ ∧
      ∃ s ∈ start, ∃ ρ, Stands L m fromKey (toKey.sub 1) s ρ ∧ ρ <+: σ)
  seen : ∀ a ∈ seen, ∀ p σ, SlotPath L m p σ → (m.load p).addr? = some a →
    ¬ cache.Wants fromKey toKey σ
  rejected : ∀ a, Rejected m .none start a ↔ ¬ cache.PointsBack m fromKey toKey a

section first
variable (hr : World.Resting L m) (hc : cache.Correct m) (hlt : fromKey < toKey)
include hr hc hlt

theorem Hits.first (hm : cache.Meets fromKey toKey) (hh : Hits L m cache fromKey toKey start) :
    First L m cache fromKey toKey start [] := by
  have ht := hr.tree
  have hle : ∀ k : Key n, k < toKey ↔ k ≤ toKey.sub 1 := fun k => Key.lt_iff_le_sub_one hlt
  -- the contexts are those of the cached entries of the range
  have hctx : ∀ {s}, s ∈ start → ∃ k c, fromKey ≤ k ∧ k < toKey ∧
      cache.lookup k = some (s.ePtr, s.e, c) ∧ s.e.addr? = some s.token := by
    intro s hs
    obtain ⟨-, k, σ, h1, h2, hl, -, hst⟩ := hh.sound s hs
    obtain ⟨x, hx⟩ := Entry.addr?_ne_none hst.full
    exact ⟨k, _, h1, h2, hst.entry ▸ hl, by rw [ScanContext.token, hx]; rfl⟩
  have hent : ∀ {k p e c a}, fromKey ≤ k → k < toKey → cache.lookup k = some (p, e, c) →
      e.addr? = some a → ∃ s ∈ start, s.ePtr = p ∧ s.e = e ∧ s.token = a ∧ s.fromCache = true := by
    intro k p e c a h1 h2 hl ha
    obtain ⟨rfl, -⟩ := CacheMap.lookup_eq_some hr hc hl
    obtain ⟨s, hs, rfl⟩ := hh.complete k p _ c h1 h2 hl
    obtain ⟨hfc, -, σ, -, -, -, -, hst⟩ := hh.sound s hs
    exact ⟨s, hs, rfl, hst.entry.symm, by rw [ScanContext.token, ← hst.entry, ha]; rfl, hfc⟩
  refine ⟨fun s hs => ?_, ⟨true, fun s hs => (hh.sound s hs).1⟩, fun a => ?_, fun a => ?_, fun q => ?_,
    fun p σ hp hne => ?_, fun a ha => absurd ha List.not_mem_nil, fun a => ?_⟩
  · obtain ⟨-, k, σ, h1, h2, -, hhold, hst⟩ := hh.sound s hs
    obtain ⟨a, π, j, -, -, -, -, -, hk⟩ := hhold
    exact ⟨σ, hst, k, hk, h1, (hle k).mp h2⟩
  · simp only [CacheMap.Starts, hm, true_implies, not_true, false_implies, and_true]
    constructor
    · rintro ⟨s, hs, rfl⟩
      obtain ⟨k, c, h1, h2, hl, ha⟩ := hctx hs
      exact ⟨k, _, _, c, h1, h2, hl, ha⟩
    · rintro ⟨k, p, e, c, h1, h2, hl, ha⟩
      obtain ⟨s, hs, -, -, htok, -⟩ := hent h1 h2 hl ha
      exact ⟨s, hs, htok⟩
  · constructor
    · rintro ⟨s, hs, rfl, -⟩
      obtain ⟨k, c, h1, h2, hl, ha⟩ := hctx hs
      exact ⟨k, _, _, c, h1, h2, hl, ha⟩
    · rintro ⟨k, p, e, c, h1, h2, hl, ha⟩
      obtain ⟨s, hs, -, -, htok, hfc⟩ := hent h1 h2 hl ha
      exact ⟨s, hs, htok, hfc⟩
  · rw [delivered_hits hr hc hh hlt]
    constructor
    · rintro ⟨p, σ, b, l, hp, hl, hq, h1, h2, hcov⟩
      exact ⟨σ, b, l, (leaf_spells_iff ht).mpr ⟨p, hp, hl⟩, hq, h1, h2, fun _ => hcov,
        fun h => absurd hm h⟩
    · rintro ⟨σ, b, l, hs, hq, h1, h2, hcov, -⟩
      obtain ⟨p, hp, hl⟩ := (leaf_spells_iff ht).mp hs
      exact ⟨p, σ, b, l, hp, hl, hq, h1, h2, hcov hm⟩
  · simp only [CacheMap.Wants, hm, true_implies, not_true, false_implies, and_true, Between, hle]
    refine and_congr_right fun _ => ⟨?_, ?_⟩
    · rintro ⟨k, p', e, c, h1, h2, hl, hpre⟩
      obtain ⟨rfl, ρ, hhold, rfl, -⟩ := CacheMap.lookup_eq_some hr hc hl
      obtain ⟨s, hs, rfl⟩ := hh.complete k p' _ _ h1 ((hle k).mpr h2) hl
      obtain ⟨-, -, τ, -, -, -, -, hst⟩ := hh.sound s hs
      obtain rfl := hhold.slot.unique hst.slot
      obtain ⟨a, π, j, -, -, -, -, -, hk⟩ := hhold
      exact ⟨s, hs, ρ, hst, by rwa [Key.pre, ← List.prefix_iff_eq_take.mp hk] at hpre⟩
    · rintro ⟨s, hs, ρ, hρ, hpre⟩
      obtain ⟨-, k, τ, h1, h2, hl, hhold, hst⟩ := hh.sound s hs
      obtain rfl := hρ.slot.unique hst.slot
      obtain ⟨a, π, j, -, -, -, -, -, hk⟩ := hhold
      exact ⟨k, _, _, _, h1, (hle k).mp h2, hl, by rwa [Key.pre, ← List.prefix_iff_eq_take.mp hk]⟩
  · rw [CacheMap.PointsBack, not_forall]
    constructor
    · rintro (hT | ⟨s, hs, rfl, hna⟩)
      · exact absurd rfl hT
      · obtain ⟨k, c, h1, h2, hl, ha⟩ := hctx hs
        exact ⟨k, fun hall => hna fun _ => hall _ _ _ h1 h2 hl ha⟩
    · rintro ⟨k, hk⟩
      simp only [not_forall] at hk
      obtain ⟨p, e, c, h1, h2, hl, ha, hback⟩ := hk
      obtain ⟨s, hs, rfl, rfl, htok, hfc⟩ := hent h1 h2 hl ha
      exact .inr ⟨s, hs, htok, fun hacc => hback (hacc hfc)⟩

omit hc in
theorem Found.first (hm : ¬ cache.Meets fromKey toKey) {d : ℕ} (hd : d ≤ n)
    (hpre : ∀ e ≤ n, fromKey.pre e = (toKey.sub 1).pre e ↔ e ≤ d)
    (hf : Found L m fromKey (toKey.sub 1) d [] start) {seen : List Addr}
    (hseen : ∀ a ∈ seen, ∃ q τ, SlotPath L m q τ ∧ (m.load q).addr? = some a ∧ τ.length < d) :
    First L m cache fromKey toKey start seen := by
  have ht := hr.tree
  have hle : ∀ k : Key n, k < toKey ↔ k ≤ toKey.sub 1 := fun k => Key.lt_iff_le_sub_one hlt
  have hnone : ∀ {k h}, fromKey ≤ k → k < toKey → ¬ cache.lookup k = some h := fun h1 h2 hl =>
    hm ⟨_, h1, h2, by simp [hl]⟩
  have hdepth : ∀ {p σ}, SlotPath L m p σ → (d ≤ σ.length ↔
      ¬ (σ.length < n ∧ fromKey.pre (σ.length + 1) = (toKey.sub 1).pre (σ.length + 1))) := by
    intro p σ hp
    have hlen := hp.length_le ht
    by_cases hn : σ.length < n
    · rw [hpre _ hn]
      omega
    · simp only [hn, false_and, not_false_iff, iff_true]
      omega
  have hwants : ∀ {p σ}, SlotPath L m p σ → (cache.Wants fromKey toKey σ ↔
      Between fromKey (toKey.sub 1) σ ∧ d ≤ σ.length) := by
    intro p σ hp
    simp only [CacheMap.Wants, hm, false_implies, not_false_iff, true_implies, true_and, ← hdepth hp,
      hle, Between]
  refine ⟨fun s hs => (hf.stands s hs).imp fun _ h => ⟨h.1, h.2.1⟩, ⟨false, hf.cold⟩, fun a => ?_,
    fun a => ?_, fun q => ?_, fun p σ hp hne => ?_, fun a ha p σ hp hpa hw => ?_, fun a => ?_⟩
  · simp only [CacheMap.Starts, hm, false_implies, not_false_iff, true_implies, true_and,
      ht.slotAt_iff]
    constructor
    · rintro ⟨s, hs, rfl⟩
      obtain ⟨τ, hτ, hb, hlen⟩ := hf.stands s hs
      obtain ⟨x, hx⟩ := Entry.addr?_ne_none hτ.full
      refine ⟨s.ePtr, τ, hτ.slot, by rw [hτ.entry, ScanContext.token, hx]; rfl,
        (hwants hτ.slot).mpr ⟨hb, hlen⟩, fun q ρ hq hρ hw => ?_⟩
      exact hf.highest s hs τ hτ q ρ hq hρ ((hwants hq).mp hw).2
    · rintro ⟨p, σ, hp, ha, hw, htop⟩
      obtain ⟨hb, hlen⟩ := (hwants hp).mp hw
      obtain ⟨s, hs, ρ, hρ, hpre⟩ :=
        hf.covers p σ hp (by rintro h; simp [h] at ha) List.nil_prefix hlen hb
      obtain ⟨τ, hτ, hb', hlen'⟩ := hf.stands s hs
      obtain rfl := hρ.slot.unique hτ.slot
      obtain rfl := htop s.ePtr ρ hρ.slot hpre ((hwants hρ.slot).mpr ⟨hb', hlen'⟩)
      exact ⟨s, hs, by rw [ScanContext.token, ← hρ.entry, ha]; rfl⟩
  · constructor
    · rintro ⟨s, hs, -, hfc⟩
      rw [hf.cold s hs] at hfc
      cases hfc
    · rintro ⟨k, p, e, c, h1, h2, hl, -⟩
      exact absurd hl (hnone h1 h2)
  · rw [delivered_cold hr hf hlt]
    constructor
    · rintro ⟨p, σ, b, l, hp, hl, hq, h1, h2, hcov⟩
      exact ⟨σ, b, l, (leaf_spells_iff ht).mpr ⟨p, hp, hl⟩, hq, h1, h2, fun h => absurd h hm,
        fun _ => (hdepth hp).mp hcov⟩
    · rintro ⟨σ, b, l, hs, hq, h1, h2, -, hcov⟩
      obtain ⟨p, hp, hl⟩ := (leaf_spells_iff ht).mp hs
      exact ⟨p, σ, b, l, hp, hl, hq, h1, h2, (hdepth hp).mpr (hcov hm)⟩
  · rw [hwants hp]
    refine and_congr_right fun hb => ⟨fun hlen => hf.covers p σ hp hne List.nil_prefix hlen hb, ?_⟩
    rintro ⟨s, hs, ρ, hρ, hpre⟩
    obtain ⟨τ, hτ, -, hlen⟩ := hf.stands s hs
    obtain rfl := hρ.slot.unique hτ.slot
    exact hlen.trans hpre.length_le
  · obtain ⟨q, τ, hq, hqa, hlen⟩ := hseen a ha
    obtain ⟨rfl, rfl⟩ := ht.same_path hq hp hqa hpa
    exact absurd ((hwants hp).mp hw).2 (by omega)
  · refine iff_of_false (not_rejected_of_cold hf.cold a) (not_not.mpr fun k p e c h1 h2 hl _ => ?_)
    exact absurd hl (hnone h1 h2)

theorem firstLevel_first (hT : ∀ q τ a π y, SlotPath L m q τ → (m.load q).addr? = some a →
      L a = some (.node π) → T a = some y → ¬ cache.Meets fromKey toKey →
        y.page.isValid q (τ.length + 1) false = false) (fuel : ℕ) (hfuel : 2 * n + 1 ≤ fuel) :
    ∃ start seen, firstLevel m T cache.lookup fuel fromKey toKey = some (start, seen) ∧
      First L m cache fromKey toKey start seen := by
  by_cases hm : cache.Meets fromKey toKey
  · obtain ⟨start, hfirst, hh⟩ := firstLevel_hits hr hc hm fuel
    exact ⟨start, [], hfirst, hh.first hr hc hlt hm⟩
  · obtain ⟨d, hd, hpre, start, seen, hfirst, hf, hseen⟩ := firstLevel_cold hr hlt hm
      (fun q τ a π y h1 h2 h3 h4 => hT q τ a π y h1 h2 h3 h4 hm) fuel hfuel
    exact ⟨start, seen, hfirst, hf.first hr hlt hm hd hpre hseen⟩

end first

/-- The blocks of a level, told from the first level on and told from the cache on. -/
theorem First.visitedAt_iff {seen : List Addr} (hf : First L m cache fromKey toKey start seen)
    (ht : TreeInv L m) (hlt : fromKey < toKey) {i : ℕ} {a : Addr} :
    VisitedAt L m .none fromKey (toKey.sub 1) start i a ↔ cache.ReadAt m fromKey toKey i a := by
  constructor
  · intro h
    induction h with
    | start hs => exact .start ((hf.starts _).mp ⟨_, hs, rfl⟩)
    | child _ hrej ha hk hx ih =>
      refine .child ih (not_not.mp fun hb => hrej ((hf.rejected _).mpr hb))
        (ht.slotAt_iff.mpr (.slot ha hk.1)) ?_ hx
      exact hk.between ((Key.lt_iff_le_sub_one hlt).mp hlt) (ht.node _ _ ha).short
  · intro h
    induction h with
    | start h =>
      obtain ⟨s, hs, rfl⟩ := (hf.starts _).mpr h
      exact .start hs
    | child _ hback hs hb hx ih =>
      have hrej := fun h => (hf.rejected _).mp h hback
      cases ht.slotAt_iff.mp hs with
      | slot ha hne => exact .child ih hrej ha (kept_of_between hne hb) hx

section query
variable (crc) (hr : World.Resting L m) (hc : cache.Correct m) (hlt : fromKey < toKey) {fuel : ℕ}
  (hfuel : 2 * n + 2 ≤ fuel) (env : RangeEnv)
include hr hc hlt hfuel

/-- With every read good at once the query returns iff its levels fit, with the pairs it is to
find. -/
theorem rangeQuery_answers : ∃ ret,
    (rangeQuery crc m .none env cache.lookup fuel fromKey toKey = some ret ↔
      cache.LevelsFit env m fromKey toKey) ∧
    (∀ ret', rangeQuery crc m .none env cache.lookup fuel fromKey toKey = some ret' → ret' = ret) ∧
    ∀ q, q ∈ ret ↔ cache.Finds m fromKey toKey q := by
  obtain ⟨start, seen, hfirst, hf⟩ := firstLevel_first (T := .none) hr hc hlt
    (fun _ _ _ _ y _ _ _ hy => by cases hy) fuel (by omega)
  obtain ⟨c, hflag⟩ := hf.flag
  have hinv : LevelInv L m (Transient.none.after seen) fromKey toKey fromKey (toKey.sub 1) start 0
      ⟨start, [], []⟩ :=
    .initial (fun s hs => (hf.stands s hs).imp fun _ h => h.1) hflag hr.tree
  obtain ⟨ret, hret, hone, h1, h2⟩ := hinv.returns crc env hr
    (fun _ _ y _ _ hy => by simp [Transient.none] at hy) fuel (by omega)
  have hquery : rangeQuery crc m .none env cache.lookup fuel fromKey toKey = levelLoop crc fromKey toKey
      (levelReads m .none env.old seen) env.takes fuel 0 ⟨start, [], []⟩ := by
    rw [rangeQuery, if_neg fun h => h hlt, hfirst]
    rfl
  rw [Transient.none_after] at hret h1 h2
  rw [hquery]
  refine ⟨ret, hret.trans (forall_congr' fun i => ?_), hone, fun q => ?_⟩
  · rw [Nat.zero_add]
    refine env.room_congr fun a => ?_
    simp only [NewAt, hf.visitedAt_iff hr.tree hlt]
  · rw [← hf.delivers]
    refine ⟨fun hq => (h2 q hq).resolve_right ?_, h1 q⟩
    rintro ⟨a, y, -, hy, -⟩
    cases hy

omit hc hlt hfuel in
/-- No two leaves have the same key, so the pairs are those of the map they are assigned to. -/
theorem retGet_iff_finds {ret : List (Key n × Value)}
    (hmem : ∀ q, q ∈ ret ↔ cache.Finds m fromKey toKey q) (k : Key n) (v : Value) :
    retGet ret k = some v ↔ cache.Finds m fromKey toKey (k, v) := by
  have hone : ∀ {v v'}, (k, v) ∈ ret → (k, v') ∈ ret → v' = v := by
    intro v v' h1 h2
    obtain ⟨σ, b, l, hs, hq, -⟩ := (hmem _).mp h1
    obtain ⟨τ, b', l', hs', hq', -⟩ := (hmem _).mp h2
    obtain ⟨hk, rfl⟩ := Prod.mk.inj hq
    obtain ⟨hk', rfl⟩ := Prod.mk.inj hq'
    rw [(hr.tree.spells_unique hs hs' (hk.symm.trans hk')).2]
  rw [← hmem]
  exact ⟨mem_of_retGet, fun hm => (retGet_eq_some fun _ => hone hm).mpr hm⟩

theorem rangeQuery_map : ∃ ret,
    (rangeQuery crc m .none env cache.lookup fuel fromKey toKey = some ret ↔
      cache.LevelsFit env m fromKey toKey) ∧
    (∀ ret', rangeQuery crc m .none env cache.lookup fuel fromKey toKey = some ret' → ret' = ret) ∧
    ∀ k v, retGet ret k = some v ↔ ∃ σ b l, Spells m σ (.leaf b l) ∧ (m.leaf l).key = k ∧
      (m.leaf l).value = v ∧ fromKey ≤ k ∧ k < toKey ∧ cache.Covers m fromKey toKey k σ.length := by
  obtain ⟨ret, hret, hone, hmem⟩ := rangeQuery_answers crc hr hc hlt hfuel env
  refine ⟨ret, hret, hone, fun k v => ?_⟩
  rw [retGet_iff_finds hr hmem, CacheMap.Finds]
  refine exists_congr fun σ => exists_congr fun b => exists_congr fun l => ?_
  simp only [Prod.mk.injEq, eq_comm (a := k), eq_comm (a := v), and_assoc]

end query
end SmartTree
