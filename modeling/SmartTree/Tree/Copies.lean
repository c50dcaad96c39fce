import SmartTree.Tree.Entries
import SmartTree.KeyArithmetic
import SmartTree.RadixCache.Lookup

/-! The contexts a range query takes from an index cache in which every entry is a current copy of
a node of the tree at rest, filed under the path of the node. -/
namespace SmartTree
variable {n : ℕ}

namespace CacheMap

/-- Every entry is a copy of a node of the tree as it is, under the path of the node. -/
def Correct (cache : CacheMap) (m : Mem n) : Prop :=
  ∀ w e, cache w = some e → ∃ σ b t a, Spells m σ (.node b t a) ∧ e = .ofPage (m.node a) a ∧
    w = σ.take ((m.node a).hdr.depth - 1) ++ (m.node a).hdr.partials

theorem empty_correct (m : Mem n) : empty.Correct m := fun _ _ h => by cases h

section correct
variable {L : Layout} {m : Mem n} {cache : CacheMap} {k : Key n} {p : Ptr} {σ π : List UInt8}

def Holds (cache : CacheMap) (L : Layout) (m : Mem n) (k : Key n) (p : Ptr) (σ : List UInt8) : Prop :=
  ∃ a π j, L a = some (.node π) ∧ cache π = some (.ofPage (m.node a) a) ∧ p = .slot a j ∧
    m.load p ≠ .null ∧ σ = π ++ [(m.load p).partialKey] ∧ σ <+: k.bytes

theorem Holds.slot (h : cache.Holds L m k p σ) : SlotPath L m p σ := by
  obtain ⟨a, π, j, ha, -, rfl, hne, rfl, -⟩ := h
  exact .slot ha hne

theorem Holds.of_key (h : cache.Holds L m k p σ) {k' : Key n} (hk : σ <+: k'.bytes) :
    cache.Holds L m k' p σ := by
  obtain ⟨a, π, j, ha, hcache, rfl, hne, hσ, -⟩ := h
  exact ⟨a, π, j, ha, hcache, rfl, hne, hσ, hk⟩

theorem Correct.layout (hc : cache.Correct m) (ht : TreeInv L m) {w : List UInt8} {e : CacheEntry}
    (h : cache w = some e) : ∃ a, L a = some (.node w) ∧ e = .ofPage (m.node a) a := by
  obtain ⟨σ, b, t, a, hs, rfl, rfl⟩ := hc w e h
  obtain ⟨p, hp, hl⟩ := ht.slot_of_spells hs
  have hok := ht.entry hp
  rw [hl] at hok
  cases hok with
  | @node _ _ _ π ha hσ =>
    have hd := ht.attached a π ha p σ hp (by rw [hl]; rfl)
    rw [(ht.node a π ha).hdr.take_append hσ hd]
    exact ⟨a, ha, rfl⟩

theorem hitAt_copy (hr : World.Resting L m) {a : Addr} (ha : L a = some (.node π))
    (hcache : cache π = some (.ofPage (m.node a) a)) (hk : π <+: k.bytes) {h : Ptr × Entry × ℕ} :
    cache.hitAt k π.length = some h ↔ ∃ j, m.load (.slot a j) ≠ .null ∧
      π ++ [(m.load (.slot a j)).partialKey] <+: k.bytes ∧
        h = (.slot a j, m.load (.slot a j), π.length + 1) := by
  have hn := hr.tree.node a π ha
  have hbyte := Key.append_byte_prefix hk hn.short
  have hpre : ∀ b : UInt8, π ++ [b] <+: k.bytes ↔ b = k.byte (π.length + 1) := by
    refine fun b => ⟨fun hb => ?_, fun hb => hb ▸ hbyte⟩
    have := (List.prefix_of_prefix_length_le hb hbyte (by simp)).eq_of_length (by simp)
    simpa using this
  have hkey : k.pre π.length = π := (List.prefix_iff_eq_take.mp hk).symm
  have hdepth : (CacheEntry.ofPage (m.node a) a).depth = π.length + 1 := hn.hdr.end_eq
  have hrec : ∀ j, (CacheEntry.ofPage (m.node a) a).records.findIdx?
      (fun r => r ≠ .null ∧ r.partialKey = k.byte (π.length + 1)) = some j ↔
        m.load (.slot a j) ≠ .null ∧ (m.load (.slot a j)).partialKey = k.byte (π.length + 1) := by
    intro j
    rw [List.findIdx?_eq_some_iff_getElem]
    simp only [CacheEntry.ofPage, List.length_map, List.length_range, List.getElem_map,
      List.getElem_range, decide_eq_true_eq]
    constructor
    · rintro ⟨-, hj, -⟩
      exact hj
    · rintro ⟨hj, hb⟩
      exact ⟨hr.slot a π j ha hj, ⟨hj, hb⟩, fun i hi h =>
        hi.ne (hn.distinct i j h.1 hj (h.2.trans hb.symm))⟩
  simp only [hitAt, hkey, hcache, Option.bind_some, Option.map_eq_some_iff, hrec, hpre, hdepth]
  refine exists_congr fun j => ?_
  constructor
  · rintro ⟨⟨hj, hb⟩, rfl⟩
    refine ⟨hj, hb, ?_⟩
    have hlt := hr.slot a π j ha hj
    simp only [CacheEntry.ofPage, List.getD_eq_getElem?_getD, List.getElem?_map,
      List.getElem?_range hlt]
    rfl
  · rintro ⟨hj, hb, rfl⟩
    refine ⟨⟨hj, hb⟩, ?_⟩
    have hlt := hr.slot a π j ha hj
    simp only [CacheEntry.ofPage, List.getD_eq_getElem?_getD, List.getElem?_map,
      List.getElem?_range hlt]
    rfl

variable (hr : World.Resting L m) (hc : cache.Correct m)
include hr hc

theorem hitAt_eq_some {d : ℕ} (hd : d ≤ n) {h : Ptr × Entry × ℕ} : cache.hitAt k d = some h ↔
    ∃ p σ, cache.Holds L m k p σ ∧ σ.length = d + 1 ∧ h = (p, m.load p, d + 1) := by
  constructor
  · intro hh
    obtain ⟨e, he, -⟩ := Option.bind_eq_some_iff.mp hh
    obtain ⟨a, ha, rfl⟩ := hc.layout hr.tree he
    have hlen : (k.pre d).length = d := by simp [Key.pre, hd]
    rw [← hlen] at hh
    obtain ⟨j, hj, hpre, rfl⟩ := (hitAt_copy hr ha he (List.take_prefix _ _)).mp hh
    exact ⟨_, _, ⟨a, _, j, ha, he, rfl, hj, rfl, hpre⟩, by simp [hlen], by rw [hlen]⟩
  · rintro ⟨p, σ, ⟨a, π, j, ha, he, rfl, hj, rfl, hpre⟩, hlen, rfl⟩
    obtain rfl : π.length = d := by simpa using hlen
    exact (hitAt_copy hr ha he ((List.prefix_append _ _).trans hpre)).mpr ⟨j, hj, hpre, rfl⟩

/-- The lookup answers with the deepest slot of a cached node on the way of the key. -/
theorem lookupBelow_spec {d : ℕ} (hd : d ≤ n) :
    (∀ h, cache.lookupBelow k d = some h → ∃ p σ, cache.Holds L m k p σ ∧
      h = (p, m.load p, σ.length) ∧ σ.length ≤ d) ∧
    ∀ p σ, cache.Holds L m k p σ → σ.length ≤ d →
      ∃ q e c, cache.lookupBelow k d = some (q, e, c) ∧ σ.length ≤ c := by
  induction d with
  | zero =>
    refine ⟨nofun, fun p σ hp hlen => ?_⟩
    obtain ⟨a, π, j, -, -, -, -, rfl, -⟩ := hp
    simp at hlen
  | succ d ih =>
    obtain ⟨ih1, ih2⟩ := ih (by omega)
    rw [lookupBelow]
    cases hhit : cache.hitAt k d with
    | some h =>
      obtain ⟨p, σ, hp, hlen, rfl⟩ := (hitAt_eq_some hr hc (by omega)).mp hhit
      refine ⟨fun h hh => ?_, fun q τ _ hle => ⟨p, m.load p, d + 1, rfl, hle⟩⟩
      obtain rfl := Option.some.inj hh
      exact ⟨p, σ, hp, by rw [hlen], hlen.le⟩
    | none =>
      refine ⟨fun h hh => ?_, fun p σ hp hlen => ?_⟩
      · obtain ⟨p, σ, hp, he, hle⟩ := ih1 h hh
        exact ⟨p, σ, hp, he, by omega⟩
      · obtain hlt | heq := Nat.lt_or_eq_of_le hlen
        · exact ih2 p σ hp (by omega)
        · rw [(hitAt_eq_some hr hc (by omega)).mpr ⟨p, σ, hp, heq, rfl⟩] at hhit
          cases hhit

omit hc in
theorem Holds.length_le (h : cache.Holds L m k p σ) : σ.length ≤ n :=
  h.slot.length_le hr.tree

theorem lookup_eq_some {e : Entry} {c : ℕ} (h : cache.lookup k = some (p, e, c)) :
    e = m.load p ∧ ∃ σ, cache.Holds L m k p σ ∧ c = σ.length ∧
      ∀ q τ, cache.Holds L m k q τ → τ.length ≤ σ.length := by
  obtain ⟨h1, h2⟩ := lookupBelow_spec hr hc (k := k) le_rfl
  obtain ⟨p', σ, hp, he, -⟩ := h1 _ h
  obtain ⟨rfl, rfl, rfl⟩ : p = p' ∧ e = m.load p' ∧ c = σ.length := by simpa using he
  refine ⟨rfl, σ, hp, rfl, fun q τ hq => ?_⟩
  obtain ⟨q', e', c', hl, hle⟩ := h2 q τ hq (hq.length_le hr)
  rw [show cache.lookupBelow k n = some (p, m.load p, σ.length) from h] at hl
  cases hl
  exact hle

theorem Holds.lookup (h : cache.Holds L m k p σ) : ∃ q e c, cache.lookup k = some (q, e, c) := by
  obtain ⟨q, e, c, hl, -⟩ := (lookupBelow_spec hr hc (k := k) le_rfl).2 p σ h (h.length_le hr)
  exact ⟨q, e, c, hl⟩

end correct
end CacheMap

section contexts
variable {lookup : Key n → Option (Ptr × Entry × ℕ)} {fromKey toKey k : Key n}

def RangeCache.of (k : Key n) (h : Ptr × Entry × ℕ) : RangeCache n :=
  match h.2.1 with
  | .leaf _ _ => ⟨k, k, h.1, h.2.1, h.2.2⟩
  | _ => ⟨getLeftmost k h.2.2, getRightmost k h.2.2, h.1, h.2.1, h.2.2⟩

@[simp] theorem RangeCache.of_ePtr (k : Key n) (h : Ptr × Entry × ℕ) :
    ((RangeCache.of k h).context fromKey toKey).ePtr = h.1 := by
  unfold RangeCache.of RangeCache.context
  split <;> rfl

@[simp] theorem RangeCache.of_e (k : Key n) (h : Ptr × Entry × ℕ) : (RangeCache.of k h).e = h.2.1 := by
  unfold RangeCache.of
  split <;> simp_all

theorem rangeCacheLoop_eq {fuel : ℕ} {ks : List (Key n)} (h : scanLoop toKey fuel k = some ks) :
    rangeCacheLoop lookup toKey fuel k = ks.flatMap fun x => ((lookup x).map (.of x)).toList := by
  induction fuel generalizing k ks with
  | zero => cases h
  | succ fuel ih =>
    rw [scanLoop] at h
    rw [rangeCacheLoop]
    split at h
    · rename_i hlt
      obtain ⟨rest, hrest, rfl⟩ := Option.map_eq_some_iff.mp h
      rw [if_pos hlt, List.flatMap_cons, ih hrest]
      congr 1
      cases hl : lookup k with
      | none => rfl
      | some q =>
        obtain ⟨p, e, d⟩ := q
        cases e <;> rfl
    · rename_i hge
      cases h
      rw [if_neg hge]
      rfl

theorem mem_searchRangeFromCache {rc : RangeCache n} :
    rc ∈ searchRangeFromCache lookup fromKey toKey ↔
      ∃ x h, fromKey ≤ x ∧ x < toKey ∧ lookup x = some h ∧ rc = .of x h := by
  have hlt := toKey.toNat_lt
  obtain ⟨ks, hks, -, hmem⟩ :=
    scanLoop_spec (show toKey.toNat - fromKey.toNat < 256 ^ n by omega)
  rw [searchRangeFromCache, rangeCacheLoop_eq hks]
  simp only [List.mem_flatMap, hmem, Option.mem_toList, Option.map_eq_some_iff, and_assoc,
    exists_and_left, @eq_comm _ rc]

variable {σ : List UInt8}

theorem Key.pre_fill (hσ : σ <+: k.bytes) (b : UInt8) : (k.fill σ.length b).bytes.take σ.length = σ := by
  rw [Key.take_fill (by simpa using hσ.length_le), ← List.prefix_iff_eq_take.mp hσ]

/-- The left state and bound of the context of a cached node entry. -/
theorem leftmost_means (hσ : σ <+: k.bytes) (h1 : fromKey ≤ k) :
    State.Means Above fromKey ((getLeftmost k σ.length).max fromKey) σ
      (if getLeftmost k σ.length ≤ fromKey then .border else .inside) := by
  have hk : k.bytes.take σ.length = σ := (List.prefix_iff_eq_take.mp hσ).symm
  have hfill : (getLeftmost k σ.length).bytes.take σ.length = σ := Key.pre_fill hσ 0
  by_cases hle : getLeftmost k σ.length ≤ fromKey
  · have hpre : σ <+: fromKey.bytes := by
      rw [List.prefix_iff_eq_take, Key.take_eq_of_between (hfill.trans hk.symm) hle h1, hk]
    have hmax : (getLeftmost k σ.length).max fromKey = fromKey := by
      unfold Key.max
      split
      · rfl
      · rename_i hlt
        exact Key.toNat_inj.mp (Nat.le_antisymm (Key.le_iff.mp hle) (Key.le_iff.mp hlt))
    rw [if_pos hle, hmax]
    exact .on_border hpre
  · have hne : fromKey.pre σ.length ≠ σ := fun he => hle (Key.fill_zero_le_of_take (he.trans hk.symm))
    have hlt : fromKey.pre σ.length < σ := by
      by_contra hge
      refine hne (List.le_antisymm (fun hc => h1 (Key.lt_of_pre (d := σ.length) ?_)) hge)
      rwa [Key.pre, hk]
    have hmax : (getLeftmost k σ.length).max fromKey = getLeftmost k σ.length := by
      unfold Key.max
      rw [if_neg]
      exact fun hc => hle (Key.le_iff.mpr (Key.lt_iff.mp hc).le)
    rw [if_neg hle, hmax]
    refine ⟨by simp [State.of, hne, hlt], by decide, by simp, fun _ => ?_⟩
    rw [List.prefix_iff_eq_take, hfill]

theorem rightmost_means {hi : Key n} (hσ : σ <+: k.bytes) (h1 : k ≤ hi) :
    State.Means Below hi ((getRightmost k σ.length).min hi) σ
      (if hi ≤ getRightmost k σ.length then .border else .inside) := by
  have hk : k.bytes.take σ.length = σ := (List.prefix_iff_eq_take.mp hσ).symm
  have hfill : (getRightmost k σ.length).bytes.take σ.length = σ := Key.pre_fill hσ 255
  by_cases hle : hi ≤ getRightmost k σ.length
  · have hpre : σ <+: hi.bytes := by
      rw [List.prefix_iff_eq_take, Key.take_eq_of_between (hk.trans hfill.symm) h1 hle, hfill]
    have hmin : (getRightmost k σ.length).min hi = hi := by
      unfold Key.min
      split
      · rfl
      · rename_i hlt
        exact Key.toNat_inj.mp (Nat.le_antisymm (Key.le_iff.mp hlt) (Key.le_iff.mp hle))
    rw [if_pos hle, hmin]
    exact .on_border hpre
  · have hne : hi.pre σ.length ≠ σ := fun he => hle (Key.le_fill_max_of_take (he.trans hk.symm))
    have hlt : σ < hi.pre σ.length := by
      by_contra hge
      refine hne (List.le_antisymm hge fun hc => h1 (Key.lt_of_pre (d := σ.length) ?_))
      rwa [show k.pre σ.length = σ from hk]
    have hmin : (getRightmost k σ.length).min hi = getRightmost k σ.length := by
      unfold Key.min
      rw [if_neg]
      exact fun hc => hle (Key.le_iff.mpr (Key.lt_iff.mp hc).le)
    rw [if_neg hle, hmin]
    refine ⟨by simp [State.of, hne, hlt], by decide, nofun, fun _ => ?_⟩
    rw [List.prefix_iff_eq_take, hfill]

variable {L : Layout} {m : Mem n} {cache : CacheMap} {p : Ptr}

theorem CacheMap.Holds.stands (h : cache.Holds L m k p σ) (h1 : fromKey ≤ k) (h2 : k < toKey) :
    Stands L m fromKey (toKey.sub 1)
      ((RangeCache.of k (p, m.load p, σ.length)).context fromKey toKey) σ := by
  obtain ⟨a, π, j, ha, -, rfl, hne, -, hσ⟩ := id h
  have hle : k ≤ toKey.sub 1 := (Key.lt_iff_le_sub_one h2).mp h2
  refine ⟨?_, ?_, ?_, ?_, fun b t x he => ?_⟩
  · cases he : m.load (.slot a j) <;> simpa [RangeCache.of, RangeCache.context, he] using h.slot
  · cases he : m.load (.slot a j) <;> rfl
  · cases he : m.load (.slot a j) <;> simp [RangeCache.of, RangeCache.context, he]
  · cases he : m.load (.slot a j) <;> simp [RangeCache.of, RangeCache.context]
    exact hne he
  · cases hl : m.load (.slot a j) with
    | null => exact absurd hl hne
    | leaf => simp [RangeCache.of, RangeCache.context, hl] at he
    | node b' t' x' => exact ⟨leftmost_means hσ h1, rightmost_means hσ hle⟩

end contexts
end SmartTree
