import SmartTree.RadixCache.LongestPrefix

/-! The index cache as the rest of the program sees it: a map from byte strings to copies of
nodes, searched for the longest prefix of a key that leads on. -/
namespace SmartTree
variable {n : ℕ}

abbrev CacheMap := List UInt8 → Option CacheEntry

namespace CacheMap

def empty : CacheMap := fun _ => none

/-- The record for the key in the node filed under its first `d` bytes. -/
def hitAt (cache : CacheMap) (k : Key n) (d : ℕ) : Option (Ptr × Entry × ℕ) :=
  (cache (k.pre d)).bind fun e =>
    (e.records.findIdx? fun r => r ≠ .null ∧ r.partialKey = k.byte (d + 1)).map fun i =>
      (.slot e.addr i, e.records.getD i .null, e.depth)

/-- The longest prefix shorter than `d` that has one. -/
def lookupBelow (cache : CacheMap) (k : Key n) : ℕ → Option (Ptr × Entry × ℕ)
  | 0 => none
  | d + 1 => (cache.hitAt k d).or (lookupBelow cache k d)

/-- `search_from_cache`: slot, record and depth for the longest prefix that has a record for the
next byte. -/
def lookup (cache : CacheMap) (k : Key n) : Option (Ptr × Entry × ℕ) := cache.lookupBelow k n

variable {cache : CacheMap} {k : Key n}

theorem lookupBelow_eq_none {d : ℕ} (h : ∀ e < d, cache.hitAt k e = none) :
    cache.lookupBelow k d = none := by
  induction d with
  | zero => rfl
  | succ d ih => rw [lookupBelow, h d (by omega), Option.none_or, ih fun e he => h e (by omega)]

theorem lookupBelow_eq_some {d c : ℕ} {x : Ptr × Entry × ℕ} (hc : c < d)
    (h : cache.hitAt k c = some x) (hmax : ∀ e, c < e → e < d → cache.hitAt k e = none) :
    cache.lookupBelow k d = some x := by
  induction d with
  | zero => omega
  | succ d ih =>
    rw [lookupBelow]
    obtain rfl | hlt := Nat.eq_or_lt_of_le (Nat.le_of_lt_succ hc)
    · rw [h, Option.some_or]
    · rw [hmax d hlt (by omega), Option.none_or, ih hlt fun e h1 h2 => hmax e h1 (by omega)]

@[simp] theorem lookup_empty (k : Key n) : empty.lookup k = none :=
  lookupBelow_eq_none fun _ _ => rfl

end CacheMap

namespace RadixCache
variable {c : RadixCache} {live : Live} {k : Key n}

def contents (c : RadixCache) (live : Live) : CacheMap := fun w =>
  (live w).bind fun x => if c.isExpired x.2 then none else some x.2.toCacheEntry

theorem hitAt_contents {d : ℕ} {x : Ptr × Entry × ℕ} : (c.contents live).hitAt k d = some x ↔
    ∃ p e i, live (k.pre d) = some (p, e) ∧ c.isExpired e = false ∧
      findRecord e (k.byte (d + 1)) = some i ∧
        x = (.slot e.addr i, e.records.getD i .null, e.depth) := by
  unfold CacheMap.hitAt contents
  constructor
  · intro h
    obtain ⟨e, he, h⟩ := Option.bind_eq_some_iff.mp h
    obtain ⟨⟨p, te⟩, hlive, hte⟩ := Option.bind_eq_some_iff.mp he
    obtain ⟨i, hi, rfl⟩ := Option.map_eq_some_iff.mp h
    split at hte
    · cases hte
    · rename_i hexp
      cases hte
      exact ⟨p, te, i, hlive, by simpa using hexp, hi, rfl⟩
  · rintro ⟨p, e, i, hlive, hexp, hi, rfl⟩
    rw [hlive, Option.bind_some, if_neg (by simp [hexp]), Option.bind_some]
    exact Option.map_eq_some_iff.mpr ⟨i, hi, rfl⟩

theorem hit_iff_hitAt {d : ℕ} (hd : d < n) :
    Hit c live k (k.pre d) ↔ ∃ x, (c.contents live).hitAt k d = some x := by
  have hlen : (k.pre d).length = d := by simp [Key.pre, hd.le]
  have hb : k.bytes[d]? = some (k.byte (d + 1)) := by
    rw [List.getElem?_eq_getElem (by simpa using hd)]
    simp [Key.byte, hd]
  rw [Hit, hlen, hb]
  constructor
  · rintro ⟨-, p, e, b, hlive, hexp, hb, hr⟩
    obtain rfl := Option.some.inj hb
    obtain ⟨i, hi⟩ := Option.isSome_iff_exists.mp (findRecord_isSome.mpr hr)
    exact ⟨_, hitAt_contents.mpr ⟨p, e, i, hlive, hexp, hi, rfl⟩⟩
  · rintro ⟨x, hx⟩
    obtain ⟨p, e, i, hlive, hexp, hi, -⟩ := hitAt_contents.mp hx
    exact ⟨List.take_prefix _ _, p, e, _, hlive, hexp, rfl, findRecord_isSome.mp (by simp [hi])⟩

/-- What a search of the trie answers is what the map of its live, unexpired entries answers. -/
theorem searchFromCache_eq_lookup (h : AnswersLongest c live k) :
    ∃ c' r, c.searchFromCache k = some (c', r) ∧
      (r.map fun x => (.slot (c.entry x.2.1).addr x.2.2, (c.entry x.2.1).records.getD x.2.2 .null,
        (c.entry x.2.1).depth)) = (c.contents live).lookup k := by
  obtain ⟨c', r, hs, hsome, hlongest⟩ := h
  refine ⟨c', r, hs, ?_⟩
  cases r with
  | none =>
    refine (CacheMap.lookupBelow_eq_none fun e he => Option.eq_none_iff_forall_ne_some.mpr
      fun x hx => ?_).symm
    exact absurd (hsome.mpr ⟨_, (hit_iff_hitAt he).mpr ⟨x, hx⟩⟩) (by simp)
  | some x =>
    obtain ⟨s, p, i⟩ := x
    obtain ⟨w, hw, hmax, hlive, -, -, b, hb, hrec⟩ := hlongest s p i rfl
    obtain ⟨hpre, p', e, b', hlive', hexp, -, -⟩ := hw
    rw [hlive] at hlive'
    obtain ⟨rfl, rfl⟩ := Prod.mk.inj (Option.some.inj hlive')
    have hlt : w.length < n := by simpa using (List.getElem?_eq_some_iff.mp hb).1
    obtain ⟨hlt', hb⟩ := List.getElem?_eq_some_iff.mp hb
    have hbyte : b = k.byte (w.length + 1) := by
      rw [← hb]
      simp [Key.byte, hlt]
    have hkw : k.pre w.length = w := (List.prefix_iff_eq_take.mp hpre).symm
    refine (CacheMap.lookupBelow_eq_some hlt (hitAt_contents.mpr ⟨p, c.entry p, i, ?_, hexp, ?_, rfl⟩)
      fun e h1 h2 => Option.eq_none_iff_forall_ne_some.mpr fun x hx => ?_).symm
    · rw [hkw, hlive]
    · rw [← hbyte]
      exact findRecord_eq_some.mpr hrec
    · have := hmax _ ((hit_iff_hitAt h2).mpr ⟨x, hx⟩)
      simp only [Key.pre, List.length_take, Key.length_bytes] at this
      omega

end RadixCache
end SmartTree
