import SmartTree.Tree.Copies

/-! The first level of a range query on a tree at rest, for every index cache of current copies,
and the leaves that are delivered from it: without a hit, those from the depth on where the bounds
part; with a hit, those a cached entry leads to that the reverse pointer does not speak against. -/
namespace SmartTree
variable {n : ℕ} {L : Layout} {m : Mem n} {T : Transient n} {crc : Key n → Value → UInt64}
  {fromKey toKey : Key n} {cache : CacheMap} {start : List (ScanContext n)} {σ : List UInt8} {p : Ptr}

def CacheMap.Meets (cache : CacheMap) (fromKey toKey : Key n) : Prop :=
  ∃ k, fromKey ≤ k ∧ k < toKey ∧ cache.lookup k ≠ none

structure Hits (L : Layout) (m : Mem n) (cache : CacheMap) (fromKey toKey : Key n)
    (start : List (ScanContext n)) : Prop where
  sound : ∀ s ∈ start, s.fromCache = true ∧ ∃ k σ, fromKey ≤ k ∧ k < toKey ∧
    cache.lookup k = some (s.ePtr, m.load s.ePtr, σ.length) ∧ cache.Holds L m k s.ePtr σ ∧
      Stands L m fromKey (toKey.sub 1) s σ
  complete : ∀ k p e c, fromKey ≤ k → k < toKey → cache.lookup k = some (p, e, c) →
    ∃ s ∈ start, s.ePtr = p

section first
variable (hr : World.Resting L m) (hc : cache.Correct m) (hlt : fromKey < toKey)
include hr hc

theorem firstLevel_hits (h : cache.Meets fromKey toKey) (fuel : ℕ) :
    ∃ start, firstLevel m T cache.lookup fuel fromKey toKey = some (start, []) ∧
      Hits L m cache fromKey toKey start := by
  have hne : ¬ (searchRangeFromCache cache.lookup fromKey toKey).isEmpty = true := by
    obtain ⟨k, h1, h2, h3⟩ := h
    obtain ⟨q, hq⟩ := Option.ne_none_iff_exists'.mp h3
    have := mem_searchRangeFromCache.mpr ⟨k, q, h1, h2, hq, rfl⟩
    rw [List.isEmpty_iff]
    exact List.ne_nil_of_mem this
  refine ⟨_, by rw [firstLevel, if_neg hne], fun s hs => ?_, fun k p e c h1 h2 hl => ?_⟩
  · obtain ⟨rc, hrc, rfl⟩ := List.mem_map.mp hs
    obtain ⟨k, ⟨p, e, c⟩, h1, h2, hl, rfl⟩ := mem_searchRangeFromCache.mp hrc
    obtain ⟨rfl, σ, hh, rfl, -⟩ := CacheMap.lookup_eq_some hr hc hl
    exact ⟨rfl, k, σ, h1, h2, by rwa [RangeCache.of_ePtr], by rwa [RangeCache.of_ePtr],
      hh.stands h1 h2⟩
  · refine ⟨_, List.mem_map_of_mem (mem_searchRangeFromCache.mpr ⟨k, _, h1, h2, hl, rfl⟩), ?_⟩
    exact RangeCache.of_ePtr ..

omit hc in
include hlt in
theorem firstLevel_cold (h : ¬ cache.Meets fromKey toKey)
    (hT : ∀ q τ a π y, SlotPath L m q τ → (m.load q).addr? = some a → L a = some (.node π) →
      T a = some y → y.page.isValid q (τ.length + 1) false = false)
    (fuel : ℕ) (hfuel : 2 * n + 1 ≤ fuel) :
    ∃ d ≤ n, (∀ e ≤ n, fromKey.pre e = (toKey.sub 1).pre e ↔ e ≤ d) ∧
      ∃ start seen, firstLevel m T cache.lookup fuel fromKey toKey = some (start, seen) ∧
        Found L m fromKey (toKey.sub 1) d [] start ∧
        ∀ a ∈ seen, ∃ q τ, SlotPath L m q τ ∧ (m.load q).addr? = some a ∧ τ.length < d := by
  have hle : fromKey ≤ toKey.sub 1 := (Key.lt_iff_le_sub_one hlt).mp hlt
  have hnil : (searchRangeFromCache cache.lookup fromKey toKey).isEmpty = true := by
    rw [List.isEmpty_iff]
    refine List.eq_nil_iff_forall_not_mem.mpr fun rc hrc => ?_
    obtain ⟨k, q, h1, h2, hl, -⟩ := mem_searchRangeFromCache.mp hrc
    exact h ⟨k, h1, h2, by simp [hl]⟩
  have hnone : cache.lookup fromKey = none := by
    by_contra hne
    exact h ⟨fromKey, List.lt_irrefl fromKey.bytes, hlt, hne⟩
  obtain ⟨d, hd, hlcp, hpre⟩ := longestCommonPrefix_zero fromKey (toKey.sub 1)
  obtain ⟨found, seen, h1, h2, h3⟩ := entriesLoop_found hr hle ((hpre d hd).mpr le_rfl) hT .root
    List.nil_prefix (Nat.zero_le d) (fun _ _ h => nomatch h) fuel (.inl (by simp; omega))
  refine ⟨d, hd, hpre, found, seen, ?_, h2, fun a ha => ?_⟩
  · rw [firstLevel, if_pos hnil, hlcp, hnone]
    exact h1
  · exact (h3 a ha).resolve_left (by simp)

end first

section deliver
variable (ht : TreeInv L m)
include ht

/-- A leaf is delivered iff a context of the first level lies above it and the way from there,
the leaf included, is clear. -/
theorem delivered_iff {lo hi : Key n}
    (hstart : ∀ s ∈ start, ∃ σ, Stands L m lo hi s σ ∧ Between lo hi σ)
    (hb : ∀ k : Key n, fromKey ≤ k → k < toKey → lo ≤ k ∧ k ≤ hi) {q : Key n × Value} :
    Delivered L m T fromKey toKey lo hi start q ↔
      ∃ p σ b l, SlotPath L m p σ ∧ m.load p = .leaf b l ∧
        q = ((m.leaf l).key, (m.leaf l).value) ∧ fromKey ≤ q.1 ∧ q.1 < toKey ∧
        ∃ s ∈ start, ∃ ρ, Stands L m lo hi s ρ ∧ ρ <+: σ ∧ ∀ p' τ a, SlotPath L m p' τ → ρ <+: τ →
          τ <+: σ → (m.load p').addr? = some a → ¬ Rejected m T start a := by
  constructor
  · rintro ⟨l, hl, hv, hrej, rfl, h1, h2⟩
    obtain ⟨p, σ, hp, hpl⟩ := ht.parent l (by simp [hl])
    obtain ⟨b, hload⟩ := ht.load_leaf hp hpl hl
    obtain ⟨-, s, hs, ρ, hρ, hpre, hclear⟩ := (visited_iff ht hstart hp hpl).mp hv
    refine ⟨p, σ, b, l, hp, hload, rfl, h1, h2, s, hs, ρ, hρ, hpre, fun p' τ a hp' h3 h4 ha => ?_⟩
    by_cases hpp : p' = p
    · subst hpp
      rw [hpl] at ha
      obtain rfl := Option.some.inj ha
      exact hrej
    · exact hclear p' τ a hp' h3 h4 hpp ha
  · rintro ⟨p, σ, b, l, hp, hload, rfl, h1, h2, s, hs, ρ, hρ, hpre, hclear⟩
    have hpl : (m.load p).addr? = some l := by rw [hload]; rfl
    have hok := ht.entry hp
    rw [hload] at hok
    cases hok with
    | leaf hl hk =>
    obtain ⟨h3, h4⟩ := hb _ h1 h2
    refine ⟨l, hl, (visited_iff ht hstart hp hpl).mpr ⟨⟨_, hk, h3, h4⟩, s, hs, ρ, hρ, hpre,
      fun p' τ a hp' h5 h6 _ => hclear p' τ a hp' h5 h6⟩, ?_, rfl, h1, h2⟩
    exact hclear p σ l hp hpre List.prefix_rfl hpl

end deliver

section answer
variable (hr : World.Resting L m) (hc : cache.Correct m)

theorem not_rejected_of_cold (hcold : ∀ s ∈ start, s.fromCache = false) (a : Addr) :
    ¬ Rejected m Transient.none start a := by
  rintro (h | ⟨s, hs, -, h⟩)
  · exact h rfl
  · exact h fun hf => by rw [hcold s hs] at hf; cases hf

include hr

/-- Without a hit: the leaves from the depth on where the bounds part. -/
theorem delivered_cold {d : ℕ} (hf : Found L m fromKey (toKey.sub 1) d [] start)
    (hlt : fromKey < toKey) {q : Key n × Value} :
    Delivered L m .none fromKey toKey fromKey (toKey.sub 1) start q ↔
      ∃ p σ b l, SlotPath L m p σ ∧ m.load p = .leaf b l ∧
        q = ((m.leaf l).key, (m.leaf l).value) ∧ fromKey ≤ q.1 ∧ q.1 < toKey ∧ d ≤ σ.length := by
  rw [delivered_iff hr.tree (fun s hs => (hf.stands s hs).imp fun _ h => ⟨h.1, h.2.1⟩)
    fun k h1 h2 => ⟨h1, (Key.lt_iff_le_sub_one hlt).mp h2⟩]
  refine exists_congr fun p => exists_congr fun σ => exists_congr fun b => exists_congr fun l => ?_
  refine and_congr_right fun hp => and_congr_right fun hl => and_congr_right fun hq =>
    and_congr_right fun h1 => and_congr_right fun h2 => ⟨?_, fun hd => ?_⟩
  · rintro ⟨s, hs, ρ, hρ, hpre, -⟩
    obtain ⟨τ, hτ, -, hlen⟩ := hf.stands s hs
    obtain rfl := hρ.slot.unique hτ.slot
    exact hlen.trans hpre.length_le
  · have hok := hr.tree.entry hp
    rw [hl] at hok
    cases hok with
    | leaf _ hk =>
    have hb : Between fromKey (toKey.sub 1) σ :=
      ⟨_, hk, by rwa [hq] at h1, (Key.lt_iff_le_sub_one hlt).mp (by rwa [hq] at h2)⟩
    obtain ⟨s, hs, ρ, hρ, hpre⟩ := hf.covers p σ hp (by simp [hl]) List.nil_prefix hd hb
    exact ⟨s, hs, ρ, hρ, hpre, fun _ _ a _ _ _ _ => not_rejected_of_cold hf.cold a⟩

include hc

/-- With a hit: the leaves a cached entry leads to whose block points back to its slot. -/
theorem delivered_hits (hh : Hits L m cache fromKey toKey start) (hlt : fromKey < toKey)
    {q : Key n × Value} :
    Delivered L m .none fromKey toKey fromKey (toKey.sub 1) start q ↔
      ∃ p σ b l, SlotPath L m p σ ∧ m.load p = .leaf b l ∧
        q = ((m.leaf l).key, (m.leaf l).value) ∧ fromKey ≤ q.1 ∧ q.1 < toKey ∧
        ∃ p' e c, cache.lookup q.1 = some (p', e, c) ∧ e.block?.map m.back = some p' := by
  have ht := hr.tree
  have hle : ∀ k : Key n, k < toKey → k ≤ toKey.sub 1 := fun k => (Key.lt_iff_le_sub_one hlt).mp
  rw [delivered_iff ht (fun s hs => ?_) fun k h1 h2 => ⟨h1, hle k h2⟩]
  swap
  · obtain ⟨-, k, σ, h1, h2, -, hhold, hst⟩ := hh.sound s hs
    obtain ⟨a, π, j, -, -, -, -, -, hk⟩ := hhold
    exact ⟨σ, hst, k, hk, h1, hle k h2⟩
  refine exists_congr fun p => exists_congr fun σ => exists_congr fun b => exists_congr fun l => ?_
  refine and_congr_right fun hp => and_congr_right fun hl => and_congr_right fun hq =>
    and_congr_right fun h1 => and_congr_right fun h2 => ?_
  have hσ : σ <+: q.1.bytes := by
    have hok := ht.entry hp
    rw [hl] at hok
    rw [hq]
    cases hok with | leaf _ hk => exact hk
  -- the slot the cache answers with lies above the leaf
  have habove : ∀ {p' τ}, cache.Holds L m q.1 p' τ → τ <+: σ := by
    intro p' τ hhold
    obtain ⟨a, π, j, -, -, -, -, -, hτ⟩ := id hhold
    obtain hc | hc := List.prefix_or_prefix_of_prefix hσ hτ
    · obtain rfl | ⟨b', t, x, π', hl', -⟩ := ht.slot_cases hp hhold.slot hc
      · rw [hp.unique hhold.slot]
      · rw [hl] at hl'
        cases hl'
    · exact hc
  constructor
  · rintro ⟨s, hs, ρ, hρ, hpre, hclear⟩
    obtain ⟨-, k, ρ', -, -, -, hhold, hst⟩ := hh.sound s hs
    obtain rfl := hρ.slot.unique hst.slot
    have hhold' := hhold.of_key (hpre.trans hσ)
    obtain ⟨p', e, c, hlook⟩ := hhold'.lookup hr hc
    obtain ⟨rfl, τ, hτ, rfl, hmax⟩ := CacheMap.lookup_eq_some hr hc hlook
    obtain ⟨s', hs', rfl⟩ := hh.complete _ _ _ _ h1 h2 hlook
    have hστ := habove hτ
    have hρτ : ρ <+: τ := List.prefix_of_prefix_length_le hpre hστ (hmax _ _ hhold')
    obtain ⟨hfc, k', τ', -, -, -, -, hst'⟩ := hh.sound s' hs'
    obtain ⟨x, hx⟩ := Entry.addr?_ne_none hst'.full
    refine ⟨_, _, _, hlook, ?_⟩
    by_contra hback
    refine hclear s'.ePtr τ x hτ.slot hρτ hστ (by rw [hst'.entry, hx]) (.inr ⟨s', hs', ?_, ?_⟩)
    · rw [ScanContext.token, hx]
      rfl
    · exact fun hacc => hback (by rw [hst'.entry]; exact hacc hfc)
  · rintro ⟨p', e, c, hlook, hback⟩
    obtain ⟨rfl, τ, hτ, rfl, hmax⟩ := CacheMap.lookup_eq_some hr hc hlook
    obtain ⟨s, hs, rfl⟩ := hh.complete _ _ _ _ h1 h2 hlook
    obtain ⟨-, k, τ', -, -, -, -, hst⟩ := hh.sound s hs
    obtain rfl := hτ.slot.unique hst.slot
    refine ⟨s, hs, τ, hst, habove hτ, fun p' ρ a hp' h3 h4 ha hrej => ?_⟩
    obtain hT | ⟨s', hs', htok, hacc⟩ := hrej
    · exact hT rfl
    · -- a rejected context on the way is the one the cache answers with
      obtain ⟨-, k', ρ', -, -, -, hhold', hst'⟩ := hh.sound s' hs'
      obtain ⟨x, hx⟩ := Entry.addr?_ne_none hst'.full
      have hxa : x = a := by rw [← htok, ScanContext.token, hx]; rfl
      obtain ⟨rfl, rfl⟩ := ht.same_path hst'.slot hp' (by rw [hst'.entry, hx, hxa]) ha
      have hlen := hmax _ _ (hhold'.of_key (h4.trans hσ))
      obtain rfl : τ = ρ' := h3.eq_of_length_le hlen
      have hsame := ht.slot_unique hst'.slot hst.slot
      exact hacc fun _ => by rw [← hst'.entry, hsame, hback]

end answer

end SmartTree
