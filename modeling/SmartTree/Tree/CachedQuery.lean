import SmartTree.Tree.ColdQuery

/-! A range query depends on what is cached: on a tree at rest two index caches of current copies
give the same answer iff the levels fit with both and every stored key of the range is found with
both or with neither. -/
namespace SmartTree
open Transition
variable {n : ℕ}

namespace World
variable {ι : Type*} [DecidableEq ι] [Fintype ι] {crc : Key n → Value → UInt64} {s : World ι n}

/-- With any two index caches of current copies both queries return and return the same map iff the
levels of both fit into the send queues and the stored keys of the range that one cache covers are
those the other covers. -/
theorem cached_queries_agree_iff (h : (treeSystem ι crc).Reachable s) (hrest : s.AtRest)
    {fromKey toKey : Key n} (hlt : fromKey < toKey) {cache cache' : CacheMap}
    (hc : cache.Correct s.mem) (hc' : cache'.Correct s.mem) (env env' : RangeEnv) {fuel : ℕ}
    (hfuel : 2 * n + 2 ≤ fuel) :
    (∃ ret ret', rangeQuery crc s.mem .none env cache.lookup fuel fromKey toKey = some ret ∧
      rangeQuery crc s.mem .none env' cache'.lookup fuel fromKey toKey = some ret' ∧
      ∀ k, retGet ret k = retGet ret' k) ↔
    cache.LevelsFit env s.mem fromKey toKey ∧ cache'.LevelsFit env' s.mem fromKey toKey ∧
      ∀ σ b l, Spells s.mem σ (.leaf b l) → fromKey ≤ (s.mem.leaf l).key →
        (s.mem.leaf l).key < toKey →
          (cache.Covers s.mem fromKey toKey (s.mem.leaf l).key σ.length ↔
            cache'.Covers s.mem fromKey toKey (s.mem.leaf l).key σ.length) := by
  have hr := resting_of_reachable h hrest
  obtain ⟨ret, hret, honly, hget⟩ := rangeQuery_map crc hr hc hlt hfuel env
  obtain ⟨ret', hret', honly', hget'⟩ := rangeQuery_map crc hr hc' hlt hfuel env'
  have hone : ∀ {cache : CacheMap} {ret σ b l}, (∀ k v, retGet ret k = some v ↔ ∃ σ b l,
      Spells s.mem σ (.leaf b l) ∧ (s.mem.leaf l).key = k ∧ (s.mem.leaf l).value = v ∧ fromKey ≤ k ∧
        k < toKey ∧ cache.Covers s.mem fromKey toKey k σ.length) → Spells s.mem σ (.leaf b l) →
      fromKey ≤ (s.mem.leaf l).key → (s.mem.leaf l).key < toKey →
      (retGet ret (s.mem.leaf l).key = some (s.mem.leaf l).value ↔
        cache.Covers s.mem fromKey toKey (s.mem.leaf l).key σ.length) := by
    intro cache ret σ b l hget hs h1 h2
    rw [hget]
    constructor
    · rintro ⟨τ, b', l', hs', hk, -, -, -, hcov⟩
      obtain ⟨rfl, -⟩ := hr.tree.spells_unique hs hs' hk.symm
      exact hcov
    · exact fun hcov => ⟨σ, b, l, hs, rfl, rfl, h1, h2, hcov⟩
  constructor
  · rintro ⟨r, r', hq, hq', hsame⟩
    obtain rfl := honly r hq
    obtain rfl := honly' r' hq'
    refine ⟨hret.mp hq, hret'.mp hq', fun σ b l hs h1 h2 => ?_⟩
    rw [← hone hget hs h1 h2, ← hone hget' hs h1 h2, hsame]
  · rintro ⟨hfit, hfit', hcov⟩
    refine ⟨ret, ret', hret.mpr hfit, hret'.mpr hfit', fun k => Option.ext fun v => ?_⟩
    rw [hget, hget']
    refine exists_congr fun σ => exists_congr fun b => exists_congr fun l => ?_
    refine and_congr_right fun hs => and_congr_right fun hk => and_congr_right fun _ =>
      and_congr_right fun h1 => and_congr_right fun h2 => ?_
    rw [← hk] at h1 h2 ⊢
    exact hcov σ b l hs h1 h2

open scoped Transition.Numbered

def fourKeys : List (Fin 1 × (Choice 2 ⊕ ℕ)) :=
  let key (a b : UInt8) : Key 2 := .ofList [a, b]
  [key 0 254, key 0 255, key 1 0, key 1 1].flatMap (inserts 0)

def copies (m : Mem n) (nodes : List (List UInt8 × Addr)) : CacheMap :=
  fun w => (nodes.lookup w).map fun a => .ofPage (m.node a) a

structure FourKeys (m : Mem 2) : Prop where
  root : m.root = .node 0 .node4 4
  hdr : (m.node 4).hdr = ⟨1, .node4, []⟩ ∧ (m.node 2).hdr = ⟨2, .node4, []⟩ ∧
    (m.node 6).hdr = ⟨2, .node4, []⟩
  left : (m.node 4).slots 0 = .node 0 .node4 2
  right : (m.node 4).slots 1 = .node 1 .node4 6

instance (m : Mem 2) : Decidable (FourKeys m) :=
  decidable_of_iff (m.root = .node 0 .node4 4 ∧
    ((m.node 4).hdr = ⟨1, .node4, []⟩ ∧ (m.node 2).hdr = ⟨2, .node4, []⟩ ∧
      (m.node 6).hdr = ⟨2, .node4, []⟩) ∧
    (m.node 4).slots 0 = .node 0 .node4 2 ∧ (m.node 4).slots 1 = .node 1 .node4 6)
    ⟨fun ⟨h1, h2, h3, h4⟩ => ⟨h1, h2, h3, h4⟩, fun h => ⟨h.root, h.hdr, h.left, h.right⟩⟩

theorem FourKeys.correct {m : Mem 2} (h : FourKeys m) {nodes : List (List UInt8 × Addr)}
    (hn : nodes ⊆ [([0], 2), ([1], 6)]) : (copies m nodes).Correct m := by
  intro w e he
  obtain ⟨a, ha, rfl⟩ := Option.map_eq_some_iff.mp he
  obtain ⟨l₁, l₂, hl, -⟩ := List.lookup_eq_some_iff.mp ha
  have hmem : (w, a) ∈ [([0], 2), ([1], 6)] := hn (by simp [hl])
  have hroot : Spells m [] (.node 0 .node4 4) := h.root ▸ .root
  obtain ⟨hd4, hd2, hd6⟩ := h.hdr
  obtain hw | hw : (w, a) = ([0], 2) ∨ (w, a) = ([1], 6) := by simpa using hmem
  · cases hw
    have hs := Spells.child hroot (i := 0) (by decide) (by rw [h.left]; decide)
    rw [h.left, hd4] at hs
    exact ⟨[0], 0, .node4, 2, hs, rfl, by rw [hd2]; rfl⟩
  · cases hw
    have hs := Spells.child hroot (i := 1) (by decide) (by rw [h.right]; decide)
    rw [h.right, hd4] at hs
    exact ⟨[1], 1, .node4, 6, hs, rfl, by rw [hd6]; rfl⟩

/-- With both nodes cached all four keys are found. -/
theorem whole_cache_agrees : ∃ t, (treeSystem (Fin 1) fun _ _ => 0).run (empty (Fin 1) 2)
    (script (fun _ _ => 0) fourKeys (empty (Fin 1) 2)) = some t ∧
      (rangeQuery (fun _ _ => 0) t.mem .none (idleEnv (t.mem.node 0))
          (copies t.mem [([0], 2), ([1], 6)]).lookup 6 (⟨[0, 254], rfl⟩ : Key 2)
            ⟨[1, 2], rfl⟩).map List.length = some 4 ∧
      ((∃ ret ret', rangeQuery (fun _ _ => 0) t.mem .none (idleEnv (t.mem.node 0))
          (copies t.mem [([0], 2), ([1], 6)]).lookup 6 (⟨[0, 254], rfl⟩ : Key 2) ⟨[1, 2], rfl⟩ =
            some ret ∧
        rangeQuery (fun _ _ => 0) t.mem .none (idleEnv (t.mem.node 0)) CacheMap.empty.lookup 6
          (⟨[0, 254], rfl⟩ : Key 2) ⟨[1, 2], rfl⟩ = some ret' ∧
        ∀ k, retGet ret k = retGet ret' k) ↔
      (copies t.mem [([0], 2), ([1], 6)]).LevelsFit (idleEnv (t.mem.node 0)) t.mem
          (⟨[0, 254], rfl⟩ : Key 2) ⟨[1, 2], rfl⟩ ∧
        CacheMap.empty.LevelsFit (idleEnv (t.mem.node 0)) t.mem (⟨[0, 254], rfl⟩ : Key 2)
          ⟨[1, 2], rfl⟩ ∧
        ∀ σ b l, Spells t.mem σ (.leaf b l) → (⟨[0, 254], rfl⟩ : Key 2) ≤ (t.mem.leaf l).key →
          (t.mem.leaf l).key < (⟨[1, 2], rfl⟩ : Key 2) →
            ((copies t.mem [([0], 2), ([1], 6)]).Covers t.mem ⟨[0, 254], rfl⟩ ⟨[1, 2], rfl⟩
              (t.mem.leaf l).key σ.length ↔
            CacheMap.empty.Covers t.mem ⟨[0, 254], rfl⟩ ⟨[1, 2], rfl⟩ (t.mem.leaf l).key
              σ.length)) := by
  obtain ⟨t, ht, hrest, hfour, hq⟩ : (treeSystem (Fin 1) fun _ _ => 0).Ends (empty (Fin 1) 2)
      (script (fun _ _ => 0) fourKeys (empty (Fin 1) 2)) fun t => t.AtRest ∧ FourKeys t.mem ∧
        (rangeQuery (fun _ _ => 0) t.mem .none (idleEnv (t.mem.node 0))
          (copies t.mem [([0], 2), ([1], 6)]).lookup 6 (⟨[0, 254], rfl⟩ : Key 2)
            ⟨[1, 2], rfl⟩).map List.length = some 4 := by decide +kernel
  exact ⟨t, ht, hq, cached_queries_agree_iff (.run empty_reachable ht) hrest (by decide)
    (hfour.correct (List.Subset.refl [([0], 2), ([1], 6)])) (CacheMap.empty_correct t.mem) _ _
    (by decide)⟩

/-- With only one of the two nodes cached the keys below the other are not looked for. -/
theorem half_cache_loses_keys : ∃ t, (treeSystem (Fin 1) fun _ _ => 0).run (empty (Fin 1) 2)
    (script (fun _ _ => 0) fourKeys (empty (Fin 1) 2)) = some t ∧ t.AtRest ∧
      (copies t.mem [([0], 2)]).Correct t.mem ∧
      (copies t.mem [([0], 2), ([1], 6)]).Correct t.mem ∧
      ∃ ret ret', rangeQuery (fun _ _ => 0) t.mem .none (idleEnv (t.mem.node 0))
          (copies t.mem [([0], 2)]).lookup 6 (⟨[0, 254], rfl⟩ : Key 2) ⟨[1, 2], rfl⟩ = some ret ∧
        rangeQuery (fun _ _ => 0) t.mem .none (idleEnv (t.mem.node 0))
          (copies t.mem [([0], 2), ([1], 6)]).lookup 6 (⟨[0, 254], rfl⟩ : Key 2) ⟨[1, 2], rfl⟩ =
            some ret' ∧
        ¬ ∀ k, retGet ret k = retGet ret' k := by
  obtain ⟨t, ht, hrest, hfour, hq, hq'⟩ : (treeSystem (Fin 1) fun _ _ => 0).Ends (empty (Fin 1) 2)
      (script (fun _ _ => 0) fourKeys (empty (Fin 1) 2)) fun t => t.AtRest ∧ FourKeys t.mem ∧
        rangeQuery (fun _ _ => 0) t.mem .none (idleEnv (t.mem.node 0))
          (copies t.mem [([0], 2)]).lookup 6 (⟨[0, 254], rfl⟩ : Key 2) ⟨[1, 2], rfl⟩ =
            some [(⟨[0, 254], rfl⟩, 0), (⟨[0, 255], rfl⟩, 0)] ∧
        rangeQuery (fun _ _ => 0) t.mem .none (idleEnv (t.mem.node 0))
          (copies t.mem [([0], 2), ([1], 6)]).lookup 6 (⟨[0, 254], rfl⟩ : Key 2) ⟨[1, 2], rfl⟩ =
            some [(⟨[0, 254], rfl⟩, 0), (⟨[0, 255], rfl⟩, 0), (⟨[1, 0], rfl⟩, 0),
              (⟨[1, 1], rfl⟩, 0)] := by decide +kernel
  refine ⟨t, ht, hrest, hfour.correct (by simp), hfour.correct (List.Subset.refl _), _, _, hq, hq',
    fun hsame => ?_⟩
  have := hsame ⟨[1, 0], rfl⟩
  exact absurd this (by decide)

end World
end SmartTree
