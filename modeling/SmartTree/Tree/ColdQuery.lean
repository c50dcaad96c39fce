import SmartTree.Tree.Answers

/-! A range query with an empty index cache is exact on a tree at rest unless a leaf of the range
hangs above the depth where the bounds of the range part, or a level has more blocks than the send
queues take. -/
namespace SmartTree
open Transition
variable {n : ℕ}

def Mem.Maps (m : Mem n) (k : Key n) (v : Value) : Prop :=
  ∃ σ b l, Spells m σ (.leaf b l) ∧ (m.leaf l).key = k ∧ (m.leaf l).value = v

namespace World
variable {ι : Type*} [DecidableEq ι] [Fintype ι] {crc : Key n → Value → UInt64} {s : World ι n}

/-- With an empty index cache, on every tree at rest, a range query returns the stored pairs of the
range if and only if its levels fit into the send queues and no leaf of the range hangs so high that
the bounds still agree in the byte below its slot. -/
theorem cold_query_exact_iff (h : (treeSystem ι crc).Reachable s) (hrest : s.AtRest)
    {fromKey toKey : Key n} (hlt : fromKey < toKey) (env : RangeEnv) {fuel : ℕ}
    (hfuel : 2 * n + 2 ≤ fuel) :
    (∃ ret, rangeQuery crc s.mem .none env CacheMap.empty.lookup fuel fromKey toKey = some ret ∧
      ∀ k v, retGet ret k = some v ↔ s.mem.Maps k v ∧ fromKey ≤ k ∧ k < toKey) ↔
    CacheMap.empty.LevelsFit env s.mem fromKey toKey ∧
      ∀ σ b l, Spells s.mem σ (.leaf b l) → fromKey ≤ (s.mem.leaf l).key →
        (s.mem.leaf l).key < toKey →
          ¬ (σ.length < n ∧ fromKey.pre (σ.length + 1) = (toKey.sub 1).pre (σ.length + 1)) := by
  have hr := resting_of_reachable h hrest
  have ht := hr.tree
  obtain ⟨ret, hret, hone, hget⟩ :=
    rangeQuery_map crc hr (CacheMap.empty_correct s.mem) hlt hfuel env
  have hcold : ¬ CacheMap.empty.Meets fromKey toKey := fun ⟨k, _, _, hk⟩ => hk (by simp)
  constructor
  · rintro ⟨ret', hret', hexact⟩
    obtain rfl := hone ret' hret'
    refine ⟨hret.mp hret', fun σ b l hs h1 h2 => ?_⟩
    obtain ⟨τ, b', l', hs', hk, -, -, -, -, hcov⟩ :=
      (hget _ _).mp ((hexact _ _).mpr ⟨⟨σ, b, l, hs, rfl, rfl⟩, h1, h2⟩)
    obtain ⟨rfl, -⟩ := ht.spells_unique hs hs' hk.symm
    exact hcov hcold
  · rintro ⟨hfit, hhang⟩
    refine ⟨ret, hret.mpr hfit, fun k v => ?_⟩
    rw [hget]
    constructor
    · rintro ⟨σ, b, l, hs, hk, hv, h1, h2, -⟩
      exact ⟨⟨σ, b, l, hs, hk, hv⟩, h1, h2⟩
    · rintro ⟨⟨σ, b, l, hs, rfl, rfl⟩, h1, h2⟩
      exact ⟨σ, b, l, hs, rfl, rfl, h1, h2, fun hc => absurd hc hcold, fun _ => hhang σ b l hs h1 h2⟩

def idleEnv (page : Page) : RangeEnv where
  toPlacement := .first
  rangeBuffer := 0
  old _ _ := page
  queues _ := .idle

open scoped Transition.Numbered

def twoKeys : List (Fin 1 × (Choice 2 ⊕ ℕ)) :=
  inserts 0 (.ofList [1, 2]) ++ inserts 0 (.ofList [1, 3])

/-- A range whose bounds part at the depth where its leaves hang. -/
theorem cold_query_exact_two : ∃ t, (treeSystem (Fin 1) fun _ _ => 0).run (empty (Fin 1) 2)
    (script (fun _ _ => 0) twoKeys (empty (Fin 1) 2)) = some t ∧
      rangeQuery (fun _ _ => 0) t.mem .none (idleEnv (t.mem.node 0)) CacheMap.empty.lookup 6
          (⟨[1, 2], rfl⟩ : Key 2) ⟨[1, 4], rfl⟩ = some [(⟨[1, 2], rfl⟩, 0), (⟨[1, 3], rfl⟩, 0)] ∧
        ((∃ ret, rangeQuery (fun _ _ => 0) t.mem .none (idleEnv (t.mem.node 0)) CacheMap.empty.lookup 6
            (⟨[1, 2], rfl⟩ : Key 2) ⟨[1, 4], rfl⟩ = some ret ∧
          ∀ k v, retGet ret k = some v ↔ t.mem.Maps k v ∧ (⟨[1, 2], rfl⟩ : Key 2) ≤ k ∧
            k < (⟨[1, 4], rfl⟩ : Key 2)) ↔
          CacheMap.empty.LevelsFit (idleEnv (t.mem.node 0)) t.mem (⟨[1, 2], rfl⟩ : Key 2)
              ⟨[1, 4], rfl⟩ ∧
            ∀ σ b l, Spells t.mem σ (.leaf b l) → (⟨[1, 2], rfl⟩ : Key 2) ≤ (t.mem.leaf l).key →
              (t.mem.leaf l).key < (⟨[1, 4], rfl⟩ : Key 2) →
                ¬ (σ.length < 2 ∧ (⟨[1, 2], rfl⟩ : Key 2).pre (σ.length + 1) =
                  ((⟨[1, 4], rfl⟩ : Key 2).sub 1).pre (σ.length + 1))) := by
  obtain ⟨t, ht, hrest, hq⟩ : (treeSystem (Fin 1) fun _ _ => 0).Ends (empty (Fin 1) 2)
      (script (fun _ _ => 0) twoKeys (empty (Fin 1) 2)) fun t => t.AtRest ∧
        rangeQuery (fun _ _ => 0) t.mem .none (idleEnv (t.mem.node 0)) CacheMap.empty.lookup 6
          (⟨[1, 2], rfl⟩ : Key 2) ⟨[1, 4], rfl⟩ =
            some [(⟨[1, 2], rfl⟩, 0), (⟨[1, 3], rfl⟩, 0)] := by decide +kernel
  exact ⟨t, ht, hq, cold_query_exact_iff (.run empty_reachable ht) hrest (by decide) _ (by decide)⟩

/-- With one place left in the send queue the level of the two leaves is waited for without end. -/
example : (treeSystem (Fin 1) fun _ _ => 0).Ends (empty (Fin 1) 2)
    (script (fun _ _ => 0) twoKeys (empty (Fin 1) 2)) fun t => rangeQuery (fun _ _ => 0) t.mem .none
      { idleEnv (t.mem.node 0) with queues := fun _ => ⟨kQPMaxDepth, fun _ => kQPMaxDepth - 1⟩ }
      CacheMap.empty.lookup 6 (⟨[1, 2], rfl⟩ : Key 2) ⟨[1, 4], rfl⟩ = none := by
  decide +kernel

/-- One leaf at the root: a query for its key alone returns nothing. -/
theorem cold_query_misses_key : ∃ t, (treeSystem (Fin 1) fun _ _ => 0).run (empty (Fin 1) 2)
    (script (fun _ _ => 0) (inserts 0 ⟨[1, 2], rfl⟩) (empty (Fin 1) 2)) = some t ∧ t.AtRest ∧
      ∃ ret, rangeQuery (fun _ _ => 0) t.mem .none (idleEnv (t.mem.node 0)) CacheMap.empty.lookup 6
          (⟨[1, 2], rfl⟩ : Key 2) ⟨[1, 3], rfl⟩ = some ret ∧
        ¬ ∀ k v, retGet ret k = some v ↔ t.mem.Maps k v ∧ (⟨[1, 2], rfl⟩ : Key 2) ≤ k ∧
          k < (⟨[1, 3], rfl⟩ : Key 2) := by
  obtain ⟨t, ht, hrest, hroot, ⟨hk, hv⟩, hq⟩ : (treeSystem (Fin 1) fun _ _ => 0).Ends
      (empty (Fin 1) 2) (script (fun _ _ => 0) (inserts 0 ⟨[1, 2], rfl⟩) (empty (Fin 1) 2)) fun t =>
        t.AtRest ∧ t.mem.root = .leaf 0 0 ∧
        ((t.mem.leaf 0).key = ⟨[1, 2], rfl⟩ ∧ (t.mem.leaf 0).value = 0) ∧
        rangeQuery (fun _ _ => 0) t.mem .none (idleEnv (t.mem.node 0)) CacheMap.empty.lookup 6
          (⟨[1, 2], rfl⟩ : Key 2) ⟨[1, 3], rfl⟩ = some [] := by decide +kernel
  refine ⟨t, ht, hrest, [], hq, fun hexact => ?_⟩
  have hmaps : t.mem.Maps ⟨[1, 2], rfl⟩ 0 := ⟨[], 0, 0, hroot ▸ .root, hk, hv⟩
  have := (hexact _ _).mpr ⟨hmaps, by decide, by decide⟩
  cases this

end World
end SmartTree
