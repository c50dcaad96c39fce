import Mathlib.Algebra.BigOperators.Group.Finset.Basic
import SmartTree.LocalCacheLists

/-! The counters stay within their bounds, the lists are in order of use, and what an operation drops
is the least recently used node of its list. -/
namespace SmartTree.LocalCache
variable {κ ν : Type*} [DecidableEq κ]

/-- The lists are within the table, and their nodes within the capacity. -/
structure Rep (c : Cache κ ν) : Prop extends Lists c where
  outside : ∀ b, c.capacity ≤ b → c.buckets b = []
  total : c.curSize = ∑ b ∈ Finset.range c.capacity, (c.buckets b).length
  bound : c.curSize ≤ c.capacity

def touched (hash : κ → ℕ → ℕ) (c : Cache κ ν) : Op κ ν → Option (ℕ × κ)
  | .insert _ key _ =>
    (selectBucket c (getCandidateBuckets hash c.capacity key)).bind fun index =>
      if (c.buckets index).any (fun n => n.key = key) then some (index, key)
      else if c.capacity ≤ c.curSize then none else some (index, key)
  | .query _ key =>
    ((getCandidateBuckets hash c.capacity key).find? fun index =>
      (c.buckets index).any fun n => n.key = key).map fun index => (index, key)

section step
variable {hash : κ → ℕ → ℕ} {c c' : Cache κ ν} {index : ℕ} {key : κ}

omit [DecidableEq κ] in
theorem lt_capacity_of_mem {capacity : ℕ} (hcap : 1 ≤ capacity)
    (h : index ∈ getCandidateBuckets hash capacity key) : index < capacity := by
  obtain ⟨i, -, rfl⟩ := List.mem_map.mp h
  exact Nat.mod_lt _ hcap

/-- Every operation goes through; it touches nothing, or a list within the table. -/
theorem exec_cases (h : Rep c) (hcap : 1 ≤ c.capacity) (op : Op κ ν) :
    ∃ c', exec hash c op = some c' ∧ (Same c c' ∧ touched hash c op = none ∨
      ∃ index m rest, index < c.capacity ∧ touched hash c op = some (index, m.key) ∧
        Moved c c' index m rest) := by
  cases op with
  | query now key =>
    refine ⟨_, rfl, ?_⟩
    obtain ⟨hs, -, hf⟩ | ⟨index, hi, hf, -, -, -, -, m, rest, rfl, -, hm⟩ :=
      queryFrom_cases h.toLists now key (getCandidateBuckets hash c.capacity key)
    · exact .inl ⟨hs, by rw [touched, hf]; rfl⟩
    · exact .inr ⟨index, m, rest, lt_capacity_of_mem hcap hi, by rw [touched, hf]; rfl, hm⟩
  | insert now key value =>
    obtain ⟨index, hi, hsel, -, -⟩ := h.toLists.selectBucket_eq_some hash key
    refine ⟨(insertAt now c index key value).1, by rw [exec, insert, hsel]; rfl, ?_⟩
    obtain ⟨hs, hfull, hno⟩ | ⟨hroom, m, rest, rfl, -, hm⟩ := insertAt_cases h.toLists now index key value
    · have hany : (c.buckets index).any (fun n => n.key = key) = false := by simpa using hno
      refine .inl ⟨hs, ?_⟩
      simp only [touched, hsel, Option.bind_some, hany, Bool.false_eq_true, if_false, if_pos hfull]
    · refine .inr ⟨index, m, rest, lt_capacity_of_mem hcap hi, ?_, hm⟩
      simp only [touched, hsel, Option.bind_some]
      split
      · rfl
      · rename_i hno
        rw [if_neg fun hfull => hno (by simpa using hroom hfull)]

omit [DecidableEq κ] in
theorem Same.rep (hs : Same c c') (h : Rep c) : Rep c' where
  toLists := hs.lists h.toLists
  outside b hb := by rw [hs.buckets]; exact h.outside b (hs.capacity ▸ hb)
  total := by rw [hs.size, hs.capacity, hs.buckets, h.total]
  bound := by rw [hs.size, hs.capacity]; exact h.bound

omit [DecidableEq κ] in
theorem Moved.rep {m : Node κ ν} {rest : List (Node κ ν)} (hm : Moved c c' index m rest)
    (hidx : index < c.capacity) (h : Rep c) : Rep c' where
  toLists := hm.lists h.toLists
  outside b hb := by
    rw [hm.capacity] at hb
    rw [hm.buckets, Function.update_of_ne (by omega), h.outside b hb]
  total := by
    have hmem : index ∈ Finset.range c.capacity := Finset.mem_range.mpr hidx
    have hrest : ∑ b ∈ (Finset.range c.capacity).erase index, (c'.buckets b).length =
        ∑ b ∈ (Finset.range c.capacity).erase index, (c.buckets b).length := by
      refine Finset.sum_congr rfl fun b hb => ?_
      rw [hm.buckets, Function.update_of_ne (Finset.ne_of_mem_erase hb)]
    have hnew := Finset.add_sum_erase _ (fun b => (c'.buckets b).length) hmem
    have hold := Finset.add_sum_erase _ (fun b => (c.buckets b).length) hmem
    have hsize := hm.size
    have hhead : (c'.buckets index).length = rest.length + 1 := by
      rw [hm.buckets, Function.update_self, List.length_cons]
    rw [hm.capacity, ← hnew, hrest]
    rw [h.total, ← hold] at hsize
    simp only [hhead]
    omega
  bound := by rw [hm.capacity]; exact hm.bound.trans (max_le h.bound le_rfl)

end step

/-- The cache together with the number of operations so far and, for each list and key, the last
operation that inserted, updated or hit the key there. -/
structure Timed (κ ν : Type*) where
  cache : Cache κ ν
  clock : ℕ
  used : ℕ → κ → ℕ

namespace Timed

def new (capacity : ℕ) : Timed κ ν := ⟨LocalCache.new capacity, 0, fun _ _ => 0⟩

def exec (hash : κ → ℕ → ℕ) (t : Timed κ ν) (op : Op κ ν) : Option (Timed κ ν) :=
  (LocalCache.exec hash t.cache op).map fun c =>
    ⟨c, t.clock + 1, match touched hash t.cache op with
      | none => t.used
      | some (index, key) =>
        Function.update t.used index (Function.update (t.used index) key (t.clock + 1))⟩

def run (hash : κ → ℕ → ℕ) : Timed κ ν → List (Op κ ν) → Option (Timed κ ν)
  | t, [] => some t
  | t, op :: ops => (t.exec hash op).bind fun t' => run hash t' ops

theorem run_cache (hash : κ → ℕ → ℕ) (t : Timed κ ν) (ops : List (Op κ ν)) :
    (t.run hash ops).map cache = runOps hash t.cache ops := by
  induction ops generalizing t with
  | nil => rfl
  | cons op ops ih =>
    rw [run, runOps, exec]
    cases LocalCache.exec hash t.cache op with
    | none => rfl
    | some c => exact ih _

structure Ordered (t : Timed κ ν) : Prop where
  past : ∀ b key, t.used b key ≤ t.clock
  sorted : ∀ b, (t.cache.buckets b).Pairwise fun n m => t.used b m.key < t.used b n.key

/-- A node whose key is gone from its list was used before every other node the list had or
has. -/
def EvictsLeastRecent (t t' : Timed κ ν) : Prop :=
  ∀ b, ∀ n ∈ t.cache.buckets b, (∀ m ∈ t'.cache.buckets b, m.key ≠ n.key) →
    ∀ m, m ∈ t.cache.buckets b ∨ m ∈ t'.cache.buckets b → m.key ≠ n.key →
      t'.used b n.key < t'.used b m.key

variable {hash : κ → ℕ → ℕ} {t : Timed κ ν}

section moved
variable {c' : Cache κ ν} {used : ℕ → κ → ℕ} {index : ℕ} {m : Node κ ν} {rest : List (Node κ ν)}
  (h : t.Ordered) (hm : Moved t.cache c' index m rest) (hnow : used index m.key = t.clock + 1)
  (hkept : ∀ k, k ≠ m.key → used index k = t.used index k)
  (hother : ∀ b, b ≠ index → used b = t.used b)
include h hm hnow hkept hother

theorem ordered_moved : Ordered ⟨c', t.clock + 1, used⟩ where
  past b key := by
    have hpast := h.past b key
    change used b key ≤ t.clock + 1
    by_cases hb : b = index
    · subst hb
      by_cases hk : key = m.key
      · rw [hk, hnow]
      · rw [hkept key hk]
        exact hpast.trans (Nat.le_succ _)
    · rw [hother b hb]
      exact hpast.trans (Nat.le_succ _)
  sorted b := by
    by_cases hb : b = index
    · subst hb
      simp only [hm.buckets, Function.update_self, List.pairwise_cons]
      refine ⟨fun n hn => ?_, ((h.sorted b).sublist hm.kept).imp_of_mem fun hx hy hlt => ?_⟩
      · rw [hnow, hkept _ (hm.away n hn)]
        exact Nat.lt_succ_of_le (h.past b n.key)
      · rwa [hkept _ (hm.away _ hx), hkept _ (hm.away _ hy)]
    · simpa only [hm.buckets, Function.update_of_ne hb, hother b hb] using h.sorted b

omit [DecidableEq κ] in
theorem evictsLeastRecent_moved : EvictsLeastRecent t ⟨c', t.clock + 1, used⟩ := by
  intro b n hn hgone m' hm' hne
  by_cases hb : b = index
  · subst hb
    have hfront : c'.buckets b = m :: rest := by rw [hm.buckets, Function.update_self]
    have hnm : n.key ≠ m.key := fun he => hgone m (by simp [hfront]) he.symm
    have hout : n ∉ rest := fun hin => hgone n (by simp [hfront, hin]) rfl
    have hlist := hm.lost n hn hnm hout
    have hsorted := h.sorted b
    rw [hlist, List.pairwise_append] at hsorted
    have hmem : m' = m ∨ m' ∈ rest := by
      obtain hold | hnew := hm'
      · rw [hlist, List.mem_append, List.mem_singleton] at hold
        exact .inr (hold.resolve_right fun he => hne (by rw [he]))
      · simpa [hfront] using hnew
    change used b n.key < used b m'.key
    rw [hkept _ hnm]
    obtain rfl | hin := hmem
    · rw [hnow]
      exact Nat.lt_succ_of_le (h.past b n.key)
    · rw [hkept _ (hm.away m' hin)]
      exact hsorted.2.2 m' hin n (by simp)
  · have hsame : c'.buckets b = t.cache.buckets b := by rw [hm.buckets, Function.update_of_ne hb]
    exact absurd rfl (hgone n (hsame ▸ hn))

end moved

/-- One operation: it goes through, keeps the counters and the order, and drops only the least
recently used node. -/
theorem exec_ordered (h : t.Ordered) (hr : Rep t.cache) (hcap : 1 ≤ t.cache.capacity)
    (op : Op κ ν) : ∃ t', t.exec hash op = some t' ∧ Rep t'.cache ∧ t'.Ordered ∧
      t'.cache.capacity = t.cache.capacity ∧ EvictsLeastRecent t t' := by
  have hcases : ∃ c', LocalCache.exec hash t.cache op = some c' ∧ _ := exec_cases hr hcap op
  obtain ⟨c', hc, ⟨hs, ht⟩ | ⟨index, m, rest, hidx, ht, hm⟩⟩ := hcases
  · refine ⟨_, by rw [exec, hc]; rfl, hs.rep hr, ⟨fun b key => ?_, fun b => ?_⟩, hs.capacity, ?_⟩
    · simpa [ht] using (h.past b key).trans (Nat.le_succ _)
    · simpa [ht, hs.buckets] using h.sorted b
    · intro b n hn hgone
      exact absurd rfl (hgone n (hs.buckets ▸ hn))
  · have hexec : t.exec hash op = some ⟨c', t.clock + 1, Function.update t.used index
        (Function.update (t.used index) m.key (t.clock + 1))⟩ := by
      simp only [exec, hc, ht, Option.map_some]
    have hnow : Function.update t.used index (Function.update (t.used index) m.key (t.clock + 1))
        index m.key = t.clock + 1 := by simp
    have hkept : ∀ k, k ≠ m.key → Function.update t.used index
        (Function.update (t.used index) m.key (t.clock + 1)) index k = t.used index k :=
      fun k hk => by rw [Function.update_self, Function.update_of_ne hk]
    have hother : ∀ b, b ≠ index → Function.update t.used index
        (Function.update (t.used index) m.key (t.clock + 1)) b = t.used b :=
      fun b hb => Function.update_of_ne hb _ _
    exact ⟨_, hexec, hm.rep hidx hr, ordered_moved h hm hnow hkept hother, hm.capacity,
      evictsLeastRecent_moved h hm hnow hkept hother⟩

omit [DecidableEq κ] in
theorem rep_new (capacity : ℕ) : Rep (LocalCache.new capacity : Cache κ ν) where
  toLists := lists_new capacity
  outside _ _ := rfl
  total := by simp [LocalCache.new]
  bound := Nat.zero_le _

omit [DecidableEq κ] in
theorem ordered_new (capacity : ℕ) : (new capacity : Timed κ ν).Ordered :=
  ⟨fun _ _ => le_rfl, fun _ => List.Pairwise.nil⟩

theorem run_ordered (h : t.Ordered) (hr : Rep t.cache) (hcap : 1 ≤ t.cache.capacity)
    (ops : List (Op κ ν)) : ∃ t', t.run hash ops = some t' ∧ Rep t'.cache ∧ t'.Ordered ∧
      t'.cache.capacity = t.cache.capacity := by
  induction ops generalizing t with
  | nil => exact ⟨t, rfl, hr, h, rfl⟩
  | cons op ops ih =>
    have hstep : ∃ t', t.exec hash op = some t' ∧ _ := exec_ordered h hr hcap op
    obtain ⟨t₁, he, hr₁, h₁, hcap₁, -⟩ := hstep
    obtain ⟨t₂, hrun, hr₂, h₂, hcap₂⟩ := ih h₁ hr₁ (hcap₁ ▸ hcap)
    exact ⟨t₂, by rw [run, he]; exact hrun, hr₂, h₂, hcap₂.trans hcap₁⟩

end Timed

/-- After every sequence of operations the counters are the lengths of the lists and within their
bounds, the lists are in order of use, the next insert finds a list within the limit, and what the
next operation drops is the least recently used node of its list. -/
theorem representation_invariant (hash : κ → ℕ → ℕ) (capacity : ℕ) (hcap : 1 ≤ capacity)
    (ops : List (Op κ ν)) :
    ∃ t : Timed κ ν, (Timed.new capacity).run hash ops = some t ∧
      runOps hash (new capacity) ops = some t.cache ∧
      (∀ b, t.cache.bucketElements b = (t.cache.buckets b).length ∧
        t.cache.bucketElements b ≤ bucketElementsLimit) ∧
      (t.cache.curSize = ∑ b ∈ Finset.range capacity, (t.cache.buckets b).length ∧
        t.cache.curSize ≤ capacity) ∧
      (∀ b, (t.cache.buckets b).Pairwise fun n m => t.used b m.key < t.used b n.key) ∧
      (∀ key, ∃ index ∈ getCandidateBuckets hash capacity key,
        selectBucket t.cache (getCandidateBuckets hash capacity key) = some index ∧
          t.cache.bucketElements index ≤ bucketElementsLimit) ∧
      ∀ op, ∃ t', t.exec hash op = some t' ∧ t.EvictsLeastRecent t' := by
  have hrun : ∃ t', (Timed.new capacity : Timed κ ν).run hash ops = some t' ∧ _ :=
    Timed.run_ordered (Timed.ordered_new capacity) (Timed.rep_new capacity) hcap ops
  obtain ⟨t, ht, hr, ho, hc⟩ := hrun
  have hc : t.cache.capacity = capacity := hc
  have hcache := Timed.run_cache hash (Timed.new capacity) ops
  rw [ht] at hcache
  refine ⟨t, ht, hcache.symm, fun b => ⟨hr.elements b, ?_⟩, ⟨hc ▸ hr.total, hc ▸ hr.bound⟩, ho.sorted,
    fun key => ?_, fun op => ?_⟩
  · rw [hr.elements]
    exact hr.limit b
  · obtain ⟨index, hi, hsel, -, hle⟩ := hr.toLists.selectBucket_eq_some hash key
    rw [hc] at hi hsel
    exact ⟨index, hi, hsel, hle⟩
  · obtain ⟨t', he, -, -, -, hev⟩ := Timed.exec_ordered ho hr (hc ▸ hcap) op
    exact ⟨t', he, hev⟩

/-- Three keys that share one list of a table of four. -/
theorem three_keys_in_order : ∃ t : Timed ℕ ℕ,
    (Timed.new 4).run (fun _ _ => 0) [.insert 0 1 10, .insert 0 2 20, .query 0 1, .insert 0 3 30] =
      some t ∧
    ∀ b, (t.cache.buckets b).Pairwise fun n m => t.used b m.key < t.used b n.key := by
  obtain ⟨t, ht, -, -, -, hsorted, -⟩ := representation_invariant (κ := ℕ) (ν := ℕ) (fun _ _ => 0) 4
    (by decide) [.insert 0 1 10, .insert 0 2 20, .query 0 1, .insert 0 3 30]
  exact ⟨t, ht, hsorted⟩

end SmartTree.LocalCache
