import SmartTree.Lib.Transition
import SmartTree.Key
import SmartTree.LocalCacheLastWrite
import SmartTree.Tree.MapCalls

/-! The request path with the local cache in front of the tree. The tree enters by what
its sequential calls do: an insert associates the value with the key, and a search
overwrites the caller's value only when it finds the key. -/
namespace SmartTree.WorkFunc
open LocalCache
variable {n : ℕ} {ν : Type*}

/-- `inserted` lists what the tree was given, the latest first; `scan` is the loop of a
range request on its way, with the next key and the bound. -/
structure Store (n : ℕ) (ν : Type*) where
  inserted : List (Key n × ν)
  cache : Cache (Key n) ν
  scan : Option (Key n × Key n)

def Store.new (n capacity : ℕ) (ν : Type*) : Store n ν := ⟨[], LocalCache.new capacity, none⟩

/-- What a lookup finds outside the store: the clock at its two cache calls and the
contents of the uninitialised `Value v`. -/
structure Surroundings (ν : Type*) where
  queryAt : Int
  insertAt : Int
  untouched : ν

/-- `Tree::search` by its result; it asserts that the root is not Null. -/
def treeSearch (inserted : List (Key n × ν)) (k : Key n) (v : ν) : Option (Bool × ν) :=
  if inserted.isEmpty then none
  else match inserted.lookup k with
    | some v' => some (true, v')
    | none => some (false, v)

section tree
open Transition MapMachine
variable {crc : Key n → Value → UInt64} {xs : List (Key n × Value)} {k : Key n}
  {p : Session n × List (MapEvent (Key n) Value)}

/-- What a client of the tree sees: a search after these inserts returns what `treeSearch` says. -/
theorem treeSearch_of_ret (h : ((sessionSystem n crc).logged Session.mapEvent).Reachable p)
    (hxs : xs ≠ []) {found : Option Value}
    (hp : p.2 = .ret found :: .call (.search k) :: insertEvents xs) (v : Value) :
    treeSearch xs k v = some (found.isSome, found.getD v) := by
  obtain ⟨_, x, rfl, hr, -⟩ := Session.refines_map.shown h
  rw [hp] at hr
  have hfound : found = xs.lookup k := (run_ret hr).1
  unfold treeSearch
  rw [if_neg (by simpa using hxs), ← hfound]
  cases found <;> rfl

theorem treeSearch_of_noTree (h : ((sessionSystem n crc).logged Session.mapEvent).Reachable p)
    (hp : p.2 = .call (.search k) :: insertEvents xs) (hpc : p.1.client.pc = .noTree) (v : Value) :
    treeSearch xs k v = none := by
  obtain ⟨_, x, rfl, hr, -, hm⟩ := Session.refines_map.shown h
  rw [hp, run_call] at hr
  cases hr
  have hnone := hm.replies
  simp only [Client.Replies, hpc] at hnone
  cases xs with
  | nil => rfl
  | cons y ys =>
    have := hnone.2 y.1
    simp at this

end tree

/-- Query the cache, and on a miss search the tree and fill the cache. -/
def lookup (hash : Key n → ℕ → ℕ) (s : Store n ν) (k : Key n) (e : Surroundings ν) :
    Option (ν × Store n ν) :=
  match query hash e.queryAt s.cache k with
  | (some v, c) => some (v, { s with cache := c })
  | (none, c) =>
    (treeSearch s.inserted k e.untouched).bind fun r =>
      (LocalCache.insert hash e.insertAt c k r.2).map fun c' => (r.2, { s with cache := c'.1 })

inductive Request (n : ℕ) (ν : Type*) where
  | search (k : Key n) (e : Surroundings ν)
  | insert (k : Key n) (v : ν)
  | update (k : Key n) (v : ν) (now : Int)
  | rangeQuery (k : Key n) (rangeSize : ℕ)
  | scanNext (e : Surroundings ν)

/-- `work_func`; a range request is a loop of lookups, one of them a step. -/
def workFunc (hash : Key n → ℕ → ℕ) (s : Store n ν) : Request n ν → Option (Store n ν)
  | .search k e => if s.scan.isSome then none else (lookup hash s k e).map Prod.snd
  | .insert k v => if s.scan.isSome then none else some { s with inserted := (k, v) :: s.inserted }
  | .update k v now =>
    if s.scan.isSome then none
    else (LocalCache.insert hash now s.cache k v).map fun c =>
      { s with inserted := (k, v) :: s.inserted, cache := c.1 }
  | .rangeQuery k rangeSize =>
    if s.scan.isSome then none else some { s with scan := some (k, k.add (UInt8.ofNat rangeSize)) }
  | .scanNext e =>
    match s.scan with
    | none => none
    | some (k, last) =>
      if k < last then
        (lookup hash s k e).map fun r => { r.2 with scan := some (k.add 1, last) }
      else some { s with scan := none }

def system (hash : Key n → ℕ → ℕ) (capacity : ℕ) :
    Transition.System (Store n ν) (Request n ν) where
  init s := s = Store.new n capacity ν
  next := workFunc hash

/-- Every cached pair, and every value the cache answers with, was once in the tree. -/
def NoPhantom (hash : Key n → ℕ → ℕ) (s : Store n ν) : Prop :=
  (∀ b, ∀ x ∈ s.cache.buckets b, (x.key, x.value) ∈ s.inserted) ∧
    ∀ now k v, (query hash now s.cache k).1 = some v → (k, v) ∈ s.inserted

def Request.looksUp (s : Store n ν) : Request n ν → Option (Key n)
  | .search k _ => some k
  | .scanNext _ => s.scan.bind fun r => if r.1 < r.2 then some r.1 else none
  | _ => none

def LooksUpPresent (s : Store n ν) (r : Request n ν) : Prop :=
  ∀ k ∈ r.looksUp s, (s.inserted.lookup k).isSome = true

instance (s : Store n ν) (r : Request n ν) : Decidable (LooksUpPresent s r) :=
  inferInstanceAs (Decidable (∀ _ ∈ _, _))

section pairs
variable {κ : Type*} [DecidableEq κ] {P : κ → ν → Prop} {c : Cache κ ν}

structure Pairs (P : κ → ν → Prop) (c : Cache κ ν) : Prop extends Lists c where
  pair : ∀ b, ∀ x ∈ c.buckets b, P x.key x.value

omit [DecidableEq κ] in
theorem Pairs.same {c' : Cache κ ν} (h : Pairs P c) (hs : Same c c') : Pairs P c' :=
  ⟨hs.lists h.toLists, fun b x hx => h.pair b x (hs.buckets ▸ hx)⟩

omit [DecidableEq κ] in
theorem Pairs.moved {c' : Cache κ ν} {index : ℕ} {m : Node κ ν} {rest : List (Node κ ν)}
    (h : Pairs P c) (hm : Moved c c' index m rest) (hP : P m.key m.value) : Pairs P c' := by
  refine ⟨hm.lists h.toLists, fun b x hx => ?_⟩
  obtain ⟨-, rfl⟩ | ⟨hx, -⟩ := hm.mem hx
  · exact hP
  · exact h.pair b x hx

/-- The cache answers with a value it holds, and a query changes no pair. -/
theorem Pairs.queryFrom (h : Pairs P c) (now : Int) (key : κ) (candidates : List ℕ) :
    Pairs P (queryFrom now c key candidates).2 ∧
      ∀ v, (LocalCache.queryFrom now c key candidates).1 = some v → P key v := by
  obtain ⟨hs, hnone, -⟩ | ⟨index, -, -, n, hn, rfl, hv, m, rest, hmk, hmv, hm⟩ :=
    queryFrom_cases h.toLists now key candidates
  · exact ⟨h.same hs, by simp [hnone]⟩
  · have hP := h.pair index n hn
    refine ⟨h.moved hm (by rwa [hmk, hmv]), fun v hv' => ?_⟩
    rw [hv] at hv'
    exact Option.some.inj hv' ▸ hP

theorem Pairs.insertAt (h : Pairs P c) {key : κ} {value : ν} (hkv : P key value) (now : Int)
    (index : ℕ) : Pairs P (LocalCache.insertAt now c index key value).1 := by
  obtain ⟨hs, -⟩ | ⟨-, m, rest, rfl, rfl, hm⟩ := insertAt_cases h.toLists now index key value
  · exact h.same hs
  · exact h.moved hm hkv

theorem Pairs.insert {hash : κ → ℕ → ℕ} (h : Pairs P c) {key : κ} {value : ν} (hkv : P key value)
    {now : Int} {r : Cache κ ν × Option (κ × ν)}
    (hr : LocalCache.insert hash now c key value = some r) : Pairs P r.1 := by
  obtain ⟨index, -, rfl⟩ := Option.map_eq_some_iff.mp hr
  exact h.insertAt hkv now index

omit [DecidableEq κ] in
theorem Pairs.mono {Q : κ → ν → Prop} (h : Pairs P c) (hPQ : ∀ k v, P k v → Q k v) : Pairs Q c :=
  ⟨h.toLists, fun b x hx => hPQ _ _ (h.pair b x hx)⟩

end pairs

section runs
variable {hash : Key n → ℕ → ℕ} {s t : Store n ν}

def Held (s : Store n ν) : Prop := Pairs (fun k v => (k, v) ∈ s.inserted) s.cache

theorem Held.noPhantom (h : Held s) : NoPhantom hash s :=
  ⟨h.pair, fun now k v hv => (h.queryFrom now k _).2 v hv⟩

theorem mem_of_lookup {xs : List (Key n × ν)} {k : Key n} {v : ν} (h : xs.lookup k = some v) :
    (k, v) ∈ xs := by
  obtain ⟨l₁, l₂, rfl, -⟩ := List.lookup_eq_some_iff.mp h
  simp

/-- A lookup of a key the tree has fills the cache with a value of the tree. -/
theorem Held.lookup (h : Held s) {k : Key n} {e : Surroundings ν} {r : ν × Store n ν}
    (hk : (s.inserted.lookup k).isSome = true) (hr : WorkFunc.lookup hash s k e = some r) :
    r.2.inserted = s.inserted ∧ Held r.2 := by
  have hq := (h.queryFrom e.queryAt k (getCandidateBuckets hash s.cache.capacity k)).1
  unfold WorkFunc.lookup query at hr
  generalize queryFrom e.queryAt s.cache k (getCandidateBuckets hash s.cache.capacity k) = q at hq hr
  obtain ⟨_ | v, c⟩ := q
  · obtain ⟨⟨found, v⟩, hs, hr⟩ := Option.bind_eq_some_iff.mp hr
    obtain ⟨c', hc', rfl⟩ := Option.map_eq_some_iff.mp hr
    obtain ⟨v', hv'⟩ := Option.isSome_iff_exists.mp hk
    obtain rfl : v' = v := by
      unfold treeSearch at hs
      split at hs
      · cases hs
      · simp only [hv', Option.some.injEq, Prod.mk.injEq] at hs
        exact hs.2
    exact ⟨rfl, hq.insert (mem_of_lookup hv') hc'⟩
  · obtain rfl := Option.some_inj.mp hr
    exact ⟨rfl, hq⟩

theorem Held.workFunc (h : Held s) {r : Request n ν} (hg : LooksUpPresent s r)
    (hn : WorkFunc.workFunc hash s r = some t) : Held t := by
  cases r with
  | search k e =>
    simp only [WorkFunc.workFunc] at hn
    split at hn
    · cases hn
    · obtain ⟨x, hx, rfl⟩ := Option.map_eq_some_iff.mp hn
      exact (h.lookup (hg k rfl) hx).2
  | insert k v =>
    simp only [WorkFunc.workFunc] at hn
    split at hn
    · cases hn
    · obtain rfl := Option.some_inj.mp hn
      exact Pairs.mono h fun _ _ hkv => List.mem_cons_of_mem _ hkv
  | update k v now =>
    simp only [WorkFunc.workFunc] at hn
    split at hn
    · cases hn
    · obtain ⟨c, hc, rfl⟩ := Option.map_eq_some_iff.mp hn
      have h' : Pairs (fun k' v' => (k', v') ∈ (k, v) :: s.inserted) s.cache :=
        Pairs.mono h fun _ _ hkv => List.mem_cons_of_mem _ hkv
      exact h'.insert List.mem_cons_self hc
  | rangeQuery k rangeSize =>
    simp only [WorkFunc.workFunc] at hn
    split at hn
    · cases hn
    · obtain rfl := Option.some_inj.mp hn
      exact h
  | scanNext e =>
    simp only [WorkFunc.workFunc] at hn
    split at hn
    · cases hn
    · rename_i k last hscan
      split at hn
      · rename_i hlt
        obtain ⟨x, hx, rfl⟩ := Option.map_eq_some_iff.mp hn
        exact (h.lookup (hg k (by simp [Request.looksUp, hscan, hlt])) hx).2
      · obtain rfl := Option.some_inj.mp hn
        exact h

/-- In every run that looks up only keys the tree has, the cache holds no phantom. -/
theorem noPhantom_of_looksUpPresent {capacity : ℕ}
    (h : (system hash capacity).Reach LooksUpPresent s) : NoPhantom hash s := by
  refine Held.noPhantom (h.invariant (P := Held) ?_ fun _ _ _ _ ih hg hn => ih.workFunc hg hn)
  rintro _ rfl
  exact ⟨lists_new capacity, fun b x hx => by simp [Store.new, LocalCache.new] at hx⟩

end runs

/-- A search that fills the cache, and a range request over the same key and one more. -/
def presentRun : List (Request keyLen Value) :=
  [.insert (sampleKey 7) 1, .insert (sampleKey 8) 2, .search (sampleKey 7) ⟨0, 0, 99⟩,
    .rangeQuery (sampleKey 7) 2, .scanNext ⟨1, 1, 99⟩, .scanNext ⟨1, 1, 99⟩, .scanNext ⟨1, 1, 99⟩]

theorem noPhantom_after_scan :
    (system (fun _ salt => salt) 8).Ends (Store.new keyLen 8 Value) presentRun fun s =>
      (query (fun _ salt => salt) 2 s.cache (sampleKey 8)).1 = some 2 ∧
        NoPhantom (fun _ salt => salt) s := by
  have hm : (system (fun _ salt => salt) 8).Meets LooksUpPresent (Store.new keyLen 8 Value)
      presentRun := by
    decide +kernel
  have he : (system (fun _ salt => salt) 8).Ends (Store.new keyLen 8 Value) presentRun fun s =>
      (query (fun _ salt => salt) 2 s.cache (sampleKey 8)).1 = some 2 := by
    decide +kernel
  obtain ⟨s, hs, hq⟩ := he
  exact ⟨s, hs, hq, noPhantom_of_looksUpPresent ((Transition.System.Reach.init rfl).run hm hs)⟩

/-- A search for an absent key fills the cache with whatever the caller's value held. -/
theorem phantom_after_search_of_absent :
    (system (fun _ salt => salt) 8).Ends (Store.new keyLen 8 Value)
      [.insert (sampleKey 8) 1, .search (sampleKey 7) ⟨0, 0, 99⟩] fun s =>
        (query (fun _ salt => salt) 1 s.cache (sampleKey 7)).1 = some 99 ∧
          ¬ NoPhantom (fun _ salt => salt) s := by
  have he : (system (fun _ salt => salt) 8).Ends (Store.new keyLen 8 Value)
      [.insert (sampleKey 8) 1, .search (sampleKey 7) ⟨0, 0, 99⟩] fun s =>
        (query (fun _ salt => salt) 1 s.cache (sampleKey 7)).1 = some 99 ∧
          (sampleKey 7, 99) ∉ s.inserted := by
    decide +kernel
  obtain ⟨s, hs, hq, hni⟩ := he
  exact ⟨s, hs, hq, fun h => hni (h.2 1 (sampleKey 7) 99 hq)⟩

end SmartTree.WorkFunc
