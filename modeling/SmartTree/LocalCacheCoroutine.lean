import SmartTree.Lib.Transition
import SmartTree.LocalCache

/-! Coroutines of one thread on the bucket mutexes of the local cache. Control moves only
where a DSM operation yields, so a call runs in one step up to its first yield; an insert
that migrates what it evicts yields inside its locked region. -/
namespace SmartTree.LocalCache

inductive EntryKind where
  | null | leaf | node
deriving DecidableEq

/-- What the index cache and the tree answer to a migration. A page may turn out to have
grown since its entry was written, to carry a stale reverse pointer, or to be invalid. -/
inductive Answer where
  | cacheHit (p : EntryKind)
  | cacheMiss
  | root (p : EntryKind)
  | page (grown stale valid : Bool) (child : Option EntryKind)
  | done
deriving DecidableEq

inductive MigratePc where
  | getRoot
  | readNode (fromCache : Bool)
  | readRest (fromCache stale valid : Bool) (child : Option EntryKind)
  | repair (fromCache valid : Bool) (child : Option EntryKind)
deriving DecidableEq

def migrateLoop (fromCache : Bool) : EntryKind → Option MigratePc
  | .node => some (.readNode fromCache)
  | _ => none

def migrateNext (fromCache valid : Bool) (child : Option EntryKind) : Option MigratePc :=
  if valid then child.bind (migrateLoop fromCache) else none

/-- The end of `read_node`: a stale reverse pointer is repaired unless the entry was cached. -/
def migrateRead (fromCache stale valid : Bool) (child : Option EntryKind) : Option MigratePc :=
  if !fromCache && stale then some (.repair fromCache valid child)
  else migrateNext fromCache valid child

/-- `migrate_local_cache_to_radix_cache` up to its first yield; done when it has none. -/
def migrateStart : Answer → Option (Option MigratePc)
  | .cacheHit p => some (migrateLoop true p)
  | .cacheMiss => some (some .getRoot)
  | _ => none

def migrateResume : MigratePc → Answer → Option (Option MigratePc)
  | .getRoot, .root p => some (migrateLoop false p)
  | .readNode fromCache, .page grown stale valid child =>
    some (if grown then some (.readRest fromCache stale valid child)
      else migrateRead fromCache stale valid child)
  | .readRest fromCache stale valid child, .done => some (migrateRead fromCache stale valid child)
  | .repair fromCache valid child, .done => some (migrateNext fromCache valid child)
  | _, _ => none

/-- A thread: the cache, who holds the mutex of each bucket, the bucket and place each
coroutine is suspended at, and the coroutine that blocks the thread at a bucket. -/
structure Thread (ι κ ν : Type*) where
  cache : Cache κ ν
  holder : ℕ → Option ι
  suspended : ι → Option (ℕ × MigratePc)
  blocked : Option (ι × ℕ)

variable {ι κ ν : Type*} [DecidableEq κ] [DecidableEq ι]

def queryStop (s : Thread ι κ ν) (key : κ) : List ℕ → Option ℕ
  | [] => none
  | index :: rest =>
    if (s.holder index).isSome then some index
    else if (s.cache.buckets index).any fun n => decide (n.key = key) then none
    else queryStop s key rest

def queryCall (hash : κ → ℕ → ℕ) (s : Thread ι κ ν) (i : ι) (now : Int) (key : κ) : Thread ι κ ν :=
  match queryStop s key (getCandidateBuckets hash s.cache.capacity key) with
  | some b => { s with blocked := some (i, b) }
  | none => { s with cache := (query hash now s.cache key).2 }

/-- The scan locks every candidate for a moment; the chosen one stays locked while the
evicted node migrates. -/
def insertCall (hash : κ → ℕ → ℕ) (s : Thread ι κ ν) (i : ι) (now : Int) (key : κ) (value : ν)
    (a : Answer) : Option (Thread ι κ ν) :=
  let candidates := getCandidateBuckets hash s.cache.capacity key
  match candidates.find? fun b => (s.holder b).isSome with
  | some b => some { s with blocked := some (i, b) }
  | none =>
    (selectBucket s.cache candidates).bind fun index =>
      match insertAt now s.cache index key value with
      | (c, none) => some { s with cache := c }
      | (c, some _) => (migrateStart a).map fun
        | none => { s with cache := c }
        | some pc => { s with
          cache := c
          holder := Function.update s.holder index (some i)
          suspended := Function.update s.suspended i (some (index, pc)) }

inductive Call (κ ν : Type*) where
  | query (now : Int) (key : κ)
  | insert (now : Int) (key : κ) (value : ν) (a : Answer)
  | resume (a : Answer)

def Thread.next (hash : κ → ℕ → ℕ) (s : Thread ι κ ν) (a : ι × Call κ ν) : Option (Thread ι κ ν) :=
  if s.blocked.isSome then none
  else match s.suspended a.1, a.2 with
    | none, .query now key => some (queryCall hash s a.1 now key)
    | none, .insert now key value ans => insertCall hash s a.1 now key value ans
    | some (index, pc), .resume ans => (migrateResume pc ans).map fun
      | none => { s with
        holder := Function.update s.holder index none
        suspended := Function.update s.suspended a.1 none }
      | some pc' => { s with suspended := Function.update s.suspended a.1 (some (index, pc')) }
    | _, _ => none

def Thread.new (ι : Type*) (capacity : ℕ) : Thread ι κ ν :=
  ⟨LocalCache.new capacity, fun _ => none, fun _ => none, none⟩

def Thread.system (ι : Type*) [DecidableEq ι] (ν : Type*) (hash : κ → ℕ → ℕ) (capacity : ℕ) :
    Transition.System (Thread ι κ ν) (ι × Call κ ν) where
  init s := s = Thread.new ι capacity
  next := Thread.next hash

/-- A coroutine blocks on a mutex that another, suspended coroutine of the thread holds. -/
def Thread.SelfDeadlock (s : Thread ι κ ν) : Prop :=
  ∃ i b j, s.blocked = some (i, b) ∧ s.holder b = some j ∧ j ≠ i ∧ (s.suspended j).isSome = true

/-- What an insert of the key is going to evict and migrate: its bucket is full of other
keys, the cache is not, and the last node of the bucket was in demand lately. -/
def victim (hash : κ → ℕ → ℕ) (now : Int) (c : Cache κ ν) (key : κ) : Option (Node κ ν) :=
  (selectBucket c (getCandidateBuckets hash c.capacity key)).bind fun index =>
    if (∀ n ∈ c.buckets index, n.key ≠ key) ∧ c.curSize < c.capacity ∧
        bucketElementsLimit ≤ c.bucketElements index then
      (c.buckets index).getLast?.filter (shouldMigrate now)
    else none

/-- What an insert migrates is known to the index cache as a leaf or as Null. -/
def MigratesWithoutRead (hash : κ → ℕ → ℕ) (s : Thread ι κ ν) (a : ι × Call κ ν) : Prop :=
  match a.2 with
  | .insert now key _ ans =>
    (victim hash now s.cache key).isSome = true → ans = .cacheHit .leaf ∨ ans = .cacheHit .null
  | _ => True

instance (hash : κ → ℕ → ℕ) (s : Thread ι κ ν) (a : ι × Call κ ν) :
    Decidable (MigratesWithoutRead hash s a) :=
  match a with
  | (_, .insert _ _ _ _) => inferInstanceAs (Decidable (_ → _))
  | (_, .query _ _) | (_, .resume _) => isTrue trivial

omit [DecidableEq κ] in
theorem selectBucket_mem {c : Cache κ ν} {candidates : List ℕ} {index : ℕ}
    (h : selectBucket c candidates = some index) : index ∈ candidates := by
  suffices ∀ (acc : ℕ × Option ℕ), (candidates.foldl (fun (acc : ℕ × Option ℕ) idx =>
      if c.bucketElements idx < acc.1 then (c.bucketElements idx, some idx) else acc) acc).2 =
        some index → acc.2 = some index ∨ index ∈ candidates from
    (this _ h).resolve_left (by simp)
  clear h
  induction candidates with
  | nil => exact fun acc h => .inl h
  | cons idx rest ih =>
    intro acc h
    rw [List.foldl_cons] at h
    split at h
    · obtain h | h := ih _ h
      · exact .inr (Option.some_inj.mp h ▸ List.mem_cons_self)
      · exact .inr (List.mem_cons_of_mem _ h)
    · exact (ih _ h).imp id (List.mem_cons_of_mem _)

omit [DecidableEq κ] in
theorem migrates_of_evictBack {now : Int} {c : Cache κ ν} {index : ℕ} {r : κ × ν}
    (h : (evictBack now c index).2 = some r) :
    ∃ n, (c.buckets index).getLast? = some n ∧ shouldMigrate now n = true := by
  unfold evictBack at h
  split at h
  · cases h
  · rename_i n hn
    dsimp only at h
    split at h
    · exact ⟨n, hn, ‹_›⟩
    · cases h

theorem victim_of_insertAt {hash : κ → ℕ → ℕ} {now : Int} {c : Cache κ ν} {key : κ} {value : ν}
    {index : ℕ} (hi : selectBucket c (getCandidateBuckets hash c.capacity key) = some index)
    {r : κ × ν} (hr : (insertAt now c index key value).2 = some r) :
    (victim hash now c key).isSome = true := by
  unfold insertAt at hr
  split at hr
  · cases hr
  · rename_i ht
    have habs : ∀ n ∈ c.buckets index, n.key ≠ key := by simpa [touch] using ht
    split at hr
    · cases hr
    · rename_i hcap
      dsimp only at hr
      split at hr
      · rename_i hlim
        obtain ⟨n, hn, hm⟩ := migrates_of_evictBack hr
        have hlim : bucketElementsLimit ≤ c.bucketElements index := by
          simpa using Nat.lt_succ_iff.mp (by simpa using hlim)
        have hc : (∀ n ∈ c.buckets index, n.key ≠ key) ∧ c.curSize < c.capacity ∧
            bucketElementsLimit ≤ c.bucketElements index := ⟨habs, not_le.mp hcap, hlim⟩
        simp only [Cache.setBucket, Function.update_self] at hn
        rcases List.eq_nil_or_concat (c.buckets index) with hb | ⟨l, x, hb⟩
        · -- the new node itself has not been accessed yet
          rw [hb] at hn
          cases hn
          simp [shouldMigrate, Node.getAccessCount] at hm
        · rw [hb, List.concat_eq_append, ← List.cons_append, List.getLast?_concat] at hn
          cases hn
          simp [victim, hi, if_pos hc, hb, hm]
      · cases hr

section runs
variable {hash : κ → ℕ → ℕ} {s t : Thread ι κ ν}

omit [DecidableEq ι] in
theorem queryStop_held {key : κ} {candidates : List ℕ} {b : ℕ}
    (h : queryStop s key candidates = some b) : (s.holder b).isSome = true := by
  induction candidates with
  | nil => cases h
  | cons index rest ih =>
    unfold queryStop at h
    split at h
    · rename_i hh
      obtain rfl := Option.some_inj.mp h
      exact hh
    · split at h
      · cases h
      · exact ih h

inductive Stretch (hash : κ → ℕ → ℕ) (s : Thread ι κ ν) (i : ι) : Call κ ν → Thread ι κ ν → Prop where
  | blocks {call : Call κ ν} {b : ℕ} (hs : s.suspended i = none) (hb : (s.holder b).isSome = true) :
      Stretch hash s i call { s with blocked := some (i, b) }
  | returns {call : Call κ ν} (c : Cache κ ν) (hs : s.suspended i = none) :
      Stretch hash s i call { s with cache := c }
  | suspends {now : Int} {key : κ} {value : ν} {a : Answer} {index : ℕ} {pc : MigratePc}
      (c : Cache κ ν) (hs : s.suspended i = none) (hf : s.holder index = none)
      (hv : (victim hash now s.cache key).isSome = true) (ha : migrateStart a = some (some pc)) :
      Stretch hash s i (.insert now key value a) { s with
        cache := c
        holder := Function.update s.holder index (some i)
        suspended := Function.update s.suspended i (some (index, pc)) }
  | yields {a : Answer} {index : ℕ} {pc pc' : MigratePc} (hs : s.suspended i = some (index, pc)) :
      Stretch hash s i (.resume a) { s with
        suspended := Function.update s.suspended i (some (index, pc')) }
  | finishes {a : Answer} {index : ℕ} {pc : MigratePc} (hs : s.suspended i = some (index, pc)) :
      Stretch hash s i (.resume a) { s with
        holder := Function.update s.holder index none
        suspended := Function.update s.suspended i none }

theorem next_stretch {a : ι × Call κ ν} (h : Thread.next hash s a = some t) :
    s.blocked = none ∧ Stretch hash s a.1 a.2 t := by
  obtain ⟨i, call⟩ := a
  unfold Thread.next at h
  split at h
  · cases h
  · rename_i hblk
    refine ⟨by simpa using hblk, ?_⟩
    dsimp only at h ⊢
    split at h
    · rename_i now key hs
      obtain rfl := Option.some_inj.mp h
      unfold queryCall
      split
      · rename_i b hb
        exact .blocks hs (queryStop_held hb)
      · exact .returns _ hs
    · rename_i now key value ans hs
      unfold insertCall at h
      dsimp only at h
      split at h
      · rename_i b hb
        obtain rfl := Option.some_inj.mp h
        exact .blocks hs (by simpa using List.find?_some hb)
      · rename_i hfree
        obtain ⟨index, hidx, h⟩ := Option.bind_eq_some_iff.mp h
        split at h
        · obtain rfl := Option.some_inj.mp h
          exact .returns _ hs
        · rename_i c r hins
          obtain ⟨o, ho, rfl⟩ := Option.map_eq_some_iff.mp h
          cases o with
          | none => exact .returns _ hs
          | some pc =>
            have hf : s.holder index = none := by
              have := List.find?_eq_none.mp hfree index (selectBucket_mem hidx)
              simpa using this
            have hr : (insertAt now s.cache index key value).2 = some r := by rw [hins]
            exact .suspends c hs hf (victim_of_insertAt hidx hr) ho
    · rename_i index pc ans hs
      obtain ⟨o, ho, rfl⟩ := Option.map_eq_some_iff.mp h
      cases o with
      | none => exact .finishes hs
      | some pc' => exact .yields hs
    · cases h

/-- Mutexes are held exactly by suspended coroutines, and only a running one blocks. -/
structure Thread.Locks (s : Thread ι κ ν) : Prop where
  held : ∀ b j, s.holder b = some j ↔ ∃ pc, s.suspended j = some (b, pc)
  stuck : ∀ i b, s.blocked = some (i, b) → s.suspended i = none ∧ (s.holder b).isSome = true

omit [DecidableEq κ] [DecidableEq ι] in
theorem Thread.Locks.selfDeadlock_iff (h : s.Locks) : s.SelfDeadlock ↔ s.blocked.isSome = true := by
  constructor
  · rintro ⟨i, b, j, hb, -⟩
    simp [hb]
  · intro hb
    obtain ⟨⟨i, b⟩, hb⟩ := Option.isSome_iff_exists.mp hb
    obtain ⟨hi, hh⟩ := h.stuck i b hb
    obtain ⟨j, hj⟩ := Option.isSome_iff_exists.mp hh
    obtain ⟨pc, hpc⟩ := (h.held b j).mp hj
    refine ⟨i, b, j, hb, hj, ?_, by simp [hpc]⟩
    rintro rfl
    simp [hi] at hpc

theorem Stretch.locks {i : ι} {call : Call κ ν} (hst : Stretch hash s i call t) (h : s.Locks)
    (hb : s.blocked = none) : t.Locks := by
  cases hst with
  | blocks hs hb' =>
    refine ⟨h.held, fun j b' he => ?_⟩
    cases he
    exact ⟨hs, hb'⟩
  | returns c hs => exact ⟨h.held, h.stuck⟩
  | @suspends now key value a index pc c hs hf hv ha =>
    refine ⟨fun b j => ?_, fun j b he => by simp [hb] at he⟩
    by_cases hj : j = i <;> by_cases hbi : b = index
    · subst hj hbi
      simp
    · subst hj
      have := h.held b j
      simp [hbi, Ne.symm hbi, this, hs]
    · subst hbi
      have := h.held b j
      simp only [Function.update_self, Option.some.injEq, Function.update_of_ne hj, ← this, hf]
      simp [Ne.symm hj]
    · simpa [hbi, hj] using h.held b j
  | @yields a index pc pc' hs =>
    refine ⟨fun b j => ?_, fun j b he => by simp [hb] at he⟩
    rw [h.held b j]
    by_cases hj : j = i
    · subst hj
      simp [hs]
    · simp [hj]
  | @finishes a index pc hs =>
    refine ⟨fun b j => ?_, fun j b he => by simp [hb] at he⟩
    have hi : s.holder index = some i := (h.held index i).mpr ⟨pc, hs⟩
    by_cases hbi : b = index
    · subst hbi
      have hj (hj : j ≠ i) : ¬ ∃ pc, s.suspended j = some (b, pc) := fun he => by
        have := (h.held b j).mpr he
        exact hj (Option.some_inj.mp (this.symm.trans hi))
      by_cases hji : j = i
      · subst hji
        simp
      · simpa [hji] using hj hji
    · by_cases hji : j = i
      · subst hji
        have : ¬ s.holder b = some j := fun hh => by
          obtain ⟨pc', hpc'⟩ := (h.held b j).mp hh
          rw [hs] at hpc'
          exact hbi (by cases hpc'; rfl)
        simpa [hbi] using this
      · simpa [hbi, hji] using h.held b j

/-- In every run the thread is stuck exactly when one coroutine waits for another. -/
theorem selfDeadlock_iff_blocked {capacity : ℕ} {G : Thread ι κ ν → ι × Call κ ν → Prop}
    (h : (Thread.system ι ν hash capacity).Reach G s) : s.SelfDeadlock ↔ s.blocked.isSome = true := by
  refine Thread.Locks.selfDeadlock_iff (h.invariant (P := Thread.Locks) ?_ ?_)
  · rintro _ rfl
    exact ⟨by simp [Thread.new], by simp [Thread.new]⟩
  · intro s a t _ ih _ hn
    obtain ⟨hb, hst⟩ := next_stretch hn
    exact hst.locks ih hb

/-- While no migration has to read, no coroutine is ever suspended inside a locked region,
and none blocks on another one. -/
theorem no_selfDeadlock_of_migratesWithoutRead {capacity : ℕ}
    (h : (Thread.system ι ν hash capacity).Reach (MigratesWithoutRead hash) s) : ¬ s.SelfDeadlock := by
  suffices ∀ i, s.suspended i = none by
    rintro ⟨i, b, j, -, -, -, hj⟩
    simp [this j] at hj
  refine h.invariant (P := fun s => ∀ i, s.suspended i = none) ?_ ?_
  · rintro _ rfl
    exact fun _ => rfl
  · intro s a t _ ih hg hn
    obtain ⟨-, hst⟩ := next_stretch hn
    generalize ha : a.2 = call at hst
    cases hst with
    | blocks | returns => exact ih
    | suspends c hs hf hv hm =>
      simp only [MigratesWithoutRead, ha] at hg
      obtain rfl | rfl := hg hv <;> simp [migrateStart, migrateLoop] at hm
    | yields hs => simp [ih] at hs
    | finishes hs => simp [ih] at hs

end runs

open scoped Transition.Numbered

/-- All keys share one bucket; the third insert evicts key 1, which was queried three times,
and then another coroutine looks for key 2. -/
def evictRun (a : Answer) : List (Fin 2 × Call ℕ ℕ) :=
  [(0, .insert 0 1 10 .cacheMiss), (0, .query 0 1), (0, .query 0 1), (0, .query 0 1),
    (0, .insert 0 2 20 .cacheMiss), (0, .insert 0 3 30 a), (1, .query 0 2)]

theorem no_selfDeadlock_after_eviction :
    (Thread.system (Fin 2) ℕ (fun _ _ : ℕ => 0) 8).Ends (Thread.new (Fin 2) 8)
      (evictRun (.cacheHit .leaf)) fun s => s.cache.sumMigrateTime = 1 ∧ ¬ s.SelfDeadlock := by
  have hm : (Thread.system (Fin 2) ℕ (fun _ _ : ℕ => 0) 8).Meets (MigratesWithoutRead fun _ _ => 0)
      (Thread.new (Fin 2) 8) (evictRun (.cacheHit .leaf)) := by
    decide +kernel
  have he : (Thread.system (Fin 2) ℕ (fun _ _ : ℕ => 0) 8).Ends (Thread.new (Fin 2) 8)
      (evictRun (.cacheHit .leaf)) fun s => s.cache.sumMigrateTime = 1 := by
    decide +kernel
  obtain ⟨s, hs, hc⟩ := he
  exact ⟨s, hs, hc, no_selfDeadlock_of_migratesWithoutRead ((Transition.System.Reach.init rfl).run hm hs)⟩

/-- The migration reads the root while the bucket is locked, and the other coroutine waits
for that lock. -/
theorem selfDeadlock_during_migration :
    (Thread.system (Fin 2) ℕ (fun _ _ : ℕ => 0) 8).Ends (Thread.new (Fin 2) 8)
      (evictRun .cacheMiss) fun s => s.SelfDeadlock := by
  have he : (Thread.system (Fin 2) ℕ (fun _ _ : ℕ => 0) 8).Ends (Thread.new (Fin 2) 8)
      (evictRun .cacheMiss) fun s => s.blocked = some (1, 0) ∧ s.holder 0 = some 0 ∧
        (s.suspended 0).isSome = true := by
    decide +kernel
  obtain ⟨s, hs, hb, hh, hp⟩ := he
  exact ⟨s, hs, 1, 0, 0, hb, hh, by decide, hp⟩

end SmartTree.LocalCache
