import SmartTree.Key
import SmartTree.LocalCacheLists

/-! When the cache answers with the last write. `insert` looks for an old copy of
the key only in the bucket it picks, so a copy in another candidate bucket is left
behind; the condition below says that this branch is not taken. -/
namespace SmartTree.LocalCache
variable {κ ν : Type*} [DecidableEq κ]

def Holds (c : Cache κ ν) (b : ℕ) (key : κ) : Prop := ∃ n ∈ c.buckets b, n.key = key

/-- Every query of the sequence answers with nothing or with the last insert of its key. -/
def ReturnsLastWrite (hash : κ → ℕ → ℕ) (capacity : ℕ) (ops : List (Op κ ν)) : Prop :=
  ∀ pre post now key c v, ops = pre ++ .query now key :: post →
    runOps hash (new capacity) pre = some c →
    (query hash now c key).1 = some v → lastInsert key pre = some v

/-- Before every insert, a candidate bucket that holds the key is the first least
loaded candidate, the one place where `insert` looks for it. -/
def OldCopyInTarget (hash : κ → ℕ → ℕ) (capacity : ℕ) (ops : List (Op κ ν)) : Prop :=
  ∀ pre post now key v c, ops = pre ++ .insert now key v :: post →
    runOps hash (new capacity) pre = some c →
    ∀ b ∈ getCandidateBuckets hash c.capacity key, Holds c b key →
      (getCandidateBuckets hash c.capacity key).argmin c.bucketElements = some b

structure Consistent (hash : κ → ℕ → ℕ) (hist : List (Op κ ν)) (c : Cache κ ν) : Prop
    extends Lists c where
  placed : ∀ b, ∀ n ∈ c.buckets b, b ∈ getCandidateBuckets hash c.capacity n.key
  fresh : ∀ b, ∀ n ∈ c.buckets b, lastInsert n.key hist = some n.value

theorem lastInsert_append (key : κ) (xs ys : List (Op κ ν)) :
    lastInsert key (xs ++ ys) = (lastInsert key ys).or (lastInsert key xs) := by
  induction xs with
  | nil => simp [lastInsert]
  | cons op xs ih => cases op <;> simp [lastInsert, ih, Option.or_assoc]

theorem lastInsert_insert (key k : κ) (hist : List (Op κ ν)) (now : Int) (v : ν) :
    lastInsert key (hist ++ [.insert now k v]) = if k = key then some v else lastInsert key hist := by
  rw [lastInsert_append]
  by_cases h : k = key <;> simp [lastInsert, h]

theorem lastInsert_query (key k : κ) (hist : List (Op κ ν)) (now : Int) :
    lastInsert key (hist ++ [.query now k]) = lastInsert key hist := by
  rw [lastInsert_append]
  simp [lastInsert]

theorem runOps_append (hash : κ → ℕ → ℕ) (c : Cache κ ν) (xs ys : List (Op κ ν)) :
    runOps hash c (xs ++ ys) = (runOps hash c xs).bind fun c' => runOps hash c' ys := by
  induction xs generalizing c with
  | nil => rfl
  | cons op xs ih =>
    simp only [List.cons_append, runOps, ih]
    cases exec hash c op <;> rfl

section step
variable {hash : κ → ℕ → ℕ} {hist hist' : List (Op κ ν)} {c c' : Cache κ ν} {index : ℕ}

theorem consistent_new (hash : κ → ℕ → ℕ) (capacity : ℕ) :
    Consistent hash ([] : List (Op κ ν)) (new capacity) :=
  ⟨lists_new capacity, fun _ _ hn => by simp [new] at hn, fun _ _ hn => by simp [new] at hn⟩

theorem Consistent.same (h : Consistent hash hist c) (hs : Same c c')
    (hold : ∀ b, ∀ n ∈ c.buckets b, lastInsert n.key hist' = lastInsert n.key hist) :
    Consistent hash hist' c' where
  toLists := hs.lists h.toLists
  placed b n hn := by
    rw [hs.buckets] at hn
    exact hs.capacity ▸ h.placed b n hn
  fresh b n hn := by
    rw [hs.buckets] at hn
    exact (hold b n hn).trans (h.fresh b n hn)

/-- A node that has moved is in a list of its key and carries the last insert; so do the others. -/
theorem Consistent.moved (h : Consistent hash hist c) {m : Node κ ν} {rest : List (Node κ ν)}
    (hm : Moved c c' index m rest) (hidx : index ∈ getCandidateBuckets hash c.capacity m.key)
    (hval : lastInsert m.key hist' = some m.value)
    (hold : ∀ b, ∀ n ∈ c.buckets b, (b = index → n.key ≠ m.key) →
      lastInsert n.key hist' = lastInsert n.key hist) :
    Consistent hash hist' c' where
  toLists := hm.lists h.toLists
  placed b n hn := by
    rw [hm.capacity]
    obtain ⟨rfl, rfl⟩ | ⟨hn, -⟩ := hm.mem hn
    · exact hidx
    · exact h.placed b n hn
  fresh b n hn := by
    obtain ⟨rfl, rfl⟩ | ⟨hn, hne⟩ := hm.mem hn
    · exact hval
    · exact (hold b n hn hne).trans (h.fresh b n hn)

/-- One insert step: when no other list holds the key, consistency moves on to the
history with this insert. -/
theorem consistent_insertAt (h : Consistent hash hist c) (now : Int) (index : ℕ) (key : κ) (value : ν)
    (hidx : index ∈ getCandidateBuckets hash c.capacity key)
    (honly : ∀ b, Holds c b key → b = index) :
    Consistent hash (hist ++ [.insert now key value]) (insertAt now c index key value).1 := by
  have hold : ∀ b, ∀ n ∈ c.buckets b, (b = index → n.key ≠ key) →
      lastInsert n.key (hist ++ [.insert now key value]) = lastInsert n.key hist := by
    intro b n hn hne
    have hk : key ≠ n.key := fun he => hne (honly b ⟨n, hn, he.symm⟩) he.symm
    rw [lastInsert_insert, if_neg hk]
  obtain ⟨hs, -, habs⟩ | ⟨-, m, rest, rfl, rfl, hm⟩ := insertAt_cases h.toLists now index key value
  · exact h.same hs fun b n hn => hold b n hn fun hb => habs n (hb ▸ hn)
  · exact h.moved hm hidx (by simp [lastInsert_insert]) hold

/-- A query keeps consistency, and an answer is the value of a stored node of the key. -/
theorem consistent_queryFrom (h : Consistent hash hist c) (now : Int) (key : κ) (candidates : List ℕ) :
    Consistent hash (hist ++ [.query now key]) (queryFrom now c key candidates).2 ∧
      ∀ v, (queryFrom now c key candidates).1 = some v → lastInsert key hist = some v := by
  obtain ⟨hs, hnone, -⟩ | ⟨index, -, -, n, hn, hnk, hv, m, rest, hmk, hmv, hm⟩ :=
    queryFrom_cases h.toLists now key candidates
  · exact ⟨h.same hs fun _ n _ => lastInsert_query n.key key hist now, by simp [hnone]⟩
  · have hfresh := h.fresh index n hn
    rw [hnk] at hfresh
    refine ⟨h.moved hm ?_ ?_ fun _ n _ _ => lastInsert_query n.key key hist now, ?_⟩
    · rw [hmk, ← hnk]
      exact h.placed index n hn
    · rw [lastInsert_query, hmk, hmv, hfresh]
    · rw [hv, hfresh]
      exact fun _ => id

theorem consistent_exec (op : Op κ ν) (h : Consistent hash hist c)
    (hop : ∀ now key v, op = .insert now key v → ∀ b ∈ getCandidateBuckets hash c.capacity key,
      Holds c b key → (getCandidateBuckets hash c.capacity key).argmin c.bucketElements = some b) :
    ∃ c', exec hash c op = some c' ∧ Consistent hash (hist ++ [op]) c' := by
  cases op with
  | query now key => exact ⟨_, rfl, (consistent_queryFrom h now key _).1⟩
  | insert now key v =>
    obtain ⟨index, hidx, hsel, harg, -⟩ := h.toLists.selectBucket_eq_some hash key
    refine ⟨(insertAt now c index key v).1, by simp [exec, insert, hsel], ?_⟩
    refine consistent_insertAt h now index key v hidx fun b hb => ?_
    obtain ⟨n, hn, rfl⟩ := hb
    have hargb := hop now n.key v rfl b (h.placed b n hn) ⟨n, hn, rfl⟩
    rw [harg] at hargb
    exact (Option.some.inj hargb).symm

end step

/-- Runs whose inserts all meet the condition never fail and stay consistent. -/
theorem consistent_run (hash : κ → ℕ → ℕ) (capacity : ℕ) (ops : List (Op κ ν))
    (h : OldCopyInTarget hash capacity ops) :
    ∃ c, runOps hash (new capacity) ops = some c ∧ Consistent hash ops c := by
  induction ops using List.reverseRecOn with
  | nil => exact ⟨new capacity, rfl, consistent_new hash capacity⟩
  | append_singleton ops op ih =>
    have hpre : OldCopyInTarget hash capacity ops := by
      intro pre post now key v c heq
      exact h pre (post ++ [op]) now key v c (by simp [heq])
    obtain ⟨c, hrun, hc⟩ := ih hpre
    obtain ⟨c', hexec, hc'⟩ := consistent_exec op hc fun now key v hop =>
      h ops [] now key v c (by simp [hop]) hrun
    exact ⟨c', by simp [runOps_append, hrun, runOps, hexec], hc'⟩

/-- No run of operations that meets the condition ever answers a query with an
older value, and `insert` always finds a bucket on the way. -/
theorem returns_last_write_of_old_copy_in_target (hash : κ → ℕ → ℕ) (capacity : ℕ)
    (ops : List (Op κ ν)) (h : OldCopyInTarget hash capacity ops) :
    (∃ c, runOps hash (new capacity) ops = some c) ∧ ReturnsLastWrite hash capacity ops := by
  refine ⟨(consistent_run hash capacity ops h).imp fun _ hc => hc.1, ?_⟩
  intro pre post now key c v heq hrun hv
  have hpre : OldCopyInTarget hash capacity pre := by
    intro p q now' key' v' c' heq'
    exact h p (q ++ .query now key :: post) now' key' v' c' (by simp [heq, heq'])
  obtain ⟨c', hrun', hc'⟩ := consistent_run hash capacity pre hpre
  rw [hrun] at hrun'
  cases hrun'
  exact (consistent_queryFrom hc' now key _).2 v hv

def sampleKey (b : UInt8) : Key keyLen := .ofList [0, 0, 0, 0, 0, 0, 0, b]

def writeAgainThenRead : List (Op (Key keyLen) Value) :=
  [.insert 0 (sampleKey 7) 1, .insert 0 (sampleKey 8) 3, .insert 0 (sampleKey 9) 4,
    .insert 0 (sampleKey 7) 2, .query 0 (sampleKey 7)]

theorem oldCopyInTarget_other_keys :
    OldCopyInTarget (fun _ salt => salt) 8 writeAgainThenRead := by
  intro pre post now key v c heq hrun
  obtain _ | ⟨op₁, _ | ⟨op₂, _ | ⟨op₃, _ | ⟨op₄, _ | ⟨op₅, pre⟩⟩⟩⟩⟩ := pre
  · cases heq; cases hrun; unfold Holds; decide
  · cases heq; cases hrun; unfold Holds; decide
  · cases heq; cases hrun; unfold Holds; decide
  · cases heq; cases hrun; unfold Holds; decide
  · cases heq
  · cases pre <;> cases heq

theorem write_again_then_read_last :
    OldCopyInTarget (fun _ salt => salt) 8 writeAgainThenRead ∧
      ReturnsLastWrite (fun _ salt => salt) 8 writeAgainThenRead :=
  ⟨oldCopyInTarget_other_keys,
    (returns_last_write_of_old_copy_in_target _ 8 _ oldCopyInTarget_other_keys).2⟩

def writeTwiceThenRead : List (Op (Key keyLen) Value) :=
  [.insert 0 (sampleKey 7) 1, .insert 0 (sampleKey 7) 2, .query 0 (sampleKey 7)]

/-- With the other candidates empty the second insert lands in one of them and the query finds the
first value. -/
theorem stale_answer_after_second_insert :
    ¬ ReturnsLastWrite (fun _ salt => salt) 8 writeTwiceThenRead := by
  intro h
  have hv := h [.insert 0 (sampleKey 7) 1, .insert 0 (sampleKey 7) 2] [] 0 (sampleKey 7) _ 1 rfl rfl
    (by decide)
  exact absurd hv (by decide)

end SmartTree.LocalCache
