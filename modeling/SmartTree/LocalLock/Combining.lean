import SmartTree.Key
import SmartTree.LocalLock.Queue

/-! Write combining and keys. The combining buffer is shared by every key of a lock
node and stored after the check of the unique write key, so a value may be picked up
for another key; it is not in runs where each store and each copy of the buffer still
finds its own key in charge. -/
namespace SmartTree.LocalLock
variable {ι κ ν : Type*} [DecidableEq κ] [DecidableEq ι]

/-- What a running insert carries is its own value or one deposited for its key. -/
def SameKeyValues (s : Table ι κ ν) : Prop :=
  ∀ i, (s.client i).pc ≠ .idle → (s.client i).side = .write →
    (s.client i).val = (s.client i).arg ∨ ((s.client i).key, (s.client i).val) ∈ s.deposits

instance [Fintype ι] [DecidableEq ν] (s : Table ι κ ν) : Decidable (SameKeyValues s) :=
  inferInstanceAs (Decidable (∀ _, _))

def Pc.copiesBuffer : Pc → Bool
  | .getBuf _ => true
  | _ => false

/-- A store finds the write key free or its own; a copy finds its own key, and a store
since that key was opened. -/
def KeyInCharge (hash : κ → ℕ) (s : Table ι κ ν) (a : ι × Choice κ ν) : Prop :=
  let c := s.client a.1
  let n := s.node (hash c.key)
  (c.pc = .deposit → (n.queue .write).uniqueKey = none ∨ (n.queue .write).uniqueKey = some c.key) ∧
    (c.pc.copiesBuffer = true → (n.queue .write).uniqueKey = some c.key ∧ n.keyAt < n.wcAt)

instance (hash : κ → ℕ) (s : Table ι κ ν) (a : ι × Choice κ ν) : Decidable (KeyInCharge hash s a) :=
  inferInstanceAs (Decidable (_ ∧ _))

inductive BufferEffect (now : ℕ) (n n' : LockNode κ ν) (c : Client κ ν) (o : Obs κ ν) : Prop where
  | opens (h₁ : n'.keyAt = now) (h₂ : n'.wcAt = n.wcAt)
  | stores (h₁ : c.pc = .deposit) (h₂ : o = .deposited c.key c.val) (h₃ : n'.wcBuffer = c.val)
      (h₄ : n'.wcAt = now) (h₅ : (n'.queue .write).uniqueKey = (n.queue .write).uniqueKey)
  | clears (h₁ : (n'.queue .write).uniqueKey = none) (h₂ : n'.wcAt = n.wcAt)
  | keeps (h₁ : (n'.queue .write).uniqueKey = (n.queue .write).uniqueKey) (h₂ : n'.keyAt = n.keyAt)
      (h₃ : n'.wcAt = n.wcAt) (h₄ : n'.wcBuffer = n.wcBuffer)

section effect
omit [DecidableEq κ]
variable {now : ℕ} {n n' : LockNode κ ν} {c c' : Client κ ν} {o : Obs κ ν}
attribute [local simp] LockNode.setWindow LockNode.setHandover LockNode.setLocked LockNode.setKey
  LockNode.decWindow LockNode.bumpTicket LockNode.bumpCurrent LockNode.setQueue_queue

theorem Step.bufferEffect (h : Step now n c n' c' o) : BufferEffect now n n' c o := by
  cases h with
  | openKey hpc hk =>
    cases hs : c.side
    · apply BufferEffect.keeps <;> simp [LockNode.setQueue]
    · apply BufferEffect.opens <;> simp [LockNode.setQueue]
  | deposit hpc => exact .stores hpc rfl rfl rfl rfl
  | rClearKey hpc =>
    cases hs : c.side
    · apply BufferEffect.keeps <;> simp [LockNode.setQueue]
    · apply BufferEffect.clears <;> simp [LockNode.setQueue]
  | _ =>
    apply BufferEffect.keeps <;> simp <;> first | rfl | (split <;> simp [*])

theorem Step.val_eq (h : Step now n c n' c' o) (hc : c.Shaped) (hs : c.side = .write) :
    c'.arg = c.arg ∧ (c'.val = c.val ∨ c.pc.copiesBuffer = true ∧ c'.val = n.wcBuffer) := by
  cases h with
  | getBuf hpc => simp [afterGet, hpc, Pc.copiesBuffer]
  | traversed hpc hr => simp [hs] at hr
  | loadVal hpc => simpa [hs] using hc .read (by rw [hpc]; rfl)
  | _ => exact ⟨rfl, .inl rfl⟩

end effect

structure BufferInv (s : Table ι κ ν) : Prop where
  time : ∀ m, (s.node m).wcAt ≤ s.now
  ofKey : ∀ m k, ((s.node m).queue .write).uniqueKey = some k → (s.node m).keyAt < (s.node m).wcAt →
    (k, (s.node m).wcBuffer) ∈ s.deposits

variable {hash : κ → ℕ} {s t : Table ι κ ν} {i : ι}

omit [DecidableEq κ] in
theorem BufferInv.step {ch : Choice κ ν} (inv : BufferInv s) (hg : KeyInCharge hash s (i, ch))
    (h : Moves hash s i t) : BufferInv t := by
  cases h with
  | begins hpc hb => exact ⟨fun m => (inv.time m).trans (Nat.le_succ _), inv.ofKey⟩
  | @steps hpc n' c' o hs =>
    have hnode (m : ℕ) (hm : m ≠ hash (s.client i).key) :
        Function.update s.node (hash (s.client i).key) n' m = s.node m := Function.update_of_ne hm ..
    refine ⟨fun m => ?_, fun m k hk hlt => ?_⟩ <;> by_cases hm : m = hash (s.client i).key
    · subst hm
      have := inv.time (hash (s.client i).key)
      cases hs.bufferEffect <;> simp_all <;> omega
    · simpa [hnode m hm] using (inv.time m).trans (Nat.le_succ _)
    · subst hm
      have ht := inv.time (hash (s.client i).key)
      have ho := inv.ofKey (hash (s.client i).key) k
      simp only [Table.observe_node, Function.update_self] at hk hlt ⊢
      cases hs.bufferEffect with
      | opens h₁ h₂ => omega
      | stores h₁ h₂ h₃ h₄ h₅ =>
        rcases hg.1 h₁ with hn | hn <;> simp [h₅, hn] at hk
        simp [h₂, h₃, Table.observe, hk]
      | clears h₁ h₂ => simp [h₁] at hk
      | keeps h₁ h₂ h₃ h₄ =>
        rw [h₄]
        exact Table.mem_observe_deposits _ _ (ho (h₁ ▸ hk) (by omega))
    · simp only [Table.observe_node, hnode m hm] at hk hlt ⊢
      exact Table.mem_observe_deposits _ _ (inv.ofKey m k hk hlt)

omit [DecidableEq κ] in
theorem SameKeyValues.step {ch : Choice κ ν} (hv : SameKeyValues s) (inv : BufferInv s)
    (hsh : ∀ i, (s.client i).Shaped) (hg : KeyInCharge hash s (i, ch)) (h : Moves hash s i t) :
    SameKeyValues t := by
  intro j hrun hj
  by_cases hji : j = i
  · subst hji
    cases h with
    | begins hpc hb =>
      cases hb with
      | insert key v isLoad => simp
      | search key => simp at hj
    | @steps hpc n' c' o hs =>
      simp only [Table.observe_client, Function.update_self] at hj ⊢
      have hside : (s.client j).side = .write := hs.side_eq ▸ hj
      obtain ⟨ha, hval | ⟨hget, hval⟩⟩ := hs.val_eq (hsh j) hside
      · rw [ha, hval, hs.key_eq]
        exact (hv j hpc hside).imp_right (Table.mem_observe_deposits _ _)
      · obtain ⟨hk, hlt⟩ := hg.2 hget
        rw [hval, hs.key_eq]
        exact .inr (Table.mem_observe_deposits _ _ (inv.ofKey _ _ hk hlt))
  · rw [h.client_ne hji] at hrun hj ⊢
    refine (hv j hrun hj).imp_right fun hd => ?_
    cases h with
    | begins => exact hd
    | steps => exact Table.mem_observe_deposits _ _ hd

/-- In runs where every store and copy of the combining buffer finds its key in
charge, no insert ever carries a value deposited for another key. -/
theorem sameKeyValues_of_keyInCharge (h : (system ι ν hash).Reach (KeyInCharge hash) s) :
    SameKeyValues s := by
  refine (h.invariant (P := fun s => BufferInv s ∧ SameKeyValues s) ?_ ?_).2
  · intro s hs
    refine ⟨⟨fun m => by simp [(hs.2.1 m).2.2.2.1], fun m k hk => ?_⟩,
      fun i hi => absurd (hs.2.2.1 i) hi⟩
    simp [(hs.2.1 m).1] at hk
  · intro s a t hr ⟨inv, hv⟩ hg ht
    exact ⟨inv.step hg (next_moves ht),
      hv.step inv (shaped_of_reach hr) hg (next_moves ht)⟩

open scoped Transition.Numbered

/-- Two inserts of one key: the first takes the lock, the second deposits, and the first
carries the second's value. -/
def combiningRun : List (Fin 3 × Choice (Key keyLen) Value) :=
  List.flatten [acts 0 [.beginInsert (int2key _ 7) 1 false], goes 0 8,
    acts 1 [.beginInsert (int2key _ 7) 2 false], goes 1 2, acts 0 [.noLeaf, .go, .go]]

theorem combined_value_of_own_key :
    (system (Fin 3) Value fun _ : Key keyLen => 0).Ends (Table.zero (Fin 3) (int2key _ 0) 0) combiningRun
      fun t => (t.client 0).val = 2 ∧ (t.client 0).arg = 1 ∧ SameKeyValues t := by
  have hm : (system (Fin 3) Value fun _ : Key keyLen => 0).Meets (KeyInCharge fun _ => 0)
      (Table.zero (Fin 3) (int2key _ 0) 0) combiningRun := by decide +kernel
  have he : (system (Fin 3) Value fun _ : Key keyLen => 0).Ends (Table.zero (Fin 3) (int2key _ 0) 0)
      combiningRun fun t => (t.client 0).val = 2 ∧ (t.client 0).arg = 1 := by decide +kernel
  obtain ⟨t, ht, hv, ha⟩ := he
  exact ⟨t, ht, hv, ha,
    sameKeyValues_of_keyInCharge (.run (.init (Table.zero_initial _ _)) hm ht)⟩

/-- The first client passes the key check and pauses before its store. The third ends the
epoch of that key, the second opens another key and takes the lock; the late store of the
first client is then what the second one copies. -/
def lateStoreRun : List (Fin 3 × Choice (Key keyLen) Value) :=
  List.flatten [acts 2 [.beginInsert (int2key _ 7) 9 false, .go],
    acts 0 [.beginInsert (int2key _ 7) 1 false, .go],
    goes 2 7, acts 2 [.noLeaf, .go, .go, .casOk], goes 2 21,
    acts 1 [.beginInsert (int2key _ 8) 2 false], goes 1 8, acts 1 [.noLeaf, .go], goes 0 1, goes 1 1]

theorem combined_value_of_other_key :
    Initial (Table.zero (Fin 3) (int2key keyLen 0) (0 : Value)) ∧
    (system (Fin 3) Value fun _ : Key keyLen => 0).Ends (Table.zero (Fin 3) (int2key _ 0) 0) lateStoreRun
      fun t => (t.client 1).key = int2key _ 8 ∧ (t.client 1).val = 1 ∧ (t.client 1).pc = .placeLeaf ∧
        ¬ SameKeyValues t :=
  ⟨Table.zero_initial _ _, by decide +kernel⟩

end SmartTree.LocalLock
