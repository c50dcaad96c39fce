import SmartTree.Hocl.Chain

/-! Handover of locks on the chip: a client works on an address only while its compute node
holds the remote lock of it, acquires and unlocks match, and a local lock that nobody
wants keeps no remote lock. -/
namespace SmartTree.Hocl
variable {α μ ι : Type*} [DecidableEq α] [DecidableEq μ]

/-- Acquires of a compute node exceed its unlocks by one exactly while it holds the lock. -/
theorem Matched.count_eq {log : List (LockEvent μ α)} (h : Matched log) (m : μ) (a : α) :
    log.count (.acquired m a) = log.count (.unlocked m a) + if holder log a = some m then 1 else 0 := by
  induction log with
  | nil => rfl
  | cons e log ih =>
    cases e with
    | acquired m' b =>
      obtain ⟨hfree, h⟩ := h
      have ih := ih h
      by_cases hb : b = a
      · subst hb
        by_cases hm : m' = m <;> simp_all [holder]
      · simpa [holder, hb] using ih
    | unlocked m' b =>
      obtain ⟨hheld, h⟩ := h
      have ih := ih h
      by_cases hb : b = a
      · subst hb
        by_cases hm : m' = m <;> simp_all [holder]
      · simpa [holder, hb] using ih

/-- Locks are held where they are used, balanced, and given back. -/
structure Balanced (home : ι → μ) (hash : α → ℕ) (s : Cluster μ ι α) (log : List (LockEvent μ α)) :
    Prop where
  inside : ∀ i, (s.client i).critical = true →
    holder log (s.client i).addr = some (home i) ∧ s.lock (s.client i).addr = true
  matched : Matched log
  counts : ∀ m a, log.count (.acquired m a) =
    log.count (.unlocked m a) + if holder log a = some m then 1 else 0
  quiet : ∀ m k, (∀ i, ¬ InQueue home hash s m k i) → ∀ a, hash a = k → holder log a ≠ some m

section inv
variable {home : ι → μ} {hash : α → ℕ} {s : Cluster μ ι α} {log : List (LockEvent μ α)}

omit [DecidableEq α] in
theorem Client.served_of_critical {c : Client α} (h : c.critical = true) : c.served = true := by
  cases hp : c.pc <;> simp_all [Client.critical, Client.served]

omit [DecidableEq μ] in
theorem ChainInv.inside (inv : ChainInv home hash s log) {i : ι} (hi : (s.client i).critical = true) :
    holder log (s.client i).addr = some (home i) ∧ s.lock (s.client i).addr = true := by
  have hh := (inv.served i (Client.served_of_critical hi)).2
  have hold : holder log (s.client i).addr = some (home i) := by
    refine (hh _ rfl).mpr ?_
    cases hp : (s.client i).pc <;> simp_all [Client.critical, LockNode.held]
    split <;> simp
  exact ⟨hold, by rw [inv.bits, hold]; rfl⟩

omit [DecidableEq μ] in
theorem ChainInv.quiet (inv : ChainInv home hash s log) {m : μ} {k : ℕ}
    (hn : ∀ i, ¬ InQueue home hash s m k i) {a : α} (ha : hash a = k) : holder log a ≠ some m := by
  obtain ⟨hr, hkept⟩ := inv.rest m k fun i hi => absurd hi (hn i)
  rw [Ne, hkept a ha]
  -- a chain that goes on would have a next client
  have hf : (s.node m k).handover = false := by
    by_contra hf
    rw [Bool.not_eq_false] at hf
    obtain ⟨i, hi, -⟩ := (inv.queue m k).1.held _ le_rfl (hr hf).2
    exact hn i hi
  simp [LockNode.kept, hf]

theorem ChainInv.balanced (inv : ChainInv home hash s log) : Balanced home hash s log where
  inside _ hi := inv.inside hi
  matched := inv.matched
  counts := inv.matched.count_eq
  quiet _ _ hn _ ha := inv.quiet hn ha

/-- With at most 255 clients on a compute node its tickets always fit. -/
theorem ChainInv.ticket_lt [Fintype ι] (inv : ChainInv home hash s log)
    (hcard : ∀ m, (Finset.univ.filter fun i => home i = m).card ≤ 255) (m : μ) (k : ℕ) :
    (s.node m k).ticket < (s.node m k).current + 256 := by
  have := (inv.queue m k).1.ticket_le (S := Finset.univ.filter fun i => home i = m) fun i hi => by
    simp [hi.1]
  have := hcard m
  simp only [queueView] at *
  omega

end inv

def Pc.writesBack : Pc → Bool
  | .eTestHand | .eEndAddr | .eUnlockUnique | .eKeepAddr | .eWriteUnlock | .eWrite => true
  | _ => false

omit [DecidableEq α] in
theorem Step.onChip {lock : α → Bool} {n n' : LockNode α} {c c' : Client α} {e : Effect α}
    (h : Step .onChip lock n c n' c' e) (hc : c.pc.writesBack = false) : c'.pc.writesBack = false := by
  cases h <;> simp_all [Pc.writesBack, Build.entry]

section runs
variable [DecidableEq ι] {home : ι → μ} {hash : α → ℕ}

/-- Handover of locks on the chip is balanced in every run of at most 255 clients a node. -/
theorem balanced_of_reachable [Fintype ι]
    (hcard : ∀ m, (Finset.univ.filter fun i => home i = m).card ≤ 255)
    {p : Cluster μ ι α × List (LockEvent μ α)}
    (h : ((Cluster.system .onChip home hash).logged (lockEvent .onChip home hash)).Reachable p) :
    Balanced home hash p.1 p.2 := by
  suffices ChainInv home hash p.1 p.2 ∧ ∀ i, (p.1.client i).pc.writesBack = false from this.1.balanced
  refine h.invariant (P := fun p => ChainInv home hash p.1 p.2 ∧
    ∀ i, (p.1.client i).pc.writesBack = false) ?_ ?_
  · rintro ⟨s, log⟩ ⟨hs, rfl⟩
    exact ⟨.initial hs, fun i => by rw [show (s.client i).pc = .idle from hs.2.2 i]; rfl⟩
  · rintro p a ⟨t, log⟩ _ ih _ hn
    obtain ⟨hn, rfl⟩ := Transition.System.logged_next hn
    obtain ⟨e, hm, he⟩ := next_moves hn
    rw [he]
    refine ⟨ih.1.step hm (fun _ => ih.1.ticket_lt hcard _ _) (fun hp => ?_), fun i => ?_⟩
    · have := ih.2 a.1
      simp [hp, Pc.writesBack] at this
    · by_cases hi : i = a.1
      · subst hi
        cases hm with
        | begins => simp [Client.start, Pc.writesBack]
        | steps hst => simpa using hst.onChip (ih.2 a.1)
      · rw [hm.client_ne hi]
        exact ih.2 i

end runs

def goes (i : ι) (count : ℕ) : List (ι × Choice α) := List.replicate count (i, .go)

def Cluster.zero (μ ι : Type*) (a : α) : Cluster μ ι α where
  node := fun _ _ => ⟨0, 0, false, a, 0⟩
  lock := fun _ => false
  client := fun _ => ⟨.idle, a, 0, 0, 0, false⟩

omit [DecidableEq α] [DecidableEq μ] in
theorem Cluster.zero_initial (a : α) : (Cluster.zero μ ι a).Initial :=
  ⟨fun _ _ => ⟨rfl, rfl, rfl, rfl⟩, fun _ => rfl, fun _ => rfl⟩

open scoped Transition.Numbered

/-- Clients 0 and 1 of one compute node on addresses 0 and 1 of one lock node: client 1
queues up behind client 0, finds its address in conflict and locks it as well. -/
def conflictRun : List (Fin 2 × Choice ℕ) :=
  (0, .begin 0) :: goes 0 6 ++ (1, .begin 1) :: goes 1 1 ++ goes 0 9 ++ goes 1 5

theorem balanced_in_conflict :
    ((Cluster.system .onChip (fun _ : Fin 2 => ()) (fun _ : ℕ => 0)).logged
      (lockEvent .onChip (fun _ => ()) (fun _ => 0))).Ends (Cluster.zero Unit (Fin 2) 0, []) conflictRun
        fun p => p.1.lock 0 = true ∧ (p.1.client 1).critical = true ∧
          Balanced (fun _ => ()) (fun _ => 0) p.1 p.2 := by
  have he : ((Cluster.system .onChip (fun _ : Fin 2 => ()) (fun _ : ℕ => 0)).logged
      (lockEvent .onChip (fun _ => ()) (fun _ => 0))).Ends (Cluster.zero Unit (Fin 2) 0, []) conflictRun
        fun p => p.1.lock 0 = true ∧ (p.1.client 1).critical = true := by
    decide +kernel
  obtain ⟨p, hp, hl, hc⟩ := he
  refine ⟨p, hp, hl, hc, balanced_of_reachable (by decide) (Transition.System.Reachable.run ?_ hp)⟩
  exact .init ⟨Cluster.zero_initial 0, rfl⟩

end SmartTree.Hocl
