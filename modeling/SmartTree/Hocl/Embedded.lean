import SmartTree.Hocl.Balance

/-! Handover of locks that are embedded in the leaves. A client that hands the lock over
writes its image of the leaf back, lock bit included, and that image was read before the
lock was taken; only an image read while the bit was set keeps the lock. -/
namespace SmartTree.Hocl
variable {α μ ι : Type*} [DecidableEq α] [DecidableEq μ] [DecidableEq ι]

/-- While a compute node has locked a leaf and not unlocked it again, the bit in the leaf is
set and nobody else is in the critical section of the leaf. -/
def KeepsLock (home : ι → μ) (s : Cluster μ ι α) (log : List (LockEvent μ α)) : Prop :=
  ∀ a m, holder log a = some m → s.lock a = true ∧
    ∀ i, (s.client i).critical = true → (s.client i).addr = a → home i = m

omit [DecidableEq μ] [DecidableEq ι] in
theorem ChainInv.keepsLock {home : ι → μ} {hash : α → ℕ} {s : Cluster μ ι α}
    {log : List (LockEvent μ α)} (inv : ChainInv home hash s log) : KeepsLock home s log := by
  intro a m hm
  refine ⟨by rw [inv.bits, hm]; rfl, ?_⟩
  rintro i hi rfl
  exact Option.some_inj.mp ((inv.inside hi).1.symm.trans hm)

/-- Tickets fit, and a leaf is written back without unlocking only by a client that read it
with the lock bit set. -/
def ImageLocked (home : ι → μ) (hash : α → ℕ) (s : Cluster μ ι α) (a : ι × Choice α) : Prop :=
  TicketsFit home hash s a ∧ ((s.client a.1).pc = .eWrite → (s.client a.1).image = true)

instance (home : ι → μ) (hash : α → ℕ) (s : Cluster μ ι α) (a : ι × Choice α) :
    Decidable (ImageLocked home hash s a) :=
  inferInstanceAs (Decidable (_ ∧ _))

/-- In every run that meets the condition, a leaf stays locked until its chain ends. -/
theorem keepsLock_of_imageLocked {home : ι → μ} {hash : α → ℕ}
    {p : Cluster μ ι α × List (LockEvent μ α)}
    (h : ((Cluster.system .embedded home hash).logged (lockEvent .embedded home hash)).Reach
      (fun p a => ImageLocked home hash p.1 a) p) : KeepsLock home p.1 p.2 := by
  suffices ChainInv home hash p.1 p.2 from this.keepsLock
  refine h.invariant (P := fun p => ChainInv home hash p.1 p.2) ?_ ?_
  · rintro ⟨s, log⟩ ⟨hs, rfl⟩
    exact .initial hs
  · rintro p a ⟨t, log⟩ _ ih hg hn
    obtain ⟨hn, rfl⟩ := Transition.System.logged_next hn
    obtain ⟨e, hm, he⟩ := next_moves hn
    rw [he]
    exact ih.step hm hg.1 hg.2

open scoped Transition.Numbered

def twoNodes (i : Fin 3) : Fin 2 := if i = 2 then 1 else 0

/-- Client 0 reads the leaf while client 2 has it locked, and later hands its own lock over. -/
def imageRun : List (Fin 3 × Choice ℕ) :=
  (2, .begin 0) :: goes 2 6 ++ (0, .begin 0) :: goes 2 11 ++ goes 0 6 ++ (1, .begin 0) :: goes 1 1 ++
    goes 0 9

theorem keepsLock_of_locked_image :
    ((Cluster.system .embedded twoNodes (fun _ : ℕ => 0)).logged
      (lockEvent .embedded twoNodes (fun _ => 0))).Ends (Cluster.zero (Fin 2) (Fin 3) 0, []) imageRun
        fun p => (p.1.client 0).pc = .rBump ∧ holder p.2 0 = some 0 ∧ KeepsLock twoNodes p.1 p.2 := by
  have hm : ((Cluster.system .embedded twoNodes (fun _ : ℕ => 0)).logged
      (lockEvent .embedded twoNodes (fun _ => 0))).Meets
        (fun p a => ImageLocked twoNodes (fun _ => 0) p.1 a) (Cluster.zero (Fin 2) (Fin 3) 0, [])
        imageRun := by
    decide +kernel
  have he : ((Cluster.system .embedded twoNodes (fun _ : ℕ => 0)).logged
      (lockEvent .embedded twoNodes (fun _ => 0))).Ends (Cluster.zero (Fin 2) (Fin 3) 0, []) imageRun
        fun p => (p.1.client 0).pc = .rBump ∧ holder p.2 0 = some 0 := by
    decide +kernel
  obtain ⟨p, hp, hpc, hh⟩ := he
  refine ⟨p, hp, hpc, hh, keepsLock_of_imageLocked (Transition.System.Reach.run ?_ hm hp)⟩
  exact .init ⟨Cluster.zero_initial 0, rfl⟩

/-- Client 0 reads the leaf before anyone locks it, and hands its lock over to client 1; the
write clears the bit, and client 2 locks the leaf as well. -/
def lostLockRun : List (Fin 3 × Choice ℕ) :=
  [(0, .begin 0), (1, .begin 0), (2, .begin 0)] ++ goes 0 6 ++ goes 1 1 ++ goes 0 10 ++ goes 1 4 ++
    goes 2 6

theorem two_nodes_in_one_leaf :
    ((Cluster.system .embedded twoNodes (fun _ : ℕ => 0)).logged
      (lockEvent .embedded twoNodes (fun _ => 0))).Ends (Cluster.zero (Fin 2) (Fin 3) 0, []) lostLockRun
        fun p => p.2 = [.acquired 1 0, .acquired 0 0] ∧ (p.1.client 1).critical = true ∧
          (p.1.client 2).critical = true ∧ ¬ KeepsLock twoNodes p.1 p.2 := by
  have he : ((Cluster.system .embedded twoNodes (fun _ : ℕ => 0)).logged
      (lockEvent .embedded twoNodes (fun _ => 0))).Ends (Cluster.zero (Fin 2) (Fin 3) 0, []) lostLockRun
        fun p => p.2 = [.acquired 1 0, .acquired 0 0] ∧ (p.1.client 1).critical = true ∧
          (p.1.client 2).critical = true ∧ (p.1.client 1).addr = 0 ∧ holder p.2 0 = some 1 := by
    decide +kernel
  obtain ⟨p, hp, hlog, h₁, h₂, ha, hh⟩ := he
  refine ⟨p, hp, hlog, h₁, h₂, fun h => ?_⟩
  exact absurd ((h 0 1 hh).2 1 h₁ ha) (by decide)

end SmartTree.Hocl
