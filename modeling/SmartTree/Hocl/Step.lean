import SmartTree.Hocl.Lock

/-! The steps of a client case by case, the ticket queues, and what a step leaves alone. -/
namespace SmartTree.Hocl
variable {α μ ι : Type*} [DecidableEq α]

def Build.entry : Build → Pc
  | .onChip => .rTestAddr
  | .embedded => .eTestHand

/-- The step function case by case, with the branch each case took. -/
inductive Step (build : Build) (lock : α → Bool) (n : LockNode α) (c : Client α) :
    LockNode α → Client α → Effect α → Prop where
  | takeTicket (hpc : c.pc = .takeTicket) :
      Step build lock n c { n with ticket := n.ticket + 1 } { c with pc := .wait, ticket := n.ticket } .silent
  | enter (hpc : c.pc = .wait) (ht : c.ticket % 256 = n.current % 256) :
      Step build lock n c n { c with pc := .testHand } .silent
  | spin (hpc : c.pc = .wait) : Step build lock n c n { c with pc := .wait } .silent
  | chained (hpc : c.pc = .testHand) (hh : n.handover = true) :
      Step build lock n c n { c with pc := .testAgain } .silent
  | first (hpc : c.pc = .testHand) (hh : n.handover = false) :
      Step build lock n c n { c with pc := .setAddr } .silent
  | setAddr (hpc : c.pc = .setAddr) :
      Step build lock n c { n with uniqueAddr := c.addr } { c with pc := .testAgain } .silent
  | chainedAgain (hpc : c.pc = .testAgain) (hh : n.handover = true) :
      Step build lock n c n { c with pc := .testAddr } .silent
  | winner (hpc : c.pc = .testAgain) (hh : n.handover = false) :
      Step build lock n c n { c with pc := .casLock } .silent
  | handed (hpc : c.pc = .testAddr) (ha : n.uniqueAddr = c.addr) :
      Step build lock n c n { c with pc := .writeLeaf } .silent
  | conflict (hpc : c.pc = .testAddr) (ha : n.uniqueAddr ≠ c.addr) :
      Step build lock n c n { c with pc := .casLock } .silent
  | retry (hpc : c.pc = .casLock) (hl : lock c.addr = true) : Step build lock n c n c .silent
  | locks (hpc : c.pc = .casLock) (hl : lock c.addr = false) :
      Step build lock n c n { c with pc := .writeLeaf } (.acquire c.addr)
  | writeLeaf (hpc : c.pc = .writeLeaf) : Step build lock n c n { c with pc := .rTicket } .silent
  | rTicket (hpc : c.pc = .rTicket) :
      Step build lock n c n { c with pc := .rCurrent, relTicket := n.ticket } .silent
  | rCurrent (hpc : c.pc = .rCurrent) :
      Step build lock n c n { c with pc := .rStoreHand, relCurrent := n.current } .silent
  | rStoreHand (hpc : c.pc = .rStoreHand) :
      Step build lock n c
        { n with handover := decide (c.relTicket % 256 ≠ (c.relCurrent + 1) % 256) }
        { c with pc := .rCount } .silent
  | countMax (hpc : c.pc = .rCount) (hm : maxHoclHandover < n.handoverCnt) :
      Step build lock n c { n with handoverCnt := n.handoverCnt + 1 } { c with pc := .rCut } .silent
  | count (hpc : c.pc = .rCount) :
      Step build lock n c { n with handoverCnt := n.handoverCnt + 1 } { c with pc := .rTestZero } .silent
  | rCut (hpc : c.pc = .rCut) :
      Step build lock n c { n with handover := false } { c with pc := .rTestZero } .silent
  | keepCount (hpc : c.pc = .rTestZero) (hh : n.handover = true) :
      Step build lock n c n { c with pc := build.entry } .silent
  | dropCount (hpc : c.pc = .rTestZero) (hh : n.handover = false) :
      Step build lock n c n { c with pc := .rZero } .silent
  | rZero (hpc : c.pc = .rZero) :
      Step build lock n c { n with handoverCnt := 0 } { c with pc := build.entry } .silent
  | sameAddr (hpc : c.pc = .rTestAddr) (ha : n.uniqueAddr = c.addr) :
      Step build lock n c n { c with pc := .rTestHand } .silent
  | otherAddr (hpc : c.pc = .rTestAddr) (ha : n.uniqueAddr ≠ c.addr) :
      Step build lock n c n { c with pc := .unlockOwn } .silent
  | unlockOwn (hpc : c.pc = .unlockOwn) :
      Step build lock n c n { c with pc := .rTestHand } (.unlock c.addr)
  | chainGoesOn (hpc : c.pc = .rTestHand) (hh : n.handover = true) :
      Step build lock n c n { c with pc := .rBump } .silent
  | chainEnds (hpc : c.pc = .rTestHand) (hh : n.handover = false) :
      Step build lock n c n { c with pc := .unlockUnique } .silent
  | unlockUnique (hpc : c.pc = .unlockUnique) :
      Step build lock n c n { c with pc := .rBump } (.unlock n.uniqueAddr)
  | eGoesOn (hpc : c.pc = .eTestHand) (hh : n.handover = true) :
      Step build lock n c n { c with pc := .eKeepAddr } .silent
  | eEnds (hpc : c.pc = .eTestHand) (hh : n.handover = false) :
      Step build lock n c n { c with pc := .eEndAddr } .silent
  | eEndSame (hpc : c.pc = .eEndAddr) (ha : n.uniqueAddr = c.addr) :
      Step build lock n c n { c with pc := .eWriteUnlock } .silent
  | eEndOther (hpc : c.pc = .eEndAddr) (ha : n.uniqueAddr ≠ c.addr) :
      Step build lock n c n { c with pc := .eUnlockUnique } .silent
  | eUnlockUnique (hpc : c.pc = .eUnlockUnique) :
      Step build lock n c n { c with pc := .eWriteUnlock } (.unlock n.uniqueAddr)
  | eKeepSame (hpc : c.pc = .eKeepAddr) (ha : n.uniqueAddr = c.addr) :
      Step build lock n c n { c with pc := .eWrite } .silent
  | eKeepOther (hpc : c.pc = .eKeepAddr) (ha : n.uniqueAddr ≠ c.addr) :
      Step build lock n c n { c with pc := .eWriteUnlock } .silent
  | eWriteUnlock (hpc : c.pc = .eWriteUnlock) :
      Step build lock n c n { c with pc := .rBump, image := false } (.unlock c.addr)
  | eWrite (hpc : c.pc = .eWrite) :
      Step build lock n c n { c with pc := .rBump } (.write c.addr c.image)
  | rBump (hpc : c.pc = .rBump) :
      Step build lock n c { n with current := n.current + 1 } { c with pc := .idle } .silent

theorem act_step {build : Build} {lock : α → Bool} {n n' : LockNode α} {c c' : Client α} {e : Effect α}
    (h : act build lock n c = some (n', c', e)) : Step build lock n c n' c' e := by
  have hentry : (if build = .embedded then Pc.eTestHand else .rTestAddr) = build.entry := by
    cases build <;> rfl
  unfold act at h
  split at h <;> rename_i hpc
  · cases h
  · cases h
    exact .takeTicket hpc
  · cases h
    split
    · exact .enter hpc ‹_›
    · exact .spin hpc
  · cases h
    split
    · exact .chained hpc ‹_›
    · exact .first hpc (Bool.eq_false_iff.mpr ‹_›)
  · cases h
    exact .setAddr hpc
  · cases h
    split
    · exact .chainedAgain hpc ‹_›
    · exact .winner hpc (Bool.eq_false_iff.mpr ‹_›)
  · cases h
    split
    · exact .handed hpc ‹_›
    · exact .conflict hpc ‹_›
  · split at h
    · cases h
      exact .retry hpc ‹_›
    · cases h
      exact .locks hpc (Bool.eq_false_iff.mpr ‹_›)
  · cases h
    exact .writeLeaf hpc
  · cases h
    exact .rTicket hpc
  · cases h
    exact .rCurrent hpc
  · cases h
    exact .rStoreHand hpc
  · cases h
    split
    · exact .countMax hpc ‹_›
    · exact .count hpc
  · cases h
    exact .rCut hpc
  · rw [hentry] at h
    cases h
    split
    · exact .keepCount hpc ‹_›
    · exact .dropCount hpc (Bool.eq_false_iff.mpr ‹_›)
  · rw [hentry] at h
    cases h
    exact .rZero hpc
  · cases h
    split
    · exact .sameAddr hpc ‹_›
    · exact .otherAddr hpc ‹_›
  · cases h
    exact .unlockOwn hpc
  · cases h
    split
    · exact .chainGoesOn hpc ‹_›
    · exact .chainEnds hpc (Bool.eq_false_iff.mpr ‹_›)
  · cases h
    exact .unlockUnique hpc
  · cases h
    split
    · exact .eGoesOn hpc ‹_›
    · exact .eEnds hpc (Bool.eq_false_iff.mpr ‹_›)
  · cases h
    split
    · exact .eEndSame hpc ‹_›
    · exact .eEndOther hpc ‹_›
  · cases h
    exact .eUnlockUnique hpc
  · cases h
    split
    · exact .eKeepSame hpc ‹_›
    · exact .eKeepOther hpc ‹_›
  · cases h
    exact .eWriteUnlock hpc
  · cases h
    exact .eWrite hpc
  · cases h
    exact .rBump hpc

section step
omit [DecidableEq α]
variable {build : Build} {lock : α → Bool} {n n' : LockNode α} {c c' : Client α} {e : Effect α}

theorem Step.addr_eq (h : Step build lock n c n' c' e) : c'.addr = c.addr := by
  cases h <;> rfl

inductive QueueEffect (n n' : LockNode α) (c c' : Client α) : Prop where
  | takes (hpc : c.pc = .takeTicket) (h₁ : c.ticketed = false) (h₂ : c'.ticketed = true)
      (h₃ : c'.served = false) (h₄ : c'.ticket = n.ticket) (h₅ : n'.ticket = n.ticket + 1)
      (h₆ : n'.current = n.current)
  | enters (h₁ : c.ticketed = true) (h₂ : c.served = false) (h₃ : c'.served = true)
      (h₄ : c.ticket % 256 = n.current % 256) (h₅ : c'.ticket = c.ticket) (h₆ : n' = n)
  | leaves (h₁ : c.served = true) (h₂ : c'.ticketed = false) (h₃ : n'.ticket = n.ticket)
      (h₄ : n'.current = n.current + 1)
  | stays (h₁ : c'.ticketed = c.ticketed) (h₂ : c'.served = c.served) (h₃ : c'.ticket = c.ticket)
      (h₄ : n'.ticket = n.ticket) (h₅ : n'.current = n.current)

theorem Step.queueEffect (h : Step build lock n c n' c' e) : QueueEffect n n' c c' := by
  cases h with
  | takeTicket hpc => apply QueueEffect.takes <;> simp [Client.ticketed, Client.served, hpc]
  | enter hpc ht => apply QueueEffect.enters <;> simp [Client.ticketed, Client.served, hpc, ht]
  | rBump hpc => apply QueueEffect.leaves <;> simp [Client.ticketed, Client.served, hpc]
  | keepCount hpc | rZero hpc =>
    cases build <;> apply QueueEffect.stays <;> simp [Client.ticketed, Client.served, Build.entry, hpc]
  | _ => apply QueueEffect.stays <;> simp [Client.ticketed, Client.served, *]

end step

section moves
variable [DecidableEq μ] [DecidableEq ι] {build : Build} {home : ι → μ} {hash : α → ℕ}
  {s t : Cluster μ ι α} {i : ι}

/-- One step of the cluster by a client: it starts on an address, or moves on its lock node. -/
inductive Moves (build : Build) (home : ι → μ) (hash : α → ℕ) (s : Cluster μ ι α) (i : ι) :
    Cluster μ ι α → Effect α → Prop where
  | begins (hpc : (s.client i).pc = .idle) (addr : α) :
      Moves build home hash s i
        { s with client := Function.update s.client i ((s.client i).start addr (s.lock addr)) } .silent
  | steps {n' : LockNode α} {c' : Client α} {e : Effect α}
      (hs : Step build s.lock (s.node (home i) (hash (s.client i).addr)) (s.client i) n' c' e) :
      Moves build home hash s i
        { node := Function.update s.node (home i)
            (Function.update (s.node (home i)) (hash (s.client i).addr) n')
          lock := e.apply s.lock
          client := Function.update s.client i c' } e

theorem next_moves {a : ι × Choice α} (h : Cluster.next build home hash s a = some t) :
    ∃ e, Moves build home hash s a.1 t e ∧ lockEvent build home hash s a = e.event (home a.1) := by
  obtain ⟨i, ch⟩ := a
  cases ch with
  | begin addr =>
    simp only [Cluster.next] at h
    split at h
    · obtain rfl := Option.some_inj.mp h
      exact ⟨.silent, .begins ‹_› addr, rfl⟩
    · cases h
  | go =>
    obtain ⟨⟨n', c', e⟩, ha, rfl⟩ := Option.map_eq_some_iff.mp h
    exact ⟨e, .steps (act_step ha), by simp [lockEvent, ha]⟩

theorem Moves.client_ne {e : Effect α} (h : Moves build home hash s i t e) {j : ι} (hj : j ≠ i) :
    t.client j = s.client j := by
  cases h <;> simp [Function.update_of_ne hj]

theorem Moves.lock_eq {e : Effect α} (h : Moves build home hash s i t e) : t.lock = e.apply s.lock := by
  cases h <;> rfl

end moves

def InQueue (home : ι → μ) (hash : α → ℕ) (s : Cluster μ ι α) (m : μ) (h : ℕ) (i : ι) : Prop :=
  home i = m ∧ hash (s.client i).addr = h ∧ (s.client i).ticketed = true

def queueView (home : ι → μ) (hash : α → ℕ) (s : Cluster μ ι α) (m : μ) (h : ℕ) : TicketLock.View ι where
  current := (s.node m h).current
  ticket := (s.node m h).ticket
  holds := InQueue home hash s m h
  number i := (s.client i).ticket
  served i := (s.client i).served = true

def QueueOk (home : ι → μ) (hash : α → ℕ) (s : Cluster μ ι α) (m : μ) (h : ℕ) : Prop :=
  TicketLock.Inv (queueView home hash s m h) ∧ (s.node m h).ticket ≤ (s.node m h).current + 256

/-- A ticket is taken only while fewer than 256 are outstanding at the lock node. -/
def TicketsFit (home : ι → μ) (hash : α → ℕ) (s : Cluster μ ι α) (a : ι × Choice α) : Prop :=
  let n := s.node (home a.1) (hash (s.client a.1).addr)
  (s.client a.1).pc = .takeTicket → n.ticket < n.current + 256

instance (home : ι → μ) (hash : α → ℕ) (s : Cluster μ ι α) (a : ι × Choice α) :
    Decidable (TicketsFit home hash s a) :=
  inferInstanceAs (Decidable (_ → _))

omit [DecidableEq α] in
theorem Client.ticketed_of_served {c : Client α} (h : c.served = true) : c.ticketed = true := by
  simp [Client.ticketed, h]

section queue
variable [DecidableEq μ] [DecidableEq ι] {build : Build} {home : ι → μ} {hash : α → ℕ}
  {s t : Cluster μ ι α} {i : ι} {e : Effect α}

/-- What a step means for one lock node: an effect of one of its clients, or nothing. -/
theorem Moves.queue (h : Moves build home hash s i t e) (m : μ) (k : ℕ) :
    (home i = m ∧ hash (s.client i).addr = k ∧ hash (t.client i).addr = k ∧
      QueueEffect (s.node m k) (t.node m k) (s.client i) (t.client i)) ∨
    (¬ InQueue home hash s m k i ∧ ¬ InQueue home hash t m k i ∧ t.node m k = s.node m k) := by
  cases h with
  | begins hpc addr =>
    refine .inr ⟨?_, ?_, rfl⟩
    · simp [InQueue, Client.ticketed, Client.served, hpc]
    · simp [InQueue, Client.ticketed, Client.served, Client.start]
  | @steps n' c' e hs =>
    by_cases hm : home i = m
    · subst hm
      by_cases hk : hash (s.client i).addr = k
      · subst hk
        exact .inl ⟨rfl, rfl, by simp [hs.addr_eq], by simpa using hs.queueEffect⟩
      · exact .inr ⟨fun hq => hk hq.2.1, fun hq => hk (by simpa [hs.addr_eq] using hq.2.1), by
          simp [Function.update_of_ne (Ne.symm hk)]⟩
    · exact .inr ⟨fun hq => hm hq.1, fun hq => hm hq.1, by simp [Function.update_of_ne (Ne.symm hm)]⟩

theorem Moves.inQueue_ne (h : Moves build home hash s i t e) {j : ι} (hj : j ≠ i) {m : μ} {k : ℕ} :
    InQueue home hash t m k j ↔ InQueue home hash s m k j := by
  simp [InQueue, h.client_ne hj]

theorem QueueOk.step {m : μ} {k : ℕ} (inv : QueueOk home hash s m k)
    (h : Moves build home hash s i t e)
    (hfit : (s.client i).pc = .takeTicket →
      (s.node (home i) (hash (s.client i).addr)).ticket <
        (s.node (home i) (hash (s.client i).addr)).current + 256) :
    QueueOk home hash t m k := by
  have hf : TicketLock.Frame (queueView home hash s m k) (queueView home hash t m k) i := fun j hj => by
    simp [queueView, h.inQueue_ne hj, h.client_ne hj]
  obtain ⟨rfl, rfl, hk', he⟩ | ⟨hs, ht, hn⟩ := h.queue m k
  · refine ⟨inv.1.step inv.2 ?_ hf, ?_⟩
    · cases he with
      | takes hpc h₁ h₂ h₃ h₄ h₅ h₆ =>
        exact .takes (by simp [queueView, InQueue, h₁]) ⟨rfl, hk', h₂⟩ (by simp [queueView, h₃]) h₄ h₅ h₆
      | enters h₁ h₂ h₃ h₄ h₅ h₆ =>
        exact .enters ⟨rfl, rfl, h₁⟩ ⟨rfl, hk', Client.ticketed_of_served h₃⟩ h₄ h₅
          (congrArg LockNode.ticket h₆) (congrArg LockNode.current h₆)
      | leaves h₁ h₂ h₃ h₄ =>
        exact .leaves ⟨rfl, rfl, Client.ticketed_of_served h₁⟩ h₁ (by simp [queueView, InQueue, h₂]) h₃ h₄
      | stays h₁ h₂ h₃ h₄ h₅ =>
        exact .stays (by simp [queueView, InQueue, hk', h₁]) (fun _ hc => h₂.symm.trans hc)
          (fun _ => h₃) h₄ h₅
    · have := inv.2
      cases he with
      | takes hpc h₁ h₂ h₃ h₄ h₅ h₆ =>
        have := hfit hpc
        omega
      | enters h₁ h₂ h₃ h₄ h₅ h₆ => rwa [h₆]
      | leaves h₁ h₂ h₃ h₄ => omega
      | stays h₁ h₂ h₃ h₄ h₅ => rwa [h₄, h₅]
  · refine ⟨inv.1.step inv.2 (.stays (iff_of_false ht hs) (fun hi => absurd hi hs)
      (fun hi => absurd hi hs) ?_ ?_) hf, ?_⟩
    · exact congrArg LockNode.ticket hn
    · exact congrArg LockNode.current hn
    · rw [hn]
      exact inv.2

omit [DecidableEq α] [DecidableEq μ] [DecidableEq ι] in
theorem QueueOk.initial (h : s.Initial) (m : μ) (k : ℕ) : QueueOk home hash s m k := by
  obtain ⟨hc, ht, -⟩ := h.1 m k
  have hn (i : ι) : ¬ InQueue home hash s m k i := by
    simp [InQueue, Client.ticketed, Client.served, h.2.2 i]
  refine ⟨⟨fun i hi => absurd hi (hn i), fun i hi => absurd hi (hn i), fun i _ hi => absurd hi (hn i),
    fun x _ hx => ?_, ?_⟩, ?_⟩
  · simp [queueView, ht] at hx
  · simp [queueView, hc, ht]
  · simp [ht]

end queue

end SmartTree.Hocl
