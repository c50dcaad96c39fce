import SmartTree.Hocl.Step

/-! The handover chain. Which addresses a compute node holds through a local lock node is
read off the client being served there: the unique address while the chain goes on, and
the client's own address from its lock CAS to its unlock. -/
namespace SmartTree.Hocl
variable {α μ ι : Type*} [DecidableEq α]

/-- Every lock was free when it was acquired, and every unlock comes from its holder. -/
def Matched : List (LockEvent μ α) → Prop
  | [] => True
  | .acquired _ a :: log => holder log a = none ∧ Matched log
  | .unlocked m a :: log => holder log a = some m ∧ Matched log

/-- What is held between two clients: the unique address, if it is handed over. -/
def LockNode.kept (n : LockNode α) : List α := if n.handover then [n.uniqueAddr] else []

def LockNode.held (n : LockNode α) (c : Client α) : List α :=
  match c.pc with
  | .testHand | .setAddr | .testAgain | .testAddr | .casLock | .rBump => n.kept
  | .rTestHand | .unlockUnique => [n.uniqueAddr]
  | .eWriteUnlock => if n.handover then [n.uniqueAddr, c.addr] else [c.addr]
  | _ => [n.uniqueAddr, c.addr]

def Holds (hash : α → ℕ) (log : List (LockEvent μ α)) (m : μ) (k : ℕ) (as : List α) : Prop :=
  ∀ a, hash a = k → (holder log a = some m ↔ a ∈ as)

section holds
variable {hash : α → ℕ} {log : List (LockEvent μ α)} {m : μ} {k : ℕ} {as as' : List α}

theorem Holds.congr (h : Holds hash log m k as) (ha : ∀ a, a ∈ as' ↔ a ∈ as) :
    Holds hash log m k as' := fun a hk => (h a hk).trans (ha a).symm

theorem Holds.acquired (h : Holds hash log m k as) {x : α} (ha : ∀ a, a ∈ as' ↔ a ∈ as ∨ a = x) :
    Holds hash (.acquired m x :: log) m k as' := by
  intro a hk
  rw [holder, ha]
  by_cases hx : x = a
  · simp [hx]
  · simp [hx, Ne.symm hx, h a hk]

theorem Holds.unlocked (h : Holds hash log m k as) {x : α} (ha : ∀ a, a ∈ as' ↔ a ∈ as ∧ a ≠ x) :
    Holds hash (.unlocked m x :: log) m k as' := by
  intro a hk
  rw [holder, ha]
  by_cases hx : x = a
  · simp [hx]
  · simp [hx, Ne.symm hx, h a hk]

end holds

def Pc.placed : Pc → Bool
  | .idle | .takeTicket | .wait | .testHand | .setAddr => false
  | _ => true

def Pc.flagged : Pc → Bool
  | .rCount | .rCut | .rTestZero | .rZero | .rTestAddr | .unlockOwn | .rTestHand | .unlockUnique
  | .eTestHand | .eEndAddr | .eUnlockUnique | .eKeepAddr | .eWriteUnlock | .eWrite | .rBump => true
  | _ => false

structure ServedOk (hash : α → ℕ) (n : LockNode α) (c : Client α) : Prop where
  chained : c.pc = .testAddr ∨ c.pc = .eKeepAddr ∨ c.pc = .eWrite → n.handover = true
  ended : c.pc = .setAddr ∨ c.pc = .unlockUnique ∨ c.pc = .eEndAddr ∨ c.pc = .eUnlockUnique →
    n.handover = false
  mine : c.pc = .testAgain → n.handover = false → n.uniqueAddr = c.addr
  seeks : c.pc = .casLock → (n.handover = true ↔ n.uniqueAddr ≠ c.addr)
  same : c.pc = .eWrite → n.uniqueAddr = c.addr
  differs : c.pc = .unlockOwn ∨ c.pc = .eUnlockUnique ∨ c.pc = .eWriteUnlock ∧ n.handover = true →
    n.uniqueAddr ≠ c.addr
  place : c.pc.placed = true ∨ n.handover = true → hash n.uniqueAddr = hash c.addr
  ticket : c.pc = .rCurrent ∨ c.pc = .rStoreHand → n.current < c.relTicket ∧ c.relTicket ≤ n.ticket
  current : c.pc = .rStoreHand → c.relCurrent = n.current
  waited : c.pc.flagged = true → n.handover = true → n.current + 1 < n.ticket

section step
variable {build : Build} {lock : α → Bool} {n n' : LockNode α} {c c' : Client α} {e : Effect α}
  {hash : α → ℕ} {log : List (LockEvent μ α)} {m : μ}

omit [DecidableEq α] in
theorem ServedOk.step (h : ServedOk hash n c) (hst : Step build lock n c n' c' e)
    (hs : c.served = true) (hq : n.current < n.ticket) : ServedOk hash n' c' := by
  cases hst with
  | takeTicket hpc | enter hpc | spin hpc => simp [Client.served, hpc] at hs
  | chained hpc hh =>
    have hp := h.place (.inr hh)
    constructor <;> simp [hh, hp, Pc.flagged]
  | first hpc hh => constructor <;> simp [hh, Pc.placed, Pc.flagged]
  | setAddr hpc =>
    have hh := h.ended (.inl hpc)
    constructor <;> simp [hh, Pc.flagged]
  | chainedAgain hpc hh =>
    have hp := h.place (.inr hh)
    constructor <;> simp [hh, hp, Pc.flagged]
  | winner hpc hh =>
    have ha := h.mine hpc hh
    constructor <;> simp [hh, ha, Pc.flagged]
  | conflict hpc ha =>
    have hh := h.chained (.inl hpc)
    have hp := h.place (.inr hh)
    constructor <;> simp [hh, ha, hp, Pc.flagged]
  | retry hpc => exact h
  | handed hpc | locks hpc | writeLeaf hpc =>
    have hp := h.place (.inl (by simp [hpc, Pc.placed]))
    constructor <;> simp [hp, Pc.flagged]
  | rTicket hpc =>
    have hp := h.place (.inl (by simp [hpc, Pc.placed]))
    constructor <;> simp [hp, hq, Pc.flagged]
  | rCurrent hpc =>
    have hp := h.place (.inl (by simp [hpc, Pc.placed]))
    have ht := h.ticket (.inl hpc)
    constructor <;> simp [hp, ht, Pc.flagged]
  | rStoreHand hpc =>
    have hp := h.place (.inl (by simp [hpc, Pc.placed]))
    have ht := h.ticket (.inr hpc)
    have hc := h.current hpc
    constructor <;> simp [hp, hc]
    omega
  | rCut hpc =>
    have hp := h.place (.inl (by simp [hpc, Pc.placed]))
    constructor <;> simp [hp]
  | keepCount hpc hh =>
    have hp := h.place (.inr hh)
    have hw := h.waited (by simp [hpc, Pc.flagged]) hh
    cases build <;> constructor <;> simp [Build.entry, hh, hp, hw]
  | rZero hpc =>
    have hp := h.place (.inl (by simp [hpc, Pc.placed]))
    have hw := h.waited (by simp [hpc, Pc.flagged])
    cases build <;> constructor <;> simp +contextual [Build.entry, hp, hw]
  | countMax hpc | count hpc | unlockOwn hpc =>
    have hp := h.place (.inl (by simp [hpc, Pc.placed]))
    have hw := h.waited (by simp [hpc, Pc.flagged])
    constructor <;> simp +contextual [hp, hw]
  | sameAddr hpc ha | otherAddr hpc ha | eEndSame hpc ha | eKeepSame hpc ha | eKeepOther hpc ha =>
    have hp := h.place (.inl (by simp [hpc, Pc.placed]))
    have hw := h.waited (by simp [hpc, Pc.flagged])
    have hch := h.chained
    have hen := h.ended
    constructor <;> simp_all
  | eEndOther hpc ha =>
    have hp := h.place (.inl (by simp [hpc, Pc.placed]))
    have hh := h.ended (by simp [hpc])
    constructor <;> simp [hp, hh, ha]
  | dropCount hpc hh | chainGoesOn hpc hh | chainEnds hpc hh | eGoesOn hpc hh | eEnds hpc hh =>
    have hp := h.place (.inl (by simp [hpc, Pc.placed]))
    have hw := h.waited (by simp [hpc, Pc.flagged])
    constructor <;> simp_all
  | unlockUnique hpc | eUnlockUnique hpc =>
    have hp := h.place (.inl (by simp [hpc, Pc.placed]))
    have hh := h.ended (by simp [hpc])
    constructor <;> simp [hp, hh]
  | eWriteUnlock hpc | eWrite hpc =>
    have hp := h.place (.inl (by simp [hpc, Pc.placed]))
    have hw := h.waited (by simp [hpc, Pc.flagged])
    constructor <;> simp +contextual [hp, hw]
  | rBump hpc =>
    have hp := h.place
    constructor <;> simp_all [Pc.placed, Pc.flagged]

omit [DecidableEq α] in
/-- What is acquired is the client's own address, and it was free; what is unlocked is held;
what is written back without unlocking is the client's own address. -/
theorem Step.effect (hst : Step build lock n c n' c' e) (h : ServedOk hash n c) :
    match e with
    | .silent => True
    | .acquire x => x = c.addr ∧ lock x = false
    | .unlock x => x ∈ n.held c ∧ hash x = hash c.addr
    | .write x bit => x = c.addr ∧ x ∈ n.held c ∧ c.pc = .eWrite ∧ bit = c.image := by
  cases hst with
  | locks hpc hl => exact ⟨rfl, hl⟩
  | unlockOwn hpc | eWriteUnlock hpc =>
    refine ⟨?_, rfl⟩
    simp only [LockNode.held, hpc]
    first | simp | (split <;> simp)
  | unlockUnique hpc | eUnlockUnique hpc =>
    exact ⟨by simp [LockNode.held, hpc], h.place (.inl (by simp [hpc, Pc.placed]))⟩
  | eWrite hpc => exact ⟨rfl, by simp [LockNode.held, hpc], hpc, rfl⟩
  | _ => trivial

theorem Holds.step (hh : Holds hash log m (hash c.addr) (n.held c)) (h : ServedOk hash n c)
    (hst : Step build lock n c n' c' e) (hs : c.served = true) (hs' : c'.served = true) :
    Holds hash ((e.event m).toList ++ log) m (hash c.addr) (n'.held c') := by
  have hch := h.chained
  have hen := h.ended
  have hmi := h.mine
  have hse := h.seeks
  have hsa := h.same
  have hdi := h.differs
  cases hst with
  | locks hpc hl =>
    refine hh.acquired fun a => ?_
    have := hse hpc
    cases hn : n.handover <;> simp_all [LockNode.held, LockNode.kept]
  | unlockOwn hpc =>
    refine hh.unlocked fun a => ?_
    have := hdi (.inl hpc)
    simp only [LockNode.held, hpc]
    grind
  | unlockUnique hpc =>
    refine hh.unlocked fun a => ?_
    simp [LockNode.held, LockNode.kept, hpc, hen (.inr (.inl hpc))]
  | eUnlockUnique hpc =>
    refine hh.unlocked fun a => ?_
    have := hdi (.inr (.inl hpc))
    have hf := hen (.inr (.inr (.inr hpc)))
    simp only [LockNode.held, hpc, hf]
    grind
  | eWriteUnlock hpc =>
    refine hh.unlocked fun a => ?_
    simp only [LockNode.held, LockNode.kept, hpc]
    cases hn : n.handover
    · simp
    · have := hdi (.inr (.inr ⟨hpc, hn⟩))
      grind
  | keepCount hpc | rZero hpc =>
    refine hh.congr fun a => ?_
    cases build <;> simp [LockNode.held, Build.entry, hpc]
  | _ =>
    refine hh.congr fun a => ?_
    simp_all [LockNode.held, LockNode.kept, Client.served]

omit [DecidableEq α] in
/-- A client not being served changes nothing but the ticket counter. -/
theorem Step.unserved (hst : Step build lock n c n' c' e) (hs : c.served = false) :
    e = .silent ∧ n'.handover = n.handover ∧ n'.uniqueAddr = n.uniqueAddr ∧ n'.current = n.current ∧
      n.ticket ≤ n'.ticket ∧ (c'.served = true → c.pc = .wait ∧ c' = { c with pc := .testHand } ∧
        n' = n ∧ c.ticket % 256 = n.current % 256) := by
  cases hst <;> simp_all [Client.served]

omit [DecidableEq α] in
theorem Step.leaves (hst : Step build lock n c n' c' e) (hs : c.served = true)
    (hs' : c'.served = false) :
    c.pc = .rBump ∧ n' = { n with current := n.current + 1 } ∧ e = .silent := by
  cases hst with
  | keepCount | rZero => cases build <;> simp [Client.served, Build.entry] at hs'
  | _ => simp_all [Client.served]

omit [DecidableEq α] in
theorem LockNode.held_congr (hh : n'.handover = n.handover) (hu : n'.uniqueAddr = n.uniqueAddr)
    (c : Client α) : n'.held c = n.held c := by
  simp only [LockNode.held, LockNode.kept, hh, hu]

omit [DecidableEq α] in
theorem ServedOk.other (h : ServedOk hash n c) (hh : n'.handover = n.handover)
    (hu : n'.uniqueAddr = n.uniqueAddr) (hc : n'.current = n.current) (ht : n.ticket ≤ n'.ticket) :
    ServedOk hash n' c where
  chained hp := hh ▸ h.chained hp
  ended hp := hh ▸ h.ended hp
  mine hp hf := hu ▸ h.mine hp (hh ▸ hf)
  seeks hp := by rw [hh, hu]; exact h.seeks hp
  same hp := hu ▸ h.same hp
  differs hp := by rw [hh] at hp; rw [hu]; exact h.differs hp
  place hp := by rw [hh] at hp; rw [hu]; exact h.place hp
  ticket hp := by
    have := h.ticket hp
    omega
  current hp := hc ▸ h.current hp
  waited hp hf := by
    have := h.waited hp (hh ▸ hf)
    omega

end step

/-- What holds at a lock node between two clients: a chain that goes on has a next client. -/
def RestOk (hash : α → ℕ) (n : LockNode α) (k : ℕ) : Prop :=
  n.handover = true → hash n.uniqueAddr = k ∧ n.current < n.ticket

structure ChainInv (home : ι → μ) (hash : α → ℕ) (s : Cluster μ ι α) (log : List (LockEvent μ α)) :
    Prop where
  queue : ∀ m k, QueueOk home hash s m k
  served : ∀ i, (s.client i).served = true →
    ServedOk hash (s.node (home i) (hash (s.client i).addr)) (s.client i) ∧
      Holds hash log (home i) (hash (s.client i).addr)
        ((s.node (home i) (hash (s.client i).addr)).held (s.client i))
  rest : ∀ m k, (∀ i, InQueue home hash s m k i → (s.client i).served = false) →
    RestOk hash (s.node m k) k ∧ Holds hash log m k (s.node m k).kept
  bits : ∀ a, s.lock a = (holder log a).isSome
  matched : Matched log

/-- An effect on an address of a lock node: it was free, or this compute node holds it. -/
def EffectOk (hash : α → ℕ) (log : List (LockEvent μ α)) (m : μ) (k : ℕ) : Effect α → Prop
  | .silent => True
  | .acquire x => hash x = k ∧ holder log x = none
  | .unlock x => hash x = k ∧ holder log x = some m
  | .write x bit => holder log x = some m ∧ bit = true

section effect
variable {hash : α → ℕ} {log : List (LockEvent μ α)} {m m' : μ} {k k' : ℕ} {e : Effect α} {as : List α}

theorem EffectOk.holds (he : EffectOk hash log m k e) (hne : ¬ (m' = m ∧ k' = k))
    (h : Holds hash log m' k' as) : Holds hash ((e.event m).toList ++ log) m' k' as := by
  intro a ha
  rw [← h a ha]
  cases e with
  | silent | write => rfl
  | acquire x =>
    by_cases hx : x = a
    · subst hx
      have hm : m ≠ m' := fun hm => hne ⟨hm.symm, ha.symm.trans he.1⟩
      simp [Effect.event, holder, he.2, hm]
    · simp [Effect.event, holder, hx]
  | unlock x =>
    by_cases hx : x = a
    · subst hx
      have hm : m ≠ m' := fun hm => hne ⟨hm.symm, ha.symm.trans he.1⟩
      simp [Effect.event, holder, he.2, hm]
    · simp [Effect.event, holder, hx]

theorem EffectOk.bits (he : EffectOk hash log m k e) {lock : α → Bool}
    (h : ∀ a, lock a = (holder log a).isSome) (a : α) :
    e.apply lock a = (holder ((e.event m).toList ++ log) a).isSome := by
  cases e with
  | silent => exact h a
  | acquire x | unlock x =>
    by_cases hx : x = a
    · subst hx
      simp [Effect.event, Effect.apply, holder]
    · simp [Effect.event, Effect.apply, holder, hx, Function.update_of_ne (Ne.symm hx), h a]
  | write x bit =>
    by_cases hx : x = a
    · subst hx
      simp [Effect.event, Effect.apply, he.1, he.2]
    · simp [Effect.event, Effect.apply, Function.update_of_ne (Ne.symm hx), h a]

theorem EffectOk.matched (he : EffectOk hash log m k e) (h : Matched log) :
    Matched ((e.event m).toList ++ log) := by
  cases e with
  | silent | write => exact h
  | acquire x | unlock x => exact ⟨he.2, h⟩

end effect

section step
variable [DecidableEq μ] [DecidableEq ι] {build : Build} {home : ι → μ} {hash : α → ℕ}
  {s t : Cluster μ ι α} {i : ι} {e : Effect α} {log : List (LockEvent μ α)}

theorem ChainInv.effectOk (inv : ChainInv home hash s log) (h : Moves build home hash s i t e)
    (himage : (s.client i).pc = .eWrite → (s.client i).image = true) :
    EffectOk hash log (home i) (hash (s.client i).addr) e := by
  cases h with
  | begins => trivial
  | @steps n' c' e hst =>
    cases hs : (s.client i).served with
    | false => exact (hst.unserved hs).1 ▸ trivial
    | true =>
      obtain ⟨hok, hh⟩ := inv.served i hs
      have he := hst.effect hok
      cases e with
      | silent => trivial
      | acquire x =>
        have hb := inv.bits x
        rw [he.2] at hb
        exact ⟨by rw [he.1], by simpa using hb.symm⟩
      | unlock x => exact ⟨he.2, (hh x he.2).mpr he.1⟩
      | write x bit =>
        exact ⟨(hh x (by rw [he.1])).mpr he.2.1, he.2.2.2.trans (himage he.2.2.1)⟩

omit [DecidableEq μ] [DecidableEq ι] in
theorem ChainInv.served_eq (inv : ChainInv home hash s log) {j : ι} (hm : home j = home i)
    (hk : hash (s.client j).addr = hash (s.client i).addr) (hj : (s.client j).served = true)
    (hi : (s.client i).served = true) : j = i :=
  (inv.queue (home i) (hash (s.client i).addr)).1.unique
    ⟨hm, hk, Client.ticketed_of_served hj⟩ ⟨rfl, rfl, Client.ticketed_of_served hi⟩ hj hi

omit [DecidableEq μ] [DecidableEq ι] in
theorem ChainInv.unserved_of_turn (inv : ChainInv home hash s log) (hp : (s.client i).pc = .wait)
    (ht : (s.client i).ticket % 256 = (s.node (home i) (hash (s.client i).addr)).current % 256) (j : ι)
    (hj : InQueue home hash s (home i) (hash (s.client i).addr) j) : (s.client j).served = false := by
  obtain ⟨hinv, hspan⟩ := inv.queue (home i) (hash (s.client i).addr)
  have hi : InQueue home hash s (home i) (hash (s.client i).addr) i :=
    ⟨rfl, rfl, by simp [Client.ticketed, hp]⟩
  by_contra hsj
  rw [Bool.not_eq_false] at hsj
  have hb := hinv.bound i hi
  have hcur := hinv.serving j hj hsj
  simp only [queueView] at hb hcur
  have : j = i := hinv.inj j i hj hi (by simp only [queueView]; omega)
  simp [this, Client.served, hp] at hsj

omit [DecidableEq α] [DecidableEq ι] in
theorem update_node_ne {f : μ → ℕ → LockNode α} {m m' : μ} {k k' : ℕ} {n : LockNode α}
    (h : ¬ (m' = m ∧ k' = k)) :
    Function.update f m (Function.update (f m) k n) m' k' = f m' k' := by
  by_cases hm : m' = m
  · subst hm
    simp [Function.update_of_ne fun hk => h ⟨rfl, hk⟩]
  · rw [Function.update_of_ne hm]

theorem ChainInv.served_step (inv : ChainInv home hash s log) (h : Moves build home hash s i t e)
    (he : EffectOk hash log (home i) (hash (s.client i).addr) e) {j : ι}
    (hj : (t.client j).served = true) :
    ServedOk hash (t.node (home j) (hash (t.client j).addr)) (t.client j) ∧
      Holds hash ((e.event (home i)).toList ++ log) (home j) (hash (t.client j).addr)
        ((t.node (home j) (hash (t.client j).addr)).held (t.client j)) := by
  cases h with
  | begins hpc addr =>
    by_cases hji : j = i
    · subst hji
      simp [Client.start, Client.served] at hj
    · simp only [Function.update_of_ne hji] at hj ⊢
      exact inv.served j hj
  | @steps n' c' e hst =>
    by_cases hji : j = i
    · subst hji
      simp only [Function.update_self, hst.addr_eq] at hj ⊢
      cases hs : (s.client j).served with
      | true =>
        obtain ⟨hok, hh⟩ := inv.served j hs
        have hb := (inv.queue (home j) (hash (s.client j).addr)).1.bound j
          ⟨rfl, rfl, Client.ticketed_of_served hs⟩
        simp only [queueView] at hb
        exact ⟨hok.step hst hs (by omega), hh.step hok hst hs hj⟩
      | false =>
        obtain ⟨rfl, -, -, -, -, hent⟩ := hst.unserved hs
        obtain ⟨hp, rfl, rfl, hturn⟩ := hent hj
        obtain ⟨hr, hkept⟩ := inv.rest _ _ (inv.unserved_of_turn hp hturn)
        refine ⟨?_, hkept⟩
        constructor <;> simp [Pc.placed, Pc.flagged]
        exact fun hh => (hr hh).1
    · simp only [Function.update_of_ne hji] at hj ⊢
      obtain ⟨hok, hh⟩ := inv.served j hj
      by_cases hsame : home j = home i ∧ hash (s.client j).addr = hash (s.client i).addr
      · -- the acting client is not being served, as this one is
        have hs : (s.client i).served = false :=
          Bool.eq_false_iff.mpr fun hs => hji (inv.served_eq hsame.1 hsame.2 hj hs)
        obtain ⟨rfl, hha, hu, hc, ht, -⟩ := hst.unserved hs
        rw [hsame.1, hsame.2] at hok hh ⊢
        simp only [Function.update_self]
        refine ⟨hok.other hha hu hc ht, ?_⟩
        rw [LockNode.held_congr hha hu]
        exact hh
      · rw [update_node_ne hsame]
        exact ⟨hok, he.holds hsame hh⟩

theorem ChainInv.rest_step (inv : ChainInv home hash s log) (h : Moves build home hash s i t e)
    (he : EffectOk hash log (home i) (hash (s.client i).addr) e) {m : μ} {k : ℕ}
    (hn : ∀ j, InQueue home hash t m k j → (t.client j).served = false) :
    RestOk hash (t.node m k) k ∧
      Holds hash ((e.event (home i)).toList ++ log) m k (t.node m k).kept := by
  have hother (j : ι) (hji : j ≠ i) (hj : InQueue home hash s m k j) : (s.client j).served = false := by
    rw [← h.client_ne hji]
    exact hn j ((h.inQueue_ne hji).mpr hj)
  have hall (hi : InQueue home hash s m k i → (s.client i).served = false) (j : ι)
      (hj : InQueue home hash s m k j) : (s.client j).served = false := by
    by_cases hji : j = i
    · subst hji
      exact hi hj
    · exact hother j hji hj
  cases h with
  | begins hpc addr => exact inv.rest m k (hall fun _ => by simp [Client.served, hpc])
  | @steps n' c' e hst =>
    by_cases hsame : m = home i ∧ k = hash (s.client i).addr
    · obtain ⟨rfl, rfl⟩ := hsame
      simp only [Function.update_self] at hn ⊢
      cases hs : (s.client i).served with
      | true =>
        have hs' : c'.served = false := by
          by_contra hc
          rw [Bool.not_eq_false] at hc
          have := hn i ⟨rfl, by simp [hst.addr_eq], by simpa using Client.ticketed_of_served hc⟩
          simp [hc] at this
        obtain ⟨hp, rfl, rfl⟩ := hst.leaves hs hs'
        obtain ⟨hok, hh⟩ := inv.served i hs
        refine ⟨fun hf => ⟨hok.place (.inr hf), hok.waited (by rw [hp]; rfl) hf⟩, ?_⟩
        simp only [LockNode.held, hp] at hh
        exact hh
      | false =>
        obtain ⟨rfl, hha, hu, hc, ht, -⟩ := hst.unserved hs
        obtain ⟨hr, hkept⟩ := inv.rest _ _ (hall fun _ => hs)
        refine ⟨fun hf => ?_, ?_⟩
        · have := hr (hha ▸ hf)
          rw [hu, hc]
          exact ⟨this.1, by omega⟩
        · have : n'.kept = (s.node (home i) (hash (s.client i).addr)).kept := by
            simp only [LockNode.kept, hha, hu]
          rw [this]
          exact hkept
    · simp only [update_node_ne hsame]
      obtain ⟨hr, hkept⟩ := inv.rest m k (hall fun hi => absurd ⟨hi.1.symm, hi.2.1.symm⟩ hsame)
      exact ⟨hr, he.holds hsame hkept⟩

theorem ChainInv.step (inv : ChainInv home hash s log) (h : Moves build home hash s i t e)
    (hfit : (s.client i).pc = .takeTicket →
      (s.node (home i) (hash (s.client i).addr)).ticket <
        (s.node (home i) (hash (s.client i).addr)).current + 256)
    (himage : (s.client i).pc = .eWrite → (s.client i).image = true) :
    ChainInv home hash t ((e.event (home i)).toList ++ log) := by
  have he := inv.effectOk h himage
  exact
    { queue := fun m k => (inv.queue m k).step h hfit
      served := fun j hj => inv.served_step h he hj
      rest := fun m k hn => inv.rest_step h he hn
      bits := fun a => by
        rw [h.lock_eq]
        exact he.bits inv.bits a
      matched := he.matched inv.matched }

omit [DecidableEq μ] [DecidableEq ι] in
theorem ChainInv.initial (h : s.Initial) : ChainInv home hash s ([] : List (LockEvent μ α)) where
  queue m k := .initial h m k
  served i hi := by simp [Client.served, h.2.2 i] at hi
  rest m k _ := by
    have hh := (h.1 m k).2.2.1
    exact ⟨fun hf => by simp [hh] at hf, fun a _ => by simp [holder, LockNode.kept, hh]⟩
  bits a := by simp [h.2.1 a, holder]
  matched := trivial

end step

end SmartTree.Hocl
