import SmartTree.LocalLock.Serving

/-! The read side of a lock node as read delegation sees it: counters, flag and window
of the read queue, the start of the time window, and the age of the published result. -/
namespace SmartTree.LocalLock
variable {ι κ ν : Type*}

structure ReadView where
  current : ℕ
  ticket : ℕ
  handover : Bool
  window : ℕ
  start : Bool
  resAt : ℕ

def LockNode.readView (n : LockNode κ ν) : ReadView where
  current := (n.queue .read).current
  ticket := (n.queue .read).ticket
  handover := (n.queue .read).handover
  window := (n.queue .read).window
  start := n.windowStart
  resAt := n.resAt

inductive ReadEffect (v v' : ReadView) (c : Client κ ν) : Prop where
  | takes (hv : v' = { v with ticket := v.ticket + 1 }) (hs : c.side = .read) (hpc : c.pc = .takeTicket)
  | clears (hv : v' = { v with handover := false }) (hs : c.side = .read) (hpc : c.pc = .clearHand)
  | publishes (hv : v' = { v with resAt := c.readAt }) (hs : c.side = .read) (hpc : c.pc = .storeRes)
  | starts (hv : v' = { v with start := true }) (hpc : c.pc = .rCasWin) (h₀ : v.start = false)
  | storesOwn (hv : v' = { v with window := outstanding c.relTicket c.relCurrent })
      (hs : c.side = .read) (hpc : c.pc = .oStoreOwn)
  | storesOther (hv : v' = { v with window := outstanding c.othTicket c.othCurrent })
      (hs : c.side = .write) (hpc : c.pc = .oStoreOther)
  | flags (hv : v' = { v with handover := decide (c.relTicket % 256 ≠ (c.relCurrent + 1) % 256) })
      (hs : c.side = .read) (hpc : c.pc = .rStoreHand)
  | countsDown (hv : v' = { v with window := (v.window + 255) % 256 }) (hs : c.side = .read)
      (hpc : c.pc = .rDec)
  | closes (hv : v' = { v with start := false }) (hpc : c.pc = .rClose)
  | bumps (hv : v' = { v with current := v.current + 1 }) (hs : c.side = .read) (hpc : c.pc = .rBump)
  | keeps (hv : v' = v) (hr : c.side = .read → c.pc ≠ .rStoreHand)
      (hw : c.side = .write → c.pc ≠ .oStoreOther)

def Pc.conflicting : Pc → Bool
  | .cLoadWin | .cDec | .cLoadRead | .cLoadWrite | .cClose | .cBump | .ret => true
  | _ => false

def Client.Calm (c : Client κ ν) : Prop := c.acq.2 = false ∧ c.pc.conflicting = false

section step
variable {now : ℕ} {n n' : LockNode κ ν} {c c' : Client κ ν} {o : Obs κ ν}
attribute [local simp] LockNode.setWindow LockNode.setHandover LockNode.setLocked LockNode.setKey
  LockNode.decWindow LockNode.bumpTicket LockNode.bumpCurrent LockNode.setQueue_queue
  LockNode.readView Pc.conflicting

theorem Step.readEffect (h : Step now n c n' c' o) (hc : c.Calm) (hsh : c.Shaped) :
    ReadEffect n.readView n'.readView c := by
  cases h with
  | takeTicket hpc =>
    cases hs : c.side
    · exact .takes (by simp [LockNode.setQueue]) hs hpc
    · exact .keeps (by simp [LockNode.setQueue]) (by simp [hpc]) (by simp [hpc])
  | clearHand hpc =>
    cases hs : c.side
    · exact .clears (by simp [LockNode.setQueue]) hs hpc
    · exact .keeps (by simp [LockNode.setQueue]) (by simp [hpc]) (by simp [hpc])
  | storeRes hpc => exact .publishes (by simp) (hsh .read (by rw [hpc]; rfl)) hpc
  | openWin hpc hw => exact .starts (by simp) hpc hw
  | oStoreOwn hpc =>
    cases hs : c.side
    · exact .storesOwn (by simp [LockNode.setQueue]) hs hpc
    · exact .keeps (by simp [LockNode.setQueue]) (by simp [hpc]) (by simp [hpc])
  | oStoreOther hpc =>
    cases hs : c.side
    · exact .keeps (by simp [LockNode.setQueue, Side.other]) (by simp [hpc]) (by simp [hs])
    · exact .storesOther (by simp [LockNode.setQueue, Side.other]) hs hpc
  | rStoreHand hpc =>
    cases hs : c.side
    · exact .flags (by simp [LockNode.setQueue]) hs hpc
    · exact .keeps (by simp [LockNode.setQueue]) (by simp [hs]) (by simp [hpc])
  | rDec hpc =>
    cases hs : c.side
    · exact .countsDown (by simp [LockNode.setQueue]) hs hpc
    · exact .keeps (by simp [LockNode.setQueue]) (by simp [hpc]) (by simp [hpc])
  | rClose hpc => exact .closes (by simp) hpc
  | rBump hpc =>
    cases hs : c.side
    · exact .bumps (by simp [LockNode.setQueue]) hs hpc
    · exact .keeps (by simp [LockNode.setQueue]) (by simp [hpc]) (by simp [hpc])
  | cDec hpc | cClose hpc | cBump hpc => simp [Client.Calm, hpc] at hc
  | openKey hpc | rClearKey hpc | oLock hpc | oUnlock hpc | rLock hpc | rUnlock hpc =>
    refine .keeps ?_ (by simp [hpc]) (by simp [hpc])
    cases hs : c.side <;> simp [LockNode.setQueue, Side.other]
  | writeLeaf hpc =>
    exact .keeps rfl (by rcases hpc with hpc | hpc <;> simp [hpc])
      (by rcases hpc with hpc | hpc <;> simp [hpc])
  | _ => exact .keeps rfl (by simp [*]) (by simp [*])

/-- Without a conflict at the two tests of the key, a client stays off the conflict paths. -/
theorem Step.calm (h : Step now n c n' c' o) (hc : c.Calm)
    (hk : ∀ key, (n.queue c.side).uniqueKey = some key → key = c.key)
    (hl : c.pc = .loadKey → (n.queue c.side).uniqueKey = some c.key) : c'.Calm := by
  obtain ⟨ha, hp⟩ := hc
  cases h with
  | refuseKey hpc hk' hne => exact absurd (hk _ hk') hne
  | keyLost hpc hne => exact absurd (hl hpc) hne
  | openKey | joinKey | handed | openWin | oUnlock | oStoreOwn =>
    cases hs : c.side <;> simp [Client.Calm, ha]
  | @getKeyNo site | @getBuf site => cases site <;> simp [Client.Calm, ha, afterGet, Site.after]
  | loaded | sameValue | traversed | writeLeaf =>
    cases hs : c.side <;> simp [Client.Calm, leaveBody, ha, hs]
  | _ => simp_all [Client.Calm]

/-- Holding the mutex of a queue: its own in the release, the other side's while opening. -/
def Client.holds (sd : Side) (c : Client κ ν) : Bool :=
  match c.pc with
  | .rLoadWin | .rDec | .rLoadRead | .rLoadWrite | .rClose | .rBump | .rUnlock => decide (c.side = sd)
  | .oCurrent | .oTicket | .oStoreOther | .oUnlock => decide (c.side.other = sd)
  | _ => false

theorem Step.lock (h : Step now n c n' c' o) (sd : Side) :
    c'.holds sd = c.holds sd ∧ (n'.queue sd).locked = (n.queue sd).locked ∨
    c.holds sd = false ∧ c'.holds sd = true ∧ (n.queue sd).locked = false ∧
      (n'.queue sd).locked = true ∨
    c.holds sd = true ∧ c'.holds sd = false := by
  cases h with
  | oLock hpc hl =>
    by_cases hsd : c.side.other = sd
    · subst hsd
      exact .inr (.inl (by simp [Client.holds, hpc, hl]))
    · exact .inl (by simp [Client.holds, hpc, hsd, Ne.symm hsd])
  | rLock hpc hl =>
    by_cases hsd : c.side = sd
    · subst hsd
      exact .inr (.inl (by simp [Client.holds, hpc, hl]))
    · exact .inl (by simp [Client.holds, hpc, hsd, Ne.symm hsd])
  | oUnlock hpc =>
    by_cases hsd : c.side.other = sd
    · subst hsd
      refine .inr (.inr ⟨by simp [Client.holds, hpc], ?_⟩)
      cases hs : c.side <;> simp [Client.holds]
    · refine .inl ⟨?_, by simp [Ne.symm hsd]⟩
      cases hs : c.side <;> simp_all [Client.holds]
  | rUnlock hpc =>
    by_cases hsd : c.side = sd
    · subst hsd
      exact .inr (.inr (by simp [Client.holds, hpc]))
    · exact .inl (by simp [Client.holds, hpc, hsd, Ne.symm hsd])
  | writeLeaf hpc =>
    refine .inl ⟨?_, rfl⟩
    cases ha : c.acq.2 <;> cases hs : c.side <;> rcases hpc with hpc | hpc <;>
      simp [Client.holds, leaveBody, ha, hpc]
  | loaded hpc | sameValue hpc | traversed hpc =>
    refine .inl ⟨?_, rfl⟩
    cases ha : c.acq.2 <;> cases hs : c.side <;> simp [Client.holds, leaveBody, ha, hs, hpc]
  | @getKeyNo site hpc | @getBuf site hpc =>
    exact .inl (by cases site <;> simp [Client.holds, afterGet, Site.after, hpc])
  | joinKey hpc | handed hpc | openWin hpc =>
    exact .inl ⟨by cases hs : c.side <;> simp [Client.holds, hpc], rfl⟩
  | openKey hpc | oStoreOwn hpc =>
    exact .inl ⟨by cases hs : c.side <;> simp [Client.holds, hpc],
      n.setQueue_keeps Queue.locked _ _ rfl⟩
  | takeTicket | cDec | cBump | clearHand | oStoreOther | rStoreHand | rClearKey | rDec | rBump =>
    exact .inl ⟨by simp [Client.holds, *], n.setQueue_keeps Queue.locked _ _ rfl⟩
  | _ => exact .inl ⟨by simp [Client.holds, *], rfl⟩

def Pc.publishing : Pc → Bool
  | .testHand | .storeRes | .storeVal | .rTicket => true
  | pc => pc.counting

def Pc.published : Pc → Bool
  | .storeVal | .rTicket => true
  | pc => pc.counting

def Pc.received : Pc → Bool
  | .loadVal | .rTicket | .rTestKey | .rClearKey | .rLock | .rLoadWin | .rDec | .rLoadRead | .rLoadWrite
  | .rClose | .rBump | .rUnlock => true
  | pc => pc.counting

def Pc.flagStored : Pc → Bool
  | .rTestKey | .rClearKey | .rLock | .rLoadWin | .rDec | .rLoadRead | .rLoadWrite | .rClose | .rBump => true
  | _ => false

def Pc.midOpening : Pc → Bool
  | .oLock | .oCurrent | .oTicket | .oStoreOther => true
  | _ => false

def Pc.pastWindow : Pc → Bool
  | .oUnlock | .oStoreOwn | .rStoreHand | .rTestKey | .rClearKey | .rLock | .rLoadWin | .rDec | .rLoadRead
  | .rLoadWrite | .rClose | .rBump | .rUnlock => true
  | _ => false

attribute [local simp] Pc.opening Pc.loaded Pc.counting Pc.publishing Pc.published Pc.received
  Pc.flagStored Pc.midOpening Pc.pastWindow

theorem Step.to_publishing (h : Step now n c n' c' o) (hs : c.side = .read) (hsh : c.Shaped)
    (hp : c'.pc.publishing = true) (ha : c'.acq.1 = false) :
    c.pc.publishing = true ∧ c'.acq = c.acq ∧ c'.readAt = c.readAt ∨
      c.pc = .body ∧ c'.readAt = now ∨ c.pc = .loadVal ∧ c'.acq = c.acq := by
  have hw := hsh .write
  cases h with
  | traversed hpc => exact .inr (.inl ⟨hpc, rfl⟩)
  | loadVal hpc => exact .inr (.inr ⟨hpc, rfl⟩)
  | handed => simp at ha
  | @getKeyNo site hpc | @getBuf site hpc =>
    simp [hs, hpc, Pc.onlySide] at hw
  | loaded hpc hs' => simp [hs] at hs'
  | writeLeaf hpc => rcases hpc with hpc | hpc <;> simp [hs, hpc, Pc.onlySide] at hw
  | sameValue hpc => simp [hs, hpc, Pc.onlySide] at hw
  | _ => simp_all

theorem Step.to_published (h : Step now n c n' c' o) (hs : c.side = .read) (hsh : c.Shaped)
    (hp : c'.pc.published = true) (ha : c'.acq.1 = false) :
    c.pc.published = true ∧ c'.acq = c.acq ∧ c'.readAt = c.readAt ∧ n'.resAt = n.resAt ∨
      c.pc = .storeRes ∧ n'.resAt = c'.readAt ∨ c.pc = .loadVal ∧ c'.acq = c.acq := by
  have hw := hsh .write
  cases h with
  | storeRes hpc => exact .inr (.inl ⟨hpc, rfl⟩)
  | loadVal hpc => exact .inr (.inr ⟨hpc, rfl⟩)
  | handed => simp at ha
  | @getKeyNo site hpc | @getBuf site hpc => simp [hs, hpc, Pc.onlySide] at hw
  | loaded hpc hs' => simp [hs] at hs'
  | writeLeaf hpc => rcases hpc with hpc | hpc <;> simp [hs, hpc, Pc.onlySide] at hw
  | sameValue hpc => simp [hs, hpc, Pc.onlySide] at hw
  | traversed => cases ha : c.acq.2 <;> simp [leaveBody, hs, ha] at hp
  | oLock | oUnlock | oStoreOwn | oStoreOther => simp_all [LockNode.setQueue]
  | _ => simp_all

theorem Step.to_received (h : Step now n c n' c' o) (hs : c.side = .read) (hsh : c.Shaped)
    (hp : c'.pc.received = true) (ha : c'.acq.1 = true) :
    c.pc.received = true ∧ c'.acq = c.acq ∧ c'.readAt = c.readAt ∨
      c.pc = .loadRes ∧ c'.acq = c.acq ∧ c'.readAt = n.resAt ∨ c.pc = .storeVal ∧ c'.acq = c.acq := by
  have hw := hsh .write
  cases h with
  | loadRes hpc => exact .inr (.inl ⟨hpc, rfl, rfl⟩)
  | storeVal hpc => exact .inr (.inr ⟨hpc, rfl⟩)
  | @getKeyNo site hpc | @getBuf site hpc => simp [hs, hpc, Pc.onlySide] at hw
  | loaded hpc hs' => simp [hs] at hs'
  | writeLeaf hpc => rcases hpc with hpc | hpc <;> simp [hs, hpc, Pc.onlySide] at hw
  | sameValue hpc => simp [hs, hpc, Pc.onlySide] at hw
  | traversed => cases ha : c.acq.2 <;> simp [leaveBody, hs, ha] at hp
  | _ => simp_all

theorem Step.to_delegated (h : Step now n c n' c' o) (hs : c.side = .read) (hsh : c.Shaped)
    (hp : c'.pc = .testHand ∨ c'.pc = .loadRes) (ha : c'.acq.1 = true) :
    c.pc = .testHand ∧ c'.acq = c.acq ∨ c.pc = .loadHand ∧ (n.queue .read).handover = true ∨
      c.pc = .body ∧ c'.acq = c.acq := by
  have hw := hsh .write
  cases h with
  | handed hpc hh => exact .inr (.inl ⟨hpc, hs ▸ hh⟩)
  | loser hpc => exact .inl ⟨hpc, rfl⟩
  | traversed hpc => exact .inr (.inr ⟨hpc, rfl⟩)
  | @getKeyNo site hpc | @getBuf site hpc => simp [hs, hpc, Pc.onlySide] at hw
  | loaded hpc hs' => simp [hs] at hs'
  | writeLeaf hpc => rcases hpc with hpc | hpc <;> simp [hs, hpc, Pc.onlySide] at hw
  | sameValue hpc => simp [hs, hpc, Pc.onlySide] at hw
  | _ => simp_all

theorem Step.to_ownStore (h : Step now n c n' c' o) (hs : c.side = .read) (hp : c'.pc = .oStoreOwn) :
    c.pc = .rCasWin ∧ n.windowStart = false ∧ c'.readAt = c.readAt ∧ c'.relTicket = c.relTicket := by
  cases h with
  | @getKeyNo site | @getBuf site => cases site <;> simp [afterGet, Site.after] at hp
  | loaded | sameValue | traversed | writeLeaf =>
    cases ha : c.acq.2 <;> simp [leaveBody, ha, hs] at hp
  | _ => simp_all

theorem Step.to_flagStored (h : Step now n c n' c' o) (hs : c.side = .read)
    (hp : c'.pc.flagStored = true) :
    c.pc.flagStored = true ∧ c.pc ≠ .rBump ∨ c.pc = .rStoreHand := by
  cases h with
  | @getKeyNo site | @getBuf site => cases site <;> simp [afterGet, Site.after] at hp
  | loaded | sameValue | traversed | writeLeaf =>
    cases ha : c.acq.2 <;> simp [leaveBody, ha, hs] at hp
  | _ => simp_all

theorem Step.to_midOpening (h : Step now n c n' c' o) (hs : c.side = .write)
    (hp : c'.pc.midOpening = true) :
    c'.wroteAt = c.wroteAt ∧
      (c.pc = .rCasWin ∧ n.windowStart = false ∧ c'.pc = .oLock ∧ n'.windowStart = true ∨
        c.pc.midOpening = true ∧ c.pc ≠ .oStoreOther ∧ n'.readView = n.readView ∧
          (c'.pc = .oStoreOther → c.pc = .oTicket ∧ c'.othTicket = (n.queue .read).ticket)) := by
  cases h with
  | @getKeyNo site | @getBuf site => cases site <;> simp [afterGet, Site.after] at hp
  | loaded | sameValue | traversed | writeLeaf =>
    cases ha : c.acq.2 <;> simp [leaveBody, ha, hs] at hp
  | oLock hpc => simp [hpc, hs, Side.other, LockNode.setQueue]
  | _ => simp_all [Side.other]

theorem Step.to_pastWindow (h : Step now n c n' c' o) (hs : c.side = .write)
    (hp : c'.pc.pastWindow = true) :
    c'.wroteAt = c.wroteAt ∧
      (c.pc.pastWindow = true ∨ c.pc = .oStoreOther ∨ c.pc = .rCasWin ∧ n.windowStart = true ∨
        c.pc = .rLoadHand ∧ (n.queue .write).handover = true) := by
  cases h with
  | @getKeyNo site | @getBuf site => cases site <;> simp [afterGet, Site.after] at hp
  | loaded | sameValue | traversed | writeLeaf =>
    cases ha : c.acq.2 <;> simp [leaveBody, ha, hs] at hp
  | _ => simp_all

theorem Step.to_closing (h : Step now n c n' c' o) (hc : c.Calm)
    (hp : c'.pc = .rLoadWrite ∨ c'.pc = .rClose) :
    c.pc = .rLoadRead ∧ (n.queue .read).window = 0 ∨ c.pc = .rLoadWrite := by
  cases h with
  | @getKeyNo site | @getBuf site => cases site <;> simp [afterGet, Site.after] at hp
  | loaded | sameValue | traversed | writeLeaf =>
    cases hs : c.side <;> simp [leaveBody, hc.1, hs] at hp
  | openKey | joinKey | handed | openWin | oUnlock | oStoreOwn => cases hs : c.side <;> simp [hs] at hp
  | _ => simp_all

theorem Step.to_othTicket (h : Step now n c n' c' o) (hs : c.side = .write)
    (hp : c'.pc = .oTicket ∨ c'.pc = .oStoreOther) :
    c.pc = .oCurrent ∧ c'.pc = .oTicket ∧ c'.othCurrent = (n.queue .read).current ∨
      c.pc = .oTicket ∧ c'.pc = .oStoreOther ∧ c'.othCurrent = c.othCurrent ∧
        c'.othTicket = (n.queue .read).ticket := by
  cases h with
  | @getKeyNo site | @getBuf site => cases site <;> simp [afterGet, Site.after] at hp
  | loaded | sameValue | traversed | writeLeaf =>
    cases ha : c.acq.2 <;> simp [leaveBody, ha, hs] at hp
  | _ => simp_all [Side.other]

theorem Step.completed (h : Step now n c n' c' o) (hc : c.Calm) {w : Completed κ}
    (ho : o = .completed w) :
    c.side = .write ∧ c.pc = .rUnlock ∧ c.wroteAt = some w.wroteAt ∧ w.returnedAt = now := by
  cases h with
  | rUnlock hpc =>
    cases hs : c.side <;> cases hw : c.wroteAt <;> simp [returnObs, hs, hw] at ho
    subst ho
    simp [hpc]
  | ret hpc => simp [Client.Calm, hpc] at hc
  | _ => simp at ho

theorem Step.after_flag (h : Step now n c n' c' o) (hp : c.pc = .rStoreHand) : c'.pc = .rTestKey := by
  cases h <;> simp_all

theorem Step.invAt_eq (h : Step now n c n' c' o) : c'.invAt = c.invAt := by
  cases h <;> rfl

/-- The time of the leaf write of an insert is set by that write only. -/
theorem Step.wroteAt_eq (h : Step now n c n' c' o) :
    c'.wroteAt = c.wroteAt ∨
      (c.pc = .writeLeaf ∨ c.pc = .placeLeaf) ∧ c'.wroteAt = some now ∧ c'.acq = c.acq := by
  cases h with
  | writeLeaf hpc => exact .inr ⟨hpc, rfl, rfl⟩
  | _ => exact .inl rfl

theorem Step.to_beforeRelease (h : Step now n c n' c' o) (hsh : c.Shaped)
    (hp : c'.pc.beforeRelease = true) :
    c.pc.beforeRelease = true ∧ c'.wroteAt = c.wroteAt ∧ (c.acq.1 = false → c'.acq.1 = false) := by
  have hw := hsh .write
  cases h with
  | writeLeaf hpc =>
    have hs : c.side = .write := hw (by rcases hpc with hpc | hpc <;> rw [hpc] <;> rfl)
    cases ha : c.acq.2 <;> simp [leaveBody, ha, hs, Pc.beforeRelease] at hp
  | @getKeyNo site hpc | @getBuf site hpc => simp [hpc, afterGet, Pc.beforeRelease]
  | loaded hpc | sameValue hpc | traversed hpc => simp [hpc, leaveBody, Pc.beforeRelease]
  | handed => cases hs : c.side <;> simp [hs, Pc.beforeRelease] at hp
  | openWin | oUnlock | oStoreOwn => cases hs : c.side <;> simp [hs, Pc.beforeRelease] at hp
  | _ => simp_all [Pc.beforeRelease]

theorem Step.uniqueKey (h : Step now n c n' c' o) (sd : Side) :
    (n'.queue sd).uniqueKey = (n.queue sd).uniqueKey ∨ (n'.queue sd).uniqueKey = none ∨
      (n'.queue sd).uniqueKey = some c.key := by
  cases h with
  | openKey | rClearKey => by_cases hsd : sd = c.side <;> simp [hsd]
  | takeTicket | cDec | cBump | clearHand | oStoreOther | oStoreOwn | rStoreHand | rDec | rBump | oLock
  | oUnlock | rLock | rUnlock => exact .inl (n.setQueue_keeps Queue.uniqueKey _ _ rfl)
  | _ => exact .inl rfl

end step

end SmartTree.LocalLock
