import SmartTree.LocalLock.Queue

/-! A client being served by its queue: what its locals say about the counters, the
handover flag and the window between its acquire and the bump of the counter. -/
namespace SmartTree.LocalLock
variable {ι κ ν : Type*}

def Pc.beforeRelease : Pc → Bool
  | .casKey | .deposit | .takeTicket | .wait | .loadKey
  | .cLoadWin | .cDec | .cLoadRead | .cLoadWrite | .cClose | .cBump
  | .loadWin | .clearHand | .loadHand
  | .body | .getKey _ | .getBuf _ | .checkLeaf | .writeLeaf | .placeLeaf => true
  | _ => false

/-- The release found no handover and is about to open, or opening, a window. -/
def Pc.opening : Pc → Bool
  | .rCasWin | .oLock | .oCurrent | .oTicket | .oStoreOther | .oUnlock | .oStoreOwn => true
  | _ => false

def Pc.loaded : Pc → Bool
  | .rLoadHand | .rStoreHand => true
  | pc => pc.opening

def Pc.counting : Pc → Bool
  | .rCurrent => true
  | pc => pc.loaded

def Pc.countedDown : Pc → Bool
  | .cLoadRead | .cLoadWrite | .cClose | .cBump | .rLoadRead | .rLoadWrite | .rClose | .rBump => true
  | _ => false

def Pc.undecided : Pc → Bool
  | .wait | .loadKey | .loadWin => true
  | _ => false

def Client.decided (c : Client κ ν) : Bool :=
  match c.pc with
  | .body | .getKey _ | .getBuf _ | .checkLeaf | .writeLeaf | .placeLeaf => !c.acq.2
  | .testHand | .storeRes | .storeVal | .loadRes | .loadVal | .rTicket => true
  | pc => pc.counting

structure Serving (q : Queue κ) (c : Client κ ν) : Prop where
  notHanded : c.pc.beforeRelease = true → c.acq.1 = false
  noConflict : c.decided = true → c.acq.2 = false
  flag : c.decided = true → q.handover = c.acq.1
  opener : c.pc.opening = true → c.acq.1 = false
  loser : c.pc = .loadRes ∨ c.pc = .loadVal → c.acq.1 = true
  publisher : c.pc = .storeRes ∨ c.pc = .storeVal → c.acq.1 = false
  current : c.pc.loaded = true → c.relCurrent = q.current
  ticket : c.pc.counting = true → q.current < c.relTicket ∧ c.relTicket ≤ q.ticket

/-- Nothing that `Serving` speaks of is entered. -/
def Client.Within (c c' : Client κ ν) : Prop :=
  (c'.pc.beforeRelease → c.pc.beforeRelease) ∧ (c'.decided → c.decided) ∧
    (c'.pc.opening → c.pc.opening) ∧ (c'.pc = .loadRes ∨ c'.pc = .loadVal → c.pc = .loadRes) ∧
    (c'.pc = .storeRes ∨ c'.pc = .storeVal → c.pc = .storeRes) ∧
    (c'.pc.loaded → c.pc.loaded) ∧ (c'.pc.counting → c.pc.counting)

section serving
variable {now : ℕ} {n n' : LockNode κ ν} {c c' : Client κ ν} {o : Obs κ ν}
attribute [local simp] LockNode.setWindow LockNode.setHandover LockNode.setLocked LockNode.setKey
  LockNode.decWindow LockNode.bumpTicket LockNode.bumpCurrent LockNode.setQueue_queue
  Pc.beforeRelease Pc.opening Pc.loaded Pc.counting Client.decided Client.Within

/-- A client that is not being served leaves its queue alone, but for taking a ticket. -/
theorem Step.unserved (h : Step now n c n' c' o) (hc : c.critical = false) :
    (n'.queue c.side).current = (n.queue c.side).current ∧
      (n'.queue c.side).handover = (n.queue c.side).handover ∧
      (n'.queue c.side).window = (n.queue c.side).window ∧
      (n.queue c.side).ticket ≤ (n'.queue c.side).ticket := by
  cases h <;> simp_all [Client.critical]

theorem Serving.other {q q' : Queue κ} (h : Serving q c) (hcur : q'.current = q.current)
    (hh : q'.handover = q.handover) (ht : q.ticket ≤ q'.ticket) : Serving q' c where
  notHanded := h.notHanded
  noConflict := h.noConflict
  flag hp := hh ▸ h.flag hp
  opener := h.opener
  loser := h.loser
  publisher := h.publisher
  current hp := hcur ▸ h.current hp
  ticket hp := by
    have := h.ticket hp
    omega

theorem Serving.quiet {q q' : Queue κ} (h : Serving q c)
    (hq : q'.current = q.current ∧ q'.handover = q.handover ∧ q'.ticket = q.ticket)
    (hc : c'.acq = c.acq ∧ c'.relTicket = c.relTicket ∧ c'.relCurrent = c.relCurrent)
    (hpc : c.Within c') : Serving q' c' := by
  obtain ⟨hcur, hh, ht⟩ := hq
  obtain ⟨ha, hrt, hrc⟩ := hc
  obtain ⟨h₁, h₂, h₃, h₄, h₅, h₆, h₇⟩ := hpc
  exact
    { notHanded := fun hp => ha ▸ h.notHanded (h₁ hp)
      noConflict := fun hp => ha ▸ h.noConflict (h₂ hp)
      flag := fun hp => by rw [ha, hh]; exact h.flag (h₂ hp)
      opener := fun hp => ha ▸ h.opener (h₃ hp)
      loser := fun hp => ha ▸ h.loser (.inl (h₄ hp))
      publisher := fun hp => ha ▸ h.publisher (.inl (h₅ hp))
      current := fun hp => by rw [hrc, hcur]; exact h.current (h₆ hp)
      ticket := fun hp => by rw [hrt, hcur, ht]; exact h.ticket (h₇ hp) }

theorem Serving.step (h : Serving (n.queue c.side) c) (hst : Step now n c n' c' o)
    (hq : c.ticketed = true → (n.queue c.side).current < (n.queue c.side).ticket) :
    Serving (n'.queue c.side) c' := by
  cases hst with
  | openKey hpc _ | joinKey hpc _ =>
    have hb := h.notHanded (by simp [hpc])
    cases hs : c.side <;> constructor <;> simp [hb]
  | @getKeyNo site hpc | @getBuf site hpc =>
    cases site <;> apply h.quiet <;> simp [hpc, afterGet, Site.after]
  | loaded hpc | sameValue hpc | traversed hpc =>
    have hb := h.notHanded (by simp [hpc])
    have hf := h.flag
    cases ha : c.acq.2 <;> cases hs : c.side <;> constructor <;>
      simp_all [leaveBody]
  | writeLeaf hpc =>
    have hb := h.notHanded (by rcases hpc with hpc | hpc <;> simp [hpc])
    have hf := h.flag
    cases ha : c.acq.2 <;> cases hs : c.side <;> constructor <;>
      rcases hpc with hpc | hpc <;> simp_all [leaveBody]
  | handed hpc hh => cases hs : c.side <;> constructor <;> simp [hs ▸ hh]
  | winner hpc hh => constructor <;> simp [hh]
  | loser hpc hh | publish hpc hh =>
    have ha := h.noConflict (by simp [hpc])
    have hf := h.flag (by simp [hpc])
    constructor <;> simp_all
  | openWin hpc | oStoreOwn hpc | oUnlock hpc =>
    cases hs : c.side <;> apply (hs ▸ h).quiet <;> simp [hpc]
  | rTicket hpc =>
    have ha := h.noConflict (by simp [hpc])
    have hf := h.flag (by simp [hpc])
    constructor <;> simp_all [Client.ticketed, Client.critical]
  | rCurrent hpc =>
    have ha := h.noConflict (by simp [hpc])
    have hf := h.flag (by simp [hpc])
    have ht := h.ticket (by simp [hpc])
    constructor <;> simp [ha, ht, hf]
  | rWinner hpc hh =>
    have ha := h.noConflict (by simp [hpc])
    have hf := h.flag (by simp [hpc])
    have ht := h.ticket (by simp [hpc])
    have hc := h.current (by simp [hpc])
    constructor <;> simp_all
  | takeTicket hpc | clearHand hpc =>
    have hb := h.notHanded (by simp [hpc])
    constructor <;> simp [hb]
  | refuseKey | cBump | rStoreHand | rBump => constructor <;> simp
  | _ => apply h.quiet <;> simp [*]

inductive ServeEffect (q q' : Queue κ) (c : Client κ ν) : Prop where
  | takes (hpc : c.pc = .takeTicket) (ht : q'.ticket = q.ticket + 1) (hcur : q'.current = q.current)
      (hh : q'.handover = q.handover) (hw : q'.window = q.window)
  | hands (hpc : c.pc = .clearHand ∨ c.pc = .rStoreHand) (ht : q'.ticket = q.ticket)
      (hcur : q'.current = q.current) (hw : q'.window = q.window)
  | opens (hpc : c.pc = .oStoreOwn) (ht : q'.ticket = q.ticket) (hcur : q'.current = q.current)
      (hh : q'.handover = q.handover) (hw : q'.window = outstanding c.relTicket c.relCurrent)
  | countsDown (hpc : c.pc = .cDec ∨ c.pc = .rDec) (ht : q'.ticket = q.ticket)
      (hcur : q'.current = q.current) (hh : q'.handover = q.handover)
      (hw : q'.window = (q.window + 255) % 256)
  | bumps (hpc : c.pc = .cBump ∨ c.pc = .rBump) (ht : q'.ticket = q.ticket)
      (hcur : q'.current = q.current + 1) (hh : q'.handover = q.handover) (hw : q'.window = q.window)
  | keeps (ht : q'.ticket = q.ticket) (hcur : q'.current = q.current)
      (hh : q'.handover = q.handover) (hw : q'.window = q.window)

theorem Step.serveEffect (h : Step now n c n' c' o) :
    ServeEffect (n.queue c.side) (n'.queue c.side) c := by
  cases h with
  | takeTicket hpc => exact .takes hpc (by simp) (by simp) (by simp) (by simp)
  | clearHand hpc => exact .hands (.inl hpc) (by simp) (by simp) (by simp)
  | rStoreHand hpc => exact .hands (.inr hpc) (by simp) (by simp) (by simp)
  | oStoreOwn hpc => exact .opens hpc (by simp) (by simp) (by simp) (by simp)
  | cDec hpc => exact .countsDown (.inl hpc) (by simp) (by simp) (by simp) (by simp)
  | rDec hpc => exact .countsDown (.inr hpc) (by simp) (by simp) (by simp) (by simp)
  | cBump hpc => exact .bumps (.inl hpc) (by simp) (by simp) (by simp) (by simp)
  | rBump hpc => exact .bumps (.inr hpc) (by simp) (by simp) (by simp) (by simp)
  | _ => apply ServeEffect.keeps <;> simp

theorem Step.ticket_le (h : Step now n c n' c' o) :
    (n.queue c.side).ticket ≤ (n'.queue c.side).ticket := by
  cases h.serveEffect <;> omega

attribute [local simp] Pc.undecided Pc.countedDown

theorem Step.to_loadHand (h : Step now n c n' c' o) (hp : c'.pc = .loadHand) :
    c.pc = .clearHand ∧ (n'.queue c.side).handover = false ∨
      c.pc = .loadWin ∧ (n.queue c.side).window ≠ 0 := by
  cases h with
  | win hpc hw => exact .inr ⟨hpc, hw⟩
  | clearHand hpc => exact .inl ⟨hpc, by simp⟩
  | openKey hpc | joinKey hpc | handed hpc | openWin hpc | oUnlock hpc | oStoreOwn hpc =>
    cases hs : c.side <;> simp_all
  | @getKeyNo site | @getBuf site => cases site <;> simp [afterGet, Site.after] at hp
  | loaded | sameValue | traversed | writeLeaf =>
    cases ha : c.acq.2 <;> cases hs : c.side <;> simp [leaveBody, ha, hs] at hp
  | _ => simp_all

theorem Step.to_counting (h : Step now n c n' c' o) (hp : c'.pc.counting = true) :
    c'.acq = c.acq ∧ (c.pc.counting = true ∧ c'.relTicket = c.relTicket ∨
      c.pc = .rTicket ∧ c'.relTicket = (n.queue c.side).ticket) := by
  cases h with
  | rTicket hpc => exact ⟨rfl, .inr ⟨hpc, rfl⟩⟩
  | openKey hpc | joinKey hpc | handed hpc | openWin hpc | oUnlock hpc | oStoreOwn hpc =>
    cases hs : c.side <;> simp_all
  | @getKeyNo site | @getBuf site => cases site <;> simp [afterGet, Site.after] at hp
  | loaded | sameValue | traversed | writeLeaf =>
    cases ha : c.acq.2 <;> cases hs : c.side <;> simp [leaveBody, ha, hs] at hp
  | _ => simp_all

theorem Step.to_undecided (h : Step now n c n' c' o) (hp : c'.pc.undecided = true) :
    c.pc.undecided = true ∧ c'.ticket = c.ticket ∨
      c.pc = .takeTicket ∧ c'.ticket = (n.queue c.side).ticket := by
  cases h with
  | takeTicket hpc => exact .inr ⟨hpc, rfl⟩
  | openKey hpc | joinKey hpc | handed hpc | openWin hpc | oUnlock hpc | oStoreOwn hpc =>
    cases hs : c.side <;> simp_all
  | @getKeyNo site | @getBuf site => cases site <;> simp [afterGet, Site.after] at hp
  | loaded | sameValue | traversed | writeLeaf =>
    cases ha : c.acq.2 <;> cases hs : c.side <;> simp [leaveBody, ha, hs] at hp
  | _ => simp_all

theorem Step.to_countedDown (h : Step now n c n' c' o) (hp : c'.pc.countedDown = true) :
    c.critical = true ∧ (n'.queue c.side).current = (n.queue c.side).current ∧
      (c.pc.countedDown = true ∧ (n'.queue c.side).window = (n.queue c.side).window ∨
        (c.pc = .cDec ∨ c.pc = .rDec) ∧
          (n'.queue c.side).window = ((n.queue c.side).window + 255) % 256 ∨
        (n'.queue c.side).window = 0) := by
  cases h with
  | cNoWin hpc hw | rNoWin hpc hw => simp [hpc, hw, Client.critical]
  | openKey hpc | joinKey hpc | handed hpc | openWin hpc | oUnlock hpc | oStoreOwn hpc =>
    cases hs : c.side <;> simp [hs] at hp
  | @getKeyNo site | @getBuf site => cases site <;> simp [afterGet, Site.after] at hp
  | loaded | sameValue | traversed | writeLeaf =>
    cases ha : c.acq.2 <;> cases hs : c.side <;> simp [leaveBody, ha, hs] at hp
  | _ => simp_all [Client.critical]

theorem Step.to_dec (h : Step now n c n' c' o) (hp : c'.pc = .cDec ∨ c'.pc = .rDec) :
    (n'.queue c.side).window ≠ 0 := by
  cases h with
  | cWin hpc hw | rWin hpc hw => exact hw
  | openKey hpc | joinKey hpc | handed hpc | openWin hpc | oUnlock hpc | oStoreOwn hpc =>
    cases hs : c.side <;> simp [hs] at hp
  | @getKeyNo site | @getBuf site => cases site <;> simp [afterGet, Site.after] at hp
  | loaded | sameValue | traversed | writeLeaf =>
    cases ha : c.acq.2 <;> cases hs : c.side <;> simp [leaveBody, ha, hs] at hp
  | _ => simp at hp

theorem Step.to_handed (h : Step now n c n' c' o) (ha : c'.acq.1 = true) :
    c'.acq = c.acq ∨ c.pc = .loadHand ∧ (n.queue c.side).handover = true := by
  cases h with
  | handed hpc hh => exact .inr ⟨hpc, hh⟩
  | refuseKey | cBump | winner => simp at ha
  | _ => exact .inl rfl

end serving

/-- The 8-bit subtraction is exact while the queue is shorter than 256. -/
theorem outstanding_eq {ticket current : ℕ} (h₁ : current ≤ ticket) (h₂ : ticket ≤ current + 255) :
    outstanding ticket current = ticket - current := by
  unfold outstanding
  omega

theorem Client.critical_of_counting {c : Client κ ν} (h : c.pc.counting = true) : c.critical = true := by
  cases hp : c.pc <;> simp_all [Pc.counting, Pc.loaded, Pc.opening, Client.critical]

theorem Client.critical_of_decided {c : Client κ ν} (h : c.decided = true) : c.critical = true := by
  cases hp : c.pc <;>
    simp_all [Client.decided, Pc.counting, Pc.loaded, Pc.opening, Client.critical]

theorem Pc.counting_of_loaded {pc : Pc} (h : pc.loaded = true) : pc.counting = true := by
  cases pc <;> simp_all [Pc.counting]

theorem Serving.of_not_critical {q q' : Queue κ} {c : Client κ ν} (h : Serving q c)
    (hc : c.critical = false) : Serving q' c := by
  have hd (hp : c.decided = true) : False := by simp [Client.critical_of_decided hp] at hc
  have hcnt (hp : c.pc.counting = true) : False := by simp [Client.critical_of_counting hp] at hc
  exact
    { notHanded := h.notHanded
      noConflict := h.noConflict
      flag := fun hp => (hd hp).elim
      opener := h.opener
      loser := h.loser
      publisher := h.publisher
      current := fun hp => (hcnt (Pc.counting_of_loaded hp)).elim
      ticket := fun hp => (hcnt hp).elim }

section reach
variable [DecidableEq ι] {hash : κ → ℕ} {s t : Table ι κ ν} {i : ι}

theorem Serving.moves {m : ℕ} {sd : Side} {j : ι} (h : Serving ((s.node m).queue sd) (s.client j))
    (inv : QueueInv hash s m sd) (hj : hash (s.client j).key = m ∧ (s.client j).side = sd)
    (hm : Moves hash s i t) (hji : j ≠ i) : Serving ((t.node m).queue sd) (s.client j) := by
  cases hc : (s.client j).critical with
  | false => exact h.of_not_critical hc
  | true =>
    cases hm with
    | begins => exact h
    | @steps hpc n' c' o hs =>
      simp only [Table.observe_node]
      by_cases hm : hash (s.client i).key = m
      · subst hm
        rw [Function.update_self]
        by_cases hsd : (s.client i).side = sd
        · subst hsd
          have hq : InQueue hash s (hash (s.client i).key) (s.client i).side j :=
            ⟨hj.1, hj.2, Client.ticketed_of_critical hc⟩
          -- only one client of a queue is served at a time
          have hci : (s.client i).critical = false := by
            by_contra hci
            rw [Bool.not_eq_false] at hci
            exact hji (inv.unique hq ⟨rfl, rfl, Client.ticketed_of_critical hci⟩ hc hci)
          obtain ⟨hcur, hh, -, ht⟩ := hs.unserved hci
          exact h.other hcur hh ht
        · obtain rfl := Side.eq_other_of_ne hsd
          obtain ⟨hcur, ht, hh⟩ := hs.otherQueue
          exact h.other hcur hh ht.ge
      · rw [Function.update_of_ne (Ne.symm hm)]
        exact h

theorem serving_of_reach [DecidableEq κ] [Fintype ι] (hcard : Fintype.card ι ≤ 255)
    {G : Table ι κ ν → ι × Choice κ ν → Prop} (h : (system ι ν hash).Reach G s) (i : ι)
    (hi : (s.client i).pc ≠ .idle) :
    Serving ((s.node (hash (s.client i).key)).queue (s.client i).side) (s.client i) := by
  refine h.invariant (P := fun s => ∀ i, (s.client i).pc ≠ .idle →
    Serving ((s.node (hash (s.client i).key)).queue (s.client i).side) (s.client i)) ?_ ?_ i hi
  · exact fun s hs i hi => absurd (hs.2.2.1 i) hi
  · intro s a t hr ih _ ht i hi
    have hm := next_moves ht
    have hq (m : ℕ) (sd : Side) : QueueInv hash s m sd := .of_reach hcard hr
    by_cases hia : i = a.1
    · subst hia
      cases hm with
      | begins hpc hb =>
        obtain ⟨hp, hacq, -⟩ := hb.locals
        constructor <;>
          simp [hp, hacq, Client.decided, Pc.counting, Pc.loaded, Pc.opening]
      | steps hpc hs =>
        have := (ih a.1 hpc).step hs fun hk => by
          have hb := (hq _ _).bound a.1 ⟨rfl, rfl, hk⟩
          omega
        simpa [hs.key_eq, hs.side_eq] using this
    · rw [hm.client_ne hia] at hi ⊢
      exact (ih i hi).moves (hq _ _) ⟨rfl, rfl⟩ hm hia

end reach

theorem Client.critical_of_countedDown {c : Client κ ν} (h : c.pc.countedDown = true) :
    c.critical = true := by
  cases hp : c.pc <;> simp_all [Pc.countedDown, Client.critical]

theorem Client.ticketed_of_undecided {c : Client κ ν} (h : c.pc.undecided = true) :
    c.ticketed = true := by
  cases hp : c.pc <;> simp_all [Pc.undecided, Client.ticketed, Client.critical]

theorem Client.running_of_ticketed {c : Client κ ν} (h : c.ticketed = true) : c.pc ≠ .idle := by
  rintro hp
  simp [Client.ticketed, Client.critical, hp] at h

end SmartTree.LocalLock
