import SmartTree.Lib.TicketLock
import SmartTree.LocalLock.Step

/-! The ticket discipline of one queue. A step of a client takes a ticket, passes the
wait, bumps the counter, or leaves counters and tickets alone; everything about the
order of service follows from these four effects. -/
namespace SmartTree.LocalLock
variable {κ ν : Type*}

def Client.critical (c : Client κ ν) : Bool :=
  match c.pc with
  | .idle | .casKey | .deposit | .takeTicket | .wait | .rUnlock | .ret => false
  | .body | .getKey _ | .getBuf _ | .checkLeaf | .writeLeaf | .placeLeaf => !c.acq.2
  | _ => true

def Client.ticketed (c : Client κ ν) : Bool := decide (c.pc = .wait) || c.critical

inductive QueueEffect (n n' : LockNode κ ν) (c c' : Client κ ν) : Prop where
  | takes (h₁ : c.ticketed = false) (h₂ : c'.ticketed = true) (h₃ : c'.critical = false)
      (h₄ : c'.ticket = (n.queue c.side).ticket)
      (h₅ : (n'.queue c.side).ticket = (n.queue c.side).ticket + 1)
      (h₆ : (n'.queue c.side).current = (n.queue c.side).current)
  | enters (h₁ : c.ticketed = true) (h₂ : c.critical = false) (h₃ : c'.critical = true)
      (h₄ : c.ticket % 256 = (n.queue c.side).current % 256) (h₅ : c'.ticket = c.ticket)
      (h₆ : (n'.queue c.side).ticket = (n.queue c.side).ticket)
      (h₇ : (n'.queue c.side).current = (n.queue c.side).current)
  | leaves (h₁ : c.critical = true) (h₂ : c'.ticketed = false)
      (h₃ : (n'.queue c.side).ticket = (n.queue c.side).ticket)
      (h₄ : (n'.queue c.side).current = (n.queue c.side).current + 1)
  | stays (h₁ : c'.ticketed = c.ticketed) (h₂ : c'.critical = c.critical)
      (h₃ : c'.ticket = c.ticket) (h₄ : (n'.queue c.side).ticket = (n.queue c.side).ticket)
      (h₅ : (n'.queue c.side).current = (n.queue c.side).current)

section effect
attribute [local simp] Client.ticketed Client.critical LockNode.setWindow LockNode.setHandover
  LockNode.setLocked LockNode.setKey LockNode.decWindow LockNode.setQueue_queue leaveBody

theorem Step.queueEffect {now : ℕ} {n n' : LockNode κ ν} {c c' : Client κ ν} {o : Obs κ ν}
    (h : Step now n c n' c' o) : QueueEffect n n' c c' := by
  cases h with
  | takeTicket hpc =>
    apply QueueEffect.takes <;> simp [hpc, LockNode.bumpTicket]
  | enter hpc ht => apply QueueEffect.enters <;> simp [hpc, ht]
  | cBump hpc => apply QueueEffect.leaves <;> simp [hpc, LockNode.bumpCurrent]
  | rBump hpc => apply QueueEffect.leaves <;> simp [hpc, LockNode.bumpCurrent]
  | openKey hpc hk => cases hs : c.side <;> apply QueueEffect.stays <;> simp [hpc, hs]
  | joinKey hpc hk => cases hs : c.side <;> apply QueueEffect.stays <;> simp [hpc, hs]
  | @getKeyNo site hpc hk => cases site <;> apply QueueEffect.stays <;> simp [hpc, afterGet, Site.after]
  | @getBuf site hpc => cases site <;> apply QueueEffect.stays <;> simp [hpc, afterGet, Site.after]
  | writeLeaf hpc =>
    cases ha : c.acq.2 <;> cases hs : c.side <;> rcases hpc with hpc | hpc <;>
      apply QueueEffect.stays <;> simp [hpc, ha, hs]
  | loaded hpc hs hl => cases ha : c.acq.2 <;> apply QueueEffect.stays <;> simp [hpc, ha, hs]
  | traversed hpc hs _ _ => cases ha : c.acq.2 <;> apply QueueEffect.stays <;> simp [hpc, ha, hs]
  | sameValue hpc =>
    cases ha : c.acq.2 <;> cases hs : c.side <;> apply QueueEffect.stays <;> simp [hpc, ha, hs]
  | handed hpc _ | openWin hpc _ | oUnlock hpc | oStoreOwn hpc =>
    cases hs : c.side <;> apply QueueEffect.stays <;> simp [hpc, hs]
  | winner hpc hk => apply QueueEffect.stays <;> simp [hpc]
  | _ => apply QueueEffect.stays <;> simp [*]

end effect

/-- Counters and flag of a queue move only by steps of its own clients. -/
theorem Step.otherQueue {now : ℕ} {n n' : LockNode κ ν} {c c' : Client κ ν} {o : Obs κ ν}
    (h : Step now n c n' c' o) :
    (n'.queue c.side.other).current = (n.queue c.side.other).current ∧
      (n'.queue c.side.other).ticket = (n.queue c.side.other).ticket ∧
      (n'.queue c.side.other).handover = (n.queue c.side.other).handover := by
  cases h <;> simp [LockNode.setWindow, LockNode.setHandover, LockNode.setLocked, LockNode.setKey,
    LockNode.decWindow, LockNode.bumpTicket, LockNode.bumpCurrent, LockNode.setQueue_queue]

variable {ι : Type*}

def InQueue (hash : κ → ℕ) (s : Table ι κ ν) (m : ℕ) (sd : Side) (i : ι) : Prop :=
  hash (s.client i).key = m ∧ (s.client i).side = sd ∧ (s.client i).ticketed = true

theorem Client.ticketed_of_critical {c : Client κ ν} (h : c.critical = true) : c.ticketed = true := by
  simp [Client.ticketed, h]

section moves
variable [DecidableEq ι] {hash : κ → ℕ} {s t : Table ι κ ν} {i : ι}

theorem Moves.client_ne (h : Moves hash s i t) {j : ι} (hj : j ≠ i) : t.client j = s.client j := by
  cases h <;> simp [Function.update_of_ne hj]

theorem Moves.inQueue_ne (h : Moves hash s i t) {j : ι} (hj : j ≠ i) {m : ℕ} {sd : Side} :
    InQueue hash t m sd j ↔ InQueue hash s m sd j := by
  simp [InQueue, h.client_ne hj]

theorem Moves.now_eq (h : Moves hash s i t) : t.now = s.now + 1 := by
  cases h <;> simp

/-- What a step means for one queue: an effect of one of its clients, or nothing. -/
theorem Moves.queue (h : Moves hash s i t) (m : ℕ) (sd : Side) :
    ((hash (s.client i).key = m ∧ (s.client i).side = sd ∧ hash (t.client i).key = m ∧
        (t.client i).side = sd) ∧
      QueueEffect (s.node m) (t.node m) (s.client i) (t.client i)) ∨
    (¬ InQueue hash s m sd i ∧ ¬ InQueue hash t m sd i ∧
      ((t.node m).queue sd).current = ((s.node m).queue sd).current ∧
      ((t.node m).queue sd).ticket = ((s.node m).queue sd).ticket) := by
  cases h with
  | begins hpc hb =>
    refine .inr ⟨?_, ?_, rfl, rfl⟩
    · simp [InQueue, Client.ticketed, Client.critical, hpc]
    · cases hb <;> simp [InQueue, Client.ticketed, Client.critical]
  | @steps hpc n' c' o hs =>
    by_cases hm : hash (s.client i).key = m
    · subst hm
      by_cases hsd : (s.client i).side = sd
      · subst hsd
        exact .inl (by simpa [hs.key_eq, hs.side_eq] using hs.queueEffect)
      · obtain rfl := Side.eq_other_of_ne hsd
        obtain ⟨hcur, htk, -⟩ := hs.otherQueue
        exact .inr (by simp [InQueue, hs.side_eq, hcur, htk])
    · exact .inr (by simp [InQueue, hs.key_eq, hm, Function.update_of_ne (Ne.symm hm)])

end moves

def queueView (hash : κ → ℕ) (s : Table ι κ ν) (m : ℕ) (sd : Side) : TicketLock.View ι where
  current := ((s.node m).queue sd).current
  ticket := ((s.node m).queue sd).ticket
  holds := InQueue hash s m sd
  number i := (s.client i).ticket
  served i := (s.client i).critical = true

/-- Tickets in the queue are distinct, fill the range from the current one to the next
free one, and only the current one is being served. -/
structure QueueInv (hash : κ → ℕ) (s : Table ι κ ν) (m : ℕ) (sd : Side) : Prop where
  bound : ∀ i, InQueue hash s m sd i →
    ((s.node m).queue sd).current ≤ (s.client i).ticket ∧
      (s.client i).ticket < ((s.node m).queue sd).ticket
  serving : ∀ i, InQueue hash s m sd i → (s.client i).critical = true →
    (s.client i).ticket = ((s.node m).queue sd).current
  inj : ∀ i j, InQueue hash s m sd i → InQueue hash s m sd j →
    (s.client i).ticket = (s.client j).ticket → i = j
  held : ∀ x, ((s.node m).queue sd).current ≤ x → x < ((s.node m).queue sd).ticket →
    ∃ i, InQueue hash s m sd i ∧ (s.client i).ticket = x
  le : ((s.node m).queue sd).current ≤ ((s.node m).queue sd).ticket

namespace QueueInv
variable {hash : κ → ℕ} {s t : Table ι κ ν} {m : ℕ} {sd : Side}

theorem iff_ticketLock : QueueInv hash s m sd ↔ TicketLock.Inv (queueView hash s m sd) :=
  ⟨fun h => ⟨h.bound, h.serving, h.inj, h.held, h.le⟩,
    fun h => ⟨h.bound, h.serving, h.inj, h.held, h.le⟩⟩

theorem initial (h : Initial s) : QueueInv hash s m sd := by
  have hq := (h.2.1 m).1 sd
  have hn (i : ι) : ¬ InQueue hash s m sd i := by
    simp [InQueue, Client.ticketed, Client.critical, h.2.2.1 i]
  exact ⟨fun i hi => absurd hi (hn i), fun i hi => absurd hi (hn i), fun i _ hi => absurd hi (hn i),
    fun x _ hx => by simp [hq] at hx, by simp [hq]⟩

theorem ticket_le [Fintype ι] (inv : QueueInv hash s m sd) :
    ((s.node m).queue sd).ticket ≤ ((s.node m).queue sd).current + Fintype.card ι :=
  (iff_ticketLock.mp inv).ticket_le (S := Finset.univ) fun i _ => Finset.mem_univ i

theorem ticket_lt [Fintype ι] (inv : QueueInv hash s m sd) {i : ι} (hi : ¬ InQueue hash s m sd i) :
    ((s.node m).queue sd).ticket < ((s.node m).queue sd).current + Fintype.card ι :=
  (iff_ticketLock.mp inv).ticket_lt (fun i _ => Finset.mem_univ i) (Finset.mem_univ i) hi

theorem unique (inv : QueueInv hash s m sd) {i j : ι} (hi : InQueue hash s m sd i)
    (hj : InQueue hash s m sd j) (ci : (s.client i).critical = true)
    (cj : (s.client j).critical = true) : i = j :=
  (iff_ticketLock.mp inv).unique hi hj ci cj

section step
variable [DecidableEq ι] {i : ι}

theorem step (inv : QueueInv hash s m sd)
    (hspan : ((s.node m).queue sd).ticket ≤ ((s.node m).queue sd).current + 256)
    (h : Moves hash s i t) : QueueInv hash t m sd := by
  refine iff_ticketLock.mpr ((iff_ticketLock.mp inv).step (i := i) hspan ?_ fun j hj => ?_)
  · obtain ⟨⟨hk, rfl, hk', hs'⟩, he⟩ | ⟨hs, ht, hcur, htk⟩ := h.queue m sd
    · cases he with
      | takes h₁ h₂ h₃ h₄ h₅ h₆ =>
        exact .takes (by simp [queueView, InQueue, h₁]) ⟨hk', hs', h₂⟩ (by simp [queueView, h₃]) h₄ h₅ h₆
      | enters h₁ h₂ h₃ h₄ h₅ h₆ h₇ =>
        exact .enters ⟨hk, rfl, h₁⟩ ⟨hk', hs', Client.ticketed_of_critical h₃⟩ (hk ▸ h₄) h₅ h₆ h₇
      | leaves h₁ h₂ h₃ h₄ =>
        exact .leaves ⟨hk, rfl, Client.ticketed_of_critical h₁⟩ h₁ (by simp [queueView, InQueue, h₂]) h₃ h₄
      | stays h₁ h₂ h₃ h₄ h₅ =>
        exact .stays (by simp [queueView, InQueue, hk, hk', hs', h₁]) (fun _ hc => h₂.symm.trans hc)
          (fun _ => h₃) h₄ h₅
    · exact .stays (iff_of_false ht hs) (fun hi => absurd hi hs) (fun hi => absurd hi hs) htk hcur
  · simp [queueView, h.inQueue_ne hj, h.client_ne hj]

theorem of_reach [DecidableEq κ] [Fintype ι] (hcard : Fintype.card ι ≤ 255)
    {G : Table ι κ ν → ι × Choice κ ν → Prop} (h : (system ι ν hash).Reach G s) :
    QueueInv hash s m sd :=
  h.invariant (fun _ => initial) fun _ _ _ _ inv _ ht =>
    inv.step (inv.ticket_le.trans (by omega)) (next_moves ht)

end step
end QueueInv

def OnKey (k : κ) : Choice κ ν → Prop
  | .beginInsert key _ _ | .beginSearch key => key = k
  | _ => True

def NoSearch : Choice κ ν → Prop
  | .beginSearch _ => False
  | _ => True

instance [DecidableEq κ] (k : κ) (ch : Choice κ ν) : Decidable (OnKey k ch) :=
  match ch with
  | .beginInsert key _ _ | .beginSearch key => inferInstanceAs (Decidable (key = k))
  | .go | .foundLeaf | .noLeaf | .sameValue | .differs | .casOk | .casFail | .traversed _ _ =>
    isTrue trivial

instance (ch : Choice κ ν) : Decidable (NoSearch ch) :=
  match ch with
  | .beginSearch _ => isFalse id
  | .beginInsert _ _ _ | .go | .foundLeaf | .noLeaf | .sameValue | .differs | .casOk | .casFail
  | .traversed _ _ => isTrue trivial

section oneKey
variable [DecidableEq κ] [DecidableEq ι] {hash : κ → ℕ} {s t : Table ι κ ν} {k : κ}
  {G : Table ι κ ν → ι × Choice κ ν → Prop}

/-- A property of running clients that operations start with and steps keep. -/
theorem running_of_reach {P : Client κ ν → Prop}
    (hb : ∀ s a c', G s a → beginOp s.now (s.client a.1) a.2 = some c' → P c')
    (hs : ∀ {now n c n' c' o}, Step (κ := κ) (ν := ν) now n c n' c' o → P c → P c')
    (h : (system ι ν hash).Reach G s) (i : ι) (hi : (s.client i).pc ≠ .idle) : P (s.client i) := by
  refine h.invariant (P := fun s => ∀ i, (s.client i).pc ≠ .idle → P (s.client i)) ?_ ?_ i hi
  · exact fun s hs i hi => absurd (hs.2.2.1 i) hi
  · intro s a t _ ih hg ht i hi
    by_cases hia : i = a.1
    · subst hia
      by_cases hpc : (s.client a.1).pc = .idle
      · simp only [system, next, hpc, if_pos] at ht
        obtain ⟨c', hc', rfl⟩ := Option.map_eq_some_iff.mp ht
        simpa using hb s a c' hg hc'
      · cases next_moves ht with
        | begins hpc' => exact absurd hpc' hpc
        | steps _ hst => simpa using hs hst (ih a.1 hpc)
    · have hm := next_moves ht
      rw [hm.client_ne hia] at hi ⊢
      exact ih i hi

theorem key_of_reach (hG : ∀ s a, G s a → OnKey k a.2) (h : (system ι ν hash).Reach G s) (i : ι)
    (hi : (s.client i).pc ≠ .idle) : (s.client i).key = k := by
  refine running_of_reach (P := fun c => c.key = k) ?_ (fun hst hc => hst.key_eq.trans hc) h i hi
  intro s a c' hg hb
  have := hG s a hg
  cases hch : a.2 <;> simp_all [beginOp, OnKey] <;> subst hb <;> rfl

theorem side_of_reach (hG : ∀ s a, G s a → NoSearch a.2) (h : (system ι ν hash).Reach G s) (i : ι)
    (hi : (s.client i).pc ≠ .idle) : (s.client i).side = .write := by
  refine running_of_reach (P := fun c => c.side = .write) ?_ (fun hst hc => hst.side_eq.trans hc) h i hi
  intro s a c' hg hb
  have := hG s a hg
  cases hch : a.2 <;> simp_all [beginOp, NoSearch]
  subst hb
  rfl

omit [DecidableEq κ]

inductive KeyMoves (m : ℕ) (s : Table ι κ ν) (i : ι) (t : Table ι κ ν) : Prop where
  | begins (hpc : (s.client i).pc = .idle) (hb : Begins s.now (s.client i) (t.client i))
      (hnode : t.node m = s.node m) (hw : t.writes = s.writes) (hret : t.returned = s.returned)
  | steps (hpc : (s.client i).pc ≠ .idle) {o : Obs κ ν}
      (hst : Step s.now (s.node m) (s.client i) (t.node m) (t.client i) o)
      (hw : ∀ w ∈ s.writes, w ∈ t.writes) (hnew : ∀ w, o = .leafWrite w → w ∈ t.writes)
      (hret : ∀ c, c ∈ t.returned ↔ c ∈ s.returned ∨ o = .completed c)

theorem Moves.keyMoves {i : ι} (h : Moves hash s i t)
    (hk : (s.client i).pc ≠ .idle → (s.client i).key = k) : KeyMoves (hash k) s i t := by
  cases h with
  | begins hpc hb => exact .begins hpc (by simpa using hb) rfl rfl rfl
  | @steps hpc n' c' o hs =>
    rw [hk hpc] at hs ⊢
    refine .steps hpc (o := o) (by simpa using hs) (fun w hw => Table.mem_observe_writes _ _ hw) ?_ ?_
    · rintro w rfl
      simp [Table.observe]
    · intro c
      cases o <;> simp [Table.observe, eq_comm]

end oneKey

end SmartTree.LocalLock
