import SmartTree.LocalLock.ReadView

/-! Read delegation and keys. The handover flag, the unique read key and the stored
result are shared by every key of a lock node; while the flag is set the unique key
stays, and the stored result belongs to it. -/
namespace SmartTree.LocalLock
variable {ι κ ν : Type*}

/-- What a search does that matters to others: it traverses the tree, stores its result for
the waiting ones, or returns a result it was handed. A search is named by the time it was
invoked at, which no two of them share. -/
inductive ReadEvent (κ ν : Type*) where
  | traversed (search : ℕ) (key : κ) (found : Bool) (v : ν)
  | stored (search : ℕ) (key : κ) (found : Bool) (v : ν)
  | delegated (search : ℕ) (key : κ) (found : Bool) (v : ν)
deriving DecidableEq

def readEvent (s : Table ι κ ν) (a : ι × Choice κ ν) : Option (ReadEvent κ ν) :=
  let c := s.client a.1
  match c.pc, a.2 with
  | .body, .traversed found v => some (.traversed c.invAt c.key found v)
  | .storeVal, .go => some (.stored c.invAt c.key c.found c.val)
  | .rUnlock, .go =>
    if c.side = .read ∧ c.acq = (true, false) then some (.delegated c.invAt c.key c.found c.val)
    else none
  | _, _ => none

def Backed (log : List (ReadEvent κ ν)) (k : κ) (found : Bool) (v : ν) : Prop :=
  ∃ search, .stored search k found v ∈ log ∧ .traversed search k found v ∈ log

theorem Backed.mono {log log' : List (ReadEvent κ ν)} {k : κ} {found : Bool} {v : ν}
    (h : Backed log k found v) (hl : log ⊆ log') : Backed log' k found v := by
  obtain ⟨search, hs, ht⟩ := h
  exact ⟨search, hl hs, hl ht⟩

/-- Every delegated result was backed when it was returned. -/
def WithinKey (log : List (ReadEvent κ ν)) : Prop :=
  ∀ before after search k found v, log = after ++ .delegated search k found v :: before →
    Backed before k found v

def Client.keyed (c : Client κ ν) : Bool :=
  match c.pc with
  | .loadWin | .clearHand | .loadHand | .rTestKey | .rClearKey => true
  | _ => c.decided

def NodeBacked (log : List (ReadEvent κ ν)) (n : LockNode κ ν) : Prop :=
  (n.queue .read).handover = true →
    ∃ k, (n.queue .read).uniqueKey = some k ∧ Backed log k n.res n.retValue

structure SearchBacked (log : List (ReadEvent κ ν)) (n : LockNode κ ν) (c : Client κ ν) : Prop where
  key : c.keyed = true → (n.queue .read).uniqueKey = some c.key
  clearing : c.pc = .rClearKey → (n.queue .read).handover = false
  traversed : c.pc = .storeRes ∨ c.pc = .storeVal ∨ c.pc = .testHand ∧ c.acq.1 = false →
    .traversed c.invAt c.key c.found c.val ∈ log
  storing : c.pc = .storeVal → n.res = c.found
  stored : c.pc = .rTicket ∨ c.pc.counting = true → Backed log c.key n.res n.retValue
  loading : c.pc = .loadVal → c.found = n.res
  given : c.pc.received = true → c.pc ≠ .loadVal → c.acq.1 = true → Backed log c.key c.found c.val

structure ReadShare (κ ν : Type*) where
  uniqueKey : Option κ
  handover : Bool
  res : Bool
  retValue : ν

def LockNode.readShare (n : LockNode κ ν) : ReadShare κ ν where
  uniqueKey := (n.queue .read).uniqueKey
  handover := (n.queue .read).handover
  res := n.res
  retValue := n.retValue

def Pc.shares : Pc → Bool
  | .clearHand | .storeRes | .storeVal | .rStoreHand | .rClearKey => true
  | _ => false

theorem Client.critical_of_shares {c : Client κ ν} (h : c.pc.shares = true) : c.critical = true := by
  cases hp : c.pc <;> simp_all [Pc.shares, Client.critical]

inductive ShareEffect (v v' : ReadShare κ ν) (c : Client κ ν) : Prop where
  | opens (hv : v' = { v with uniqueKey := some c.key }) (h₀ : v.uniqueKey = none)
  | served (hp : c.pc.shares = true) (hs : c.side = .read)
  | keeps (hv : v' = v)

@[simp] theorem LockNode.setQueue_res (n : LockNode κ ν) (sd : Side) (q : Queue κ) :
    (n.setQueue sd q).res = n.res := rfl
@[simp] theorem LockNode.setQueue_retValue (n : LockNode κ ν) (sd : Side) (q : Queue κ) :
    (n.setQueue sd q).retValue = n.retValue := rfl

section step
variable {now : ℕ} {n n' : LockNode κ ν} {c c' : Client κ ν} {o : Obs κ ν}
  {log log' : List (ReadEvent κ ν)}
attribute [local simp] LockNode.setWindow LockNode.setHandover LockNode.setLocked LockNode.setKey
  LockNode.decWindow LockNode.bumpTicket LockNode.bumpCurrent LockNode.setQueue_queue
  LockNode.readShare

theorem Step.shareEffect (h : Step now n c n' c' o) (hsh : c.Shaped) :
    ShareEffect n.readShare n'.readShare c := by
  have hr := hsh .read
  cases h with
  | openKey hpc hk =>
    cases hs : c.side with
    | read => exact .opens (by simp) (by simpa [hs] using hk)
    | write => exact .keeps (by simp)
  | clearHand hpc | rStoreHand hpc | rClearKey hpc =>
    cases hs : c.side with
    | read => exact .served (by simp [Pc.shares, hpc]) hs
    | write => exact .keeps (by simp)
  | storeRes hpc | storeVal hpc =>
    exact .served (by simp [Pc.shares, hpc]) (hr (by simp [hpc, Pc.onlySide]))
  | takeTicket | cDec | cBump | oLock | oStoreOther | oUnlock | oStoreOwn | rLock | rDec | rBump
  | rUnlock =>
    apply ShareEffect.keeps
    simp only [LockNode.readShare, ReadShare.mk.injEq]
    exact ⟨n.setQueue_keeps Queue.uniqueKey _ _ rfl, n.setQueue_keeps Queue.handover _ _ rfl, rfl, rfl⟩
  | _ => exact .keeps rfl

/-- The log after a step: nothing is lost, and a traversal and a store are recorded. -/
structure Records (log log' : List (ReadEvent κ ν)) (c c' : Client κ ν) : Prop where
  sub : log ⊆ log'
  traversed : c.pc = .body → c.side = .read → .traversed c'.invAt c'.key c'.found c'.val ∈ log'
  stored : c.pc = .storeVal → .stored c.invAt c.key c.found c.val ∈ log'

/-- Nothing that `SearchBacked` speaks of is entered. -/
def Client.SearchWithin (c c' : Client κ ν) : Prop :=
  (c'.keyed → c.keyed) ∧ c'.pc ≠ .rClearKey ∧ c'.pc ≠ .storeRes ∧ c'.pc ≠ .storeVal ∧
    (c'.pc = .testHand → c.pc = .testHand) ∧ c'.pc ≠ .loadVal ∧
    (c'.pc = .rTicket ∨ c'.pc.counting → c.pc = .rTicket ∨ c.pc.counting) ∧
    (c'.pc.received → c.pc.received ∧ c.pc ≠ .loadVal)

theorem SearchBacked.quiet (h : SearchBacked log n c) (hn : n'.readShare = n.readShare)
    (hc : c'.key = c.key ∧ c'.acq = c.acq ∧ c'.found = c.found ∧ c'.val = c.val ∧ c'.invAt = c.invAt)
    (hpc : c.SearchWithin c') (hsub : log ⊆ log') : SearchBacked log' n' c' := by
  obtain ⟨hk, ha, hf, hv, hi⟩ := hc
  obtain ⟨h₁, h₂, h₃, h₄, h₅, h₆, h₇, h₈⟩ := hpc
  simp only [LockNode.readShare, ReadShare.mk.injEq] at hn
  obtain ⟨nk, nh, nr, nv⟩ := hn
  constructor
  · intro hp
    rw [nk, hk]
    exact h.key (h₁ hp)
  · exact fun hp => absurd hp h₂
  · rintro (hp | hp | ⟨hp, hp'⟩)
    · exact absurd hp h₃
    · exact absurd hp h₄
    · rw [hi, hk, hf, hv]
      exact hsub (h.traversed (.inr (.inr ⟨h₅ hp, ha ▸ hp'⟩)))
  · exact fun hp => absurd hp h₄
  · intro hp
    rw [hk, nr, nv]
    exact (h.stored (h₇ hp)).mono hsub
  · exact fun hp => absurd hp h₆
  · intro hp hp' hp''
    rw [hk, hf, hv]
    exact (h.given (h₈ hp).1 (h₈ hp).2 (ha ▸ hp'')).mono hsub

attribute [local simp] Client.keyed Client.decided Pc.counting Pc.loaded Pc.opening Pc.received
  Client.SearchWithin

theorem SearchBacked.step (h : SearchBacked log n c) (hn : NodeBacked log n)
    (hserv : Serving (n.queue .read) c) (hst : Step now n c n' c' o) (hs : c.side = .read)
    (hsh : c.Shaped) (hrec : Records log log' c c') : SearchBacked log' n' c' := by
  have hw := hsh .write
  have hsub := hrec.sub
  cases hst with
  | keyKept hpc hk => constructor <;> simp [hs ▸ hk]
  | clearHand hpc =>
    have hk := h.key (by simp [hpc])
    constructor <;> simp [hs, hk]
  | handed hpc hh | winner hpc hh =>
    have hk := h.key (by simp [hpc])
    constructor <;> simp [hs, hk]
  | traversed hpc _ found v =>
    have hk := h.key
    have ht := hrec.traversed hpc hs
    cases ha : c.acq.2 <;> constructor <;> simp_all [leaveBody]
  | loser hpc hh =>
    have hk := h.key (by simp [hpc])
    constructor <;> simp [hk]
  | publish hpc hh =>
    have hk := h.key (by simp [hpc])
    have hf := hserv.flag (by simp [hpc])
    have ht := h.traversed (.inr (.inr ⟨hpc, hf ▸ hs ▸ hh⟩))
    constructor <;> simp [hk, hsub ht]
  | storeRes hpc =>
    have hk := h.key (by simp [hpc])
    have ht := h.traversed (.inl hpc)
    constructor <;> simp [hk, hsub ht]
  | storeVal hpc =>
    have hk := h.key (by simp [hpc])
    have ht := h.traversed (.inr (.inl hpc))
    have ha := hserv.publisher (.inr hpc)
    have hb : Backed log' c.key c.found c.val := ⟨c.invAt, hrec.stored hpc, hsub ht⟩
    constructor <;> simp [hk, ha, h.storing hpc, hb]
  | loadRes hpc =>
    have hk := h.key (by simp [hpc])
    constructor <;> simp [hk]
  | loadVal hpc =>
    have hk := h.key (by simp [hpc])
    have hf := h.loading hpc
    -- the flag is set, so the stored result belongs to the unique key, which is its own
    obtain ⟨k, hk', hb⟩ := hn ((hserv.flag (by simp [hpc])).trans (hserv.loser (.inr hpc)))
    obtain rfl : k = c.key := Option.some_inj.mp (hk'.symm.trans hk)
    have hb' := hb.mono hsub
    constructor <;> simp [hk, hf, hb']
  | rStoreHand hpc =>
    have hk := h.key (by simp [hpc])
    have hg := h.given (by simp [hpc]) (by simp [hpc])
    constructor <;> simp [hs, hk]
    exact fun ha => (hg ha).mono hsub
  | dropKey hpc hh =>
    have hk := h.key (by simp [hpc])
    have hg := h.given (by simp [hpc]) (by simp [hpc])
    constructor <;> simp [hk, hs ▸ hh]
    exact fun ha => (hg ha).mono hsub
  | rClearKey hpc =>
    have hg := h.given (by simp [hpc]) (by simp [hpc])
    constructor <;> simp
    exact fun ha => (hg ha).mono hsub
  | openKey | joinKey => constructor <;> simp [hs]
  | @getKeyNo site hpc | @getBuf site hpc => simp [hs, hpc, Pc.onlySide] at hw
  | loaded hpc hs' => simp [hs] at hs'
  | writeLeaf hpc => rcases hpc with hpc | hpc <;> simp [hs, hpc, Pc.onlySide] at hw
  | sameValue hpc => simp [hs, hpc, Pc.onlySide] at hw
  | refuseKey | cBump => constructor <;> simp
  | _ => apply h.quiet <;> simp_all

theorem NodeBacked.step (hn : NodeBacked log n) (h : c.side = .read → SearchBacked log n c)
    (hserv : c.side = .read → Serving (n.queue .read) c) (hst : Step now n c n' c' o) (hsh : c.Shaped)
    (hsub : log ⊆ log') : NodeBacked log' n' := by
  intro hh
  cases hst.shareEffect hsh with
  | opens hv h₀ =>
    simp only [LockNode.readShare, ReadShare.mk.injEq] at hv h₀
    obtain ⟨k, hk, -⟩ := hn (hv.2.1 ▸ hh)
    simp [h₀] at hk
  | keeps hv =>
    simp only [LockNode.readShare, ReadShare.mk.injEq] at hv
    obtain ⟨hk, hf, hr, hv⟩ := hv
    obtain ⟨k, hk', hb⟩ := hn (hf ▸ hh)
    exact ⟨k, hk.trans hk', by rw [hr, hv]; exact hb.mono hsub⟩
  | served hp hs =>
    have hserv := hserv hs
    have h := h hs
    cases hst with
    | storeRes hpc | storeVal hpc =>
      have hf := (hserv.flag (by simp [hpc])).trans (hserv.publisher (by simp [hpc]))
      exact absurd (hf.symm.trans hh) (by simp)
    | rStoreHand hpc =>
      refine ⟨c.key, ?_, (h.stored (by simp [hpc])).mono hsub⟩
      simpa [hs] using h.key (by simp [hpc])
    | clearHand hpc => simp [hs] at hh
    | rClearKey hpc =>
      have hf := h.clearing hpc
      simp [hs, hf] at hh
    | writeLeaf hpc => rcases hpc with hpc | hpc <;> simp [Pc.shares, hpc] at hp
    | _ => simp_all [Pc.shares]

/-- A step of another client leaves the key, the flag and the result of a search alone. -/
theorem SearchBacked.other (h : SearchBacked log n c)
    (hk : c.keyed = true → (n'.queue .read).uniqueKey = (n.queue .read).uniqueKey)
    (hf : (n'.queue .read).handover = (n.queue .read).handover) (hr : n'.res = n.res)
    (hv : n'.retValue = n.retValue) (hsub : log ⊆ log') : SearchBacked log' n' c where
  key hp := (hk hp).trans (h.key hp)
  clearing hp := hf.trans (h.clearing hp)
  traversed hp := hsub (h.traversed hp)
  storing hp := hr.trans (h.storing hp)
  stored hp := by
    rw [hr, hv]
    exact (h.stored hp).mono hsub
  loading hp := (h.loading hp).trans hr.symm
  given hp hp' hp'' := (h.given hp hp' hp'').mono hsub

theorem Client.critical_of_keyed (h : c.keyed = true) : c.critical = true := by
  cases hp : c.pc <;> simp_all [Client.critical]

theorem SearchBacked.of_not_critical (h : SearchBacked log n c) (hc : c.critical = false)
    (hsub : log ⊆ log') : SearchBacked log' n' c where
  key hp := by simp [Client.critical_of_keyed hp] at hc
  clearing hp := by simp [Client.critical, hp] at hc
  traversed hp := hsub (h.traversed hp)
  storing hp := by simp [Client.critical, hp] at hc
  stored hp := by
    have : c.critical = true := hp.elim (fun hp => by simp [Client.critical, hp]) Client.critical_of_counting
    simp [this] at hc
  loading hp := by simp [Client.critical, hp] at hc
  given hp hp' hp'' := (h.given hp hp' hp'').mono hsub

end step

theorem WithinKey.cons {log : List (ReadEvent κ ν)} {e : ReadEvent κ ν} (h : WithinKey log)
    (he : ∀ search k found v, e = .delegated search k found v → Backed log k found v) :
    WithinKey (e :: log) := by
  intro before after search k found v hl
  cases after with
  | nil =>
    obtain ⟨rfl, rfl⟩ := List.cons_eq_cons.mp hl
    exact he search k found v rfl
  | cons _ after => exact h before after search k found v (List.cons_eq_cons.mp hl).2

section reach
variable [DecidableEq κ] [DecidableEq ι] {hash : κ → ℕ} {s t : Table ι κ ν} {i : ι}
  {log : List (ReadEvent κ ν)}

omit [DecidableEq ι] in
/-- A search between its acquire and release can only be answered by the tree. -/
theorem act_traversed {now : ℕ} {n : LockNode κ ν} {c : Client κ ν} {ch : Choice κ ν}
    {r : LockNode κ ν × Client κ ν × Obs κ ν} (h : act now n c ch = some r) (hp : c.pc = .body)
    (hs : c.side = .read) : ∃ found v, ch = .traversed found v ∧
      r.2.1 = leaveBody { c with found := found, val := v, readAt := now } := by
  obtain ⟨pc, side⟩ := c
  cases hp
  cases hs
  cases ch <;> cases h
  exact ⟨_, _, rfl, rfl⟩

omit [DecidableEq ι] in
theorem act_storeVal {now : ℕ} {n : LockNode κ ν} {c : Client κ ν} {ch : Choice κ ν}
    {r : LockNode κ ν × Client κ ν × Obs κ ν} (h : act now n c ch = some r) (hp : c.pc = .storeVal) :
    ch = .go := by
  obtain ⟨pc⟩ := c
  cases hp
  cases ch <;> cases h
  rfl

variable (log) in
theorem records_of_next {ch : Choice κ ν} (h : next hash s (i, ch) = some t)
    (hpc : (s.client i).pc ≠ .idle) :
    Records log ((readEvent s (i, ch)).toList ++ log) (s.client i) (t.client i) := by
  simp only [next, hpc, if_false] at h
  obtain ⟨r, hr, rfl⟩ := Option.map_eq_some_iff.mp h
  refine ⟨List.subset_append_right _ _, fun hp hs => ?_, fun hp => ?_⟩
  · obtain ⟨found, v, rfl, hc⟩ := act_traversed hr hp hs
    simp [readEvent, hp, hc, leaveBody]
  · obtain rfl := act_storeVal hr hp
    simp [readEvent, hp]

omit [DecidableEq κ] [DecidableEq ι] in
theorem readEvent_delegated {a : ι × Choice κ ν} {search : ℕ} {k : κ} {found : Bool} {v : ν}
    (h : readEvent s a = some (.delegated search k found v)) :
    (s.client a.1).pc = .rUnlock ∧ (s.client a.1).side = .read ∧ (s.client a.1).acq = (true, false) ∧
      (s.client a.1).key = k ∧ (s.client a.1).found = found ∧ (s.client a.1).val = v := by
  unfold readEvent at h
  dsimp only at h
  split at h
  · cases h
  · cases h
  · rename_i hp _
    split at h
    · rename_i hs
      cases h
      exact ⟨hp, hs.1, hs.2, rfl, rfl, rfl⟩
    · cases h
  · cases h

structure KeyInv (hash : κ → ℕ) (s : Table ι κ ν) (log : List (ReadEvent κ ν)) : Prop where
  node : ∀ m, NodeBacked log (s.node m)
  search : ∀ i, (s.client i).pc ≠ .idle → (s.client i).side = .read →
    SearchBacked log (s.node (hash (s.client i).key)) (s.client i)
  within : WithinKey log

omit [DecidableEq κ] in
theorem SearchBacked.moves {log' : List (ReadEvent κ ν)} {j : ι}
    (h : SearchBacked log (s.node (hash (s.client j).key)) (s.client j))
    (inv : QueueInv hash s (hash (s.client j).key) .read) (hs : (s.client j).side = .read)
    (hsh : (s.client i).Shaped) (hm : Moves hash s i t) (hji : j ≠ i) (hsub : log ⊆ log') :
    SearchBacked log' (t.node (hash (s.client j).key)) (s.client j) := by
  cases hm with
  | begins => exact h.other (fun _ => rfl) rfl rfl rfl hsub
  | @steps hpc n' c' o hst =>
    simp only [Table.observe_node]
    by_cases hk : hash (s.client i).key = hash (s.client j).key
    · rw [hk, Function.update_self]
      rw [hk] at hst
      cases hst.shareEffect hsh with
      | opens hv h₀ =>
        simp only [LockNode.readShare, ReadShare.mk.injEq] at hv h₀
        refine h.other (fun hp => ?_) hv.2.1 hv.2.2.1 hv.2.2.2 hsub
        have := h.key hp
        simp [h₀] at this
      | served hp hsi =>
        have hqi : InQueue hash s (hash (s.client j).key) .read i :=
          ⟨hk, hsi, Client.ticketed_of_critical (Client.critical_of_shares hp)⟩
        refine h.of_not_critical (Bool.eq_false_iff.mpr fun hcj => hji ?_) hsub
        exact inv.unique ⟨rfl, hs, Client.ticketed_of_critical hcj⟩ hqi hcj (Client.critical_of_shares hp)
      | keeps hv =>
        simp only [LockNode.readShare, ReadShare.mk.injEq] at hv
        exact h.other (fun _ => hv.1) hv.2.1 hv.2.2.1 hv.2.2.2 hsub
    · rw [Function.update_of_ne (Ne.symm hk)]
      exact h.other (fun _ => rfl) rfl rfl rfl hsub

omit [DecidableEq κ] [DecidableEq ι] in
theorem KeyInv.initial (h : Initial s) : KeyInv hash s ([] : List (ReadEvent κ ν)) where
  node m hh := by simp [(h.2.1 m).1 .read] at hh
  search i hi := absurd (h.2.2.1 i) hi
  within before after search k found v hl := by simp at hl

theorem KeyInv.next {a : ι × Choice κ ν} (inv : KeyInv hash s log)
    (hq : ∀ m, QueueInv hash s m .read)
    (hserv : ∀ i, (s.client i).pc ≠ .idle →
      Serving ((s.node (hash (s.client i).key)).queue (s.client i).side) (s.client i))
    (hsh : ∀ i, (s.client i).Shaped) (hn : next hash s a = some t) :
    KeyInv hash t ((readEvent s a).toList ++ log) := by
  obtain ⟨i, ch⟩ := a
  have hm := next_moves hn
  have hsub : log ⊆ (readEvent s (i, ch)).toList ++ log := List.subset_append_right _ _
  constructor
  · intro m
    cases hm with
    | begins hpc hb =>
      intro hh
      obtain ⟨k, hk, hb⟩ := inv.node m hh
      exact ⟨k, hk, hb.mono hsub⟩
    | @steps hpc n' c' o hst =>
      simp only [Table.observe_node, Function.update_apply]
      split
      · exact (inv.node _).step (inv.search i hpc) (fun hs => hs ▸ hserv i hpc) hst (hsh i) hsub
      · intro hh
        obtain ⟨k, hk, hb⟩ := inv.node m hh
        exact ⟨k, hk, hb.mono hsub⟩
  · intro j hj hs
    by_cases hji : j = i
    · subst hji
      by_cases hpc : (s.client j).pc = .idle
      · cases hm with
        | begins _ hb =>
          obtain ⟨hp, hacq, -⟩ := hb.locals
          simp only [Function.update_self]
          constructor <;> simp [hp, Client.keyed, Client.decided, Pc.counting, Pc.loaded, Pc.opening,
            Pc.received]
        | steps hp => exact absurd hpc hp
      · have hrec := records_of_next log hn hpc
        cases hm with
        | begins hp => exact absurd hp hpc
        | @steps _ n' c' o hst =>
          simp only [Table.observe_node, Table.observe_client, Function.update_self, hst.key_eq] at hs hrec ⊢
          rw [hst.side_eq] at hs
          exact (inv.search j hpc hs).step (inv.node _) (hs ▸ hserv j hpc) hst hs (hsh j) hrec
    · rw [hm.client_ne hji] at hj hs ⊢
      exact (inv.search j hj hs).moves (hq _) hs (hsh i) hm hji hsub
  · cases he : readEvent s (i, ch) with
    | none => exact inv.within
    | some e =>
      refine inv.within.cons fun search k found v hd => ?_
      obtain ⟨hp, hs, ha, rfl, rfl, rfl⟩ := readEvent_delegated (hd ▸ he)
      exact (inv.search i (by simp [hp]) hs).given (by simp [hp, Pc.received]) (by simp [hp]) (by simp [ha])

/-- In every run of at most 255 clients, a search that is completed by delegation returns a
result that was stored by a search which traversed the tree for the same key. -/
theorem withinKey_of_reachable [Fintype ι] (hcard : Fintype.card ι ≤ 255)
    {p : Table ι κ ν × List (ReadEvent κ ν)}
    (h : ((system ι ν hash).logged readEvent).Reachable p) : WithinKey p.2 := by
  suffices KeyInv hash p.1 p.2 from this.within
  refine h.invariant (P := fun p => KeyInv hash p.1 p.2) ?_ ?_
  · rintro ⟨s, log⟩ ⟨hs, rfl⟩
    exact .initial hs
  · intro p a q hr ih _ hn
    obtain ⟨hn, hlog⟩ := Transition.System.logged_next hn
    have hr : (system ι ν hash).Reachable p.1 := hr.of_logged
    rw [hlog]
    exact ih.next (fun m => .of_reach hcard hr) (serving_of_reach hcard hr) (shaped_of_reach hr) hn

end reach

open scoped Transition.Numbered

/-- Two searches of key 7, the second handed the result of the first, and a search of
key 8 on the same node that is refused in between. -/
def handedRun : List (Fin 3 × Choice ℕ ℕ) :=
  (0, .beginSearch 7) :: goes 0 7 ++ (1, .beginSearch 7) :: goes 1 2 ++
    acts 2 [.beginSearch 8, .go, .traversed false 0, .go] ++ (0, .traversed true 5) :: goes 0 21 ++
    goes 1 21

theorem withinKey_after_handover :
    ((system (Fin 3) ℕ (fun _ : ℕ => 0)).logged readEvent).Ends (Table.zero (Fin 3) 7 0, []) handedRun
      fun p => .delegated 8 7 true 5 ∈ p.2 ∧ WithinKey p.2 := by
  have he : ((system (Fin 3) ℕ (fun _ : ℕ => 0)).logged readEvent).Ends (Table.zero (Fin 3) 7 0, [])
      handedRun fun p => .delegated 8 7 true 5 ∈ p.2 := by
    decide +kernel
  obtain ⟨p, hp, hd⟩ := he
  refine ⟨p, hp, hd, withinKey_of_reachable (by simp) (Transition.System.Reachable.run ?_ hp)⟩
  exact .init ⟨Table.zero_initial 7 0, rfl⟩

end SmartTree.LocalLock
