import SmartTree.LocalLock.ReadView

/-! The read window of one key: who may store it, and that it never reaches past the
tickets taken. Runs are those in which no operation takes the conflict branch. -/
namespace SmartTree.LocalLock
variable {ι κ ν : Type*}

abbrev Table.readView (s : Table ι κ ν) (m : ℕ) : ReadView := (s.node m).readView

def NoConflict (hash : κ → ℕ) (s : Table ι κ ν) (i : ι) : Prop :=
  let c := s.client i
  c.pc = .loadKey → ((s.node (hash c.key)).queue c.side).uniqueKey = some c.key

instance [DecidableEq κ] (hash : κ → ℕ) (s : Table ι κ ν) (i : ι) : Decidable (NoConflict hash s i) :=
  inferInstanceAs (Decidable (_ → _))

structure Sharing (hash : κ → ℕ) (k : κ) (s : Table ι κ ν) : Prop where
  key : ∀ i, (s.client i).pc ≠ .idle → (s.client i).key = k
  shaped : ∀ i, (s.client i).Shaped
  calm : ∀ i, (s.client i).pc ≠ .idle → (s.client i).Calm
  queue : ∀ sd, QueueInv hash s (hash k) sd
  serving : ∀ i, (s.client i).pc ≠ .idle →
    Serving ((s.node (hash k)).queue (s.client i).side) (s.client i)
  handedUnwritten : ∀ i, (s.client i).pc ≠ .idle → (s.client i).acq.1 = true →
    (s.client i).wroteAt = none
  invoked : ∀ i, (s.client i).pc ≠ .idle → (s.client i).invAt < s.now
  wrote : ∀ i, (s.client i).pc ≠ .idle → ∀ w ∈ (s.client i).wroteAt, w < s.now
  returned : ∀ w ∈ s.returned, w.wroteAt < s.now ∧ w.returnedAt < s.now

section reach
variable [DecidableEq κ] [DecidableEq ι] {hash : κ → ℕ} {k : κ} {s : Table ι κ ν}
  {G : Table ι κ ν → ι × Choice κ ν → Prop}

theorem calm_of_reach (hG : ∀ s a, G s a → OnKey k a.2 ∧ NoConflict hash s a.1)
    (h : (system ι ν hash).Reach G s) :
    (∀ sd key, ((s.node (hash k)).queue sd).uniqueKey = some key → key = k) ∧
      ∀ i, (s.client i).pc ≠ .idle → (s.client i).Calm := by
  refine h.invariant (P := fun s =>
    (∀ sd key, ((s.node (hash k)).queue sd).uniqueKey = some key → key = k) ∧
      ∀ i, (s.client i).pc ≠ .idle → (s.client i).Calm) ?_ ?_
  · intro s hs
    refine ⟨fun sd key hk => ?_, fun i hi => absurd (hs.2.2.1 i) hi⟩
    simp [(hs.2.1 (hash k)).1 sd] at hk
  · intro s a t hr ⟨hkey, hcalm⟩ hg ht
    have hm := next_moves ht
    have hk := key_of_reach (fun s a hg => (hG s a hg).1) hr
    have hother (i : ι) (hi : (t.client i).pc ≠ .idle) (hia : i ≠ a.1) : (t.client i).Calm := by
      rw [hm.client_ne hia] at hi ⊢
      exact hcalm i hi
    cases hm.keyMoves (hk a.1) with
    | begins hpc hb hnode hw hret =>
      refine ⟨hnode ▸ hkey, fun i hi => ?_⟩
      by_cases hia : i = a.1
      · subst hia
        simp [Client.Calm, hb.locals.1, hb.locals.2.1, Pc.conflicting]
      · exact hother i hi hia
    | steps hpc hst hw hnew hret =>
      refine ⟨fun sd key hq => ?_, fun i hi => ?_⟩
      · rcases hst.uniqueKey sd with he | he | he
        · exact hkey sd key (he ▸ hq)
        · simp [he] at hq
        · rw [he] at hq
          cases hq
          exact hk a.1 hpc
      · by_cases hia : i = a.1
        · subst hia
          refine hst.calm (hcalm a.1 hpc) (fun key hq => ?_) fun hl => ?_
          · rw [hk a.1 hpc]
            exact hkey _ key hq
          · have := (hG s a hg).2 hl
            rwa [hk a.1 hpc] at this ⊢
        · exact hother i hi hia

/-- Nothing is written before the release, and a handed-over insert never writes. -/
def Client.WritesOnce (c : Client κ ν) : Prop :=
  c.Shaped ∧ (c.pc.beforeRelease = true → c.wroteAt = none ∧ c.acq.1 = false) ∧
    (c.acq.1 = true → c.wroteAt = none)

theorem writesOnce_of_reach (h : (system ι ν hash).Reach G s) (i : ι)
    (hi : (s.client i).pc ≠ .idle) : (s.client i).WritesOnce := by
  refine running_of_reach ?_ ?_ h i hi
  · intro s a c' _ hb
    cases hch : a.2 <;> simp only [hch, beginOp, Option.some.injEq, reduceCtorEq] at hb
    all_goals subst hb; simp [Client.WritesOnce, Client.Shaped, Pc.onlySide]
  · rintro now n c n' c' o hst ⟨hsh, hb, hw⟩
    refine ⟨hst.shaped hsh, fun hp => ?_, fun ha => ?_⟩
    · obtain ⟨hp', hwr, hacq⟩ := hst.to_beforeRelease hsh hp
      exact ⟨hwr.trans (hb hp').1, hacq (hb hp').2⟩
    · rcases hst.wroteAt_eq with hwr | ⟨hp, -, hacq⟩
      · rw [hwr]
        rcases hst.to_handed ha with hacq | ⟨hp, -⟩
        · exact hw (hacq ▸ ha)
        · exact (hb (by rw [hp]; rfl)).1
      · rw [hacq, (hb (by rcases hp with hp | hp <;> rw [hp] <;> rfl)).2] at ha
        simp at ha

theorem times_of_reach (hG : ∀ s a, G s a → OnKey k a.2 ∧ NoConflict hash s a.1)
    (h : (system ι ν hash).Reach G s) :
    (∀ i, (s.client i).pc ≠ .idle → (s.client i).invAt < s.now ∧ ∀ w ∈ (s.client i).wroteAt, w < s.now) ∧
      ∀ w ∈ s.returned, w.wroteAt < s.now ∧ w.returnedAt < s.now := by
  refine h.invariant (P := fun s => (∀ i, (s.client i).pc ≠ .idle → (s.client i).invAt < s.now ∧
    ∀ w ∈ (s.client i).wroteAt, w < s.now) ∧
      ∀ w ∈ s.returned, w.wroteAt < s.now ∧ w.returnedAt < s.now) ?_ ?_
  · intro s hs
    exact ⟨fun i hi => absurd (hs.2.2.1 i) hi, by simp [hs.2.2.2.2.2]⟩
  · intro s a t hr ⟨hrun, hret⟩ hg ht
    have hm := next_moves ht
    have hk := key_of_reach (fun s a hg => (hG s a hg).1) hr
    have hother (i : ι) (hi : (t.client i).pc ≠ .idle) (hia : i ≠ a.1) :
        (t.client i).invAt < t.now ∧ ∀ w ∈ (t.client i).wroteAt, w < t.now := by
      rw [hm.client_ne hia] at hi ⊢
      rw [hm.now_eq]
      exact ⟨Nat.lt_succ_of_lt (hrun i hi).1, fun w hw => Nat.lt_succ_of_lt ((hrun i hi).2 w hw)⟩
    have hold (w : Completed κ) (hw : w ∈ s.returned) : w.wroteAt < t.now ∧ w.returnedAt < t.now := by
      rw [hm.now_eq]
      exact ⟨Nat.lt_succ_of_lt (hret w hw).1, Nat.lt_succ_of_lt (hret w hw).2⟩
    cases hm.keyMoves (hk a.1) with
    | begins hpc hb hnode hw hret' =>
      refine ⟨fun i hi => ?_, fun w hw => hold w (hret' ▸ hw)⟩
      by_cases hia : i = a.1
      · subst hia
        obtain ⟨-, -, hinv, -, -, hwr, -⟩ := hb.locals
        simp [hinv, hwr, hm.now_eq]
      · exact hother i hi hia
    | steps hpc hst hw hnew hret' =>
      have hc := (calm_of_reach hG hr).2 a.1 hpc
      refine ⟨fun i hi => ?_, fun w hw => ?_⟩
      · by_cases hia : i = a.1
        · subst hia
          rw [hm.now_eq, hst.invAt_eq]
          refine ⟨Nat.lt_succ_of_lt (hrun a.1 hpc).1, fun w hw => ?_⟩
          rcases hst.wroteAt_eq with he | ⟨-, he, -⟩ <;> rw [he] at hw
          · exact Nat.lt_succ_of_lt ((hrun a.1 hpc).2 w hw)
          · cases hw
            exact Nat.lt_succ_self _
        · exact hother i hi hia
      · rcases (hret' w).mp hw with hw | hw
        · exact hold w hw
        · obtain ⟨-, -, hwr, hat⟩ := hst.completed hc hw
          rw [hm.now_eq, hat]
          exact ⟨Nat.lt_succ_of_lt ((hrun a.1 hpc).2 _ hwr), Nat.lt_succ_self _⟩

theorem sharing_of_reach [Fintype ι] (hcard : Fintype.card ι ≤ 255)
    (hG : ∀ s a, G s a → OnKey k a.2 ∧ NoConflict hash s a.1) (h : (system ι ν hash).Reach G s) :
    Sharing hash k s where
  key := key_of_reach (fun s a hg => (hG s a hg).1) h
  shaped := shaped_of_reach h
  calm := (calm_of_reach hG h).2
  queue _ := .of_reach hcard h
  serving i hi := by
    have := serving_of_reach hcard h i hi
    rwa [key_of_reach (fun s a hg => (hG s a hg).1) h i hi] at this
  handedUnwritten i hi := (writesOnce_of_reach h i hi).2.2
  invoked i hi := ((times_of_reach hG h).1 i hi).1
  wrote i hi := ((times_of_reach hG h).1 i hi).2
  returned := (times_of_reach hG h).2

end reach

inductive ForeignEffect (v v' : ReadView) (c : Client κ ν) : Prop where
  | takes (hv : v' = { v with ticket := v.ticket + 1 }) (hs : c.side = .read) (hpc : c.pc = .takeTicket)
  | starts (hv : v' = { v with start := true }) (hs : c.side = .write) (hpc : c.pc = .rCasWin)
      (h₀ : v.start = false)
  | storesOther (hv : v' = { v with window := outstanding c.othTicket c.othCurrent })
      (hs : c.side = .write) (hpc : c.pc = .oStoreOther)
  | closes (hv : v' = { v with start := false }) (hs : c.side = .write) (hpc : c.pc = .rClose)
  | keeps (hv : v' = v)

theorem ForeignEffect.frame {v v' : ReadView} {c : Client κ ν} (h : ForeignEffect v v' c) :
    v'.current = v.current ∧ v'.handover = v.handover ∧ v'.resAt = v.resAt ∧ v.ticket ≤ v'.ticket := by
  cases h <;> simp [*]

namespace Sharing
variable {hash : κ → ℕ} {k : κ} {s t : Table ι κ ν} {i j : ι} {o : Obs κ ν}
variable (h : Sharing hash k s)
include h

theorem inQueue (hj : (s.client j).ticketed = true) :
    InQueue hash s (hash k) (s.client j).side j :=
  ⟨by rw [h.key j (Client.running_of_ticketed hj)], rfl, hj⟩

theorem bound (hs : (s.client j).side = .read) (hj : (s.client j).ticketed = true) :
    (s.readView (hash k)).current ≤ (s.client j).ticket ∧
      (s.client j).ticket < (s.readView (hash k)).ticket :=
  (h.queue .read).bound j (hs ▸ h.inQueue hj)

theorem ticket_eq (hs : (s.client j).side = .read) (hj : (s.client j).critical = true) :
    (s.client j).ticket = (s.readView (hash k)).current :=
  (h.queue .read).serving j (hs ▸ h.inQueue (Client.ticketed_of_critical hj)) hj

theorem outstanding (hs : (s.client j).side = .read) (hj : (s.client j).ticketed = true) :
    (s.readView (hash k)).current < (s.readView (hash k)).ticket :=
  (h.bound hs hj).1.trans_lt (h.bound hs hj).2

theorem unique (hs : (s.client i).side = (s.client j).side) (hi : (s.client i).critical = true)
    (hj : (s.client j).critical = true) : i = j :=
  (h.queue _).unique (h.inQueue (Client.ticketed_of_critical hi))
    (hs ▸ h.inQueue (Client.ticketed_of_critical hj)) hi hj

theorem readEffect (hpc : (s.client i).pc ≠ .idle)
    (hst : Step s.now (s.node (hash k)) (s.client i) (t.node (hash k)) (t.client i) o) :
    ReadEffect (s.readView (hash k)) (t.readView (hash k)) (s.client i) :=
  hst.readEffect (h.calm i hpc) (h.shaped i)

theorem foreign (hpc : (s.client i).pc ≠ .idle)
    (hst : Step s.now (s.node (hash k)) (s.client i) (t.node (hash k)) (t.client i) o)
    (hs : (s.client j).side = .read) (hj : (s.client j).critical = true) (hji : j ≠ i) :
    ForeignEffect (s.readView (hash k)) (t.readView (hash k)) (s.client i) := by
  -- a reader at any of the other points is served too, hence is the same client
  have other (hi : (s.client i).side = .read) (hc : (s.client i).critical = true) : False :=
    hji (h.unique (hs.trans hi.symm) hj hc)
  cases h.readEffect hpc hst with
  | takes hv hi hp => exact .takes hv hi hp
  | clears _ hi hp | publishes _ hi hp | storesOwn _ hi hp | flags _ hi hp | countsDown _ hi hp
  | bumps _ hi hp => exact (other hi (by simp [Client.critical, hp])).elim
  | starts hv hp h₀ =>
    cases hi : (s.client i).side with
    | read => exact (other hi (by simp [Client.critical, hp])).elim
    | write => exact .starts hv hi hp h₀
  | storesOther hv hi hp => exact .storesOther hv hi hp
  | closes hv hp =>
    cases hi : (s.client i).side with
    | read => exact (other hi (by simp [Client.critical, hp])).elim
    | write => exact .closes hv hi hp
  | keeps hv => exact .keeps hv

end Sharing

structure ReadInv (m : ℕ) (s : Table ι κ ν) : Prop where
  locked : ∀ i, (s.client i).holds .read = true → ((s.node m).queue .read).locked = true
  exclusive : ∀ i j, (s.client i).holds .read = true → (s.client j).holds .read = true → i = j
  othCurrent : ∀ i, (s.client i).side = .write →
    (s.client i).pc = .oTicket ∨ (s.client i).pc = .oStoreOther →
    (s.client i).othCurrent = (s.readView m).current
  othTicket : ∀ i, (s.client i).side = .write → (s.client i).pc = .oStoreOther →
    (s.readView m).current ≤ (s.client i).othTicket ∧ (s.client i).othTicket ≤ (s.readView m).ticket
  positive : ∀ i, (s.client i).side = .read → (s.client i).pc = .rDec → (s.readView m).window ≠ 0
  window : (s.readView m).current + (s.readView m).window ≤ (s.readView m).ticket
  windowDown : ∀ i, (s.client i).side = .read → (s.client i).pc.countedDown = true →
    (s.readView m).current + (s.readView m).window + 1 ≤ (s.readView m).ticket
  fed : (s.readView m).handover = true → (s.readView m).current < (s.readView m).ticket
  fedStored : (s.readView m).handover = true → ∀ i, (s.client i).side = .read →
    (s.client i).pc.flagStored = true → (s.readView m).current + 1 < (s.readView m).ticket

section step
variable {hash : κ → ℕ} {k : κ} {s t : Table ι κ ν} {i : ι} {o : Obs κ ν}
variable [DecidableEq ι] (h : Sharing hash k s) (inv : ReadInv (hash k) s) (hm : Moves hash s i t)
  (hpc : (s.client i).pc ≠ .idle)
  (hst : Step s.now (s.node (hash k)) (s.client i) (t.node (hash k)) (t.client i) o)
include inv hst

namespace ReadInv

include hm in
theorem locked_step (j : ι) (hj : (t.client j).holds .read = true) :
    ((t.node (hash k)).queue .read).locked = true := by
  by_cases hji : j = i
  · subst hji
    rcases hst.lock .read with ⟨he, hl⟩ | ⟨-, -, -, hl⟩ | ⟨-, he⟩
    · rw [hl]
      exact inv.locked j (he ▸ hj)
    · exact hl
    · simp [he] at hj
  · rw [hm.client_ne hji] at hj
    rcases hst.lock .read with ⟨-, hl⟩ | ⟨-, -, -, hl⟩ | ⟨he, -⟩
    · rw [hl]
      exact inv.locked j hj
    · exact hl
    · exact absurd (inv.exclusive j i hj he) hji

include hm in
theorem exclusive_step (j l : ι) (hj : (t.client j).holds .read = true)
    (hl : (t.client l).holds .read = true) : j = l := by
  -- the mover is the only client that can have become a holder, and then nobody held the mutex
  have key (j : ι) (hji : j ≠ i) (hj : (t.client j).holds .read = true)
      (hi : (t.client i).holds .read = true) : False := by
    rw [hm.client_ne hji] at hj
    rcases hst.lock .read with ⟨he, -⟩ | ⟨-, -, hf, -⟩ | ⟨-, he⟩
    · exact hji (inv.exclusive j i hj (he ▸ hi))
    · simp [inv.locked j hj] at hf
    · simp [he] at hi
  by_cases hji : j = i <;> by_cases hli : l = i
  · rw [hji, hli]
  · subst hji; exact (key l hli hl hj).elim
  · subst hli; exact (key j hji hj hl).elim
  · rw [hm.client_ne hji] at hj
    rw [hm.client_ne hli] at hl
    exact inv.exclusive j l hj hl

include h hpc

omit [DecidableEq ι] in
/-- The counter stays while another client holds the mutex; the ticket never falls. -/
theorem current_eq {j : ι} (hj : (s.client j).holds .read = true) (hji : j ≠ i) :
    (t.readView (hash k)).current = (s.readView (hash k)).current := by
  cases h.readEffect hpc hst with
  | bumps _ hi hp => exact absurd (inv.exclusive j i hj (by simp [Client.holds, hi, hp])) hji
  | _ => simp [*]

omit inv [DecidableEq ι] in
theorem ticket_le : (s.readView (hash k)).ticket ≤ (t.readView (hash k)).ticket := by
  cases h.readEffect hpc hst <;> simp [*]

include hm

theorem othCurrent_step (j : ι) (hs : (t.client j).side = .write)
    (hj : (t.client j).pc = .oTicket ∨ (t.client j).pc = .oStoreOther) :
    (t.client j).othCurrent = (t.readView (hash k)).current := by
  by_cases hji : j = i
  · subst hji
    rw [hst.side_eq] at hs
    rcases hst.to_othTicket hs hj with ⟨hp, -, hc⟩ | ⟨hp, -, hc, -⟩
    all_goals
      have hk : (t.readView (hash k)).current = (s.readView (hash k)).current := by
        cases h.readEffect hpc hst <;> simp_all
      rw [hk, hc]
    · rfl
    · exact inv.othCurrent j hs (.inl hp)
  · rw [hm.client_ne hji] at hs hj ⊢
    rw [inv.current_eq h hpc hst (by rcases hj with hj | hj <;> simp [Client.holds, hs, hj, Side.other]) hji]
    exact inv.othCurrent j hs hj

theorem othTicket_step (j : ι) (hs : (t.client j).side = .write) (hj : (t.client j).pc = .oStoreOther) :
    (t.readView (hash k)).current ≤ (t.client j).othTicket ∧
      (t.client j).othTicket ≤ (t.readView (hash k)).ticket := by
  by_cases hji : j = i
  · subst hji
    rw [hst.side_eq] at hs
    rcases hst.to_othTicket hs (.inr hj) with ⟨-, hp', -⟩ | ⟨hp, -, -, hc⟩
    · simp [hj] at hp'
    · have hk : t.readView (hash k) = s.readView (hash k) := by
        cases h.readEffect hpc hst <;> simp_all
      rw [hk, hc]
      exact ⟨(h.queue .read).le, le_refl _⟩
  · rw [hm.client_ne hji] at hs hj ⊢
    rw [inv.current_eq h hpc hst (by simp [Client.holds, hs, hj, Side.other]) hji]
    exact ⟨(inv.othTicket j hs hj).1, (inv.othTicket j hs hj).2.trans (ticket_le h hpc hst)⟩

omit hm [DecidableEq ι] in
/-- The window stays while a reader that holds the mutex is served. -/
theorem window_eq {j : ι} (hs : (s.client j).side = .read) (hc : (s.client j).critical = true)
    (hl : (s.client j).holds .read = true) (hji : j ≠ i) :
    (t.readView (hash k)).window = (s.readView (hash k)).window := by
  cases h.foreign hpc hst hs hc hji with
  | storesOther _ hi hp =>
    exact absurd (inv.exclusive j i hl (by simp [Client.holds, hi, hp, Side.other])) hji
  | _ => simp [*]

omit inv hst hm [DecidableEq ι] hpc in
theorem holds_of_countedDown {j : ι} (hs : (s.client j).side = .read)
    (hj : (s.client j).pc.countedDown = true) : (s.client j).holds .read = true := by
  have hc := (h.calm j (by rintro hp; simp [hp, Pc.countedDown] at hj)).2
  cases hp : (s.client j).pc <;> simp_all [Pc.countedDown, Pc.conflicting, Client.holds]

theorem positive_step (j : ι) (hs : (t.client j).side = .read) (hj : (t.client j).pc = .rDec) :
    (t.readView (hash k)).window ≠ 0 := by
  by_cases hji : j = i
  · subst hji
    rw [hst.side_eq] at hs
    have := hst.to_dec (.inr hj)
    rwa [hs] at this
  · rw [hm.client_ne hji] at hs hj
    rw [inv.window_eq h hpc hst hs (by simp [Client.critical, hj]) (by simp [Client.holds, hs, hj]) hji]
    exact inv.positive j hs hj

omit inv hst hm [DecidableEq ι] in
/-- The window a reader stores for its own side ends at the ticket it loaded. -/
theorem ownWindow [Fintype ι] (hcard : Fintype.card ι ≤ 255) (hs : (s.client i).side = .read)
    (hp : (s.client i).pc = .oStoreOwn) :
    (s.readView (hash k)).current + outstanding (s.client i).relTicket (s.client i).relCurrent =
        (s.client i).relTicket ∧
      (s.readView (hash k)).current < (s.client i).relTicket ∧
      (s.client i).relTicket ≤ (s.readView (hash k)).ticket := by
  have hle : (s.readView (hash k)).ticket ≤ (s.readView (hash k)).current + Fintype.card ι :=
    (h.queue .read).ticket_le
  have hsv := h.serving i hpc
  rw [hs] at hsv
  have hc : _ = (s.readView (hash k)).current := hsv.current (by rw [hp]; rfl)
  have ht : (s.readView (hash k)).current < _ ∧ _ ≤ (s.readView (hash k)).ticket :=
    hsv.ticket (by rw [hp]; rfl)
  refine ⟨?_, ht⟩
  rw [outstanding_eq] <;> omega

omit hpc hst hm [DecidableEq ι] in
/-- The read window a writer stores ends at the read ticket it loaded. -/
theorem otherWindow [Fintype ι] (hcard : Fintype.card ι ≤ 255) (hs : (s.client i).side = .write)
    (hp : (s.client i).pc = .oStoreOther) :
    (s.readView (hash k)).current + outstanding (s.client i).othTicket (s.client i).othCurrent =
      (s.client i).othTicket := by
  have hle : (s.readView (hash k)).ticket ≤ (s.readView (hash k)).current + Fintype.card ι :=
    (h.queue .read).ticket_le
  have hc := inv.othCurrent i hs (.inr hp)
  have ht := inv.othTicket i hs hp
  rw [outstanding_eq] <;> omega

omit hm [DecidableEq ι] in
theorem window_step [Fintype ι] (hcard : Fintype.card ι ≤ 255) :
    (t.readView (hash k)).current + (t.readView (hash k)).window ≤ (t.readView (hash k)).ticket := by
  have hw := inv.window
  cases h.readEffect hpc hst with
  | storesOwn hv hs hp =>
    rw [hv]
    exact (ownWindow h hpc hcard hs hp).1.trans_le (ownWindow h hpc hcard hs hp).2.2
  | storesOther hv hs hp =>
    rw [hv]
    exact (inv.otherWindow h hcard hs hp).trans_le (inv.othTicket i hs hp).2
  | countsDown hv hs hp =>
    have := inv.positive i hs hp
    rw [hv]
    simp only
    omega
  | bumps hv hs hp =>
    have := inv.windowDown i hs (by rw [hp]; rfl)
    rw [hv]
    simp only
    omega
  | takes hv hs hp =>
    rw [hv]
    exact hw.trans (Nat.le_succ _)
  | _ hv => rw [hv]; exact hw

omit hm hpc [DecidableEq ι] in
theorem down_step (hpc : (s.client i).pc ≠ .idle) (hs : (s.client i).side = .read)
    (hj : (t.client i).pc.countedDown = true) :
    (s.client i).critical = true ∧
      (t.readView (hash k)).current = (s.readView (hash k)).current ∧
      ((s.client i).pc.countedDown = true ∧
          (t.readView (hash k)).window = (s.readView (hash k)).window ∨
        (t.readView (hash k)).window + 1 ≤ (s.readView (hash k)).window ∨
        (t.readView (hash k)).window = 0) := by
  have hd := hst.to_countedDown hj
  rw [hs] at hd
  refine ⟨hd.1, hd.2.1, hd.2.2.imp_right fun hd => hd.imp_left fun ⟨hp, hwin⟩ => ?_⟩
  have hc := (h.calm i hpc).2
  rcases hp with hp | hp
  · simp [hp, Pc.conflicting] at hc
  · have hpos := inv.positive i hs hp
    simp only [Table.readView, LockNode.readView] at hwin hpos ⊢
    omega

theorem windowDown_step (j : ι) (hs : (t.client j).side = .read)
    (hj : (t.client j).pc.countedDown = true) :
    (t.readView (hash k)).current + (t.readView (hash k)).window + 1 ≤
      (t.readView (hash k)).ticket := by
  have hmono := ticket_le h hpc hst
  have hwin₀ := inv.window
  by_cases hji : j = i
  · subst hji
    rw [hst.side_eq] at hs
    obtain ⟨hcrit, hcur, ⟨hd, hwin⟩ | hwin | hwin⟩ := inv.down_step h hst hpc hs hj
    · rw [hcur, hwin]
      exact (inv.windowDown j hs hd).trans hmono
    · omega
    · have hb := h.bound hs (Client.ticketed_of_critical hcrit)
      omega
  · rw [hm.client_ne hji] at hs hj
    have hc := Client.critical_of_countedDown hj
    rw [(h.foreign hpc hst hs hc hji).frame.1,
      inv.window_eq h hpc hst hs hc (holds_of_countedDown h hs hj) hji]
    exact (inv.windowDown j hs hj).trans hmono

omit inv hst hm [DecidableEq ι] in
/-- A release that sets the flag has seen another ticket behind its own. -/
theorem waiting_of_flag (hs : (s.client i).side = .read) (hp : (s.client i).pc = .rStoreHand)
    (hf : (s.client i).relTicket % 256 ≠ ((s.client i).relCurrent + 1) % 256) :
    (s.readView (hash k)).current + 1 < (s.readView (hash k)).ticket := by
  have hsv := h.serving i hpc
  rw [hs] at hsv
  have hc : _ = (s.readView (hash k)).current := hsv.current (by rw [hp]; rfl)
  have ht : (s.readView (hash k)).current < _ ∧ _ ≤ (s.readView (hash k)).ticket :=
    hsv.ticket (by rw [hp]; rfl)
  have hne : (s.client i).relTicket ≠ (s.client i).relCurrent + 1 := fun he => hf (by rw [he])
  omega

omit hm [DecidableEq ι] in
theorem fed_step (hh : (t.readView (hash k)).handover = true) :
    (t.readView (hash k)).current < (t.readView (hash k)).ticket := by
  cases h.readEffect hpc hst with
  | takes hv hs hp =>
    rw [hv] at hh ⊢
    exact (inv.fed hh).trans (Nat.lt_succ_self _)
  | clears hv hs hp => simp [hv] at hh
  | flags hv hs hp =>
    rw [hv]
    exact h.outstanding hs (by simp [Client.ticketed, Client.critical, hp])
  | bumps hv hs hp =>
    rw [hv] at hh ⊢
    exact inv.fedStored hh i hs (by rw [hp]; rfl)
  | _ hv =>
    rw [hv] at hh ⊢
    exact inv.fed hh

theorem fedStored_step (hh : (t.readView (hash k)).handover = true) (j : ι)
    (hs : (t.client j).side = .read) (hj : (t.client j).pc.flagStored = true) :
    (t.readView (hash k)).current + 1 < (t.readView (hash k)).ticket := by
  by_cases hji : j = i
  · subst hji
    rw [hst.side_eq] at hs
    have he := h.readEffect hpc hst
    rcases hst.to_flagStored hs hj with ⟨hp, hne⟩ | hp
    · have hfs := fun hh => inv.fedStored hh j hs hp
      cases he with
      | bumps _ _ hp' => exact absurd hp' hne
      | takes _ _ hp' | clears _ _ hp' | flags _ _ hp' => simp [hp', Pc.flagStored] at hp
      | _ hv =>
        rw [hv] at hh ⊢
        exact hfs hh
    · cases he with
      | flags hv =>
        rw [hv] at hh ⊢
        exact waiting_of_flag h hpc hs hp (by simpa using hh)
      | keeps _ hp' => exact absurd hp (hp' hs)
      | starts _ hp' | closes _ hp' => simp [hp] at hp'
      | _ _ _ hp' => simp [hp] at hp'
  · rw [hm.client_ne hji] at hs hj
    have hc : (s.client j).critical = true := by
      cases hp : (s.client j).pc <;> simp_all [Pc.flagStored, Client.critical]
    obtain ⟨hcur, hhand, -, htk⟩ := (h.foreign hpc hst hs hc hji).frame
    rw [hhand] at hh
    rw [hcur]
    exact (inv.fedStored hh j hs hj).trans_le htk

theorem step [Fintype ι] (hcard : Fintype.card ι ≤ 255) : ReadInv (hash k) t where
  locked := inv.locked_step hm hst
  exclusive := inv.exclusive_step hm hst
  othCurrent := inv.othCurrent_step h hm hpc hst
  othTicket := inv.othTicket_step h hm hpc hst
  positive := inv.positive_step h hm hpc hst
  window := inv.window_step h hpc hst hcard
  windowDown := inv.windowDown_step h hm hpc hst
  fed := inv.fed_step h hpc hst
  fedStored := inv.fedStored_step h hm hpc hst

end ReadInv

omit hst in
/-- A client that starts an operation holds no mutex and no ticket. -/
theorem ReadInv.begin_step (hm : Moves hash s i t) (hb : Begins s.now (s.client i) (t.client i))
    (hnode : t.node (hash k) = s.node (hash k)) : ReadInv (hash k) t := by
  have hp := hb.locals.1
  have keeps {j : ι} {f : Client κ ν → Prop} (hf : ∀ c, c.pc = .casKey → ¬ f c) (hj : f (t.client j)) :
      t.client j = s.client j := hm.client_ne (by rintro rfl; exact hf _ hp hj)
  have hv : t.readView (hash k) = s.readView (hash k) := by rw [Table.readView, hnode]
  have hold {j : ι} (hj : (t.client j).holds .read = true) : t.client j = s.client j :=
    keeps (f := fun c => c.holds .read = true) (by intro c hc; simp [Client.holds, hc]) hj
  refine ⟨fun j hj => ?_, fun j l hj hl => ?_, fun j hs hj => ?_, fun j hs hj => ?_, fun j hs hj => ?_,
    hv ▸ inv.window, fun j hs hj => ?_, fun hh => ?_, fun hh j hs hj => ?_⟩
  · rw [hold hj] at hj
    exact hnode ▸ inv.locked j hj
  · rw [hold hj] at hj
    rw [hold hl] at hl
    exact inv.exclusive j l hj hl
  · have he := keeps (f := fun c => c.pc = .oTicket ∨ c.pc = .oStoreOther)
      (by intro c hc; simp [hc]) hj
    rw [he] at hs hj ⊢
    exact hv ▸ inv.othCurrent j hs hj
  · have he := keeps (f := fun c => c.pc = .oStoreOther) (by intro c hc; simp [hc]) hj
    rw [he] at hs hj ⊢
    exact hv ▸ inv.othTicket j hs hj
  · have he := keeps (f := fun c => c.pc = .rDec) (by intro c hc; simp [hc]) hj
    rw [he] at hs hj
    exact hv ▸ inv.positive j hs hj
  · have he := keeps (f := fun c => c.pc.countedDown = true)
      (by intro c hc; simp [hc, Pc.countedDown]) hj
    rw [he] at hs hj
    exact hv ▸ inv.windowDown j hs hj
  · rw [hv] at hh ⊢
    exact inv.fed hh
  · have he := keeps (f := fun c => c.pc.flagStored = true)
      (by intro c hc; simp [hc, Pc.flagStored]) hj
    rw [he] at hs hj
    rw [hv] at hh ⊢
    exact inv.fedStored hh j hs hj

end step

theorem readInv_of_reach [DecidableEq κ] [DecidableEq ι] [Fintype ι] {hash : κ → ℕ} {k : κ}
    {s : Table ι κ ν} {G : Table ι κ ν → ι × Choice κ ν → Prop} (hcard : Fintype.card ι ≤ 255)
    (hG : ∀ s a, G s a → OnKey k a.2 ∧ NoConflict hash s a.1) (h : (system ι ν hash).Reach G s) :
    ReadInv (hash k) s := by
  refine h.invariant ?_ ?_
  · intro s hs
    have hidle := hs.2.2.1
    have hq := (hs.2.1 (hash k)).1 .read
    constructor <;>
      simp [hidle, Table.readView, LockNode.readView, hq, Client.holds, Pc.countedDown, Pc.flagStored]
  · intro s a t hr inv hg ht
    have hm := next_moves ht
    have hs := sharing_of_reach hcard hG hr
    cases hm.keyMoves (hs.key a.1) with
    | begins hpc hb hnode hw hret => exact inv.begin_step hm hb hnode
    | steps hpc hst hw hnew hret => exact inv.step hs hm hpc hst hcard

end SmartTree.LocalLock
