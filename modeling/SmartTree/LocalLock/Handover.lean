import SmartTree.Key
import SmartTree.LocalLock.History

/-! Write combining and lost updates. A follower is handed over because of where its
ticket stands when the winner releases, but what was written was sampled before that;
the update survives when every queued client had stored its value by the time of the
sample. -/
namespace SmartTree.LocalLock
variable {ι κ ν : Type*}

def Carried (writes : List (LeafWrite κ ν)) (c : Client κ ν) : Prop :=
  ∃ d ∈ c.depAt, ∃ w ∈ writes, w.key = c.key ∧ d < w.issuedAt ∧
    (w.value = c.arg ∨ ∃ d' ∈ w.depAt, d < d')

/-- Every insert that was handed over has its value, or a later one, written. -/
def NoLostUpdate (s : Table ι κ ν) : Prop :=
  ∀ i, (s.client i).pc ≠ .idle → (s.client i).side = .write → (s.client i).acq = (true, false) →
    Carried s.writes (s.client i)

/-- A winner that loads the write ticket in its release has written the leaf with a value
taken after every other queued client stored its own. -/
def QueuedBeforeSample (hash : κ → ℕ) (s : Table ι κ ν) (i : ι) : Prop :=
  (s.client i).pc = .rTicket → (s.client i).side = .write → (s.client i).acq = (false, false) →
    ∀ j, j ≠ i → InQueue hash s (hash (s.client i).key) .write j →
      ∃ _ ∈ (s.client i).wroteAt, ∃ d ∈ (s.client j).depAt, ∃ d' ∈ (s.client i).valAt, d ≤ d'

section decidable
variable [DecidableEq κ] [DecidableEq ν]

instance (writes : List (LeafWrite κ ν)) (c : Client κ ν) : Decidable (Carried writes c) :=
  inferInstanceAs (Decidable (∃ _ ∈ _, _))

instance [Fintype ι] (s : Table ι κ ν) : Decidable (NoLostUpdate s) :=
  inferInstanceAs (Decidable (∀ _, _))

instance [Fintype ι] [DecidableEq ι] (hash : κ → ℕ) (s : Table ι κ ν) (i : ι) :
    Decidable (QueuedBeforeSample hash s i) :=
  haveI (j : ι) : Decidable (InQueue hash s (hash (s.client i).key) .write j) :=
    inferInstanceAs (Decidable (_ ∧ _))
  inferInstanceAs (Decidable (_ → _))

end decidable

theorem Carried.mono {ws ws' : List (LeafWrite κ ν)} {c : Client κ ν} (h : Carried ws c)
    (hw : ∀ w ∈ ws, w ∈ ws') : Carried ws' c := by
  obtain ⟨d, hd, w, hmem, hrest⟩ := h
  exact ⟨d, hd, w, hw w hmem, hrest⟩

abbrev Table.writeQueue (s : Table ι κ ν) (m : ℕ) : Queue κ := (s.node m).queue .write

/-- Whoever may still be handed over has its value written: the clients a release has
counted, then those the window lets through, then the one about to test the flag. -/
structure ServedInv (m : ℕ) (s : Table ι κ ν) : Prop where
  handed : ∀ i, (s.client i).pc ≠ .idle → (s.client i).acq.1 = true → Carried s.writes (s.client i)
  atLoad : ∀ i, (s.client i).pc = .loadHand →
    (s.writeQueue m).handover = false ∨ Carried s.writes (s.client i)
  counted : ∀ i, (s.client i).pc.counting = true → (s.client i).acq = (false, false) → ∀ j, j ≠ i →
    (s.client j).ticketed = true → (s.client j).ticket < (s.client i).relTicket →
    Carried s.writes (s.client j)
  waiting : ∀ j, (s.client j).pc.undecided = true →
    (s.client j).ticket < (s.writeQueue m).current + (s.writeQueue m).window →
    Carried s.writes (s.client j)
  waitingDown : ∀ i, (s.client i).pc.countedDown = true → ∀ j, j ≠ i →
    (s.client j).pc.undecided = true →
    (s.client j).ticket < (s.writeQueue m).current + (s.writeQueue m).window + 1 →
    Carried s.writes (s.client j)
  positive : ∀ i, (s.client i).pc = .cDec ∨ (s.client i).pc = .rDec → (s.writeQueue m).window ≠ 0
  window : (s.writeQueue m).current + (s.writeQueue m).window ≤ (s.writeQueue m).ticket
  windowDown : ∀ i, (s.client i).pc.countedDown = true →
    (s.writeQueue m).current + (s.writeQueue m).window + 1 ≤ (s.writeQueue m).ticket

section step
variable {hash : κ → ℕ} {k : κ} {s t : Table ι κ ν} {i : ι} {o : Obs κ ν}

structure Inserting (hash : κ → ℕ) (k : κ) (s : Table ι κ ν) : Prop where
  key : ∀ i, (s.client i).pc ≠ .idle → (s.client i).key = k
  side : ∀ i, (s.client i).pc ≠ .idle → (s.client i).side = .write
  queue : QueueInv hash s (hash k) .write
  serving : ∀ i, (s.client i).pc ≠ .idle → Serving (s.writeQueue (hash k)) (s.client i)

namespace Inserting

theorem inQueue (h : Inserting hash k s) {j : ι} (hj : (s.client j).ticketed = true) :
    InQueue hash s (hash k) .write j := by
  have hrun := Client.running_of_ticketed hj
  exact ⟨by rw [h.key j hrun], h.side j hrun, hj⟩

theorem bound (h : Inserting hash k s) {j : ι} (hj : (s.client j).ticketed = true) :
    (s.writeQueue (hash k)).current ≤ (s.client j).ticket ∧
      (s.client j).ticket < (s.writeQueue (hash k)).ticket :=
  h.queue.bound j (h.inQueue hj)

theorem ticket_eq (h : Inserting hash k s) {j : ι} (hj : (s.client j).critical = true) :
    (s.client j).ticket = (s.writeQueue (hash k)).current :=
  h.queue.serving j (h.inQueue (Client.ticketed_of_critical hj)) hj

theorem winner (h : Inserting hash k s) (hpc : (s.client i).pc ≠ .idle)
    (hp : (s.client i).pc.opening = true) : (s.client i).acq = (false, false) := by
  have hd : (s.client i).decided = true := by
    cases hp' : (s.client i).pc <;>
      simp_all [Pc.opening, Client.decided, Pc.counting, Pc.loaded]
  exact Prod.ext ((h.serving i hpc).opener hp) ((h.serving i hpc).noConflict hd)

theorem ne_of_critical (h : Inserting hash k s) {j : ι} (hj : (s.client j).critical = true)
    (hji : j ≠ i) : (s.client i).critical = false := by
  by_contra hc
  rw [Bool.not_eq_false] at hc
  exact hji (h.queue.unique (h.inQueue (Client.ticketed_of_critical hj))
    (h.inQueue (Client.ticketed_of_critical hc)) hj hc)

end Inserting

/-- While one client is being served, nobody else changes its queue but for new tickets. -/
theorem Inserting.frame (h : Inserting hash k s) (hpc : (s.client i).pc ≠ .idle)
    (hst : Step s.now (s.node (hash k)) (s.client i) (t.node (hash k)) (t.client i) o) {j : ι}
    (hj : (s.client j).critical = true) (hji : j ≠ i) :
    (t.writeQueue (hash k)).current = (s.writeQueue (hash k)).current ∧
      (t.writeQueue (hash k)).handover = (s.writeQueue (hash k)).handover ∧
      (t.writeQueue (hash k)).window = (s.writeQueue (hash k)).window ∧
      (s.writeQueue (hash k)).ticket ≤ (t.writeQueue (hash k)).ticket := by
  have := hst.unserved (h.ne_of_critical hj hji)
  rwa [h.side i hpc] at this

variable [DecidableEq ι] (h : Inserting hash k s) (inv : ServedInv (hash k) s)
  (hm : Moves hash s i t) (hpc : (s.client i).pc ≠ .idle)
  (hst : Step s.now (s.node (hash k)) (s.client i) (t.node (hash k)) (t.client i) o)
  (hw : ∀ w ∈ s.writes, w ∈ t.writes)
include h inv hm hpc hst hw

omit h inv hpc in
theorem Carried.step {j : ι} (hj : j = i → (s.client i).pc ≠ .deposit)
    (hc : Carried s.writes (s.client j)) : Carried t.writes (t.client j) := by
  by_cases hji : j = i
  · subst hji
    obtain ⟨d, hd, hrest⟩ := hc.mono hw
    refine ⟨d, (hst.depAt_eq (hj rfl)).trans hd, ?_⟩
    rwa [hst.key_eq, hst.arg_eq]
  · rw [hm.client_ne hji]
    exact hc.mono hw

theorem ServedInv.handed_step (j : ι) (hj : (t.client j).pc ≠ .idle)
    (ha : (t.client j).acq.1 = true) : Carried t.writes (t.client j) := by
  by_cases hji : j = i
  · subst hji
    have hnd (ha : (s.client j).acq.1 = true) : (s.client j).pc ≠ .deposit := fun hp => by
      simp [(h.serving j hpc).notHanded (by rw [hp]; rfl)] at ha
    rcases hst.to_handed ha with he | ⟨hp, hh⟩
    · rw [he] at ha
      exact Carried.step hm hst hw (fun _ => hnd ha) (inv.handed j hpc ha)
    · refine Carried.step hm hst hw (fun _ => by simp [hp]) ((inv.atLoad j hp).resolve_left ?_)
      rw [h.side j hpc] at hh
      simp [hh]
  · rw [hm.client_ne hji] at hj ha
    exact Carried.step hm hst hw (fun he => absurd he hji) (inv.handed j hj ha)

theorem ServedInv.atLoad_step (j : ι) (hj : (t.client j).pc = .loadHand) :
    (t.writeQueue (hash k)).handover = false ∨ Carried t.writes (t.client j) := by
  by_cases hji : j = i
  · subst hji
    rcases hst.to_loadHand hj with ⟨hp, hh⟩ | ⟨hp, hwin⟩ <;> rw [h.side j hpc] at *
    · exact .inl hh
    · refine .inr (Carried.step hm hst hw (fun _ => by simp [hp]) (inv.waiting j (by rw [hp]; rfl) ?_))
      rw [h.ticket_eq (by simp [Client.critical, hp])]
      exact Nat.lt_add_of_pos_right (Nat.pos_of_ne_zero hwin)
  · rw [hm.client_ne hji] at hj
    have hc : (s.client j).critical = true := by simp [Client.critical, hj]
    rw [(h.frame hpc hst hc hji).2.1]
    exact (inv.atLoad j hj).imp_right (Carried.step hm hst hw fun he => absurd he hji)

omit inv hm hst hw [DecidableEq ι] in
/-- The write of a winner carries what everyone queued behind it had stored. -/
theorem carried_of_queuedBeforeSample (hist : HistoryInv (hash k) s) (hg : QueuedBeforeSample hash s i)
    (hp : (s.client i).pc = .rTicket) (ha : (s.client i).acq = (false, false)) {j : ι} (hji : j ≠ i)
    (hj : (s.client j).ticketed = true) : Carried s.writes (s.client j) := by
  have hrun := Client.running_of_ticketed hj
  obtain ⟨w, hwr, d, hd, d', hd', hle⟩ :=
    hg hp (h.side i hpc) ha j hji (by rw [h.key i hpc]; exact h.inQueue hj)
  obtain ⟨hmem, hlt⟩ := (hist.sound i hpc).wrote w hwr
  refine ⟨d, hd, _, hmem, (h.key i hpc).trans (h.key j hrun).symm, hle.trans_lt (hlt d' hd'), ?_⟩
  rcases hle.eq_or_lt with rfl | hlt'
  · exact .inl (hist.same i j hpc hrun d hd' hd)
  · exact .inr ⟨d', hd', hlt'⟩

theorem ServedInv.counted_step (hist : HistoryInv (hash k) s) (hg : QueuedBeforeSample hash s i)
    (a : ι) (ha : (t.client a).pc.counting = true) (hacq : (t.client a).acq = (false, false)) (j : ι)
    (hja : j ≠ a) (hj : (t.client j).ticketed = true)
    (hlt : (t.client j).ticket < (t.client a).relTicket) : Carried t.writes (t.client j) := by
  by_cases hai : a = i
  · subst hai
    rw [hm.client_ne hja] at hj hlt
    refine Carried.step hm hst hw (fun he => absurd he hja) ?_
    obtain ⟨he, ⟨hc, hrel⟩ | ⟨hp, hrel⟩⟩ := hst.to_counting ha
    · exact inv.counted a hc (he ▸ hacq) j hja hj (hrel ▸ hlt)
    · exact carried_of_queuedBeforeSample h hpc hist hg hp (he ▸ hacq) hja hj
  · rw [hm.client_ne hai] at ha hacq hlt
    by_cases hji : j = i
    · subst hji
      -- a ticket taken now is not among those already counted
      have hrel := ((h.serving a (by rintro hp; simp [hp, Pc.counting, Pc.loaded, Pc.opening] at ha)).ticket ha).2
      have hside := h.side j hpc
      rcases hst.queueEffect with ⟨-, -, -, ht, -, -⟩ | ⟨h₁, -, -, -, ht, -, -⟩ | ⟨-, h₂, -, -⟩ |
        ⟨h₁, -, ht, -, -⟩
      · rw [ht, hside] at hlt
        exact absurd hlt (not_lt.mpr hrel)
      · refine Carried.step hm hst hw (fun _ hp => ?_) (inv.counted a ha hacq j hja h₁ (ht ▸ hlt))
        simp [Client.ticketed, Client.critical, hp] at h₁
      · simp [h₂] at hj
      · rw [h₁] at hj
        refine Carried.step hm hst hw (fun _ hp => ?_) (inv.counted a ha hacq j hja hj (ht ▸ hlt))
        simp [Client.ticketed, Client.critical, hp] at hj
    · rw [hm.client_ne hji] at hj hlt
      exact Carried.step hm hst hw (fun he => absurd he hji) (inv.counted a ha hacq j hja hj hlt)

omit hm hw [DecidableEq ι] in
theorem ServedInv.reach_step [Fintype ι] (hcard : Fintype.card ι ≤ 255) :
    ((s.client i).pc = .oStoreOwn ∧ (t.writeQueue (hash k)).current = (s.writeQueue (hash k)).current ∧
      (t.writeQueue (hash k)).current + (t.writeQueue (hash k)).window = (s.client i).relTicket) ∨
    (((s.client i).pc = .cBump ∨ (s.client i).pc = .rBump) ∧
      (t.writeQueue (hash k)).current + (t.writeQueue (hash k)).window =
        (s.writeQueue (hash k)).current + (s.writeQueue (hash k)).window + 1) ∨
    (((s.client i).pc = .cDec ∨ (s.client i).pc = .rDec) ∧
      (t.writeQueue (hash k)).current + (t.writeQueue (hash k)).window + 1 ≤
        (s.writeQueue (hash k)).current + (s.writeQueue (hash k)).window) ∨
    ((t.writeQueue (hash k)).current = (s.writeQueue (hash k)).current ∧
      (t.writeQueue (hash k)).window = (s.writeQueue (hash k)).window) := by
  have hsv := h.serving i hpc
  have he := hst.serveEffect
  rw [h.side i hpc] at he
  cases he with
  | takes _ _ hcur _ hw => exact .inr (.inr (.inr ⟨hcur, hw⟩))
  | hands _ _ hcur hw => exact .inr (.inr (.inr ⟨hcur, hw⟩))
  | opens hp ht hcur hh hw =>
    have hle := h.queue.ticket_le
    have hc := hsv.current (by rw [hp]; rfl)
    have htk := hsv.ticket (by rw [hp]; rfl)
    refine .inl ⟨hp, hcur, ?_⟩
    rw [hw, hcur, outstanding_eq] <;> simp only [Table.writeQueue] at * <;> omega
  | countsDown hp ht hcur hh hw =>
    have := inv.positive i hp
    refine .inr (.inr (.inl ⟨hp, ?_⟩))
    simp only [Table.writeQueue] at *
    omega
  | bumps hp ht hcur hh hw =>
    refine .inr (.inl ⟨hp, ?_⟩)
    simp only [Table.writeQueue] at *
    omega
  | keeps _ hcur _ hw => exact .inr (.inr (.inr ⟨hcur, hw⟩))

omit hm hw [DecidableEq ι] in
theorem ServedInv.reach_keeps [Fintype ι] (hcard : Fintype.card ι ≤ 255)
    (hp : (s.client i).pc.undecided = true ∨ (s.client i).pc = .takeTicket) :
    (t.writeQueue (hash k)).current = (s.writeQueue (hash k)).current ∧
      (t.writeQueue (hash k)).window = (s.writeQueue (hash k)).window := by
  rcases inv.reach_step h hpc hst hcard with ⟨hp', -⟩ | ⟨hp' | hp', -⟩ | ⟨hp' | hp', -⟩ | hkeep
  case inr.inr.inr => exact hkeep
  all_goals simp [hp', Pc.undecided] at hp

theorem ServedInv.waiting_step [Fintype ι] (hcard : Fintype.card ι ≤ 255) (j : ι)
    (hj : (t.client j).pc.undecided = true)
    (hlt : (t.client j).ticket < (t.writeQueue (hash k)).current + (t.writeQueue (hash k)).window) :
    Carried t.writes (t.client j) := by
  by_cases hji : j = i
  · subst hji
    rcases hst.to_undecided hj with ⟨hu, ht⟩ | ⟨hp, ht⟩
    · obtain ⟨hc, hwin⟩ := inv.reach_keeps h hpc hst hcard (.inl hu)
      rw [ht, hc, hwin] at hlt
      exact Carried.step hm hst hw (fun _ hp => by simp [hp, Pc.undecided] at hu)
        (inv.waiting j hu hlt)
    · -- a new ticket is beyond the window
      obtain ⟨hc, hwin⟩ := inv.reach_keeps h hpc hst hcard (.inr hp)
      rw [ht, hc, hwin, h.side j hpc] at hlt
      exact absurd hlt (not_lt.mpr inv.window)
  · rw [hm.client_ne hji] at hj hlt
    refine Carried.step hm hst hw (fun he => absurd he hji) ?_
    rcases inv.reach_step h hpc hst hcard with ⟨hp, hc, hr⟩ | ⟨hp, hr⟩ | ⟨hp, hr⟩ | ⟨hc, hwin⟩
    · exact inv.counted i (by rw [hp]; rfl) (h.winner hpc (by rw [hp]; rfl)) j hji
        (Client.ticketed_of_undecided hj) (hr ▸ hlt)
    · exact inv.waitingDown i (by rcases hp with hp | hp <;> rw [hp] <;> rfl) j hji hj (hr ▸ hlt)
    · exact inv.waiting j hj (by omega)
    · exact inv.waiting j hj (by rwa [hc, hwin] at hlt)

omit hm hw [DecidableEq ι] in
/-- A client that has just been counted down: it was before, or the window was for it. -/
theorem ServedInv.down_step (ha : (t.client i).pc.countedDown = true) :
    (s.client i).critical = true ∧
      (t.writeQueue (hash k)).current = (s.writeQueue (hash k)).current ∧
      ((s.client i).pc.countedDown = true ∧
          (t.writeQueue (hash k)).window = (s.writeQueue (hash k)).window ∨
        (t.writeQueue (hash k)).window + 1 ≤ (s.writeQueue (hash k)).window ∨
        (t.writeQueue (hash k)).window = 0) := by
  have hd := hst.to_countedDown ha
  rw [h.side i hpc] at hd
  refine ⟨hd.1, hd.2.1, hd.2.2.imp_right fun hd => hd.imp_left fun ⟨hp, hwin⟩ => ?_⟩
  have := inv.positive i hp
  simp only [Table.writeQueue] at *
  omega

theorem ServedInv.waitingDown_step (a : ι) (ha : (t.client a).pc.countedDown = true) (j : ι)
    (hja : j ≠ a) (hj : (t.client j).pc.undecided = true)
    (hlt : (t.client j).ticket <
      (t.writeQueue (hash k)).current + (t.writeQueue (hash k)).window + 1) :
    Carried t.writes (t.client j) := by
  by_cases hai : a = i
  · subst hai
    rw [hm.client_ne hja] at hj hlt
    refine Carried.step hm hst hw (fun he => absurd he hja) ?_
    obtain ⟨hcrit, hcur, ⟨hd, hwin⟩ | hwin | hwin⟩ := inv.down_step h hpc hst ha
    · exact inv.waitingDown a hd j hja hj (by rwa [hcur, hwin] at hlt)
    · exact inv.waiting j hj (by omega)
    · -- the only ticket that low is the one being served
      have htj := Client.ticketed_of_undecided hj
      have hb := h.bound htj
      have hserv := h.ticket_eq hcrit
      exact absurd (h.queue.inj j a (h.inQueue htj) (h.inQueue (Client.ticketed_of_critical hcrit))
        (by omega)) hja
  · rw [hm.client_ne hai] at ha
    obtain ⟨hcur, -, hwin, -⟩ := h.frame hpc hst (Client.critical_of_countedDown ha) hai
    rw [hcur, hwin] at hlt
    by_cases hji : j = i
    · subst hji
      rcases hst.to_undecided hj with ⟨hu, ht⟩ | ⟨hp, ht⟩
      · exact Carried.step hm hst hw (fun _ hp => by simp [hp, Pc.undecided] at hu)
          (inv.waitingDown a ha j hja hu (ht ▸ hlt))
      · rw [ht, h.side j hpc] at hlt
        exact absurd hlt (not_lt.mpr (inv.windowDown a ha))
    · rw [hm.client_ne hji] at hj hlt
      exact Carried.step hm hst hw (fun he => absurd he hji) (inv.waitingDown a ha j hja hj hlt)

omit hm hw [DecidableEq ι] in
theorem ServedInv.window_step [Fintype ι] (hcard : Fintype.card ι ≤ 255) :
    (t.writeQueue (hash k)).current + (t.writeQueue (hash k)).window ≤
      (t.writeQueue (hash k)).ticket := by
  have hmono : (s.writeQueue (hash k)).ticket ≤ (t.writeQueue (hash k)).ticket := by
    simpa only [h.side i hpc] using hst.ticket_le
  rcases inv.reach_step h hpc hst hcard with ⟨hp, -, hr⟩ | ⟨hp, hr⟩ | ⟨hp, hr⟩ | ⟨hc, hwin⟩
  · rw [hr]
    exact ((h.serving i hpc).ticket (by rw [hp]; rfl)).2.trans hmono
  · rw [hr]
    exact (inv.windowDown i (by rcases hp with hp | hp <;> rw [hp] <;> rfl)).trans hmono
  · exact (Nat.le_of_succ_le hr).trans (inv.window.trans hmono)
  · rw [hc, hwin]
    exact inv.window.trans hmono

omit hw in
theorem ServedInv.windowDown_step (a : ι) (ha : (t.client a).pc.countedDown = true) :
    (t.writeQueue (hash k)).current + (t.writeQueue (hash k)).window + 1 ≤
      (t.writeQueue (hash k)).ticket := by
  have hmono : (s.writeQueue (hash k)).ticket ≤ (t.writeQueue (hash k)).ticket := by
    simpa only [h.side i hpc] using hst.ticket_le
  have hwin₀ := inv.window
  by_cases hai : a = i
  · subst hai
    obtain ⟨hcrit, hcur, ⟨hd, hwin⟩ | hwin | hwin⟩ := inv.down_step h hpc hst ha
    · rw [hcur, hwin]
      exact (inv.windowDown a hd).trans hmono
    · omega
    · have hb := h.bound (Client.ticketed_of_critical hcrit)
      omega
  · rw [hm.client_ne hai] at ha
    obtain ⟨hcur, -, hwin, -⟩ := h.frame hpc hst (Client.critical_of_countedDown ha) hai
    rw [hcur, hwin]
    exact (inv.windowDown a ha).trans hmono

omit hw in
theorem ServedInv.positive_step (j : ι) (hj : (t.client j).pc = .cDec ∨ (t.client j).pc = .rDec) :
    (t.writeQueue (hash k)).window ≠ 0 := by
  by_cases hji : j = i
  · subst hji
    have := hst.to_dec hj
    rwa [h.side j hpc] at this
  · rw [hm.client_ne hji] at hj
    have hc : (s.client j).critical = true := by
      rcases hj with hj | hj <;> simp [Client.critical, hj]
    rw [(h.frame hpc hst hc hji).2.2.1]
    exact inv.positive j hj

theorem ServedInv.step [Fintype ι] (hcard : Fintype.card ι ≤ 255) (hist : HistoryInv (hash k) s)
    (hg : QueuedBeforeSample hash s i) : ServedInv (hash k) t where
  handed := inv.handed_step h hm hpc hst hw
  atLoad := inv.atLoad_step h hm hpc hst hw
  counted := inv.counted_step h hm hpc hst hw hist hg
  waiting := inv.waiting_step h hm hpc hst hw hcard
  waitingDown := inv.waitingDown_step h hm hpc hst hw
  positive := inv.positive_step h hm hpc hst
  window := inv.window_step h hpc hst hcard
  windowDown := inv.windowDown_step h hm hpc hst

omit h hpc hst hw in
theorem ServedInv.begin_step (hb : Begins s.now (s.client i) (t.client i))
    (hnode : t.node (hash k) = s.node (hash k)) (hwr : t.writes = s.writes) :
    ServedInv (hash k) t := by
  obtain ⟨hp, hacq, -⟩ := hb.locals
  have keeps {j : ι} (hj : (t.client j).pc ≠ .casKey) : t.client j = s.client j :=
    hm.client_ne (by rintro rfl; exact hj hp)
  have keeps' {j : ι} {f : Pc → Bool} (hf : f .casKey = false) (hj : f (t.client j).pc = true) :
      t.client j = s.client j := keeps (by rintro he; simp [he, hf] at hj)
  have hq : t.writeQueue (hash k) = s.writeQueue (hash k) := by rw [Table.writeQueue, hnode]
  refine ⟨fun j hj ha => ?_, fun j hj => ?_, fun a ha hacq j hja hj => ?_,
    fun j hj => ?_, fun a ha j hja hj => ?_, fun j hj => ?_, hq ▸ inv.window, fun a ha => ?_⟩
  · have hji : j ≠ i := by rintro rfl; simp [hacq] at ha
    rw [hm.client_ne hji] at hj ha ⊢
    exact hwr ▸ inv.handed j hj ha
  · have hj' := keeps (j := j) (by simp [hj])
    rw [hj'] at hj ⊢
    rw [hq, hwr]
    exact inv.atLoad j hj
  · have hj' : t.client j = s.client j := keeps fun he => by
      simp [Client.ticketed, Client.critical, he] at hj
    have ha' := keeps' rfl ha
    rw [ha'] at ha hacq ⊢
    rw [hj'] at hj ⊢
    exact hwr ▸ inv.counted a ha hacq j hja hj
  · have hj' := keeps' rfl hj
    rw [hj'] at hj ⊢
    rw [hq, hwr]
    exact inv.waiting j hj
  · rw [keeps' rfl ha] at ha
    have hj' := keeps' rfl hj
    rw [hj'] at hj ⊢
    rw [hq, hwr]
    exact inv.waitingDown a ha j hja hj
  · rw [keeps (j := j) (by rcases hj with hj | hj <;> simp [hj])] at hj
    rw [hq]
    exact inv.positive j hj
  · rw [keeps' rfl ha] at ha
    rw [hq]
    exact inv.windowDown a ha

end step

section run
variable [DecidableEq κ] [DecidableEq ι] [Fintype ι] {hash : κ → ℕ} {k : κ} {s : Table ι κ ν}

/-- Inserts of one key whose winners write what everyone queued behind them had stored. -/
def CombiningStep (hash : κ → ℕ) (k : κ) (s : Table ι κ ν) (a : ι × Choice κ ν) : Prop :=
  (OnKey k a.2 ∧ NoSearch a.2) ∧ QueuedBeforeSample hash s a.1

theorem inserting_of_reach (hcard : Fintype.card ι ≤ 255)
    (h : (system ι ν hash).Reach (CombiningStep hash k) s) : Inserting hash k s where
  key := key_of_reach (fun _ _ hg => hg.1.1) h
  side := side_of_reach (fun _ _ hg => hg.1.2) h
  queue := .of_reach hcard h
  serving i hi := by
    have := serving_of_reach hcard h i hi
    rwa [key_of_reach (fun _ _ hg => hg.1.1) h i hi, side_of_reach (fun _ _ hg => hg.1.2) h i hi] at this

theorem servedInv_of_reach (hcard : Fintype.card ι ≤ 255)
    (h : (system ι ν hash).Reach (CombiningStep hash k) s) :
    HistoryInv (hash k) s ∧ ServedInv (hash k) s := by
  refine h.invariant (P := fun s => HistoryInv (hash k) s ∧ ServedInv (hash k) s) ?_ ?_
  · intro s hs
    have hidle := hs.2.2.1
    have hq := (hs.2.1 (hash k)).1 .write
    refine ⟨⟨by simp [(hs.2.1 (hash k)).2.2.2.1], fun i hi => absurd (hidle i) hi,
      fun i _ hi => absurd (hidle i) hi⟩, ?_⟩
    constructor <;> simp [hidle, hq, Pc.counting, Pc.loaded, Pc.opening, Pc.undecided, Pc.countedDown]
  · intro s a t hr ⟨hist, inv⟩ hg ht
    have hm := next_moves ht
    have hs := inserting_of_reach hcard hr
    have hs' := inserting_of_reach hcard (.step hr hg ht)
    have hkm := hm.keyMoves (hs.key a.1)
    refine ⟨hist.step hm hkm (shaped_of_reach hr a.1) (hs.side a.1) (hs'.side a.1), ?_⟩
    cases hkm with
    | begins hpc hb hnode hw hret => exact inv.begin_step hm hb hnode hw
    | steps hpc hst hw hnew hret => exact inv.step hs hm hpc hst hw hcard hist hg.2

/-- With at most 255 clients inserting one key, no handed-over update is lost in a run
whose winners all sampled the buffer after the deposits of everyone queued. -/
theorem noLostUpdate_of_queuedBeforeSample (hcard : Fintype.card ι ≤ 255)
    (h : (system ι ν hash).Reach (CombiningStep hash k) s) : NoLostUpdate s :=
  fun i hi _ ha => (servedInv_of_reach hcard h).2.handed i hi (by rw [ha])

instance [DecidableEq ν] (a : ι × Choice κ ν) : Decidable (CombiningStep hash k s a) :=
  inferInstanceAs (Decidable (_ ∧ _))

end run

open scoped Transition.Numbered

def winnerUpToSample : List (Fin 2 × Choice (Key keyLen) Value) :=
  List.flatten [acts 0 [.beginInsert (int2key _ 7) 1 false], goes 0 8, acts 0 [.noLeaf, .go]]

def followerQueues : List (Fin 2 × Choice (Key keyLen) Value) :=
  acts 1 [.beginInsert (int2key _ 7) 2 false, .go, .go, .go]

/-- The first insert installs its leaf and releases; the second is handed over and is
about to return. -/
def writeAndHandOver : List (Fin 2 × Choice (Key keyLen) Value) :=
  List.flatten [acts 0 [.casOk], goes 0 19, goes 1 17]

/-- The second insert was handed over and is about to return. -/
def HandedOver (s : Table (Fin 2) (Key keyLen) Value) : Prop :=
  (s.client 1).pc = .rUnlock ∧ (s.client 1).acq = (true, false)

instance (s : Table (Fin 2) (Key keyLen) Value) : Decidable (HandedOver s) :=
  inferInstanceAs (Decidable (_ ∧ _))

theorem handedOver_deposit_before_sample :
    (system (Fin 2) Value fun _ : Key keyLen => 0).Ends (Table.zero (Fin 2) (int2key _ 0) 0)
      (winnerUpToSample ++ followerQueues ++ goes 0 1 ++ writeAndHandOver)
      fun t => HandedOver t ∧ NoLostUpdate t := by
  have hm : (system (Fin 2) Value fun _ : Key keyLen => 0).Meets
      (CombiningStep (fun _ => 0) (int2key _ 7)) (Table.zero (Fin 2) (int2key _ 0) 0)
      (winnerUpToSample ++ followerQueues ++ goes 0 1 ++ writeAndHandOver) := by decide +kernel
  have he : (system (Fin 2) Value fun _ : Key keyLen => 0).Ends (Table.zero (Fin 2) (int2key _ 0) 0)
      (winnerUpToSample ++ followerQueues ++ goes 0 1 ++ writeAndHandOver) HandedOver := by
    decide +kernel
  obtain ⟨t, ht, hh⟩ := he
  exact ⟨t, ht, hh, noLostUpdate_of_queuedBeforeSample (by decide)
    (.run (.init (Table.zero_initial _ _)) hm ht)⟩

/-- A follower that deposits between the winner's last sample and its release is handed
over although no leaf write ever carries its value. -/
theorem lost_update_deposit_after_sample :
    Initial (Table.zero (Fin 2) (int2key keyLen 0) (0 : Value)) ∧
    (system (Fin 2) Value fun _ : Key keyLen => 0).Ends (Table.zero (Fin 2) (int2key _ 0) 0)
      (winnerUpToSample ++ goes 0 1 ++ followerQueues ++ writeAndHandOver)
      fun t => HandedOver t ∧ (t.client 1).arg = 2 ∧ t.writes.map (·.value) = [1] ∧
        ¬ NoLostUpdate t :=
  ⟨Table.zero_initial _ _, by decide +kernel⟩

end SmartTree.LocalLock
