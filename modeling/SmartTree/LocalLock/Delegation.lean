import SmartTree.Key
import SmartTree.LocalLock.Window

/-! Read delegation and completed writes. A search may take over the result of another
traversal; the time window is there to keep it from taking one that is older than an
insert which returned before the search began. It does so in runs where every insert
finds the window in the right state when it tries to start it. -/
namespace SmartTree.LocalLock
variable {ι κ ν : Type*}

def FreshFor (returned : List (Completed κ)) (readAt : ℕ) (c : Client κ ν) : Prop :=
  ∀ w ∈ returned, w.returnedAt < c.invAt → w.wroteAt < readAt

/-- Every search that was handed a result got a fresh one. -/
def DelegatesFresh (s : Table ι κ ν) : Prop :=
  ∀ i, (s.client i).side = .read → (s.client i).acq = (true, false) →
    (s.client i).pc.received = true → FreshFor s.returned (s.client i).readAt (s.client i)

/-- An insert that tries to start the time window while a search holds a ticket: if it wrote
the leaf the window is not started yet, and if it starts the window no handover is under way. -/
def StartsFence (hash : κ → ℕ) (s : Table ι κ ν) (i : ι) : Prop :=
  let c := s.client i
  let v := s.readView (hash c.key)
  c.pc = .rCasWin → c.side = .write → v.current ≠ v.ticket →
    (c.wroteAt ≠ none → v.start = false) ∧ (v.start = false → v.handover = false)

section decidable

instance (returned : List (Completed κ)) (readAt : ℕ) (c : Client κ ν) :
    Decidable (FreshFor returned readAt c) :=
  inferInstanceAs (Decidable (∀ _ ∈ _, _))

instance [Fintype ι] (s : Table ι κ ν) : Decidable (DelegatesFresh s) :=
  inferInstanceAs (Decidable (∀ _, _))

instance (hash : κ → ℕ) (s : Table ι κ ν) (i : ι) : Decidable (StartsFence hash s i) :=
  inferInstanceAs (Decidable (_ → _))

end decidable

/-- A leaf write not older than the given time has returned, or can return any moment
without touching the read window any more. -/
def Exposed (s : Table ι κ ν) (readAt : ℕ) : Prop :=
  (∃ w ∈ s.returned, readAt ≤ w.wroteAt) ∨
    ∃ j, (s.client j).side = .write ∧ (s.client j).pc.pastWindow = true ∧
      ∃ w ∈ (s.client j).wroteAt, readAt ≤ w

/-- A winner with a result of its own that it has not handed over yet. -/
def Client.Live (c : Client κ ν) : Prop :=
  c.side = .read ∧ c.acq.1 = false ∧ c.pc.publishing = true

structure FreshInv (m : ℕ) (s : Table ι κ ν) : Prop where
  guard : ∀ i, (s.client i).Live → Exposed s (s.client i).readAt →
    (s.readView m).start = true ∧ (s.readView m).window ≠ 0 ∧ ∀ j, (s.client j).side = .write →
      (s.client j).pc.midOpening = false ∧ (s.client j).pc ≠ .rLoadWrite ∧ (s.client j).pc ≠ .rClose
  pending : ∀ i, (s.client i).Live → ∀ j, (s.client j).side = .write →
    (s.client j).pc.midOpening = true → ∀ w ∈ (s.client j).wroteAt, (s.client i).readAt ≤ w →
    (s.readView m).start = true ∧
      ((s.client j).pc = .oStoreOther → (s.readView m).current < (s.client j).othTicket)
  inWindow : ∀ i, (s.client i).Live → ∀ j, (s.client j).side = .read →
    (s.client j).pc.undecided = true →
    (s.client j).ticket < (s.readView m).current + (s.readView m).window →
    FreshFor s.returned (s.client i).readAt (s.client j)
  atOwnStore : ∀ i, (s.client i).side = .read → (s.client i).pc = .oStoreOwn → ∀ j,
    (s.client j).side = .read → (s.client j).ticketed = true →
    (s.client j).ticket < (s.client i).relTicket →
    FreshFor s.returned (s.client i).readAt (s.client j)
  published : ∀ i, (s.client i).Live → (s.client i).pc.published = true →
    (s.readView m).resAt = (s.client i).readAt
  flagged : (s.readView m).handover = true → ∀ j, (s.client j).side = .read →
    (s.client j).pc.undecided = true →
    (s.client j).ticket < (s.readView m).current + (s.readView m).window →
    FreshFor s.returned (s.readView m).resAt (s.client j)
  flaggedDown : (s.readView m).handover = true → ∀ i, (s.client i).side = .read →
    (s.client i).pc.countedDown = true → ∀ j, j ≠ i → (s.client j).side = .read →
    (s.client j).pc.undecided = true →
    (s.client j).ticket < (s.readView m).current + (s.readView m).window + 1 →
    FreshFor s.returned (s.readView m).resAt (s.client j)
  flaggedOpening : (s.readView m).handover = true → ∀ j, (s.client j).side = .write →
    (s.client j).pc.midOpening = true → ¬ Exposed s (s.readView m).resAt
  atLoad : ∀ i, (s.client i).side = .read → (s.client i).pc = .loadHand →
    (s.readView m).handover = false ∨ FreshFor s.returned (s.readView m).resAt (s.client i)
  delegated : ∀ i, (s.client i).side = .read → (s.client i).acq.1 = true →
    (s.client i).pc = .testHand ∨ (s.client i).pc = .loadRes →
    FreshFor s.returned (s.readView m).resAt (s.client i)
  received : ∀ i, (s.client i).side = .read → (s.client i).acq.1 = true →
    (s.client i).pc.received = true → FreshFor s.returned (s.client i).readAt (s.client i)

theorem Client.critical_of_publishing {c : Client κ ν} (h : c.pc.publishing = true) :
    c.critical = true := by
  cases hp : c.pc <;>
    simp_all [Pc.publishing, Pc.counting, Pc.loaded, Pc.opening, Client.critical]

theorem Client.critical_of_midOpening {c : Client κ ν} (h : c.pc.midOpening = true) :
    c.critical = true := by
  cases hp : c.pc <;> simp_all [Pc.midOpening, Client.critical]

theorem Pc.publishing_of_published {pc : Pc} (h : pc.published = true) : pc.publishing = true := by
  cases pc <;> simp_all [Pc.published, Pc.publishing]

theorem fresh_of_not_exposed {s : Table ι κ ν} {r : ℕ} (h : ¬ Exposed s r) (c : Client κ ν) :
    FreshFor s.returned r c := by
  intro w hw _
  by_contra hlt
  exact h (.inl ⟨w, hw, not_lt.mp hlt⟩)

section step
variable {hash : κ → ℕ} {k : κ} {s t : Table ι κ ν} {i : ι} {o : Obs κ ν}
variable [DecidableEq ι] (h : Sharing hash k s) (hm : Moves hash s i t)
  (hpc : (s.client i).pc ≠ .idle)
  (hst : Step s.now (s.node (hash k)) (s.client i) (t.node (hash k)) (t.client i) o)
  (hret : ∀ c, c ∈ t.returned ↔ c ∈ s.returned ∨ o = .completed c)
include h hm hpc hst hret

/-- An insert that returns now did not return before a client that is already running began. -/
theorem FreshFor.step {r : ℕ} {j : ι} (hj : (s.client j).pc ≠ .idle)
    (hf : FreshFor s.returned r (s.client j)) : FreshFor t.returned r (t.client j) := by
  have hinv : (t.client j).invAt = (s.client j).invAt := by
    by_cases hji : j = i
    · subst hji; exact hst.invAt_eq
    · rw [hm.client_ne hji]
  intro w hw hlt
  rw [hinv] at hlt
  rcases (hret w).mp hw with hw | hw
  · exact hf w hw hlt
  · obtain ⟨-, -, -, hat⟩ := hst.completed (h.calm i hpc) hw
    exact absurd (h.invoked j hj) (by omega)

omit hret in
theorem Client.Live.step {j : ι} (hj : (t.client j).Live) :
    (s.client j).Live ∧ (t.client j).readAt = (s.client j).readAt ∨
      j = i ∧ (s.client i).side = .read ∧ (t.client j).readAt = s.now := by
  by_cases hji : j = i
  · subst hji
    obtain ⟨hs, ha, hp⟩ := hj
    rw [hst.side_eq] at hs
    rcases hst.to_publishing hs (h.shaped j) hp ha with ⟨hp', he, hr⟩ | ⟨-, hr⟩ | ⟨hp', he⟩
    · exact .inl ⟨⟨hs, he ▸ ha, hp'⟩, hr⟩
    · exact .inr ⟨rfl, hs, hr⟩
    · rw [he, (h.serving j hpc).loser (.inr hp')] at ha
      simp at ha
  · rw [hm.client_ne hji] at hj ⊢
    exact .inl ⟨hj, rfl⟩

/-- How a write comes to be exposed: it stores the read window, or finds a window started. -/
theorem Exposed.step {r : ℕ} (he : Exposed t r) :
    Exposed s r ∨ (s.client i).side = .write ∧ (∃ w ∈ (s.client i).wroteAt, r ≤ w) ∧
      ((s.client i).pc = .oStoreOther ∨
        (s.client i).pc = .rCasWin ∧ (s.readView (hash k)).start = true) := by
  rcases he with ⟨w, hw, hr⟩ | ⟨j, hs, hp, w, hw, hr⟩
  · rcases (hret w).mp hw with hw | hw
    · exact .inl (.inl ⟨w, hw, hr⟩)
    · obtain ⟨hs, hp, hwr, -⟩ := hst.completed (h.calm i hpc) hw
      exact .inl (.inr ⟨i, hs, by rw [hp]; rfl, _, hwr, hr⟩)
  · by_cases hji : j = i
    · subst hji
      rw [hst.side_eq] at hs
      obtain ⟨hwr, hp' | hp' | hp' | ⟨hp', hh⟩⟩ := hst.to_pastWindow hs hp <;> rw [hwr] at hw
      · exact .inl (.inr ⟨j, hs, hp', w, hw, hr⟩)
      · exact .inr ⟨hs, ⟨w, hw, hr⟩, .inl hp'⟩
      · exact .inr ⟨hs, ⟨w, hw, hr⟩, .inr hp'⟩
      · -- a handed-over insert has written nothing
        have hf := (h.serving j hpc).flag (by simp [Client.decided, hp', Pc.counting, Pc.loaded])
        rw [hs, hh] at hf
        rw [h.handedUnwritten j hpc hf.symm] at hw
        simp at hw
    · rw [hm.client_ne hji] at hs hp hw
      exact .inl (.inr ⟨j, hs, hp, w, hw, hr⟩)

theorem not_exposed_now (hs : (s.client i).side = .read) : ¬ Exposed t s.now := by
  intro he
  rcases Exposed.step h hm hpc hst hret he with (⟨w, hw, hr⟩ | ⟨j, -, hp, w, hw, hr⟩) | ⟨hs', -⟩
  · exact absurd (h.returned w hw).1 (not_lt.mpr hr)
  · exact absurd (h.wrote j (by rintro hi; simp [hi, Pc.pastWindow] at hp) w hw) (not_lt.mpr hr)
  · simp [hs] at hs'

variable (inv : FreshInv (hash k) s) (hg : StartsFence hash s i)
include inv

omit hm hpc hst hret inv [DecidableEq ι] in
/-- While a winner is live nobody starts a window after a leaf write that finds one started. -/
theorem fence {j : ι} (hlive : (s.client j).Live) (hg : StartsFence hash s i)
    (hpc : (s.client i).pc ≠ .idle) (hs : (s.client i).side = .write)
    (hp : (s.client i).pc = .rCasWin) :
    ((s.client i).wroteAt ≠ none → (s.readView (hash k)).start = false) ∧
      ((s.readView (hash k)).start = false → (s.readView (hash k)).handover = false) := by
  have hne := h.outstanding hlive.1
    (Client.ticketed_of_critical (Client.critical_of_publishing hlive.2.2))
  have := hg hp hs
  rw [h.key i hpc] at this
  exact this hne.ne

omit hst hret inv hm [DecidableEq ι] hpc in
theorem Client.Live.ne_of_critical {j : ι} (hlive : (s.client j).Live)
    (hs : (s.client i).side = .read) (hc : (s.client i).critical = true)
    (hp : (s.client i).pc.publishing = false) : False := by
  have he := h.unique (hlive.1.trans hs.symm) (Client.critical_of_publishing hlive.2.2) hc
  subst he
  simp [hlive.2.2] at hp

omit hret hm [DecidableEq ι] in
theorem FreshInv.guard_keeps {j : ι} (hlive : (s.client j).Live)
    (he : Exposed s (s.client j).readAt) [Fintype ι] (hcard : Fintype.card ι ≤ 255) :
    (t.readView (hash k)).start = true ∧ (t.readView (hash k)).window ≠ 0 := by
  obtain ⟨hstart, hwin, hno⟩ := inv.guard j hlive he
  cases h.readEffect hpc hst with
  | starts _ _ h₀ => simp [hstart] at h₀
  | storesOwn hv hs hp =>
    have := ReadInv.ownWindow h hpc hcard hs hp
    rw [hv]
    refine ⟨hstart, ?_⟩
    simp only
    omega
  | storesOther _ hs hp => simpa [hp, Pc.midOpening] using (hno i hs).1
  | countsDown _ hs hp => exact (hlive.ne_of_critical h hs (by simp [Client.critical, hp]) (by rw [hp]; rfl)).elim
  | closes _ hp =>
    cases hs : (s.client i).side with
    | read => exact (hlive.ne_of_critical h hs (by simp [Client.critical, hp]) (by rw [hp]; rfl)).elim
    | write => exact absurd hp (hno i hs).2.2
  | _ hv => rw [hv]; exact ⟨hstart, hwin⟩

theorem FreshInv.guard_step (rinv : ReadInv (hash k) s) (hg : StartsFence hash s i) (j : ι)
    (hj : (t.client j).Live) (he : Exposed t (t.client j).readAt) [Fintype ι]
    (hcard : Fintype.card ι ≤ 255) :
    (t.readView (hash k)).start = true ∧ (t.readView (hash k)).window ≠ 0 ∧
      ∀ l, (t.client l).side = .write → (t.client l).pc.midOpening = false ∧
        (t.client l).pc ≠ .rLoadWrite ∧ (t.client l).pc ≠ .rClose := by
  rcases hj.step h hm hpc hst with ⟨hlive, hr⟩ | ⟨-, hs, hr⟩ <;> rw [hr] at he
  · rcases Exposed.step h hm hpc hst hret he with he | ⟨hs, hw, hp | ⟨hp, hstart⟩⟩
    · obtain ⟨hstart, hwin, hno⟩ := inv.guard j hlive he
      obtain ⟨hstart', hwin'⟩ := inv.guard_keeps h hpc hst hlive he hcard
      refine ⟨hstart', hwin', fun l hl => ?_⟩
      by_cases hli : l = i
      · subst hli
        rw [hst.side_eq] at hl
        refine ⟨?_, fun hp => ?_, fun hp => ?_⟩
        · by_contra hp
          rcases (hst.to_midOpening hl (Bool.not_eq_false _ ▸ hp)).2 with ⟨-, hf, -⟩ | ⟨hp, -⟩
          · exact absurd (hstart.symm.trans hf) (by simp)
          · simp [(hno l hl).1] at hp
        all_goals
          rcases hst.to_closing (h.calm l hpc) (by simp [hp]) with ⟨-, hz⟩ | hp
          · exact hwin hz
          · exact (hno l hl).2.1 hp
      · rw [hm.client_ne hli] at hl ⊢
        exact hno l hl
    · obtain ⟨w, hw, hle⟩ := hw
      have hmid : (s.client i).pc.midOpening = true := by rw [hp]; rfl
      obtain ⟨hstart, hlt⟩ := inv.pending j hlive i hs hmid w hw hle
      have hcrit : (s.client i).critical = true := by simp [Client.critical, hp]
      cases h.readEffect hpc hst with
      | storesOther hv _ _ =>
        have := rinv.otherWindow h hcard hs hp
        have := hlt hp
        refine ⟨by rw [hv]; exact hstart, by rw [hv]; simp only; omega, fun l hl => ?_⟩
        by_cases hli : l = i
        · subst hli
          refine ⟨?_, fun hp' => ?_, fun hp' => ?_⟩
          · by_contra hp'
            rcases (hst.to_midOpening hs (Bool.not_eq_false _ ▸ hp')).2 with ⟨hp', -⟩ | ⟨-, hp', -⟩
            · simp [hp] at hp'
            · exact hp' hp
          all_goals
            rcases hst.to_closing (h.calm l hpc) (by simp [hp']) with ⟨hp', -⟩ | hp' <;>
              simp [hp] at hp'
        · rw [hm.client_ne hli] at hl ⊢
          -- the other writers are not being served
          have hno (hc : (s.client l).critical = true) : False :=
            hli (h.unique (hl.trans hs.symm) hc hcrit)
          refine ⟨?_, fun hp' => hno (by simp [Client.critical, hp']),
            fun hp' => hno (by simp [Client.critical, hp'])⟩
          by_contra hp'
          exact hno (Client.critical_of_midOpening (Bool.not_eq_false _ ▸ hp'))
      | keeps _ _ hw => exact absurd hp (hw hs)
      | starts _ hp' | closes _ hp' => simp [hp] at hp'
      | _ _ _ hp' => simp [hp] at hp'
    · obtain ⟨w, hw, -⟩ := hw
      simp [(fence h hlive hg hpc hs hp).1 (by rw [hw]; simp)] at hstart
  · exact absurd he (not_exposed_now h hm hpc hst hret hs)

omit hret in
theorem FreshInv.pending_step (j : ι) (hj : (t.client j).Live) (l : ι)
    (hs : (t.client l).side = .write) (hp : (t.client l).pc.midOpening = true) (w : ℕ)
    (hw : w ∈ (t.client l).wroteAt) (hle : (t.client j).readAt ≤ w) :
    (t.readView (hash k)).start = true ∧
      ((t.client l).pc = .oStoreOther → (t.readView (hash k)).current < (t.client l).othTicket) := by
  rcases hj.step h hm hpc hst with ⟨hlive, hr⟩ | ⟨rfl, hsj, hr⟩ <;> rw [hr] at hle
  · by_cases hli : l = i
    · subst hli
      rw [hst.side_eq] at hs
      obtain ⟨hwr, ⟨-, -, hp', hstart⟩ | ⟨hmid, hne, hv, hoth⟩⟩ := hst.to_midOpening hs hp
      · exact ⟨hstart, by simp [hp']⟩
      · rw [hwr] at hw
        rw [Table.readView, hv]
        refine ⟨(inv.pending j hlive l hs hmid w hw hle).1, fun hp' => ?_⟩
        rw [(hoth hp').2]
        exact h.outstanding hlive.1
          (Client.ticketed_of_critical (Client.critical_of_publishing hlive.2.2))
    · rw [hm.client_ne hli] at hs hp hw ⊢
      have hold := inv.pending j hlive l hs hp w hw hle
      cases h.readEffect hpc hst with
      | starts hv => rw [hv]; exact ⟨rfl, hold.2⟩
      | closes _ hp' =>
        have hc : (s.client i).critical = true := by simp [Client.critical, hp']
        cases hsi : (s.client i).side with
        | read => exact (hlive.ne_of_critical h hsi hc (by rw [hp']; rfl)).elim
        | write => exact absurd (h.unique (hs.trans hsi.symm) (Client.critical_of_midOpening hp) hc) hli
      | bumps _ hsi hp' =>
        exact (hlive.ne_of_critical h hsi (by simp [Client.critical, hp']) (by rw [hp']; rfl)).elim
      | _ hv => rw [hv]; exact hold
  · have hli : l ≠ j := by
      rintro rfl
      rw [hst.side_eq, hsj] at hs
      simp at hs
    rw [hm.client_ne hli] at hp hw
    exact absurd (h.wrote l (by rintro hi; simp [hi, Pc.midOpening] at hp) w hw) (not_lt.mpr hle)

omit hret hm inv [DecidableEq ι] in
theorem reach_keeps (hp : (s.client i).pc.undecided = true ∨ (s.client i).pc = .takeTicket) :
    (t.readView (hash k)).current = (s.readView (hash k)).current ∧
      (t.readView (hash k)).window = (s.readView (hash k)).window := by
  cases h.readEffect hpc hst with
  | takes hv | keeps hv => rw [hv]; exact ⟨rfl, rfl⟩
  | starts _ hp' | closes _ hp' => simp [hp', Pc.undecided] at hp
  | _ _ _ hp' => simp [hp', Pc.undecided] at hp

omit hret inv hm [DecidableEq ι] in
/-- A mover that waits within the window after its step waited within it before. -/
theorem inReach_mover (rinv : ReadInv (hash k) s) (hs : (s.client i).side = .read)
    (hp : (t.client i).pc.undecided = true)
    (hlt : (t.client i).ticket < (t.readView (hash k)).current + (t.readView (hash k)).window) :
    (s.client i).pc.undecided = true ∧
      (s.client i).ticket < (s.readView (hash k)).current + (s.readView (hash k)).window := by
  rcases hst.to_undecided hp with ⟨hu, ht⟩ | ⟨hp', ht⟩
  · obtain ⟨hc, hw⟩ := reach_keeps h hpc hst (.inl hu)
    exact ⟨hu, by rwa [ht, hc, hw] at hlt⟩
  · obtain ⟨hc, hw⟩ := reach_keeps h hpc hst (.inr hp')
    rw [ht, hc, hw, hs] at hlt
    exact absurd hlt (not_lt.mpr rinv.window)

theorem FreshInv.inWindow_step [Fintype ι] (hcard : Fintype.card ι ≤ 255) (rinv : ReadInv (hash k) s)
    (j : ι) (hj : (t.client j).Live) (l : ι) (hs : (t.client l).side = .read)
    (hp : (t.client l).pc.undecided = true)
    (hlt : (t.client l).ticket < (t.readView (hash k)).current + (t.readView (hash k)).window) :
    FreshFor t.returned (t.client j).readAt (t.client l) := by
  rcases hj.step h hm hpc hst with ⟨hlive, hr⟩ | ⟨rfl, hsj, hr⟩ <;> rw [hr]
  · by_cases hli : l = i
    · subst hli
      rw [hst.side_eq] at hs
      obtain ⟨hu, hlt'⟩ := inReach_mover h hpc hst rinv hs hp hlt
      exact FreshFor.step h hm hpc hst hret hpc (inv.inWindow j hlive l hs hu hlt')
    · rw [hm.client_ne hli] at hs hp hlt
      have hrun := Client.running_of_ticketed (Client.ticketed_of_undecided hp)
      refine FreshFor.step h hm hpc hst hret hrun ?_
      cases h.readEffect hpc hst with
      | storesOwn hv hsi hpi =>
        have hij := h.unique (hlive.1.trans hsi.symm) (Client.critical_of_publishing hlive.2.2)
          (by simp [Client.critical, hpi])
        subst hij
        rw [hv] at hlt
        exact inv.atOwnStore j hsi hpi l hs (Client.ticketed_of_undecided hp)
          ((ReadInv.ownWindow h hpc hcard hsi hpi).1 ▸ hlt)
      | storesOther _ hsi hpi =>
        refine fresh_of_not_exposed (fun he => ?_) _
        simpa [hpi, Pc.midOpening] using ((inv.guard j hlive he).2.2 i hsi).1
      | countsDown _ hsi hpi | bumps _ hsi hpi =>
        exact (hlive.ne_of_critical h hsi (by simp [Client.critical, hpi]) (by rw [hpi]; rfl)).elim
      | _ hv =>
        rw [hv] at hlt
        exact inv.inWindow j hlive l hs hp hlt
  · exact fresh_of_not_exposed (not_exposed_now h hm hpc hst hret hsj) _

theorem FreshInv.atOwnStore_step (j : ι) (hs : (t.client j).side = .read)
    (hp : (t.client j).pc = .oStoreOwn) (l : ι) (hl : (t.client l).side = .read)
    (htl : (t.client l).ticketed = true) (hlt : (t.client l).ticket < (t.client j).relTicket) :
    FreshFor t.returned (t.client j).readAt (t.client l) := by
  by_cases hji : j = i
  · subst hji
    rw [hst.side_eq] at hs
    obtain ⟨hp', hf, hr, -⟩ := hst.to_ownStore hs hp
    have hlive : (s.client j).Live :=
      ⟨hs, (h.serving j hpc).opener (by rw [hp']; rfl), by rw [hp']; rfl⟩
    -- the window was free to start, so nothing was exposed
    have hne : ¬ Exposed s (s.client j).readAt := fun he =>
      absurd ((inv.guard j hlive he).1.symm.trans hf) (by simp)
    rw [hr]
    by_cases hlj : l = j
    · subst hlj
      exact FreshFor.step h hm hpc hst hret hpc (fresh_of_not_exposed hne _)
    · rw [hm.client_ne hlj] at htl
      exact FreshFor.step h hm hpc hst hret (Client.running_of_ticketed htl)
        (fresh_of_not_exposed hne _)
  · rw [hm.client_ne hji] at hs hp hlt ⊢
    by_cases hli : l = i
    · subst hli
      rw [hst.side_eq] at hl
      have hsv := h.serving j (by simp [hp])
      rw [hs] at hsv
      have hrel : _ ∧ _ ≤ (s.readView (hash k)).ticket := hsv.ticket (by rw [hp]; rfl)
      rcases hst.queueEffect with ⟨-, -, -, ht, -, -⟩ | ⟨h₁, -, -, -, ht, -, -⟩ | ⟨-, h₂, -, -⟩ |
        ⟨h₁, -, ht, -, -⟩
      · rw [ht, hl] at hlt
        exact absurd hlt (not_lt.mpr hrel.2)
      · exact FreshFor.step h hm hpc hst hret hpc (inv.atOwnStore j hs hp l hl h₁ (ht ▸ hlt))
      · simp [h₂] at htl
      · exact FreshFor.step h hm hpc hst hret hpc
          (inv.atOwnStore j hs hp l hl (h₁ ▸ htl) (ht ▸ hlt))
    · rw [hm.client_ne hli] at hl htl hlt
      exact FreshFor.step h hm hpc hst hret (Client.running_of_ticketed htl)
        (inv.atOwnStore j hs hp l hl htl hlt)

omit hret in
theorem FreshInv.published_step (j : ι) (hj : (t.client j).Live)
    (hp : (t.client j).pc.published = true) :
    (t.readView (hash k)).resAt = (t.client j).readAt := by
  by_cases hji : j = i
  · subst hji
    obtain ⟨hs, ha, -⟩ := hj
    rw [hst.side_eq] at hs
    rcases hst.to_published hs (h.shaped j) hp ha with ⟨hp', he, hr, hres⟩ | ⟨-, hres⟩ | ⟨hp', he⟩
    · rw [hr]
      exact hres.trans (inv.published j ⟨hs, he ▸ ha, Pc.publishing_of_published hp'⟩ hp')
    · exact hres
    · rw [he, (h.serving j hpc).loser (.inr hp')] at ha
      simp at ha
  · rw [hm.client_ne hji] at hj hp ⊢
    rw [(h.foreign hpc hst hj.1 (Client.critical_of_publishing hj.2.2) hji).frame.2.2.1]
    exact inv.published j hj hp

omit hret hm [DecidableEq ι] in
/-- The flag after a step was there before, or a live winner has just stored it. -/
theorem FreshInv.flag_step (hh : (t.readView (hash k)).handover = true) :
    (s.readView (hash k)).handover = true ∧
        (t.readView (hash k)).resAt = (s.readView (hash k)).resAt ∨
      (s.client i).Live ∧ (s.client i).pc = .rStoreHand ∧
        (s.readView (hash k)).resAt = (s.client i).readAt ∧
        t.readView (hash k) = { s.readView (hash k) with handover := true } := by
  cases h.readEffect hpc hst with
  | clears hv => simp [hv] at hh
  | publishes hv hs hp =>
    have hf := (h.serving i hpc).flag (by simp [Client.decided, hp])
    rw [(h.serving i hpc).publisher (.inl hp), hs] at hf
    rw [hv] at hh
    exact absurd (hh.symm.trans hf) (by simp)
  | flags hv hs hp =>
    have hf := (h.serving i hpc).flag (by simp [Client.decided, hp, Pc.counting, Pc.loaded])
    rw [hs] at hf
    cases ha : (s.client i).acq.1 with
    | true => exact .inl ⟨hf.trans ha, by rw [hv]⟩
    | false =>
      have hlive : (s.client i).Live := ⟨hs, ha, by rw [hp]; rfl⟩
      refine .inr ⟨hlive, hp, inv.published i hlive (by rw [hp]; rfl), ?_⟩
      rw [hv] at hh ⊢
      simp only at hh
      rw [hh]
  | _ hv => rw [hv] at hh ⊢; exact .inl ⟨hh, rfl⟩

theorem FreshInv.flagged_step (rinv : ReadInv (hash k) s)
    (hh : (t.readView (hash k)).handover = true) (l : ι) (hs : (t.client l).side = .read)
    (hp : (t.client l).pc.undecided = true)
    (hlt : (t.client l).ticket < (t.readView (hash k)).current + (t.readView (hash k)).window) :
    FreshFor t.returned (t.readView (hash k)).resAt (t.client l) := by
  by_cases hli : l = i
  · subst hli
    rw [hst.side_eq] at hs
    obtain ⟨hu, hlt'⟩ := inReach_mover h hpc hst rinv hs hp hlt
    rcases inv.flag_step h hpc hst hh with ⟨hh', hres⟩ | ⟨-, hp', -⟩
    · rw [hres]
      exact FreshFor.step h hm hpc hst hret hpc (inv.flagged hh' l hs hu hlt')
    · simp [hp', Pc.undecided] at hu
  · rw [hm.client_ne hli] at hs hp hlt
    refine FreshFor.step h hm hpc hst hret
      (Client.running_of_ticketed (Client.ticketed_of_undecided hp)) ?_
    rcases inv.flag_step h hpc hst hh with ⟨hh', hres⟩ | ⟨hlive, -, hres, hv⟩
    · rw [hres]
      cases h.readEffect hpc hst with
      | storesOwn _ hsi hpi =>
        -- an opener was not handed the lock, so the flag is down
        have hf := (h.serving i hpc).flag
          (by simp [Client.decided, hpi, Pc.counting, Pc.loaded, Pc.opening])
        rw [(h.serving i hpc).opener (by rw [hpi]; rfl), hsi] at hf
        exact absurd (hh'.symm.trans hf) (by simp)
      | storesOther _ hsi hpi =>
        exact fresh_of_not_exposed (inv.flaggedOpening hh' i hsi (by rw [hpi]; rfl)) _
      | countsDown hv hsi hpi =>
        have := rinv.positive i hsi hpi
        rw [hv] at hlt
        simp only at hlt
        exact inv.flagged hh' l hs hp (by omega)
      | bumps hv hsi hpi =>
        rw [hv] at hlt
        simp only at hlt
        exact inv.flaggedDown hh' i hsi (by rw [hpi]; rfl) l hli hs hp (by omega)
      | _ hv =>
        rw [hv] at hlt
        exact inv.flagged hh' l hs hp hlt
    · rw [hv] at hlt ⊢
      rw [hres]
      exact inv.inWindow i hlive l hs hp hlt

theorem FreshInv.flaggedDown_step (rinv : ReadInv (hash k) s)
    (hh : (t.readView (hash k)).handover = true) (j : ι) (hsj : (t.client j).side = .read)
    (hj : (t.client j).pc.countedDown = true) (l : ι) (hlj : l ≠ j)
    (hs : (t.client l).side = .read) (hp : (t.client l).pc.undecided = true)
    (hlt : (t.client l).ticket <
      (t.readView (hash k)).current + (t.readView (hash k)).window + 1) :
    FreshFor t.returned (t.readView (hash k)).resAt (t.client l) := by
  by_cases hji : j = i
  · subst hji
    rw [hst.side_eq] at hsj
    rw [hm.client_ne hlj] at hs hp hlt
    have htl := Client.ticketed_of_undecided hp
    refine FreshFor.step h hm hpc hst hret (Client.running_of_ticketed htl) ?_
    rcases inv.flag_step h hpc hst hh with ⟨hh', hres⟩ | ⟨-, hp', -⟩
    · rw [hres]
      obtain ⟨hcrit, hcur, ⟨hd, hwin⟩ | hwin | hwin⟩ := rinv.down_step h hst hpc hsj hj
      · exact inv.flaggedDown hh' j hsj hd l hlj hs hp (by rwa [hcur, hwin] at hlt)
      · exact inv.flagged hh' l hs hp (by omega)
      · -- the only ticket that low is the one being served
        have hb := h.bound hs htl
        have hserv := h.ticket_eq hsj hcrit
        have hin := h.inQueue htl
        have hin' := h.inQueue (Client.ticketed_of_critical hcrit)
        rw [hs] at hin
        rw [hsj] at hin'
        exact absurd ((h.queue .read).inj l j hin hin' (by omega)) hlj
    · simp [hst.after_flag hp', Pc.countedDown] at hj
  · rw [hm.client_ne hji] at hsj hj
    have hc := Client.critical_of_countedDown hj
    obtain ⟨hcur, hhand, hres, -⟩ := (h.foreign hpc hst hsj hc hji).frame
    rw [hhand] at hh
    rw [hcur, rinv.window_eq h hpc hst hsj hc (ReadInv.holds_of_countedDown h hsj hj) hji] at hlt
    rw [hres]
    by_cases hli : l = i
    · subst hli
      rw [hst.side_eq] at hs
      rcases hst.to_undecided hp with ⟨hu, ht⟩ | ⟨-, ht⟩
      · exact FreshFor.step h hm hpc hst hret hpc
          (inv.flaggedDown hh j hsj hj l hlj hs hu (ht ▸ hlt))
      · rw [ht, hs] at hlt
        exact absurd hlt (not_lt.mpr (rinv.windowDown j hsj hj))
    · rw [hm.client_ne hli] at hs hp hlt
      exact FreshFor.step h hm hpc hst hret
        (Client.running_of_ticketed (Client.ticketed_of_undecided hp))
        (inv.flaggedDown hh j hsj hj l hlj hs hp hlt)

theorem FreshInv.flaggedOpening_step (rinv : ReadInv (hash k) s) (hg : StartsFence hash s i)
    (hh : (t.readView (hash k)).handover = true) (j : ι) (hs : (t.client j).side = .write)
    (hj : (t.client j).pc.midOpening = true) : ¬ Exposed t (t.readView (hash k)).resAt := by
  intro he
  -- while the flag is up and searches wait, no insert passes the start of the window
  have hfence (hh : (s.readView (hash k)).handover = true) (hsi : (s.client i).side = .write)
      (hp : (s.client i).pc = .rCasWin) :
      ((s.client i).wroteAt ≠ none → (s.readView (hash k)).start = false) ∧
        (s.readView (hash k)).start ≠ false := by
    have := hg hp hsi
    rw [h.key i hpc] at this
    have hf := this (rinv.fed hh).ne
    exact ⟨hf.1, fun hst => by simp [hf.2 hst] at hh⟩
  rcases inv.flag_step h hpc hst hh with ⟨hh', hres⟩ | ⟨hlive, -, hres, hv⟩
  · rw [hres] at he
    have hmid : (s.client j).side = .write ∧ (s.client j).pc.midOpening = true ∧
        (j = i → (s.client i).pc ≠ .oStoreOther) := by
      by_cases hji : j = i
      · subst hji
        rw [hst.side_eq] at hs
        rcases (hst.to_midOpening hs hj).2 with ⟨hp, hf, -⟩ | ⟨hmid, hne, -⟩
        · exact absurd hf (hfence hh' hs hp).2
        · exact ⟨hs, hmid, fun _ => hne⟩
      · rw [hm.client_ne hji] at hs hj
        exact ⟨hs, hj, fun he => absurd he hji⟩
    rcases Exposed.step h hm hpc hst hret he with he | ⟨hsi, ⟨w, hw, -⟩, hp | ⟨hp, hstart⟩⟩
    · exact inv.flaggedOpening hh' j hmid.1 hmid.2.1 he
    · have hji := h.unique (hmid.1.trans hsi.symm) (Client.critical_of_midOpening hmid.2.1)
        (by simp [Client.critical, hp] : (s.client i).critical = true)
      exact hmid.2.2 hji hp
    · have := (hfence hh' hsi hp).1 (by rw [hw]; simp)
      simp [hstart] at this
  · -- the mover is a reader
    have hji : j ≠ i := by
      rintro rfl
      rw [hst.side_eq, hlive.1] at hs
      simp at hs
    rw [hm.client_ne hji] at hs hj
    have hres' : (t.readView (hash k)).resAt = (s.client i).readAt := by rw [hv]; exact hres
    rw [hres'] at he
    rcases Exposed.step h hm hpc hst hret he with he | ⟨hsi, -⟩
    · simp [((inv.guard i hlive he).2.2 j hs).1] at hj
    · simp [hlive.1] at hsi

theorem FreshInv.atLoad_step (j : ι) (hs : (t.client j).side = .read)
    (hj : (t.client j).pc = .loadHand) :
    (t.readView (hash k)).handover = false ∨
      FreshFor t.returned (t.readView (hash k)).resAt (t.client j) := by
  by_cases hji : j = i
  · subst hji
    rw [hst.side_eq] at hs
    rcases hst.to_loadHand hj with ⟨-, hh⟩ | ⟨hp, hwin⟩
    · rw [hs] at hh
      exact .inl hh
    · rw [hs] at hwin
      cases hh : (t.readView (hash k)).handover with
      | false => exact .inl rfl
      | true =>
        rcases inv.flag_step h hpc hst hh with ⟨hh', hres⟩ | ⟨-, hp', -⟩
        · rw [hres]
          refine .inr (FreshFor.step h hm hpc hst hret hpc (inv.flagged hh' j hs (by rw [hp]; rfl) ?_))
          rw [h.ticket_eq hs (by simp [Client.critical, hp])]
          exact Nat.lt_add_of_pos_right (Nat.pos_of_ne_zero hwin)
        · simp [hp] at hp'
  · rw [hm.client_ne hji] at hs hj
    have hc : (s.client j).critical = true := by simp [Client.critical, hj]
    obtain ⟨-, hhand, hres, -⟩ := (h.foreign hpc hst hs hc hji).frame
    rw [hhand, hres]
    exact (inv.atLoad j hs hj).imp_right (FreshFor.step h hm hpc hst hret (by simp [hj]))

theorem FreshInv.delegated_step (j : ι) (hs : (t.client j).side = .read)
    (ha : (t.client j).acq.1 = true) (hj : (t.client j).pc = .testHand ∨ (t.client j).pc = .loadRes) :
    FreshFor t.returned (t.readView (hash k)).resAt (t.client j) := by
  by_cases hji : j = i
  · subst hji
    rw [hst.side_eq] at hs
    have hd := hst.to_delegated hs (h.shaped j) hj ha
    have hres : (t.readView (hash k)).resAt = (s.readView (hash k)).resAt := by
      cases h.readEffect hpc hst with
      | publishes _ _ hp => simp [hp] at hd
      | _ hv => rw [hv]
    rw [hres]
    refine FreshFor.step h hm hpc hst hret hpc ?_
    rcases hd with ⟨hp, he⟩ | ⟨hp, hh⟩ | ⟨hp, he⟩
    · exact inv.delegated j hs (he ▸ ha) (.inl hp)
    · exact (inv.atLoad j hs hp).resolve_left (fun hf => absurd (hf.symm.trans hh) (by simp))
    · rw [he, (h.serving j hpc).notHanded (by rw [hp]; rfl)] at ha
      simp at ha
  · rw [hm.client_ne hji] at hs ha hj
    have hc : (s.client j).critical = true := by rcases hj with hj | hj <;> simp [Client.critical, hj]
    rw [(h.foreign hpc hst hs hc hji).frame.2.2.1]
    exact FreshFor.step h hm hpc hst hret (by rcases hj with hj | hj <;> simp [hj])
      (inv.delegated j hs ha hj)

theorem FreshInv.received_step (j : ι) (hs : (t.client j).side = .read)
    (ha : (t.client j).acq.1 = true) (hj : (t.client j).pc.received = true) :
    FreshFor t.returned (t.client j).readAt (t.client j) := by
  by_cases hji : j = i
  · subst hji
    rw [hst.side_eq] at hs
    rcases hst.to_received hs (h.shaped j) hj ha with ⟨hp, he, hr⟩ | ⟨hp, he, hr⟩ | ⟨hp, he⟩
    · rw [hr]
      exact FreshFor.step h hm hpc hst hret hpc (inv.received j hs (he ▸ ha) hp)
    · rw [hr]
      exact FreshFor.step h hm hpc hst hret hpc (inv.delegated j hs (he ▸ ha) (.inr hp))
    · rw [he, (h.serving j hpc).publisher (.inr hp)] at ha
      simp at ha
  · have hrun : (s.client j).pc ≠ .idle := by
      rintro hi
      rw [hm.client_ne hji] at hj
      simp [hi, Pc.received, Pc.counting, Pc.loaded, Pc.opening] at hj
    have hr : (t.client j).readAt = (s.client j).readAt := by rw [hm.client_ne hji]
    rw [hr]
    refine FreshFor.step h hm hpc hst hret hrun ?_
    rw [hm.client_ne hji] at hs ha hj
    exact inv.received j hs ha hj

theorem FreshInv.step [Fintype ι] (hcard : Fintype.card ι ≤ 255) (rinv : ReadInv (hash k) s)
    (hg : StartsFence hash s i) : FreshInv (hash k) t where
  guard j hj he := inv.guard_step h hm hpc hst hret rinv hg j hj he hcard
  pending := inv.pending_step h hm hpc hst
  inWindow := inv.inWindow_step h hm hpc hst hret hcard rinv
  atOwnStore := inv.atOwnStore_step h hm hpc hst hret
  published := inv.published_step h hm hpc hst
  flagged := inv.flagged_step h hm hpc hst hret rinv
  flaggedDown := inv.flaggedDown_step h hm hpc hst hret rinv
  flaggedOpening := inv.flaggedOpening_step h hm hpc hst hret rinv hg
  atLoad := inv.atLoad_step h hm hpc hst hret
  delegated := inv.delegated_step h hm hpc hst hret
  received := inv.received_step h hm hpc hst hret

omit h hpc hst hret in
/-- A client that starts an operation has no ticket and no result yet. -/
theorem FreshInv.begin_step (hb : Begins s.now (s.client i) (t.client i))
    (hnode : t.node (hash k) = s.node (hash k)) (hret : t.returned = s.returned) :
    FreshInv (hash k) t := by
  obtain ⟨hp, hacq, -⟩ := hb.locals
  have keeps {j : ι} (f : Pc → Bool) (hj : f (t.client j).pc = true) (hf : f .casKey = false) :
      t.client j = s.client j := by
    refine hm.client_ne ?_
    rintro rfl
    simp [hp, hf] at hj
  have hv : t.readView (hash k) = s.readView (hash k) := by rw [Table.readView, hnode]
  have live {j : ι} (hj : (t.client j).Live) : t.client j = s.client j := keeps _ hj.2.2 rfl
  have exposed {r : ℕ} (he : Exposed t r) : Exposed s r := by
    rcases he with ⟨w, hw, hr⟩ | ⟨j, hs, hj, hw⟩
    · exact .inl ⟨w, hret ▸ hw, hr⟩
    · have e := keeps Pc.pastWindow hj rfl
      rw [e] at hs hj hw
      exact .inr ⟨j, hs, hj, hw⟩
  constructor
  · intro j hj he
    have e := live hj
    rw [e] at hj he
    obtain ⟨hstart, hwin, hno⟩ := inv.guard j hj (exposed he)
    refine ⟨hv ▸ hstart, hv ▸ hwin, fun l hl => ?_⟩
    by_cases hli : l = i
    · subst hli
      simp [hp, Pc.midOpening]
    · rw [hm.client_ne hli] at hl ⊢
      exact hno l hl
  · intro j hj l hs hl
    have e := live hj
    have e' := keeps Pc.midOpening hl rfl
    rw [e] at hj ⊢
    rw [e'] at hs hl ⊢
    exact hv ▸ inv.pending j hj l hs hl
  · intro j hj l hs hl
    have e := live hj
    have e' := keeps Pc.undecided hl rfl
    rw [e] at hj ⊢
    rw [e'] at hs hl ⊢
    exact hret ▸ hv ▸ inv.inWindow j hj l hs hl
  · intro j hs hj l hsl hl hlt
    have e : t.client j = s.client j := hm.client_ne (by rintro rfl; simp [hp] at hj)
    have e' : t.client l = s.client l := hm.client_ne (by
      rintro rfl
      simp [Client.ticketed, Client.critical, hp] at hl)
    rw [e] at hs hj hlt ⊢
    rw [e'] at hsl hl hlt ⊢
    exact hret ▸ inv.atOwnStore j hs hj l hsl hl hlt
  · intro j hj hpub
    have e := live hj
    rw [e] at hj hpub ⊢
    exact hv ▸ inv.published j hj hpub
  · intro hh l hs hl
    have e' := keeps Pc.undecided hl rfl
    rw [e'] at hs hl ⊢
    rw [hv, hret] at *
    exact inv.flagged hh l hs hl
  · intro hh j hsj hj l hlj hs hl
    have e := keeps Pc.countedDown hj rfl
    have e' := keeps Pc.undecided hl rfl
    rw [e] at hsj hj
    rw [e'] at hs hl ⊢
    rw [hv, hret] at *
    exact inv.flaggedDown hh j hsj hj l hlj hs hl
  · intro hh j hs hj he
    have e := keeps Pc.midOpening hj rfl
    rw [e] at hs hj
    rw [hv] at hh he
    exact inv.flaggedOpening hh j hs hj (exposed he)
  · intro j hs hj
    have e : t.client j = s.client j := hm.client_ne (by rintro rfl; simp [hp] at hj)
    rw [e] at hs hj ⊢
    rw [hv, hret]
    exact inv.atLoad j hs hj
  · intro j hs ha hj
    have e : t.client j = s.client j := hm.client_ne (by rintro rfl; simp [hp] at hj)
    rw [e] at hs ha hj ⊢
    rw [hv, hret]
    exact inv.delegated j hs ha hj
  · intro j hs ha hj
    have e := keeps Pc.received hj rfl
    rw [e] at hs ha hj ⊢
    exact hret ▸ inv.received j hs ha hj

end step

section run
variable [DecidableEq κ] [DecidableEq ι] [Fintype ι] {hash : κ → ℕ} {k : κ} {s : Table ι κ ν}

/-- Operations on one key without a conflict, whose inserts start the window as a fence. -/
def WindowStep (hash : κ → ℕ) (k : κ) (s : Table ι κ ν) (a : ι × Choice κ ν) : Prop :=
  (OnKey k a.2 ∧ NoConflict hash s a.1) ∧ StartsFence hash s a.1

theorem freshInv_of_reach (hcard : Fintype.card ι ≤ 255)
    (h : (system ι ν hash).Reach (WindowStep hash k) s) : FreshInv (hash k) s := by
  refine h.invariant ?_ ?_
  · intro s hs
    have hidle := hs.2.2.1
    have hq := (hs.2.1 (hash k)).1 .read
    constructor <;>
      simp [hidle, Client.Live, Table.readView, LockNode.readView, hq, Pc.publishing, Pc.counting,
        Pc.loaded, Pc.opening, Pc.received]
  · intro s a t hr inv hg ht
    have hm := next_moves ht
    have hs := sharing_of_reach hcard (fun _ _ hg => hg.1) hr
    have rinv := readInv_of_reach hcard (fun _ _ hg => hg.1) hr
    cases hm.keyMoves (hs.key a.1) with
    | begins hpc hb hnode hw hret => exact inv.begin_step hm hb hnode hret
    | steps hpc hst hw hnew hret => exact inv.step hs hm hpc hst hret hcard rinv hg.2

/-- With at most 255 clients on one key and no conflict, a delegated search never gets a
result older than an insert that returned before it began, in runs whose inserts all
start the window as a fence. -/
theorem delegatesFresh_of_startsFence (hcard : Fintype.card ι ≤ 255)
    (h : (system ι ν hash).Reach (WindowStep hash k) s) : DelegatesFresh s :=
  fun i hs ha hp => (freshInv_of_reach hcard h).received i hs (by rw [ha]) hp

instance (a : ι × Choice κ ν) : Decidable (WindowStep hash k s a) :=
  inferInstanceAs (Decidable (_ ∧ _))

end run

def winnerReads (i : Fin 4) : List (Fin 4 × Choice (Key keyLen) Value) :=
  List.flatten [acts i [.beginSearch (int2key _ 7)], goes i 7, acts i [.traversed true 0]]

def searchQueues (i : Fin 4) : List (Fin 4 × Choice (Key keyLen) Value) :=
  acts i [.beginSearch (int2key _ 7), .go, .go]

/-- The last search was handed its result and is about to return. -/
def Delegated (s : Table (Fin 4) (Key keyLen) Value) : Prop :=
  (s.client 3).pc = .rUnlock ∧ (s.client 3).side = .read ∧ (s.client 3).acq = (true, false)

instance (s : Table (Fin 4) (Key keyLen) Value) : Decidable (Delegated s) :=
  inferInstanceAs (Decidable (_ ∧ _))

/-- An insert returns, a search reads the leaf, and a third operation takes over its result. -/
def freshDelegationRun : List (Fin 4 × Choice (Key keyLen) Value) :=
  List.flatten [acts 1 [.beginInsert (int2key _ 7) 5 false], goes 1 8, acts 1 [.noLeaf, .go, .go, .casOk],
    goes 1 21, winnerReads 2, searchQueues 3, goes 2 21, goes 3 20]

theorem delegated_after_insert :
    (system (Fin 4) Value fun _ : Key keyLen => 0).Ends (Table.zero (Fin 4) (int2key _ 0) 0)
      freshDelegationRun fun t => Delegated t ∧ t.returned.length = 1 ∧ DelegatesFresh t := by
  have hm : (system (Fin 4) Value fun _ : Key keyLen => 0).Meets
      (WindowStep (fun _ => 0) (int2key _ 7)) (Table.zero (Fin 4) (int2key _ 0) 0)
      freshDelegationRun := by decide +kernel
  have he : (system (Fin 4) Value fun _ : Key keyLen => 0).Ends (Table.zero (Fin 4) (int2key _ 0) 0)
      freshDelegationRun fun t => Delegated t ∧ t.returned.length = 1 := by decide +kernel
  obtain ⟨t, ht, hd, hr⟩ := he
  exact ⟨t, ht, hd, hr, delegatesFresh_of_startsFence (by decide)
    (.run (.init (Table.zero_initial _ _)) hm ht)⟩

/-- A search starts the window while an insert waits. A second search reads the leaf, the
insert writes it, finds the window started, ends it and returns. A third search begins and
takes a ticket; the second one starts a new window that counts it and hands its result over. -/
def staleDelegationRun : List (Fin 4 × Choice (Key keyLen) Value) :=
  List.flatten [acts 1 [.beginInsert (int2key _ 7) 5 false], goes 1 3, winnerReads 0, goes 0 23,
    winnerReads 2, goes 1 4, acts 1 [.noLeaf, .go, .go, .casOk], goes 1 15,
    searchQueues 3, goes 2 21, goes 3 20]

theorem stale_result_delegated :
    Initial (Table.zero (Fin 4) (int2key keyLen 0) (0 : Value)) ∧
    (system (Fin 4) Value fun _ : Key keyLen => 0).Ends (Table.zero (Fin 4) (int2key _ 0) 0)
      staleDelegationRun fun t => Delegated t ∧ (∀ i, (t.client i).acq.2 = false) ∧
        ¬ DelegatesFresh t :=
  ⟨Table.zero_initial _ _, by decide +kernel⟩

end SmartTree.LocalLock
