import SmartTree.LocalLock.Serving

/-! The history of the inserts on one key: when each value was stored into the
combining buffer and which leaf writes carry it. -/
namespace SmartTree.LocalLock
variable {ι κ ν : Type*}

structure Sound (now : ℕ) (n : LockNode κ ν) (writes : List (LeafWrite κ ν)) (c : Client κ ν) :
    Prop where
  unwritten : c.pc.beforeRelease = true → c.wroteAt = none
  own : c.pc = .casKey ∨ c.pc = .deposit → c.val = c.arg
  deposited : c.pc = .takeTicket ∨ c.ticketed = true → ∃ d, c.depAt = some d
  depTime : ∀ d, c.depAt = some d → d < now ∧ d ≤ n.wcAt
  valTime : ∀ d, c.valAt = some d → d < now
  last : c.depAt = some n.wcAt → c.arg = n.wcBuffer
  wrote : ∀ w, c.wroteAt = some w → ⟨w, c.key, c.val, c.valAt⟩ ∈ writes ∧
    ∀ d, c.valAt = some d → d < w

section sound
variable {now : ℕ} {n n' : LockNode κ ν} {c c' : Client κ ν} {o : Obs κ ν}
  {ws ws' : List (LeafWrite κ ν)}
attribute [local simp] LockNode.setWindow LockNode.setHandover LockNode.setLocked LockNode.setKey
  LockNode.decWindow LockNode.bumpTicket LockNode.bumpCurrent LockNode.setQueue

theorem Step.buffer (h : Step now n c n' c' o) :
    c.pc = .deposit ∧ n'.wcAt = now ∧ n'.wcBuffer = c.val ∨
      c.pc ≠ .deposit ∧ n'.wcAt = n.wcAt ∧ n'.wcBuffer = n.wcBuffer := by
  cases h with
  | openKey hpc hk => cases hs : c.side <;> simp [hpc]
  | deposit hpc => simp [hpc]
  | writeLeaf hpc => rcases hpc with hpc | hpc <;> simp [hpc]
  | _ => simp [*]

theorem Step.depAt_eq (h : Step now n c n' c' o) (hc : c.pc ≠ .deposit) : c'.depAt = c.depAt := by
  cases h with
  | deposit hpc => exact absurd hpc hc
  | _ => rfl

theorem Step.depAt_deposit (h : Step now n c n' c' o) (hc : c.pc = .deposit) :
    c'.depAt = some now := by
  cases h <;> simp_all

theorem Step.arg_eq (h : Step now n c n' c' o) : c'.arg = c.arg := by
  cases h <;> rfl

theorem Sound.other (h : Sound now n ws c) (hw : ∀ w ∈ ws, w ∈ ws')
    (hn : n'.wcAt = now ∨ n'.wcAt = n.wcAt ∧ n'.wcBuffer = n.wcBuffer) :
    Sound (now + 1) n' ws' c where
  unwritten := h.unwritten
  own := h.own
  deposited := h.deposited
  depTime d hd := by
    have := h.depTime d hd
    rcases hn with hn | hn <;> omega
  valTime d hd := Nat.lt_succ_of_lt (h.valTime d hd)
  last hd := by
    rcases hn with hn | ⟨hn, hb⟩
    · have := h.depTime _ hd
      omega
    · rw [hb]
      exact h.last (hn ▸ hd)
  wrote w hd := (h.wrote w hd).imp_left (hw _)

theorem Sound.quiet (h : Sound now n ws c) (hw : ∀ w ∈ ws, w ∈ ws')
    (hn : n'.wcAt = n.wcAt ∧ n'.wcBuffer = n.wcBuffer)
    (hc : c'.depAt = c.depAt ∧ c'.valAt = c.valAt ∧ c'.wroteAt = c.wroteAt ∧ c'.val = c.val ∧
      c'.arg = c.arg ∧ c'.key = c.key)
    (h₁ : c'.pc.beforeRelease = true → c.pc.beforeRelease = true)
    (h₂ : c'.pc = .casKey ∨ c'.pc = .deposit → c.pc = .casKey ∨ c.pc = .deposit)
    (h₃ : c'.pc = .takeTicket ∨ c'.ticketed = true → c.pc = .takeTicket ∨ c.ticketed = true) :
    Sound (now + 1) n' ws' c' := by
  have h' := h.other hw (.inr hn)
  obtain ⟨hd, hv, ht, hval, harg, hkey⟩ := hc
  exact
    { unwritten := fun hp => ht ▸ h.unwritten (h₁ hp)
      own := fun hp => by rw [hval, harg]; exact h.own (h₂ hp)
      deposited := fun hp => by rw [hd]; exact h.deposited (h₃ hp)
      depTime := by rw [hd]; exact h'.depTime
      valTime := by rw [hv]; exact h'.valTime
      last := by rw [hd, harg]; exact h'.last
      wrote := by rw [ht, hkey, hval, hv]; exact h'.wrote }

theorem Sound.step (h : Sound now n ws c) (hst : Step now n c n' c' o) (hsh : c.Shaped)
    (hside : c.side = .write) (hw : ∀ w ∈ ws, w ∈ ws') (hnew : ∀ w, o = .leafWrite w → w ∈ ws')
    (hnow : n.wcAt ≤ now) : Sound (now + 1) n' ws' c' := by
  cases hst with
  | deposit hpc =>
    have hnone := h.unwritten (by rw [hpc]; rfl)
    exact
      { unwritten := fun _ => hnone
        own := fun hp => by simp at hp
        deposited := fun _ => ⟨now, rfl⟩
        depTime := fun d hd => by cases hd; exact ⟨Nat.lt_succ_self _, le_refl _⟩
        valTime := fun d hd => by cases hd; exact Nat.lt_succ_self _
        last := fun _ => (h.own (.inr hpc)).symm
        wrote := fun w hd => by simp [hnone] at hd }
  | writeLeaf hpc =>
    have h' : Sound (now + 1) n ws' c := h.other hw (.inr ⟨rfl, rfl⟩)
    exact
      { unwritten := fun hp => by cases ha : c.acq.2 <;> simp [leaveBody, ha, hside, Pc.beforeRelease] at hp
        own := fun hp => by cases ha : c.acq.2 <;> simp [leaveBody, ha, hside] at hp
        deposited := fun hp => h.deposited <| .inr <| by
          cases ha : c.acq.2 <;> rcases hpc with hpc | hpc <;>
            simp_all [leaveBody, Client.ticketed, Client.critical]
        depTime := h'.depTime
        valTime := h'.valTime
        last := h'.last
        wrote := fun w hd => by cases hd; exact ⟨hnew _ rfl, h.valTime⟩ }
  | @getBuf site hpc =>
    have hnone := h.unwritten (by rw [hpc]; rfl)
    have h' : Sound (now + 1) n ws' c := h.other hw (.inr ⟨rfl, rfl⟩)
    exact
      { unwritten := fun _ => hnone
        own := fun hp => by cases site <;> simp [afterGet, Site.after] at hp
        deposited := fun hp => h.deposited <| by
          cases site <;> simpa [afterGet, Site.after, hpc, Client.ticketed, Client.critical] using hp
        depTime := h'.depTime
        valTime := fun d hd => by cases hd; exact Nat.lt_succ_of_le hnow
        last := h'.last
        wrote := fun w hd => by simp [afterGet, hnone] at hd }
  | traversed hpc hr => simp [hside] at hr
  | loadVal hpc => simpa [hside] using hsh .read (by rw [hpc]; rfl)
  | openKey hpc hk | joinKey hpc hk =>
    refine h.quiet hw ?_ ?_ ?_ ?_ ?_ <;> simp [*, Pc.beforeRelease, Client.ticketed, Client.critical]
  | @getKeyNo site hpc hk =>
    cases site <;> refine h.quiet hw ?_ ?_ ?_ ?_ ?_ <;>
      simp [*, afterGet, Site.after, Pc.beforeRelease, Client.ticketed, Client.critical]
  | sameValue hpc | loaded hpc =>
    cases ha : c.acq.2 <;> refine h.quiet hw ?_ ?_ ?_ ?_ ?_ <;>
      simp [*, leaveBody, Pc.beforeRelease, Client.ticketed, Client.critical]
  | _ =>
    refine h.quiet hw ?_ ?_ ?_ ?_ ?_ <;> simp [*, Pc.beforeRelease, Client.ticketed, Client.critical]

end sound

/-- The history of all running inserts on one node: equal deposit times mean equal values. -/
structure HistoryInv (m : ℕ) (s : Table ι κ ν) : Prop where
  time : (s.node m).wcAt ≤ s.now
  sound : ∀ i, (s.client i).pc ≠ .idle → Sound s.now (s.node m) s.writes (s.client i)
  same : ∀ i j, (s.client i).pc ≠ .idle → (s.client j).pc ≠ .idle → ∀ d,
    (s.client i).valAt = some d → (s.client j).depAt = some d → (s.client i).val = (s.client j).arg

/-- Value and value time of an insert move together, by a deposit or by a copy. -/
theorem Step.value {now : ℕ} {n n' : LockNode κ ν} {c c' : Client κ ν} {o : Obs κ ν}
    (h : Step now n c n' c' o) (hsh : c.Shaped) (hside : c.side = .write) :
    c'.val = c.val ∧ c'.valAt = c.valAt ∨ c.pc = .deposit ∧ c'.val = c.val ∧ c'.valAt = some now ∧
      c'.depAt = some now ∨ c.pc ≠ .deposit ∧ c'.val = n.wcBuffer ∧ c'.valAt = some n.wcAt := by
  cases h with
  | deposit hpc => exact .inr (.inl ⟨hpc, rfl, rfl, rfl⟩)
  | getBuf hpc => exact .inr (.inr ⟨by simp [hpc], rfl, rfl⟩)
  | traversed hpc hr => simp [hside] at hr
  | loadVal hpc => simpa [hside] using hsh .read (by rw [hpc]; rfl)
  | _ => exact .inl ⟨rfl, rfl⟩

section oneKey
variable [DecidableEq ι] {hash : κ → ℕ} {k : κ} {m : ℕ} {s t : Table ι κ ν} {i : ι}

theorem Moves.valueAt (hm : Moves hash s i t) {o : Obs κ ν}
    (hpc : (s.client i).pc ≠ .idle)
    (hst : Step s.now (s.node m) (s.client i) (t.node m) (t.client i) o) (hsh : (s.client i).Shaped)
    (hs : (s.client i).side = .write) {a : ι} {d : ℕ} (ha : (t.client a).pc ≠ .idle)
    (hd : (t.client a).valAt = some d) :
    ((s.client a).pc ≠ .idle ∧ (s.client a).valAt = some d ∧ (t.client a).val = (s.client a).val) ∨
    (a = i ∧ (s.client i).pc = .deposit ∧ d = s.now ∧ (t.client a).val = (s.client i).val) ∨
    (a = i ∧ (s.client i).pc ≠ .deposit ∧ d = (s.node m).wcAt ∧
      (t.client a).val = (s.node m).wcBuffer) := by
  by_cases hai : a = i
  · subst hai
    rcases hst.value hsh hs with ⟨hv, ht⟩ | ⟨hp, hv, ht, -⟩ | ⟨hp, hv, ht⟩
    · exact .inl ⟨hpc, ht ▸ hd, hv⟩
    · exact .inr (.inl ⟨rfl, hp, by simpa [ht, eq_comm] using hd, hv⟩)
    · exact .inr (.inr ⟨rfl, hp, by simpa [ht, eq_comm] using hd, hv⟩)
  · rw [hm.client_ne hai] at ha hd ⊢
    exact .inl ⟨ha, hd, rfl⟩

theorem Moves.depositAt (hm : Moves hash s i t) {o : Obs κ ν}
    (hpc : (s.client i).pc ≠ .idle)
    (hst : Step s.now (s.node m) (s.client i) (t.node m) (t.client i) o) {b : ι} {d : ℕ}
    (hb : (t.client b).pc ≠ .idle) (hd : (t.client b).depAt = some d) :
    ((s.client b).pc ≠ .idle ∧ (s.client b).depAt = some d ∧ (t.client b).arg = (s.client b).arg) ∨
    (b = i ∧ (s.client i).pc = .deposit ∧ d = s.now) := by
  by_cases hbi : b = i
  · subst hbi
    by_cases hp : (s.client b).pc = .deposit
    · exact .inr ⟨rfl, hp, by simpa [hst.depAt_deposit hp, eq_comm] using hd⟩
    · exact .inl ⟨hpc, hst.depAt_eq hp ▸ hd, hst.arg_eq⟩
  · rw [hm.client_ne hbi] at hb hd ⊢
    exact .inl ⟨hb, hd, rfl⟩

theorem HistoryInv.step (inv : HistoryInv m s) (hm : Moves hash s i t) (hkm : KeyMoves m s i t)
    (hsh : (s.client i).Shaped) (hs : (s.client i).pc ≠ .idle → (s.client i).side = .write)
    (ht : (t.client i).pc ≠ .idle → (t.client i).side = .write) : HistoryInv m t := by
  have hnow := hm.now_eq
  cases hkm with
  | begins hpc hb hnode hw hret =>
    obtain ⟨hp, -, -, hd, hv, hwr, harg⟩ := hb.locals
    have hval := harg (ht (by simp [hp]))
    refine ⟨by rw [hnode, hnow]; exact inv.time.trans (Nat.le_succ _), fun j hj => ?_, ?_⟩
    · rw [hnode, hw, hnow]
      by_cases hji : j = i
      · subst hji
        constructor <;> simp [hp, hd, hv, hwr, hval, Client.ticketed, Client.critical]
      · rw [hm.client_ne hji] at hj ⊢
        exact (inv.sound j hj).other (fun _ hw => hw) (.inr ⟨rfl, rfl⟩)
    · intro a b ha hb d hda hdb
      by_cases hai : a = i
      · subst hai; simp [hv] at hda
      by_cases hbi : b = i
      · subst hbi; simp [hd] at hdb
      rw [hm.client_ne hai] at ha hda ⊢
      rw [hm.client_ne hbi] at hb hdb ⊢
      exact inv.same a b ha hb d hda hdb
  | @steps hpc o hst hw hnew hret =>
    have hbuf := hst.buffer
    refine ⟨?_, fun j hj => ?_, ?_⟩
    · have := inv.time
      rcases hbuf with ⟨-, h, -⟩ | ⟨-, h, -⟩ <;> omega
    · rw [hnow]
      by_cases hji : j = i
      · subst hji
        exact (inv.sound j hpc).step hst hsh (hs hpc) hw hnew inv.time
      · rw [hm.client_ne hji] at hj ⊢
        exact (inv.sound j hj).other hw (hbuf.imp (fun h => h.2.1) fun h => h.2)
    · intro a b ha hb d hda hdb
      rcases hm.valueAt hpc hst hsh (hs hpc) ha hda with ⟨ha', hva, hv⟩ | ⟨rfl, hdep, rfl, hv⟩ |
        ⟨rfl, hdep, rfl, hv⟩ <;>
      rcases hm.depositAt hpc hst hb hdb with ⟨hb', hdb', harg⟩ | ⟨rfl, hdep', hd⟩
      · rw [hv, harg]
        exact inv.same a b ha' hb' d hva hdb'
      · exact absurd ((inv.sound a ha').valTime d hva) (by omega)
      · exact absurd ((inv.sound b hb').depTime _ hdb').1 (by omega)
      · rw [hv, hst.arg_eq]
        exact (inv.sound _ hpc).own (.inr hdep)
      · rw [hv, harg]
        exact ((inv.sound b hb').last hdb').symm
      · exact absurd hdep' hdep

end oneKey

end SmartTree.LocalLock
