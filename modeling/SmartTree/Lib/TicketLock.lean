import Mathlib.Data.Fintype.Card
import Mathlib.Order.Interval.Finset.Nat

/-! Ticket locks with counters of a bounded width. The counters are kept unwrapped and
compared modulo the width; a step takes a ticket, passes the wait, gives the ticket back,
or leaves the queue alone, and the order of service follows from these four effects. -/
namespace TicketLock
variable {ι : Type*}

/-- A queue: its two counters, who holds a ticket and which, and who is past the wait. -/
structure View (ι : Type*) where
  current : ℕ
  ticket : ℕ
  holds : ι → Prop
  number : ι → ℕ
  served : ι → Prop

/-- Tickets are distinct, fill the range from the current one to the next free one, and
only the current one is being served. -/
structure Inv (v : View ι) : Prop where
  bound : ∀ i, v.holds i → v.current ≤ v.number i ∧ v.number i < v.ticket
  serving : ∀ i, v.holds i → v.served i → v.number i = v.current
  inj : ∀ i j, v.holds i → v.holds j → v.number i = v.number j → i = j
  held : ∀ x, v.current ≤ x → x < v.ticket → ∃ i, v.holds i ∧ v.number i = x
  le : v.current ≤ v.ticket

/-- What a step of the client `i` does to the queue, at width `w`. -/
inductive Effect (w : ℕ) (v v' : View ι) (i : ι) : Prop where
  | takes (h : ¬ v.holds i) (h' : v'.holds i) (hs : ¬ v'.served i) (hn : v'.number i = v.ticket)
      (ht : v'.ticket = v.ticket + 1) (hc : v'.current = v.current)
  | enters (h : v.holds i) (h' : v'.holds i) (hw : v.number i % w = v.current % w)
      (hn : v'.number i = v.number i) (ht : v'.ticket = v.ticket) (hc : v'.current = v.current)
  | leaves (h : v.holds i) (hs : v.served i) (h' : ¬ v'.holds i) (ht : v'.ticket = v.ticket)
      (hc : v'.current = v.current + 1)
  | stays (h : v'.holds i ↔ v.holds i) (hs : v.holds i → v'.served i → v.served i)
      (hn : v.holds i → v'.number i = v.number i) (ht : v'.ticket = v.ticket)
      (hc : v'.current = v.current)

def Frame (v v' : View ι) (i : ι) : Prop :=
  ∀ j, j ≠ i → (v'.holds j ↔ v.holds j) ∧ v'.number j = v.number j ∧ (v'.served j ↔ v.served j)

namespace Inv
variable {v v' : View ι} {i : ι} {w : ℕ}

theorem unique (inv : Inv v) {j : ι} (hi : v.holds i) (hj : v.holds j) (ci : v.served i)
    (cj : v.served j) : i = j :=
  inv.inj i j hi hj ((inv.serving i hi ci).trans (inv.serving j hj cj).symm)

theorem holders (inv : Inv v) :
    ∃ f : {x // x ∈ Finset.Ico v.current v.ticket} → ι, Function.Injective f ∧ ∀ x, v.holds (f x) := by
  choose f hf using fun x : {x // x ∈ Finset.Ico v.current v.ticket} =>
    inv.held x.1 (Finset.mem_Ico.mp x.2).1 (Finset.mem_Ico.mp x.2).2
  have hinj : Function.Injective f := fun x y hxy =>
    Subtype.ext (by rw [← (hf x).2, ← (hf y).2, hxy])
  exact ⟨f, hinj, fun x => (hf x).1⟩

/-- The queue is never longer than the number of clients that may join it. -/
theorem ticket_le (inv : Inv v) {S : Finset ι} (hS : ∀ i, v.holds i → i ∈ S) :
    v.ticket ≤ v.current + S.card := by
  obtain ⟨f, hinj, hf⟩ := inv.holders
  have hg : Function.Injective fun x => (⟨f x, hS _ (hf x)⟩ : S) :=
    fun x y hxy => hinj (congrArg Subtype.val hxy)
  have := Fintype.card_le_of_injective _ hg
  simp only [Fintype.card_coe, Nat.card_Ico] at this
  omega

theorem ticket_lt (inv : Inv v) {S : Finset ι} (hS : ∀ i, v.holds i → i ∈ S) (hi : i ∈ S)
    (hn : ¬ v.holds i) : v.ticket < v.current + S.card := by
  classical
  have := inv.ticket_le (S := S.erase i) fun j hj =>
    Finset.mem_erase.mpr ⟨fun he => hn (he ▸ hj), hS j hj⟩
  have := Finset.card_erase_lt_of_mem hi
  omega

/-- A queue that holds the same tickets, with nobody newly served out of turn. -/
theorem congr (inv : Inv v) (hq : ∀ j, v'.holds j ↔ v.holds j)
    (hn : ∀ j, v.holds j → v'.number j = v.number j)
    (hs : ∀ j, v.holds j → v'.served j → v.number j = v.current) (ht : v'.ticket = v.ticket)
    (hc : v'.current = v.current) : Inv v' where
  bound j hj := by
    have h := (hq j).mp hj
    rw [hn j h, hc, ht]
    exact inv.bound j h
  serving j hj hj' := by
    have h := (hq j).mp hj
    rw [hn j h, hc]
    exact hs j h hj'
  inj j k hj hk he := by
    have hj := (hq j).mp hj
    have hk := (hq k).mp hk
    rw [hn j hj, hn k hk] at he
    exact inv.inj j k hj hk he
  held x h₁ h₂ := by
    obtain ⟨j, hj, hx⟩ := inv.held x (hc ▸ h₁) (ht ▸ h₂)
    exact ⟨j, (hq j).mpr hj, (hn j hj).trans hx⟩
  le := by rw [hc, ht]; exact inv.le

theorem takes (inv : Inv v) (hf : Frame v v' i) (h : ¬ v.holds i) (h' : v'.holds i)
    (hs : ¬ v'.served i) (hn : v'.number i = v.ticket) (ht : v'.ticket = v.ticket + 1)
    (hc : v'.current = v.current) : Inv v' where
  bound j hj := by
    by_cases hji : j = i
    · subst hji
      rw [hn, ht, hc]
      exact ⟨inv.le, Nat.lt_succ_self _⟩
    · have := inv.bound j ((hf j hji).1.mp hj)
      rw [(hf j hji).2.1, hc, ht]
      omega
  serving j hj hj' := by
    by_cases hji : j = i
    · subst hji
      exact absurd hj' hs
    · rw [(hf j hji).2.1, hc]
      exact inv.serving j ((hf j hji).1.mp hj) ((hf j hji).2.2.mp hj')
  inj j k hj hk he := by
    -- the new ticket is larger than every ticket already in the queue
    have fresh (j : ι) (hji : j ≠ i) (hj : v'.holds j) : v'.number j ≠ v'.number i := by
      have := inv.bound j ((hf j hji).1.mp hj)
      rw [(hf j hji).2.1, hn]
      omega
    by_cases hji : j = i <;> by_cases hki : k = i
    · rw [hji, hki]
    · subst hji
      exact absurd he.symm (fresh k hki hk)
    · subst hki
      exact absurd he (fresh j hji hj)
    · rw [(hf j hji).2.1, (hf k hki).2.1] at he
      exact inv.inj j k ((hf j hji).1.mp hj) ((hf k hki).1.mp hk) he
  held x h₁ h₂ := by
    rw [hc] at h₁
    rw [ht] at h₂
    obtain hlt | rfl := Nat.lt_succ_iff_lt_or_eq.mp h₂
    · obtain ⟨j, hj, hx⟩ := inv.held x h₁ hlt
      have hji : j ≠ i := fun he => h (he ▸ hj)
      exact ⟨j, (hf j hji).1.mpr hj, (hf j hji).2.1.trans hx⟩
    · exact ⟨i, h', hn⟩
  le := by rw [hc, ht]; exact inv.le.trans (Nat.le_succ _)

theorem leaves (inv : Inv v) (hf : Frame v v' i) (h : v.holds i) (hs : v.served i)
    (h' : ¬ v'.holds i) (ht : v'.ticket = v.ticket) (hc : v'.current = v.current + 1) : Inv v' := by
  have hne {j : ι} (hj : v'.holds j) : j ≠ i := fun he => h' (he ▸ hj)
  have hold {j : ι} (hj : v'.holds j) : v.holds j := (hf j (hne hj)).1.mp hj
  have hnum {j : ι} (hj : v'.holds j) : v'.number j = v.number j := (hf j (hne hj)).2.1
  have hserv := inv.serving i h hs
  refine ⟨fun j hj => ?_, fun j hj hj' => ?_, fun j k hj hk he => ?_, fun x h₁ h₂ => ?_, ?_⟩
  · have hb := inv.bound j (hold hj)
    have : v.number j ≠ v.current := fun he => hne hj (inv.inj j i (hold hj) h (he.trans hserv.symm))
    rw [hnum hj, hc, ht]
    omega
  · exact absurd (inv.unique (hold hj) h ((hf j (hne hj)).2.2.mp hj') hs) (hne hj)
  · rw [hnum hj, hnum hk] at he
    exact inv.inj j k (hold hj) (hold hk) he
  · obtain ⟨j, hj, hx⟩ := inv.held x (by omega) (ht ▸ h₂)
    have hji : j ≠ i := by
      rintro rfl
      omega
    exact ⟨j, (hf j hji).1.mpr hj, (hf j hji).2.1.trans hx⟩
  · have := (inv.bound i h).2
    omega

/-- The invariant carries over while the outstanding tickets span at most one round. -/
theorem step (inv : Inv v) (hspan : v.ticket ≤ v.current + w) (h : Effect w v v' i)
    (hf : Frame v v' i) : Inv v' := by
  have all {p : ι → Prop} (hi : p i) (ho : ∀ j, j ≠ i → p j) (j : ι) : p j := by
    by_cases hji : j = i
    · exact hji ▸ hi
    · exact ho j hji
  cases h with
  | takes h h' hs hn ht hc => exact inv.takes hf h h' hs hn ht hc
  | leaves h hs h' ht hc => exact inv.leaves hf h hs h' ht hc
  | enters h h' hw hn ht hc =>
    refine inv.congr (all ⟨fun _ => h, fun _ => h'⟩ fun j hj => (hf j hj).1)
      (all (fun _ => hn) fun j hj _ => (hf j hj).2.1) (all (fun _ _ => ?_) fun j hj h hs =>
        inv.serving j h ((hf j hj).2.2.mp hs)) ht hc
    -- within one round, equal modulo the width is equal
    have hb := inv.bound i h
    have hlt : v.number i - v.current < w := by omega
    have hd : w ∣ v.number i - v.current :=
      Nat.dvd_of_mod_eq_zero (Nat.sub_mod_eq_zero_of_mod_eq hw)
    have := Nat.eq_zero_of_dvd_of_lt hd hlt
    omega
  | stays h hs hn ht hc =>
    exact inv.congr (all h fun j hj => (hf j hj).1) (all hn fun j hj _ => (hf j hj).2.1)
      (all (fun hi hi' => inv.serving i hi (hs hi hi')) fun j hj h hs =>
        inv.serving j h ((hf j hj).2.2.mp hs)) ht hc

end Inv
end TicketLock
