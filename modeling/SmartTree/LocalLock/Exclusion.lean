import SmartTree.LocalLock.Queue
import Mathlib.Data.List.FinRange

/-! Mutual exclusion of the ticket queues for any number of clients. Tickets are 8-bit,
so a queue of more than 256 hands one ticket out twice; below that the client past its
wait is the one whose ticket was taken first. -/
namespace SmartTree.LocalLock
variable {ι κ ν : Type*} {hash : κ → ℕ} {s t : Table ι κ ν}

/-- A ticket is taken only while fewer than 256 are outstanding in its queue. -/
def TicketsFit (hash : κ → ℕ) (s : Table ι κ ν) (a : ι × Choice κ ν) : Prop :=
  let c := s.client a.1
  let q := (s.node (hash c.key)).queue c.side
  c.pc = .takeTicket → q.ticket < q.current + 256

instance (hash : κ → ℕ) (s : Table ι κ ν) (a : ι × Choice κ ν) : Decidable (TicketsFit hash s a) :=
  inferInstanceAs (Decidable (_ → _))

/-- At most one client of the queue is past its wait, it has the ticket that is due, and
no ticket still waiting was taken before it. -/
def InOrder (hash : κ → ℕ) (s : Table ι κ ν) (m : ℕ) (sd : Side) : Prop :=
  ∀ i, InQueue hash s m sd i → (s.client i).critical = true →
    (s.client i).ticket = ((s.node m).queue sd).current ∧
      (∀ j, InQueue hash s m sd j → (s.client i).ticket ≤ (s.client j).ticket) ∧
      ∀ j, InQueue hash s m sd j → (s.client j).critical = true → j = i

theorem QueueInv.inOrder {m : ℕ} {sd : Side} (inv : QueueInv hash s m sd) : InOrder hash s m sd := by
  intro i hi ci
  have hcur := inv.serving i hi ci
  refine ⟨hcur, fun j hj => ?_, fun j hj cj => inv.unique hj hi cj ci⟩
  rw [hcur]
  exact (inv.bound j hj).1

section span
variable [DecidableEq ι] {i : ι} {m : ℕ} {sd : Side}

theorem Step.ticket_eq {now : ℕ} {n n' : LockNode κ ν} {c c' : Client κ ν} {o : Obs κ ν}
    (h : Step now n c n' c' o) (hp : c.pc ≠ .takeTicket) (sd : Side) :
    (n'.queue sd).ticket = (n.queue sd).ticket := by
  cases h with
  | takeTicket hpc => exact absurd hpc hp
  | _ =>
    simp only [LockNode.setWindow, LockNode.setHandover, LockNode.setLocked, LockNode.setKey,
      LockNode.decWindow, LockNode.bumpCurrent, LockNode.setQueue_queue] <;> first | rfl | (split <;> simp [*])

theorem Moves.ticket_eq (h : Moves hash s i t) (hp : (s.client i).pc ≠ .takeTicket) (m : ℕ)
    (sd : Side) :
    ((t.node m).queue sd).ticket = ((s.node m).queue sd).ticket := by
  cases h with
  | begins hpc hb => rfl
  | steps hpc hst =>
    simp only [Table.observe_node, Function.update_apply]
    split
    · subst m
      exact hst.ticket_eq hp sd
    · rfl

theorem Moves.span (h : Moves hash s i t)
    (hspan : ((s.node m).queue sd).ticket ≤ ((s.node m).queue sd).current + 256)
    (hfit : (s.client i).pc = .takeTicket →
      ((s.node (hash (s.client i).key)).queue (s.client i).side).ticket <
        ((s.node (hash (s.client i).key)).queue (s.client i).side).current + 256) :
    ((t.node m).queue sd).ticket ≤ ((t.node m).queue sd).current + 256 := by
  rcases h.queue m sd with ⟨⟨rfl, rfl, -, -⟩, he⟩ | ⟨-, -, hcur, htk⟩
  · cases he with
    | takes h₁ h₂ h₃ h₄ h₅ h₆ =>
      have hp : (s.client i).pc = .takeTicket := by
        by_contra hp
        have := h.ticket_eq hp (hash (s.client i).key) (s.client i).side
        omega
      have := hfit hp
      omega
    | enters h₁ h₂ h₃ h₄ h₅ h₆ h₇ => rwa [h₆, h₇]
    | leaves h₁ h₂ h₃ h₄ => omega
    | stays h₁ h₂ h₃ h₄ h₅ => rwa [h₄, h₅]
  · rwa [hcur, htk]

end span

section runs
variable [DecidableEq κ] [DecidableEq ι]

theorem QueueInv.of_ticketsFit (h : (system ι ν hash).Reach (TicketsFit hash) s) (m : ℕ) (sd : Side) :
    QueueInv hash s m sd ∧ ((s.node m).queue sd).ticket ≤ ((s.node m).queue sd).current + 256 := by
  refine h.invariant (P := fun s => QueueInv hash s m sd ∧
    ((s.node m).queue sd).ticket ≤ ((s.node m).queue sd).current + 256) ?_ ?_
  · intro s hs
    exact ⟨.initial hs, by simp [(hs.2.1 m).1 sd]⟩
  · intro s a t _ ih hg ht
    exact ⟨ih.1.step ih.2 (next_moves ht), (next_moves ht).span ih.2 hg⟩

/-- While tickets fit, every queue serves one client at a time, in the order of the tickets. -/
theorem inOrder_of_ticketsFit (h : (system ι ν hash).Reach (TicketsFit hash) s) (m : ℕ) (sd : Side) :
    InOrder hash s m sd :=
  (QueueInv.of_ticketsFit h m sd).1.inOrder

theorem reach_ticketsFit [Fintype ι] (hcard : Fintype.card ι ≤ 256)
    (h : (system ι ν hash).Reachable s) : (system ι ν hash).Reach (TicketsFit hash) s := by
  induction h with
  | init hs => exact .init hs
  | @step s t a _ _ ht ih =>
    refine .step ih (fun hpc => ?_) ht
    have inv := (QueueInv.of_ticketsFit ih (hash (s.client a.1).key) (s.client a.1).side).1
    have hout : ¬ InQueue hash s (hash (s.client a.1).key) (s.client a.1).side a.1 := by
      simp [InQueue, Client.ticketed, Client.critical, hpc]
    have := inv.ticket_lt hout
    omega

end runs

def queueUp (i : ι) (k : κ) : List (ι × Choice κ ν) := acts i [.beginSearch k, .go, .go]

open scoped Transition.Numbered

/-- Two searches of one key; the second takes its ticket while the first one is served. -/
theorem inOrder_of_two_searches :
    (system (Fin 2) ℕ (fun _ : ℕ => 0)).Ends (Table.zero (Fin 2) 7 0)
      (queueUp 0 7 ++ goes 0 1 ++ queueUp 1 7) fun s =>
        (s.client 0).critical = true ∧ (s.client 1).ticketed = true ∧ InOrder (fun _ => 0) s 0 .read := by
  have hm : (system (Fin 2) ℕ (fun _ : ℕ => 0)).Meets (TicketsFit fun _ => 0) (Table.zero (Fin 2) 7 0)
      (queueUp 0 7 ++ goes 0 1 ++ queueUp 1 7) := by
    decide +kernel
  have he : (system (Fin 2) ℕ (fun _ : ℕ => 0)).Ends (Table.zero (Fin 2) 7 0)
      (queueUp 0 7 ++ goes 0 1 ++ queueUp 1 7) fun s =>
        (s.client 0).critical = true ∧ (s.client 1).ticketed = true := by
    decide +kernel
  obtain ⟨s, hs, h₀, h₁⟩ := he
  exact ⟨s, hs, h₀, h₁, inOrder_of_ticketsFit ((Transition.System.Reach.init
    (Table.zero_initial 7 0)).run hm hs) 0 .read⟩

/-- 257 searches of one key: the first passes its wait, the others queue up behind it, and
the last gets the first one's ticket again. -/
def overflowRun : List (Fin 257 × Choice ℕ ℕ) :=
  queueUp 0 7 ++ goes 0 1 ++ (List.finRange 257).tail.flatMap (queueUp · 7) ++ goes 256 1

theorem two_clients_past_wait :
    (system (Fin 257) ℕ (fun _ : ℕ => 0)).Ends (Table.zero (Fin 257) 7 0) overflowRun
      fun s => (s.client 0).critical = true ∧ (s.client 256).critical = true ∧
        ¬ InOrder (fun _ => 0) s 0 .read := by
  have he : (system (Fin 257) ℕ (fun _ : ℕ => 0)).Ends (Table.zero (Fin 257) 7 0) overflowRun
      fun s => (s.client 0).critical = true ∧ (s.client 256).critical = true ∧
        (s.client 0).side = .read ∧ (s.client 256).side = .read := by
    decide +kernel
  obtain ⟨s, hs, h₀, h₁, hr₀, hr₁⟩ := he
  refine ⟨s, hs, h₀, h₁, fun h => ?_⟩
  have := (h 0 ⟨rfl, hr₀, Client.ticketed_of_critical h₀⟩ h₀).2.2 256
    ⟨rfl, hr₁, Client.ticketed_of_critical h₁⟩ h₁
  exact absurd this (by decide)

end SmartTree.LocalLock
