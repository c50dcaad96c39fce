import SmartTree.Tree.Session

/-! What one request to a session can do: a step of `insert` or `search`, the start of another
task, or a read of a running one, which leaves the memory alone. -/
namespace SmartTree
open Transition
variable {n : ℕ} {crc : Key n → Value → UInt64} {s t : Session n} {a : Request n}

inductive Session.Turn (crc : Key n → Value → UInt64) (s : Session n) :
    Request n → Session n → Prop
  | tree {ch w} (hn : s.world.next crc ((), ch) = some w) (hp : s.task = .point ∨ ch = .flush) :
    Turn crc s (.tree ch) ⟨w, s.task⟩
  | rangeQuery {lo hi hits hit task} (hp : s.task = .point) (hpc : s.client.pc = .idle) :
    Turn crc s (.rangeQuery lo hi hits hit) ⟨s.world, task⟩
  | migrate {k hit task} (hp : s.task = .point) (hpc : s.client.pc = .idle) :
    Turn crc s (.migrate k hit) ⟨s.world, task⟩
  | go {old ops calls task} (hp : s.task ≠ .point) (hq : s.client.pending = []) :
    Turn crc s (.go old) (s.issue ops calls task)

theorem Session.advance_issue {old : ℕ → Page} {calls : List (AddCall n)}
    (h : s.advance crc old = some (calls, t)) :
    s.task ≠ .point ∧ ∃ ops task, t = s.issue ops calls task := by
  unfold advance at h
  cases htask : s.task <;> simp only [htask] at h
  case point => cases h
  case entries =>
    obtain ⟨r, -, he⟩ := Option.map_eq_some_iff.mp h
    obtain ⟨rfl, rfl⟩ := Prod.mk.inj he
    exact ⟨by simp, _, _, rfl⟩
  case range =>
    split at h
    · obtain ⟨rfl, rfl⟩ := Prod.mk.inj (Option.some.inj h)
      exact ⟨by simp, _, _, rfl⟩
    · obtain ⟨r, -, he⟩ := Option.map_eq_some_iff.mp h
      obtain ⟨rfl, rfl⟩ := Prod.mk.inj he
      exact ⟨by simp, _, _, rfl⟩
  case migrate =>
    obtain ⟨r, -, he⟩ := Option.map_eq_some_iff.mp h
    obtain ⟨rfl, rfl⟩ := Prod.mk.inj he
    exact ⟨by simp, _, _, rfl⟩

theorem Session.next_turn (h : (sessionSystem n crc).next s a = some t) : Turn crc s a t := by
  obtain ⟨⟨calls, t'⟩, he, rfl⟩ := Option.map_eq_some_iff.mp h
  cases a with
  | tree ch =>
    simp only [effect] at he
    split at he
    · rename_i hp
      obtain ⟨w, hw, he⟩ := Option.map_eq_some_iff.mp he
      obtain ⟨-, rfl⟩ := Prod.mk.inj he
      exact .tree hw (.inl hp)
    · obtain ⟨w, hw, he⟩ := Option.map_eq_some_iff.mp he
      obtain ⟨-, rfl⟩ := Prod.mk.inj he
      exact .tree hw (.inr rfl)
    · cases he
  | rangeQuery lo hi hits hit =>
    simp only [effect] at he
    split at he
    · rename_i hp hpc
      obtain ⟨task, -, he⟩ := Option.map_eq_some_iff.mp he
      obtain ⟨-, rfl⟩ := Prod.mk.inj he
      exact .rangeQuery hp hpc
    · cases he
  | migrate k hit =>
    simp only [effect] at he
    split at he
    · rename_i hp hpc
      obtain ⟨w, -, he⟩ := Option.map_eq_some_iff.mp he
      obtain ⟨-, rfl⟩ := Prod.mk.inj he
      exact .migrate hp hpc
    · cases he
  | go old =>
    simp only [effect] at he
    split at he
    · rename_i hq
      obtain ⟨hp, ops, task, rfl⟩ := advance_issue he
      exact .go hp (by simpa using hq)
    · cases he

end SmartTree
