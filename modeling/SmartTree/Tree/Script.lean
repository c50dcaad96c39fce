import SmartTree.Tree.Structure

/-! Runs written as scripts: single steps of one client or another, and stretches in which one client
goes on by itself. -/
namespace SmartTree
open Transition
variable {n : ℕ}

namespace World
variable {ι : Type*}

/-- The step a client takes on its own: pending operations first, words in address order, new
blocks from the lowest free address. -/
def auto (s : World ι n) (i : ι) : Choice n :=
  let c := s.client i
  let free (k : ℕ) := ((List.range 64).filter fun a => !s.mem.live a).take k
  if c.pending.isEmpty then
    match c.pc with
    | .readLeaf (_ :: _) | .readNode (_ :: _) | .readRest (_ :: _) => .word 0
    | .combineUpdate | .combineWrite | .leafPrepare _ => .combine none
    | .leafWrite _ => .alloc ((free 1).headD 0)
    | .splitPrepare sp =>
      let num := sp.partialLen / (hPartialLenMax + 1) + 1
      .split none (free (if c.leafAddr.isSome then num else num + 1))
    | _ => .go
  else .flush

@[simp] theorem isBegin_auto (s : World ι n) (i : ι) : (s.auto i).isBegin = false := by
  dsimp only [auto]
  split
  · split <;> rfl
  · rfl

variable [DecidableEq ι] [Fintype ι]

def drive (crc : Key n → Value → UInt64) (i : ι) : ℕ → World ι n → List (ι × Choice n)
  | 0, _ => []
  | k + 1, s =>
    match (s.client i).pc, (s.client i).pending with
    | .idle, [] => []
    | _, _ => (i, s.auto i) :: (s.next crc (i, s.auto i)).elim [] (drive crc i k)

theorem isBegin_of_mem_drive {crc : Key n → Value → UInt64} {i : ι} {k : ℕ} {s : World ι n}
    {a : ι × Choice n} (ha : a ∈ drive crc i k s) : a.2.isBegin = false := by
  induction k generalizing s with
  | zero => cases ha
  | succ k ih =>
    rw [drive] at ha
    split at ha
    · cases ha
    · rcases List.mem_cons.mp ha with rfl | ha
      · exact isBegin_auto s i
      · cases hn : s.next crc (i, s.auto i) with
        | none => rw [hn] at ha; cases ha
        | some t => rw [hn] at ha; exact ih ha

def script (crc : Key n → Value → UInt64) :
    List (ι × (Choice n ⊕ ℕ)) → World ι n → List (ι × Choice n)
  | [], _ => []
  | (i, .inl ch) :: rest, s => (i, ch) :: (s.next crc (i, ch)).elim [] (script crc rest)
  | (i, .inr k) :: rest, s =>
    drive crc i k s ++
      ((treeSystem ι crc).run s (drive crc i k s)).elim [] (script crc rest)

def inserts (i : ι) (k : Key n) : List (ι × (Choice n ⊕ ℕ)) :=
  [(i, .inl (.begin false k 0 false none)), (i, .inr 100)]

end World
end SmartTree
