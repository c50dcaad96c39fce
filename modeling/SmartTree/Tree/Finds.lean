import SmartTree.Tree.Returns
import SmartTree.Tree.Sight

/-! A search for a key whose insert has returned: it can always go on, ends with nothing but true,
and takes a bounded number of steps for every time it has to read a leaf or a node again. -/
namespace SmartTree
open Transition
variable {n : ℕ} {L : Layout} {m : Mem n} {c : Client n} {crc : Key n → Value → UInt64}

def Pc.searches : Pc → Bool
  | .idle | .readRoot | .next | .reread | .readLeaf _ | .gotLeaf | .readNode _ | .readRest _
  | .nodeRead | .scan | .finish _ => true
  | _ => false

/-- The step is one in which `read_leaf` or `read_node` turns down what it has read. -/
def Client.retries (crc : Key n → Value → UInt64) (c : Client n) (ch : Choice n) : Bool :=
  ch.isGo && match c.pc with
    | .readLeaf [] => !c.leaf.isValid c.pPtr c.fromCache || !c.leaf.isConsistent crc
    | .nodeRead => !c.page.isValid c.pPtr c.depth c.fromCache
    | _ => false

namespace Client

theorem Seeks.searches (h : c.Seeks L m) : c.pc.searches = true := by
  unfold Seeks at h
  cases hpc : c.pc <;> simp_all [Pc.searches]

theorem leafRead_retries (hpc : c.pc = .readLeaf []) : 1 + (c.leafRead crc c.target).work ≤
    c.work + if c.retries crc .go then 600 else 0 := by
  have hrep := c.repairLeaf_length c.target
  by_cases hv : c.leaf.isValid c.pPtr c.fromCache = true
  · by_cases hc : c.leaf.isConsistent crc = true
    · have := leafRead_work hpc hv hc
      omega
    · simp [leafRead, retries, Choice.isGo, hpc, hv, hc, work, levels, again, leafWords]
      omega
  · simp [leafRead, retries, Choice.isGo, hpc, hv, work, levels, again]
    omega

theorem nodeRead_retries (hk : c.Knows L m) (hpc : c.pc = .nodeRead) :
    1 + (c.nodeRead m c.target).client.work ≤ c.work + if c.retries crc .go then 600 else 0 := by
  by_cases hv : c.page.isValid c.pPtr c.depth c.fromCache = true
  · have := nodeRead_work hk hpc hv
    omega
  · have hrep := c.repairNode_length c.target
    simp [nodeRead, retries, Choice.isGo, hpc, hv, work, levels, again]
    omega

/-- Every step of a search gets it on, but those in which it has to read again. -/
theorem search_work (h : c.pc.searches = true) (ht : TreeInv L m) (hl : Local L m c)
    {ch : Choice n} {mv : Move n} (hs : Step crc m c ch mv) :
    1 + mv.client.work ≤ c.work + if c.retries crc ch then 600 else 0 := by
  have hk := hl.knows
  have less : ∀ {w e : ℕ}, w < c.work → 1 + w ≤ c.work + e := by omega
  cases hs with
  | readRoot hpc =>
    simp only [Knows, hpc] at hk
    by_cases hn : (c.isSearch && m.root.isNull) = true
    · simp [work, hpc, hn]
      omega
    · simp [work, hpc, hn, levels, again, hk]
      omega
  | next hpc => exact less (next_work hpc)
  | leafRead hpc => exact leafRead_retries hpc
  | @leafWord todo j w hpc hw | @nodeWord todo j w hpc hw | @restWord todo j w hpc hw =>
    have hlen := List.length_eraseIdx_add_one (List.getElem?_eq_some_iff.mp hw).1
    simp [work, hpc, levels, again]
    omega
  | reread hpc =>
    simp [work, hpc, levels, again]
    omega
  | gotLeaf hpc => exact less (gotLeaf_work hpc)
  | typeRead hpc => exact less (typeRead_work hpc)
  | restRead hpc =>
    simp [work, hpc, levels, again]
    omega
  | nodeRead hpc => exact nodeRead_retries hk hpc
  | scan hpc => exact less (scan_work ht hk hpc)
  | finish hpc =>
    simp [work, hpc]
    omega
  | flush hq =>
    simp [work, hq, levels, again]
    omega
  | combineUpdate hpc | lockBusy hpc | lockTaken hpc | writeFault hpc | combineWrite hpc
  | written hpc | writeWord hpc | leafPrepare hpc | leafWrite hpc | leafCasDone hpc
  | leafCasFailed hpc | splitReuse hpc | splitFresh hpc | splitFault hpc | splitWrite hpc
  | splitCasDone hpc | splitCasFailed hpc | splitRev hpc | splitHdr hpc | emptyScan hpc
  | switchEntry hpc | switchHdr hpc | switchDown hpc | switchEnd hpc =>
    rw [hpc] at h
    cases h

end Client

namespace World
variable {ι : Type*} [DecidableEq ι] [Fintype ι]

def retries (crc : Key n → Value → UInt64) (i : ι) (p : World ι n × (ι × Choice n)) : Bool :=
  decide (p.2.1 = i) && (p.1.client i).retries crc p.2.2

theorem Takes.work {s t : World ι n} {a : ι × Choice n} {i : ι} (hs : Safe s)
    (h : (s.client i).pc.searches = true) (hone : a.1 = i → a.2.isBegin = false)
    (ht : Takes crc s a t) : (if decide (a.1 = i) then 1 else 0) + (t.client i).work ≤
      (s.client i).work + if retries crc i (s, a) then 600 else 0 := by
  cases ht with
  | @start j isSearch k v isLoad hit c' hpc hb =>
    have hj : i ≠ j := fun hj => by simpa [Choice.isBegin] using hone hj.symm
    rw [put_client_ne _ _ hj]
    simp [hj.symm]
  | @step j ch mv hstep =>
    by_cases hj : i = j
    · subst hj
      rw [put_client_self]
      simpa [retries] using Client.search_work h hs.tree (hs.client i) hstep
    · rw [put_client_ne _ _ hj]
      simp [Ne.symm hj]

theorem Takes.begin_work {s t : World ι n} {i : ι} {isSearch isLoad : Bool} {k : Key n} {v : Value}
    {hit : Option ℕ} (ht : Takes crc s (i, .begin isSearch k v isLoad hit) t) :
    (t.client i).work ≤ (s.client i).pending.length + 600 * (n + 3) := by
  cases ht with
  | start hpc hb =>
    rw [put_client_self]
    cases hb with
    | root =>
      simp only [Client.work, World.opening]
      omega
    | hit =>
      simp only [Client.work, Client.levels, Client.again, World.opening, if_true]
      omega
  | step hs => cases hs

/-- Whatever a search comes to, it can go on, or has returned true. -/
structure Found (crc : Key n → Value → UInt64) (i : ι) (t : World ι n) : Prop where
  tree : (t.client i).pc ≠ .noTree
  fault : (t.client i).pc ≠ .fault
  result : ∀ found, (t.client i).pc = .finish found → found = true
  next : (t.client i).pc = .idle ∨ ∃ ch u, Choice.isBegin ch = false ∧
    (treeSystem ι crc).next t (i, ch) = some u

omit [DecidableEq ι] [Fintype ι] in
theorem Tracked.searches {s : World ι n} {c : Client n} (h : c.pc ≠ .idle → Tracked s c) :
    c.pc.searches = true ∧ c.pc ≠ .finish false := by
  by_cases hpc : c.pc = .idle
  · simp [hpc, Pc.searches]
  · have hseek := (h hpc).seeks
    refine ⟨hseek.searches, fun hf => ?_⟩
    simp [Client.Seeks, hf] at hseek

open scoped Transition.Numbered

end World
end SmartTree
