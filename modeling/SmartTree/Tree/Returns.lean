import SmartTree.Lib.Rank
import SmartTree.Tree.Filed

/-! Operations of a lone client return: every step it takes on its way lowers the work left,
and there is always a step to take. -/
namespace SmartTree
open Transition
variable {n : ℕ} {L : Layout} {m : Mem n} {c : Client n} {crc : Key n → Value → UInt64}

namespace Client

def levels (c : Client n) : ℕ := 600 * (n + 1 - c.depth)

def again (c : Client n) : ℕ := if c.fromCache then 1000 else 0

def work (c : Client n) : ℕ :=
  c.pending.length + match c.pc with
  | .idle | .noTree | .fault | .switchDown _ => 0
  | .finish _ => 1
  | .switchEnd _ => 2
  | .switchHdr _ | .splitHdr _ => 3
  | .switchEntry _ => 4
  | .splitRev _ _ | .leafCas _ => 5
  | .splitCas _ _ | .leafWrite _ => 6
  | .splitWrite _ _ _ | .leafPrepare _ => 7
  | .emptyScan _ => 8
  | .writeBack todo => 2 + todo.length
  | .splitPrepare _ | .combineWrite => 9
  | .acquireLock => 10
  | .combineUpdate => 11
  | .gotLeaf => c.levels + 12
  | .scan => c.levels + c.again + 12
  | .nodeRead => c.levels + c.again + 14
  | .readLeaf todo => c.levels + c.again + 14 + todo.length
  | .readRest todo => c.levels + c.again + 15 + todo.length
  | .readNode todo => c.levels + c.again + 272 + todo.length
  | .next => c.levels + c.again + 532
  | .reread => c.levels + 533
  | .readRoot => 600 * n + 533

theorem repairLeaf_length (c : Client n) (a : Addr) : (c.repairLeaf a).length ≤ 1 := by
  unfold repairLeaf
  split <;> simp

theorem repairNode_length (c : Client n) (a : Addr) : (c.repairNode a).length ≤ 1 := by
  unfold repairNode
  split <;> simp

theorem next_work (hpc : c.pc = .next) : c.next.work < c.work := by
  unfold next
  split
  · split
    · simp [work, hpc]
    · split
      · simp [work, hpc]
      · simp [work, hpc]
  · simp [work, hpc, leafWords, levels, again]
  · rename_i b t a hp
    have := t.num_le
    simp [work, hpc, nodeWords, slotWords, levels, again]
    omega

theorem gotLeaf_work (hpc : c.pc = .gotLeaf) : c.gotLeaf.work < c.work := by
  unfold gotLeaf
  split
  · split <;> simp [work, hpc]
  · split
    · split <;> simp [work, hpc]
    · split
      · simp [work, hpc]
      · split
        · simp [work, hpc]
        · simp [work, hpc]

theorem leafRead_work (hpc : c.pc = .readLeaf []) (hv : c.leaf.isValid c.pPtr c.fromCache = true)
    (hc : c.leaf.isConsistent crc = true) : (c.leafRead crc c.target).work < c.work := by
  have hrep := c.repairLeaf_length c.target
  unfold leafRead
  simp [hv, hc, work, hpc, levels]
  omega

theorem nodeRead_work (hk : c.Knows L m) (hpc : c.pc = .nodeRead)
    (hv : c.page.isValid c.pPtr c.depth c.fromCache = true) :
    (c.nodeRead m c.target).client.work < c.work := by
  simp only [Knows, hpc] at hk
  obtain ⟨⟨σ, hσ⟩, b, a, π, hp, ha, hb⟩ := hk
  have hrep := c.repairNode_length c.target
  have hσπ : σ.length ≤ π.length := by
    have he := hσ.entry
    rw [hp] at he
    cases he with
    | node ha' hpre =>
      cases ha.symm.trans ha'
      exact hpre.length_le
  have hend := (hb.hdr (by simp)).1.end_eq
  unfold nodeRead checkHeader
  simp only [hv, Bool.not_true, Bool.false_eq_true, if_false]
  split
  · simp [work, hpc]
    omega
  · have hlev : 600 * (n + 1 - (c.page.hdr.depth + c.page.hdr.partials.length)) ≤
        600 * (n + 1 - c.depth) := Nat.mul_le_mul_left _ (by have := hσ.depth; omega)
    simp [work, hpc, levels, again]
    omega
  · split
    · simp [work, hpc]
      omega
    · split <;> (simp [work, hpc]; omega)

theorem scan_work (ht : TreeInv L m) (hk : c.Knows L m) (hpc : c.pc = .scan) :
    (c.scan c.target).work < c.work := by
  simp only [Knows, hpc] at hk
  obtain ⟨a, π, hn⟩ := hk
  have hshort := (ht.node a π hn.layout).short
  have hdepth := hn.depth
  unfold scan
  split
  · simp [work, hpc]
  · split
    · have hlev : 600 * (n + 1 - (c.depth + 1)) + 600 = 600 * (n + 1 - c.depth) := by omega
      simp [work, hpc, descend, levels, again]
      omega
    · cases c.isSearch <;> simp [work, hpc]

theorem typeRead_work (hpc : c.pc = .readNode []) : c.typeRead.work < c.work := by
  have := c.page.hdr.type.num_le
  unfold typeRead
  split
  · simp [work, hpc, slotWords, levels, again]
    omega
  · simp [work, hpc, levels, again]

theorem emptyScan_work {i : ℕ} (hpc : c.pc = .emptyScan i) : (c.emptyScan i).work < c.work := by
  unfold emptyScan
  split
  · simp [work, hpc]
  · split <;> simp [work, hpc]

theorem leafPrepare_work {site : Site} {v : Option Value} (hpc : c.pc = .leafPrepare site) :
    (c.leafPrepare site v).work < c.work := by
  unfold leafPrepare
  dsimp only
  split
  · simp [work, hpc]
  · simp [work, hpc]
  · simp [work, hpc]

theorem leafCasDone_work {site : Site} {a : Addr} (hpc : c.pc = .leafCas site) :
    (c.leafCasDone a site).work < c.work := by
  obtain ⟨pc, he, rfl | rfl | ⟨w, rfl⟩⟩ := leafCasDone_pc (c := c) a site <;>
    simp [he, work, hpc]

end Client

namespace Alone
variable (h : Alone crc L m c) (ht : TreeInv L m)
include h ht

theorem leaf_isValid (hk : c.Knows L m) (hpc : c.pc = .readLeaf []) (hf : c.fromCache = false) :
    c.leaf.isValid c.pPtr c.fromCache = true := by
  have hs := h.sees
  simp only [Client.Sees, hpc] at hs
  simp only [Client.Knows, hpc] at hk
  obtain ⟨⟨σ, hσ⟩, b, l, hp, -⟩ := hk
  have hleaf := Leaf.eq_of_copy fun w => hs.2.2 w (by simp)
  rw [show c.target = l by simp [Client.target, hp]] at hleaf
  simp [Leaf.isValid, hf, hleaf, ht.valid l (hσ.leaf hp).1]

omit ht in
/-- So is a node: whatever hangs at the slot starts no deeper than the slot. -/
theorem page_isValid (hk : c.Knows L m) (hpc : c.pc = .nodeRead) (hf : c.fromCache = false) :
    c.page.isValid c.pPtr c.depth c.fromCache = true := by
  have hs := h.sees
  simp only [Client.Sees, hpc] at hs
  simp only [Client.Knows, hpc] at hk
  obtain ⟨⟨σ, hσ⟩, b, a, π, hp, ha, hb⟩ := hk
  obtain ⟨hst, hq, hseen⟩ := hs
  have hx := (h.exact (by simp [hpc, Pc.owes]) hq).linked
  have hhdr := hseen.hdr
  rw [show c.target = a by simp [Client.target, hp]] at hhdr
  have hld := (hst.current hf).2
  rw [hp] at hld
  have hd : c.page.hdr.depth ≤ c.depth := by
    rw [hhdr, (hx.node hσ.slot hld).depth, hσ.depth]
  simp [Page.isValid, (hb.hdr (by simp)).2, hd, hf]

/-- A leaf is read once, and once more if it was found in the cache. -/
theorem leafRead_work (hk : c.Knows L m) (hpc : c.pc = .readLeaf []) :
    (c.leafRead crc c.target).work < c.work := by
  have hvalid := h.leaf_isValid ht hk hpc
  have hs := h.sees
  simp only [Client.Sees, hpc] at hs
  simp only [Client.Knows, hpc] at hk
  obtain ⟨⟨σ, hσ⟩, b, l, hp, -⟩ := hk
  obtain ⟨hst, hq, hcopy⟩ := hs
  have hx := (h.exact (by simp [hpc, Pc.owes]) (hq (by simp [leafWords]))).linked
  have hcons : c.leaf.isConsistent crc = true := by
    have hleaf := Leaf.eq_of_copy fun w => hcopy w (by simp)
    rw [show c.target = l by simp [Client.target, hp]] at hleaf
    exact hleaf ▸ (hx.leaf (hσ.leaf hp).1).1
  by_cases hv : c.leaf.isValid c.pPtr c.fromCache = true
  · exact Client.leafRead_work hpc hv hcons
  · have hf : c.fromCache = true := by
      by_contra hf
      exact hv (hvalid (by simpa using hf))
    have hrep := c.repairLeaf_length c.target
    simp only [Client.leafRead, hv, Bool.not_false, if_true]
    simp [Client.work, hpc, Client.levels, Client.again, hf]
    omega

omit ht in
theorem nodeRead_work (hk : c.Knows L m) (hpc : c.pc = .nodeRead) :
    (c.nodeRead m c.target).client.work < c.work := by
  by_cases hv : c.page.isValid c.pPtr c.depth c.fromCache = true
  · exact Client.nodeRead_work hk hpc hv
  · have hf : c.fromCache = true := by
      by_contra hf
      exact hv (h.page_isValid hk hpc (by simpa using hf))
    have hrep := c.repairNode_length c.target
    simp only [Client.nodeRead, hv, Bool.not_false, if_true]
    simp [Client.work, hpc, Client.levels, Client.again, hf]
    omega

/-- Every step of a lone client, and every completion of an operation it issued, gets it on. -/
theorem step_work (hl : Local L m c) {ch : Choice n} {mv : Move n} (hs : Step crc m c ch mv) :
    mv.client.work < c.work := by
  have hk := hl.knows
  have hsees := h.sees
  cases hs with
  | readRoot hpc =>
    simp only [Client.Knows, hpc] at hk
    by_cases hn : (c.isSearch && m.root.isNull) = true
    · simp [Client.work, hpc, hn]
    · simp [Client.work, hpc, hn, Client.levels, Client.again, hk]
  | next hpc => exact Client.next_work hpc
  | leafRead hpc => exact h.leafRead_work ht hl.knows hpc
  | @leafWord todo j w hpc hw =>
    have hlen := List.length_eraseIdx_add_one (List.getElem?_eq_some_iff.mp hw).1
    simp [Client.work, hpc, Client.levels, Client.again]
    omega
  | reread hpc => simp [Client.work, hpc, Client.levels, Client.again]
  | gotLeaf hpc => exact Client.gotLeaf_work hpc
  | combineUpdate hpc =>
    dsimp only
    split <;> simp [Client.work, hpc]
  | lockBusy hpc hq hlock =>
    simp only [Client.Knows, hpc] at hk
    obtain ⟨-, b, l, hp, hL, -⟩ := hk
    have hfree := ((h.exact (by simp [hpc, Pc.owes]) hq).linked.leaf hL).2
    rw [show c.target = l by simp [Client.target, hp], hfree] at hlock
    cases hlock
  | lockTaken hpc => simp [Client.work, hpc]
  | writeFault hpc => simp [Client.work, hpc]
  | combineWrite hpc => simp [Client.work, hpc, leafWords]
  | written hpc => simp [Client.work, hpc]
  | writeWord hpc => simp [Client.work, hpc]
  | leafPrepare hpc => exact Client.leafPrepare_work hpc
  | leafWrite hpc => simp [Client.work, hpc]
  | leafCasDone hpc => exact Client.leafCasDone_work hpc
  | leafCasFailed hpc _ _ _ hn =>
    simp only [Client.Sees, hpc] at hsees
    exact absurd hsees.2.1.1 hn
  | splitReuse hpc => simp [Client.work, hpc]
  | splitFresh hpc => simp [Client.work, hpc]
  | splitFault hpc => simp [Client.work, hpc]
  | splitWrite hpc => simp [Client.work, hpc]
  | splitCasDone hpc => simp [Client.work, hpc]
  | splitCasFailed hpc _ hp =>
    simp only [Client.Sees, hpc] at hsees
    exact absurd hsees.1.load hp
  | @splitRev sp nodes hpc =>
    simp only [Client.splitRev, Client.work, hpc]
    cases c.p <;> cases sp.hdrIdx <;> simp
  | splitHdr hpc => simp [Client.splitHdr, Client.work, hpc]
  | typeRead hpc => exact Client.typeRead_work hpc
  | @nodeWord todo j w hpc hw =>
    have hlen := List.length_eraseIdx_add_one (List.getElem?_eq_some_iff.mp hw).1
    simp [Client.work, hpc, Client.levels, Client.again]
    omega
  | restRead hpc => simp [Client.work, hpc, Client.levels, Client.again]
  | @restWord todo j w hpc hw =>
    have hlen := List.length_eraseIdx_add_one (List.getElem?_eq_some_iff.mp hw).1
    simp [Client.work, hpc, Client.levels, Client.again]
    omega
  | nodeRead hpc => exact h.nodeRead_work hl.knows hpc
  | scan hpc => exact Client.scan_work ht hl.knows hpc
  | emptyScan hpc => exact Client.emptyScan_work hpc
  | switchEntry hpc => simp [Client.work, hpc]
  | switchHdr hpc =>
    unfold Switch.afterCas
    dsimp only
    split <;> simp [Client.work, hpc]
  | switchDown hpc => simp only [Client.Sees, hpc] at hsees
  | @switchEnd w hpc =>
    simp only [Client.Sees, hpc] at hsees
    have hclose : w.close = .finish true := by simp [Switch.close, hsees.1, hsees.2]
    simp [Client.work, hpc, hclose]
  | finish hpc => simp [Client.work, hpc]
  | flush hq => simp [Client.work, hq, Client.levels, Client.again]

end Alone
end SmartTree
