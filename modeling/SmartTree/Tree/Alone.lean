import SmartTree.Tree.AloneSplit

/-! The runs of a lone client: the tree is exact whenever the client has nothing in hand. -/
namespace SmartTree
open Transition
variable {n : ℕ} {L : Layout} {m : Mem n} {c : Client n} {crc : Key n → Value → UInt64}

namespace Alone
variable (h : Alone crc L m c)
include h

/-- The operations of the client itself take effect in thought before they do in memory. -/
theorem flush {op : RemoteOp} {ops : List RemoteOp} (hq : c.pending = op :: ops) :
    Alone crc L (m.perform op) { c with pending := ops } := by
  have hx := h.settled
  have hs := h.sees
  have hne : c.pending ≠ [] := by simp [hq]
  constructor
  · unfold Client.settle Client.dueOps at hx ⊢
    rw [hq] at hx
    exact hx
  · have hst : ∀ {pc}, c.Stands m →
        Client.Stands (m.perform op) { c with pending := ops, pc := pc } := by
      intro pc hst
      refine ⟨hst.leafAddr, fun hp => ?_, fun hf => absurd (hst.current hf).1 hne⟩
      rw [Mem.perform_load]
      exact hst.byte hp
    unfold Client.Sees at hs ⊢
    cases hpc : c.pc <;> simp only [hpc] at hs ⊢
    case readRoot => exact hs
    case next | reread => exact hst hs
    case readLeaf todo =>
      obtain rfl : todo = leafWords := by
        by_contra htodo
        exact hne (hs.2.1 htodo)
      exact ⟨hst hs.1, fun htodo => absurd rfl htodo, fun w hw => absurd (mem_leafWords w) hw⟩
    case readNode todo =>
      obtain rfl : todo = nodeWords c.p.type := by
        by_contra htodo
        exact hne (hs.2.1 htodo)
      exact ⟨hst hs.1, fun htodo => absurd rfl htodo, fun w hw hn => absurd hw hn⟩
    case gotLeaf | combineUpdate | acquireLock | leafPrepare | leafWrite | leafCas | splitPrepare |
        splitWrite | splitCas | scan => exact absurd hs.1.pending hne
    case combineWrite | switchEntry | switchHdr | splitRev => exact absurd hs.1 hne
    case emptyScan => exact absurd hs.2.1.pending hne
    case readRest | nodeRead => exact absurd hs.2.1 hne
    case switchEnd => exact hs

theorem step (ht : TreeInv L m) (hl : Local L m c) {ch : Choice n} {mv : Move n}
    (hs : Step crc m c ch mv) : Alone crc (L.publish mv.published) mv.mem mv.client := by
  have hk := hl.knows
  have hsees := h.sees
  cases hs with
  | readRoot hpc hq => exact h.readRoot hpc hq
  | next hpc =>
    simp only [Client.Knows, hpc] at hk
    exact h.next hk hpc
  | leafRead hpc => exact h.leafRead ht hk hpc
  | leafWord hpc hw hq => exact h.leafWord hpc hw hq
  | reread hpc hq => exact h.reread hpc hq
  | gotLeaf hpc => exact h.gotLeaf hk hpc
  | combineUpdate hpc => exact h.combineUpdate hpc
  | lockBusy => exact h
  | lockTaken hpc _ hlock => exact h.lockTaken hpc hlock
  | writeFault hpc hne =>
    simp only [Client.Knows, hpc] at hk
    exact absurd hk.1 hne
  | combineWrite hpc => exact h.combineWrite hpc
  | written hpc => exact h.written hpc
  | writeWord hpc hq => exact h.writeWord hpc hq
  | leafPrepare hpc => exact h.leafPrepare hpc
  | leafWrite hpc _ ha => exact h.leafWrite ht hpc ha
  | leafCasDone hpc _ hb hla => exact h.leafCasDone ht hl hpc hb hla
  | leafCasFailed hpc _ _ _ hn =>
    simp only [Client.Sees, hpc] at hsees
    exact absurd hsees.2.1.1 hn
  | splitReuse hpc hla =>
    simp only [Client.Sees, hpc] at hsees
    cases hla.symm.trans hsees.2.1
  | splitFresh hpc => exact h.splitFresh ht hpc
  | splitFault hpc => exact h.quiet (by simp [hpc, Pc.owes]) rfl rfl trivial
  | splitWrite hpc _ hp => exact h.splitWrite ht hl hpc hp
  | splitCasDone hpc => exact h.splitCasDone ht hl hpc
  | splitCasFailed hpc _ hp =>
    simp only [Client.Sees, hpc] at hsees
    exact absurd hsees.1.load hp
  | splitRev hpc => exact h.splitRev hpc
  | splitHdr hpc => exact h.splitHdr hpc
  | typeRead hpc => exact h.typeRead hk hpc
  | nodeWord hpc hw hq => exact h.nodeWord hpc hw hq
  | restRead hpc => exact h.restRead hpc
  | restWord hpc hw => exact h.restWord hpc hw
  | nodeRead hpc =>
    have hpub : (c.nodeRead m c.target).published = [] := by
      unfold Client.nodeRead; dsimp only; split <;> rfl
    have hmem : (c.nodeRead m c.target).mem = m := by
      unfold Client.nodeRead; dsimp only; split <;> rfl
    rw [hpub, hmem]
    exact h.nodeRead ht hk hpc
  | scan hpc => exact h.scan hk hpc
  | emptyScan hpc => exact h.emptyScan hk hpc
  | switchEntry hpc => exact h.switchEntry hpc
  | switchHdr hpc => exact h.switchHdr hpc
  | switchDown hpc =>
    simp only [Client.Sees, hpc] at hsees
  | switchEnd hpc => exact h.switchEnd hpc
  | finish hpc => exact h.quiet (by simp [hpc, Pc.owes]) rfl rfl trivial
  | flush hq => exact h.flush hq

omit h in
/-- The beginning of an operation, from the root or from any page in the cache. -/
theorem begins {log : List (List UInt8 × CacheEntry)} {hit : Option ℕ} {c₀ c' : Client n}
    (h : Alone crc L m c₀) (hidle : c₀.pc = .idle) (hq : c.pending = c₀.pending)
    (hla : c.leafAddr = none) (hlog : ∀ q ∈ log, LogOk L m q) (hb : Begins log c hit c') : Alone crc L m c' := by
  have hc : c₀.pc.owes = false := by simp [hidle, Pc.owes]
  cases hb with
  | root => exact h.quiet hc rfl hq hla
  | hit hj _ _ hi he _ =>
    have hslot := (hlog _ (List.mem_of_getElem? hj)).slot _ _ hi he
    exact h.quiet hc rfl hq ⟨hla, fun _ => hslot.2.1, fun hf => by cases hf⟩

end Alone
end SmartTree
