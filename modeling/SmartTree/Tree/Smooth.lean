import SmartTree.Tree.Returns

/-! What a lone client does not run into: a compare-and-swap that fails, a lock that is taken, and a
second read of an entry. -/
namespace SmartTree
open Transition
variable {n : ℕ} {L : Layout} {m : Mem n} {c : Client n} {crc : Key n → Value → UInt64}

/-- The compare-and-swap the client has come to, of a lock, a slot or a header, finds what it
expects. -/
def Client.Succeeds (m : Mem n) (c : Client n) : Prop :=
  match c.pc with
  | .acquireLock => (m.leaf c.target).lock = false
  | .leafCas site => m.load (c.sitePtr c.target site) = .null
  | .splitCas _ _ => m.load c.pPtr = c.p
  | .switchEntry w => m.load w.ptr = w.p
  | .switchHdr w => (m.node w.node).hdr = w.hdr
  | .switchDown _ => False
  | _ => True

theorem Alone.succeeds (h : Alone crc L m c) (hl : Local L m c) : c.Succeeds m := by
  have hk := hl.knows
  have hs := h.sees
  unfold Client.Succeeds
  split <;> rename_i hpc <;> simp only [Client.Sees, hpc] at hs
  · simp only [Client.Knows, hpc] at hk
    obtain ⟨-, b, l, hp, hL, -⟩ := hk
    rw [show c.target = l by simp [Client.target, hp]]
    exact ((h.exact (by simp [hpc, Pc.owes]) hs.1.pending).linked.leaf hL).2
  · exact hs.2.1.1
  · exact hs.1.load
  · exact hs.2.1
  · exact hs.2.1.symm
  · trivial

def Pc.isReread : Pc → Bool
  | .reread => true
  | _ => false

namespace Client

def rereads (c : Client n) : Bool := c.pc.isReread && c.pending.isEmpty

def stale (c : Client n) : ℕ := if c.fromCache || c.pc.isReread then 1 else 0

/-- The step takes nothing from the cache, and finds an entry outdated only if it is from there. -/
structure Calm (c c' : Client n) : Prop where
  fromCache : c'.fromCache = true → c.fromCache = true
  reread : c'.pc.isReread = true → c.fromCache = true

theorem Calm.stale_le {c' : Client n} (h : c.Calm c') (hpc : c.pc.isReread = false) :
    (if c.rereads then 1 else 0) + c'.stale ≤ c.stale := by
  have hno : c.rereads = false := by simp [rereads, hpc]
  rw [hno]
  unfold stale
  cases hc : c.fromCache with
  | true => simp; split <;> simp
  | false =>
    have h1 : c'.fromCache = false := by simpa [hc] using h.fromCache
    have h2 : c'.pc.isReread = false := by simpa [hc] using h.reread
    simp [h1, h2]

theorem Calm.to {c' : Client n} (hf : c'.fromCache = c.fromCache) (hpc : c'.pc.isReread = false) :
    c.Calm c' :=
  ⟨hf ▸ id, by simp [hpc]⟩

theorem next_calm : c.Calm c.next := by
  unfold next
  split
  · split
    · exact .to rfl rfl
    · split <;> exact .to rfl rfl
  · exact .to rfl rfl
  · exact .to rfl rfl

theorem gotLeaf_calm : c.Calm c.gotLeaf := by
  unfold gotLeaf
  split
  · split <;> exact .to rfl rfl
  · split
    · refine .to rfl ?_
      dsimp only
      split <;> rfl
    · split
      · exact .to rfl rfl
      · split <;> exact .to rfl rfl

theorem leafPrepare_calm {site : Site} {v : Option Value} : c.Calm (c.leafPrepare site v) := by
  unfold leafPrepare
  dsimp only
  split <;> exact .to rfl rfl

theorem typeRead_calm : c.Calm c.typeRead := by
  refine .to rfl ?_
  unfold typeRead
  dsimp only
  split <;> rfl

theorem scan_calm {a : Addr} : c.Calm (c.scan a) := by
  unfold scan
  split
  · exact .to rfl rfl
  · split
    · exact ⟨by simp [descend], by simp [descend, Pc.isReread]⟩
    · refine .to rfl ?_
      dsimp only
      split <;> rfl

theorem emptyScan_calm {i : ℕ} : c.Calm (c.emptyScan i) := by
  unfold emptyScan
  split
  · exact .to rfl rfl
  · split <;> exact .to rfl rfl

end Client

namespace Alone
variable (h : Alone crc L m c)
include h

theorem leafRead_calm (ht : TreeInv L m) (hk : c.Knows L m) (hpc : c.pc = .readLeaf []) :
    c.Calm (c.leafRead crc c.target) := by
  refine ⟨id, fun hr => ?_⟩
  by_contra hf
  have hv := h.leaf_isValid ht hk hpc (by simpa using hf)
  unfold Client.leafRead at hr
  simp only [hv, Bool.not_true, Bool.false_eq_true, if_false] at hr
  split at hr <;> cases hr

theorem nodeRead_calm (hk : c.Knows L m) (hpc : c.pc = .nodeRead) :
    c.Calm (c.nodeRead m c.target).client := by
  have hvalid := h.page_isValid hk hpc
  unfold Client.nodeRead
  dsimp only
  split
  · rename_i hv
    refine ⟨id, fun _ => ?_⟩
    by_contra hf
    rw [hvalid (by simpa using hf)] at hv
    cases hv
  · unfold Client.checkHeader
    dsimp only
    split
    · exact .to rfl rfl
    · exact .to rfl rfl
    · split
      · exact .to rfl rfl
      · split <;> exact .to rfl rfl

/-- An entry is read again only once: what has been read again is not from the cache. -/
theorem step_stale (ht : TreeInv L m) (hl : Local L m c) {ch : Choice n} {mv : Move n}
    (hs : Step crc m c ch mv) : (if c.rereads then 1 else 0) + mv.client.stale ≤ c.stale := by
  have hk := hl.knows
  have hsees := h.sees
  cases hs with
  | reread hpc hq => simp [Client.rereads, Client.stale, hpc, hq, Pc.isReread]
  | flush hq => simp [Client.rereads, Client.stale, hq]
  | readRoot hpc =>
    refine Client.Calm.stale_le (.to rfl ?_) (by rw [hpc]; rfl)
    dsimp only
    split <;> rfl
  | combineUpdate hpc =>
    refine Client.Calm.stale_le (.to rfl ?_) (by rw [hpc]; rfl)
    dsimp only
    split <;> rfl
  | lockBusy hpc => exact Client.Calm.stale_le (.to rfl (by rw [hpc]; rfl)) (by rw [hpc]; rfl)
  | next hpc => exact Client.next_calm.stale_le (by rw [hpc]; rfl)
  | leafRead hpc => exact (h.leafRead_calm ht hk hpc).stale_le (by rw [hpc]; rfl)
  | gotLeaf hpc => exact Client.gotLeaf_calm.stale_le (by rw [hpc]; rfl)
  | leafPrepare hpc => exact Client.leafPrepare_calm.stale_le (by rw [hpc]; rfl)
  | @leafCasDone site _ _ hpc =>
    obtain ⟨pc, he, hpc'⟩ := leafCasDone_pc (c := c) c.target site
    refine Client.Calm.stale_le ?_ (by rw [hpc]; rfl)
    dsimp only
    rw [he]
    obtain rfl | rfl | ⟨w, rfl⟩ := hpc' <;> exact .to rfl rfl
  | leafCasFailed hpc _ _ _ hn =>
    simp only [Client.Sees, hpc] at hsees
    exact absurd hsees.2.1.1 hn
  | @splitRev sp nodes hpc =>
    refine Client.Calm.stale_le (.to rfl ?_) (by rw [hpc]; rfl)
    unfold Client.splitRev
    cases sp.hdrIdx <;> rfl
  | typeRead hpc => exact Client.typeRead_calm.stale_le (by rw [hpc]; rfl)
  | nodeRead hpc => exact (h.nodeRead_calm hk hpc).stale_le (by rw [hpc]; rfl)
  | scan hpc => exact Client.scan_calm.stale_le (by rw [hpc]; rfl)
  | emptyScan hpc => exact Client.emptyScan_calm.stale_le (by rw [hpc]; rfl)
  | switchHdr hpc =>
    refine Client.Calm.stale_le (.to rfl ?_) (by rw [hpc]; rfl)
    unfold Switch.afterCas
    dsimp only
    split <;> rfl
  | switchDown hpc => simp only [Client.Sees, hpc] at hsees
  | @switchEnd w hpc =>
    simp only [Client.Sees, hpc] at hsees
    have hclose : w.close = .finish true := by simp [Switch.close, hsees.1, hsees.2]
    exact Client.Calm.stale_le (.to rfl (by rw [hclose]; rfl)) (by rw [hpc]; rfl)
  | leafWord hpc | lockTaken hpc | writeFault hpc | combineWrite hpc | written hpc | writeWord hpc
  | leafWrite hpc | splitReuse hpc | splitFresh hpc | splitFault hpc | splitWrite hpc
  | splitCasDone hpc | splitCasFailed hpc | splitHdr hpc | nodeWord hpc | restRead hpc | restWord hpc
  | switchEntry hpc | finish hpc =>
    exact Client.Calm.stale_le (.to rfl rfl) (by rw [hpc]; rfl)

end Alone
end SmartTree
