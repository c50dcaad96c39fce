import SmartTree.Tree.Update

/-! Safety of the whole system: in every state of every run the published tree is in order,
no assert on the way of any client has failed, and clients do not share unpublished blocks. -/
namespace SmartTree
open Transition
variable {n : ℕ} {L : Layout} {m : Mem n} {c c' : Client n} {crc : Key n → Value → UInt64}
  {ops : List RemoteOp}

def RemoteOp.OnRev : RemoteOp → Prop
  | .casHeader _ _ _ => False
  | _ => True

theorem RemoteOp.OnRev.opOk {op : RemoteOp} (h : op.OnRev) : OpOk L m op := by
  cases op with
  | casHeader => cases h
  | _ => trivial

namespace Client

/-- A step that changes neither the key nor the blocks in hand. -/
structure Plain (c c' : Client n) : Prop where
  key : c'.key = c.key
  leafAddr : c'.leafAddr = c.leafAddr
  nodes : c'.nodesOwned = []
  ops : ∀ op ∈ c'.pending, op ∈ c.pending ∨ op.OnRev

theorem leafOwned_step (h : c.leafOwned = c.leafAddr) (he : c'.leafAddr = c.leafAddr) :
    c'.leafOwned = c.leafOwned ∨ c'.leafOwned = none := by
  rw [h]
  unfold leafOwned
  split <;> simp [he]

theorem next_plain : Plain c c.next := by
  unfold next
  split
  · split
    · exact ⟨rfl, rfl, rfl, fun _ => .inl⟩
    · split <;> exact ⟨rfl, rfl, rfl, fun _ => .inl⟩
  · exact ⟨rfl, rfl, rfl, fun _ => .inl⟩
  · exact ⟨rfl, rfl, rfl, fun _ => .inl⟩

theorem Plain.issue (h : Plain { c with pending := c.pending ++ ops } c')
    (hops : ∀ op ∈ ops, op.OnRev) : Plain c c' :=
  ⟨h.key, h.leafAddr, h.nodes, fun op hop => by
    rcases h.ops op hop with hop | hop
    · exact (List.mem_append.mp hop).imp_right (hops op)
    · exact .inr hop⟩

theorem repairLeaf_onRev {a : Addr} : ∀ op ∈ c.repairLeaf a, op.OnRev := by
  unfold repairLeaf
  split <;> simp [RemoteOp.OnRev]

theorem repairNode_onRev {a : Addr} : ∀ op ∈ c.repairNode a, op.OnRev := by
  unfold repairNode
  split <;> simp [RemoteOp.OnRev]

theorem leafRead_plain {a : Addr} : Plain c (c.leafRead crc a) := by
  refine Plain.issue ?_ (repairLeaf_onRev (c := c) (a := a))
  unfold leafRead
  split
  · exact ⟨rfl, rfl, rfl, fun _ => .inl⟩
  · split <;> exact ⟨rfl, rfl, rfl, fun _ => .inl⟩

theorem gotLeaf_plain : Plain c c.gotLeaf := by
  unfold gotLeaf
  split
  · split <;> exact ⟨rfl, rfl, rfl, fun _ => .inl⟩
  · split
    · cases c.isLoad <;> exact ⟨rfl, rfl, rfl, fun _ => .inl⟩
    · split
      · exact ⟨rfl, rfl, rfl, fun _ => .inl⟩
      · split <;> exact ⟨rfl, rfl, rfl, fun _ => .inl⟩

theorem leafPrepare_plain {site : Site} {v : Option Value} : Plain c (c.leafPrepare site v) := by
  unfold leafPrepare
  split
  · exact ⟨rfl, rfl, rfl, fun _ => .inl⟩
  · refine Plain.issue (c := c) ⟨rfl, rfl, rfl, fun _ => .inl⟩ ?_
    simp [RemoteOp.OnRev]
  · exact ⟨rfl, rfl, rfl, fun _ => .inl⟩

theorem leafCasFailed_plain {a : Addr} {e : Entry} {b : UInt8} {site : Site} :
    Plain c (c.leafCasFailed a e b site) := by
  cases site with
  | null => exact ⟨rfl, rfl, rfl, fun _ => .inl⟩
  | empty i => rw [leafCasFailed]; split <;> exact ⟨rfl, rfl, rfl, fun _ => .inl⟩
  | behind i =>
    rw [leafCasFailed]
    split
    · exact ⟨rfl, rfl, rfl, fun _ => .inl⟩
    · split <;> exact ⟨rfl, rfl, rfl, fun _ => .inl⟩

theorem typeRead_plain : Plain c c.typeRead := by
  unfold typeRead
  split <;> exact ⟨rfl, rfl, rfl, fun _ => .inl⟩

theorem checkHeader_plain : Plain c c.checkHeader := by
  unfold checkHeader
  dsimp only
  split
  · exact ⟨rfl, rfl, rfl, fun _ => .inl⟩
  · exact ⟨rfl, rfl, rfl, fun _ => .inl⟩
  · split
    · exact ⟨rfl, rfl, rfl, fun _ => .inl⟩
    · split <;> exact ⟨rfl, rfl, rfl, fun _ => .inl⟩

theorem nodeRead_plain {a : Addr} : Plain c (c.nodeRead m a).client := by
  refine Plain.issue ?_ (repairNode_onRev (c := c) (a := a))
  unfold nodeRead
  dsimp only
  split
  · exact ⟨rfl, rfl, rfl, fun _ => .inl⟩
  · exact checkHeader_plain

theorem scan_plain {a : Addr} : Plain c (c.scan a) := by
  unfold scan
  split
  · exact ⟨rfl, rfl, rfl, fun _ => .inl⟩
  · split
    · exact ⟨rfl, rfl, rfl, fun _ => .inl⟩
    · cases c.isSearch <;> exact ⟨rfl, rfl, rfl, fun _ => .inl⟩

theorem emptyScan_plain {i : ℕ} : Plain c (c.emptyScan i) := by
  unfold emptyScan
  split
  · exact ⟨rfl, rfl, rfl, fun _ => .inl⟩
  · split <;> exact ⟨rfl, rfl, rfl, fun _ => .inl⟩

theorem splitRev_plain {sp : Split} {nodes : List Addr} :
    Plain c (c.splitRev m sp nodes).client := by
  unfold splitRev
  dsimp only
  cases sp.hdrIdx <;> refine Plain.issue (c := c) ⟨rfl, rfl, rfl, fun _ => .inl⟩ ?_ <;>
    cases c.p <;> simp [RemoteOp.OnRev]

theorem splitRev_leafOwned (m : Mem n) (c : Client n) (sp : Split) (nodes : List Addr) :
    (c.splitRev m sp nodes).client.leafOwned = none := by
  unfold splitRev
  dsimp only
  cases sp.hdrIdx <;> rfl

theorem splitRev_knows {sp : Split} {nodes : List Addr}
    (h : Cacheable L m c sp nodes ∧ ∀ i, sp.hdrIdx = some i → HdrDue L m c i) :
    (c.splitRev m sp nodes).client.Knows L m ∧
      ∀ q ∈ (c.splitRev m sp nodes).added, LogOk L m q := by
  constructor
  · unfold splitRev
    dsimp only
    cases hi : sp.hdrIdx with
    | none => trivial
    | some i => exact (h.2 i hi).congr ⟨rfl, rfl, rfl, rfl, rfl, rfl⟩
  · intro q hq
    obtain ⟨x, hx, hq⟩ := List.mem_flatMap.mp hq
    cases hp : c.pages sp nodes with
    | none => simp [hp] at hx
    | some pages => exact h.1 pages hp x (by simpa [hp] using hx) q hq

theorem leafPrepare_knows (ht : TreeInv L m) {site : Site} {v : Option Value}
    (h : SiteOk L m c site) : (c.leafPrepare site v).Knows L m := by
  have hb : ∃ b, c.siteByte site = some b := by
    cases h with
    | @null σ hσ _ =>
      have := hσ.key.length_le
      exact ⟨_, getPartial_eq (by rw [hσ.depth]; simpa using this)⟩
    | empty hi => exact ⟨_, hi.getPartial ht⟩
    | behind hi => exact ⟨_, hi.getPartial ht⟩
  obtain ⟨b, hb⟩ := hb
  unfold leafPrepare
  dsimp only
  split
  · rename_i hn
    rw [hb] at hn
    cases hn
  · exact h.congr ⟨rfl, rfl, rfl, rfl, rfl, rfl⟩
  · exact h.congr ⟨rfl, rfl, rfl, rfl, rfl, rfl⟩

theorem nodeRead_eq {a : Addr} : c.nodeRead m a =
    { mem := m, client := (c.nodeRead m a).client, added := (c.nodeRead m a).added } := by
  unfold nodeRead
  dsimp only
  split <;> rfl

end Client

/-- The header split that is issued last moves the header down to where the node hangs. -/
theorem splitHdr_outcome (ht : TreeInv L m) (h : Local L m c) {i : ℕ} (hpc : c.pc = .splitHdr i) :
    Outcome L m c { mem := m, client := c.splitHdr i } := by
  have hk := h.knows
  simp only [Client.Knows, hpc] at hk
  obtain ⟨a, π, ⟨⟨b, t, hp⟩, ha, hh, hlt⟩, hat⟩ := hk
  have hta : c.target = a := by simp [Client.target, hp]
  refine .quiet ht h trivial (fun op hop => ?_) rfl (.inr rfl) rfl (by simp [hpc]) (by simp)
  rcases List.mem_append.mp hop with hop | hop
  · exact h.ops op hop
  · obtain rfl := List.mem_singleton.mp hop
    have hend := hh.end_eq
    refine ⟨π, hta ▸ ha, ⟨by simp [Header.splitHeader], ?_, ?_⟩, hta ▸ hat⟩
    · simp only [Header.splitHeader]; omega
    · have := hh.pos
      simp only [Header.splitHeader, hh.partials, List.drop_drop]
      congr 1
      omega

/-- The blocks in hand are published, or none are left, once an operation is being wound up. -/
theorem Switch.down_leaf {w : Switch} : Client.leafOwned { c with pc := w.down m } = none := by
  unfold Switch.down
  split
  · split <;> rfl
  · rfl

theorem Switch.down_nodes {w : Switch} : Client.nodesOwned { c with pc := w.down m } = [] := by
  unfold Switch.down
  split
  · split <;> rfl
  · rfl

theorem Switch.close_leaf {w : Switch} : Client.leafOwned { c with pc := w.close } = none := by
  unfold Switch.close
  dsimp only
  cases w.hdrDone <;> simp only [Bool.false_eq_true, if_true, if_false] <;> split <;> rfl

theorem Switch.close_nodes {w : Switch} : Client.nodesOwned { c with pc := w.close } = [] := by
  unfold Switch.close
  dsimp only
  cases w.hdrDone <;> simp only [Bool.false_eq_true, if_true, if_false] <;> split <;> rfl

theorem Outcome.plain (ht : TreeInv L m) (h : Local L m c) (hp : c.Plain c')
    {added : List (List UInt8 × CacheEntry)} {ret : Option (Key n)} (hk : c'.Knows L m)
    (hown : c.leafOwned = c.leafAddr ∨ c'.leafOwned = none)
    (hpc : ∀ sp nodes u, c.pc ≠ .splitWrite sp nodes u) (hlog : ∀ q ∈ added, LogOk L m q) :
    Outcome L m c { mem := m, client := c', added := added, returned := ret } := by
  refine .quiet ht h hk (fun op hop => ?_) hp.key ?_ hp.nodes hpc hlog
  · rcases hp.ops op hop with hop | hop
    · exact h.ops op hop
    · exact hop.opOk
  · rcases hown with ho | ho
    · exact Client.leafOwned_step ho hp.leafAddr
    · exact .inr ho

/-- Whatever a client does, the tree stays in order and the client knows what it needs next. -/
theorem step_outcome (ht : TreeInv L m) (h : Local L m c) {ch : Choice n} {mv : Move n}
    (hs : Step crc m c ch mv) : Outcome L m c mv := by
  have hk := h.knows
  cases hs with
  | readRoot hpc =>
    simp only [Client.Knows, hpc] at hk
    refine .plain ht h ?_ (Client.readRoot_knows ht hk) (.inl (by simp [Client.leafOwned, hpc]))
      (by simp [hpc]) (by simp)
    cases c.isSearch && m.root.isNull <;> exact ⟨rfl, rfl, rfl, fun _ => .inl⟩
  | next hpc =>
    simp only [Client.Knows, hpc] at hk
    exact .plain ht h Client.next_plain (Client.next_knows hk)
      (.inl (by simp [Client.leafOwned, hpc])) (by simp [hpc]) (by simp)
  | leafRead hpc =>
    simp only [Client.Knows, hpc] at hk
    exact .plain ht h Client.leafRead_plain (Client.leafRead_knows hk)
      (.inl (by simp [Client.leafOwned, hpc])) (by simp [hpc]) (by simp)
  | leafWord hpc hw =>
    simp only [Client.Knows, hpc] at hk
    refine .plain ht h ?_ ?_ (.inl (by simp [Client.leafOwned, hpc])) (by simp [hpc]) (by simp)
    · exact ⟨rfl, rfl, rfl, fun _ => .inl⟩
    · exact Client.leafWord_knows ht hk hw
  | reread hpc =>
    simp only [Client.Knows, hpc] at hk
    refine .plain ht h ?_ ?_ (.inl (by simp [Client.leafOwned, hpc])) (by simp [hpc]) (by simp)
    · exact ⟨rfl, rfl, rfl, fun _ => .inl⟩
    · exact Client.reread_knows ht hk
  | gotLeaf hpc =>
    simp only [Client.Knows, hpc] at hk
    exact .plain ht h Client.gotLeaf_plain (Client.gotLeaf_knows hk)
      (.inl (by simp [Client.leafOwned, hpc])) (by simp [hpc]) (by simp)
  | combineUpdate hpc =>
    simp only [Client.Knows, hpc] at hk
    split
    · refine .plain ht h ?_ ?_ (.inr rfl) (by simp [hpc]) (by simp)
      · exact ⟨rfl, rfl, rfl, fun _ => .inl⟩
      · exact trivial
    · refine .plain ht h ?_ ?_ (.inl (by simp [Client.leafOwned, hpc])) (by simp [hpc]) (by simp)
      · exact ⟨rfl, rfl, rfl, fun _ => .inl⟩
      · exact hk
  | lockBusy hpc =>
    refine .plain ht h ?_ ?_ (.inl (by simp [Client.leafOwned, hpc])) (by simp [hpc]) (by simp)
    · exact ⟨rfl, rfl, by simp [Client.nodesOwned, hpc], fun _ => .inl⟩
    · exact hk
  | lockTaken hpc => exact lockTaken_outcome ht h hpc
  | writeFault hpc hne =>
    simp only [Client.Knows, hpc] at hk
    exact absurd hk.1 hne
  | combineWrite hpc hkey =>
    simp only [Client.Knows, hpc] at hk
    obtain ⟨h1, b, l, hp, hl, hb⟩ := hk
    refine .plain ht h ?_ ?_ (.inl (by simp [Client.leafOwned, hpc])) (by simp [hpc]) (by simp)
    · exact ⟨rfl, rfl, rfl, fun _ => .inl⟩
    · exact ⟨h1, b, l, hp, hl, hb.key, hb.valid⟩
  | written hpc =>
    refine .plain ht h ?_ ?_ (.inr rfl) (by simp [hpc]) (by simp)
    · exact ⟨rfl, rfl, rfl, fun _ => .inl⟩
    · exact trivial
  | writeWord hpc => exact writeWord_outcome ht h hpc
  | leafPrepare hpc =>
    simp only [Client.Knows, hpc] at hk
    exact .plain ht h Client.leafPrepare_plain (Client.leafPrepare_knows ht hk)
      (.inl (by simp [Client.leafOwned, hpc])) (by simp [hpc]) (by simp)
  | leafWrite hpc _ ha => exact leafWrite_outcome ht h hpc ha
  | leafCasDone hpc _ hb hl hn => exact leafCasDone_outcome ht h hpc hb hl hn
  | leafCasFailed hpc _ hb _ hn =>
    simp only [Client.Knows, hpc] at hk
    exact .plain ht h Client.leafCasFailed_plain (Client.leafCasFailed_knows ht hk hb hn)
      (.inl (by simp [Client.leafOwned, hpc])) (by simp [hpc]) (by simp)
  | splitReuse hpc hl hlen hnd hfree => exact splitReuse_outcome ht h hpc hl hlen hnd hfree
  | splitFresh hpc hlen hnd hfree => exact splitFresh_outcome ht h hpc hlen hnd hfree
  | splitFault hpc hp =>
    simp only [Client.Knows, hpc] at hk
    obtain ⟨hn, σ, hsp⟩ := hk
    obtain ⟨pages, hpg, -⟩ := hsp.pages hn
    rw [hp] at hpg
    cases hpg
  | splitWrite hpc _ hp => exact splitWrite_outcome ht h hpc hp
  | splitCasDone hpc _ hp => exact splitCasDone_outcome ht h hpc hp
  | splitCasFailed hpc => exact splitCasFailed_outcome ht h hpc
  | splitRev hpc =>
    simp only [Client.Knows, hpc] at hk
    obtain ⟨hk', hlog⟩ := Client.splitRev_knows hk
    exact .plain ht h Client.splitRev_plain hk' (.inr (Client.splitRev_leafOwned ..)) (by simp [hpc])
      hlog
  | splitHdr hpc => exact splitHdr_outcome ht h hpc
  | typeRead hpc =>
    simp only [Client.Knows, hpc] at hk
    exact .plain ht h Client.typeRead_plain (Client.typeRead_knows hk)
      (.inl (by simp [Client.leafOwned, hpc])) (by simp [hpc]) (by simp)
  | nodeWord hpc hw =>
    simp only [Client.Knows, hpc] at hk
    refine .plain ht h ?_ ?_ (.inl (by simp [Client.leafOwned, hpc])) (by simp [hpc]) (by simp)
    · exact ⟨rfl, rfl, rfl, fun _ => .inl⟩
    · exact Client.nodeWord_knows ht hk hw
  | restRead hpc =>
    simp only [Client.Knows, hpc] at hk
    refine .plain ht h ?_ ?_ (.inl (by simp [Client.leafOwned, hpc])) (by simp [hpc]) (by simp)
    · exact ⟨rfl, rfl, rfl, fun _ => .inl⟩
    · exact Client.restRead_knows hk
  | restWord hpc hw =>
    simp only [Client.Knows, hpc] at hk
    refine .plain ht h ?_ ?_ (.inl (by simp [Client.leafOwned, hpc])) (by simp [hpc]) (by simp)
    · exact ⟨rfl, rfl, rfl, fun _ => .inl⟩
    · exact Client.restWord_knows ht hk hw
  | nodeRead hpc =>
    simp only [Client.Knows, hpc] at hk
    obtain ⟨hk', hlog⟩ := Client.nodeRead_knows ht hk
    rw [Client.nodeRead_eq]
    exact .plain ht h Client.nodeRead_plain hk' (.inl (by simp [Client.leafOwned, hpc]))
      (by simp [hpc]) hlog
  | scan hpc =>
    simp only [Client.Knows, hpc] at hk
    obtain ⟨a, π, hn⟩ := hk
    exact .plain ht h Client.scan_plain (hn.target ▸ Client.scan_knows ht hn)
      (.inl (by simp [Client.leafOwned, hpc])) (by simp [hpc]) (by simp)
  | emptyScan hpc =>
    simp only [Client.Knows, hpc] at hk
    obtain ⟨a, π, hn, hm, htr⟩ := hk
    exact .plain ht h Client.emptyScan_plain (Client.emptyScan_knows ht hn hm htr)
      (.inl (by simp [Client.leafOwned, hpc])) (by simp [hpc]) (by simp)
  | switchEntry hpc => exact switchEntry_outcome ht h hpc
  | switchHdr hpc => exact switchHdr_outcome ht h hpc
  | switchDown hpc =>
    simp only [Client.Knows, hpc] at hk
    refine .plain ht h ?_ ?_ (.inr Switch.down_leaf) (by simp [hpc]) (by simp)
    · exact ⟨rfl, rfl, Switch.down_nodes, fun _ => .inl⟩
    · exact switchDown_knows ht hk
  | switchEnd hpc =>
    simp only [Client.Knows, hpc] at hk
    refine .plain ht h ?_ ?_ (.inr Switch.close_leaf) (by simp [hpc]) (by simp)
    · exact ⟨rfl, rfl, Switch.close_nodes, fun _ => .inl⟩
    · exact switchEnd_knows hk
  | finish hpc =>
    refine .plain ht h ?_ ?_ (.inr rfl) (by simp [hpc]) (by simp)
    · exact ⟨rfl, rfl, rfl, fun _ => .inl⟩
    · exact trivial
  | flush hq => exact flush_outcome ht h hq

/-- What a client knows when its operation begins, from the root or from a cached page. -/
theorem Begins.local {log : List (List UInt8 × CacheEntry)} {hit : Option ℕ}
    (hb : Begins log c hit c') (hlog : ∀ q ∈ log, LogOk L m q) (hleaf : c.leafAddr = none)
    (hops : ∀ op ∈ c.pending, OpOk L m op) : Local L m c' := by
  cases hb with
  | root =>
    exact ⟨rfl, by simp [Client.LeafKept, Client.leafOwned, hleaf], hops,
      by simp [Client.owned, Client.leafOwned, Client.nodesOwned, hleaf],
      by simp [Client.owned, Client.leafOwned, Client.nodesOwned, hleaf]⟩
  | @hit j path ce i e hq hp hlen hi he hbyte =>
    refine ⟨?_, by simp [Client.LeafKept, Client.leafOwned, hleaf], hops,
      by simp [Client.owned, Client.leafOwned, Client.nodesOwned, hleaf],
      by simp [Client.owned, Client.leafOwned, Client.nodesOwned, hleaf]⟩
    have hl := hlog _ (List.mem_of_getElem? hq)
    obtain ⟨h1, h2, h3⟩ := hl.slot i e hi he
    refine ⟨path ++ [e.partialKey], ?_, ?_, ?_, h3, fun hn => absurd hn he, fun _ => h1⟩
    · rw [← h2]
      exact .slot hl.layout h1
    · simpa using hl.depth
    · rw [hbyte]
      exact Key.append_byte_prefix hp hlen

namespace World
variable {ι : Type*}

structure Safe (s : World ι n) : Prop where
  tree : TreeInv s.layout s.mem
  client : ∀ i, Local s.layout s.mem (s.client i)
  log : ∀ q ∈ s.log, LogOk s.layout s.mem q
  apart : ∀ i j, i ≠ j → ∀ a ∈ (s.client i).owned, a ∉ (s.client j).owned

theorem Initial.safe {s : World ι n} (h : Initial s) : Safe s where
  tree := by
    refine ⟨fun a ha => absurd (h.layout a) ha, h.root ▸ .null, ?_, ?_, ?_, ?_,
      fun a ha => absurd (h.layout a) ha, fun a i _ _ => h.slots a i⟩
    · exact fun a π ha => by simp [h.layout] at ha
    · exact fun a π ha => by simp [h.layout] at ha
    · exact fun l hl => by simp [h.layout] at hl
    · intro p q σ τ a hp hq hpa _
      cases hp with
      | root => simp [Mem.load, h.root] at hpa
      | slot ha => simp [h.layout] at ha
  client i := by
    have hpc := h.idle i
    exact ⟨by simp [Client.Knows, hpc], by simp [Client.LeafKept, Client.leafOwned, hpc],
      by simp [h.pending], by simp [Client.owned, Client.leafOwned, Client.nodesOwned, hpc],
      by simp [Client.owned, Client.leafOwned, Client.nodesOwned, hpc]⟩
  log := by simp [h.log]
  apart i j _ a ha := by
    simp [Client.owned, Client.leafOwned, Client.nodesOwned, h.idle i] at ha

variable [DecidableEq ι]

theorem Safe.put {s : World ι n} {i : ι} {mv : Move n} (h : Safe s)
    (ho : Outcome s.layout s.mem (s.client i) mv) : Safe (s.put i mv) where
  tree := ho.tree
  client j := by
    by_cases hj : j = i
    · subst hj
      rw [put_client_self]
      exact ho.client
    · rw [put_client_ne _ _ hj]
      refine (h.client j).mono ho.ext fun a ha => ?_
      obtain ⟨h1, h2⟩ := (h.client j).fresh a ha
      exact ho.frame a h1 h2 (h.apart j i hj a ha)
  log q hq := by
    rcases List.mem_append.mp hq with hq | hq
    · exact (h.log q hq).mono ho.ext
    · exact ho.log q hq
  apart j k hjk a hj hk := by
    -- a block is new to the client that moved, or was its own before
    have hnew : ∀ x, x ≠ i → a ∈ mv.client.owned → a ∉ (s.client x).owned := by
      intro x hx ha hax
      rcases ho.owned a ha with ha | ha
      · exact h.apart i x (Ne.symm hx) a ha hax
      · rw [((h.client x).fresh a hax).2] at ha
        cases ha
    by_cases hji : j = i
    · subst hji
      rw [put_client_self] at hj
      rw [put_client_ne _ _ (Ne.symm hjk)] at hk
      exact hnew k (Ne.symm hjk) hj hk
    · rw [put_client_ne _ _ hji] at hj
      by_cases hki : k = i
      · subst hki
        rw [put_client_self] at hk
        exact hnew j hji hk hj
      · rw [put_client_ne _ _ hki] at hk
        exact h.apart j k hjk a hj hk

variable [Fintype ι]

omit [DecidableEq ι] in
theorem Safe.start {s : World ι n} (h : Safe s) {i : ι} {isSearch isLoad : Bool} {k : Key n}
    {v : Value} {hit : Option ℕ} (hb : Begins s.log (s.opening i isSearch k v isLoad) hit c') :
    Outcome s.layout s.mem (s.client i) { mem := s.mem, client := c' } := by
  have hl : Local s.layout s.mem c' := hb.local h.log rfl (h.client i).ops
  have howned : c'.owned = [] := by
    cases hb <;> simp [Client.owned, Client.leafOwned, Client.nodesOwned, opening]
  refine ⟨h.tree, .refl _ _, hl, by simp, fun a ha _ _ => ⟨.refl _ a, ha⟩, ?_⟩
  simp [howned]

theorem Safe.takes {s t : World ι n} {a : ι × Choice n} (h : Safe s) (ht : Takes crc s a t) :
    Safe t ∧ Extends s.layout s.mem t.layout t.mem := by
  cases ht with
  | start hpc hb => exact ⟨h.put (h.start hb), .refl _ _⟩
  | step hs =>
    have ho := step_outcome h.tree (h.client _) hs
    exact ⟨h.put ho, ho.ext⟩

theorem safe_of_reachable {s : World ι n} (h : (treeSystem ι crc).Reachable s) : Safe s :=
  h.invariant (P := Safe) (fun _ hi => Initial.safe hi)
    fun _ _ _ _ ih _ hn => (ih.takes (next_takes hn)).1

end World
end SmartTree
