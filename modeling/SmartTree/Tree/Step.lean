import SmartTree.Tree.Machine

/-! What one step of a client can do: one constructor for each program point. -/
namespace SmartTree
open Transition
variable {n : ℕ} {crc : Key n → Value → UInt64}

inductive Step (crc : Key n → Value → UInt64) (m : Mem n) (c : Client n) : Choice n → Move n → Prop
  | readRoot (hpc : c.pc = .readRoot) (hq : c.pending = []) :
    Step crc m c .go { mem := m, client := { c with
      pPtr := .root, p := m.root, depth := 1
      pc := if c.isSearch && m.root.isNull then .noTree else .next } }
  | next (hpc : c.pc = .next) : Step crc m c .go { mem := m, client := c.next }
  | leafRead (hpc : c.pc = .readLeaf []) :
    Step crc m c .go { mem := m, client := c.leafRead crc c.target }
  | leafWord {todo j w} (hpc : c.pc = .readLeaf todo) (hw : todo[j]? = some w)
      (hq : c.pending = []) :
    Step crc m c (.word j) { mem := m, client := { c with
      leaf := (m.leaf c.target).copy w c.leaf, pc := .readLeaf (todo.eraseIdx j) } }
  | reread (hpc : c.pc = .reread) (hq : c.pending = []) :
    Step crc m c .go { mem := m, client := { c with
      p := m.load c.pPtr, fromCache := false, pc := .next } }
  | gotLeaf (hpc : c.pc = .gotLeaf) : Step crc m c .go { mem := m, client := c.gotLeaf }
  | combineUpdate {v} (hpc : c.pc = .combineUpdate) :
    Step crc m c (.combine v) { mem := m, client := { c with
      value := v.getD c.value
      pc := if c.leaf.value = v.getD c.value then .finish true else .acquireLock } }
  | lockBusy (hpc : c.pc = .acquireLock) (hq : c.pending = [])
      (hl : (m.leaf c.target).lock = true) :
    Step crc m c .go { mem := m, client := c }
  | lockTaken (hpc : c.pc = .acquireLock) (hq : c.pending = [])
      (hl : (m.leaf c.target).lock = false) :
    Step crc m c .go { mem := m.setLeaf c.target fun l => { l with lock := true }
                       client := { c with pc := .combineWrite } }
  | writeFault {v} (hpc : c.pc = .combineWrite) (hk : c.leaf.key ≠ c.key) :
    Step crc m c (.combine v) { mem := m, client := { c with pc := .fault } }
  | combineWrite {v} (hpc : c.pc = .combineWrite) (hk : c.leaf.key = c.key) :
    Step crc m c (.combine v) { mem := m, client := { c with
      value := v.getD c.value
      leaf := { c.leaf with
        value := v.getD c.value, checksum := crc c.leaf.key (v.getD c.value), lock := false }
      pc := .writeBack leafWords } }
  | written (hpc : c.pc = .writeBack []) :
    Step crc m c .go { mem := m, client := { c with pc := .finish true } }
  | writeWord {w todo} (hpc : c.pc = .writeBack (w :: todo)) (hq : c.pending = []) :
    Step crc m c .go { mem := m.setLeaf c.target (c.leaf.copy w)
                       client := { c with pc := .writeBack todo } }
  | leafPrepare {site v} (hpc : c.pc = .leafPrepare site) :
    Step crc m c (.combine v) { mem := m, client := c.leafPrepare site v }
  | leafWrite {site a} (hpc : c.pc = .leafWrite site) (hq : c.pending = [])
      (ha : m.live a = false) :
    Step crc m c (.alloc a)
      { mem := (m.alloc [a]).setLeaf a fun _ => .make crc c.key c.value (c.sitePtr c.target site)
        client := { c with leafAddr := some a, pc := .leafCas site } }
  | leafCasDone {site b l} (hpc : c.pc = .leafCas site) (hq : c.pending = [])
      (hb : c.siteByte site = some b) (hl : c.leafAddr = some l)
      (hn : m.load (c.sitePtr c.target site) = .null) :
    Step crc m c .go
      { mem := m.store (.leaf b l) (c.sitePtr c.target site)
        client := c.leafCasDone c.target site, published := [(l, .leaf)] }
  | leafCasFailed {site b l} (hpc : c.pc = .leafCas site) (hq : c.pending = [])
      (hb : c.siteByte site = some b) (hl : c.leafAddr = some l)
      (hn : m.load (c.sitePtr c.target site) ≠ .null) :
    Step crc m c .go
      { mem := m
        client := c.leafCasFailed c.target (m.load (c.sitePtr c.target site)) b site }
  | splitReuse {sp nodes l} (hpc : c.pc = .splitPrepare sp) (hl : c.leafAddr = some l)
      (hlen : nodes.length = sp.partialLen / (hPartialLenMax + 1) + 1) (hnd : nodes.Nodup)
      (hfree : ∀ a ∈ nodes, m.live a = false) :
    Step crc m c (.split none nodes)
      { mem := m.alloc nodes
        client := { c with
          pending := c.pending ++ [.writeRev l (.slot (nodes.getLastD 0) 1)]
          pc := .splitWrite sp nodes false } }
  | splitFresh {sp nodes l v} (hpc : c.pc = .splitPrepare sp)
      (hlen : nodes.length = sp.partialLen / (hPartialLenMax + 1) + 1) (hnd : (l :: nodes).Nodup)
      (hfree : ∀ a ∈ l :: nodes, m.live a = false) :
    Step crc m c (.split v (l :: nodes))
      { mem := m.alloc (l :: nodes)
        client := { c with
          value := v.getD c.value, leafAddr := some l, pc := .splitWrite sp nodes true } }
  | splitFault {sp nodes unwrite} (hpc : c.pc = .splitWrite sp nodes unwrite)
      (hp : c.pages sp nodes = none) :
    Step crc m c .go { mem := m, client := { c with pc := .fault } }
  | splitWrite {sp nodes unwrite pages} (hpc : c.pc = .splitWrite sp nodes unwrite)
      (hq : c.pending = []) (hp : c.pages sp nodes = some pages) :
    Step crc m c .go
      { mem := if unwrite then (m.writePages pages).setLeaf (c.leafAddr.getD 0) fun _ =>
          .make crc c.key c.value (.slot (nodes.getLastD 0) 1) else m.writePages pages
        client := { c with pc := .splitCas sp nodes } }
  | splitCasDone {sp nodes} (hpc : c.pc = .splitCas sp nodes) (hq : c.pending = [])
      (hp : m.load c.pPtr = c.p) :
    Step crc m c .go
      { mem := m.store (.node c.p.partialKey .node4 (nodes.headD 0)) c.pPtr
        client := { c with pc := .splitRev sp nodes }
        published := (c.leafAddr.getD 0, .leaf) ::
          ((c.pages sp nodes).getD []).map fun q => (q.1, .node (cachePath c.key q.2.hdr)) }
  | splitCasFailed {sp nodes} (hpc : c.pc = .splitCas sp nodes) (hq : c.pending = [])
      (hp : m.load c.pPtr ≠ c.p) :
    Step crc m c .go { mem := m.free nodes, client := { c with p := m.load c.pPtr, pc := .next } }
  | splitRev {sp nodes} (hpc : c.pc = .splitRev sp nodes) :
    Step crc m c .go (c.splitRev m sp nodes)
  | splitHdr {i} (hpc : c.pc = .splitHdr i) :
    Step crc m c .go { mem := m, client := c.splitHdr i }
  | typeRead (hpc : c.pc = .readNode []) : Step crc m c .go { mem := m, client := c.typeRead }
  | nodeWord {todo j w} (hpc : c.pc = .readNode todo) (hw : todo[j]? = some w)
      (hq : c.pending = []) :
    Step crc m c (.word j) { mem := m, client := { c with
      page := (m.node c.target).copy w c.page, pc := .readNode (todo.eraseIdx j) } }
  | restRead (hpc : c.pc = .readRest []) :
    Step crc m c .go { mem := m, client := { c with pc := .nodeRead } }
  | restWord {todo j w} (hpc : c.pc = .readRest todo) (hw : todo[j]? = some w)
      (hq : c.pending = []) :
    Step crc m c (.word j) { mem := m, client := { c with
      page := (m.node c.target).copy w c.page, pc := .readRest (todo.eraseIdx j) } }
  | nodeRead (hpc : c.pc = .nodeRead) : Step crc m c .go (c.nodeRead m c.target)
  | scan (hpc : c.pc = .scan) : Step crc m c .go { mem := m, client := c.scan c.target }
  | emptyScan {i} (hpc : c.pc = .emptyScan i) :
    Step crc m c .go { mem := m, client := c.emptyScan i }
  | switchEntry {w} (hpc : c.pc = .switchEntry w) (hq : c.pending = []) :
    Step crc m c .go
      { mem := (w.casEntry m).1, client := { c with pc := .switchHdr (w.casEntry m).2 } }
  | switchHdr {w} (hpc : c.pc = .switchHdr w) (hq : c.pending = []) :
    Step crc m c .go
      { mem := (w.casHdr m).1, client := { c with pc := (w.casHdr m).2.afterCas } }
  | switchDown {w} (hpc : c.pc = .switchDown w) (hq : c.pending = []) :
    Step crc m c .go { mem := m, client := { c with pc := w.down m } }
  | switchEnd {w} (hpc : c.pc = .switchEnd w) :
    Step crc m c .go { mem := m, client := { c with pc := w.close } }
  | finish {r} (hpc : c.pc = .finish r) :
    Step crc m c .go { mem := m, client := { c with pc := .idle }
                       returned := if c.isSearch then none else some c.key }
  | flush {op ops} (hq : c.pending = op :: ops) :
    Step crc m c .flush { mem := m.perform op, client := { c with pending := ops } }

theorem Client.await_eq {c : Client n} {mv mv' : Move n} :
    c.await mv = some mv' ↔ c.pending = [] ∧ mv = mv' := by
  simp [Client.await]

theorem Client.pick_eq {α : Type} {todo : List α} {j : ℕ} {q : α × List α} :
    Client.pick todo j = some q ↔ ∃ w, todo[j]? = some w ∧ q = (w, todo.eraseIdx j) := by
  simp [Client.pick, eq_comm]

theorem act_splitPrepare {m : Mem n} {c : Client n} {sp : Split} {v : Option Value}
    {as : List Addr} {mv : Move n} (hpc : c.pc = .splitPrepare sp)
    (h : c.splitPrepare m sp v as = some mv) : Step crc m c (.split v as) mv := by
  unfold Client.splitPrepare at h
  split at h
  · rename_i hf
    split at h
    · dsimp only at h
      split at h
      · cases h
        exact .splitReuse hpc ‹_› ‹_› hf.1 hf.2
      · cases h
    · dsimp only at h
      split at h
      · cases h
        exact .splitFresh hpc ‹_› hf.1 hf.2
      · cases h
    · cases h
  · cases h

theorem act_step {m : Mem n} {c : Client n} {ch : Choice n} {mv : Move n}
    (h : c.act crc m ch = some mv) : Step crc m c ch mv := by
  unfold Client.act at h
  split at h
  case h_1 hpc => obtain ⟨hq, rfl⟩ := Client.await_eq.mp h; exact .readRoot hpc hq
  case h_2 hpc => cases h; exact .next hpc
  case h_3 hpc => cases h; exact .leafRead hpc
  case h_4 hpc =>
    obtain ⟨q, hp, h⟩ := Option.bind_eq_some_iff.mp h
    obtain ⟨hq, rfl⟩ := Client.await_eq.mp h
    obtain ⟨w, hw, rfl⟩ := Client.pick_eq.mp hp
    exact .leafWord hpc hw hq
  case h_5 hpc => obtain ⟨hq, rfl⟩ := Client.await_eq.mp h; exact .reread hpc hq
  case h_6 hpc => cases h; exact .gotLeaf hpc
  case h_7 hpc => cases h; exact .combineUpdate hpc
  case h_8 hpc =>
    obtain ⟨hq, rfl⟩ := Client.await_eq.mp h
    split
    · exact .lockBusy hpc hq ‹_›
    · exact .lockTaken hpc hq (Bool.not_eq_true _ ▸ ‹_›)
  case h_9 hpc =>
    cases h
    by_cases hk : c.leaf.key = c.key
    · simpa [hk] using (Step.combineWrite hpc hk : Step crc m c _ _)
    · simpa [hk] using (Step.writeFault hpc hk : Step crc m c _ _)
  case h_10 hpc => cases h; exact .written hpc
  case h_11 hpc => obtain ⟨hq, rfl⟩ := Client.await_eq.mp h; exact .writeWord hpc hq
  case h_12 hpc => cases h; exact .leafPrepare hpc
  case h_13 hpc =>
    split at h
    · cases h
    · obtain ⟨hq, rfl⟩ := Client.await_eq.mp h
      exact .leafWrite hpc hq (Bool.not_eq_true _ ▸ ‹_›)
  case h_14 hpc =>
    unfold Client.leafCas at h
    split at h
    · obtain ⟨hq, rfl⟩ := Client.await_eq.mp h
      split
      · exact .leafCasDone hpc hq ‹_› ‹_› ‹_›
      · exact .leafCasFailed hpc hq ‹_› ‹_› ‹_›
    · cases h
  case h_15 hpc => exact act_splitPrepare hpc h
  case h_16 hpc =>
    unfold Client.splitWrite at h
    split at h
    · cases h; exact .splitFault hpc ‹_›
    · obtain ⟨hq, rfl⟩ := Client.await_eq.mp h; exact .splitWrite hpc hq ‹_›
  case h_17 hpc =>
    obtain ⟨hq, rfl⟩ := Client.await_eq.mp h
    split
    · exact .splitCasDone hpc hq ‹_›
    · exact .splitCasFailed hpc hq ‹_›
  case h_18 hpc => cases h; exact .splitRev hpc
  case h_19 hpc => cases h; exact .splitHdr hpc
  case h_20 hpc => cases h; exact .typeRead hpc
  case h_21 hpc =>
    obtain ⟨q, hp, h⟩ := Option.bind_eq_some_iff.mp h
    obtain ⟨hq, rfl⟩ := Client.await_eq.mp h
    obtain ⟨w, hw, rfl⟩ := Client.pick_eq.mp hp
    exact .nodeWord hpc hw hq
  case h_22 hpc => cases h; exact .restRead hpc
  case h_23 hpc =>
    obtain ⟨q, hp, h⟩ := Option.bind_eq_some_iff.mp h
    obtain ⟨hq, rfl⟩ := Client.await_eq.mp h
    obtain ⟨w, hw, rfl⟩ := Client.pick_eq.mp hp
    exact .restWord hpc hw hq
  case h_24 hpc => cases h; exact .nodeRead hpc
  case h_25 hpc => cases h; exact .scan hpc
  case h_26 hpc => cases h; exact .emptyScan hpc
  case h_27 hpc => obtain ⟨hq, rfl⟩ := Client.await_eq.mp h; exact .switchEntry hpc hq
  case h_28 hpc => obtain ⟨hq, rfl⟩ := Client.await_eq.mp h; exact .switchHdr hpc hq
  case h_29 hpc => obtain ⟨hq, rfl⟩ := Client.await_eq.mp h; exact .switchDown hpc hq
  case h_30 hpc => cases h; exact .switchEnd hpc
  case h_31 hpc => cases h; exact .finish hpc
  case h_32 =>
    split at h
    · cases h
    · cases h; exact .flush ‹_›
  case h_33 => cases h

inductive Begins (log : List (List UInt8 × CacheEntry)) (c : Client n) :
    Option ℕ → Client n → Prop
  | root : Begins log c none { c with fromCache := false, pc := .readRoot }
  | hit {j path ce i e} (hq : log[j]? = some (path, ce)) (hp : path <+: c.key.bytes)
      (hlen : path.length < n) (hi : ce.records[i]? = some e) (he : e ≠ .null)
      (hb : e.partialKey = c.key.byte (path.length + 1)) :
    Begins log c (some j) { c with
      pPtr := .slot ce.addr i, p := e, depth := ce.depth + 1, fromCache := true, pc := .next }

theorem start_begins {log : List (List UInt8 × CacheEntry)} {c c' : Client n} {hit : Option ℕ}
    (h : c.start log hit = some c') : Begins log c hit c' := by
  unfold Client.start at h
  split at h
  · cases h; exact .root
  · rename_i j
    obtain ⟨⟨path, ce⟩, hq, h⟩ := Option.bind_eq_some_iff.mp h
    split at h
    · rename_i hp
      obtain ⟨i, hi, rfl⟩ := Option.map_eq_some_iff.mp h
      obtain ⟨hlt, hm, -⟩ := List.findIdx?_eq_some_iff_getElem.mp hi
      have he : ce.records[i]? = some ce.records[i] := List.getElem?_eq_getElem hlt
      simp only [Bool.and_eq_true, Bool.not_eq_true', Entry.isNull, beq_eq_false_iff_ne,
        beq_iff_eq] at hm
      rw [List.getD_eq_getElem?_getD, he]
      exact .hit hq (List.isPrefixOf_iff_prefix.mp hp.1) hp.2 he hm.1 hm.2
    · cases h

namespace World
variable {ι : Type*} [DecidableEq ι]

@[simp] theorem put_mem (s : World ι n) (i : ι) (mv : Move n) : (s.put i mv).mem = mv.mem := rfl

@[simp] theorem put_client_self (s : World ι n) (i : ι) (mv : Move n) :
    (s.put i mv).client i = mv.client := Function.update_self ..

theorem put_client_ne (s : World ι n) {i j : ι} (mv : Move n) (h : j ≠ i) :
    (s.put i mv).client j = s.client j := Function.update_of_ne h ..

variable [Fintype ι]

def opening (s : World ι n) (i : ι) (isSearch : Bool) (k : Key n) (v : Value) (isLoad : Bool) :
    Client n :=
  { s.client i with
    isSearch, isLoad, key := k, value := v, leafAddr := none
    settled := decide s.Settled }

inductive Takes (crc : Key n → Value → UInt64) (s : World ι n) : ι × Choice n → World ι n → Prop
  | start {i isSearch k v isLoad hit c'} (hpc : (s.client i).pc = .idle)
      (hb : Begins s.log (s.opening i isSearch k v isLoad) hit c') :
    Takes crc s (i, .begin isSearch k v isLoad hit) (s.put i { mem := s.mem, client := c' })
  | step {i ch mv} (hs : Step crc s.mem (s.client i) ch mv) : Takes crc s (i, ch) (s.put i mv)

theorem next_takes {s t : World ι n} {a : ι × Choice n} (h : s.next crc a = some t) :
    Takes crc s a t := by
  obtain ⟨i, ch⟩ := a
  unfold next at h
  dsimp only at h
  split at h
  · obtain ⟨c', hc, rfl⟩ := Option.map_eq_some_iff.mp h
    exact .start ‹_› (start_begins hc)
  · cases h
  · obtain ⟨mv, hm, rfl⟩ := Option.map_eq_some_iff.mp h
    exact .step (act_step hm)

end World
end SmartTree
