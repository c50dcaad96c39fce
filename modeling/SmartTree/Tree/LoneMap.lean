import SmartTree.Lib.Refine
import SmartTree.Tree.Filed
import SmartTree.Tree.MapWrite
import SmartTree.Tree.Script
import SmartTree.Tree.SessionStep

/-! One client refines a sequential map: whatever it inserts, searches, scans and migrates, from
the root or from any page in its index cache, every search returns what the map holds. -/
namespace SmartTree
open Transition MapMachine
variable {n : ℕ} {L : Layout} {m : Mem n} {c : Client n} {x : MapState (Key n) Value}
  {crc : Key n → Value → UInt64}

/-- What a step shows of the operations: calls, values combined into an insert, returns. -/
def Client.mapEvent (c : Client n) : Choice n → Option (MapEvent (Key n) Value)
  | .begin isSearch k v isLoad _ => some (.call (if isSearch then .search k else .insert isLoad k v))
  | .combine v | .split v _ => v.map .merge
  | .go =>
    match c.pc with
    | .finish r => some (.ret (if c.isSearch && r then some c.value else none))
    | _ => none
  | _ => none

def Pc.counted : Pc → Bool
  | .splitRev _ _ | .splitHdr _ | .switchEntry _ | .switchHdr _ | .switchDown _ | .switchEnd _ => true
  | _ => false

namespace Client

theorem counted_eq (hpc : c.pc.counted = true) (hs : c.isSearch = false) :
    c.op = some c.call ∧ c.effect x.content = put x.content c.isLoad c.key c.value ∧
      c.pc.writing = false ∧ c.Replies x.content := by
  unfold op effect Replies
  cases hc : c.pc <;> simp_all [Pc.counted, Pc.writing]

namespace Mapped

theorem tidy (h : c.Mapped L m x) {m' : Mem n} {pc : Pc} {ops : List RemoteOp}
    (hc : c.pc.counted = true) (hc' : pc.counted = true ∨ pc = .finish true)
    (hp : ∀ l, m'.pair l = m.pair l) : Mapped L m' { c with pending := ops, pc := pc } x := by
  have hr := h.replies
  have hs : c.isSearch = false := by
    unfold Replies at hr
    cases hpc : c.pc <;> simp_all [Pc.counted]
  obtain ⟨hop, he, hw, -⟩ := counted_eq (x := x) hc hs
  obtain hc' | rfl := hc'
  · obtain ⟨hop', he', hw', hr'⟩ :=
      counted_eq (c := { c with pending := ops, pc := pc }) (x := x) hc' hs
    exact h.moved (hop'.trans hop.symm) (he'.trans he.symm) hw hw' (fun l _ => hp l) hr'
  · exact h.moved (by rw [hop]; rfl) (by rw [he]; simp [effect, hs]) hw rfl (fun l _ => hp l)
      (by simp [Replies, hs])

theorem finish (h : c.Mapped L m x) {r : Bool} (hpc : c.pc = .finish r) :
    ∃ y, (machine (Key n) Value).run x (c.mapEvent .go).toList = some y ∧
      Mapped L m { c with pc := .idle } y := by
  have hr := h.replies
  have hc := h.content
  have hop := h.running
  simp only [Replies, hpc] at hr
  simp only [effect, hpc] at hc
  simp only [op, hpc, call] at hop
  obtain ⟨M, running⟩ := x
  obtain rfl := hop
  have hrep : ∀ {M'}, Represents L (c.settle m) M' → Represents L (settle m { c with pc := .idle }) M' :=
    fun hM => hM.congr fun l _ => by rw [settle_pair rfl, settle_pair (by simp [hpc, Pc.writing])]
  cases hs : c.isSearch with
  | true =>
    have hM : M c.key = if r then some c.value else none := hr hs
    simp only [hs, if_true] at hc
    refine ⟨⟨M, none⟩, ?_, rfl, hrep hc, trivial⟩
    simp [mapEvent, hpc, hs, System.run, machine, MapMachine.next, hM]
  | false =>
    simp only [hs, Bool.false_eq_true, if_false] at hc
    refine ⟨⟨put M c.isLoad c.key c.value, none⟩, ?_, rfl, hrep hc, trivial⟩
    simp [mapEvent, hpc, hs, System.run, machine, MapMachine.next]

end Mapped
end Client

theorem step_mapped (ht : TreeInv L m) (hl : Local L m c) (ha : Alone crc L m c)
    (h : c.Mapped L m x) {ch : Choice n} {mv : Move n} (hs : Step crc m c ch mv) :
    ∃ y, (machine (Key n) Value).run x (c.mapEvent ch).toList = some y ∧
      mv.client.Mapped (L.publish mv.published) mv.mem y := by
  have hout := step_outcome ht hl hs
  have hk := hl.knows
  have hsees := ha.sees
  have hr := h.replies
  -- a step without an event leaves the map where it is
  have quiet : ∀ {ch : Choice n} {L' : Layout} {m' : Mem n} {c' : Client n},
      c.mapEvent ch = none → c'.Mapped L' m' x →
      ∃ y, (machine (Key n) Value).run x (c.mapEvent ch).toList = some y ∧ c'.Mapped L' m' y := by
    intro ch L' m' c' he hm
    rw [he]
    exact ⟨x, rfl, hm⟩
  cases hs with
  | readRoot hpc => exact quiet (by simp [Client.mapEvent, hpc]) (h.readRoot ht hpc)
  | next hpc =>
    simp only [Client.Knows, hpc] at hk
    exact quiet (by simp [Client.mapEvent, hpc]) (h.next ht ha hk hpc)
  | leafRead hpc =>
    refine quiet (by simp [Client.mapEvent, hpc]) (h.read (by simp [hpc, Pc.reading]) ?_ rfl)
    unfold Client.leafRead
    split
    · rfl
    · split <;> rfl
  | leafWord hpc | reread hpc | nodeWord hpc | restRead hpc | restWord hpc =>
    exact quiet (by simp [Client.mapEvent, hpc]) (h.read (by simp [hpc, Pc.reading]) rfl rfl)
  | typeRead hpc =>
    refine quiet (by simp [Client.mapEvent, hpc]) (h.read (by simp [hpc, Pc.reading]) ?_ rfl)
    unfold Client.typeRead
    split <;> rfl
  | gotLeaf hpc =>
    simp only [Client.Knows, hpc] at hk
    exact quiet (by simp [Client.mapEvent, hpc]) (h.gotLeaf ht ha hk hpc)
  | combineUpdate hpc =>
    simp only [Client.Knows, hpc] at hk
    exact h.combineUpdate hk ha hpc
  | lockBusy hpc => exact quiet (by simp [Client.mapEvent, hpc]) h
  | lockTaken hpc =>
    simp only [Client.Replies, hpc] at hr
    refine quiet (by simp [Client.mapEvent, hpc]) (h.moved (by simp [Client.op, hpc]; rfl)
      (by simp [Client.effect, hpc]) (by simp [hpc, Pc.writing]) rfl (fun l _ => ?_) hr)
    rw [Mem.pair_setLeaf rfl]
    split
    · rename_i he
      rw [he]; rfl
    · rfl
  | writeFault hpc hne =>
    simp only [Client.Knows, hpc] at hk
    exact absurd hk.1 hne
  | combineWrite hpc =>
    simp only [Client.Knows, hpc] at hk
    exact h.combineWrite hk ht ha hpc
  | written hpc => exact quiet (by simp [Client.mapEvent, hpc]) (h.written hpc)
  | writeWord hpc hq => exact quiet (by simp [Client.mapEvent, hpc]) (h.writeWord hpc hq)
  | @leafPrepare site v hpc =>
    simp only [Client.Replies, hpc] at hr
    simp only [Client.Sees, hpc] at hsees
    have hk' := hout.client.knows
    cases hb : c.siteByte site with
    | none => simp [Client.leafPrepare, hb, Client.Knows] at hk'
    | some b =>
      have he : c.leafPrepare site v = { c with value := v.getD c.value, pc := .leafWrite site } := by
        simp [Client.leafPrepare, hb, hsees.2.1]
      dsimp only
      rw [he]
      exact h.mergedBefore hr (by simp [hpc]) (by simp [hpc, Pc.writing])
        (by simp [Client.effect, hpc]) (by simp [Client.op, Client.call, hr]) rfl rfl
        (fun _ _ => rfl) hr
  | @leafWrite site a hpc _ hfree =>
    simp only [Client.Replies, hpc] at hr
    refine quiet rfl (h.moved (by simp [Client.op, hpc]; rfl) (by simp [Client.effect, hpc])
      (by simp [hpc, Pc.writing]) rfl (fun l hpub => ?_) hr)
    have hne : l ≠ a := by
      rintro rfl
      exact absurd (ht.live l (by simp [hpub])) (by simp [hfree])
    rw [Mem.pair, Mem.setLeaf_ne _ _ hne]
    rfl
  | leafCasDone hpc _ hb hla _ =>
    exact quiet (by simp [Client.mapEvent, hpc]) (h.leafCasDone hl ha hpc hla hout)
  | leafCasFailed hpc _ _ _ hn =>
    simp only [Client.Sees, hpc] at hsees
    exact absurd hsees.2.1.1 hn
  | splitReuse hpc hla =>
    simp only [Client.Sees, hpc] at hsees
    cases hla.symm.trans hsees.2.1
  | splitFresh hpc =>
    simp only [Client.Replies, hpc] at hr
    exact h.mergedBefore hr (by simp [hpc]) (by simp [hpc, Pc.writing])
      (by simp [Client.effect, hpc]) (by simp [Client.op, Client.call, hr]) rfl rfl
      (fun _ _ => rfl) hr
  | splitFault hpc => exact hout.client.knows.elim
  | @splitWrite sp nodes unwrite pages hpc =>
    simp only [Client.Replies, hpc] at hr
    refine quiet (by simp [Client.mapEvent, hpc]) (h.moved (by simp [Client.op, hpc]; rfl)
      (by simp [Client.effect, hpc]) (by simp [hpc, Pc.writing]) rfl (fun l hpub => ?_) hr)
    have hw : (m.writePages pages).pair l = m.pair l := by simp [Mem.pair]
    simp only [Client.Knows, hpc] at hk
    obtain ⟨a, hla⟩ := hk.1.leaf
    have hfresh := (hl.fresh a (by simp [Client.owned, Client.leafOwned, hpc, hla])).1
    have hne : l ≠ a := by
      rintro rfl
      rw [hfresh] at hpub
      cases hpub
    split
    · rw [hla, Option.getD_some, ← hw]
      simp [Mem.pair, Mem.setLeaf_ne _ _ hne]
    · exact hw
  | splitCasDone hpc _ hp =>
    exact quiet (by simp [Client.mapEvent, hpc]) (h.splitCasDone hl ha hpc hp hout)
  | splitCasFailed hpc _ hp =>
    simp only [Client.Sees, hpc] at hsees
    exact absurd hsees.1.load hp
  | @splitRev sp nodes hpc =>
    refine quiet (by simp [Client.mapEvent, hpc]) (h.tidy (by simp [hpc, Pc.counted]) ?_ fun _ => rfl)
    cases sp.hdrIdx with
    | none => exact .inr rfl
    | some i => exact .inl rfl
  | splitHdr hpc =>
    exact quiet (by simp [Client.mapEvent, hpc])
      (h.tidy (by simp [hpc, Pc.counted]) (.inr rfl) fun _ => rfl)
  | nodeRead hpc =>
    rw [Client.nodeRead_eq]
    exact quiet (by simp [Client.mapEvent, hpc]) (h.nodeRead ht ha hl hpc)
  | scan hpc =>
    simp only [Client.Knows, hpc] at hk
    exact quiet (by simp [Client.mapEvent, hpc]) (h.scan ht ha hk hpc)
  | @emptyScan i hpc =>
    simp only [Client.Replies, hpc] at hr
    refine quiet (by simp [Client.mapEvent, hpc]) ?_
    unfold Client.emptyScan
    split
    · exact h.moved (by simp [Client.op, hpc]; rfl) (by simp [Client.effect, hpc])
        (by simp [hpc, Pc.writing]) rfl (fun _ _ => rfl) hr
    · split
      · exact h.moved (by simp [Client.op, hpc]; rfl) (by simp [Client.effect, hpc])
          (by simp [hpc, Pc.writing]) rfl (fun _ _ => rfl) trivial
      · exact h.moved (by simp [Client.op, hpc]; rfl) (by simp [Client.effect, hpc])
          (by simp [hpc, Pc.writing]) rfl (fun _ _ => rfl) hr
  | @switchEntry w hpc =>
    refine quiet (by simp [Client.mapEvent, hpc])
      (h.tidy (by simp [hpc, Pc.counted]) (.inl rfl) fun l => ?_)
    unfold Switch.casEntry
    dsimp only
    split
    · rfl
    · dsimp only
      split
      · simp [Mem.pair]
      · rfl
  | @switchHdr w hpc =>
    refine quiet (by simp [Client.mapEvent, hpc])
      (h.tidy (by simp [hpc, Pc.counted]) (.inl ?_) fun l => ?_)
    · unfold Switch.afterCas
      split <;> rfl
    · unfold Switch.casHdr
      split <;> rfl
  | switchDown hpc => simp only [Client.Sees, hpc] at hsees
  | @switchEnd w hpc =>
    simp only [Client.Sees, hpc] at hsees
    have hclose : w.close = .finish true := by simp [Switch.close, hsees.1, hsees.2]
    exact quiet (by simp [Client.mapEvent, hpc])
      (h.tidy (by simp [hpc, Pc.counted]) (.inr hclose) fun _ => rfl)
  | @finish r hpc => exact h.finish hpc
  | @flush op ops hq =>
    refine quiet rfl (h.same rfl rfl (fun l _ => ?_) hr)
    unfold Client.settle Client.dueOps
    rw [hq]
    rfl

theorem begins_mapped {log : List (List UInt8 × CacheEntry)} {hit : Option ℕ} {c₀ c' : Client n}
    (h : c₀.Mapped L m x) (hpc : c₀.pc = .idle) (hb : Begins log c hit c') :
    ∃ y, (machine (Key n) Value).run x [.call c.call] = some y ∧ c'.Mapped L m y := by
  obtain ⟨M, running⟩ := x
  obtain rfl : running = none := h.running.trans (by simp [Client.op, hpc])
  have hrep := h.before (by simp [hpc, Pc.writing]) (by simp [Client.effect, hpc])
  have hset : c'.pc.reading = true ∧ c'.call = c.call := by cases hb <;> exact ⟨rfl, rfl⟩
  refine ⟨⟨M, some c.call⟩, rfl, ?_, ?_, Client.replies_reading hset.1⟩
  · rw [Client.op_reading hset.1, hset.2]
  · rw [Client.effect_reading hset.1]
    exact hrep.congr fun l _ => Client.settle_pair (Client.writing_of_reading hset.1) l

namespace Session
variable {s : Session n}

def mapEvent (s : Session n) : Request n → Option (MapEvent (Key n) Value)
  | .tree ch => s.client.mapEvent ch
  | _ => none

structure Refined (crc : Key n → Value → UInt64) (s : Session n) (x : MapState (Key n) Value) :
    Prop where
  good : Good crc s
  mapped : s.client.Mapped s.world.layout s.mem x

theorem Refined.next (h : Refined crc s x) {ch : Choice n} {w : World Unit n}
    (hn : s.world.next crc ((), ch) = some w) :
    ∃ y, (machine (Key n) Value).run x (s.client.mapEvent ch).toList = some y ∧
      (w.client ()).Mapped w.layout w.mem y := by
  cases World.next_takes hn with
  | start hpc hb =>
    rw [World.put_client_self]
    exact begins_mapped (c := s.world.opening () _ _ _ _) h.mapped hpc hb
  | step hst =>
    rw [World.put_client_self]
    exact step_mapped h.good.safe.tree (h.good.safe.client ()) h.good.alone h.mapped hst

theorem Refined.issue (h : Refined crc s x) (hp : s.task ≠ .point) (ops : List RemoteOp)
    (calls : List (AddCall n)) (task : Task n) :
    (s.issue ops calls task).client.Mapped s.world.layout s.mem x := by
  have hpc : s.client.pc = .idle := by
    have ht := h.good.task
    unfold TaskOk at ht
    cases htask : s.task <;> simp only [htask] at ht
    case point => exact absurd htask hp
    all_goals exact ht.1
  change ((s.world.put () _).client ()).Mapped _ _ _
  rw [World.put_client_self]
  exact h.mapped.moved rfl rfl (by simp [hpc, Pc.writing]) (by simp [hpc, Pc.writing])
    (fun _ _ => rfl) h.mapped.replies

theorem refines_map : (sessionSystem n crc).Refines (machine (Key n) Value) mapEvent (Refined crc) where
  init s hi := by
    refine ⟨_, rfl, good_of_reachable (.init hi), ?_⟩
    have hpc := hi.1.idle ()
    refine ⟨by simp [Client.op, hpc], ?_, by simp [Client.Replies, hpc]⟩
    intro k v
    simp [Client.effect, hpc, hi.1.layout]
  step s a t x h hn := by
    obtain ⟨y, hy, hm⟩ : ∃ y, (machine (Key n) Value).run x (s.mapEvent a).toList = some y ∧
        t.client.Mapped t.world.layout t.mem y := by
      cases next_turn hn with
      | tree hw => exact h.next hw
      | rangeQuery | migrate => exact ⟨x, rfl, h.mapped⟩
      | go hp => exact ⟨x, rfl, h.issue hp _ _ _⟩
    obtain ⟨⟨calls, t'⟩, he, rfl⟩ := Option.map_eq_some_iff.mp hn
    exact ⟨y, hy, (h.good.effect he).1, hm⟩

/-- What one client sees of its inserts and searches, with range queries and migrations in
between, is what a sequential map would show; no assert fails but that of a search in an empty
tree, and between two operations the leaves of the tree are the pairs of the map. -/
theorem sequential_map {p : Session n × List (MapEvent (Key n) Value)}
    (h : ((sessionSystem n crc).logged mapEvent).Reachable p) :
    ∃ x, (machine (Key n) Value).run ⟨fun _ => none, none⟩ p.2.reverse = some x ∧
      p.1.client.pc ≠ .fault ∧ (p.1.client.pc = .noTree → ∀ k, x.content k = none) ∧
      (p.1.client.pc = .idle → ∀ k v, x.content k = some v ↔
        ∃ σ b l, Spells p.1.mem σ (.leaf b l) ∧ p.1.mem.pair l = (k, v)) := by
  obtain ⟨_, x, rfl, hr, hg, hm⟩ := refines_map.shown h
  refine ⟨x, hr, fun hpc => ?_, fun hpc => ?_, fun hpc k v => ?_⟩
  · have := (hg.safe.client ()).knows
    simp [Client.Knows, hpc] at this
  · have := hm.replies
    simp only [Client.Replies, hpc] at this
    exact this.2
  · refine (hm.before (by simp [hpc, Pc.writing]) (by simp [Client.effect, hpc]) k v).trans ?_
    constructor
    · rintro ⟨l, hl, hp⟩
      obtain ⟨q, σ, hq, hql⟩ := hg.safe.tree.parent l (by simp [hl])
      obtain ⟨b, hb⟩ := hg.safe.tree.load_leaf hq hql hl
      exact ⟨σ, b, l, hb ▸ hg.safe.tree.spells_of_slot hq, hp⟩
    · rintro ⟨σ, b, l, hsp, hp⟩
      obtain ⟨q, hq, hql⟩ := hg.safe.tree.slot_of_spells hsp
      exact ⟨l, hg.safe.tree.leaf_of_load hq hql, hp⟩

/-- Two inserts, a range query over both, an update, a search from a cached page and one for a
key that is not there. -/
def tour : List (Request 8) :=
  let k := int2key 8 0x0102
  let call (isSearch : Bool) (k : Key 8) (v : Value) (hit : Option ℕ) :
      List (Unit × (Choice 8 ⊕ ℕ)) :=
    [((), .inl (.begin isSearch k v false hit)), ((), .inr 100)]
  let before := World.script (fun _ _ => 0) (call false k 1 none ++
    call false (int2key 8 0x0103) 2 none) (.empty Unit 8)
  let world := ((treeSystem Unit fun _ _ => 0).run (.empty Unit 8) before).getD (.empty Unit 8)
  let after := World.script (fun _ _ => 0) (call false k 7 none ++ call true k 0 (some 0) ++
    call true (int2key 8 0x0203) 0 none) world
  before.map (fun a => .tree a.2) ++
    [.rangeQuery (int2key 8 0x0100) (int2key 8 0x0200) (fun _ => none) none, .go zeroPages,
      .go zeroPages, .go zeroPages, .go zeroPages, .go zeroPages] ++
    after.map fun a => .tree a.2

theorem sequential_tour : ∃ p x, ((sessionSystem 8 fun _ _ => 0).logged mapEvent).run
      (empty 8, []) tour = some p ∧
    p.2.take 3 = [.ret none, .call (.search (int2key 8 0x0203)), .ret (some 7)] ∧
    (machine (Key 8) Value).run ⟨fun _ => none, none⟩ p.2.reverse = some x := by
  obtain ⟨p, hp, he⟩ : ((sessionSystem 8 fun _ _ => 0).logged mapEvent).Ends (empty 8, []) tour
      fun p => p.2.take 3 = [.ret none, .call (.search (int2key 8 0x0203)), .ret (some 7)] := by
    decide +kernel
  obtain ⟨x, hx, -⟩ := sequential_map
    (System.Reachable.run (s := (empty 8, [])) (.init ⟨⟨World.empty_initial, rfl⟩, rfl⟩) hp)
  exact ⟨p, x, hp, he, hx⟩

end Session
end SmartTree
