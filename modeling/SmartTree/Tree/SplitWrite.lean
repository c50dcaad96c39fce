import SmartTree.Dsm.WriteBatches
import SmartTree.Tree.Resolve

/-! `out_of_place_write_node` up to its compare-and-swap: the chain as it gets into memory. A header
counts its depth in a byte, and all regions of the chain that lie on one memory node are written in
one batch. -/
namespace SmartTree
variable {n : ℕ}

/-- The page as it is stored: `depth` of a header is a `uint8_t`. -/
def Page.stored (pg : Page) : Page := { pg with hdr := { pg.hdr with depth := pg.hdr.depth % 256 } }

/-- What a split finds besides the tree: where blocks lie, its buffers, the coroutine it runs as and
the queues of its thread. -/
structure SplitEnv extends Placement Addr where
  remoteInfo : ℕ → RemoteInfo
  cq : CompletionQueue
  turns : ℕ → SendQueues
  stale : Bool
  ctx : Option ℕ
  queues : SendQueues
  pageBuffer : ℕ → BitVec 64
  leafBuffer : BitVec 64

namespace SplitEnv

/-- The regions of the batch: the pages, and the leaf unless it was written before. -/
def regions (env : SplitEnv) (n : ℕ) (nodes : List Addr) (l : Addr) (leafUnwrite : Bool) :
    List RdmaOpRegion :=
  (nodes.mapIdx fun i a =>
    { source := env.pageBuffer i, dest := env.locate a,
      size := .ofNat 64 (8 + 8 + NodeType.node4.num * 8), isOnChip := false }) ++
  if leafUnwrite then
    [{ source := env.leafBuffer, dest := env.locate l, size := .ofNat 64 (8 + 1 + 8 + n + 8 + 1),
       isOnChip := false }]
  else []

/-- `out_of_place_write_node` on these allocated blocks, with `fuel` polls to go: the pages it has
written when it comes to the compare-and-swap. -/
def outOfPlaceWriteNode (env : SplitEnv) (fuel : ℕ) (k : Key n) (depth : ℕ) (l : Addr)
    (leafUnwrite : Bool) (partialLen : ℕ) (diff : UInt8) (ePtr : Ptr) (old : Entry)
    (nodes : List Addr) : Option (List (Addr × Page)) := do
  let pages ← splitPages k diff old l nodes partialLen depth ePtr
  match writeBatchesSync env.remoteInfo env.cq env.turns env.stale fuel env.ctx env.queues
      (env.regions n nodes l leafUnwrite) with
  | .ok _ => return pages.map fun q => (q.1, q.2.stored)
  | .error _ => none

end SplitEnv

/-- The depth of the last header of the chain fits into its byte, and no memory node gets more
regions than a batch holds and, without a coroutine, its send queue has room for. -/
structure SplitFits (env : SplitEnv) (depth partialLen : ℕ) (nodes : List Addr) (l : Addr)
    (leafUnwrite : Bool) : Prop where
  depth : depth + (hPartialLenMax + 1) * (partialLen / (hPartialLenMax + 1)) < 256
  room : ∀ j, ((nodes ++ if leafUnwrite then [l] else []).filter (env.home · = j)).length ≤
      kWriteOroMax ∧ (env.ctx = none →
    ((nodes ++ if leafUnwrite then [l] else []).filter (env.home · = j)).length ≤ env.queues.room j)

section write
variable (env : SplitEnv) {nodes : List Addr} {l : Addr} {leafUnwrite : Bool}

theorem SplitEnv.regions_filter (n j : ℕ) :
    ((env.regions n nodes l leafUnwrite).filter (·.node = j)).length =
      ((nodes ++ if leafUnwrite then [l] else []).filter (env.home · = j)).length := by
  have hmap : (env.regions n nodes l leafUnwrite).map RdmaOpRegion.node =
      (nodes ++ if leafUnwrite then [l] else []).map env.home := by
    rw [SplitEnv.regions, List.map_append, List.map_append]
    refine congrArg₂ _ (List.ext_getElem (by simp) fun i h1 h2 => ?_) ?_
    · simp [RdmaOpRegion.node, Placement.home]
    · cases leafUnwrite <;> rfl
  have := congrArg (fun l => (l.filter (· = j)).length) hmap
  simpa only [List.filter_map, List.length_map, Function.comp_def] using this

theorem SplitEnv.takes_iff : env.queues.TakesWrites env.ctx (env.regions n nodes l leafUnwrite) ↔
    ∀ j, ((nodes ++ if leafUnwrite then [l] else []).filter (env.home · = j)).length ≤
        kWriteOroMax ∧ (env.ctx = none →
      ((nodes ++ if leafUnwrite then [l] else []).filter (env.home · = j)).length ≤
        env.queues.room j) := by
  simp only [← env.regions_filter n]
  constructor
  · intro h j
    exact ⟨length_filter_node_le (b := fun _ => kWriteOroMax) (fun r hr => (h r hr).2.1) j,
      fun hc => length_filter_node_le (fun r hr => (h r hr).2.2 hc) j⟩
  · refine fun h r hr => ⟨?_, (h r.node).1, (h r.node).2⟩
    obtain hr | hr := List.mem_append.mp hr
    · obtain ⟨i, hi, rfl⟩ := List.mem_mapIdx.mp hr
      exact env.located _
    · cases leafUnwrite with
      | false => cases hr
      | true =>
        obtain rfl := List.mem_singleton.mp hr
        exact env.located _

end write

/-- The depths in a stored chain go on iff all of them fit into a byte. -/
theorem ChainDepths.stored_iff {pages : List (Addr × Page)} {d : ℕ} (h : ChainDepths d pages) :
    ChainDepths d (pages.map fun q => (q.1, q.2.stored)) ↔ ∀ q ∈ pages, q.2.hdr.depth < 256 := by
  induction pages generalizing d with
  | nil => simp [ChainDepths]
  | cons q rest ih =>
    obtain ⟨hd, hrest⟩ := h
    rw [List.map_cons, ChainDepths, List.forall_mem_cons]
    refine and_congr ?_ (ih hrest)
    have hst : (q.1, q.2.stored).2.hdr.depth = d % 256 := congrArg (· % 256) hd
    rw [hst, hd]
    omega

theorem map_stored_eq {pages : List (Addr × Page)} (h : ∀ q ∈ pages, q.2.hdr.depth < 256) :
    (pages.map fun q => (q.1, q.2.stored)) = pages := by
  refine (List.map_congr_left fun q hq => ?_).trans (List.map_id pages)
  simp [Page.stored, Nat.mod_eq_of_lt (h q hq)]

section resolves
variable (env : SplitEnv) {k : Key n} {diff : UInt8} {old : Entry} {depth len : ℕ} {nodes : List Addr}

/-- The chain a split leaves in memory resolves both sides iff the split fits. -/
theorem SplitEnv.resolves_iff (hturns : env.ctx.isSome → ∀ j, kWriteOroMax ≤ env.queues.room j ∧
      ∀ i, kWriteOroMax ≤ (env.turns i).room j) (hn : depth + len ≤ n) (hold : old ≠ .null)
    (hdiff : diff ≠ k.byte (depth + len))
    (hnum : nodes.length = len / (hPartialLenMax + 1) + 1) (hnd : nodes.Nodup) (l : Addr)
    (leafUnwrite : Bool) (ptr : Ptr) (oldSide : Key n → Prop) (hside : ∀ x, oldSide x →
      (∀ i < len, x.byte (depth + i) = k.byte (depth + i)) ∧ x.byte (depth + len) = diff) :
    (∃ fuel₀, ∀ fuel ≥ fuel₀, ∃ pages,
      env.outOfPlaceWriteNode fuel k depth l leafUnwrite len diff ptr old nodes = some pages ∧
        SplitResolves k depth len diff old l nodes ptr oldSide pages) ↔
      SplitFits env depth len nodes l leafUnwrite := by
  obtain ⟨pages, hp, hres, hdepth⟩ :=
    splitPages_resolves hn hold hdiff hnum hnd l ptr oldSide hside
  simp only [SplitEnv.outOfPlaceWriteNode, hp, Option.bind_eq_bind, Option.bind_some]
  constructor
  · rintro ⟨fuel, h⟩
    obtain ⟨pages', hw, hres'⟩ := h fuel le_rfl
    cases hok : writeBatchesSync env.remoteInfo env.cq env.turns env.stale fuel env.ctx env.queues
        (env.regions n nodes l leafUnwrite) with
    | error e => simp [hok] at hw
    | ok st =>
      obtain rfl : (pages.map fun q => (q.1, q.2.stored)) = pages' := by simpa [hok] using hw
      exact ⟨(hdepth 256).mp (hres.depths.stored_iff.mp hres'.depths),
        env.takes_iff.mp (takesWrites_of_ok _ _ _ _ _ hok)⟩
  · rintro ⟨hbyte, hroom⟩
    obtain ⟨fuel₀, hok⟩ := writeBatchesSync_ok env.remoteInfo env.ctx env.turns env.cq env.stale
      (env.takes_iff.mpr hroom) hturns
    refine ⟨fuel₀, fun fuel hfuel => ?_⟩
    obtain ⟨st, hst, -⟩ := hok fuel hfuel
    rw [hst]
    exact ⟨pages, congrArg some (map_stored_eq ((hdepth 256).mpr hbyte)), hres⟩

/-- A split, of a leaf with another key or of a node whose header differs from the key, leaves the
chain of its common bytes in memory, by which the descent finds both sides again, if and only if it
fits. -/
theorem split_resolves_iff (k : Key n) (depth : ℕ) {old : Entry} (hold : old ≠ .null) (l : Addr)
    (leafUnwrite : Bool) {nodes : List Addr} (hnd : nodes.Nodup) (ptr : Ptr)
    (hturns : env.ctx.isSome → ∀ j, kWriteOroMax ≤ env.queues.room j ∧
      ∀ i, kWriteOroMax ≤ (env.turns i).room j) :
    (∀ k' len, k' ≠ k → (∀ p, 1 ≤ p → p < depth → k'.byte p = k.byte p) →
      longestCommonPrefix k' k depth = some len →
      nodes.length = len / (hPartialLenMax + 1) + 1 →
      ∃ diff, getPartial k' (depth + len) = some diff ∧
        ((∃ fuel₀, ∀ fuel ≥ fuel₀, ∃ pages,
          env.outOfPlaceWriteNode fuel k depth l leafUnwrite len diff ptr old nodes = some pages ∧
            SplitResolves k depth len diff old l nodes ptr
              (fun x => ∀ p, 1 ≤ p → p ≤ depth + len → x.byte p = k'.byte p) pages) ↔
          SplitFits env depth len nodes l leafUnwrite)) ∧
    ∀ (hdr : Header) i len, hdr.firstDiff k = some (some i) → depth + len = hdr.depth + i →
      nodes.length = len / (hPartialLenMax + 1) + 1 →
      ∃ diff, hdr.partials[i]? = some diff ∧
        ((∃ fuel₀, ∀ fuel ≥ fuel₀, ∃ pages,
          env.outOfPlaceWriteNode fuel k depth l leafUnwrite len diff ptr old nodes = some pages ∧
            SplitResolves k depth len diff old l nodes ptr
              (fun x => ∀ p, depth ≤ p → p ≤ depth + len →
                (∀ j, p = hdr.depth + j → hdr.partials[j]? = some (x.byte p)) ∧
                (p < hdr.depth → x.byte p = k.byte p)) pages) ↔
          SplitFits env depth len nodes l leafUnwrite) := by
  refine ⟨fun k' len hne hagree hlen hnum => ?_, fun hdr i len hi hlen hnum => ?_⟩
  · have hzero : ∀ x : Key n, x.byte 0 = 0 := fun x => rfl
    obtain ⟨hn, h1, h2⟩ := longestCommonPrefix_bytes hne (fun p hp => by
      cases p with
      | zero => rw [hzero, hzero]
      | succ p => exact hagree _ (by omega) hp) hlen
    refine ⟨_, getPartial_eq hn, env.resolves_iff hturns hn hold h2 hnum hnd l leafUnwrite ptr _
      fun x hx => ?_⟩
    have hx' : ∀ p ≤ depth + len, x.byte p = k'.byte p := fun p hp => by
      cases p with
      | zero => rw [hzero, hzero]
      | succ p => exact hx _ (by omega) hp
    exact ⟨fun i hi => (hx' _ (by omega)).trans (h1 i hi), hx' _ le_rfl⟩
  · obtain ⟨hn, ⟨b, hb, hne⟩, hbefore⟩ := diffLoop_some hi
    have hdiff : b ≠ k.byte (depth + len) := by rw [hlen]; exact hne.symm
    refine ⟨b, hb, env.resolves_iff hturns (by omega) hold hdiff hnum hnd l leafUnwrite ptr _
      fun x hx => ⟨fun i' hi' => ?_, ?_⟩⟩
    · obtain ⟨hin, habove⟩ := hx (depth + i') (by omega) (by omega)
      by_cases hp : depth + i' < hdr.depth
      · exact habove hp
      · have hj : depth + i' = hdr.depth + (depth + i' - hdr.depth) := by omega
        have e1 := hin _ hj
        have e2 := hbefore (depth + i' - hdr.depth) (by omega)
        rw [e1, ← hj] at e2
        exact Option.some.inj e2
    · obtain ⟨hin, -⟩ := hx (depth + len) (by omega) le_rfl
      have e1 := hin i hlen
      rw [hb] at e1
      exact (Option.some.inj e1).symm

end resolves

/-- A thread without coroutines, with all blocks on the first memory node. -/
def oneNode : SplitEnv where
  toPlacement := .first
  remoteInfo _ := ⟨0, 0, 0, 0⟩
  cq := .prompt
  turns _ := .idle
  stale := false
  ctx := none
  queues := .idle
  pageBuffer _ := 0
  leafBuffer := 0

/-- Seven common bytes take a chain of two pages, linked by the seventh byte. -/
theorem two_pages_resolve :
    longestCommonPrefix (⟨[1, 2, 3, 4, 5, 6, 7, 9], rfl⟩ : Key 8) ⟨[1, 2, 3, 4, 5, 6, 7, 8], rfl⟩ 1 =
      some 7 ∧ SplitFits oneNode 1 7 [10, 20] 50 true ∧
    ∃ diff, getPartial (⟨[1, 2, 3, 4, 5, 6, 7, 9], rfl⟩ : Key 8) (1 + 7) = some diff ∧
      ((∃ fuel₀, ∀ fuel ≥ fuel₀, ∃ pages,
        oneNode.outOfPlaceWriteNode fuel (⟨[1, 2, 3, 4, 5, 6, 7, 8], rfl⟩ : Key 8) 1 50 true 7 diff
          .root (.leaf 1 40) [10, 20] = some pages ∧
        SplitResolves (⟨[1, 2, 3, 4, 5, 6, 7, 8], rfl⟩ : Key 8) 1 7 diff (.leaf 1 40) 50 [10, 20] .root
          (fun x => ∀ p, 1 ≤ p → p ≤ 1 + 7 →
            x.byte p = (⟨[1, 2, 3, 4, 5, 6, 7, 9], rfl⟩ : Key 8).byte p) pages) ↔
        SplitFits oneNode 1 7 [10, 20] 50 true) := by
  refine ⟨by decide, ⟨by decide, fun j => ?_⟩, (split_resolves_iff oneNode _ 1 (by decide) 50 true
    (by decide) .root (by simp [oneNode])).1 _ 7 (by decide) (fun p h1 h2 => by omega) (by decide) rfl⟩
  have hle : (([10, 20] ++ if true then [50] else []).filter (oneNode.home · = j)).length ≤ 3 :=
    List.length_filter_le _ _
  exact ⟨hle.trans (by decide), fun _ => hle.trans (show 3 ≤ kQPMaxDepth - 0 by decide)⟩

/-- Two keys of 162 bytes that differ in the last: with the leaf the chain is 25 regions, one more
than a batch holds. -/
theorem long_chain_overruns :
    longestCommonPrefix (⟨.replicate 162 0, rfl⟩ : Key 162) ⟨.replicate 161 0 ++ [1], rfl⟩ 1 = some 161 ∧
    (List.range 24).Nodup ∧ (List.range 24).length = 161 / (hPartialLenMax + 1) + 1 ∧
    ∀ fuel, oneNode.outOfPlaceWriteNode fuel (⟨.replicate 161 0 ++ [1], rfl⟩ : Key 162) 1 24 true 161 0
      .root (.leaf 0 25) (.range 24) = none := by
  refine ⟨by decide +kernel, by decide, by decide, fun fuel => ?_⟩
  rw [SplitEnv.outOfPlaceWriteNode]
  cases hok : writeBatchesSync oneNode.remoteInfo oneNode.cq oneNode.turns oneNode.stale fuel
      oneNode.ctx oneNode.queues (oneNode.regions 162 (.range 24) 24 true) with
  | error e => simp
  | ok st =>
    have hroom := (oneNode.takes_iff.mp (takesWrites_of_ok _ _ _ _ _ hok) 0).1
    exact absurd hroom (by decide)

/-- At depth 257 the header says 1, and the key does not get past it. -/
example : let k : Key 258 := ⟨1 :: .replicate 256 2 ++ [3], by decide +kernel⟩
    let m : Mem 258 := ⟨.null, fun _ => ⟨.root, ⟨0, .deleted, []⟩, fun _ => .null⟩,
      fun _ => ⟨.root, true, 0, k, 0, false⟩, fun _ => true⟩
    (oneNode.outOfPlaceWriteNode 2 k 257 1 true 1 4 .root (.leaf 2 9) [0]).map (fun pages =>
      (pages.map (·.2.hdr.depth), ((m.writePages pages).descend k
        ⟨.root, .node 2 .node4 0, 257, false⟩).isSome)) = some ([1], false) := by
  decide +kernel

end SmartTree
