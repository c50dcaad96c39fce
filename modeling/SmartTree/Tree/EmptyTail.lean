import SmartTree.Tree.NodeGrowth
import SmartTree.Tree.Store

/-! Published nodes have an empty tail. Whatever was written to a block before it was given back
went to its first 48 bytes, and nobody writes to a node that is not published behind them. -/
namespace SmartTree
open Transition

theorem Span.root_outside {x : BitVec 16 × ℕ} (hx : Span.root.Has x) {c : GlobalAddress}
    (hc : ChunkOk c) : x ∉ extent c kChunkSize := by
  rintro ⟨h1, h2, h3⟩
  obtain ⟨h4, h5, h6⟩ := hx
  have hal := hc.aligned
  refine hc.ne_null ?_
  have hoff : c.offset.toNat = 0 := by
    unfold kRootPointerStoreOffest kChunkSize at *
    omega
  obtain ⟨node, off⟩ := c
  exact congrArg₂ GlobalAddress.mk (h1.symm.trans h4) (BitVec.eq_of_toNat_eq hoff)

theorem footprint_ofNat {g : GlobalAddress} {size : ℕ} (h : size ≤ kChunkSize) :
    footprint (g, BitVec.ofNat 64 size) = extent g (up size) := by
  have hk : kChunkSize < 2 ^ 64 := by decide
  have hs : (BitVec.ofNat 64 size).toNat = size := by
    rw [BitVec.toNat_ofNat]
    exact Nat.mod_eq_of_lt (by omega)
  rw [footprint, toNat_roundUp_of_le (by rwa [hs]), hs]

theorem Span.has_footprint {a : Addr} {off len size : ℕ} {x : BitVec 16 × ℕ}
    (hx : (Span.block a off len).Has x) (hs : off + len ≤ size) (h : size ≤ kChunkSize) :
    x ∈ footprint (globalAddress a, BitVec.ofNat 64 size) := by
  rw [footprint_ofNat h]
  obtain ⟨h1, h2, h3⟩ := hx
  have := (up_spec size).1
  exact ⟨h1, by omega, by omega⟩

theorem Blocks.Holds.disjoint {τ : Type*} {nodeNum dirNum : ℕ} {s : Blocks τ nodeNum dirNum}
    (h : s.Inv) {t t' : τ} {a a' : Addr} {k k' : ℕ} (ha : s.Holds t a k) (ha' : s.Holds t' a' k')
    (hne : a ≠ a' ∨ BitVec.ofNat 64 k ≠ BitVec.ofNat 64 k') :
    Disjoint (footprint (globalAddress a, BitVec.ofNat 64 k))
      (footprint (globalAddress a', BitVec.ofNat 64 k')) := by
  have hb : (globalAddress a, BitVec.ofNat 64 k) ≠ (globalAddress a', BitVec.ofNat 64 k') := by
    intro he
    obtain ⟨h1, h2⟩ := Prod.mk.inj he
    obtain hne | hne := hne
    · exact hne (by rw [← ha.word, ← ha'.word, h1])
    · exact hne h2
  by_cases ht : t = t'
  · subst ht
    have : Std.Symm fun b c : GlobalAddress × BitVec 64 => Disjoint (footprint b) (footprint c) :=
      ⟨fun _ _ hd => hd.symm⟩
    exact (h.apart.own t).forall ha.live ha'.live hb
  · exact h.apart.other t t' ht _ ha.live _ ha'.live

namespace Store
variable {ι τ : Type*} {nodeNum dirNum : ℕ} {thread : ι → τ} {s s' : Store ι τ nodeNum dirNum}

def zeros (s : Store ι τ nodeNum dirNum) : Set (BitVec 16 × ℕ) := {x | s.byte x = 0}

def IsLeaf (s : Store ι τ nodeNum dirNum) (a : Addr) : Prop :=
  ∃ t, s.blocks.Holds t a (leafSize keyLen)

def IsNode (s : Store ι τ nodeNum dirNum) (a : Addr) : Prop :=
  ∃ t, s.blocks.Holds t a allocationPageSize

def tail (a : Addr) : Set (BitVec 16 × ℕ) :=
  behind pageSize (globalAddress a) (up (BitVec.ofNat 64 allocationPageSize).toNat)

structure Inv (thread : ι → τ) (s : Store ι τ nodeNum dirNum) : Prop where
  safe : s.world.Safe
  blocks : s.blocks.Inv
  clean : s.blocks.Clean s.zeros pageSize
  uses : ∀ i, (s.world.client i).Uses s.world.layout s.IsLeaf
  leaf : ∀ a, s.world.layout a = some .leaf → s.IsLeaf a
  node : ∀ a π, s.world.layout a = some (.node π) → s.IsNode a
  own : ∀ i, ∀ a ∈ (s.world.client i).nodesOwned,
    s.blocks.Holds (thread i) a allocationPageSize ∧ tail a ⊆ s.zeros
  live : ∀ a, s.world.mem.live a = true → s.IsLeaf a ∨ s.IsNode a

variable [DecidableEq ι]

structure Steps (thread : ι → τ) (s s' : Store ι τ nodeNum dirNum) (i : ι) (ch : Choice keyLen)
    (mv : Move keyLen) : Prop where
  moves : s.world.Moves i ch mv
  world : s'.world = s.world.put i mv
  inv : s'.blocks.Inv
  clean : s'.blocks.Clean s.zeros pageSize
  keeps : ∀ t a k, s.blocks.Holds t a k → (BitVec.ofNat 64 k = BitVec.ofNat 64 allocationPageSize →
    a ∉ (s.world.client i).reclaims s.world.mem ch) → s'.blocks.Holds t a k
  got : ∀ a k, (a, k) ∈ (s.world.client i).requests ch → s'.blocks.Holds (thread i) a k ∧
    behind pageSize (globalAddress a) (up (BitVec.ofNat 64 k).toNat) ⊆ s.zeros
  byte : ∀ x, s'.byte x = s.byte x ∨ ∃ r ∈ (s.world.client i).writes ch, r.Has x

section step
variable {i : ι} {ch : Choice keyLen} {mv : Move keyLen} (h : Inv thread s)
  (hs : Steps thread s s' i ch mv)
include h hs

omit h in
theorem Steps.isLeaf {a : Addr} (ha : s.IsLeaf a) : s'.IsLeaf a := by
  obtain ⟨t, ha⟩ := ha
  exact ⟨t, hs.keeps t a _ ha fun he => absurd he (by decide)⟩

theorem Steps.isNode {a : Addr} {π : List UInt8} (ha : s.world.layout a = some (.node π)) :
    s'.IsNode a := by
  obtain ⟨t, hH⟩ := h.node a π ha
  refine ⟨t, hs.keeps t a _ hH fun _ hre => ?_⟩
  have hfresh := (h.safe.client i).fresh a
    (List.mem_append_right _ (Client.reclaims_owned a hre))
  rw [ha] at hfresh
  cases hfresh.1

theorem Steps.draft {a : Addr} (ha : a ∈ (s.world.client i).drafts) :
    s'.blocks.Holds (thread i) a allocationPageSize := by
  refine hs.keeps _ a _ (h.own i a (Client.drafts_owned a ha)).1 fun _ => ?_
  simp [Client.reclaims_of_draft ha]

theorem Steps.uses : mv.client.Uses s.world.layout s'.IsLeaf ∧
    ∀ r ∈ (s.world.client i).writes ch,
      r.Lies keyLen s.world.layout s'.IsLeaf (s.world.client i).drafts := by
  refine hs.moves.uses s'.IsLeaf (fun a ha => hs.isLeaf (h.leaf a ha))
    ((h.uses i).mono (fun _ _ => id) fun a => hs.isLeaf) fun x hx => ?_
  exact (hs.moves.hands.leafAddr x hx).imp_right fun hq => ⟨thread i, (hs.got x _ hq).1⟩

/-- What is written lies in blocks that are handed out, or is the root word. -/
theorem Steps.writes_live {r : Span} (hr : r ∈ (s.world.client i).writes ch) {x : BitVec 16 × ℕ}
    (hx : r.Has x) : (∃ t, ∃ b ∈ s'.blocks.live t, x ∈ footprint b) ∨
      ∀ c, ChunkOk c → x ∉ extent c kChunkSize := by
  have hleaf : leafSize keyLen ≤ kChunkSize := by decide
  have hpage : allocationPageSize ≤ kChunkSize := by decide
  cases (hs.uses h).2 r hr with
  | root => exact .inr fun c => Span.root_outside hx
  | leaf ha hle =>
    obtain ⟨t, ha⟩ := ha
    exact .inl ⟨t, _, ha.live, Span.has_footprint hx hle hleaf⟩
  | node ha hle =>
    obtain ⟨t, ha⟩ := hs.isNode h ha
    exact .inl ⟨t, _, ha.live, Span.has_footprint hx hle hpage⟩
  | own ha hle =>
    have hlt : pageSize ≤ allocationPageSize := by decide
    exact .inl ⟨_, _, (hs.draft h ha).live, Span.has_footprint hx (hle.trans hlt) hpage⟩

theorem Steps.tail_kept {t : τ} {a : Addr} (hH : s'.blocks.Holds t a allocationPageSize)
    (hL : s.world.layout a = none) (hz : tail a ⊆ s.zeros) : tail a ⊆ s'.zeros := by
  intro x hx
  have hleaf : leafSize keyLen ≤ kChunkSize := by decide
  have hpage : allocationPageSize ≤ kChunkSize := by decide
  have hfoot : x ∈ footprint (globalAddress a, BitVec.ofNat 64 allocationPageSize) := by
    rw [footprint_ofNat hpage]
    exact behind_subset hx
  have happart : ∀ {t' : τ} {a' : Addr} {k : ℕ}, s'.blocks.Holds t' a' k →
      a ≠ a' ∨ BitVec.ofNat 64 allocationPageSize ≠ BitVec.ofNat 64 k →
      x ∉ footprint (globalAddress a', BitVec.ofNat 64 k) := fun hH' hne =>
    Set.disjoint_left.mp (hH.disjoint hs.inv hH' hne) hfoot
  obtain hsame | ⟨r, hr, hxr⟩ := hs.byte x
  · exact hsame.trans (hz hx)
  exfalso
  cases (hs.uses h).2 r hr with
  | root =>
    obtain ⟨c, hc, hsub⟩ := (hs.inv.thread t).live_inside hH.live
    exact Span.root_outside hxr ((hs.inv.thread t).chunks c hc) (hsub hfoot)
  | leaf ha hle =>
    obtain ⟨t', ha⟩ := ha
    exact happart ha (.inr (by decide)) (Span.has_footprint hxr hle hleaf)
  | @node a' _ _ π ha hle =>
    obtain ⟨t', hH'⟩ := hs.isNode h ha
    refine happart hH' (.inl ?_) (Span.has_footprint hxr hle hpage)
    rintro rfl
    rw [hL] at ha
    cases ha
  | @own a' off len ha hle =>
    by_cases haa : a = a'
    · subst haa
      have h1 := hx.2
      have h2 := hxr.2.2
      omega
    · have hlt : pageSize ≤ allocationPageSize := by decide
      exact happart (hs.draft h ha) (.inl haa) (Span.has_footprint hxr (hle.trans hlt) hpage)

omit h in
theorem Steps.layout {a : Addr} (hL : s'.world.layout a = none) : s.world.layout a = none := by
  cases ha : s.world.layout a with
  | none => rfl
  | some o =>
    have := hs.moves.outcome.ext.layout a o ha
    rw [hs.world] at hL
    exact absurd (hL.symm.trans this) (by simp)

theorem Steps.own {j : ι} {a : Addr} (ha : a ∈ (s'.world.client j).nodesOwned) :
    s'.blocks.Holds (thread j) a allocationPageSize ∧ tail a ⊆ s.zeros := by
  rw [hs.world] at ha
  by_cases hj : j = i
  · subst hj
    rw [World.put_client_self] at ha
    obtain ⟨ha, hre⟩ | hq := hs.moves.hands.nodes a ha
    · obtain ⟨h1, h2⟩ := h.own j a ha
      exact ⟨hs.keeps _ a _ h1 fun _ => by simp [hre], h2⟩
    · exact hs.got a _ hq
  · rw [World.put_client_ne _ _ hj] at ha
    obtain ⟨h1, h2⟩ := h.own j a ha
    refine ⟨hs.keeps _ a _ h1 fun _ hre => ?_, h2⟩
    exact h.safe.apart j i hj a (List.mem_append_right _ ha)
      (List.mem_append_right _ (Client.reclaims_owned a hre))

theorem Steps.next : Inv thread s' := by
  have hsafe : s'.world.Safe := hs.world ▸ h.safe.put hs.moves.outcome
  have hlayout : ∀ a o, s.world.layout a = some o → s'.world.layout a = some o := by
    rw [hs.world]
    exact hs.moves.outcome.ext.layout
  have hcases : ∀ a o, s'.world.layout a = some o →
      s.world.layout a = some o ∨ (a, o) ∈ mv.published := by
    rw [hs.world]
    exact fun a o => publish_cases
  refine ⟨hsafe, hs.inv, hs.clean.write hs.inv fun x hx => ?_, fun j => ?_, fun a ha => ?_,
    fun a π ha => ?_, fun j a ha => ?_, fun a ha => ?_⟩
  · obtain he | ⟨r, hr, hxr⟩ := hs.byte x
    · exact .inl (he.trans hx)
    · exact .inr (hs.writes_live h hr hxr)
  · have hu : (s'.world.client j).Uses s.world.layout s'.IsLeaf := by
      rw [hs.world]
      by_cases hj : j = i
      · subst hj
        rw [World.put_client_self]
        exact (hs.uses h).1
      · rw [World.put_client_ne _ _ hj]
        exact (h.uses j).mono (fun _ _ => id) fun a => hs.isLeaf
    exact hu.mono hlayout fun _ => id
  · obtain ha | ha := hcases a _ ha
    · exact hs.isLeaf (h.leaf a ha)
    · exact hs.isLeaf ((h.uses i).leafAddr a (hs.moves.hands.leaf a ha))
  · obtain ha | ha := hcases a _ ha
    · exact hs.isNode h ha
    · obtain ⟨ha, hre⟩ := hs.moves.hands.node a π ha
      exact ⟨thread i, hs.keeps _ a _ (h.own i a ha).1 fun _ => by simp [hre]⟩
  · obtain ⟨hH, hz⟩ := hs.own h ha
    have hfresh := (hsafe.client j).fresh a (List.mem_append_right _ ha)
    exact ⟨hH, hs.tail_kept h hH (hs.layout hfresh.1) hz⟩
  · rw [hs.world] at ha
    obtain ⟨ha, hre⟩ | ⟨k, hq⟩ := hs.moves.hands.live a ha
    · exact (h.live a ha).imp hs.isLeaf fun ⟨t, hH⟩ => ⟨t, hs.keeps t a _ hH fun _ => hre⟩
    · have hgot := (hs.got a k hq).1
      obtain rfl | rfl := Client.requests_size hq
      · exact .inl ⟨_, hgot⟩
      · exact .inr ⟨_, hgot⟩

end step

variable [Fintype ι] [DecidableEq τ] [Fintype τ] [NeZero nodeNum] [NeZero dirNum]
  {crc : Key keyLen → Value → UInt64} {l : StoreStep ι}

theorem Inv.steps (h : Inv thread s) (hn : s.next crc thread l = some s') :
    ∃ mv, Steps thread s s' l.client l.choice mv := by
  obtain ⟨w, hw, hn⟩ := Option.bind_eq_some_iff.mp hn
  obtain ⟨b, hb, hn⟩ := Option.bind_eq_some_iff.mp hn
  obtain ⟨u, hu, rfl⟩ := Option.map_eq_some_iff.mp hn
  obtain ⟨mv, rfl, hm⟩ := World.next_moves h.safe hw
  have hserve := Blocks.allocAll_serves h.blocks h.clean hb
  obtain ⟨hinv, hclean, hlive⟩ := Blocks.freeAll_frees hserve.inv hserve.clean
    (fun a ha => (h.own _ a (Client.reclaims_owned a ha)).2) hu
  refine ⟨mv, hm, rfl, hinv, hclean, fun t a k ha hre => ⟨ha.word, ?_⟩, fun a k hq => ?_, fun x => ?_⟩
  · obtain hmem | ⟨x, hx, he⟩ := hlive t _ (hserve.live t _ ha.live)
    · exact hmem
    · obtain ⟨h1, h2⟩ := Prod.mk.inj he
      have hxa : x = a := by
        rw [← ha.word, ← (h.own _ x (Client.reclaims_owned x hx)).1.word, h1]
      exact absurd (hxa ▸ hx) (hre h2)
  · rw [Client.reclaims_of_request hq] at hu
    cases hu
    exact hserve.got a k hq
  · by_cases hx : (((s.world.client l.client).writes l.choice).any fun r => decide (r.Has x)) = true
    · obtain ⟨r, hr, hxr⟩ := List.any_eq_true.mp hx
      exact .inr ⟨r, hr, of_decide_eq_true hxr⟩
    · exact .inl (by simp only [hx]; rfl)

omit [DecidableEq ι] [Fintype ι] [DecidableEq τ] [Fintype τ] [NeZero nodeNum] [NeZero dirNum] in
theorem Initial.inv (h : Initial s) : Inv thread s where
  safe := h.world.safe
  blocks := h.blocks.inv
  clean := h.blocks.clean h.byte
  uses i := by
    have hdue : (s.world.client i).dueOps = [] := Client.due_of_silent (by rw [h.world.idle i]; rfl)
    exact ⟨by simp [h.leafAddr], by simp [Client.outstanding, hdue, h.world.pending]⟩
  leaf a ha := by simp [h.world.layout] at ha
  node a π ha := by simp [h.world.layout] at ha
  own i a ha := by simp [Client.nodesOwned, h.world.idle] at ha
  live a ha := by simp [h.world.live] at ha

theorem inv_of_reachable (h : (system crc thread nodeNum dirNum).Reachable s) : Inv thread s := by
  refine h.invariant (P := Inv thread) (fun _ hi => Initial.inv hi) fun _ _ _ _ ih _ hn => ?_
  obtain ⟨mv, hs⟩ := ih.steps hn
  exact hs.next ih

theorem first_mem_footprint {g : GlobalAddress} {size : BitVec 64} (h : 0 < size)
    (hs : size.toNat ≤ kChunkSize) : (g.nodeID, g.offset.toNat) ∈ footprint (g, size) := by
  rw [footprint, toNat_roundUp_of_le hs]
  have h1 : 0 < size.toNat := by simpa [BitVec.lt_def] using h
  have h2 := (up_spec size.toNat).1
  exact ⟨rfl, le_rfl, by dsimp only; omega⟩

omit [DecidableEq ι] [Fintype ι] in
/-- The tree takes whatever the allocators hand out: it is never a block the tree still uses. -/
theorem Inv.alloc_dead (h : Inv thread s) {t : τ} {size : BitVec 64} {chunk : GlobalAddress}
    {u : Blocks τ nodeNum dirNum} (hchunk : chunk.offset.toNat + kChunkSize ≤ dsmSize)
    (hn : s.blocks.next (.alloc t size chunk) = some u) :
    s.world.mem.live ((s.blocks.thread t).alloc size chunk).1.toAddr = false := by
  by_contra hlive
  obtain ⟨hpos, hsize, hl⟩ := Blocks.next_alloc hn
  have happart := (h.blocks.next (Blocks.belowTop_of_dsmSize hchunk) hn).apart
  generalize ((s.blocks.thread t).alloc size chunk).1 = g at hlive hl
  have hold : ∀ {t' : τ} {k : ℕ}, s.blocks.Holds t' g.toAddr k → 0 < BitVec.ofNat 64 k →
      (BitVec.ofNat 64 k).toNat ≤ kChunkSize → False := by
    intro t' k hH hk hk'
    have hmem := hH.live
    rw [globalAddress_toAddr] at hmem
    have hdis : Disjoint (footprint (g, size)) (footprint (g, BitVec.ofNat 64 k)) := by
      by_cases ht : t' = t
      · subst ht
        have := happart.own t'
        rw [hl, Function.update_self] at this
        exact (List.pairwise_cons.mp this).1 _ hmem
      · exact happart.other t t' (Ne.symm ht) _ (by simp [hl]) _
          (by simpa [hl, Function.update_of_ne ht] using hmem)
    exact Set.disjoint_left.mp hdis (first_mem_footprint hpos hsize) (first_mem_footprint hk hk')
  obtain ⟨t', hH⟩ | ⟨t', hH⟩ := h.live _ (Bool.not_eq_false _ ▸ hlive)
  · exact hold hH (by decide) (by decide)
  · exact hold hH (by decide) (by decide)

def slotByte (a : Addr) (i k : ℕ) : BitVec 16 × ℕ :=
  ((globalAddress a).nodeID, (globalAddress a).offset.toNat + 16 + 8 * i + k)

/-- When a node becomes reachable, its slots from the fifth to the last are null: in the tree's
own terms, and as bytes of a block that may have been used before. -/
theorem published_tail_null (h : (system crc thread nodeNum dirNum).Reachable s)
    (hn : s.next crc thread l = some s') {a : Addr} (hold : ¬ ∃ t, s.world.mem.Refers a t)
    (hnew : ∃ t, s'.world.mem.Refers a t) (i : ℕ) (hlo : 4 ≤ i) (hhi : i < 256) :
    (s'.world.mem.node a).slots i = .null ∧ ∀ k < 8, s'.byte (slotByte a i k) = 0 := by
  have hinv := inv_of_reachable h
  obtain ⟨mv, hs⟩ := hinv.steps hn
  have hsafe := (hs.next hinv).safe
  obtain ⟨t, σ, b, hsp⟩ := hnew
  obtain ⟨π, hπ⟩ : ∃ π, s'.world.layout a = some (.node π) := by
    cases hsafe.tree.entry_of_spells hsp with | node ha _ => exact ⟨_, ha⟩
  rw [hs.world] at hπ
  -- a node that had been published before would have been reachable
  have hpub : (a, .node π) ∈ mv.published := by
    refine (publish_cases hπ).resolve_left fun ha => hold ?_
    obtain ⟨b', t', σ', hsp'⟩ := hinv.safe.tree.spells_node ha
    exact ⟨t', σ', b', hsp'⟩
  obtain ⟨hmem, hre⟩ := hs.moves.hands.node a π hpub
  obtain ⟨hH, hz⟩ := hinv.own _ a hmem
  have hfresh := ((hinv.safe.client _).fresh a (List.mem_append_right _ hmem)).1
  have hH' := hs.keeps _ a _ hH fun _ => by simp [hre]
  constructor
  · rw [hs.world, World.put_mem, hs.moves.hands.slots a π hpub]
    exact hinv.safe.tree.tail a i hfresh hlo
  · intro k hk
    have hup : up (BitVec.ofNat 64 allocationPageSize).toNat = 2304 := by decide
    refine hs.tail_kept hinv hH' hfresh hz ⟨⟨rfl, ?_, ?_⟩, ?_⟩
    · simp only [slotByte]
      omega
    · simp only [slotByte]
      omega
    · have : pageSize = 48 := rfl
      simp only [slotByte]
      omega

open scoped Transition.Numbered

def empty : Store (Fin 2) (Fin 1) 1 1 :=
  ⟨.empty (Fin 2) keyLen, ⟨fun _ => ⟨0, 0, fun _ => .new⟩, fun _ => [], fun _ => []⟩, fun _ => 0⟩

theorem empty_initial : Initial empty where
  world := World.empty_initial
  leafAddr _ := rfl
  blocks := ⟨fun _ _ => rfl, fun _ => rfl, fun _ => rfl⟩
  byte _ := rfl

def blockAt (off : ℕ) : Addr := 2 ^ 16 * (kChunkSize + off)

def splitsLeaf (leaf node : ℕ) : List (Choice keyLen) :=
  [.word 0, .word 0, .word 0, .word 0, .word 0, .word 0, .go, .go,
    .split none [blockAt leaf, blockAt node], .go]

/-- Two clients split the same leaf, one of them gives its node back, and the other is about to
split a leaf of the new node. -/
def splitRun : List (StoreStep (Fin 2)) :=
  let key (a b : UInt8) : Key keyLen := .ofList [a, b, 0, 0, 0, 0, 0, 0]
  let stretches : List (Fin 2 × List (Choice keyLen)) :=
    [(0, [.begin false (key 1 0) 1 false none, .go, .go, .combine none, .alloc (blockAt 0), .go, .go]),
      (0, .begin false (key 2 0) 1 false none :: .go :: .go :: splitsLeaf 2560 256),
      (1, .begin false (key 3 0) 1 false none :: .go :: .go :: splitsLeaf 5120 2816),
      (0, [.go, .go, .flush, .go]), (1, [.go]),
      (0, .begin false (key 1 1) 1 false none :: .go :: .go :: .word 0 :: .word 0 :: .word 0 ::
        .word 0 :: .word 0 :: .word 0 :: .go :: .go :: .go :: .go :: splitsLeaf 7680 5376)]
  stretches.flatMap fun q => q.2.map fun ch =>
    ⟨q.1, ch, [⟨0, BitVec.ofNat 48 kChunkSize⟩], fun _ => 255⟩

theorem tail_null_after_reclaim : ∃ s s', (system (fun _ _ => 0) (fun _ : Fin 2 => (0 : Fin 1)) 1 1).run
      empty splitRun = some s ∧ s.next (fun _ _ => 0) (fun _ => 0) ⟨0, .go, [], fun _ => 255⟩ = some s' ∧
    ((s.blocks.thread 0).localAllocators (0, 0)).freeList ≠ [] ∧
    ∀ i, 4 ≤ i → i < 256 → (s'.world.mem.node (blockAt 5376)).slots i = .null ∧
      ∀ k < 8, s'.byte (slotByte (blockAt 5376) i k) = 0 := by
  obtain ⟨s, hs, hfree, hnone, hany⟩ : (system (fun _ _ => 0) (fun _ : Fin 2 => (0 : Fin 1)) 1 1).Ends
      empty splitRun fun s => ((s.blocks.thread 0).localAllocators (0, 0)).freeList ≠ [] ∧
        (s.world.layout (blockAt 5376)).isNone = true ∧
        ((s.next (fun _ _ => 0) (fun _ => 0) ⟨0, .go, [], fun _ => 255⟩).any fun s' =>
          decide (s'.world.mem.root = .node 0 .node4 (blockAt 256) ∧
            (s'.world.mem.node (blockAt 256)).slots 0 = .node 1 .node4 (blockAt 5376))) = true := by
    decide +kernel
  obtain ⟨s', hn, hany⟩ := (Option.any_eq_true _ _).mp hany
  obtain ⟨hroot, hslot⟩ := of_decide_eq_true hany
  have hreach : (system (fun _ _ => 0) (fun _ : Fin 2 => (0 : Fin 1)) 1 1).Reachable s :=
    .run (.init empty_initial) hs
  refine ⟨s, s', hs, hn, hfree, published_tail_null hreach hn ?_ ?_⟩
  · rintro ⟨t, σ, b, hsp⟩
    exact ((inv_of_reachable hreach).safe.tree.entry_of_spells hsp).addr_published rfl
      (Option.isNone_iff_eq_none.mp hnone)
  · have hsp : Spells s'.world.mem [] (.node 0 .node4 (blockAt 256)) := hroot ▸ .root
    have hchild := Spells.child hsp (i := 0) (by decide) (by rw [hslot]; decide)
    rw [hslot] at hchild
    exact ⟨_, _, _, hchild⟩

end Store
end SmartTree
