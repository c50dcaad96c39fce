import SmartTree.Tree.Migrate

/-! The walk of `Tree::search` along the way of a stored key, and the migration beside it: the two
read and offer the same nodes iff the migration stays in step at every node of the way. -/
namespace SmartTree
open Transition
variable {n : ℕ}

/-- A walk on the way of a key, as `search` makes it. -/
structure Walk.OnWay (L : Layout) (m : Mem n) (k : Key n) (w : Walk) (σ : List UInt8) : Prop where
  slot : SlotPath L m w.pPtr σ
  load : w.p = m.load w.pPtr
  depth : w.depth = σ.length + 1
  key : σ <+: k.bytes

section way
variable {L : Layout} {m : Mem n} {k : Key n} {w u v : Walk} {σ τ π : List UInt8} {a l : Addr}
  {q : Ptr} {b : UInt8}

theorem Walk.OnWay.descend (hr : World.Resting L m) (hu : u.OnWay L m k σ) (ha : u.node? = some a)
    (hacc : m.Accepts u.fromCache u.depth u.pPtr a) (hq : SlotPath L m q τ) (hl : m.load q = .leaf b l)
    (hk : τ <+: k.bytes) (hπ : L a = some (.node π)) : ∃ j, m.load (.slot a j) ≠ .null ∧
      (m.load (.slot a j)).partialKey = k.byte (m.pathEnd a) ∧
      m.descend k u = some ⟨.slot a j, m.load (.slot a j), m.pathEnd a + 1, false⟩ ∧
      Walk.OnWay L m k ⟨.slot a j, m.load (.slot a j), m.pathEnd a + 1, false⟩
        (π ++ [(m.load (.slot a j)).partialKey]) := by
  have hn := hr.tree.node a π hπ
  obtain ⟨b', t, hp⟩ := Walk.node?_eq_some ha
  have hload : m.load u.pPtr = .node b' t a := hu.load.symm.trans hp
  have hne : u.pPtr ≠ q := by
    intro he
    rw [← he, hload] at hl
    cases hl
  -- the leaf lies below the node, so the slot of the node on its way is on that of the key
  have hστ : σ <+: τ := by
    obtain hc | hc := List.prefix_or_prefix_of_prefix hu.key hk
    · exact hc
    · obtain he | ⟨b₁, t₁, a₁, π₁, hl₁, -⟩ := hr.tree.slot_cases hq hu.slot hc
      · exact absurd he.symm hne
      · rw [hl] at hl₁
        cases hl₁
  obtain ⟨j, hj, hpre⟩ := hr.tree.child_on_way hu.slot hload hπ hq hστ hne
  have hend : m.pathEnd a = π.length + 1 := hn.hdr.end_eq
  have hπk : π <+: k.bytes := (List.prefix_append _ _).trans (hpre.trans hk)
  have hbyte : (m.load (.slot a j)).partialKey = k.byte (π.length + 1) := by
    have := (List.prefix_of_prefix_length_le (hpre.trans hk) (Key.append_byte_prefix hπk hn.short)
      (by simp)).eq_of_length (by simp)
    simpa using this
  rw [hend]
  refine ⟨j, hj, hbyte, ?_, .slot hπ hj, rfl, by simp, hpre.trans hk⟩
  have hdiff : (m.node a).hdr.firstDiff k = some none := by
    obtain ⟨h, -⟩ | ⟨i, c, -, -, h1, h2, -⟩ :=
      hn.hdr.firstDiff hn.short.le hπk List.prefix_rfl hn.hdr.le
    · exact h
    · omega
  have hfind : (List.range (m.node a).hdr.type.num).find? (fun i => !(m.load (.slot a i)).isNull &&
      (m.load (.slot a i)).partialKey == k.byte (π.length + 1)) = some j := by
    refine List.find?_range_eq_some.mpr ⟨?_, List.mem_range.mpr (hr.slot a π j hπ hj), fun i hi => ?_⟩
    · simp [Entry.isNull, hj, hbyte]
    · have hd := hn.distinct i j
      rw [hbyte] at hd
      simp only [Entry.isNull, Bool.not_and, Bool.not_not, Bool.or_eq_true, beq_iff_eq,
        Bool.not_eq_true', beq_eq_false_iff_ne]
      by_contra hc
      push Not at hc
      exact hi.ne (hd hc.1 hj hc.2)
  have hv : (readNode m u a).valid = true := (readNode_valid_iff hn).mpr hacc
  have hnum : (readNode m u a).p.type = (m.node a).hdr.type := by simp [readNode, hp]
  simp only [Mem.descend, hp, hv, if_true, readNode_page, hdiff, hn.hdr.end_eq,
    getPartial_eq (show π.length + 1 ≤ n from hn.short), hnum, descendTo]
  exact congrArg (Option.map _) hfind

theorem searchStep_descend (ht : NodeOk L m a π) (ha : w.node? = some a)
    (hacc : m.Accepts w.fromCache w.depth w.pPtr a) (hd : m.descend k w = some v) : searchStep m k w =
      some { ops := (readNode m w a).ops
             calls := if w.depth = (m.node a).hdr.depth then [⟨k, m.node a, .slot a 0⟩] else []
             next := some v } := by
  obtain ⟨b, t, hp⟩ := Walk.node?_eq_some ha
  have hv : (readNode m w a).valid = true := (readNode_valid_iff ht).mpr hacc
  simp only [Mem.descend, hp, hv, if_true, readNode_page] at hd
  split at hd
  · rename_i hdiff
    obtain ⟨x, hx, hv'⟩ := Option.bind_eq_some_iff.mp hd
    simp only [searchStep, hp, hv, readNode_page, hdiff, hx, hv', Option.bind_eq_bind,
      Option.bind_some]
    rfl
  · cases hd

theorem Visits.search_accept {vs : List (Addr × Bool)} (ht : NodeOk L m a π) (ha : w.node? = some a)
    (hacc : m.Accepts w.fromCache w.depth w.pPtr a) (hd : m.descend k w = some v)
    (hv : Visits (searchStep m k) v vs) :
    Visits (searchStep m k) w ((a, decide (w.depth = (m.node a).hdr.depth)) :: vs) := by
  have := Visits.go (searchStep_descend ht ha hacc hd) rfl hv
  rwa [WalkStep.visit_offer ha rfl] at this

theorem Visits.search_reject {vs : List (Addr × Bool)} (ht : NodeOk L m a π) (ha : w.node? = some a)
    (hacc : ¬ m.Accepts w.fromCache w.depth w.pPtr a) (hw : w.p = m.load w.pPtr)
    (hv : Visits (searchStep m k) { w with fromCache := false } vs) :
    Visits (searchStep m k) w ((a, false) :: vs) := by
  obtain ⟨b, t, hp⟩ := Walk.node?_eq_some ha
  have hval : (readNode m w a).valid = false := by
    rw [← Bool.not_eq_true, readNode_valid_iff ht]
    exact hacc
  have hs : searchStep m k w = some { ops := (readNode m w a).ops
                                      next := some { w with fromCache := false } } := by
    rw [searchStep, hp]
    simp [hval, ← hw, hp]
  have := Visits.go hs rfl hv
  simpa [WalkStep.visit, ha] using this

/-- At a leaf `search` reads no nodes; a cached record of one may have to be read again. -/
theorem Walk.OnWay.search_none (ht : TreeInv L m) (hu : u.OnWay L m k σ) (ha : u.node? = none) :
    Visits (searchStep m k) u [] := by
  have hok := ht.entry hu.slot
  rw [← hu.load] at hok
  cases hp : u.p with
  | null =>
    have := Visits.stop (show searchStep m k u = some {} by simp [searchStep, hp]) rfl
    simpa [WalkStep.visit, ha] using this
  | leaf b l =>
    have hstop : ∀ w : Walk, w.p = .leaf b l → (m.leaf l).isValid w.pPtr w.fromCache = true →
        Visits (searchStep m k) w [] := by
      intro w hw hv
      have := Visits.stop (show searchStep m k w = _ by rw [searchStep, hw]; exact if_pos hv) rfl
      simpa [WalkStep.visit, Walk.node?, hw] using this
    by_cases hv : (m.leaf l).isValid u.pPtr u.fromCache = true
    · exact hstop u hp hv
    rw [hp] at hok
    cases hok with
    | leaf hl _ =>
      obtain ⟨ops, hstep⟩ : ∃ ops, searchStep m k u =
          some { ops := ops, next := some { u with fromCache := false } } := by
        rw [searchStep, hp]
        exact ⟨_, (if_neg hv).trans (by rw [← hu.load, hp])⟩
      have := Visits.go hstep rfl (hstop { u with fromCache := false } hp
        (by simp [Leaf.isValid, ht.valid l hl]))
      simpa [WalkStep.visit, ha] using this
  | node b t a => simp [Walk.node?, hp] at ha

/-- Past a node that is accepted the flag of a cached start makes no difference. -/
theorem Mem.descend_fromCache (ht : NodeOk L m a π) (ha : w.node? = some a)
    (hacc : m.Accepts w.fromCache w.depth w.pPtr a) (hacc' : m.Accepts false w.depth w.pPtr a) :
    m.descend k w = m.descend k { w with fromCache := false } := by
  obtain ⟨ptr, p, d, f⟩ := w
  obtain ⟨b, t, rfl⟩ := Walk.node?_eq_some ha
  have hv := (readNode_valid_iff ht).mpr hacc
  have hv' := (readNode_valid_iff (w := ⟨ptr, .node b t a, d, false⟩) ht).mpr hacc'
  simp only [Mem.descend, hv, hv', if_true]
  rfl

theorem Walk.OnWay.not_node (hu : u.OnWay L m k σ) (ha : u.node? = none) :
    ∀ b t a, m.load u.pPtr ≠ .node b t a := by
  intro b t a he
  rw [← hu.load] at he
  simp [Walk.node?, he] at ha

/-- The slot the migration picks: what it reads from there on is what `search` reads iff the node
there is that of the way and the migration stays in step below. -/
theorem Walk.OnWay.turn_visits {fc : Bool} {level : ℕ} {vs us : List (Addr × Bool)}
    (ht : TreeInv L m) (hv : v.OnWay L m k σ) (hπ : L a = some (.node π)) (hle : level ≤ π.length + 1)
    (hvs : vs.head?.map Prod.fst = v.node?)
    (hus : Visits (migrateStep m k) ⟨v.pPtr, v.p, level + 1, fc⟩ us)
    (hiff : us = vs ↔ m.Alongside k fc (level + 1) v.pPtr v.depth) :
    ∃ us', (m.turn k fc level a).elim (us' = []) (fun w => Visits (migrateStep m k) w us') ∧
      (us' = vs ↔ (m.turn k fc level a).bind Walk.node? = v.node? ∧
        m.Alongside k fc (level + 1) v.pPtr v.depth) := by
  obtain ⟨us', hus', hhead⟩ := Mem.turn_ends ht hπ hle k fc
  by_cases hsame : (m.turn k fc level a).bind Walk.node? = v.node?
  swap
  · -- the first nodes differ
    refine ⟨us', hus', fun he => ?_, fun h => absurd h.1 hsame⟩
    rw [he, hvs] at hhead
    exact absurd hhead.symm hsame
  cases hx : v.node? with
  | none =>
    rw [hsame, hx] at hhead
    rw [hx] at hvs
    have h1 : us' = [] := by simpa using hhead
    have h2 : vs = [] := by simpa using hvs
    exact ⟨us', hus', fun _ => ⟨hsame.trans hx, Mem.alongside_of_none (hv.not_node hx)⟩,
      fun _ => h1.trans h2.symm⟩
  | some x =>
    obtain ⟨w, hw, hwx⟩ := Option.bind_eq_some_iff.mp (hsame.trans hx)
    obtain hnone | ⟨τ, hplaced, -⟩ := Mem.turn_placed hπ hle hw
    · rw [hnone] at hwx
      cases hwx
    -- one slot refers to the node
    have haddr : ∀ {y : Walk}, y.p = m.load y.pPtr → y.node? = some x →
        (m.load y.pPtr).addr? = some x := by
      intro y hy hyx
      obtain ⟨b, t, hp⟩ := Walk.node?_eq_some hyx
      rw [← hy, hp]
      rfl
    have hptr := ht.unique _ _ _ _ x hplaced.slot hv.slot (haddr hplaced.load hwx) (haddr hv.load hx)
    have heq : w = ⟨v.pPtr, v.p, level + 1, fc⟩ := by
      rw [hv.load, ← hptr, ← hplaced.load]
      obtain ⟨i, -, -, rfl⟩ := descendTo_some hw
      rfl
    refine ⟨us, ?_, hiff.trans ⟨fun h => ⟨hsame.trans hx, h⟩, And.right⟩⟩
    rw [hw, heq]
    exact hus

theorem Walk.OnWay.accepts (ht : TreeInv L m) (hu : u.OnWay L m k σ) (ha : u.node? = some a)
    (hrev : u.fromCache = true → (m.node a).rev = u.pPtr) : m.Accepts u.fromCache u.depth u.pPtr a := by
  obtain ⟨b, t, hp⟩ := Walk.node?_eq_some ha
  have hok := ht.entry hu.slot
  rw [← hu.load, hp] at hok
  cases hok with
  | node hπ _ =>
    have hd := ht.attached a _ hπ u.pPtr σ hu.slot (by rw [← hu.load, hp]; rfl)
    exact ⟨hu.depth ▸ hd, hrev⟩

variable (hr : World.Resting L m) (hq : SlotPath L m q τ) (hl : m.load q = .leaf b l)
  (hk : τ <+: k.bytes)
include hr hq hl hk

/-- From a slot on the way of a stored key both walks end, and they read and offer the same nodes
iff the migration stays in step. By induction along the way. -/
theorem Walk.OnWay.same_visits_iff (hu : u.OnWay L m k σ) (hf : u.fromCache = false) {level : ℕ}
    (hle : level ≤ u.depth) (fc : Bool) :
    ∃ vs us, Visits (searchStep m k) u vs ∧ Visits (migrateStep m k) ⟨u.pPtr, u.p, level, fc⟩ us ∧
      vs.head?.map Prod.fst = u.node? ∧ (us = vs ↔ m.Alongside k fc level u.pPtr u.depth) := by
  induction hs : n - σ.length using Nat.strong_induction_on generalizing u σ level with
  | _ s ih =>
    cases ha : u.node? with
    | none =>
      exact ⟨[], [], hu.search_none hr.tree ha, .migrate_none ha, rfl,
        fun _ => Mem.alongside_of_none (hu.not_node ha), fun _ => rfl⟩
    | some a =>
      have hplaced : Walk.Placed L m u σ := ⟨hu.slot, hu.load, hu.depth.le⟩
      obtain ⟨π, hπ, hpre⟩ := hplaced.layout hr.tree ha
      have hn := hr.tree.node a π hπ
      have hlen := hpre.length_le
      have hshort := hn.short
      have hdepth := hu.depth
      have hacc := hu.accepts hr.tree ha (by simp [hf])
      have hend : m.pathEnd a = π.length + 1 := hn.hdr.end_eq
      obtain ⟨j, hj, hbyte, hd, hv⟩ := hu.descend hr ha hacc hq hl hk hπ
      obtain ⟨vs, us, hvs, hus, hhead, hiff⟩ := ih _
        (by simp only [List.length_append, List.length_singleton]; omega) hv rfl
        (show level + 1 ≤ m.pathEnd a + 1 by omega) rfl
      have hsearch := Visits.search_accept hn ha hacc hd hvs
      obtain ⟨b', t, hp⟩ := Walk.node?_eq_some ha
      rw [Mem.alongside_step hn (hu.load.symm.trans hp) hj hbyte]
      -- the node below on the way, and that the migration turns to
      have hbelow : ∀ x, Walk.node? ⟨.slot a j, m.load (.slot a j), m.pathEnd a + 1, false⟩ = some x ↔
          m.NodeBelow a (k.byte (m.pathEnd a)) x := by
        intro x
        rw [hn.nodeBelow_iff hj hbyte, Walk.node?_iff]
      by_cases hm : m.Accepts fc level u.pPtr a
      · obtain ⟨us', hus', hiff'⟩ := hv.turn_visits hr.tree hπ (show level ≤ π.length + 1 by omega)
          hhead hus hiff
        have hmigrate := Visits.migrate_accept (w := ⟨u.pPtr, u.p, level, fc⟩) hn ha
          (show level ≤ n by omega) hm hus'
        refine ⟨_, _, hsearch, hmigrate, rfl, ?_⟩
        have hflag : decide (level = (m.node a).hdr.depth) = decide (u.depth = (m.node a).hdr.depth) ↔
            ((m.node a).hdr.depth = level → u.depth = level) := by
          have h1 := hm.1
          have h2 := hacc.1
          rw [decide_eq_decide]
          omega
        have hturn : (m.turn k fc level a).bind Walk.node? =
            Walk.node? ⟨.slot a j, m.load (.slot a j), m.pathEnd a + 1, false⟩ ↔ _ :=
          Option.ext_iff.trans ((forall_congr' fun x => iff_congr (hr.turn_node hπ) (hbelow x)).trans
            (hr.tree.nodeBelow_congr hπ))
        simp only [List.cons.injEq, Prod.mk.injEq, true_and, hflag, hiff', hturn, Mem.InStep, hm,
          not_true_eq_false, false_and, or_false, and_assoc]
      · refine ⟨_, _, hsearch, .migrate_reject hn ha hm, rfl, ?_⟩
        have hnil : vs = [] ↔ ∀ x, ¬ m.NodeBelow a (k.byte (m.pathEnd a)) x := by
          have : vs = [] ↔ vs.head?.map Prod.fst = none := by simp
          rw [this, hhead, Option.eq_none_iff_forall_ne_some]
          exact forall_congr' fun x => not_congr (hbelow x)
        have hflag : decide (u.depth = (m.node a).hdr.depth) = false ↔
            (m.node a).hdr.depth ≠ u.depth := by
          rw [decide_eq_false_iff_not, eq_comm]
        have hstop : (∀ x, ¬ m.NodeBelow a (k.byte (m.pathEnd a)) x) →
            m.Alongside k fc (level + 1) (.slot a j) (m.pathEnd a + 1) := fun h =>
          Mem.alongside_of_none fun c t x hx => h x ((hn.nodeBelow_iff hj hbyte).mpr ⟨c, t, hx⟩)
        simp only [List.cons.injEq, Prod.mk.injEq, true_and, Mem.InStep, hm, false_and,
          false_or, not_false_eq_true, eq_comm (a := false), eq_comm (a := []), hflag, hnil]
        exact ⟨fun h => ⟨h, hstop h.2⟩, And.left⟩

/-- A cached record adds that the reverse pointer of the first node must be right: a record that
`search` rejects it reads again, where the migration stops. -/
theorem Walk.OnWay.start_visits_iff (hu : u.OnWay L m k σ) :
    ∃ vs us, Visits (searchStep m k) u vs ∧ Visits (migrateStep m k) u us ∧
      (us = vs ↔ (∀ a, u.node? = some a → u.fromCache = true → (m.node a).rev = u.pPtr) ∧
        m.Alongside k u.fromCache u.depth u.pPtr u.depth) := by
  have hu' : Walk.OnWay L m k { u with fromCache := false } σ := ⟨hu.slot, hu.load, hu.depth, hu.key⟩
  obtain ⟨vs, us, hvs, hus, hhead, hiff⟩ := hu'.same_visits_iff hr hq hl hk rfl le_rfl u.fromCache
  cases ha : u.node? with
  | none =>
    have hnil : vs = [] := by simpa [show Walk.node? { u with fromCache := false } = none from ha]
      using hhead
    exact ⟨vs, us, hnil ▸ hu.search_none hr.tree ha, hus,
      hiff.trans ⟨fun h => ⟨nofun, h⟩, And.right⟩⟩
  | some a =>
    obtain ⟨π, hπ, -⟩ := Walk.Placed.layout ⟨hu.slot, hu.load, hu.depth.le⟩ hr.tree ha
    have hn := hr.tree.node a π hπ
    by_cases hrev : u.fromCache = true → (m.node a).rev = u.pPtr
    · have hacc := hu.accepts hr.tree ha hrev
      have hacc' := hu'.accepts hr.tree ha (by simp)
      obtain ⟨j, -, -, hd, -⟩ := hu'.descend hr ha hacc' hq hl hk hπ
      have hsame := Mem.descend_fromCache (k := k) hn ha hacc hacc'
      refine ⟨vs, us, hvs.of_step (searchStep_descend hn ha hacc' hd)
        (searchStep_descend hn ha hacc (hsame.trans hd)) rfl rfl rfl, hus, ?_⟩
      rw [hiff]
      exact ⟨fun h => ⟨fun x hx => by cases hx; exact hrev, h⟩, And.right⟩
    · have hacc : ¬ m.Accepts u.fromCache u.depth u.pPtr a := fun h => hrev h.2
      refine ⟨_, _, .search_reject hn ha hacc hu.load hvs, .migrate_reject hn ha hacc, ?_⟩
      have hne : vs ≠ [] := by
        rintro rfl
        rw [show Walk.node? { u with fromCache := false } = some a from ha] at hhead
        cases hhead
      constructor
      · intro h
        exact absurd (List.cons.inj h).2.symm hne
      · exact fun h => absurd (h.1 a rfl) hrev

end way

namespace World
variable {ι : Type*} [DecidableEq ι] [Fintype ι] {crc : Key n → Value → UInt64} {s : World ι n}

/-- For a stored key and an index cache of current copies, both walks end, and the migration reads
and offers the nodes that `search` reads and offers iff, where it starts at a cached record, the
reverse pointer of the first node is right, and the migration is in step at every node on the way
of the key, counting one byte for each. -/
theorem migration_follows_search_iff (h : (treeSystem ι crc).Reachable s) (hrest : s.AtRest)
    {σ : List UInt8} {b : UInt8} {l : Addr} (hs : Spells s.mem σ (.leaf b l)) {k : Key n}
    (hk : (s.mem.leaf l).key = k) {cache : CacheMap} (hc : cache.Correct s.mem) {w : Walk}
    (hw : w = .start s.mem (cache.lookup k)) :
    ∃ vs us, Visits (searchStep s.mem k) w vs ∧ Visits (migrateStep s.mem k) w us ∧
      (us = vs ↔
        (∀ a, w.node? = some a → w.fromCache = true → (s.mem.node a).rev = w.pPtr) ∧
        s.mem.Alongside k w.fromCache w.depth w.pPtr w.depth) := by
  have hr := resting_of_reachable h hrest
  obtain ⟨q, hq, hl⟩ := hr.tree.slot_of_spells hs
  have hσ : σ <+: k.bytes := by
    have hok := hr.tree.entry hq
    rw [hl] at hok
    cases hok with | leaf _ hpre => exact hk ▸ hpre
  have hway : ∃ τ, w.OnWay s.layout s.mem k τ := by
    cases hlook : cache.lookup k with
    | none =>
      rw [hw, hlook]
      exact ⟨[], .root, rfl, rfl, List.nil_prefix⟩
    | some hit =>
      obtain ⟨p, e, c⟩ := hit
      obtain ⟨rfl, τ, hp, rfl, -⟩ := CacheMap.lookup_eq_some hr hc hlook
      rw [hw, hlook]
      obtain ⟨a, π, j, ha, -, rfl, hne, rfl, hpre⟩ := hp
      exact ⟨_, .slot ha hne, rfl, rfl, hpre⟩
  obtain ⟨τ, hway⟩ := hway
  exact hway.start_visits_iff hr hq hl hσ

open scoped Transition.Numbered

/-- Without compressed headers the two walks agree. -/
theorem migration_beside_search : ∃ t, (treeSystem (Fin 1) fun _ _ => 0).run (empty (Fin 1) 2)
    (script (fun _ _ => 0) fourKeys (empty (Fin 1) 2)) = some t ∧
      ∃ vs us, Visits (searchStep t.mem ⟨[1, 0], rfl⟩) (.start t.mem none) vs ∧
        Visits (migrateStep t.mem ⟨[1, 0], rfl⟩) (.start t.mem none) us ∧
        us = vs ∧ vs = [(4, true), (6, true)] ∧
        t.mem.Alongside ⟨[1, 0], rfl⟩ false 1 .root 1 := by
  obtain ⟨t, ht, hrest, hfour, hslot, hkey, hv, hu⟩ : (treeSystem (Fin 1) fun _ _ => 0).Ends
      (empty (Fin 1) 2) (script (fun _ _ => 0) fourKeys (empty (Fin 1) 2)) fun t => t.AtRest ∧
        FourKeys t.mem ∧ (t.mem.node 6).slots 0 = .leaf 0 3 ∧
        (t.mem.leaf 3).key = ⟨[1, 0], rfl⟩ ∧
        walkVisits (searchStep t.mem ⟨[1, 0], rfl⟩) 3 (.start t.mem none) =
          some [(4, true), (6, true)] ∧
        walkVisits (migrateStep t.mem ⟨[1, 0], rfl⟩) 3 (.start t.mem none) =
          some [(4, true), (6, true)] := by decide +kernel
  have hroot : Spells t.mem [] (.node 0 .node4 4) := hfour.root ▸ .root
  have hnode := Spells.child hroot (i := 1) (by decide) (by rw [hfour.right]; decide)
  rw [hfour.right] at hnode
  have hleaf := Spells.child hnode (i := 0) (by decide) (by rw [hslot]; decide)
  rw [hslot] at hleaf
  obtain ⟨vs, us, hvs, hus, hiff⟩ := migration_follows_search_iff (.run empty_reachable ht) hrest
    hleaf hkey (CacheMap.empty_correct t.mem) (w := .start t.mem none) (by simp)
  obtain rfl := hvs.unique (.of_walkVisits hv)
  obtain rfl := hus.unique (.of_walkVisits hu)
  exact ⟨t, ht, _, _, hvs, hus, rfl, rfl, (hiff.mp rfl).2⟩

def compressedKeys : List (Fin 1 × (Choice 4 ⊕ ℕ)) :=
  let key (c d : UInt8) : Key 4 := .ofList [1, 2, c, d]
  [key 3 0, key 4 5, key 4 6].flatMap (inserts 0)

/-- Below the compressed header the migration compares the first byte of the key with slots that
carry the third, and ends before the second node. -/
theorem migration_stops_at_header : ∃ t, (treeSystem (Fin 1) fun _ _ => 0).run (empty (Fin 1) 4)
    (script (fun _ _ => 0) compressedKeys (empty (Fin 1) 4)) = some t ∧ t.AtRest ∧
      ∃ σ b l vs us, Spells t.mem σ (.leaf b l) ∧ (t.mem.leaf l).key = ⟨[1, 2, 4, 6], rfl⟩ ∧
        CacheMap.empty.Correct t.mem ∧
        Visits (searchStep t.mem ⟨[1, 2, 4, 6], rfl⟩)
          (.start t.mem (CacheMap.empty.lookup (⟨[1, 2, 4, 6], rfl⟩ : Key 4))) vs ∧
        Visits (migrateStep t.mem ⟨[1, 2, 4, 6], rfl⟩)
          (.start t.mem (CacheMap.empty.lookup (⟨[1, 2, 4, 6], rfl⟩ : Key 4))) us ∧
        vs = [(2, true), (4, true)] ∧ us = [(2, true)] ∧ us ≠ vs := by
  obtain ⟨t, ht, hrest, hroot, hslot, hslot', hkey, hv, hu⟩ : (treeSystem (Fin 1) fun _ _ => 0).Ends
      (empty (Fin 1) 4) (script (fun _ _ => 0) compressedKeys (empty (Fin 1) 4)) fun t => t.AtRest ∧
        t.mem.root = .node 0 .node4 2 ∧ (t.mem.node 2).slots 1 = .node 4 .node4 4 ∧
        (t.mem.node 4).slots 1 = .leaf 6 3 ∧ (t.mem.leaf 3).key = ⟨[1, 2, 4, 6], rfl⟩ ∧
        walkVisits (searchStep t.mem ⟨[1, 2, 4, 6], rfl⟩) 3 (.start t.mem none) =
          some [(2, true), (4, true)] ∧
        walkVisits (migrateStep t.mem ⟨[1, 2, 4, 6], rfl⟩) 3 (.start t.mem none) =
          some [(2, true)] := by decide +kernel
  have hfirst : Spells t.mem [] (.node 0 .node4 2) := hroot ▸ .root
  have hnode := Spells.child hfirst (i := 1) (by decide) (by rw [hslot]; decide)
  rw [hslot] at hnode
  have hleaf := Spells.child hnode (i := 1) (by decide) (by rw [hslot']; decide)
  rw [hslot'] at hleaf
  simp only [CacheMap.lookup_empty]
  exact ⟨t, ht, hrest, _, 6, 3, _, _, hleaf, hkey, CacheMap.empty_correct t.mem, .of_walkVisits hv,
    .of_walkVisits hu, rfl, rfl, by decide⟩

end World

end SmartTree
