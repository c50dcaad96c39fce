import SmartTree.Tree.CachedQuery
import SmartTree.Tree.Resolve
import SmartTree.Tree.TaskStep

/-! The nodes that `Tree::migrate_local_cache_to_radix_cache` and `Tree::search` read, and offer to
the index cache, for a stored key of a tree at rest. The migration counts one byte for each node
and so leaves the way of the key below a compressed header. -/
namespace SmartTree
open Transition
variable {n : ℕ}

def Walk.node? (w : Walk) : Option Addr :=
  match w.p with
  | .node _ _ a => some a
  | _ => none

/-- One round of `search` from the label `next` on. The repair of a reverse pointer is reported; it
changes nothing that the rest of the walk reads. -/
def searchStep (m : Mem n) (k : Key n) (w : Walk) : Option (WalkStep n) :=
  match w.p with
  | .null => some {}
  | .leaf _ l =>
    let ops := if !w.fromCache && (m.leaf l).rev ≠ w.pPtr then
      [.casRevLeaf l (m.leaf l).rev w.pPtr] else []
    if (m.leaf l).isValid w.pPtr w.fromCache then some { ops := ops }
    else some { ops := ops, next := some { w with p := m.load w.pPtr, fromCache := false } }
  | .node _ _ a =>
    let r := readNode m w a
    let hdr := r.page.hdr
    if !r.valid then
      some { ops := r.ops, next := some { w with p := m.load w.pPtr, fromCache := false } }
    else do
      let calls : List (AddCall n) := if w.depth = hdr.depth then [⟨k, r.page, .slot a 0⟩] else []
      match ← hdr.firstDiff k with
      | some _ => return { ops := r.ops, calls := calls }
      | none =>
        let depth := hdr.depth + hdr.partials.length
        let b ← getPartial k depth
        return { ops := r.ops, calls := calls
                 next := descendTo r.page a r.p.type.num (fun e => !e.isNull && e.partialKey == b)
                   depth false }

/-- The node a round reads, with whether the round offers it to the index cache. -/
def WalkStep.visit (r : WalkStep n) (w : Walk) : List (Addr × Bool) :=
  w.node?.toList.map fun a => (a, !r.calls.isEmpty)

def walkVisits (step : Walk → Option (WalkStep n)) : ℕ → Walk → Option (List (Addr × Bool))
  | 0, _ => none
  | fuel + 1, w => do
    let r ← step w
    let rest ← match r.next with
      | none => some []
      | some w' => walkVisits step fuel w'
    return r.visit w ++ rest

def Visits (step : Walk → Option (WalkStep n)) (w : Walk) (vs : List (Addr × Bool)) : Prop :=
  ∃ rounds, ∀ fuel ≥ rounds, walkVisits step fuel w = some vs

section visits
variable {step : Walk → Option (WalkStep n)} {w w' : Walk} {r : WalkStep n} {vs : List (Addr × Bool)}

theorem Visits.stop (h : step w = some r) (hn : r.next = none) : Visits step w (r.visit w) := by
  refine ⟨1, fun fuel hf => ?_⟩
  obtain ⟨fuel, rfl⟩ := Nat.exists_eq_add_of_le' hf
  simp [walkVisits, h, hn]

theorem Visits.go (h : step w = some r) (hn : r.next = some w') (hv : Visits step w' vs) :
    Visits step w (r.visit w ++ vs) := by
  obtain ⟨rounds, hv⟩ := hv
  refine ⟨rounds + 1, fun fuel hf => ?_⟩
  obtain ⟨fuel, rfl⟩ := Nat.exists_eq_add_of_le' (show 1 ≤ fuel by omega)
  simp [walkVisits, h, hn, hv fuel (by omega)]

theorem Visits.of_step {r' : WalkStep n} (hv : Visits step w vs) (h : step w = some r)
    (h' : step w' = some r') (hcalls : r'.calls = r.calls) (hnext : r'.next = r.next)
    (hw : w'.node? = w.node?) : Visits step w' vs := by
  obtain ⟨rounds, hv⟩ := hv
  refine ⟨rounds + 1, fun fuel hf => ?_⟩
  obtain ⟨fuel, rfl⟩ := Nat.exists_eq_add_of_le' (show 1 ≤ fuel by omega)
  rw [← hv (fuel + 1) (by omega)]
  simp [walkVisits, h, h', hnext, WalkStep.visit, hcalls, hw]

theorem Visits.unique {us : List (Addr × Bool)} (h : Visits step w vs) (h' : Visits step w us) :
    vs = us := by
  obtain ⟨r, h⟩ := h
  obtain ⟨r', h'⟩ := h'
  have := (h (max r r') (le_max_left _ _)).symm.trans (h' _ (le_max_right _ _))
  exact Option.some.inj this

theorem Visits.of_walkVisits {rounds : ℕ} (h : walkVisits step rounds w = some vs) :
    Visits step w vs := by
  induction rounds generalizing w vs with
  | zero => cases h
  | succ rounds ih =>
    obtain ⟨r, hr, h⟩ := Option.bind_eq_some_iff.mp h
    cases hn : r.next with
    | none =>
      rw [hn] at h
      obtain rfl : r.visit w ++ [] = vs := Option.some.inj h
      rw [List.append_nil]
      exact .stop hr hn
    | some w' =>
      rw [hn] at h
      obtain ⟨rest, hrest, h⟩ := Option.bind_eq_some_iff.mp h
      obtain rfl := Option.some.inj h
      exact .go hr hn (ih hrest)

end visits

def Mem.pathEnd (m : Mem n) (a : Addr) : ℕ := (m.node a).hdr.depth + (m.node a).hdr.partials.length

/-- The slots on the way of a key below a slot, each with its depth and the number of nodes
between. -/
inductive Mem.Way (m : Mem n) (k : Key n) : Ptr → ℕ → ℕ → Ptr → ℕ → Prop
  | refl (ptr : Ptr) (d : ℕ) : Way m k ptr d 0 ptr d
  | down {ptr q : Ptr} {d e i j : ℕ} {b : UInt8} {t : NodeType} {a : Addr}
      (hl : m.load ptr = .node b t a) (hi : m.load (.slot a i) ≠ .null)
      (hb : (m.load (.slot a i)).partialKey = k.byte (m.pathEnd a))
      (h : Way m k (.slot a i) (m.pathEnd a + 1) j q e) : Way m k ptr d (j + 1) q e

/-- A depth that the header of the node allows, and, for a cached start, a reverse pointer that
names the slot. -/
def Mem.Accepts (m : Mem n) (fromCache : Bool) (level : ℕ) (ptr : Ptr) (a : Addr) : Prop :=
  (m.node a).hdr.depth ≤ level ∧ (fromCache = true → (m.node a).rev = ptr)

/-- The slot of the node with this byte refers to the node `x`. -/
def Mem.NodeBelow (m : Mem n) (a : Addr) (b : UInt8) (x : Addr) : Prop :=
  ∃ i t, m.load (.slot a i) = .node b t x

/-- What keeps the migration in step at the node that a slot of depth `d` on the way of the key
refers to, when it counts the depth `level` there. Either it accepts the node, stands at the depth
of the header only if the slot does, and its byte of the key is that after the header or neither
byte leads to a node. Or it does not accept the node, which is then not offered and has no node
below on the way. -/
def Mem.InStep (m : Mem n) (k : Key n) (fromCache : Bool) (level : ℕ) (ptr : Ptr) (d : ℕ) (a : Addr) :
    Prop :=
  (m.Accepts fromCache level ptr a ∧ ((m.node a).hdr.depth = level → d = level) ∧
      (k.byte level = k.byte (m.pathEnd a) ∨
        (∀ x, ¬ m.NodeBelow a (k.byte level) x) ∧ ∀ x, ¬ m.NodeBelow a (k.byte (m.pathEnd a)) x)) ∨
    (¬ m.Accepts fromCache level ptr a ∧ (m.node a).hdr.depth ≠ d ∧
      ∀ x, ¬ m.NodeBelow a (k.byte (m.pathEnd a)) x)

/-- The migration counts one byte for each node on the way and is in step at all of them. -/
def Mem.Alongside (m : Mem n) (k : Key n) (fromCache : Bool) (level : ℕ) (ptr : Ptr) (d : ℕ) : Prop :=
  ∀ j q e b t a, m.Way k ptr d j q e → m.load q = .node b t a →
    m.InStep k fromCache (level + j) q e a

section alongside
variable {m : Mem n} {k : Key n} {fc : Bool} {level d : ℕ} {ptr : Ptr} {a : Addr}

theorem Mem.alongside_of_none (h : ∀ b t a, m.load ptr ≠ .node b t a) :
    m.Alongside k fc level ptr d := by
  intro j q e b t a hw hq
  cases hw with
  | refl => exact absurd hq (h b t a)
  | down hl => exact absurd hl (h _ _ _)

theorem Mem.alongside_step {L : Layout} {π : List UInt8} (ht : NodeOk L m a π) {b : UInt8}
    {t : NodeType} (hl : m.load ptr = .node b t a) {i : ℕ} (hi : m.load (.slot a i) ≠ .null)
    (hb : (m.load (.slot a i)).partialKey = k.byte (m.pathEnd a)) :
    m.Alongside k fc level ptr d ↔ m.InStep k fc level ptr d a ∧
      m.Alongside k fc (level + 1) (.slot a i) (m.pathEnd a + 1) := by
  constructor
  · intro h
    refine ⟨h 0 ptr d b t a (.refl _ _) hl, fun j q e b' t' x hw hq => ?_⟩
    have := h (j + 1) q e b' t' x (.down hl hi hb hw) hq
    rwa [show level + (j + 1) = level + 1 + j by omega] at this
  · rintro ⟨h0, h⟩ j q e b' t' x hw hq
    cases hw with
    | refl =>
      rw [hl] at hq
      cases hq
      exact h0
    | @down _ _ _ _ i' j _ _ _ hl' hi' hb' hw =>
      rw [hl] at hl'
      cases hl'
      obtain rfl := ht.distinct i' i hi' hi (hb'.trans hb.symm)
      have := h j q e b' t' x hw hq
      rwa [show level + 1 + j = level + (j + 1) by omega] at this

end alongside

def Mem.turn (m : Mem n) (k : Key n) (fromCache : Bool) (level : ℕ) (a : Addr) : Option Walk :=
  descendTo (m.node a) a (m.node a).hdr.type.num (fun e => e.partialKey == k.byte level) level fromCache

structure Walk.Placed (L : Layout) (m : Mem n) (w : Walk) (σ : List UInt8) : Prop where
  slot : SlotPath L m w.pPtr σ
  load : w.p = m.load w.pPtr
  depth : w.depth ≤ σ.length + 1

section placed
variable {L : Layout} {m : Mem n} {k : Key n} {w u : Walk} {σ π : List UInt8} {a : Addr}

theorem Walk.node?_iff : w.node? = some a ↔ ∃ b t, w.p = .node b t a := by
  cases hp : w.p <;> simp [Walk.node?, hp]

theorem Walk.node?_eq_some (h : w.node? = some a) : ∃ b t, w.p = .node b t a :=
  Walk.node?_iff.mp h

theorem Walk.Placed.layout (hw : w.Placed L m σ) (ht : TreeInv L m) (ha : w.node? = some a) :
    ∃ π, L a = some (.node π) ∧ σ <+: π := by
  obtain ⟨b, t, hp⟩ := Walk.node?_eq_some ha
  have hok := ht.entry hw.slot
  rw [← hw.load, hp] at hok
  cases hok with | node ha hpre => exact ⟨_, ha, hpre⟩

theorem WalkStep.visit_offer {r : WalkStep n} {d : ℕ} {c : AddCall n} (ha : w.node? = some a)
    (hr : r.calls = if w.depth = d then [c] else []) : r.visit w = [(a, decide (w.depth = d))] := by
  by_cases hc : w.depth = d <;> simp [WalkStep.visit, ha, hr, hc]

theorem migrateStep_of_none (h : w.node? = none) : migrateStep m k w = some {} := by
  unfold Walk.node? at h
  unfold migrateStep
  split
  · rename_i hp
    simp [hp] at h
  · rfl

theorem Visits.migrate_none (h : w.node? = none) : Visits (migrateStep m k) w [] := by
  have := Visits.stop (migrateStep_of_none (m := m) (k := k) h) rfl
  simpa [WalkStep.visit, h] using this

theorem readNode_valid_iff (ht : NodeOk L m a π) : (readNode m w a).valid = true ↔
    m.Accepts w.fromCache w.depth w.pPtr a := by
  have hrev : w.pPtr = (m.node a).rev ↔ (m.node a).rev = w.pPtr := eq_comm
  cases hf : w.fromCache <;>
    simp [readNode, Page.isValid, Mem.Accepts, ht.type, hf, hrev]

theorem Visits.migrate_reject (ht : NodeOk L m a π) (ha : w.node? = some a)
    (h : ¬ m.Accepts w.fromCache w.depth w.pPtr a) : Visits (migrateStep m k) w [(a, false)] := by
  obtain ⟨b, t, hp⟩ := Walk.node?_eq_some ha
  have hv : (readNode m w a).valid = false := by
    rw [← Bool.not_eq_true, readNode_valid_iff ht]
    exact h
  have hs : migrateStep m k w = some { ops := (readNode m w a).ops } := by
    simp [migrateStep, hp, hv]
  have := Visits.stop hs rfl
  simpa [WalkStep.visit, ha] using this

theorem migrateStep_accept (ht : NodeOk L m a π) (ha : w.node? = some a) (hd : w.depth ≤ n)
    (h : m.Accepts w.fromCache w.depth w.pPtr a) : migrateStep m k w =
      some { ops := (readNode m w a).ops
             calls := if w.depth = (m.node a).hdr.depth then [⟨k, m.node a, .slot a 0⟩] else []
             next := m.turn k w.fromCache w.depth a } := by
  obtain ⟨b, t, hp⟩ := Walk.node?_eq_some ha
  have hv : (readNode m w a).valid = true := (readNode_valid_iff ht).mpr h
  simp only [migrateStep, hp, hv, getPartial_eq hd]
  rfl

theorem Visits.migrate_accept (ht : NodeOk L m a π) (ha : w.node? = some a) (hd : w.depth ≤ n)
    (h : m.Accepts w.fromCache w.depth w.pPtr a) {us : List (Addr × Bool)}
    (hus : (m.turn k w.fromCache w.depth a).elim (us = []) fun v => Visits (migrateStep m k) v us) :
    Visits (migrateStep m k) w ((a, decide (w.depth = (m.node a).hdr.depth)) :: us) := by
  have hs := migrateStep_accept (k := k) ht ha hd h
  cases hturn : m.turn k w.fromCache w.depth a with
  | none =>
    rw [hturn] at hus hs
    obtain rfl : us = [] := hus
    have := Visits.stop hs rfl
    rwa [WalkStep.visit_offer ha rfl] at this
  | some v =>
    rw [hturn] at hus hs
    have := Visits.go hs rfl hus
    rwa [WalkStep.visit_offer ha rfl] at this

/-- The slot the migration picks holds no node, or is published and lies below. -/
theorem Mem.turn_placed {fc : Bool} {level : ℕ} (hπ : L a = some (.node π))
    (hle : level ≤ π.length + 1) (h : m.turn k fc level a = some w) :
    w.node? = none ∨ ∃ σ, w.Placed L m σ ∧ π.length < σ.length := by
  obtain ⟨i, -, -, rfl⟩ := descendTo_some h
  by_cases hnull : m.load (.slot a i) = .null
  · left
    simp [Walk.node?, show (m.node a).slots i = .null from hnull]
  · right
    refine ⟨_, ⟨.slot hπ hnull, rfl, ?_⟩, ?_⟩ <;>
      simp only [List.length_append, List.length_singleton] <;> omega

theorem Walk.Placed.migrate_ends (ht : TreeInv L m) (hw : w.Placed L m σ) :
    ∃ us, Visits (migrateStep m k) w us ∧ us.head?.map Prod.fst = w.node? := by
  induction hs : n - σ.length using Nat.strong_induction_on generalizing w σ with
  | _ s ih =>
    cases ha : w.node? with
    | none => exact ⟨[], .migrate_none ha, rfl⟩
    | some a =>
      obtain ⟨π, hπ, hpre⟩ := hw.layout ht ha
      have hn := ht.node a π hπ
      have hlen := hpre.length_le
      have hshort := hn.short
      have hdepth := hw.depth
      by_cases hacc : m.Accepts w.fromCache w.depth w.pPtr a
      swap
      · exact ⟨_, .migrate_reject hn ha hacc, rfl⟩
      have hgo : ∃ us, (m.turn k w.fromCache w.depth a).elim (us = [])
          fun v => Visits (migrateStep m k) v us := by
        cases hturn : m.turn k w.fromCache w.depth a with
        | none => exact ⟨[], rfl⟩
        | some v =>
          obtain hv | ⟨τ, hv, hlt⟩ := Mem.turn_placed hπ (by omega) hturn
          · exact ⟨[], .migrate_none hv⟩
          · obtain ⟨us, hus, -⟩ := ih _ (by omega) hv rfl
            exact ⟨us, hus⟩
      obtain ⟨us, hus⟩ := hgo
      exact ⟨_, .migrate_accept hn ha (by omega) hacc hus, rfl⟩

theorem Mem.turn_ends (ht : TreeInv L m) (hπ : L a = some (.node π)) {level : ℕ}
    (hle : level ≤ π.length + 1) (k : Key n) (fc : Bool) :
    ∃ us, (m.turn k fc level a).elim (us = []) (fun w => Visits (migrateStep m k) w us) ∧
      us.head?.map Prod.fst = (m.turn k fc level a).bind Walk.node? := by
  cases hturn : m.turn k fc level a with
  | none => exact ⟨[], rfl, rfl⟩
  | some w =>
    obtain hw | ⟨τ, hw, -⟩ := Mem.turn_placed hπ hle hturn
    · exact ⟨[], .migrate_none hw, hw.symm⟩
    · exact hw.migrate_ends ht

/-- The slot that carries a byte is the only one that leads on with it. -/
theorem NodeOk.nodeBelow_iff (ht : NodeOk L m a π) {i : ℕ} {b : UInt8} {x : Addr}
    (hi : m.load (.slot a i) ≠ .null) (hb : (m.load (.slot a i)).partialKey = b) :
    m.NodeBelow a b x ↔ ∃ c t, m.load (.slot a i) = .node c t x := by
  constructor
  · rintro ⟨j, t, hj⟩
    obtain rfl := ht.distinct j i (by simp [hj]) hi (by rw [hb, hj]; rfl)
    exact ⟨b, t, hj⟩
  · rintro ⟨c, t, hc⟩
    rw [hc] at hb
    obtain rfl : c = b := hb
    exact ⟨i, t, hc⟩

/-- The slot the migration picks is the one that leads to a node with its byte, if there is one:
slots are filled in order, and no two have the same byte. -/
theorem World.Resting.turn_node (hr : World.Resting L m) (hπ : L a = some (.node π)) {fc : Bool}
    {level : ℕ} {x : Addr} : (m.turn k fc level a).bind Walk.node? = some x ↔
      m.NodeBelow a (k.byte level) x := by
  have hn := hr.tree.node a π hπ
  constructor
  · intro h
    obtain ⟨w, hw, hx⟩ := Option.bind_eq_some_iff.mp h
    obtain ⟨i, -, hb, rfl⟩ := descendTo_some hw
    obtain ⟨c, t, hp⟩ := Walk.node?_eq_some hx
    have hp : m.load (.slot a i) = .node c t x := hp
    exact (hn.nodeBelow_iff (by simp [hp]) (beq_iff_eq.mp hb)).mpr ⟨c, t, hp⟩
  · rintro ⟨i, t, hi⟩
    have hne : m.load (.slot a i) ≠ .null := by simp [hi]
    have hfind : (List.range (m.node a).hdr.type.num).find?
        (fun j => (m.load (.slot a j)).partialKey == k.byte level) = some i := by
      refine List.find?_range_eq_some.mpr ⟨?_, List.mem_range.mpr (hr.slot a π i hπ hne), ?_⟩
      · simp [hi]
      · intro j hj
        have hd := hn.distinct j i (hn.filled j i hj hne) hne
        simpa [hi] using fun he => hj.ne (hd (by simpa [hi] using he))
    have hturn : m.turn k fc level a = some ⟨.slot a i, m.load (.slot a i), level + 1, fc⟩ :=
      congrArg (Option.map _) hfind
    rw [hturn, Option.bind_some, Walk.node?, hi]

theorem TreeInv.nodeBelow_congr (ht : TreeInv L m) (hπ : L a = some (.node π)) {b c : UInt8} :
    (∀ x, m.NodeBelow a b x ↔ m.NodeBelow a c x) ↔
      b = c ∨ (∀ x, ¬ m.NodeBelow a b x) ∧ ∀ x, ¬ m.NodeBelow a c x := by
  constructor
  · intro h
    by_cases hb : ∃ x, m.NodeBelow a b x
    · left
      obtain ⟨x, hx⟩ := hb
      obtain ⟨j, u, hj⟩ := (h x).mp hx
      obtain ⟨i, t, hi⟩ := hx
      have := ht.unique (.slot a i) (.slot a j) _ _ x (.slot hπ (by simp [hi])) (.slot hπ (by simp [hj]))
        (by rw [hi]; rfl) (by rw [hj]; rfl)
      rw [this, hj] at hi
      cases hi
      rfl
    · have hb' : ∀ x, ¬ m.NodeBelow a b x := fun x hx => hb ⟨x, hx⟩
      exact .inr ⟨hb', fun x hx => hb' x ((h x).mpr hx)⟩
  · rintro (rfl | ⟨h1, h2⟩) x
    · rfl
    · exact iff_of_false (h1 x) (h2 x)

end placed

end SmartTree
