import SmartTree.Tree.Safe

/-! The structural invariant of the lock-free tree, in terms of what can be reached from
the root: chains of headers and slot bytes spell the keys they lead to, and whatever has
been reachable once stays so. -/
namespace SmartTree
open Transition
variable {n : ℕ} {L : Layout} {m : Mem n}

/-- The bytes spelt on the way to an entry: each node puts the bytes of its header at the depth
its header starts at, each slot adds its own byte. -/
inductive Spells (m : Mem n) : List UInt8 → Entry → Prop
  | root : Spells m [] m.root
  | child {s b t a i} (h : Spells m s (.node b t a)) (hi : i < 256)
      (he : (m.node a).slots i ≠ .null) :
    Spells m (s.take ((m.node a).hdr.depth - 1) ++ (m.node a).hdr.partials ++
      [((m.node a).slots i).partialKey]) ((m.node a).slots i)

/-- A header that starts no deeper than its slot completes the path of its node. -/
theorem HdrPath.take_append {π s : List UInt8} {h : Header} (hh : HdrPath π h) (hs : s <+: π)
    (hd : h.depth ≤ s.length + 1) : s.take (h.depth - 1) ++ h.partials = π := by
  obtain ⟨r, rfl⟩ := hs
  have hle : h.depth - 1 ≤ s.length := by omega
  have htake : s.take (h.depth - 1) = (s ++ r).take (h.depth - 1) :=
    (List.take_append_of_le_length hle).symm
  rw [hh.partials, htake, List.take_append_drop]

inductive Mem.SlotAt (m : Mem n) : Ptr → List UInt8 → Prop
  | root : SlotAt m .root []
  | child {p s b t a i} (h : SlotAt m p s) (hl : m.load p = .node b t a)
      (he : m.load (.slot a i) ≠ .null) :
    SlotAt m (.slot a i) (s.take ((m.node a).hdr.depth - 1) ++ (m.node a).hdr.partials ++
      [(m.load (.slot a i)).partialKey])

theorem Spells.slotAt {s : List UInt8} {e : Entry} (h : Spells m s e) :
    ∃ p, m.SlotAt p s ∧ m.load p = e := by
  induction h with
  | root => exact ⟨.root, .root, rfl⟩
  | @child s b t a i _ _ he ih =>
    obtain ⟨p, hp, hl⟩ := ih
    exact ⟨.slot a i, .child hp hl he, rfl⟩

namespace TreeInv

theorem load_node (h : TreeInv L m) {ptr : Ptr} {σ π : List UInt8} {a : Addr}
    (hs : SlotPath L m ptr σ) (ha : (m.load ptr).addr? = some a) (hπ : L a = some (.node π)) :
    ∃ b t, m.load ptr = .node b t a := by
  have hok := h.entry hs
  cases he : m.load ptr with
  | null => simp [he] at ha
  | leaf b x =>
    rw [he] at hok ha
    cases ha
    cases hok with | leaf hx _ => rw [hπ] at hx; cases hx
  | node b t x =>
    rw [he] at ha
    cases ha
    exact ⟨b, t, rfl⟩

theorem node_slot (h : TreeInv L m) {a : Addr} {π : List UInt8} (ha : L a = some (.node π)) :
    ∃ p σ b t, SlotPath L m p σ ∧ m.load p = .node b t a ∧ σ <+: π := by
  obtain ⟨p, σ, hp, hpa⟩ := h.parent a (by simp [ha])
  obtain ⟨b, t, hl⟩ := h.load_node hp hpa ha
  have hok := h.entry hp
  rw [hl] at hok
  cases hok with
  | node ha' hpre =>
    obtain rfl := Obj.node.inj (Option.some.inj (ha.symm.trans ha'))
    exact ⟨p, σ, b, t, hp, hl, hpre⟩

/-- The slots reached from the root are the published ones: the node of a published slot hangs at a
shorter path. -/
theorem slotAt_iff (h : TreeInv L m) {p : Ptr} {σ : List UInt8} : m.SlotAt p σ ↔ SlotPath L m p σ := by
  constructor
  · intro hs
    induction hs with
    | root => exact .root
    | @child p s b t a i _ hl he ih =>
      have hok := h.entry ih
      rw [hl] at hok
      cases hok with
      | @node _ _ _ π ha hpre =>
        rw [(h.node a π ha).hdr.take_append hpre (h.attached a π ha p s ih (by rw [hl]; rfl))]
        exact .slot ha he
  · intro hs
    induction hlen : σ.length using Nat.strong_induction_on generalizing p σ with
    | _ len ih =>
      cases hs with
      | root => exact .root
      | @slot a i π ha he =>
        obtain ⟨q, τ, b, t, hq, hl, hpre⟩ := h.node_slot ha
        have hle := hpre.length_le
        have hparent := ih τ.length (by simp at hlen; omega) hq rfl
        have hchild := Mem.SlotAt.child hparent hl he
        rwa [(h.node a π ha).hdr.take_append hpre (h.attached a π ha q τ hq (by rw [hl]; rfl))] at hchild

/-- Whatever is reached from the root is published, below the bytes spelt. -/
theorem slot_of_spells (h : TreeInv L m) {s : List UInt8} {e : Entry} (hs : Spells m s e) :
    ∃ ptr, SlotPath L m ptr s ∧ m.load ptr = e :=
  hs.slotAt.imp fun _ => And.imp_left h.slotAt_iff.mp

theorem entry_of_spells (h : TreeInv L m) {s : List UInt8} {e : Entry} (hs : Spells m s e) :
    EntryOk L m s e := by
  obtain ⟨ptr, hp, rfl⟩ := h.slot_of_spells hs
  exact h.entry hp

theorem spells_of_slot (h : TreeInv L m) {ptr : Ptr} {σ : List UInt8} (hs : SlotPath L m ptr σ) :
    Spells m σ (m.load ptr) := by
  have hat := h.slotAt_iff.mpr hs
  clear hs
  induction hat with
  | root => exact .root
  | @child p s b t a i hp hl he ih =>
    rw [hl] at ih
    have hok := h.entry (h.slotAt_iff.mp hp)
    rw [hl] at hok
    cases hok with
    | node ha => exact .child ih ((h.node a _ ha).bound i he) he

theorem spells_node (h : TreeInv L m) {a : Addr} {π : List UInt8} (ha : L a = some (.node π)) :
    ∃ b t σ, Spells m σ (.node b t a) := by
  obtain ⟨ptr, σ, hp, hpa⟩ := h.parent a (by simp [ha])
  obtain ⟨b, t, he⟩ := h.load_node hp hpa ha
  exact ⟨b, t, σ, he ▸ h.spells_of_slot hp⟩

theorem spells_leaf (h : TreeInv L m) {l : Addr} (hl : L l = some .leaf) :
    ∃ b σ, Spells m σ (.leaf b l) ∧ σ <+: (m.leaf l).key.bytes := by
  obtain ⟨ptr, σ, hp, hpa⟩ := h.parent l (by simp [hl])
  have hs := h.spells_of_slot hp
  have hok := h.entry hp
  cases he : m.load ptr with
  | null => simp [he] at hpa
  | leaf b x =>
    rw [he] at hpa hs hok
    cases hpa
    cases hok with | leaf _ hk => exact ⟨b, σ, hs, hk⟩
  | node b t x =>
    rw [he] at hpa hok
    cases hpa
    cases hok with | node hx _ => rw [hl] at hx; cases hx

theorem slots_filled (h : TreeInv L m) {a : Addr} {π : List UInt8} (ha : L a = some (.node π)) :
    ∃ k ≤ 256, ∀ i, (m.node a).slots i ≠ .null ↔ i < k := by
  have hn := h.node a π ha
  have hex : ∃ i, (m.node a).slots i = .null :=
    ⟨256, by by_contra he; exact absurd (hn.bound 256 he) (by omega)⟩
  refine ⟨Nat.find hex, Nat.find_min' hex ?_, fun i => ⟨fun he => ?_, fun hi => Nat.find_min hex hi⟩⟩
  · by_contra he
    exact absurd (hn.bound 256 he) (by omega)
  · by_contra hlt
    rcases Nat.lt_or_eq_of_le (not_lt.mp hlt) with hlt | heq
    · exact hn.filled _ i hlt he (Nat.find_spec hex)
    · exact he (heq ▸ Nat.find_spec hex)

end TreeInv

namespace World
variable {ι : Type*} [DecidableEq ι] [Fintype ι] {crc : Key n → Value → UInt64}

theorem extends_of_run {s t : World ι n} {as : List (ι × Choice n)} (h : Safe s)
    (hr : (treeSystem ι crc).run s as = some t) :
    (∀ a o, s.layout a = some o → t.layout a = some o) ∧
      ∀ l, s.layout l = some .leaf → (t.mem.leaf l).key = (s.mem.leaf l).key := by
  induction as generalizing s with
  | nil => cases hr; exact ⟨fun _ _ h => h, fun _ _ => rfl⟩
  | cons a as ih =>
    rw [System.run_cons] at hr
    obtain ⟨u, hu, hr⟩ := Option.bind_eq_some_iff.mp hr
    obtain ⟨hsafe, hx⟩ := h.takes (next_takes hu)
    obtain ⟨h1, h2⟩ := ih hsafe hr
    exact ⟨fun a o ha => h1 a o (hx.layout a o ha),
      fun l hl => (h2 l (hx.layout l _ hl)).trans (hx.key l hl)⟩

/-- The structural invariant: filled slots come first and carry different bytes, reachable
leaves have the keys that are spelt, and no assert fails. -/
structure Structured (s : World ι n) : Prop where
  filled : ∀ σ b t a, Spells s.mem σ (.node b t a) →
    ∃ k ≤ 256, ∀ i, (s.mem.node a).slots i ≠ .null ↔ i < k
  distinct : ∀ σ b t a, Spells s.mem σ (.node b t a) → ∀ i j,
    (s.mem.node a).slots i ≠ .null → (s.mem.node a).slots j ≠ .null →
      ((s.mem.node a).slots i).partialKey = ((s.mem.node a).slots j).partialKey → i = j
  keys : ∀ σ b l, Spells s.mem σ (.leaf b l) → σ <+: (s.mem.leaf l).key.bytes
  asserts : ∀ i, (s.client i).pc ≠ .fault

/-- In every state of every run the invariant holds, and what was reachable before still is:
nodes with the slots they have by then, leaves along their own keys. -/
theorem structured_of_reachable {s : World ι n} (h : (treeSystem ι crc).Reachable s) :
    s.Structured ∧ ∀ as t, (treeSystem ι crc).run s as = some t →
      (∀ σ b ty a, Spells s.mem σ (.node b ty a) → ∃ τ b' ty', Spells t.mem τ (.node b' ty' a)) ∧
      ∀ σ b l, Spells s.mem σ (.leaf b l) → (t.mem.leaf l).key = (s.mem.leaf l).key ∧
        ∃ τ b', Spells t.mem τ (.leaf b' l) ∧ τ <+: (s.mem.leaf l).key.bytes := by
  have hs := safe_of_reachable h
  refine ⟨⟨?_, ?_, ?_, ?_⟩, fun as t hr => ?_⟩
  · intro σ b t a hsp
    cases hs.tree.entry_of_spells hsp with | node ha _ => exact hs.tree.slots_filled ha
  · intro σ b t a hsp
    cases hs.tree.entry_of_spells hsp with | node ha _ => exact (hs.tree.node _ _ ha).distinct
  · intro σ b l hsp
    cases hs.tree.entry_of_spells hsp with | leaf _ hk => exact hk
  · intro i hpc
    have hk := (hs.client i).knows
    simp [Client.Knows, hpc] at hk
  · obtain ⟨h1, h2⟩ := extends_of_run hs hr
    have ht := (safe_of_reachable (h.run hr)).tree
    constructor
    · intro σ b ty a hsp
      cases hs.tree.entry_of_spells hsp with
      | node ha _ =>
        obtain ⟨b', ty', τ, hτ⟩ := ht.spells_node (h1 a _ ha)
        exact ⟨τ, b', ty', hτ⟩
    · intro σ b l hsp
      cases hs.tree.entry_of_spells hsp with
      | leaf hl _ =>
        obtain ⟨b', τ, hτ, hk⟩ := ht.spells_leaf (h1 l _ hl)
        rw [h2 l hl] at hk
        exact ⟨h2 l hl, τ, b', hτ, hk⟩

def empty (ι : Type*) (n : ℕ) : World ι n :=
  let key : Key n := ⟨List.replicate n 0, List.length_replicate⟩
  let page : Page := ⟨.root, ⟨0, .deleted, []⟩, fun _ => .null⟩
  let leaf : Leaf n := ⟨.root, false, 0, key, 0, false⟩
  { mem := ⟨.null, fun _ => page, fun _ => leaf, fun _ => false⟩
    client := fun _ => ⟨.idle, false, key, 0, false, .root, .null, 0, false, none, page, leaf, [],
      false⟩
    log := [], layout := fun _ => none, done := [] }

omit [DecidableEq ι] [Fintype ι] in
theorem empty_initial : Initial (empty ι n) :=
  ⟨rfl, fun _ _ => rfl, fun _ => rfl, fun _ => rfl, fun _ => rfl, rfl, fun _ => rfl, rfl⟩

theorem empty_reachable : (treeSystem ι crc).Reachable (empty ι n) := .init empty_initial

open scoped Transition.Numbered

/-- Two clients find a null root; the one that loses the race splits the other's leaf. -/
def raceRun : List (Fin 2 × Choice 8) :=
  [(0, .begin false (int2key 8 0x0102) 1 false none), (1, .begin false (int2key 8 0x0103) 2 false none),
    (0, .go), (1, .go), (0, .go), (1, .go), (0, .combine none), (1, .combine none), (0, .alloc 0),
    (1, .alloc 1), (0, .go), (1, .go), (1, .go), (1, .word 0), (1, .word 0), (1, .word 0),
    (1, .word 0), (1, .word 0), (1, .word 0), (1, .go), (1, .go), (1, .split none [2, 3]),
    (1, .flush), (1, .go), (1, .go)]

theorem structured_after_race :
    ∃ t, (treeSystem (Fin 2) fun _ _ => 0).run (empty (Fin 2) 8) raceRun = some t ∧
      t.mem.root ≠ .null ∧ t.Structured := by
  obtain ⟨t, ht, hr⟩ : (treeSystem (Fin 2) fun _ _ => 0).Ends (empty (Fin 2) 8) raceRun
      fun t => t.mem.root = .node 0 .node4 2 := by decide +kernel
  refine ⟨t, ht, by simp [hr], ?_⟩
  exact (structured_of_reachable (empty_reachable.run ht)).1

end World
end SmartTree
