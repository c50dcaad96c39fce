import SmartTree.Tree.Step

/-! The published tree. Every published node stands for a byte path that never changes;
its header, whatever splits it has seen, ends where that path ends. A slot that has been
filled keeps its byte for good. These facts survive every step of any client, so what a
client once learnt from a stale or torn snapshot stays true. -/
namespace SmartTree
variable {n : ℕ}

structure HdrPath (π : List UInt8) (h : Header) : Prop where
  pos : 1 ≤ h.depth
  le : h.depth ≤ π.length + 1
  partials : h.partials = π.drop (h.depth - 1)

inductive SlotPath (L : Layout) (m : Mem n) : Ptr → List UInt8 → Prop
  | root : SlotPath L m .root []
  | slot {a i π} (ha : L a = some (.node π)) (he : m.load (.slot a i) ≠ .null) :
    SlotPath L m (.slot a i) (π ++ [(m.load (.slot a i)).partialKey])

inductive EntryOk (L : Layout) (m : Mem n) (σ : List UInt8) : Entry → Prop
  | null : EntryOk L m σ .null
  | leaf {b l} (hl : L l = some .leaf) (hk : σ <+: (m.leaf l).key.bytes) : EntryOk L m σ (.leaf b l)
  | node {b t a π} (ha : L a = some (.node π)) (hp : σ <+: π) : EntryOk L m σ (.node b t a)

def Attached (L : Layout) (m : Mem n) (a : Addr) (d : ℕ) : Prop :=
  ∀ ptr σ, SlotPath L m ptr σ → (m.load ptr).addr? = some a → d ≤ σ.length + 1

structure NodeOk (L : Layout) (m : Mem n) (a : Addr) (π : List UInt8) : Prop where
  short : π.length < n
  hdr : HdrPath π (m.node a).hdr
  type : (m.node a).hdr.type ≠ .deleted
  first : m.load (.slot a 0) ≠ .null
  filled : ∀ i j, i < j → m.load (.slot a j) ≠ .null → m.load (.slot a i) ≠ .null
  distinct : ∀ i j, m.load (.slot a i) ≠ .null → m.load (.slot a j) ≠ .null →
    (m.load (.slot a i)).partialKey = (m.load (.slot a j)).partialKey → i = j
  bound : ∀ i, m.load (.slot a i) ≠ .null → i < 256
  entry : ∀ i, m.load (.slot a i) ≠ .null →
    EntryOk L m (π ++ [(m.load (.slot a i)).partialKey]) (m.load (.slot a i))

structure TreeInv (L : Layout) (m : Mem n) : Prop where
  live : ∀ a, L a ≠ none → m.live a = true
  root : EntryOk L m [] m.root
  node : ∀ a π, L a = some (.node π) → NodeOk L m a π
  attached : ∀ a π, L a = some (.node π) → Attached L m a (m.node a).hdr.depth
  valid : ∀ l, L l = some .leaf → (m.leaf l).valid = true
  unique : ∀ p q σ τ a, SlotPath L m p σ → SlotPath L m q τ →
    (m.load p).addr? = some a → (m.load q).addr? = some a → p = q
  parent : ∀ a, L a ≠ none → ∃ p σ, SlotPath L m p σ ∧ (m.load p).addr? = some a
  tail : ∀ a i, L a = none → 4 ≤ i → m.load (.slot a i) = .null

structure Extends (L : Layout) (m : Mem n) (L' : Layout) (m' : Mem n) : Prop where
  layout : ∀ a o, L a = some o → L' a = some o
  root : m.load .root ≠ .null → m'.load .root ≠ .null
  key : ∀ l, L l = some .leaf → (m'.leaf l).key = (m.leaf l).key
  slot : ∀ a π i, L a = some (.node π) → m.load (.slot a i) ≠ .null →
    m'.load (.slot a i) ≠ .null ∧
      (m'.load (.slot a i)).partialKey = (m.load (.slot a i)).partialKey
  attached : ∀ a d, L a ≠ none → Attached L m a d → Attached L' m' a d

variable {L L' : Layout} {m m' : Mem n} {σ π : List UInt8} {ptr : Ptr} {e : Entry}

theorem HdrPath.end_eq {h : Header} (hh : HdrPath π h) :
    h.depth + h.partials.length = π.length + 1 := by
  have h1 := hh.pos
  have h2 := hh.le
  have hl : h.partials.length = π.length - (h.depth - 1) := by rw [hh.partials, List.length_drop]
  omega

theorem Extends.refl (L : Layout) (m : Mem n) : Extends L m L m :=
  ⟨fun _ _ h => h, fun h => h, fun _ _ => rfl, fun _ _ _ _ h => ⟨h, rfl⟩, fun _ _ _ h => h⟩

theorem SlotPath.mono (h : SlotPath L m ptr σ) (hx : Extends L m L' m') : SlotPath L' m' ptr σ := by
  cases h with
  | root => exact .root
  | slot ha he =>
    obtain ⟨hn, hb⟩ := hx.slot _ _ _ ha he
    rw [← hb]
    exact .slot (hx.layout _ _ ha) hn

theorem SlotPath.filled (h : SlotPath L m ptr σ) (hx : Extends L m L' m')
    (hn : m.load ptr ≠ .null) : m'.load ptr ≠ .null := by
  cases h with
  | root => exact hx.root hn
  | slot ha he => exact (hx.slot _ _ _ ha he).1

theorem EntryOk.mono (h : EntryOk L m σ e) (hx : Extends L m L' m') : EntryOk L' m' σ e := by
  cases h with
  | null => exact .null
  | leaf hl hk => exact .leaf (hx.layout _ _ hl) (by rwa [hx.key _ hl])
  | node ha hp => exact .node (hx.layout _ _ ha) hp

theorem EntryOk.addr_published (h : EntryOk L m σ e) {a : Addr} (ha : e.addr? = some a) :
    L a ≠ none := by
  cases h with
  | null => cases ha
  | leaf hl _ => cases ha; simp [hl]
  | node hp _ => cases ha; simp [hp]

theorem Entry.addr?_ne_none (h : e ≠ .null) : ∃ a, e.addr? = some a := by
  cases e with
  | null => exact absurd rfl h
  | leaf b a => exact ⟨a, rfl⟩
  | node b t a => exact ⟨a, rfl⟩

theorem SlotPath.unique {τ : List UInt8} (h : SlotPath L m ptr σ) (h' : SlotPath L m ptr τ) :
    σ = τ := by
  cases h with
  | root => cases h'; rfl
  | slot ha he =>
    cases h' with
    | slot ha' _ => rw [Option.some.inj (ha.symm.trans ha') |> Obj.node.inj]

theorem TreeInv.entry (h : TreeInv L m) (hs : SlotPath L m ptr σ) : EntryOk L m σ (m.load ptr) := by
  cases hs with
  | root => exact h.root
  | slot ha he => exact (h.node _ _ ha).entry _ he

def HasSlot (L : Layout) : Ptr → Prop
  | .root => True
  | .slot a _ => L a ≠ none

theorem SlotPath.hasSlot (h : SlotPath L m ptr σ) : HasSlot L ptr := by
  cases h with
  | root => trivial
  | slot ha _ => simp [HasSlot, ha]

def Entry.Alike (e e' : Entry) : Prop := e.withType .deleted = e'.withType .deleted

namespace Entry.Alike
variable {e e' : Entry}

theorem refl (e : Entry) : Alike e e := rfl

theorem withType (e : Entry) (t : NodeType) : Alike e (e.withType t) := by cases e <;> rfl

theorem partialKey_eq (h : Alike e e') : e'.partialKey = e.partialKey := by
  cases e <;> cases e' <;> simp_all [Alike]

theorem addr_eq (h : Alike e e') : e'.addr? = e.addr? := by
  cases e <;> cases e' <;> simp_all [Alike]

theorem null_iff (h : Alike e e') : e' = .null ↔ e = .null := by
  cases e <;> cases e' <;> simp_all [Alike]

theorem entryOk (h : Alike e e') (he : EntryOk L m σ e) : EntryOk L m σ e' := by
  cases he with
  | null => rw [h.null_iff.mpr rfl]; exact .null
  | leaf hl hk => cases e' <;> simp_all [Alike]; exact .leaf hl hk
  | node ha hp => cases e' <;> simp_all [Alike]; exact .node ha hp

end Entry.Alike

structure SameSlots (L : Layout) (m m' : Mem n) : Prop where
  load : ∀ ptr, HasSlot L ptr → (m.load ptr).Alike (m'.load ptr)
  key : ∀ l, L l ≠ none → (m'.leaf l).key = (m.leaf l).key
  valid : ∀ l, L l ≠ none → (m'.leaf l).valid = (m.leaf l).valid
  live : ∀ a, L a ≠ none → m'.live a = m.live a
  tail : ∀ a i, L a = none → 4 ≤ i → m'.load (.slot a i) = m.load (.slot a i)

namespace SameSlots

theorem symm (h : SameSlots L m m') : SameSlots L m' m :=
  ⟨fun p hp => (h.load p hp).symm, fun l hl => (h.key l hl).symm, fun l hl => (h.valid l hl).symm,
    fun a ha => (h.live a ha).symm, fun a i ha hi => (h.tail a i ha hi).symm⟩

theorem slotPath (h : SameSlots L m m') (hs : SlotPath L m ptr σ) : SlotPath L m' ptr σ := by
  cases hs with
  | root => exact .root
  | @slot a i π ha he =>
    have hl := h.load (.slot a i) (by simp [HasSlot, ha])
    rw [← hl.partialKey_eq]
    exact .slot ha (hl.null_iff.not.mpr he)

theorem attached (h : SameSlots L m m') {a : Addr} {d : ℕ} (ha : Attached L m a d) :
    Attached L m' a d := fun ptr σ hs hl =>
  ha ptr σ (h.symm.slotPath hs) (by rwa [← (h.load ptr hs.hasSlot).addr_eq])

theorem toExtends (h : SameSlots L m m') : Extends L m L m' where
  layout _ _ ha := ha
  root := (h.load .root trivial).null_iff.not.mpr
  key l hl := h.key l (by simp [hl])
  slot a π i ha he := by
    have hl := h.load (.slot a i) (by simp [HasSlot, ha])
    exact ⟨hl.null_iff.not.mpr he, hl.partialKey_eq⟩
  attached _ _ _ ha := h.attached ha

/-- New headers must end where the paths end and start no deeper than the node hangs. -/
theorem treeInv (h : SameSlots L m m') (ht : TreeInv L m)
    (hh : ∀ a π, L a = some (.node π) → HdrPath π (m'.node a).hdr ∧
      (m'.node a).hdr.type ≠ .deleted ∧ Attached L m a (m'.node a).hdr.depth) :
    TreeInv L m' where
  live a ha := by rw [h.live a ha]; exact ht.live a ha
  root := (h.load .root trivial).entryOk (ht.root.mono h.toExtends)
  node a π ha := by
    have hld : ∀ i, (m.load (.slot a i)).Alike (m'.load (.slot a i)) :=
      fun i => h.load _ (by simp [HasSlot, ha])
    have hnull := fun i => (hld i).null_iff
    have hkey := fun i => (hld i).partialKey_eq
    have hn := ht.node a π ha
    refine ⟨hn.short, (hh a π ha).1, (hh a π ha).2.1, ?_, ?_, ?_, ?_, ?_⟩
    · simpa only [ne_eq, hnull] using hn.first
    · simpa only [ne_eq, hnull] using hn.filled
    · simpa only [ne_eq, hnull, hkey] using hn.distinct
    · simpa only [ne_eq, hnull] using hn.bound
    · simp only [ne_eq, hnull, hkey]
      exact fun i hi => (hld i).entryOk ((hn.entry i hi).mono h.toExtends)
  attached a π ha := h.attached (hh a π ha).2.2
  valid l hl := by rw [h.valid l (by simp [hl])]; exact ht.valid l hl
  unique p q σ τ a hp hq hpa hqa := by
    rw [(h.load p hp.hasSlot).addr_eq] at hpa
    rw [(h.load q hq.hasSlot).addr_eq] at hqa
    exact ht.unique p q σ τ a (h.symm.slotPath hp) (h.symm.slotPath hq) hpa hqa
  parent a ha := by
    obtain ⟨p, σ, hp, hpa⟩ := ht.parent a ha
    exact ⟨p, σ, h.slotPath hp, by rwa [(h.load p hp.hasSlot).addr_eq]⟩
  tail a i ha hi := by rw [h.tail a i ha hi]; exact ht.tail a i ha hi

theorem treeInv_of_hdr (h : SameSlots L m m') (ht : TreeInv L m)
    (hh : ∀ a, L a ≠ none → (m'.node a).hdr = (m.node a).hdr) : TreeInv L m' :=
  h.treeInv ht fun a π ha => by
    rw [hh a (by simp [ha])]
    exact ⟨(ht.node a π ha).hdr, (ht.node a π ha).type, ht.attached a π ha⟩

end SameSlots
end SmartTree
