import SmartTree.Tree.Structure

/-! What a step can do to the published tree, and what follows for an entry that was read
earlier: what it referred to is still found from its slot by following slot 0, and node
types only ever grow. -/
namespace SmartTree
variable {n : ℕ} {L L' : Layout}

inductive Entry.Grown : Entry → Entry → Prop
  | null : Grown .null .null
  | leaf {b b' l} : Grown (.leaf b l) (.leaf b' l)
  | node {b b' t t' a} (h : t.code ≤ t'.code) : Grown (.node b t a) (.node b' t' a)

/-- An entry that is found from another by following slot 0. -/
inductive Mem.Below (m : Mem n) : Entry → Entry → Prop
  | here {e} : Below m e e
  | down {b t a e} (h : Below m (m.load (.slot a 0)) e) : Below m (.node b t a) e

inductive Change (L : Layout) (m : Mem n) : List (Addr × Obj) → Mem n → Prop
  | quiet {m'} (hl : ∀ ptr, HasSlot L ptr → m'.load ptr = m.load ptr)
      (hh : ∀ a, L a ≠ none → (m'.node a).hdr = (m.node a).hdr) : Change L m [] m'
  | leaf {b l ptr σ} (hv : Vacant L m b ptr σ) (hl : L l = none) :
    Change L m [(l, .leaf)] (m.store (.leaf b l) ptr)
  | graft {ptr σ k diff len l pages a b} (g : Graft L m ptr σ k diff len l pages)
      (ha : (pages.map Prod.fst).headD 0 = a) (hb : (m.load ptr).partialKey = b) :
    Change L m (grafted k l pages) (m.store (.node b .node4 a) ptr)
  | entryType {ptr σ t} (hs : SlotPath L m ptr σ) (ht : (m.load ptr).type.code ≤ t.code) :
    Change L m [] (m.store ((m.load ptr).withType t) ptr)
  | header {a h} (hh : (m.node a).hdr.type.code ≤ h.type.code) :
    Change L m [] (m.setNode a fun pg => { pg with hdr := h })

variable {m m' : Mem n} {ptr : Ptr} {σ : List UInt8} {e e' : Entry}

namespace Entry.Grown

theorem refl (e : Entry) : Grown e e := by
  cases e with
  | null => exact .null
  | leaf => exact .leaf
  | node => exact .node le_rfl

theorem trans {e'' : Entry} (h : Grown e e') (h' : Grown e' e'') : Grown e e'' := by
  cases h with
  | null => exact h'
  | leaf => cases h'; exact .leaf
  | node h => cases h' with | node h' => exact .node (h.trans h')

theorem addr_eq (h : Grown e e') : e'.addr? = e.addr? := by cases h <;> rfl

theorem withPartial (b : UInt8) (e : Entry) : Grown e (e.withPartial b) := by
  cases e with
  | null => exact .null
  | leaf => exact .leaf
  | node => exact .node le_rfl

theorem withType {t : NodeType} (h : e.type.code ≤ t.code) : Grown e (e.withType t) := by
  cases e with
  | null => exact .null
  | leaf => exact .leaf
  | node => exact .node h

end Entry.Grown

theorem Mem.Below.trans {e'' : Entry} (h : m.Below e e') (h' : m.Below e' e'') : m.Below e e'' := by
  induction h with
  | here => exact h'
  | down _ ih => exact .down (ih h')

/-- Where a search by slot 0 starts does not matter beyond the block referred to. -/
theorem Entry.Grown.lift {e₁ : Entry} (h : e.Grown e₁) (hb : m.Below e e') :
    ∃ e₁', m.Below e₁ e₁' ∧ e'.Grown e₁' := by
  cases hb with
  | here => exact ⟨e₁, .here, h⟩
  | down hb => cases h with | node => exact ⟨e', .down hb, .refl _⟩

/-- What is found from a published slot is itself in a published slot. -/
theorem TreeInv.slot_of_below (ht : TreeInv L m) (hs : SlotPath L m ptr σ)
    (hb : m.Below (m.load ptr) e) : ∃ p τ, SlotPath L m p τ ∧ m.load p = e := by
  generalize hl : m.load ptr = e₀ at hb
  induction hb generalizing ptr σ with
  | here => exact ⟨ptr, σ, hs, hl⟩
  | @down b t a e h ih =>
    obtain ⟨π, ha, -⟩ : ∃ π, L a = some (.node π) ∧ σ <+: π := by
      have he := ht.entry hs
      rw [hl] at he
      cases he with | node ha hp => exact ⟨_, ha, hp⟩
    exact ih (.slot ha (ht.node a π ha).first) rfl

structure Grows (L : Layout) (m m' : Mem n) : Prop where
  hdr : ∀ a, L a ≠ none → (m.node a).hdr.type.code ≤ (m'.node a).hdr.type.code
  slot : ∀ ptr σ, SlotPath L m ptr σ → m.load ptr ≠ .null →
    ∃ e, m'.Below (m'.load ptr) e ∧ (m.load ptr).Grown e

/-- The last page of a chain keeps the old entry, and slot 0 leads to it. -/
theorem Chain.old_below {k : Key n} {diff : UInt8} {old : Entry} {l a : Addr} {depth len : ℕ}
    {pages : List (Addr × Page)} (h : Chain k diff old l depth len pages)
    (hw : ∀ q ∈ pages, ∀ i, m.load (.slot q.1 i) = q.2.slots i)
    (ha : (pages.map Prod.fst).headD 0 = a) (b : UInt8) :
    m.Below (.node b .node4 a) (old.withPartial diff) := by
  induction h generalizing a b with
  | @last x pg depth len _ _ hs =>
    obtain rfl : x = a := by simpa using ha
    refine .down ?_
    rw [hw _ (List.mem_singleton_self _) 0, hs]
    exact .here
  | @link x pg a' pg' rest depth len _ _ hs _ ih =>
    obtain rfl : x = a := by simpa using ha
    refine .down ?_
    rw [hw _ List.mem_cons_self 0, hs]
    exact ih (fun q hq => hw q (List.mem_cons_of_mem _ hq)) rfl _

theorem Mem.load_setNode_hdr (m : Mem n) (a : Addr) (h : Header) (p : Ptr) :
    (m.setNode a fun pg => { pg with hdr := h }).load p = m.load p := by
  cases p with
  | root => rfl
  | slot x i =>
    by_cases hx : x = a
    · subst hx; simp [Mem.load]
    · simp [Mem.load, Mem.setNode_ne _ _ hx]

namespace Change

theorem grows {ps : List (Addr × Obj)} (h : Change L m ps m') : Grows L m m' := by
  cases h with
  | quiet hl hh =>
    refine ⟨fun a ha => by rw [hh a ha], fun ptr σ hs _ => ⟨m.load ptr, ?_, .refl _⟩⟩
    rw [hl ptr hs.hasSlot]
    exact .here
  | @leaf b l p τ hv =>
    refine ⟨by simp, fun ptr σ hs he => ⟨m.load ptr, ?_, .refl _⟩⟩
    have hne : ptr ≠ p := by rintro rfl; exact he hv.load_null
    rw [Mem.load_store_ne _ _ hne]
    exact .here
  | @graft p τ k diff len l pages a b g ha hb =>
    refine ⟨by simp, fun ptr σ hs he => ?_⟩
    by_cases hp : ptr = p
    · subst hp
      rw [Mem.load_store_self]
      exact ⟨_, g.chain.old_below (fun q hq i => g.load_page hq _ i) ha b, .withPartial _ _⟩
    · rw [Mem.load_store_ne _ _ hp]
      exact ⟨_, .here, .refl _⟩
  | @entryType p τ t hs ht =>
    refine ⟨by simp, fun ptr σ _ he => ?_⟩
    by_cases hp : ptr = p
    · subst hp
      rw [Mem.load_store_self]
      exact ⟨_, .here, .withType ht⟩
    · rw [Mem.load_store_ne _ _ hp]
      exact ⟨_, .here, .refl _⟩
  | @header x h hh =>
    refine ⟨fun a _ => ?_, fun ptr σ _ he => ⟨m.load ptr, ?_, .refl _⟩⟩
    · by_cases ha : a = x
      · subst ha; simpa using hh
      · rw [Mem.setNode_ne _ _ ha]
    · rw [Mem.load_setNode_hdr]
      exact .here

end Change

namespace Grows
variable (h : Grows L m m') (ht : TreeInv L m)
include h ht

theorem below (he : EntryOk L m σ e) (hb : m.Below e e') : ∃ e₁, m'.Below e e₁ ∧ e'.Grown e₁ := by
  induction hb generalizing σ with
  | here => exact ⟨_, .here, .refl _⟩
  | @down b t a e _ ih =>
    cases he with
    | @node _ _ _ π ha _ =>
      have h0 := (ht.node a π ha).first
      have hs : SlotPath L m (.slot a 0) _ := .slot ha h0
      obtain ⟨e₁, hb₁, hg₁⟩ := ih (ht.entry hs)
      -- the slot itself may have been replaced meanwhile
      obtain ⟨e₂, hb₂, hg₂⟩ := h.slot _ _ hs h0
      obtain ⟨e₃, hb₃, hg₃⟩ := hg₂.lift hb₁
      exact ⟨e₃, .down (hb₂.trans hb₃), hg₁.trans hg₃⟩

theorem below_slot (hs : SlotPath L m ptr σ) (hb : m.Below (m.load ptr) e) (he : e ≠ .null) :
    ∃ e₁, m'.Below (m'.load ptr) e₁ ∧ e.Grown e₁ := by
  have hne : m.load ptr ≠ .null := by
    intro hn
    rw [hn] at hb
    cases hb
    exact he rfl
  obtain ⟨e₁, hb₁, hg₁⟩ := h.below ht (ht.entry hs) hb
  obtain ⟨e₂, hb₂, hg₂⟩ := h.slot _ _ hs hne
  obtain ⟨e₃, hb₃, hg₃⟩ := hg₂.lift hb₁
  exact ⟨e₃, hb₂.trans hb₃, hg₁.trans hg₃⟩

end Grows

end SmartTree
