import SmartTree.Tree.Raise
import SmartTree.Tree.Route

/-! Slots a search gets to see. `read_node` looks at the slots the header declares and no
further, so a leaf behind the declared size stays out of sight until the header has been
raised. Once every slot on the way of a block is below the declared sizes, it stays so:
splits only put small full nodes in between, and headers only grow. -/
namespace SmartTree
variable {n : ℕ} {L L' : Layout} {m m' : Mem n} {a : Addr} {τ σ π : List UInt8} {e : Entry}

inductive BytesOf (L : Layout) (m : Mem n) (a : Addr) : List UInt8 → Prop
  | node {π : List UInt8} (h : L a = some (.node π)) : BytesOf L m a π
  | leaf (h : L a = some .leaf) : BytesOf L m a (m.leaf a).key.bytes

/-- The slots on the way of these bytes are below the declared size of their node, but for
those excused. -/
def Shown (L : Layout) (m : Mem n) (ok : Addr → ℕ → List UInt8 → Prop) (τ : List UInt8) : Prop :=
  ∀ a i π, L a = some (.node π) → m.load (.slot a i) ≠ .null →
    π ++ [(m.load (.slot a i)).partialKey] <+: τ → i < (m.node a).hdr.type.num ∨ ok a i π

def Open (L : Layout) (m : Mem n) (len : ℕ) (e : Entry) : Prop :=
  ∀ a τ, e.addr? = some a → BytesOf L m a τ → Shown L m (fun _ _ π => π.length < len) τ

namespace BytesOf

theorem published (h : BytesOf L m a τ) : L a ≠ none := by
  cases h with
  | node h => simp [h]
  | leaf h => simp [h]

theorem unique (h : BytesOf L m a τ) (h' : BytesOf L m a σ) : τ = σ := by
  cases h with
  | node h =>
    cases h' with
    | node h' => exact Obj.node.inj (Option.some.inj (h.symm.trans h'))
    | leaf h' => rw [h] at h'; cases h'
  | leaf h =>
    cases h' with
    | node h' => rw [h] at h'; cases h'
    | leaf => rfl

theorem mono (h : BytesOf L m a τ) (hx : Extends L m L' m') : BytesOf L' m' a τ := by
  cases h with
  | node h => exact .node (hx.layout _ _ h)
  | leaf h =>
    rw [← hx.key a h]
    exact .leaf (hx.layout _ _ h)

end BytesOf

theorem EntryOk.bytesOf (h : EntryOk L m σ e) (ha : e.addr? = some a) :
    ∃ τ, BytesOf L m a τ ∧ σ <+: τ := by
  cases h with
  | null => cases ha
  | leaf hl hk => cases ha; exact ⟨_, .leaf hl, hk⟩
  | node hn hp => cases ha; exact ⟨_, .node hn, hp⟩

theorem Key.byte_of_append_prefix {k : Key n} {b : UInt8} (h : π ++ [b] <+: k.bytes) :
    b = k.byte (π.length + 1) := by
  have hlt : π.length < n := by
    have := h.length_le
    rw [List.length_append, List.length_singleton, k.length_bytes] at this
    omega
  have hk := Key.append_byte_prefix ((List.prefix_append _ _).trans h) hlt
  have heq := (List.prefix_of_prefix_length_le h hk (by simp)).eq_of_length (by simp)
  simpa using heq

/-- No slot on the way of a block is longer than the one that refers to it. -/
theorem TreeInv.last_on_way (ht : TreeInv L m) {p q : Ptr} {ρ : List UInt8}
    (hp : SlotPath L m p σ) (hpa : (m.load p).addr? = some a) (hb : BytesOf L m a τ)
    (hq : SlotPath L m q ρ) (hρ : ρ <+: τ) : ρ <+: σ := by
  obtain ⟨τ', hb', hσ⟩ := (ht.entry hp).bytesOf hpa
  obtain rfl := hb.unique hb'
  obtain h | h := List.prefix_or_prefix_of_prefix hρ hσ
  · exact h
  · obtain rfl | ⟨b, t, x, π, hl, hx, -, hlen⟩ := ht.slot_cases hp hq h
    · exact (hp.unique hq) ▸ List.prefix_rfl
    · rw [hl] at hpa
      cases hpa
      obtain rfl := hb.unique (.node hx)
      exact absurd hρ.length_le (by omega)

theorem TreeInv.leaf_on_way (ht : TreeInv L m) {p : Ptr} {b : UInt8} {l : Addr}
    (hp : SlotPath L m p σ) (hl : m.load p = .leaf b l) (hb : BytesOf L m a τ) (hσ : σ <+: τ) :
    a = l := by
  obtain ⟨q, ρ, hq, hqa⟩ := ht.parent a hb.published
  obtain rfl | ⟨b', t, x, π, hn, -⟩ := ht.slot_cases hp hq (ht.last_on_way hq hqa hb hp hσ)
  · rw [hl] at hqa
    exact (Option.some.inj hqa).symm
  · rw [hl] at hn
    cases hn

namespace Graft
variable {ptr : Ptr} {k : Key n} {diff : UInt8} {len : ℕ} {l x : Addr} {b : UInt8}
  {pages : List (Addr × Page)} (g : Graft L m ptr σ k diff len l pages)
include g

theorem page_slot_shown {q : Addr × Page} (hq : q ∈ pages) {e : Entry} {i : ℕ}
    (he : (m.store e ptr).load (.slot q.1 i) ≠ .null) :
    i < ((m.store e ptr).node q.1).hdr.type.num := by
  obtain ⟨d, j, -, -, hh, -⟩ := g.chain.page hq
  have hlt : i < 2 := by
    by_contra hge
    rw [g.load_page hq] at he
    exact he (g.chain.slots_null hq (not_lt.mp hge))
  have hnum : 2 ≤ NodeType.node4.num := by decide
  rw [Mem.store_hdr, (g.written q hq).1, hh]
  exact hlt.trans_le hnum

theorem slot_kept (hb : (m.load ptr).partialKey = b) {p : Ptr}
    (he : (m.store (.node b .node4 x) ptr).load p ≠ .null) : m.load p ≠ .null ∧
      ((m.store (.node b .node4 x) ptr).load p).partialKey = (m.load p).partialKey := by
  by_cases hp : p = ptr
  · subst hp
    rw [Mem.load_store_self, Entry.partialKey_node, hb]
    exact ⟨g.full, rfl⟩
  · rw [Mem.load_store_ne _ _ hp] at he ⊢
    exact ⟨he, rfl⟩

theorem leaves : ¬ k.bytes.take (σ.length + len) ++ [diff] <+: k.bytes := by
  intro h
  have hfit := g.fits
  have hlen : (k.bytes.take (σ.length + len)).length + 1 = σ.length + 1 + len := by
    rw [List.length_take, k.length_bytes]
    omega
  have hb := Key.byte_of_append_prefix h
  rw [hlen] at hb
  exact g.differs hb

end Graft

namespace Shown
variable {ok : Addr → ℕ → List UInt8 → Prop}

theorem of_prefix (h : Shown L m ok τ) (hσ : σ <+: τ) : Shown L m ok σ :=
  fun a i π ha he hp => h a i π ha he (hp.trans hσ)

theorem weaken {ok' : Addr → ℕ → List UInt8 → Prop} (h : Shown L m ok τ)
    (hok : ∀ a i π, L a = some (.node π) → m.load (.slot a i) ≠ .null →
      π ++ [(m.load (.slot a i)).partialKey] <+: τ → ok a i π →
        i < (m.node a).hdr.type.num ∨ ok' a i π) : Shown L m ok' τ := by
  intro a i π ha he hp
  obtain hi | hi := h a i π ha he hp
  · exact .inl hi
  · exact hok a i π ha he hp hi

/-- A slot whose words and whose header stay, or grow, is shown as before. -/
theorem slot_mono (h : Shown L m ok τ) {i : ℕ} (ha : L a = some (.node π))
    (he : m.load (.slot a i) ≠ .null)
    (hp : π ++ [(m.load (.slot a i)).partialKey] <+: τ)
    (hh : (m.node a).hdr.type.code ≤ (m'.node a).hdr.type.code) :
    i < (m'.node a).hdr.type.num ∨ ok a i π :=
  (h a i π ha he hp).imp_left fun hi => hi.trans_le (NodeType.num_mono hh)

/-- The way of a published block stays shown, whatever a step does. -/
theorem mono (h : Shown L m ok τ) (hb : BytesOf L m a τ) {ps : List (Addr × Obj)}
    (hc : Change L m ps m') (ht' : TreeInv (L.publish ps) m') (hx : Extends L m (L.publish ps) m') :
    Shown (L.publish ps) m' ok τ := by
  have hg := hc.grows
  have hb' := hb.mono hx
  intro x i ρ hx' he hρ
  cases hc with
  | quiet hl hh =>
    rw [hl _ (by simp [HasSlot, show L x = some (.node ρ) from hx'])] at he hρ
    exact h.slot_mono hx' he hρ (hg.hdr x (by simp [show L x = some (.node ρ) from hx']))
  | @leaf b l ptr σ hv hl =>
    have hLx := publish_leaf_node hl hx'
    by_cases hptr : Ptr.slot x i = ptr
    · -- the new leaf is on nobody's way
      subst hptr
      have hload : (m.store (.leaf b l) (.slot x i)).load (.slot x i) = .leaf b l :=
        Mem.load_store_self ..
      obtain rfl := ht'.leaf_on_way (.slot hx' he) hload hb' hρ
      exact absurd hl hb.published
    · rw [Mem.load_store_ne _ _ hptr] at he hρ
      exact h.slot_mono hLx he hρ (hg.hdr x (by simp [hLx]))
  | @graft ptr σ k diff len l pages x₀ b g ha₀ hb₀ =>
    obtain hLx | ⟨-, ho⟩ | ⟨q, hq, rfl, -⟩ := g.layout_cases hx'
    · obtain ⟨hne, hbyte⟩ := g.slot_kept hb₀ he
      exact h.slot_mono hLx hne (hbyte ▸ hρ) (hg.hdr x (by simp [hLx]))
    · cases ho
    · exact .inl (g.page_slot_shown hq he)
  | @entryType ptr σ t hs hty =>
    have halike : ∀ p, (m.load p).Alike ((m.store ((m.load ptr).withType t) ptr).load p) := by
      intro p
      rw [Mem.load_store]
      split
      · rename_i hp
        exact hp ▸ Entry.Alike.withType _ _
      · exact .refl _
    rw [(halike _).partialKey_eq] at hρ
    exact h.slot_mono hx' ((halike _).null_iff.not.mp he) hρ
      (hg.hdr x (by simp [show L x = some (.node ρ) from hx']))
  | @header y hd hh =>
    rw [Mem.load_setNode_hdr] at he hρ
    exact h.slot_mono hx' he hρ (hg.hdr x (by simp [show L x = some (.node ρ) from hx']))

end Shown

namespace Open

theorem of_load (ht : TreeInv L m) {p : Ptr} (hp : SlotPath L m p σ) :
    Open L m σ.length (m.load p) := by
  intro a τ ha hb x i π hx he hπ
  have := (ht.last_on_way hp ha hb (.slot hx he) hπ).length_le
  simp only [List.length_append, List.length_singleton] at this
  exact .inr this

theorem alike {e' : Entry} {len : ℕ} (h : Open L m len e) (he : e'.addr? = e.addr?) :
    Open L m len e' := fun a τ ha hb => h a τ (he ▸ ha) hb

theorem null (len : ℕ) : Open L m len .null := fun a τ ha _ => by cases ha

theorem mono {len : ℕ} (h : Open L m len e) (he : EntryOk L m σ e) {ps : List (Addr × Obj)}
    (hc : Change L m ps m') (ht' : TreeInv (L.publish ps) m') (hx : Extends L m (L.publish ps) m') :
    Open (L.publish ps) m' len e := by
  intro a τ ha hb
  obtain ⟨τ', hb', -⟩ := he.bytesOf ha
  obtain rfl := hb.unique (hb'.mono hx)
  exact (h a τ ha hb').mono hb' hc ht' hx

/-- From the way of a node to the way of what one of its slots holds or held, but for that
slot. -/
theorem below_but (ht : TreeInv L m) {x : Addr} {i : ℕ} {b : UInt8} {t : NodeType}
    (hx : L x = some (.node π)) (h : Open L m 0 (.node b t x)) (he : m.load (.slot x i) ≠ .null)
    (hok : EntryOk L m (π ++ [(m.load (.slot x i)).partialKey]) e)
    (ho : Open L m (π.length + 1) e) (ha : e.addr? = some a) (hb : BytesOf L m a τ) :
    Shown L m (fun y j _ => y = x ∧ j = i) τ := by
  obtain ⟨τ', hb', hpre⟩ := hok.bytesOf ha
  obtain rfl := hb.unique hb'
  refine (ho a τ ha hb).weaken fun y j ρ hy hne hρ hlen => ?_
  have hle : ρ ++ [(m.load (.slot y j)).partialKey] <+: π ++ [(m.load (.slot x i)).partialKey] := by
    refine List.prefix_of_prefix_length_le hρ hpre ?_
    simp only [List.length_append, List.length_singleton]
    omega
  by_cases heq : ρ.length = π.length
  · have hsame := hle.eq_of_length (by simp [heq])
    have hptr := ht.slot_unique (hsame ▸ SlotPath.slot hy hne) (.slot hx he)
    cases hptr
    exact .inr ⟨rfl, rfl⟩
  · have hρπ : ρ ++ [(m.load (.slot y j)).partialKey] <+: π := by
      refine List.prefix_of_prefix_length_le hle (List.prefix_append _ _) ?_
      simp only [List.length_append, List.length_singleton]
      omega
    exact .inl ((h x π rfl (.node hx) y j ρ hy hne hρπ).resolve_right (Nat.not_lt_zero _))

theorem below (ht : TreeInv L m) {x : Addr} {i : ℕ} {b : UInt8} {t : NodeType}
    (hx : L x = some (.node π)) (h : Open L m 0 (.node b t x)) (he : m.load (.slot x i) ≠ .null)
    (hi : i < (m.node x).hdr.type.num)
    (hok : EntryOk L m (π ++ [(m.load (.slot x i)).partialKey]) e)
    (ho : Open L m (π.length + 1) e) : Open L m 0 e := by
  intro a τ ha hb
  refine (below_but ht hx h he hok ho ha hb).weaken fun y j ρ _ _ _ hyj => ?_
  obtain ⟨rfl, rfl⟩ := hyj
  exact .inl hi

theorem reload (ht : TreeInv L m) {p : Ptr} (hp : SlotPath L m p σ) (he : EntryOk L m σ e)
    (hne : e ≠ .null) (h : Open L m 0 e) : Open L m 0 (m.load p) := by
  intro a τ ha hb
  refine (of_load ht hp a τ ha hb).weaken fun y j ρ hy hyj hρ hlen => ?_
  obtain ⟨x, hx⟩ := Entry.addr?_ne_none hne
  obtain ⟨τ', hb', hσ'⟩ := he.bytesOf hx
  exact h x τ' hx hb' y j ρ hy hyj ((ht.last_on_way hp ha hb (.slot hy hyj) hρ).trans hσ')

theorem shown (h : Open L m 0 e) (ha : e.addr? = some a) (hb : BytesOf L m a τ) :
    Shown L m (fun _ _ _ => False) τ :=
  (h a τ ha hb).weaken fun _ _ _ _ _ _ hlen => absurd hlen (Nat.not_lt_zero _)

end Open

section graft
variable {ptr : Ptr} {k : Key n} {diff : UInt8} {len : ℕ} {l x : Addr} {b : UInt8}
  {pages : List (Addr × Page)} (g : Graft L m ptr σ k diff len l pages)
include g

theorem Graft.shown (ht : TreeInv L m) (hb : (m.load ptr).partialKey = b)
    (ho : Open L m 0 (m.load ptr)) :
    Shown (L.publish (grafted k l pages)) (m.store (.node b .node4 x) ptr) (fun _ _ _ => False)
      k.bytes := by
  intro y i ρ hy he hρ
  left
  obtain hLy | ⟨-, h⟩ | ⟨q, hq, rfl, -⟩ := g.layout_cases hy
  · obtain ⟨hne, hbyte⟩ := g.slot_kept hb he
    rw [hbyte] at hρ
    obtain ⟨a, ha⟩ := Entry.addr?_ne_none g.full
    obtain ⟨τ, hτ, hστ⟩ := (ht.entry g.slot).bytesOf ha
    rw [Mem.store_hdr]
    obtain hσ | hσ := List.prefix_or_prefix_of_prefix hρ g.key
    · exact (ho a τ ha hτ y i ρ hLy hne (hσ.trans hστ)).resolve_right (Nat.not_lt_zero _)
    · -- an old slot below the split is not on the way of the key
      obtain rfl | ⟨b', t, z, π, hl, hz, hπ, -⟩ := ht.slot_cases g.slot (.slot hLy hne) hσ
      · have hst := (g.slot.unique (.slot hLy hne)) ▸ hστ
        exact (ho a τ ha hτ y i ρ hLy hne hst).resolve_right (Nat.not_lt_zero _)
      · have hold := g.old
        rw [hl] at hold
        cases hold with
        | node hz' hpre =>
          obtain rfl := Obj.node.inj (Option.some.inj (hz.symm.trans hz'))
          exact absurd (hpre.trans (hπ.trans hρ)) g.leaves
  · cases h
  · exact g.page_slot_shown hq he

end graft
end SmartTree
