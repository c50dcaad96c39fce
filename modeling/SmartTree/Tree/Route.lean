import SmartTree.Tree.Structure

/-! The slots on the way of a key. Two published slots whose paths one key begins with are the
same, or the shorter one refers to a node above the other: the way of a key does not fork. -/
namespace SmartTree
variable {n : ℕ} {L : Layout} {m : Mem n} {p q : Ptr} {σ τ π : List UInt8} {a : Addr}

theorem SlotPath.eq_root (h : SlotPath L m p []) : p = .root := by
  generalize hσ : ([] : List UInt8) = σ at h
  cases h with
  | root => rfl
  | slot => simp at hσ

theorem SlotPath.length_le (h : SlotPath L m p σ) (ht : TreeInv L m) : σ.length ≤ n := by
  cases h with
  | root => simp
  | slot ha _ =>
    have := (ht.node _ _ ha).short
    simp only [List.length_append, List.length_singleton]
    omega

namespace TreeInv
variable (ht : TreeInv L m)
include ht

theorem load_leaf (hp : SlotPath L m p σ) (hpa : (m.load p).addr? = some a) (ha : L a = some .leaf) :
    ∃ b, m.load p = .leaf b a := by
  have hok := ht.entry hp
  cases he : m.load p with
  | null => simp [he] at hpa
  | leaf b x =>
    rw [he] at hpa
    cases hpa
    exact ⟨b, rfl⟩
  | node b t x =>
    rw [he] at hok hpa
    cases hpa
    cases hok with | node hx _ => rw [ha] at hx; cases hx

/-- The way does not fork: by induction on the two paths together, through the slots that refer
to the nodes the two slots belong to. -/
theorem slot_cases (hp : SlotPath L m p σ) (hq : SlotPath L m q τ) (h : σ <+: τ) :
    p = q ∨ ∃ b t a π, m.load p = .node b t a ∧ L a = some (.node π) ∧ π <+: τ ∧
      π.length < τ.length := by
  induction hs : σ.length + τ.length using Nat.strong_induction_on generalizing p q σ τ with
  | _ s ih =>
    cases hq with
    | root =>
      obtain rfl := List.prefix_nil.mp h
      exact .inl hp.eq_root
    | @slot a' i' π' ha' he' =>
      set τ := π' ++ [(m.load (.slot a' i')).partialKey] with hτ
      have hτlen : τ.length = π'.length + 1 := by simp [hτ]
      have hπτ : π' <+: τ := List.prefix_append _ _
      obtain ⟨q', ρ, b', t', hq', hl', hρ⟩ := ht.node_slot ha'
      have hρlen := hρ.length_le
      have hσlen := h.length_le
      obtain hle | hlt := Nat.lt_or_ge ρ.length σ.length
      swap
      · -- the slot lies above the one that refers to the other slot's node
        have hpre : σ <+: ρ := List.prefix_of_prefix_length_le h (hρ.trans hπτ) hlt
        obtain rfl | ⟨b, t, a, π, hl, ha, hπ, hlen⟩ := ih _ (by omega) hp hq' hpre rfl
        · exact .inr ⟨b', t', a', π', hl', ha', hπτ, by omega⟩
        · exact .inr ⟨b, t, a, π, hl, ha, hπ.trans (hρ.trans hπτ), by omega⟩
      · have hpre : ρ <+: σ := List.prefix_of_prefix_length_le (hρ.trans hπτ) h hle.le
        by_cases hστ : σ.length = τ.length
        · -- equally long: slots of two nodes with the same path
          left
          have hσ : σ = τ := h.eq_of_length hστ
          clear_value τ
          subst hσ
          cases hp with
          | root => simp at hle
          | @slot a i π ha he =>
            obtain ⟨rfl, hb⟩ := List.append_inj' hτ rfl
            obtain ⟨r, ρ', b, t, hr, hl, hρ'⟩ := ht.node_slot ha
            have hρlen' := hρ'.length_le
            have hnode : ∀ {r r' ρ ρ' b t b' t' x y}, SlotPath L m r ρ → SlotPath L m r' ρ' →
                m.load r = .node b t x → m.load r' = .node b' t' y → L x = some (.node π) →
                ρ <+: π → ρ' <+: π → ρ.length ≤ ρ'.length → x = y := by
              intro r r' ρ ρ' b t b' t' x y hr hr' hx hy hLx hρ hρ' hle
              have := hρ'.length_le
              obtain rfl | ⟨b₁, t₁, a₁, π₁, hl₁, ha₁, -, hlen₁⟩ :=
                ih _ (by omega) hr hr' (List.prefix_of_prefix_length_le hρ hρ' hle) rfl
              · rw [hx] at hy; cases hy; rfl
              · rw [hx] at hl₁
                cases hl₁
                obtain rfl := Obj.node.inj (Option.some.inj (hLx.symm.trans ha₁))
                omega
            have hsame : a = a' := by
              obtain hc | hc := Nat.le_total ρ.length ρ'.length
              · exact (hnode hq' hr hl' hl ha' hρ hρ' hc).symm
              · exact hnode hr hq' hl hl' ha hρ' hρ hc
            subst hsame
            rw [(ht.node a π ha).distinct i i' he he' (List.singleton_inj.mp hb)]
        · obtain rfl | ⟨b, t, a, π, hl, ha, hπ, hlen⟩ := ih _ (by omega) hq' hp hpre rfl
          · obtain rfl := hp.unique hq'
            omega
          · rw [hl'] at hl
            cases hl
            obtain rfl := Obj.node.inj (Option.some.inj (ha'.symm.trans ha))
            omega

theorem slot_unique (hp : SlotPath L m p σ) (hq : SlotPath L m q σ) : p = q := by
  obtain rfl | ⟨b, t, a, π, hl, ha, hπ, hlen⟩ := ht.slot_cases hp hq List.prefix_rfl
  · rfl
  · have hok := ht.entry hp
    rw [hl] at hok
    cases hok with
    | node ha' hpre =>
      obtain rfl := Obj.node.inj (Option.some.inj (ha.symm.trans ha'))
      have := hpre.length_le
      omega

theorem leaf_unique {b b' : UInt8} {l l' : Addr} (hp : SlotPath L m p σ) (hq : SlotPath L m q τ)
    (hl : m.load p = .leaf b l) (hl' : m.load q = .leaf b' l')
    (hk : (m.leaf l).key = (m.leaf l').key) : p = q := by
  have hσ : σ <+: (m.leaf l).key.bytes := by
    have hok := ht.entry hp
    rw [hl] at hok
    cases hok with | leaf _ hk => exact hk
  have hτ : τ <+: (m.leaf l).key.bytes := by
    have hok := ht.entry hq
    rw [hl'] at hok
    cases hok with | leaf _ hk' => exact hk ▸ hk'
  obtain hc | hc := List.prefix_or_prefix_of_prefix hσ hτ
  · obtain rfl | ⟨b, t, a, π, hn, -⟩ := ht.slot_cases hp hq hc
    · rfl
    · rw [hl] at hn; cases hn
  · obtain rfl | ⟨b, t, a, π, hn, -⟩ := ht.slot_cases hq hp hc
    · rfl
    · rw [hl'] at hn; cases hn

theorem spells_unique {b b' : UInt8} {l l' : Addr} (h : Spells m σ (.leaf b l)) (h' : Spells m τ (.leaf b' l'))
    (hk : (m.leaf l).key = (m.leaf l').key) : σ = τ ∧ l = l' := by
  obtain ⟨p, hp, hl⟩ := ht.slot_of_spells h
  obtain ⟨q, hq, hl'⟩ := ht.slot_of_spells h'
  obtain rfl := ht.leaf_unique hp hq hl hl' hk
  refine ⟨hp.unique hq, ?_⟩
  rw [hl] at hl'
  cases hl'
  rfl

theorem child_on_way {b : UInt8} {t : NodeType} (hp : SlotPath L m p σ) (hl : m.load p = .node b t a)
    (ha : L a = some (.node π)) (hq : SlotPath L m q τ) (h : σ <+: τ) (hne : p ≠ q) :
    ∃ j, m.load (.slot a j) ≠ .null ∧ π ++ [(m.load (.slot a j)).partialKey] <+: τ := by
  induction hs : τ.length using Nat.strong_induction_on generalizing q τ with
  | _ s ih =>
    have hπ : π <+: τ ∧ π.length < τ.length := by
      obtain rfl | ⟨b', t', a', π', hl', ha', hπ, hlen⟩ := ht.slot_cases hp hq h
      · exact absurd rfl hne
      · rw [hl] at hl'
        cases hl'
        obtain rfl := Obj.node.inj (Option.some.inj (ha.symm.trans ha'))
        exact ⟨hπ, hlen⟩
    cases hq with
    | root => simp at hπ
    | @slot a' i' π' ha' he' =>
      by_cases hsame : a' = a
      · subst hsame
        obtain rfl := Obj.node.inj (Option.some.inj (ha.symm.trans ha'))
        exact ⟨i', he', List.prefix_rfl⟩
      · -- the slot that refers to the other slot's node is below too
        obtain ⟨q', ρ, b', t', hq', hl', hρ⟩ := ht.node_slot ha'
        have hne' : p ≠ q' := by
          rintro rfl
          rw [hl] at hl'
          cases hl'
          exact hsame rfl
        have hρτ : ρ <+: π' ++ [(m.load (.slot a' i')).partialKey] :=
          hρ.trans (List.prefix_append _ _)
        have hρlen := hρ.length_le
        have hτlen : (π' ++ [(m.load (.slot a' i')).partialKey]).length = π'.length + 1 := by simp
        obtain hc | hc := List.prefix_or_prefix_of_prefix h hρτ
        · obtain ⟨j, hj, hpre⟩ := ih _ (by omega) hq' hc hne' rfl
          exact ⟨j, hj, hpre.trans hρτ⟩
        · obtain he | ⟨b₁, t₁, a₁, π₁, hl₁, ha₁, hπ₁, hlen₁⟩ := ht.slot_cases hq' hp hc
          · exact absurd he.symm hne'
          · rw [hl'] at hl₁
            cases hl₁
            obtain rfl := Obj.node.inj (Option.some.inj (ha'.symm.trans ha₁))
            have hok := ht.entry hp
            rw [hl] at hok
            cases hok with
            | node ha₂ hσπ =>
              obtain rfl := Obj.node.inj (Option.some.inj (ha.symm.trans ha₂))
              have := hσπ.length_le
              omega

end TreeInv
end SmartTree
