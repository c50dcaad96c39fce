import SmartTree.Tree.Visits

/-! The blocks a range query reads, told by the slots they hang at: a block is read iff some
context of the first level lies above it and the way from there down to it is clear. -/
namespace SmartTree
variable {n : ℕ} {L : Layout} {m : Mem n} {T : Transient n} {lo hi : Key n}
  {start : List (ScanContext n)} {s : ScanContext n} {σ τ π : List UInt8} {p q : Ptr} {x : Addr}

def Between (lo hi : Key n) (τ : List UInt8) : Prop := ∃ y : Key n, τ <+: y.bytes ∧ lo ≤ y ∧ y ≤ hi

theorem Between.mono (h : Between lo hi τ) (hσ : σ <+: τ) : Between lo hi σ :=
  h.imp fun _ hy => ⟨hσ.trans hy.1, hy.2⟩

theorem Between.le (h : Between lo hi τ) : lo ≤ hi := by
  obtain ⟨y, -, h1, h2⟩ := h
  rw [Key.le_iff] at h1 h2 ⊢
  exact h1.trans h2

theorem Between.length_le (h : Between lo hi τ) : τ.length ≤ n := by
  obtain ⟨y, hy, -⟩ := h
  simpa using hy.length_le

def Clear (L : Layout) (m : Mem n) (T : Transient n) (start : List (ScanContext n))
    (σ τ : List UInt8) (q : Ptr) : Prop :=
  ∀ p ρ a, SlotPath L m p ρ → σ <+: ρ → ρ <+: τ → p ≠ q → (m.load p).addr? = some a →
    ¬ Rejected m T start a

theorem kept_of_between {e : Entry} (he : e ≠ .null) (h : Between lo hi (π ++ [e.partialKey])) :
    Kept lo hi π e :=
  ⟨he, (exists_key_between h.le h.length_le).mp h⟩

theorem Kept.between {e : Entry} (h : Kept lo hi π e) (hle : lo ≤ hi) (hπ : π.length < n) :
    Between lo hi (π ++ [e.partialKey]) :=
  (exists_key_between hle (by simpa using hπ)).mpr h.2

section ways
variable (ht : TreeInv L m)
include ht

theorem TreeInv.same_path {q' : Ptr} {τ' : List UInt8} (hq : SlotPath L m q τ)
    (hq' : SlotPath L m q' τ') (hx : (m.load q).addr? = some x) (hx' : (m.load q').addr? = some x) :
    q = q' ∧ τ = τ' := by
  obtain rfl := ht.unique _ _ _ _ x hq hq' hx hx'
  exact ⟨rfl, hq.unique hq'⟩

/-- From a block that is read the query goes down to every slot it wants to reach. By induction on
how far the slot is below. -/
theorem Visited.down {a : Addr} (ha : Visited L m T lo hi start a) (hp : SlotPath L m p σ)
    (hpa : (m.load p).addr? = some a) (hq : SlotPath L m q τ) (hx : (m.load q).addr? = some x)
    (h : σ <+: τ) (hb : Between lo hi τ) (hc : Clear L m T start σ τ q) :
    Visited L m T lo hi start x := by
  induction hd : τ.length - σ.length using Nat.strong_induction_on generalizing p σ a with
  | _ d ih =>
    by_cases hpq : p = q
    · subst hpq
      rw [hpa] at hx
      obtain rfl := Option.some.inj hx
      exact ha
    · obtain he | ⟨b, t, a', π, hl, hLa, -⟩ := ht.slot_cases hp hq h
      · exact absurd he hpq
      · obtain rfl : a' = a := by simpa [hl] using hpa
        obtain ⟨j, hj, hpre⟩ := ht.child_on_way hp hl hLa hq h hpq
        have hσπ : σ <+: π := by
          have hok := ht.entry hp
          rw [hl] at hok
          cases hok with
          | node hLa' hσ =>
            obtain rfl := Obj.node.inj (Option.some.inj (hLa.symm.trans hLa'))
            exact hσ
        have hlen := hσπ.length_le
        have hτ := hpre.length_le
        simp only [List.length_append, List.length_singleton] at hτ
        obtain ⟨y, hy⟩ := Entry.addr?_ne_none hj
        have hrej := hc p σ a' hp List.prefix_rfl h hpq hpa
        refine ih _ ?_ (.child ha hrej hLa (kept_of_between hj (hb.mono hpre)) hy)
          (.slot hLa hj) hy hpre (fun p' ρ a'' hp' hσ' => ?_) rfl
        · simp only [List.length_append, List.length_singleton]
          omega
        · exact hc p' ρ a'' hp' ((hσπ.trans (List.prefix_append _ _)).trans hσ')

variable (hstart : ∀ s ∈ start, ∃ σ, Stands L m lo hi s σ ∧ Between lo hi σ)
include hstart

theorem Visited.way (h : Visited L m T lo hi start x) :
    ∃ s ∈ start, ∃ σ q τ, Stands L m lo hi s σ ∧ SlotPath L m q τ ∧ (m.load q).addr? = some x ∧
      σ <+: τ ∧ Between lo hi τ ∧ Clear L m T start σ τ q := by
  obtain ⟨i, h⟩ := h
  induction h with
  | @start s hs =>
    obtain ⟨σ, hσ, hb⟩ := hstart s hs
    obtain ⟨x, hx⟩ := Entry.addr?_ne_none hσ.full
    refine ⟨s, hs, σ, s.ePtr, σ, hσ, hσ.slot, by rw [hσ.entry, ScanContext.token, hx]; rfl,
      List.prefix_rfl, hb, fun p ρ a hp h1 h2 hne => ?_⟩
    obtain rfl := h2.eq_of_length_le h1.length_le
    exact absurd (ht.slot_unique hp hσ.slot) hne
  | @child _ a π j x _ hrej ha hk hx ih =>
    obtain ⟨s, hs, σ, q, τ, hσ, hq, hqa, hpre, hb, hc⟩ := ih
    obtain ⟨b, t, hl⟩ := ht.load_node hq hqa ha
    have hτπ : τ <+: π := by
      have hok := ht.entry hq
      rw [hl] at hok
      cases hok with
      | node hLa' hτ =>
        obtain rfl := Obj.node.inj (Option.some.inj (ha.symm.trans hLa'))
        exact hτ
    have hτ' : τ <+: π ++ [(m.load (.slot a j)).partialKey] := hτπ.trans (List.prefix_append _ _)
    refine ⟨s, hs, σ, _, _, hσ, .slot ha hk.1, hx, hpre.trans hτ',
      hk.between hb.le (ht.node a π ha).short, fun p ρ y hp h1 h2 hne hy => ?_⟩
    obtain h3 | h3 := List.prefix_or_prefix_of_prefix h2 hτ'
    · by_cases hpq : p = q
      · subst hpq
        rw [hqa] at hy
        obtain rfl := Option.some.inj hy
        exact hrej
      · exact hc p ρ y hp h1 h3 hpq hy
    · obtain rfl | ⟨b', t', a', π', hl', ha', hπ', hlen⟩ := ht.slot_cases hq hp h3
      · rw [hqa] at hy
        obtain rfl := Option.some.inj hy
        exact hrej
      · -- past the node itself there is only its slot
        rw [hl] at hl'
        cases hl'
        obtain rfl := Obj.node.inj (Option.some.inj (ha.symm.trans ha'))
        obtain rfl : ρ = π ++ [(m.load (.slot a j)).partialKey] :=
          h2.eq_of_length_le (by simpa using hlen)
        exact absurd (ht.slot_unique hp (.slot ha hk.1)) hne

theorem visited_iff (hq : SlotPath L m q τ) (hx : (m.load q).addr? = some x) :
    Visited L m T lo hi start x ↔ Between lo hi τ ∧
      ∃ s ∈ start, ∃ σ, Stands L m lo hi s σ ∧ σ <+: τ ∧ Clear L m T start σ τ q := by
  constructor
  · intro h
    obtain ⟨s, hs, σ, q', τ', hσ, hq', hx', hpre, hb, hc⟩ := h.way ht hstart
    obtain ⟨rfl, rfl⟩ := ht.same_path hq' hq hx' hx
    exact ⟨hb, s, hs, σ, hσ, hpre, hc⟩
  · rintro ⟨hb, s, hs, σ, hσ, hpre, hc⟩
    obtain ⟨y, hy⟩ := Entry.addr?_ne_none hσ.full
    exact (visited_start hs).down ht hσ.slot (by rw [hσ.entry, ScanContext.token, hy]; rfl) hq hx hpre
      hb hc

end ways
end SmartTree
