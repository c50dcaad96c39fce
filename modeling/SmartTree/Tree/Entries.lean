import SmartTree.Tree.Ways

/-! `Tree::search_entries` on a tree at rest without a cached start. It follows the left bound down
to where the two bounds part and leaves the slots at or below that depth which hang highest. A node
that is read badly is read again. -/
namespace SmartTree
variable {n : ℕ} {L : Layout} {m : Mem n} {T : Transient n} {lo hi : Key n} {σ π : List UInt8}
  {p : Ptr} {d : ℕ}

/-- From depth 0 the comparison counts one more than the common bytes. -/
theorem longestCommonPrefix_zero (k k' : Key n) : ∃ d ≤ n, longestCommonPrefix k k' 0 = some (d + 1) ∧
    ∀ e ≤ n, (k.pre e = k'.pre e ↔ e ≤ d) := by
  obtain ⟨-, h2, h3, h4⟩ := lcpLoop_spec k k' 0 (n + 1) 0
  generalize hv : lcpLoop k k' 0 (n + 1) 0 = v at *
  simp only [zero_add] at h2 h3 h4
  have hpos : v ≠ 0 := by
    rintro rfl
    exact h4 (by omega) rfl
  refine ⟨v - 1, by omega, ?_, fun e he => ⟨fun heq => ?_, fun hle => ?_⟩⟩
  · rw [longestCommonPrefix, if_pos (by omega), Nat.sub_zero, hv, Nat.sub_add_cancel (by omega)]
  · by_contra hlt
    refine h4 (by omega) ?_
    have hk := Key.byte_eq_getElem (k := k) (d := v) (by omega) (by omega)
    have hk' := Key.byte_eq_getElem (k := k') (d := v) (by omega) (by omega)
    have hget := congrArg (fun l => l[v - 1]?) heq
    simp only [Key.pre, List.getElem?_take_of_lt (show v - 1 < e by omega)] at hget
    rw [hk, hk'] at hget
    exact Option.some.inj hget
  · have htake : k.bytes.take (0 + e) = k'.bytes.take (0 + e) :=
      Key.take_eq_of_bytes rfl (by omega) fun i hi => h3 (0 + 1 + i) (by omega) (by omega)
    rwa [zero_add] at htake

/-- The header against the left bound, up to the depth where the bounds part. -/
theorem headerWalk_cases {bs : List UInt8} {e : ℕ} (hπ : π.length < n) (he : 1 ≤ e) (hed : e ≤ d)
    (hbs : bs = π.drop (e - 1)) (hle : e ≤ π.length + 1) (hpre : π.take (e - 1) <+: lo.bytes) :
    (headerWalk lo (d + 1) e bs = some .mismatch ∧ ∃ ρ, ρ <+: π ∧ ρ.length ≤ d ∧ ¬ ρ <+: lo.bytes) ∨
    (headerWalk lo (d + 1) e bs = some .onPage ∧ d ≤ π.length) ∨
    (headerWalk lo (d + 1) e bs = some .through ∧ π <+: lo.bytes ∧ π.length < d) := by
  induction bs generalizing e with
  | nil =>
    have hlen : π.length ≤ e - 1 := List.drop_eq_nil_iff.mp hbs.symm
    rw [List.take_of_length_le hlen] at hpre
    exact .inr (.inr ⟨rfl, hpre, by omega⟩)
  | cons b bs ih =>
    have hlt : e - 1 < π.length := by
      by_contra hge
      rw [List.drop_eq_nil_of_le (by omega)] at hbs
      cases hbs
    rw [List.drop_eq_getElem_cons hlt] at hbs
    obtain ⟨hb', hbs'⟩ := List.cons.inj hbs
    subst hb'
    have htake : π.take e = π.take (e - 1) ++ [π[e - 1]] := by
      rw [← List.take_succ_eq_append_getElem hlt, show e - 1 + 1 = e by omega]
    have hlen : (π.take (e - 1)).length = e - 1 := by
      rw [List.length_take]
      omega
    have hnext := Key.append_byte_prefix hpre (by omega)
    rw [hlen, show e - 1 + 1 = e by omega] at hnext
    rw [headerWalk, getPartial_eq (show e ≤ n by omega)]
    simp only [Option.bind_eq_bind, Option.bind_some]
    by_cases hb : lo.byte e = π[e - 1]
    · rw [if_neg (by simp [hb])]
      by_cases hstop : e + 1 = d + 1
      · rw [if_pos hstop]
        exact .inr (.inl ⟨rfl, by omega⟩)
      · rw [if_neg hstop]
        refine ih (by omega) (by omega) ?_ (by omega) ?_
        · rw [hbs', show e - 1 + 1 = e + 1 - 1 by omega]
        · rw [show e + 1 - 1 = e by omega, htake, ← hb]
          exact hnext
    · rw [if_pos hb]
      refine .inl ⟨rfl, π.take e, List.take_prefix _ _, by simp; omega, fun hc => hb ?_⟩
      rw [htake] at hc
      have hlen' : ∀ b b' : UInt8, (π.take (e - 1) ++ [b]).length = (π.take (e - 1) ++ [b']).length :=
        fun b b' => by rw [List.length_append, List.length_append, List.length_singleton,
          List.length_singleton]
      exact List.singleton_inj.mp (List.append_cancel_left
        ((List.prefix_of_prefix_length_le hnext hc (hlen' _ _).le).eq_of_length (hlen' _ _)))

theorem State.Means.on_border {inner : List UInt8 → List UInt8 → Prop} [DecidableRel inner]
    {k : Key n} (h : σ <+: k.bytes) : State.Means inner k k σ .border :=
  ⟨(State.of_eq_border.mpr h).symm, by decide, fun _ => rfl, fun h => by cases h⟩

/-- What `search_entries` is to leave for the slots below a path: cold contexts, each the highest on
its way from the depth `d` on, and for each slot from there on that the query wants one above it. -/
structure Found (L : Layout) (m : Mem n) (lo hi : Key n) (d : ℕ) (σ : List UInt8)
    (found : List (ScanContext n)) : Prop where
  cold : ∀ s ∈ found, s.fromCache = false
  stands : ∀ s ∈ found, ∃ τ, Stands L m lo hi s τ ∧ Between lo hi τ ∧ d ≤ τ.length
  highest : ∀ s ∈ found, ∀ τ, Stands L m lo hi s τ → ∀ q ρ, SlotPath L m q ρ → ρ <+: τ →
    d ≤ ρ.length → q = s.ePtr
  covers : ∀ q τ, SlotPath L m q τ → m.load q ≠ .null → σ <+: τ → d ≤ τ.length →
    Between lo hi τ → ∃ s ∈ found, ∃ ρ, Stands L m lo hi s ρ ∧ ρ <+: τ

theorem Found.nil (h : ∀ q τ, SlotPath L m q τ → m.load q ≠ .null → σ <+: τ → d ≤ τ.length →
    ¬ Between lo hi τ) : Found L m lo hi d σ [] where
  cold := by simp
  stands := by simp
  highest := by simp
  covers q τ h1 h2 h3 h4 h5 := absurd h5 (h q τ h1 h2 h3 h4)

section round
variable (hr : World.Resting L m) (hle : lo ≤ hi) (hcommon : lo.pre d = hi.pre d)
  (hp : SlotPath L m p σ) (hσ : σ <+: lo.bytes) (hσd : σ.length ≤ d)

include hcommon in
/-- The keys of the query have the first `d` bytes of the left bound. -/
theorem Between.prefix_lo {τ : List UInt8} (h : Between lo hi τ) (hτ : τ.length ≤ d) :
    τ <+: lo.bytes := by
  obtain ⟨y, hy, h1, h2⟩ := h
  have htake := Key.take_eq_of_between hcommon h1 h2
  rw [← show lo.bytes.take d = hi.bytes.take d from hcommon] at htake
  have : τ <+: y.bytes.take d := List.prefix_take_iff.mpr ⟨hy, hτ⟩
  rw [htake] at this
  exact this.trans (List.take_prefix _ _)

include hcommon hp hσ hσd in
theorem Stands.border (hne : m.load p ≠ .null) :
    Stands L m lo hi ⟨m.load p, p, σ.length, false, lo, hi, .border, .border⟩ σ where
  slot := hp
  depth := rfl
  entry := rfl
  full := hne
  bounds _ _ _ _ := by
    refine ⟨.on_border hσ, .on_border ?_⟩
    have : σ <+: lo.bytes.take d := List.prefix_take_iff.mpr ⟨hσ, hσd⟩
    rw [show lo.bytes.take d = hi.bytes.take d from hcommon] at this
    exact this.trans (List.take_prefix _ _)

include hr hle hcommon hp hσ hσd

/-- The node the walk passes: the search ends there, or goes on at the slot of the left bound's
next byte. -/
theorem searchEntries_node {b : UInt8} {t : NodeType} {a : Addr} (hl : m.load p = .node b t a)
    (ha : L a = some (.node π)) (hσπ : σ <+: π) (hlt : σ.length < d) :
    ∃ r, searchEntries m lo hi (d + 1) ⟨p, m.load p, σ.length + 1, false⟩ = some r ∧
    (r.next = none ∧ Found L m lo hi d σ r.found ∨
      ∃ j, m.load (.slot a j) ≠ .null ∧
        r.next = some ⟨.slot a j, m.load (.slot a j), π.length + 1 + 1, false⟩ ∧ π.length < d ∧
        π ++ [(m.load (.slot a j)).partialKey] <+: lo.bytes ∧
        ∀ found, Found L m lo hi d (π ++ [(m.load (.slot a j)).partialKey]) found →
          Found L m lo hi d σ found) := by
  have ht := hr.tree
  have hn := ht.node a π ha
  have hnull : m.load p ≠ .null := by simp [hl]
  have hdepth : (m.node a).hdr.depth ≤ σ.length + 1 :=
    ht.attached a π ha p σ hp (by rw [hl]; rfl)
  have hvalid : (m.node a).isValid p (σ.length + 1) false = true := by
    simp [Page.isValid, hn.type, hdepth]
  have htype : (Entry.node b t a).withType (m.node a).hdr.type = .node b t a := by
    rw [← hr.type p σ b t a hp hl]
    rfl
  -- a slot the query wants hangs below a slot of this node
  have hbelow : ∀ {q τ}, SlotPath L m q τ → σ <+: τ → d ≤ τ.length →
      ∃ j, m.load (.slot a j) ≠ .null ∧ π ++ [(m.load (.slot a j)).partialKey] <+: τ := by
    intro q τ hq hpre hlen
    refine ht.child_on_way hp hl ha hq hpre ?_
    rintro rfl
    have := hp.unique hq
    subst this
    omega
  have habove : π.take ((m.node a).hdr.depth - 1) <+: σ :=
    List.prefix_of_prefix_length_le (List.take_prefix _ _) hσπ (by simp; omega)
  have hwalk := headerWalk_cases (d := d) hn.short hn.hdr.pos (by omega) hn.hdr.partials
    hn.hdr.le (habove.trans hσ)
  rw [hl]
  unfold searchEntries
  rw [if_neg (by simp), if_neg (by simpa using hlt.ne)]
  dsimp only [readNode]
  rw [hvalid, htype]
  obtain ⟨hw, ρ, hρ, hρd, hρlo⟩ | ⟨hw, hlen⟩ | ⟨hw, hπlo, hπd⟩ := hwalk
  · rw [hw]
    refine ⟨_, rfl, .inl ⟨rfl, .nil fun q τ hq _ hpre hlen hb => hρlo ?_⟩⟩
    obtain ⟨j, -, hj⟩ := hbelow hq hpre hlen
    exact (hb.mono (hρ.trans ((List.prefix_append _ _).trans hj))).prefix_lo hcommon hρd
  · have hst := Stands.border hcommon hp hσ hσd hnull
    obtain ⟨calls, ctxs, hc, h1, h2⟩ := hst.children hr hl ha hσπ (m.node a)
    have hpage : fetchPage m ⟨m.load p, p, σ.length, false, lo, hi, .border, .border⟩ (m.node a) =
        m.node a := by
      simp [fetchPage, hl]
    rw [hpage] at hc
    simp only [hl] at hc
    rw [hw]
    simp only [Option.bind_eq_bind, Option.bind_some, Nat.add_sub_cancel, hc]
    refine ⟨_, rfl, .inl ⟨rfl, fun s hs => (h1 s hs).1, fun s hs => ?_, fun s hs τ hτ q ρ hq hρ hdρ => ?_,
      fun q τ hq _ hpre hdτ hb => ?_⟩⟩
    · obtain ⟨-, j, -, hk, hst'⟩ := h1 s hs
      exact ⟨_, hst', hk.between hle hn.short, by simp; omega⟩
    · -- between the slot of the node and its children there is no slot
      obtain ⟨-, j, hptr, -, hst'⟩ := h1 s hs
      obtain rfl := hτ.slot.unique hst'.slot
      have hσρ : σ <+: ρ :=
        List.prefix_of_prefix_length_le (hσπ.trans (List.prefix_append _ _)) hρ (by omega)
      obtain ⟨j', hj', hpre⟩ := hbelow hq hσρ hdρ
      obtain rfl : ρ = π ++ [(m.load (.slot a j)).partialKey] :=
        hρ.eq_of_length_le (by simpa using hpre.length_le)
      exact ht.slot_unique hq hst'.slot
    · obtain ⟨j, hj, hjτ⟩ := hbelow hq hpre hdτ
      obtain ⟨s, hs, hptr⟩ := h2 j (kept_of_between hj (hb.mono hjτ))
      obtain ⟨-, j', hptr', -, hst'⟩ := h1 s hs
      obtain rfl : j' = j := by
        rw [hptr'] at hptr
        cases hptr
        rfl
      exact ⟨s, hs, _, hst', hjτ⟩
  · have hbyte := Key.append_byte_prefix hπlo hn.short
    -- a slot the query wants hangs below the one with the left bound's byte
    have hnext : ∀ {q τ}, SlotPath L m q τ → σ <+: τ → d ≤ τ.length → Between lo hi τ →
        ∃ j, m.load (.slot a j) ≠ .null ∧ (m.load (.slot a j)).partialKey = lo.byte (π.length + 1) ∧
          π ++ [(m.load (.slot a j)).partialKey] <+: τ := by
      intro q τ hq hpre hdτ hb
      obtain ⟨j, hj, hjτ⟩ := hbelow hq hpre hdτ
      have hlo := (hb.mono hjτ).prefix_lo hcommon (by simpa using hπd)
      have := (List.prefix_of_prefix_length_le hlo hbyte (by simp)).eq_of_length (by simp)
      exact ⟨j, hj, by simpa using this, hjτ⟩
    simp only [hw, hn.hdr.end_eq, getPartial_eq (show π.length + 1 ≤ n from hn.short)]
    refine ⟨_, rfl, ?_⟩
    simp only [descendTo, Entry.type_node]
    cases hfind : (List.range t.num).find? fun i => !((m.node a).slots i).isNull &&
        ((m.node a).slots i).partialKey == lo.byte (π.length + 1) with
    | none =>
      refine .inl ⟨rfl, .nil fun q τ hq _ hpre hdτ hb => ?_⟩
      obtain ⟨j, hj, hb', -⟩ := hnext hq hpre hdτ hb
      have hjn := hr.slot a π j ha hj
      rw [← hr.type p σ b t a hp hl] at hjn
      have := List.find?_eq_none.mp hfind j (List.mem_range.mpr hjn)
      exact this (by simpa [show (m.node a).slots j = m.load (.slot a j) from rfl, hb', Entry.isNull]
        using hj)
    | some j =>
      have htest := List.find?_some hfind
      rw [Bool.and_eq_true, show (m.node a).slots j = m.load (.slot a j) from rfl] at htest
      obtain ⟨hj, hb⟩ : m.load (.slot a j) ≠ .null ∧
          (m.load (.slot a j)).partialKey = lo.byte (π.length + 1) := by
        simpa [Entry.isNull] using htest
      refine .inr ⟨j, hj, rfl, hπd, hb ▸ hbyte, fun found hf => ⟨hf.cold, hf.stands, hf.highest, ?_⟩⟩
      intro q τ hq hne hpre hdτ hbet
      obtain ⟨j', hj', hb', hjτ⟩ := hnext hq hpre hdτ hbet
      obtain rfl := hn.distinct j j' hj hj' (hb.trans hb'.symm)
      exact hf.covers q τ hq hne hjτ hdτ hbet

/-- A round that reads well ends the search, or goes on at the slot of the left bound's next byte,
below which everything the query wants hangs. -/
theorem searchEntries_round : ∃ r, searchEntries m lo hi (d + 1) ⟨p, m.load p, σ.length + 1, false⟩ =
      some r ∧
    (r.next = none ∧ Found L m lo hi d σ r.found ∨
      ∃ a π j, (m.load p).addr? = some a ∧ L a = some (.node π) ∧ m.load (.slot a j) ≠ .null ∧
        r.next = some ⟨.slot a j, m.load (.slot a j), π.length + 1 + 1, false⟩ ∧ π.length < d ∧
        π ++ [(m.load (.slot a j)).partialKey] <+: lo.bytes ∧ σ.length ≤ π.length ∧
        ∀ found, Found L m lo hi d (π ++ [(m.load (.slot a j)).partialKey]) found →
          Found L m lo hi d σ found) := by
  have ht := hr.tree
  by_cases hnull : m.load p = .null
  · refine ⟨{}, by simp [searchEntries, hnull], .inl ⟨rfl, .nil fun q τ hq hne hpre _ _ => ?_⟩⟩
    obtain rfl | ⟨b, t, a, π, hl, -⟩ := ht.slot_cases hp hq hpre
    · exact hne hnull
    · rw [hnull] at hl
      cases hl
  by_cases hdeep : σ.length = d
  · have hst := Stands.border hcommon hp hσ hσd hnull
    have hb : Between lo hi σ := ⟨lo, hσ, List.lt_irrefl lo.bytes, hle⟩
    refine ⟨{ found := [⟨m.load p, p, σ.length, false, lo, hi, .border, .border⟩] },
      by simp [searchEntries, hnull, hdeep], .inl ⟨rfl, ?_, ?_, fun s hs τ hτ q ρ hq hρ hdρ => ?_, ?_⟩⟩
    · simp
    · simpa using ⟨σ, hst, hb, hdeep.ge⟩
    · obtain rfl := List.mem_singleton.mp hs
      obtain rfl := hτ.slot.unique hp
      obtain rfl := hρ.eq_of_length_le (by omega)
      exact ht.slot_unique hq hp
    · exact fun q τ _ _ hpre _ _ => ⟨_, List.mem_singleton_self _, σ, hst, hpre⟩
  -- above the depth of the query, slots the query wants hang strictly below
  have hbelow : ∀ {q τ}, SlotPath L m q τ → d ≤ τ.length → p ≠ q := by
    rintro q τ hq hlen rfl
    have := hp.unique hq
    subst this
    omega
  cases hl : m.load p with
  | null => exact absurd hl hnull
  | leaf b l =>
    refine ⟨{}, by simp [searchEntries, hdeep], .inl ⟨rfl, .nil fun q τ hq _ hpre hlen _ => ?_⟩⟩
    obtain he | ⟨b, t, a, π, hl', -⟩ := ht.slot_cases hp hq hpre
    · exact hbelow hq hlen he
    · rw [hl] at hl'
      cases hl'
  | node b t a =>
    have hok := ht.entry hp
    rw [hl] at hok
    cases hok with
    | node ha hσπ =>
    rename_i π
    obtain ⟨r, hr', hstop | ⟨j, hj, hnext, hlen, hpre, hf⟩⟩ :=
      searchEntries_node hr hle hcommon hp hσ hσd hl ha hσπ (by omega)
    · exact ⟨r, hl ▸ hr', .inl hstop⟩
    · exact ⟨r, hl ▸ hr', .inr ⟨a, π, j, rfl, ha, hj, hnext, hlen, hpre, hσπ.length_le, hf⟩⟩

end round

section loop
variable {seen : List Addr}

theorem searchEntries_congr {m' : Mem n} {w : Walk} {target : ℕ}
    (h : ∀ b t a, w.p = .node b t a → w.depth ≠ target → m'.node a = m.node a ∧
      (m.node a).isValid w.pPtr w.depth w.fromCache = true) :
    searchEntries m' lo hi target w = searchEntries m lo hi target w := by
  unfold searchEntries
  by_cases hd : w.depth = target
  · simp [hd]
  cases hp : w.p with
  | null => rfl
  | leaf => rfl
  | node b t a =>
    obtain ⟨hn, hv⟩ := h b t a hp hd
    simp [readNode, hn, hv]

theorem Mem.through_load (h : ∀ a i, p = .slot a i → a ∈ seen) :
    (m.through (T.after seen)).load p = m.load p := by
  cases p with
  | root => rfl
  | slot a i =>
    rw [Mem.load, Mem.through_node (by simp [Transient.after, h a i rfl])]
    rfl

/-- The search returns with what it is to find; the blocks it has read hang above the depth of the
query. By induction on the rounds left: a node takes two if it is read badly at first. -/
theorem entriesLoop_found (hr : World.Resting L m) (hle : lo ≤ hi) (hcommon : lo.pre d = hi.pre d)
    (hT : ∀ q τ a π y, SlotPath L m q τ → (m.load q).addr? = some a → L a = some (.node π) →
      T a = some y → y.page.isValid q (τ.length + 1) false = false)
    (hp : SlotPath L m p σ) (hσ : σ <+: lo.bytes) (hσd : σ.length ≤ d)
    (hseen : ∀ a i, p = .slot a i → a ∈ seen) (fuel : ℕ)
    (hfuel : 2 * d + 1 ≤ fuel + 2 * σ.length ∨ 2 * d ≤ fuel + 2 * σ.length ∧ σ.length < d ∧
      ∃ a ∈ seen, (m.load p).addr? = some a) :
    ∃ found seen', entriesLoop m T lo hi (d + 1) fuel seen ⟨p, m.load p, σ.length + 1, false⟩ =
        some (found, seen') ∧ Found L m lo hi d σ found ∧
      ∀ a ∈ seen', a ∈ seen ∨ ∃ q τ, SlotPath L m q τ ∧ (m.load q).addr? = some a ∧ τ.length < d := by
  have ht := hr.tree
  induction fuel generalizing p σ seen with
  | zero => omega
  | succ fuel ih =>
    have hreads : ∀ a ∈ Walk.reads ⟨p, m.load p, σ.length + 1, false⟩ (d + 1) ++ seen, a ∈ seen ∨
        ∃ q τ, SlotPath L m q τ ∧ (m.load q).addr? = some a ∧ τ.length < d := by
      intro a ha
      obtain ha | ha := List.mem_append.mp ha
      · refine .inr ⟨p, σ, hp, ?_⟩
        cases hl : m.load p with
        | null => simp [Walk.reads, hl] at ha
        | leaf => simp [Walk.reads, hl] at ha
        | node b t x =>
          simp only [Walk.reads, hl] at ha
          split at ha
          · cases ha
          · obtain rfl := List.mem_singleton.mp ha
            exact ⟨rfl, by omega⟩
      · exact .inl ha
    rw [entriesLoop]
    by_cases hbad : ∃ b t a y, m.load p = .node b t a ∧ σ.length < d ∧ T.after seen a = some y
    · -- read again
      obtain ⟨b, t, a, y, hl, hlt, hy⟩ := hbad
      have ha : a ∉ seen ∧ T a = some y := by
        simpa [Transient.after] using hy
      have hok := ht.entry hp
      rw [hl] at hok
      cases hok with
      | node hLa hσπ =>
      have hinv := hT p σ a _ y hp (by rw [hl]; rfl) hLa ha.2
      have hround : ∃ ops, searchEntries (m.through (T.after seen)) lo hi (d + 1)
          ⟨p, m.load p, σ.length + 1, false⟩ =
            some { ops := ops, next := some ⟨p, m.load p, σ.length + 1, false⟩ } := by
        have hview := Mem.through_load (m := m) (T := T) hseen
        have hnode : (m.through (T.after seen)).node a = y.page := by simp [Mem.through, hy]
        unfold searchEntries
        rw [if_neg (by simp [hl]), if_neg (by simpa using hlt.ne)]
        simp only [hview, hl, readNode, hnode, hinv]
        exact ⟨_, rfl⟩
      obtain ⟨ops, hround⟩ := hround
      have hreads' : Walk.reads ⟨p, m.load p, σ.length + 1, false⟩ (d + 1) = [a] := by
        simp [Walk.reads, hl, hlt.ne]
      rw [hround]
      simp only [Option.bind_eq_bind, Option.bind_some]
      obtain ⟨found, seen', h1, h2, h3⟩ := ih hp hσ hσd
        (fun a' i he => List.mem_append_right [a] (hseen a' i he)) (.inr ⟨by
          obtain h | ⟨-, -, a', ha', hpa⟩ := hfuel
          · omega
          · rw [hl] at hpa
            cases hpa
            exact absurd ha' ha.1, hlt, a, by simp, by rw [hl]; rfl⟩)
      rw [hreads']
      refine ⟨found, seen', h1, h2, fun x hx => ?_⟩
      obtain hx | hx := h3 x hx
      · exact hreads x (hreads' ▸ hx)
      · exact .inr hx
    · have hsame : searchEntries (m.through (T.after seen)) lo hi (d + 1)
          ⟨p, m.load p, σ.length + 1, false⟩ =
            searchEntries m lo hi (d + 1) ⟨p, m.load p, σ.length + 1, false⟩ := by
        refine searchEntries_congr fun b t a hl hne => ?_
        have hl : m.load p = .node b t a := hl
        have hok := ht.entry hp
        rw [hl] at hok
        cases hok with
        | node hLa hσπ =>
        refine ⟨Mem.through_node ?_, ?_⟩
        · by_contra hy
          obtain ⟨y, hy⟩ := Option.ne_none_iff_exists'.mp hy
          exact hbad ⟨b, t, a, y, hl, by simp at hne; omega, hy⟩
        · simpa [Page.isValid, (ht.node a _ hLa).type] using
            ht.attached a _ hLa p σ hp (by rw [hl]; rfl)
      obtain ⟨r, hround, ⟨hnone, hfound⟩ | ⟨a, π, j, ha, hLa, hj, hnext, hlen, hpre, hσπ, hf⟩⟩ :=
        searchEntries_round hr hle hcommon hp hσ hσd
      · rw [hsame, hround]
        simp only [Option.bind_eq_bind, Option.bind_some, hnone]
        exact ⟨_, _, rfl, hfound, hreads⟩
      · obtain ⟨b, t, hl⟩ := ht.load_node hp ha hLa
        have hreads' : Walk.reads ⟨p, m.load p, σ.length + 1, false⟩ (d + 1) = [a] := by
          simp [Walk.reads, hl, show σ.length ≠ d by omega]
        have hlen' : (π ++ [(m.load (.slot a j)).partialKey]).length = π.length + 1 := by simp
        have hseen' : ∀ a' i, Ptr.slot a j = .slot a' i → a' ∈ [a] ++ seen := by
          intro a' i he
          cases he
          simp
        obtain ⟨found, seen', h1, h2, h3⟩ := ih (.slot hLa hj) hpre (by omega) hseen'
          (.inl (by omega))
        rw [hlen'] at h1
        rw [hsame, hround]
        simp only [Option.bind_eq_bind, Option.bind_some, hnext, hreads']
        refine ⟨found, seen', h1, hf found h2, fun x hx => ?_⟩
        obtain hx | hx := h3 x hx
        · exact hreads x (hreads' ▸ hx)
        · exact .inr hx

end loop
end SmartTree
