import SmartTree.Tree.Levels

/-! The levels of a range query on a tree at rest. A block is read once; the blocks read in the
end are those found from the first level by going down to the slots the query keeps, past the
blocks that were read well and whose cached entry was accepted. -/
namespace SmartTree
variable {n : ℕ} {L : Layout} {m : Mem n} {T : Transient n} {crc : Key n → Value → UInt64}
  {lo hi fromKey toKey : Key n} {start : List (ScanContext n)} {π : List UInt8}

def Cached (start : List (ScanContext n)) (a : Addr) : Prop :=
  ∃ s ∈ start, s.token = a ∧ s.fromCache = true

/-- The first read of the block is not the block, or its reverse pointer speaks against its cached
entry. -/
def Rejected (m : Mem n) (T : Transient n) (start : List (ScanContext n)) (a : Addr) : Prop :=
  T a ≠ none ∨ ∃ s ∈ start, s.token = a ∧ ¬ s.Accepted m

inductive VisitedAt (L : Layout) (m : Mem n) (T : Transient n) (lo hi : Key n)
    (start : List (ScanContext n)) : ℕ → Addr → Prop
  | start {s : ScanContext n} (h : s ∈ start) : VisitedAt L m T lo hi start 0 s.token
  | child {i : ℕ} {a : Addr} {π : List UInt8} {j : ℕ} {x : Addr}
      (h : VisitedAt L m T lo hi start i a) (hr : ¬ Rejected m T start a)
      (ha : L a = some (.node π)) (hk : Kept lo hi π (m.load (.slot a j)))
      (hx : (m.load (.slot a j)).addr? = some x) : VisitedAt L m T lo hi start (i + 1) x

def Visited (L : Layout) (m : Mem n) (T : Transient n) (lo hi : Key n) (start : List (ScanContext n))
    (a : Addr) : Prop :=
  ∃ i, VisitedAt L m T lo hi start i a

theorem visited_start {s : ScanContext n} (h : s ∈ start) : Visited L m T lo hi start s.token :=
  ⟨0, .start h⟩

theorem Visited.child {a x : Addr} {j : ℕ} (h : Visited L m T lo hi start a)
    (hr : ¬ Rejected m T start a) (ha : L a = some (.node π))
    (hk : Kept lo hi π (m.load (.slot a j))) (hx : (m.load (.slot a j)).addr? = some x) :
    Visited L m T lo hi start x :=
  h.elim fun i hi => ⟨i + 1, .child hi hr ha hk hx⟩

/-- The blocks a query reads on a level: those it has not come to before. -/
def NewAt (L : Layout) (m : Mem n) (T : Transient n) (lo hi : Key n) (start : List (ScanContext n))
    (i : ℕ) (a : Addr) : Prop :=
  VisitedAt L m T lo hi start i a ∧ ∀ i' < i, ¬ VisitedAt L m T lo hi start i' a

theorem Visited.newAt {a : Addr} (h : Visited L m T lo hi start a) : ∃ i, NewAt L m T lo hi start i a := by
  classical exact ⟨Nat.find h, Nat.find_spec h, fun _ => Nat.find_min h⟩

def Delivered (L : Layout) (m : Mem n) (T : Transient n) (fromKey toKey lo hi : Key n)
    (start : List (ScanContext n)) (q : Key n × Value) : Prop :=
  ∃ l, L l = some .leaf ∧ Visited L m T lo hi start l ∧ ¬ Rejected m T start l ∧
    q = ((m.leaf l).key, (m.leaf l).value) ∧ fromKey ≤ q.1 ∧ q.1 < toKey

def Torn (L : Layout) (m : Mem n) (T : Transient n) (lo hi : Key n) (start : List (ScanContext n))
    (q : Key n × Value) : Prop :=
  ∃ a y, Visited L m T lo hi start a ∧ T a = some y ∧ q = (y.leaf.key, y.leaf.value)

/-- What holds after `r` levels: blocks that are new lie at least that deep. -/
structure LevelInv (L : Layout) (m : Mem n) (T : Transient n) (fromKey toKey lo hi : Key n)
    (start : List (ScanContext n)) (r : ℕ) (st : RangeState n) : Prop where
  stands : ∀ s ∈ st.survivors, ∃ σ, Stands L m lo hi s σ ∧ (s.token ∉ st.tokens → r ≤ σ.length)
  last : n + 1 < r → st.survivors = []
  read : ∀ a, a ∈ st.tokens ↔ ∃ i < r, VisitedAt L m T lo hi start i a
  new : ∀ a, a ∉ st.tokens → ((∃ s ∈ st.survivors, s.token = a) ↔ VisitedAt L m T lo hi start r a)
  started : ∀ s ∈ start, s.token ∈ st.tokens ∨ s ∈ st.survivors
  flag : ∀ s ∈ st.survivors, s.token ∉ st.tokens → (s.fromCache = true ↔ Cached start s.token)
  passes : ∀ s ∈ st.survivors, s.token ∉ st.tokens →
    (s.Passes m T ↔ ¬ Rejected m T start s.token)
  closed : ∀ a ∈ st.tokens, ¬ Rejected m T start a → ∀ π j x, L a = some (.node π) →
    Kept lo hi π (m.load (.slot a j)) → (m.load (.slot a j)).addr? = some x →
      x ∈ st.tokens ∨ ∃ s ∈ st.survivors, s.token = x
  found : ∀ l ∈ st.tokens, ¬ Rejected m T start l → L l = some .leaf →
    fromKey ≤ (m.leaf l).key → (m.leaf l).key < toKey →
      ((m.leaf l).key, (m.leaf l).value) ∈ st.ret
  sound : ∀ q ∈ st.ret, Delivered L m T fromKey toKey lo hi start q ∨ Torn L m T lo hi start q

variable {r : ℕ} {st : RangeState n}

theorem LevelInv.initial (hs : ∀ s ∈ start, ∃ σ, Stands L m lo hi s σ) {c : Bool}
    (hc : ∀ s ∈ start, s.fromCache = c) (ht : TreeInv L m) :
    LevelInv L m T fromKey toKey lo hi start 0 ⟨start, [], []⟩ where
  stands s hs' := (hs s hs').imp fun _ hσ => ⟨hσ, fun _ => Nat.zero_le _⟩
  last h := absurd h (by omega)
  read a := by simp
  new a _ := by
    constructor
    · rintro ⟨s, hs', rfl⟩
      exact .start hs'
    · intro h
      cases h with | start hs' => exact ⟨_, hs', rfl⟩
  started s hs' := .inr hs'
  flag s hs' _ := by
    refine ⟨fun hf => ⟨s, hs', rfl, hf⟩, fun ⟨s', hs'', _, hf⟩ => ?_⟩
    rw [hc s hs', ← hc s' hs'', hf]
  passes s hs' _ := by
    refine ⟨fun ⟨hT, hacc⟩ hrej => ?_, fun hrej => ⟨?_, ?_⟩⟩
    · -- two contexts with the same block are at the same slot
      obtain hT' | ⟨s', hs'', htok, hacc'⟩ := hrej
      · exact hT' hT
      · refine hacc' fun hf => ?_
        obtain ⟨σ, hσ⟩ := hs s hs'
        obtain ⟨σ', hσ'⟩ := hs s' hs''
        have hptr := hσ'.same_slot ht hσ htok
        have he : s'.e = s.e := by rw [← hσ'.entry, hptr, hσ.entry]
        rw [he, hptr]
        exact hacc (by rw [hc s hs', ← hc s' hs'', hf])
    · by_contra hT
      exact hrej (.inl hT)
    · by_contra hacc
      exact hrej (.inr ⟨s, hs', rfl, hacc⟩)
  closed a ha := by cases ha
  found l hl := by cases hl
  sound q hq := by cases hq

section level
variable {st' : RangeState n} (hr : World.Resting L m)
  (h : LevelInv L m T fromKey toKey lo hi start r st)
  (hd : LevelDone L m T fromKey toKey lo hi st st')
include h hd

namespace LevelDone

omit h in
theorem mem_tokens (a : Addr) : a ∈ st'.tokens ↔
    a ∈ st.tokens ∨ ∃ s ∈ (claim st.survivors st.tokens).1, s.token = a :=
  hd.tokens ▸ (claim_spec st.survivors st.tokens).2.1 a

omit h in
theorem old_mem {s : ScanContext n} (hs : s ∈ st.survivors) : s.token ∈ st'.tokens :=
  hd.tokens ▸ (claim_spec st.survivors st.tokens).2.2 s hs

omit hd in
theorem batch {s : ScanContext n} (hs : s ∈ (claim st.survivors st.tokens).1) :
    (s.fromCache = true ↔ Cached start s.token) ∧
      (s.Passes m T ↔ ¬ Rejected m T start s.token) ∧ VisitedAt L m T lo hi start r s.token ∧
      ∃ σ, Stands L m lo hi s σ ∧ r ≤ σ.length := by
  obtain ⟨h1, h2⟩ := (claim_spec st.survivors st.tokens).1 s hs
  obtain ⟨σ, hσ, hlen⟩ := h.stands s h1
  exact ⟨h.flag s h1 h2, h.passes s h1 h2, (h.new _ h2).mp ⟨s, h1, rfl⟩, σ, hσ, hlen h2⟩

omit hd in
theorem batch_iff (a : Addr) : (∃ s ∈ (claim st.survivors st.tokens).1, s.token = a) ↔
    NewAt L m T lo hi start r a := by
  have hread := h.read a
  constructor
  · rintro ⟨s, hs, rfl⟩
    refine ⟨(batch h hs).2.2.1, fun i hi hv => ?_⟩
    exact ((claim_spec st.survivors st.tokens).1 s hs).2 (hread.mpr ⟨i, hi, hv⟩)
  · rintro ⟨hv, hnew⟩
    have hnot : a ∉ st.tokens := fun ha => (hread.mp ha).elim fun i hi => hnew i hi.1 hi.2
    obtain ⟨s, hs, rfl⟩ := (h.new a hnot).mpr hv
    exact (((claim_spec st.survivors st.tokens).2.1 _).mp
      ((claim_spec st.survivors st.tokens).2.2 s hs)).resolve_left hnot

theorem started {s : ScanContext n} (hs : s ∈ start) : s.token ∈ st'.tokens := by
  obtain ha | hs := h.started s hs
  · exact (hd.mem_tokens _).mpr (.inl ha)
  · exact hd.old_mem hs

include hr

/-- A new survivor is put back for a block of the batch, or it is the child of one. -/
theorem survivor_cases {s' : ScanContext n} (hs' : s' ∈ st'.survivors) :
    ∃ σ, Stands L m lo hi s' σ ∧ (s'.token ∈ st'.tokens ∨
      s'.fromCache = false ∧ VisitedAt L m T lo hi start (r + 1) s'.token ∧ r + 1 ≤ σ.length) := by
  obtain ⟨s, hsc, x, hx, hs'⟩ := hd.from_batch s' hs'
  obtain ⟨-, hpass, hvis, σ, hσ, hlen⟩ := batch h hsc
  have hin : s.token ∈ st'.tokens := (hd.mem_tokens _).mpr (.inr ⟨s, hsc, rfl⟩)
  cases hx with
  | failed c _ hsv =>
    rw [hsv] at hs'
    obtain rfl := List.mem_singleton.mp hs'
    exact ⟨σ, ⟨hσ.slot, hσ.depth, hσ.entry, hσ.full, hσ.bounds⟩, .inl hin⟩
  | leaf _ _ hsv =>
    rw [hsv s' hs']
    exact ⟨σ, hσ, .inl hin⟩
  | @node b t a π hac he ha hsv =>
    obtain ⟨hfc, j, hp, hk, hst'⟩ := hsv s' hs'
    have hsa : s.token = a := by simp [ScanContext.token, he]
    obtain ⟨π', ha', hπ⟩ := hσ.node_path hr.tree he
    obtain rfl := Obj.node.inj (Option.some.inj (ha.symm.trans ha'))
    obtain ⟨x, hx⟩ := Entry.addr?_ne_none hk.1
    have htx : s'.token = x := by rw [ScanContext.token, ← hst'.entry, hp, hx]; rfl
    have hpath := hπ.length_le
    refine ⟨_, hst', .inr ⟨hfc, ?_, ?_⟩⟩
    · rw [htx]
      exact .child (hsa ▸ hvis) (hsa ▸ hpass.mp hac) ha hk hx
    · simp only [List.length_append, List.length_singleton]
      omega

theorem closed {a : Addr} (ha : a ∈ st'.tokens) (hrej : ¬ Rejected m T start a) {j : ℕ} {x : Addr}
    (hLa : L a = some (.node π)) (hk : Kept lo hi π (m.load (.slot a j)))
    (hx : (m.load (.slot a j)).addr? = some x) :
    x ∈ st'.tokens ∨ ∃ s ∈ st'.survivors, s.token = x := by
  obtain ha | ⟨s, hsc, rfl⟩ := (hd.mem_tokens a).mp ha
  · obtain hx | ⟨s, hs, rfl⟩ := h.closed a ha hrej π j x hLa hk hx
    · exact .inl ((hd.mem_tokens _).mpr (.inl hx))
    · exact .inl (hd.old_mem hs)
  · obtain ⟨y, hy, hsv, -⟩ := hd.handled s hsc
    obtain ⟨-, hpass, -, σ, hσ, -⟩ := batch h hsc
    cases hy with
    | failed _ hna => exact absurd (hpass.mpr hrej) hna
    | @leaf b l _ he =>
      have hsl : s.token = l := by simp [ScanContext.token, he]
      rw [hsl, hσ.leaf_layout hr.tree he] at hLa
      cases hLa
    | @node b t a π' _ he ha' hsv' hall =>
      have hsa : s.token = a := by simp [ScanContext.token, he]
      rw [hsa] at hLa hk hx
      obtain rfl := Obj.node.inj (Option.some.inj (hLa.symm.trans ha'))
      obtain ⟨s', hs', hp⟩ := hall j hk
      obtain ⟨-, j', hp', -, hst'⟩ := hsv' s' hs'
      refine .inr ⟨s', hsv s' hs', ?_⟩
      rw [ScanContext.token, ← hst'.entry, hp, hx]
      rfl

omit hr in
theorem found {l : Addr} (hl : l ∈ st'.tokens) (hrej : ¬ Rejected m T start l)
    (hLl : L l = some .leaf) (h1 : fromKey ≤ (m.leaf l).key) (h2 : (m.leaf l).key < toKey) :
    ((m.leaf l).key, (m.leaf l).value) ∈ st'.ret := by
  obtain hl | ⟨s, hsc, rfl⟩ := (hd.mem_tokens l).mp hl
  · exact hd.kept _ (h.found l hl hrej hLl h1 h2)
  · obtain ⟨y, hy, -, hyr⟩ := hd.handled s hsc
    cases hy with
    | failed _ hna => exact absurd ((batch h hsc).2.1.mpr hrej) hna
    | @leaf b l _ he _ hret =>
      have hsl : s.token = l := by simp [ScanContext.token, he]
      rw [hsl] at h1 h2 ⊢
      refine hyr _ ?_
      rw [hret, if_pos ⟨h1, h2⟩]
      exact List.mem_singleton_self _
    | @node b t a π' _ he ha' =>
      have hsa : s.token = a := by simp [ScanContext.token, he]
      rw [hsa, ha'] at hLl
      cases hLl

theorem sound {q : Key n × Value} (hq : q ∈ st'.ret) :
    Delivered L m T fromKey toKey lo hi start q ∨ Torn L m T lo hi start q := by
  obtain hq | ⟨s, hsc, y, hy, hq⟩ := hd.ret q hq
  · exact h.sound q hq
  · obtain ⟨-, hpass, hvis, σ, hσ, -⟩ := batch h hsc
    cases hy with
    | failed _ _ _ hret =>
      obtain ⟨y, hy, hq⟩ := hret q hq
      exact .inr ⟨_, y, ⟨r, hvis⟩, hy, hq⟩
    | node _ _ _ _ _ hret => rw [hret] at hq; cases hq
    | @leaf b l hac he _ hret =>
      have hsl : s.token = l := by simp [ScanContext.token, he]
      rw [hret] at hq
      split at hq
      · rename_i hin
        obtain rfl := List.mem_singleton.mp hq
        exact .inl ⟨l, hσ.leaf_layout hr.tree he, ⟨r, hsl ▸ hvis⟩, hsl ▸ hpass.mp hac, rfl, hin⟩
      · cases hq

end LevelDone

include hr

theorem LevelInv.next : LevelInv L m T fromKey toKey lo hi start (r + 1) st' where
  stands s' hs' := by
    obtain ⟨σ, hσ, hin | ⟨-, -, hlen⟩⟩ := hd.survivor_cases hr h hs'
    · exact ⟨σ, hσ, fun hf => absurd hin hf⟩
    · exact ⟨σ, hσ, fun _ => hlen⟩
  last hlast := by
    -- no block is new this deep
    refine List.eq_nil_iff_forall_not_mem.mpr fun s' hs' => ?_
    obtain ⟨s, hsc, -⟩ := hd.from_batch s' hs'
    obtain ⟨-, -, -, σ, hσ, hlen⟩ := LevelDone.batch h hsc
    have := hσ.slot.length_le hr.tree
    omega
  read a := by
    rw [hd.mem_tokens, LevelDone.batch_iff h, h.read]
    constructor
    · rintro (⟨i, hi, hv⟩ | hv)
      · exact ⟨i, by omega, hv⟩
      · exact ⟨r, by omega, hv.1⟩
    · rintro ⟨i, hir, hv⟩
      by_cases hold : ∃ i < r, VisitedAt L m T lo hi start i a
      · exact .inl hold
      · obtain rfl : i = r := by
          by_contra hne
          exact hold ⟨i, by omega, hv⟩
        exact .inr ⟨hv, fun i' hi' hv' => hold ⟨i', hi', hv'⟩⟩
  new a ha := by
    constructor
    · rintro ⟨s', hs', rfl⟩
      obtain ⟨σ, -, hin | ⟨-, hv, -⟩⟩ := hd.survivor_cases hr h hs'
      · exact absurd hin ha
      · exact hv
    · intro hv
      cases hv with
      | @child _ b π j _ hb hrej hLb hk hx =>
        refine (hd.closed hr h ?_ hrej hLb hk hx).resolve_left ha
        rw [hd.mem_tokens, LevelDone.batch_iff h, h.read]
        by_cases hold : ∃ i < r, VisitedAt L m T lo hi start i b
        · exact .inl hold
        · exact .inr ⟨hb, fun i' hi' hv' => hold ⟨i', hi', hv'⟩⟩
  started s hs := .inl (hd.started h hs)
  flag s' hs' hf := by
    obtain ⟨σ, -, hin | ⟨hfc, -⟩⟩ := hd.survivor_cases hr h hs'
    · exact absurd hin hf
    · rw [hfc]
      exact ⟨nofun, fun ⟨s, hs, hsa, _⟩ => absurd (hsa ▸ hd.started h hs) hf⟩
  passes s' hs' hf := by
    obtain ⟨σ, -, hin | ⟨hfc, -⟩⟩ := hd.survivor_cases hr h hs'
    · exact absurd hin hf
    · have hacc : s'.Accepted m := fun hfc' => by rw [hfc] at hfc'; cases hfc'
      refine ⟨fun hp hrej => ?_, fun hrej => ⟨?_, hacc⟩⟩
      · obtain hT | ⟨s, hs, hsa, -⟩ := hrej
        · exact hT hp.1
        · exact hf (hsa ▸ hd.started h hs)
      · by_contra hT
        exact hrej (.inl hT)
  closed a ha hrej π j x hLa hk hx := hd.closed hr h ha hrej hLa hk hx
  found l hl hrej hLl h1 h2 := hd.found h hl hrej hLl h1 h2
  sound q hq := hd.sound hr h hq

end level

section run
variable (crc) (old : List Addr → ℕ → Page) {seen : List Addr}

theorem LevelInv.level (hr : World.Resting L m)
    (h : LevelInv L m (T.after seen) fromKey toKey lo hi start r st)
    (hT : ∀ s σ y, Stands L m lo hi s σ → (s.fromCache = true ↔ Cached start s.token) →
      T.after seen s.token = some y → y.Fails crc s) :
    ∃ calls st', rangeLevel crc fromKey toKey (levelReads m T old seen st.tokens) st =
      some (calls, st') ∧ LevelDone L m (T.after seen) fromKey toKey lo hi st st' := by
  refine rangeLevel_done hr (fun s hs => (h.stands s hs).imp fun _ hσ => hσ.1) fun i s hi => ?_
  have hs := List.mem_of_getElem? hi
  obtain ⟨hflag, -, -, σ, hσ, -⟩ := LevelDone.batch h hs
  exact ⟨levelReads_fetched hi old seen ((claim_spec st.survivors st.tokens).1 s hs).2,
    fun y hy => hT s σ y hσ hflag hy⟩

/-- The loop returns with every block read that is to be read, and what it returns is what the
query is to deliver and what it took from snapshots. -/
theorem LevelInv.loop (hr : World.Resting L m)
    (h : LevelInv L m (T.after seen) fromKey toKey lo hi start r st)
    (hT : ∀ s σ y, Stands L m lo hi s σ → (s.fromCache = true ↔ Cached start s.token) →
      T.after seen s.token = some y → y.Fails crc s) (fuel : ℕ) (hfuel : n + 2 ≤ fuel + r) :
    ∃ ret, levelLoop crc fromKey toKey (levelReads m T old seen) (fun _ _ => true) fuel r st =
        some ret ∧
      (∀ q, Delivered L m (T.after seen) fromKey toKey lo hi start q → q ∈ ret) ∧
      (∀ q ∈ ret, Delivered L m (T.after seen) fromKey toKey lo hi start q ∨
        Torn L m (T.after seen) lo hi start q) ∧
      (∀ i st', (levelStates crc fromKey toKey (levelReads m T old seen) fuel st)[i]? = some st' →
        LevelInv L m (T.after seen) fromKey toKey lo hi start (r + i) st') ∧
      ∀ i a, NewAt L m (T.after seen) lo hi start (r + i) a →
        ∃ st', (levelStates crc fromKey toKey (levelReads m T old seen) fuel st)[i]? = some st' := by
  have hdone : ∀ {r st}, LevelInv L m (T.after seen) fromKey toKey lo hi start r st →
      st.survivors = [] → (∀ a, Visited L m (T.after seen) lo hi start a → a ∈ st.tokens) ∧
        ∀ q, Delivered L m (T.after seen) fromKey toKey lo hi start q → q ∈ st.ret := by
    intro r st h hnil
    have hall : ∀ a, Visited L m (T.after seen) lo hi start a → a ∈ st.tokens := by
      rintro a ⟨i, ha⟩
      induction ha with
      | start hs => exact (h.started _ hs).resolve_right (by simp [hnil])
      | child _ hrej ha hk hx ih =>
        exact (h.closed _ ih hrej _ _ _ ha hk hx).resolve_right (by simp [hnil])
    refine ⟨hall, ?_⟩
    intro q ⟨l, hl, hv, hrej, hq, h1, h2⟩
    rw [hq] at h1 h2 ⊢
    exact h.found l (hall l hv) hrej hl h1 h2
  have hnew : ∀ {r st}, LevelInv L m (T.after seen) fromKey toKey lo hi start r st →
      st.survivors = [] → ∀ i a, ¬ NewAt L m (T.after seen) lo hi start (r + i) a := by
    intro r st h hnil i a ⟨hv, hnew⟩
    obtain ⟨i', hi', hv'⟩ := (h.read a).mp ((hdone h hnil).1 a ⟨_, hv⟩)
    exact hnew i' (by omega) hv'
  induction fuel generalizing r st with
  | zero =>
    have hnil := h.last (by omega)
    exact ⟨st.ret, by simp [levelLoop, hnil], (hdone h hnil).2, h.sound, by simp [levelStates],
      fun i a ha => absurd ha (hnew h hnil i a)⟩
  | succ fuel ih =>
    rw [levelLoop, levelStates]
    by_cases hnil : st.survivors = []
    · exact ⟨st.ret, by simp [hnil], (hdone h hnil).2, h.sound, by simp [hnil],
        fun i a ha => absurd ha (hnew h hnil i a)⟩
    · have hne : ¬ st.survivors.isEmpty = true := by simpa using hnil
      obtain ⟨calls, st', hst, hd⟩ := h.level crc old hr hT
      obtain ⟨ret, hret, h1, h2, h3, h4⟩ := ih (h.next hr hd) (by omega)
      rw [if_neg hne, if_neg hne, if_pos rfl, hst]
      refine ⟨ret, hret, h1, h2, fun i x hx => ?_, fun i a ha => ?_⟩
      · cases i with
        | zero => cases hx; exact h
        | succ i => exact Nat.add_right_comm r 1 i ▸ h3 i x hx
      · cases i with
        | zero => exact ⟨st, rfl⟩
        | succ i => exact h4 i a (Nat.add_right_comm r i 1 ▸ ha)

end run
end SmartTree
