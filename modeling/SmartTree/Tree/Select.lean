import SmartTree.KeyOrder
import SmartTree.Tree.Contexts

/-! The choice of `range_query_on_page`. A state says how the bytes on the way to an entry lie to
one bound of the query; the two sides differ only in the direction of the comparison. -/
namespace SmartTree
variable {n : ℕ}

/-- Where the keys below these bytes lie to a bound: on it, past it towards the other bound, or
outside. -/
def State.of (inner : List UInt8 → List UInt8 → Prop) [DecidableRel inner] (bound : Key n)
    (σ : List UInt8) : State :=
  if bound.pre σ.length = σ then .border else if inner (bound.pre σ.length) σ then .inside else .outside

/-- A state and its own bound: on the border the bound of the query still, inside rewritten to the
bytes so far. -/
structure State.Means (inner : List UInt8 → List UInt8 → Prop) [DecidableRel inner]
    (bound own : Key n) (σ : List UInt8) (st : State) : Prop where
  state : st = State.of inner bound σ
  kept : st ≠ .outside
  border : st = .border → own = bound
  inside : st = .inside → σ <+: own.bytes

abbrev Above (x y : List UInt8) : Prop := x < y
abbrev Below (x y : List UInt8) : Prop := y < x

/-- A side of the query: how it compares bytes and how its states change with a byte. -/
structure Side (side : State → UInt8 → UInt8 → State) (inner : List UInt8 → List UInt8 → Prop)
    [DecidableRel inner] : Prop where
  append : ∀ {x y u v : List UInt8}, x.length = y.length →
    (inner (x ++ u) (y ++ v) ↔ inner x y ∨ x = y ∧ inner u v)
  step : ∀ st b bound, side st b bound = if st = .border then
    (if b = bound then .border else if inner [bound] [b] then .inside else .outside) else st
  irrefl : ∀ x, ¬ inner x x

theorem append_lt_append_iff {x y u v : List UInt8} (h : x.length = y.length) :
    x ++ u < y ++ v ↔ x < y ∨ x = y ∧ u < v := by
  induction x generalizing y with
  | nil =>
    obtain rfl : y = [] := List.length_eq_zero_iff.mp h.symm
    simp
  | cons a x ih =>
    cases y with
    | nil => simp at h
    | cons b y =>
      rw [List.cons_append, List.cons_append, List.cons_lt_cons_iff, List.cons_lt_cons_iff,
        ih (by simpa using h), List.cons.injEq]
      tauto

theorem side_left : Side State.left Above where
  append h := append_lt_append_iff h
  step st b bound := by simp [State.left, List.cons_lt_cons_iff]
  irrefl x := List.lt_irrefl x

theorem side_right : Side State.right Below where
  append h := by
    rw [Below, append_lt_append_iff h.symm, Below, Below]
    exact or_congr_right (and_congr_left' eq_comm)
  step st b bound := by simp [State.right, List.cons_lt_cons_iff]
  irrefl x := List.lt_irrefl x

section side
variable {side : State → UInt8 → UInt8 → State} {inner : List UInt8 → List UInt8 → Prop}
  [DecidableRel inner] {k own : Key n} {σ π : List UInt8} {st : State}

theorem State.of_eq_border : State.of inner k σ = .border ↔ σ <+: k.bytes := by
  unfold State.of
  rw [List.prefix_iff_eq_take, Key.pre]
  split
  · rename_i he
    simp [he]
  · rename_i he
    split <;> simpa using fun h => he h.symm

theorem State.of_kept : State.of inner k σ ≠ .outside ↔
    σ <+: k.bytes ∨ inner (k.pre σ.length) σ := by
  have hborder : State.of inner k σ = .border ↔ σ <+: k.bytes := State.of_eq_border
  rw [← hborder]
  unfold State.of
  split
  · simp
  · split <;> simpa

theorem Side.of_append (hs : Side side inner) (τ : List UInt8) (hn : (σ ++ τ).length ≤ n)
    (h : State.of inner k σ ≠ .border) : State.of inner k (σ ++ τ) = State.of inner k σ := by
  have hne : k.pre σ.length ≠ σ := by
    intro he
    simp [State.of, he] at h
  have hpre : k.pre (σ ++ τ).length = k.pre σ.length ++ (k.bytes.drop σ.length).take τ.length := by
    rw [Key.pre, List.length_append, List.take_add, Key.pre]
  have hlen : (k.pre σ.length).length = σ.length := by
    rw [List.length_append] at hn
    simp only [Key.pre, List.length_take, k.length_bytes]
    omega
  have hap : k.pre (σ ++ τ).length ≠ σ ++ τ := by
    rw [hpre]
    exact fun he => hne (List.append_inj he hlen).1
  simp only [State.of, hap, hne, if_false]
  refine if_congr ?_ rfl rfl
  rw [hpre, hs.append hlen]
  simp [hne]

theorem Side.of_byte (hs : Side side inner) {b : UInt8} (hn : σ.length < n) (h : σ <+: k.bytes) :
    State.of inner k (σ ++ [b]) = side .border b (k.byte (σ.length + 1)) := by
  have hpre : k.pre (σ ++ [b]).length = σ ++ [k.byte (σ.length + 1)] := by
    rw [List.length_append, List.length_singleton, Key.pre]
    have := Key.append_byte_prefix h hn
    rw [List.prefix_iff_eq_take] at this
    simpa using this.symm
  have hin : inner (σ ++ [k.byte (σ.length + 1)]) (σ ++ [b]) ↔ inner [k.byte (σ.length + 1)] [b] := by
    simp [hs.append, hs.irrefl]
  rw [State.of, hpre, hs.step]
  simp [hin, eq_comm]

/-- The header moves the state of the bytes above the node to the state of its path. -/
theorem Side.state_header (hs : Side side inner) {h : Header} (hh : HdrPath π h) (hlen : π.length ≤ n)
    (hπ : σ <+: π) (hd : h.depth ≤ σ.length + 1) (hm : State.Means inner k own σ st) :
    h.state side own st = some (State.of inner k π) := by
  unfold Header.state
  split
  · rename_i hb
    obtain rfl := hm.border hb
    have hσ : σ <+: own.bytes := State.of_eq_border.mp (hm.state.symm.trans hb)
    obtain ⟨h1, h2⟩ | ⟨i, b, h1, h2, h3, h4, hne, hpre⟩ := hh.firstDiff hlen hσ hπ hd
    · rw [h1, Option.map_some, State.of_eq_border.mpr h2]
    · have hpos := hh.pos
      obtain ⟨τ, rfl⟩ := hpre
      have hk : (own.bytes.take (h.depth + i - 1)).length = h.depth + i - 1 := by
        rw [List.length_take, own.length_bytes]
        omega
      have hstep := hs.of_byte (b := b) (k := own) (σ := own.bytes.take (h.depth + i - 1)) (by omega)
        (List.take_prefix _ _)
      rw [hk, show h.depth + i - 1 + 1 = h.depth + i by omega] at hstep
      have hpast : State.of inner own (own.bytes.take (h.depth + i - 1) ++ [b]) ≠ .border := by
        rw [hstep, hs.step, if_pos rfl, if_neg hne]
        split <;> simp
      rw [h1, Option.map_some]
      dsimp only
      rw [List.getD_eq_getElem?_getD, h2, Option.getD_some, ← hstep, hs.of_append τ hlen hpast]
  · rename_i hb
    obtain ⟨τ, rfl⟩ := hπ
    rw [hs.of_append τ hlen (hm.state ▸ hb), ← hm.state]

/-- A slot's byte moves the state of the node's path to the state of the slot. -/
theorem Side.state_slot (hs : Side side inner) (hn : π.length < n) {b : UInt8}
    (hown : State.of inner k π = .border → own = k) :
    side (State.of inner k π) b (own.byte (π.length + 1)) = State.of inner k (π ++ [b]) := by
  by_cases hb : State.of inner k π = .border
  · rw [hown hb, hb, hs.of_byte hn (State.of_eq_border.mp hb)]
  · rw [hs.of_append [b] (by simpa using hn) hb, hs.step, if_neg hb]

end side

section between
variable {k k' lo hi : Key n} {ρ : List UInt8}

theorem Key.lt_of_pre {d : ℕ} (h : k.pre d < k'.pre d) : k < k' := by
  have hlen : (k.pre d).length = (k'.pre d).length := by simp [Key.pre]
  have := (append_lt_append_iff (u := k.bytes.drop d) (v := k'.bytes.drop d) hlen).mpr (.inl h)
  rwa [Key.pre, Key.pre, List.take_append_drop, List.take_append_drop] at this

/-- Some key below these bytes lies between the bounds, unless one side puts them outside. -/
theorem exists_key_between (hle : lo ≤ hi) (hρ : ρ.length ≤ n) :
    (∃ x : Key n, ρ <+: x.bytes ∧ lo ≤ x ∧ x ≤ hi) ↔
      State.of Above lo ρ ≠ .outside ∧ State.of Below hi ρ ≠ .outside := by
  have hrefl : ∀ x : Key n, x ≤ x := fun x => List.lt_irrefl x.bytes
  have hpre : ∀ {x : Key n}, ρ <+: x.bytes → x.pre ρ.length = ρ := fun hx =>
    (List.prefix_iff_eq_take.mp hx).symm
  rw [State.of_kept, State.of_kept]
  constructor
  · rintro ⟨x, hx, h1, h2⟩
    have h3 : ¬ ρ < lo.pre ρ.length := fun hlt => h1 (Key.lt_of_pre ((hpre hx).trans_lt hlt))
    have h4 : ¬ hi.pre ρ.length < ρ := fun hlt => h2 (Key.lt_of_pre (hlt.trans_eq (hpre hx).symm))
    refine ⟨?_, ?_⟩
    · by_contra hout
      obtain ⟨hb, hin⟩ := not_or.mp hout
      exact hb (List.prefix_iff_eq_take.mpr (List.le_antisymm hin h3))
    · by_contra hout
      obtain ⟨hb, hin⟩ := not_or.mp hout
      exact hb (List.prefix_iff_eq_take.mpr (List.le_antisymm h4 hin))
  · rintro ⟨hl | hl, hr | hr⟩
    · exact ⟨lo, hl, hrefl lo, hle⟩
    · exact ⟨lo, hl, hrefl lo, hle⟩
    · exact ⟨hi, hr, hle, hrefl hi⟩
    · -- strictly between: any continuation will do
      let x : Key n := ⟨ρ ++ List.replicate (n - ρ.length) 0, by simp; omega⟩
      have hx : ρ <+: x.bytes := List.prefix_append _ _
      have hlt : ∀ {y z : Key n}, y < z → y ≤ z := fun h h' => List.lt_asymm h h'
      exact ⟨x, hx, hlt (Key.lt_of_pre ((show lo.pre ρ.length < ρ from hl).trans_eq (hpre hx).symm)),
        hlt (Key.lt_of_pre ((hpre hx).trans_lt (show ρ < hi.pre ρ.length from hr)))⟩

end between

section next
variable {side : State → UInt8 → UInt8 → State} {inner : List UInt8 → List UInt8 → Prop}
  [DecidableRel inner] {k own : Key n} {σ π : List UInt8} {st : State}

theorem State.Means.key_prefix (hm : State.Means inner k own σ st) : σ <+: own.bytes := by
  cases hst : st with
  | border =>
    rw [hm.border hst]
    exact State.of_eq_border.mp (hm.state.symm.trans hst)
  | inside => exact hm.inside hst
  | outside => exact absurd hst hm.kept

theorem State.Means.border_of_prefix (hm : State.Means inner k own σ st) {τ : List UInt8}
    (hτ : σ <+: τ) (h : State.of inner k τ = .border) : own = k :=
  hm.border (hm.state.trans (State.of_eq_border.mpr (hτ.trans (State.of_eq_border.mp h))))

theorem State.Means.next {h : Header} (hm : State.Means inner k own σ st) (hh : HdrPath π h)
    (hn : π.length < n) (hπ : σ <+: π) (hd : h.depth ≤ σ.length + 1) {b : UInt8}
    (hkept : State.of inner k (π ++ [b]) ≠ .outside) :
    ∃ own', (State.of inner k (π ++ [b])).nextBound own h.depth (h.partials ++ [b]) = some own' ∧
      State.Means inner k own' (π ++ [b]) (State.of inner k (π ++ [b])) := by
  unfold State.nextBound
  split
  · rename_i hin
    have hend := hh.end_eq
    have hpos := hh.pos
    obtain ⟨own', h1, h2⟩ := remakePath_spec (k := own) hpos (show h.depth - 1 + (h.partials ++ [b]).length ≤ n by
        simp only [List.length_append, List.length_singleton]; omega)
    have hpath := hh.cachePath_eq hm.key_prefix hπ hd
    rw [cachePath, Key.pre] at hpath
    rw [← List.append_assoc, hpath] at h2
    exact ⟨own', h1, rfl, hkept, fun hb => absurd (hb.symm.trans hin) (by decide), fun _ => h2⟩
  · rename_i hin
    exact ⟨own, rfl, rfl, hkept, hm.border_of_prefix (hπ.trans (List.prefix_append _ _)),
      fun h => absurd h hin⟩

end next

/-- Collecting at most one element per index keeps the chosen indices in order. -/
theorem collect_filter {α : Type*} {f : ℕ → Option (List α)} {sel : ℕ → Prop} [DecidablePred sel]
    {P : ℕ → α → Prop} {js : List ℕ} (h1 : ∀ j ∈ js, sel j → ∃ x, f j = some [x] ∧ P j x)
    (h2 : ∀ j ∈ js, ¬ sel j → f j = some []) :
    ∃ xs, collect f js = some xs ∧ List.Forall₂ P (js.filter fun j => sel j) xs := by
  induction js with
  | nil => exact ⟨[], rfl, .nil⟩
  | cons j js ih =>
    obtain ⟨xs, hxs, hall⟩ := ih (fun j hj => h1 j (List.mem_cons_of_mem _ hj))
      fun j hj => h2 j (List.mem_cons_of_mem _ hj)
    by_cases hj : sel j
    · obtain ⟨x, hx, hp⟩ := h1 j List.mem_cons_self hj
      refine ⟨x :: xs, by rw [collect, hx, hxs]; rfl, ?_⟩
      rw [List.filter_cons_of_pos (by simpa using hj)]
      exact .cons hp hall
    · refine ⟨xs, by rw [collect, h2 j List.mem_cons_self hj, hxs]; rfl, ?_⟩
      rwa [List.filter_cons_of_neg (by simpa using hj)]

/-- The context pushed for a slot of a node with path `π`. -/
structure Selected (lo hi : Key n) (π : List UInt8) (pg : Page) (a : Addr) (j : ℕ)
    (s : ScanContext n) : Prop where
  e : s.e = pg.slots j
  ePtr : s.ePtr = .slot a j
  depth : s.depth = π.length + 1
  fromCache : s.fromCache = false
  left : State.Means Above lo s.fromKey (π ++ [(pg.slots j).partialKey]) s.lState
  right : State.Means Below hi s.toKey (π ++ [(pg.slots j).partialKey]) s.rState

def Kept (lo hi : Key n) (π : List UInt8) (e : Entry) : Prop :=
  e ≠ .null ∧ State.of Above lo (π ++ [e.partialKey]) ≠ .outside ∧
    State.of Below hi (π ++ [e.partialKey]) ≠ .outside

instance (lo hi : Key n) (π : List UInt8) (e : Entry) : Decidable (Kept lo hi π e) :=
  inferInstanceAs (Decidable (_ ∧ _ ∧ _))

section page
variable {lo hi loOwn hiOwn : Key n} {l r : State} {σ π : List UInt8} {pg : Page} {a : Addr}
  (hh : HdrPath π pg.hdr) (hn : π.length < n) (hπ : σ <+: π) (hd : pg.hdr.depth ≤ σ.length + 1)
  (hl : State.Means Above lo loOwn σ l) (hr : State.Means Below hi hiOwn σ r)
include hh hn hπ hd hl hr

theorem PageScan.slot_selects (j : ℕ) :
    let v : PageScan n := ⟨pg.hdr, a, loOwn, hiOwn, State.of Above lo π, State.of Below hi π,
      loOwn.byte (π.length + 1), hiOwn.byte (π.length + 1)⟩
    (Kept lo hi π (pg.slots j) →
      ∃ s, v.slot (pg.slots j) j = some [s] ∧ Selected lo hi π pg a j s) ∧
    (¬ Kept lo hi π (pg.slots j) → v.slot (pg.slots j) j = some []) := by
  have hleft := side_left.state_slot (b := (pg.slots j).partialKey) hn (hl.border_of_prefix hπ)
  have hright := side_right.state_slot (b := (pg.slots j).partialKey) hn (hr.border_of_prefix hπ)
  unfold PageScan.slot
  dsimp only
  rw [hleft, hright]
  refine ⟨fun hsel => ?_, fun hsel => ?_⟩
  · obtain ⟨hnull, h1, h2⟩ := hsel
    obtain ⟨nextFrom, hf, hmf⟩ := hl.next hh hn hπ hd h1
    obtain ⟨nextTo, ht, hmt⟩ := hr.next hh hn hπ hd h2
    rw [if_neg hnull, if_neg (not_or.mpr ⟨h1, h2⟩), hf, ht]
    exact ⟨_, rfl, rfl, rfl, hh.end_eq, rfl, hmf, hmt⟩
  · split
    · rfl
    · rename_i hnull
      rw [if_pos]
      by_contra hout
      exact hsel ⟨hnull, fun h => hout (.inl h), fun h => hout (.inr h)⟩

theorem rangeQueryOnPage_pushes {p : Entry} (hp : p.addr? = some a) (depth : ℕ) :
    ∃ ctxs, rangeQueryOnPage pg depth p loOwn hiOwn l r =
        some (if depth + 1 = pg.hdr.depth then [⟨loOwn, pg, .slot a 0⟩] else [], ctxs) ∧
      List.Forall₂ (Selected lo hi π pg a)
        ((List.range pg.hdr.type.num).filter fun j => Kept lo hi π (pg.slots j)) ctxs := by
  unfold rangeQueryOnPage
  rw [side_left.state_header hh hn.le hπ hd hl, side_right.state_header hh hn.le hπ hd hr]
  simp only [hp, Option.getD_some, Option.bind_eq_bind, Option.bind_some, hh.end_eq,
    getPartial_eq (show π.length + 1 ≤ n from hn)]
  split
  · rename_i hout
    refine ⟨[], rfl, ?_⟩
    -- outside already with the node's path, so with every slot
    have hnone : ∀ j ∈ List.range pg.hdr.type.num, ¬ decide (Kept lo hi π (pg.slots j)) = true := by
      intro j _
      simp only [decide_eq_true_eq]
      rintro ⟨-, h1, h2⟩
      have hlen : (π ++ [(pg.slots j).partialKey]).length ≤ n := by simpa using hn
      obtain hout | hout := hout
      · rw [side_left.of_append _ hlen (by simp [hout])] at h1
        exact h1 hout
      · rw [side_right.of_append _ hlen (by simp [hout])] at h2
        exact h2 hout
    rw [List.filter_eq_nil_iff.mpr hnone]
    exact .nil
  · obtain ⟨ctxs, hc, hall⟩ := collect_filter (P := Selected lo hi π pg a)
      (fun j (_ : j ∈ List.range pg.hdr.type.num) => (PageScan.slot_selects hh hn hπ hd hl hr j).1)
      fun j _ => (PageScan.slot_selects hh hn hπ hd hl hr j).2
    rw [hc]
    exact ⟨ctxs, rfl, hall⟩

open scoped Classical in
/-- From a node with path `π` the contexts pushed are those of the slots under which some key of
the query can lie, each again with the meaning of its states. -/
theorem rangeQueryOnPage_selects (hle : lo ≤ hi) {p : Entry} (hp : p.addr? = some a) (depth : ℕ) :
    ∃ calls ctxs, rangeQueryOnPage pg depth p loOwn hiOwn l r = some (calls, ctxs) ∧
      List.Forall₂ (Selected lo hi π pg a)
        ((List.range pg.hdr.type.num).filter fun j => pg.slots j ≠ .null ∧
          ∃ x : Key n, π ++ [(pg.slots j).partialKey] <+: x.bytes ∧ lo ≤ x ∧ x ≤ hi) ctxs := by
  obtain ⟨ctxs, hc, hall⟩ := rangeQueryOnPage_pushes hh hn hπ hd hl hr hp depth
  refine ⟨_, ctxs, hc, ?_⟩
  convert hall using 4 with j
  rw [exists_key_between hle (by simpa using hn)]
  rfl

end page

def threeLeaves : Page where
  rev := .slot 0 0
  hdr := ⟨2, .node4, []⟩
  slots i := if i = 0 then .leaf 1 10 else if i = 1 then .leaf 4 11 else if i = 2 then .leaf 9 12 else .null

open scoped Classical in
/-- On both borders, the keys from 52… to 57…. -/
theorem rangeQueryOnPage_selects_border :
    ∃ calls ctxs, rangeQueryOnPage threeLeaves 1 (.node 5 .node4 7)
        (⟨[5, 2, 0, 0, 0, 0, 0, 0], rfl⟩ : Key keyLen) ⟨[5, 7, 0, 0, 0, 0, 0, 0], rfl⟩ .border .border =
        some (calls, ctxs) ∧
      List.Forall₂ (Selected (⟨[5, 2, 0, 0, 0, 0, 0, 0], rfl⟩ : Key keyLen)
          ⟨[5, 7, 0, 0, 0, 0, 0, 0], rfl⟩ [5] threeLeaves 7)
        ((List.range threeLeaves.hdr.type.num).filter fun j => threeLeaves.slots j ≠ .null ∧
          ∃ x : Key keyLen, [5] ++ [(threeLeaves.slots j).partialKey] <+: x.bytes ∧
            (⟨[5, 2, 0, 0, 0, 0, 0, 0], rfl⟩ : Key keyLen) ≤ x ∧ x ≤ ⟨[5, 7, 0, 0, 0, 0, 0, 0], rfl⟩) ctxs :=
  rangeQueryOnPage_selects (σ := [5]) ⟨by decide, by decide, rfl⟩ (by decide) List.prefix_rfl le_rfl
    ⟨by decide, by decide, fun _ => rfl, fun h => by cases h⟩
    ⟨by decide, by decide, fun _ => rfl, fun h => by cases h⟩ (by decide) rfl 1

/-- Inside the query with bounds that were never rewritten: the bytes above the node are not those
its context's bounds begin with, and the bounds pushed do not begin with the slot's bytes. -/
theorem rangeQueryOnPage_keeps_foreign_bytes :
    let lo : Key keyLen := ⟨[3, 0, 0, 0, 0, 0, 0, 0], rfl⟩
    let hi : Key keyLen := ⟨[8, 0, 0, 0, 0, 0, 0, 0], rfl⟩
    lo ≤ hi ∧ State.of Above lo [5] = .inside ∧ State.of Below hi [5] = .inside ∧
    ∃ s ctxs, (rangeQueryOnPage threeLeaves 1 (.node 5 .node4 7) lo hi .inside .inside).map Prod.snd =
        some (s :: ctxs) ∧
      s.e = .leaf 1 10 ∧ s.lState = .inside ∧ ¬ [5, 1] <+: s.fromKey.bytes := by
  refine ⟨by decide, by decide, by decide, _, _, rfl, rfl, rfl, by decide⟩

end SmartTree
