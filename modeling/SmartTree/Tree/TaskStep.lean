import SmartTree.KeyOrder
import SmartTree.Tree.Contexts
import SmartTree.Tree.Owed

/-! The steps of range queries and migrations on an exact tree: what they add to the cache is
filed under the path of its node, and where they go on is a slot on the way of their key. -/
namespace SmartTree
variable {n : ℕ} {L : Layout} {m : Mem n} {k : Key n} {σ π : List UInt8} {a : Addr}
  {crc : Key n → Value → UInt64}

structure WalkOk (L : Layout) (m : Mem n) (k : Key n) (w : Walk) (σ : List UInt8) : Prop where
  slot : SlotPath L m w.pPtr σ
  depth : w.depth = σ.length + 1
  key : σ <+: k.bytes
  entry : EntryOk L m σ w.p
  filled : w.p ≠ .null → m.load w.pPtr ≠ .null
  current : w.fromCache = false → m.load w.pPtr = w.p

/-- What the migration loop knows of a node it has arrived at: the key follows the tree down
to its own depth, or the node hangs deeper than the loop believes. -/
structure MigrateAt (L : Layout) (m : Mem n) (k : Key n) (w : Walk) (a : Addr) (π : List UInt8) :
    Prop where
  layout : L a = some (.node π)
  depth : (∃ σ, σ <+: π ∧ σ <+: k.bytes ∧ w.depth = σ.length + 1) ∨
    ∃ ptr σ b t, SlotPath L m ptr σ ∧ m.load ptr = .node b t a ∧ w.depth ≤ σ.length
  current : w.fromCache = false → (∃ σ, SlotPath L m w.pPtr σ) ∧ m.load w.pPtr = w.p

def MigrateOk (L : Layout) (m : Mem n) (k : Key n) (w : Walk) : Prop :=
  ∀ b t a, w.p = .node b t a → ∃ π, MigrateAt L m k w a π

theorem WalkOk.migrate {w : Walk} (h : WalkOk L m k w σ) : MigrateOk L m k w := by
  intro b t a hp
  have he := h.entry
  rw [hp] at he
  cases he with
  | node ha hpre =>
    exact ⟨_, ha, .inl ⟨σ, hpre, h.key, h.depth⟩, fun hf => ⟨⟨σ, h.slot⟩, h.current hf⟩⟩

section Carry
variable {L' : Layout} {m' : Mem n} (hx : Extends L m L' m') (hload : ∀ ptr, m'.load ptr = m.load ptr)
include hx hload

theorem WalkOk.carry {w : Walk} (h : WalkOk L m k w σ) : WalkOk L' m' k w σ where
  slot := h.slot.mono hx
  depth := h.depth
  key := h.key
  entry := h.entry.mono hx
  filled hp := hload _ ▸ h.filled hp
  current hf := hload _ ▸ h.current hf

theorem CtxOk.carry {s : ScanContext n} (h : CtxOk L m s σ) : CtxOk L' m' s σ where
  slot := h.slot.mono hx
  depth := h.depth
  key := h.key
  entry := h.entry.mono hx
  full := h.full
  filled := hload _ ▸ h.filled
  current hf := hload _ ▸ h.current hf

theorem MigrateOk.carry {w : Walk} (h : MigrateOk L m k w) : MigrateOk L' m' k w := by
  intro b t a hp
  obtain ⟨π, ha, hd, hc⟩ := h b t a hp
  refine ⟨π, hx.layout _ _ ha, hd.imp_right ?_, fun hf => ?_⟩
  · rintro ⟨ptr, σ, b, t, h1, h2, h3⟩
    exact ⟨ptr, σ, b, t, h1.mono hx, hload _ ▸ h2, h3⟩
  · obtain ⟨⟨σ, hσ⟩, hl⟩ := hc hf
    exact ⟨⟨σ, hσ.mono hx⟩, hload _ ▸ hl⟩

end Carry

theorem cacheHit_ok {log : List (List UInt8 × CacheEntry)} (hlog : ∀ q ∈ log, LogOk L m q) {j : ℕ}
    {ptr : Ptr} {e : Entry} {d : ℕ} (h : cacheHit log k j = some (ptr, e, d)) :
    ∃ σ, SlotPath L m ptr σ ∧ d = σ.length ∧ σ <+: k.bytes ∧ EntryOk L m σ e ∧ e ≠ .null ∧
      m.load ptr ≠ .null := by
  obtain ⟨⟨path, ce⟩, hq, h⟩ := Option.bind_eq_some_iff.mp h
  split at h
  · rename_i hp
    obtain ⟨i, hi, h⟩ := Option.map_eq_some_iff.mp h
    obtain ⟨hlt, hm, -⟩ := List.findIdx?_eq_some_iff_getElem.mp hi
    simp only [Bool.and_eq_true, Bool.not_eq_true', Entry.isNull, beq_eq_false_iff_ne,
      beq_iff_eq] at hm
    have hget : ce.records[i]? = some ce.records[i] := List.getElem?_eq_getElem hlt
    rw [List.getD_eq_getElem?_getD, hget] at h
    simp only [Option.getD_some, Prod.mk.injEq] at h
    obtain ⟨rfl, rfl, rfl⟩ := h
    have hok := hlog _ (List.mem_of_getElem? hq)
    obtain ⟨h1, h2, h3⟩ := hok.slot i _ hget hm.1
    refine ⟨path ++ [ce.records[i].partialKey], ?_, ?_, ?_, h3, hm.1, h1⟩
    · rw [← h2]
      exact .slot hok.layout h1
    · simpa using hok.depth
    · rw [hm.2]
      exact Key.append_byte_prefix (List.isPrefixOf_iff_prefix.mp hp.1) hp.2
  · cases h

theorem Walk.start_ok (ht : TreeInv L m) {log : List (List UInt8 × CacheEntry)}
    (hlog : ∀ q ∈ log, LogOk L m q) (hit : Option ℕ) :
    ∃ σ, WalkOk L m k (Walk.start m (hit.bind (cacheHit log k))) σ := by
  cases h : hit.bind (cacheHit log k) with
  | none => exact ⟨[], .root, rfl, List.nil_prefix, ht.root, id, fun _ => rfl⟩
  | some q =>
    obtain ⟨ptr, e, d⟩ := q
    obtain ⟨j, -, hj⟩ := Option.bind_eq_some_iff.mp h
    obtain ⟨σ, h1, h2, h3, h4, -, h6⟩ := cacheHit_ok hlog hj
    exact ⟨σ, h1, by rw [Walk.start, h2], h3, h4, fun _ => h6, fun hf => by cases hf⟩

section range

/-- The contexts a range query finds in the cache: the bounds may be cut, but not above the
depth of the record. -/
theorem rangeCacheLoop_ok {log : List (List UInt8 × CacheEntry)} (hlog : ∀ q ∈ log, LogOk L m q)
    {hits : Key n → Option ℕ} {lo hi : Key n} {fuel : ℕ} (hk : lo ≤ k) {rc : RangeCache n}
    (h : rc ∈ rangeCacheLoop (fun k => (hits k).bind (cacheHit log k)) hi fuel k) :
    ∃ σ, CtxOk L m (rc.context lo hi) σ := by
  induction fuel generalizing k with
  | zero => cases h
  | succ fuel ih =>
    rw [rangeCacheLoop] at h
    split at h
    · rename_i hlt
      obtain h | h := List.mem_append.mp h
      · cases hl : (hits k).bind (cacheHit log k) with
        | none => simp [hl] at h
        | some q =>
          obtain ⟨ptr, e, d⟩ := q
          obtain ⟨j, -, hj⟩ := Option.bind_eq_some_iff.mp hl
          obtain ⟨σ, h1, h2, h3, h4, h5, h6⟩ := cacheHit_ok hlog hj
          have hd : d ≤ n := by rw [h2]; simpa using h3.length_le
          have hσ : σ = k.bytes.take d := by rw [h2]; exact List.prefix_iff_eq_take.mp h3
          have hkey : ∀ x : Key n, x.bytes.take d = k.bytes.take d → x ≤ k →
              σ <+: (x.max lo).bytes := by
            intro x hx hxk
            rw [Key.max]
            split
            · rename_i hxlo
              have hle : x ≤ lo := Key.le_iff.mpr (Key.lt_iff.mp hxlo).le
              rw [hσ, ← Key.take_eq_of_between hx hle hk]
              exact List.take_prefix _ _
            · rw [hσ, ← hx]
              exact List.take_prefix _ _
          simp only [hl] at h
          cases e with
          | null => exact absurd rfl h5
          | leaf b l =>
            obtain rfl := List.mem_singleton.mp h
            exact ⟨σ, h1, h2, hkey k rfl (Key.le_iff.mpr le_rfl), h4, h5, h6, fun hf => by cases hf⟩
          | node b t a =>
            obtain rfl := List.mem_singleton.mp h
            exact ⟨σ, h1, h2, hkey _ (Key.take_fill hd) (k.fill_zero_le d), h4, h5, h6,
              fun hf => by cases hf⟩
      · refine ih ?_ h
        have := Key.toNat_add_one hlt
        rw [Key.le_iff] at hk ⊢
        omega
    · cases h

theorem mem_claim {ss : List (ScanContext n)} {tokens : List Addr} {s : ScanContext n}
    (h : s ∈ (claim ss tokens).1) : s ∈ ss := by
  induction ss generalizing tokens with
  | nil => cases h
  | cons x ss ih =>
    rw [claim] at h
    dsimp only at h
    split at h
    · exact List.mem_cons_of_mem _ (ih h)
    · obtain rfl | h := List.mem_cons.mp h
      · exact List.mem_cons_self
      · exact List.mem_cons_of_mem _ (ih h)

/-- What every context of a batch leads to, the whole batch leads to. -/
theorem processAll_ok {A : AddCall n → Prop} {B : ScanContext n → Prop} {lo hi : Key n}
    {r : Reads n} {i : ℕ} {ss : List (ScanContext n)} {y : Processed n}
    (hstep : ∀ j s x, ss[j]? = some s → process crc lo hi r (i + j) s = some x →
      (∀ c ∈ x.calls, A c) ∧ ∀ t ∈ x.survivors, B t)
    (h : processAll crc lo hi r i ss = some y) :
    (∀ c ∈ y.calls, A c) ∧ ∀ t ∈ y.survivors, B t := by
  induction ss generalizing i y with
  | nil => cases h; exact ⟨by simp, by simp⟩
  | cons s ss ih =>
    obtain ⟨x, hx, h⟩ := Option.bind_eq_some_iff.mp h
    obtain ⟨z, hz, h⟩ := Option.bind_eq_some_iff.mp h
    cases h
    obtain ⟨h1, h2⟩ := hstep 0 s x rfl hx
    obtain ⟨h3, h4⟩ := ih (fun j t x' ht hp => hstep (j + 1) t x' ht
      (by rwa [show i + (j + 1) = i + 1 + j by omega])) hz
    constructor
    · intro c hc
      exact (List.mem_append.mp hc).elim (h1 c) (h3 c)
    · intro t ht
      exact (List.mem_append.mp ht).elim (h2 t) (h4 t)

/-- A batch fetches every slot the header declares: the entry in the slot has the header's
type, and for a cached entry all slots are fetched. -/
theorem fetchPage_slots (hx : Linked crc L m) {s : ScanContext n} (hs : CtxOk L m s σ) {b : UInt8}
    {t : NodeType} (he : s.e = .node b t a) (old : Page) {j : ℕ}
    (hj : j < (m.node a).hdr.type.num) : (fetchPage m s old).slots j = m.load (.slot a j) := by
  have hnum : j < if s.fromCache then NodeType.node256.num else s.e.type.num := by
    split
    · exact hj.trans_le (NodeType.num_le _)
    · rename_i hf
      have hl := hs.current (by simpa using hf)
      rw [he] at hl ⊢
      rwa [Entry.type_node, ← (hx.node hs.slot hl).type]
  rw [fetchPage]
  dsimp only
  rw [if_pos hnum, he]
  rfl

theorem rangeLevel_ok (ht : TreeInv L m) (hx : Linked crc L m) {lo hi : Key n} {old : ℕ → Page}
    {st : RangeState n} (hs : ∀ s ∈ st.survivors, ∃ σ, CtxOk L m s σ)
    {r : List (AddCall n) × RangeState n}
    (h : rangeLevel crc lo hi (Reads.of m old) st = some r) :
    (∀ c ∈ r.1, ∃ a π, CallOk L m c a π) ∧ ∀ s ∈ r.2.survivors, ∃ σ, CtxOk L m s σ := by
  obtain ⟨x, hp, rfl⟩ := Option.map_eq_some_iff.mp h
  refine processAll_ok (A := fun c => ∃ a π, CallOk L m c a π)
    (B := fun s => ∃ σ, CtxOk L m s σ) (fun j s y hj hy => ?_) hp
  obtain ⟨σ, hσ⟩ := hs s (mem_claim (List.mem_of_getElem? hj))
  rw [zero_add] at hy
  have hagain : (Reads.of m old (claim st.survivors st.tokens).1).entry j = m.load s.ePtr := by
    simp [Reads.of, hj]
  unfold process at hy
  split at hy
  · cases hy
  · cases hy
    rw [processLeaf, hagain]
    split
    · exact ⟨by simp, by simpa using ⟨σ, hσ.reread ht⟩⟩
    · refine ⟨by simp, fun t ht' => ?_⟩
      dsimp only at ht'
      split at ht'
      · cases ht'
      · exact List.mem_singleton.mp ht' ▸ ⟨σ, hσ⟩
  · rename_i b t a he
    have hpage : (Reads.of m old (claim st.survivors st.tokens).1).page j =
        fetchPage m s (old j) := by simp [Reads.of, hj]
    have hhdr : (fetchPage m s (old j)).hdr = (m.node a).hdr := by simp [fetchPage, he]
    rw [processNode, hagain, hpage] at hy
    split at hy
    · cases hy
      exact ⟨by simp, by simpa using ⟨σ, hσ.reread ht⟩⟩
    · rename_i hv
      obtain ⟨q, hq, rfl⟩ := Option.map_eq_some_iff.mp hy
      simp only [Page.isValid, Bool.not_eq_true', Bool.not_eq_false, Bool.and_eq_true,
        decide_eq_true_eq] at hv
      have hen := hσ.entry
      rw [he] at hen
      cases hen with
      | @node _ _ _ π ha hpre =>
        obtain ⟨h1, h2⟩ := rangeQueryOnPage_ok ht ha hhdr
          (fun i hi => fetchPage_slots hx hσ he (old j) (hhdr ▸ hi)) hσ.key hpre hσ.depth hv.1.2
          (by rw [he]; rfl) hq
        exact ⟨fun c hc => ⟨a, π, h1 c hc⟩, h2⟩

end range

section walk

theorem descendTo_some {pg : Page} {num d : ℕ} {test : Entry → Bool} {fc : Bool} {w : Walk}
    (h : descendTo pg a num test d fc = some w) :
    ∃ i < num, test (pg.slots i) = true ∧ w = ⟨.slot a i, pg.slots i, d + 1, fc⟩ := by
  obtain ⟨i, hi, rfl⟩ := Option.map_eq_some_iff.mp h
  have htest := List.find?_some hi
  exact ⟨i, List.mem_range.mp (List.mem_of_find?_eq_some hi), htest, rfl⟩

theorem headerWalk_through {target d : ℕ} {bs : List UInt8}
    (h : headerWalk k target d bs = some .through) : Header.diffLoop k d bs = some none := by
  induction bs generalizing d with
  | nil => rfl
  | cons b bs ih =>
    obtain ⟨x, hx, h⟩ := Option.bind_eq_some_iff.mp h
    split at h
    · cases h
    · rename_i hxb
      split at h
      · cases h
      · rw [Header.diffLoop, hx]
        simp [not_not.mp hxb, ih h]

theorem readNode_valid {w : Walk} (h : ¬ (!(readNode m w a).valid) = true) :
    (m.node a).hdr.depth ≤ w.depth := by
  simp only [readNode, Page.isValid, Bool.not_eq_true', Bool.not_eq_false, Bool.and_eq_true,
    decide_eq_true_eq] at h
  exact h.1.2

theorem readNode_ops (hx : Linked crc L m) {w : Walk} {b : UInt8} {t : NodeType}
    (hp : w.p = .node b t a)
    (hc : w.fromCache = false → (∃ σ, SlotPath L m w.pPtr σ) ∧ m.load w.pPtr = w.p) :
    (readNode m w a).ops = [] := by
  cases hf : w.fromCache with
  | true => simp [readNode, hf]
  | false =>
    obtain ⟨⟨σ, hs⟩, hl⟩ := hc hf
    have hr := (hx.node hs (hl.trans hp)).rev
    simp [readNode, hr]

theorem searchEntries_ok (ht : TreeInv L m) (hx : Linked crc L m) {lo hi : Key n} {target : ℕ}
    {w : Walk} (hw : WalkOk L m lo w σ) {r : WalkStep n}
    (h : searchEntries m lo hi target w = some r) :
    r.ops = [] ∧ (∀ c ∈ r.calls, ∃ a π, CallOk L m c a π) ∧
      (∀ s ∈ r.found, ∃ τ, CtxOk L m s τ) ∧ ∀ w', r.next = some w' → ∃ τ, WalkOk L m lo w' τ := by
  unfold searchEntries at h
  split at h
  · cases h; exact ⟨rfl, by simp, by simp, by simp⟩
  · rename_i hnull
    split at h
    · cases h
      refine ⟨rfl, by simp, ?_, by simp⟩
      simp only [List.mem_singleton, forall_eq]
      exact ⟨σ, hw.slot, by rw [hw.depth]; rfl, hw.key, hw.entry, hnull, hw.filled hnull, hw.current⟩
    · split at h
      · rename_i b t a hp
        have hops := readNode_ops hx hp fun hf => ⟨⟨σ, hw.slot⟩, hw.current hf⟩
        have he := hw.entry
        rw [hp] at he
        cases he with
        | @node _ _ _ π ha hpre =>
          have hn := ht.node a π ha
          dsimp only at h
          split at h
          · cases h
            refine ⟨hops, by simp, by simp, fun w' hw' => ?_⟩
            cases hw'
            exact ⟨σ, hw.slot, hw.depth, hw.key, ht.entry hw.slot, fun hne => hne, fun _ => rfl⟩
          · rename_i hv
            have hle := readNode_valid hv
            rw [hw.depth] at hle
            obtain ⟨v, hwalk, h⟩ := Option.bind_eq_some_iff.mp h
            cases v with
            | mismatch => cases h; exact ⟨hops, by simp, by simp, by simp⟩
            | onPage =>
              obtain ⟨q, hq, h⟩ := Option.bind_eq_some_iff.mp h
              cases h
              obtain ⟨h1, h2⟩ := rangeQueryOnPage_ok ht ha rfl (fun _ _ => rfl) hw.key hpre
                (by rw [hw.depth]; rfl) (by rw [hw.depth]; exact hle)
                (by simp [readNode, hp]) hq
              exact ⟨hops, fun c hc => ⟨a, π, h1 c hc⟩, h2, by simp⟩
            | through =>
              obtain ⟨x, hxb, h⟩ := Option.bind_eq_some_iff.mp h
              cases h
              refine ⟨hops, by simp, by simp, fun w' hw' => ?_⟩
              dsimp only at hw'
              obtain ⟨i, hi, htest, rfl⟩ := descendTo_some hw'
              simp only [Bool.and_eq_true, Bool.not_eq_true', Entry.isNull, beq_eq_false_iff_ne,
                beq_iff_eq] at htest
              have hend := hn.hdr.end_eq
              have hshort := hn.short
              have hpath : π <+: lo.bytes := by
                obtain ⟨-, h2⟩ | ⟨_, _, h1, -⟩ := hn.hdr.firstDiff (by omega) hw.key hpre hle
                · exact h2
                · cases (headerWalk_through hwalk).symm.trans h1
              rw [readNode_page, hend, getPartial_eq (by omega)] at hxb
              have hb : ((m.node a).slots i).partialKey = lo.byte (π.length + 1) :=
                htest.2.trans (Option.some.inj hxb).symm
              refine ⟨π ++ [((m.node a).slots i).partialKey], .slot ha htest.1, ?_, ?_,
                hn.entry i htest.1, fun _ => htest.1, fun _ => rfl⟩
              · simpa using hend
              · rw [hb]
                exact Key.append_byte_prefix hpath hshort
      · cases h; exact ⟨rfl, by simp, by simp, by simp⟩

theorem migrateStep_ok (ht : TreeInv L m) (hx : Linked crc L m) {w : Walk}
    (hw : MigrateOk L m k w) {r : WalkStep n} (h : migrateStep m k w = some r) :
    r.ops = [] ∧ (∀ c ∈ r.calls, ∃ a π, CallOk L m c a π) ∧
      ∀ w', r.next = some w' → MigrateOk L m k w' := by
  unfold migrateStep at h
  split at h
  · rename_i b t a hp
    obtain ⟨π, ha, hpos, hcur⟩ := hw b t a hp
    have hn := ht.node a π ha
    have hops := readNode_ops hx hp hcur
    dsimp only at h
    split at h
    · cases h; exact ⟨hops, by simp, by simp⟩
    · rename_i hv
      have hle := readNode_valid hv
      obtain ⟨σ, hπ, hk, hd⟩ | ⟨ptr, σ, b', t', hs, hl, hd⟩ := hpos
      · obtain ⟨x, hxb, h⟩ := Option.bind_eq_some_iff.mp h
        cases h
        refine ⟨hops, ?_, ?_⟩
        · intro c hc
          dsimp only at hc
          split at hc
          · obtain rfl := List.mem_singleton.mp hc
            exact ⟨a, π, rfl, ha, rfl, fun _ _ => rfl, hn.hdr.cachePath_eq hk hπ (hd ▸ hle)⟩
          · cases hc
        · intro w' hw' b₁ t₁ a₁ hp₁
          dsimp only at hw'
          obtain ⟨i, hi, htest, rfl⟩ := descendTo_some hw'
          have hslot : m.load (.slot a i) = .node b₁ t₁ a₁ := hp₁
          have hne : m.load (.slot a i) ≠ .null := by simp [hslot]
          have hen := hn.entry i hne
          rw [hslot] at hen
          cases hen with
          | @node _ _ _ π₁ ha₁ hpre₁ =>
            refine ⟨π₁, ha₁, ?_, fun _ => ⟨⟨_, .slot ha hne⟩, rfl⟩⟩
            obtain hlt | heq := Nat.lt_or_eq_of_le hπ.length_le
            · right
              refine ⟨.slot a i, _, b₁, t₁, .slot ha hne, hslot, ?_⟩
              simp only [hd, List.length_append, List.length_singleton]
              omega
            · left
              obtain rfl := hπ.eq_of_length heq
              have hbyte : b₁ = k.byte (σ.length + 1) := by
                have := hn.short
                rw [hd, getPartial_eq (by omega)] at hxb
                have : ((m.node a).slots i).partialKey = x := beq_iff_eq.mp htest
                rw [show (m.node a).slots i = .node b₁ t₁ a₁ from hslot] at this
                exact this.trans (Option.some.inj hxb).symm
              refine ⟨_, hpre₁, ?_, by simp [hd]⟩
              rw [Entry.partialKey_node, hbyte]
              exact Key.append_byte_prefix hk hn.short
      · have := (hx.node hs hl).depth
        omega
  · cases h; exact ⟨rfl, by simp, by simp⟩

end walk
end SmartTree
