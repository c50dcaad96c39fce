import SmartTree.Tree.Structure
import SmartTree.Tree.Walk

/-! The contexts of a range query: each stands at a slot of the tree, and its left bound
begins with the bytes spelt on the way there, rewritten or not. -/
namespace SmartTree
variable {n : ℕ} {L : Layout} {m : Mem n} {k : Key n} {σ π : List UInt8} {a : Addr}

structure CallOk (L : Layout) (m : Mem n) (q : AddCall n) (a : Addr) (π : List UInt8) : Prop where
  addr : q.addr = .slot a 0
  layout : L a = some (.node π)
  hdr : q.page.hdr = (m.node a).hdr
  slots : ∀ j < q.page.hdr.type.num, q.page.slots j = m.load (.slot a j)
  path : cachePath q.key q.page.hdr = π

structure CtxOk (L : Layout) (m : Mem n) (s : ScanContext n) (σ : List UInt8) : Prop where
  slot : SlotPath L m s.ePtr σ
  depth : s.depth = σ.length
  key : σ <+: s.fromKey.bytes
  entry : EntryOk L m σ s.e
  full : s.e ≠ .null
  filled : m.load s.ePtr ≠ .null
  current : s.fromCache = false → m.load s.ePtr = s.e

theorem CtxOk.reread {s : ScanContext n} (h : CtxOk L m s σ) (ht : TreeInv L m) :
    CtxOk L m { s with e := m.load s.ePtr, fromCache := false } σ :=
  ⟨h.slot, h.depth, h.key, ht.entry h.slot, h.filled, h.filled, fun _ => rfl⟩

theorem remakePrefix_spec {d : ℕ} {b : UInt8} (hd : 1 ≤ d) (hn : d ≤ n) :
    ∃ k', remakePrefix k d b = some k' ∧ k'.bytes.take d = k.bytes.take (d - 1) ++ [b] := by
  have h0 : d ≠ 0 := by omega
  refine ⟨_, by simp only [remakePrefix, h0, hn, dite_true, dite_false]; rfl, ?_⟩
  have hlen : (k.bytes.take (d - 1)).length = d - 1 := by
    rw [List.length_take, k.length_bytes]; omega
  rw [List.take_append, hlen, List.take_of_length_le (by omega), show d - (d - 1) = 1 by omega]
  rfl

/-- Rewriting a bound byte by byte puts the bytes behind what it began with. -/
theorem remakePath_spec {d : ℕ} {bs : List UInt8} (hd : 1 ≤ d) (hn : d - 1 + bs.length ≤ n) :
    ∃ k', remakePath k d bs = some k' ∧ k.bytes.take (d - 1) ++ bs <+: k'.bytes := by
  induction bs generalizing k d with
  | nil => exact ⟨k, rfl, by rw [List.append_nil]; exact List.take_prefix _ _⟩
  | cons b bs ih =>
    simp only [List.length_cons] at hn
    obtain ⟨k', h1, h2⟩ := remakePrefix_spec (k := k) (b := b) hd (by omega)
    obtain ⟨k'', h3, h4⟩ := ih (k := k') (d := d + 1) (by omega) (by omega)
    refine ⟨k'', by rw [remakePath, h1]; exact h3, ?_⟩
    rwa [Nat.add_sub_cancel, h2, List.append_assoc] at h4

theorem mem_collect {α : Type*} {f : ℕ → Option (List α)} {js : List ℕ} {xs : List α} {x : α}
    (h : collect f js = some xs) (hx : x ∈ xs) : ∃ j ∈ js, ∃ ys, f j = some ys ∧ x ∈ ys := by
  induction js generalizing xs with
  | nil => cases h; cases hx
  | cons j js ih =>
    obtain ⟨y, hy, h⟩ := Option.bind_eq_some_iff.mp h
    obtain ⟨ys, hys, h⟩ := Option.bind_eq_some_iff.mp h
    cases h
    obtain hx | hx := List.mem_append.mp hx
    · exact ⟨j, List.mem_cons_self, y, hy, hx⟩
    · obtain ⟨i, hi, hf⟩ := ih hys hx
      exact ⟨i, List.mem_cons_of_mem _ hi, hf⟩

namespace State

theorem left_border {st : State} {b bound : UInt8} (h : st.left b bound = .border) :
    st = .border ∧ b = bound := by
  unfold left at h
  split at h
  · split at h
    · exact ⟨‹_›, ‹_›⟩
    · split at h <;> cases h
  · contradiction

end State

theorem HdrPath.border {h : Header} (hh : HdrPath π h) (hlen : π.length ≤ n)
    (hk : σ <+: k.bytes) (hπ : σ <+: π) (hd : h.depth ≤ σ.length + 1) {st : State}
    (hs : h.state .left k st = some .border) : π <+: k.bytes := by
  unfold Header.state at hs
  split at hs
  · obtain ⟨h1, h2⟩ | ⟨i, b, h1, h2, -, -, hne, -⟩ := hh.firstDiff hlen hk hπ hd
    · exact h2
    · rw [h1, Option.map_some, Option.some.injEq] at hs
      have hb := (State.left_border hs).2
      rw [List.getD_eq_getElem?_getD, h2, Option.getD_some] at hb
      exact absurd hb hne
  · cases hs
    contradiction

/-- The path of a node, cut where its header starts, is what a bound above it begins with. -/
theorem HdrPath.cachePath_eq {h : Header} (hh : HdrPath π h) (hk : σ <+: k.bytes) (hπ : σ <+: π)
    (hd : h.depth ≤ σ.length + 1) : cachePath k h = π := by
  have hpos := hh.pos
  have htake : k.pre (h.depth - 1) = σ.take (h.depth - 1) := by
    obtain ⟨t, ht⟩ := hk
    rw [Key.pre, ← ht, List.take_append_of_le_length (by omega)]
  rw [cachePath, htake]
  exact hh.take_append hπ hd

section page
variable {pg : Page} {p : Entry} {depth : ℕ} {lo hi : Key n} {l r : State}
  (ht : TreeInv L m) (ha : L a = some (.node π)) (hh : pg.hdr = (m.node a).hdr)
  (hs : ∀ j < pg.hdr.type.num, pg.slots j = m.load (.slot a j))
  (hk : σ <+: lo.bytes) (hπ : σ <+: π) (hd : depth = σ.length) (hle : pg.hdr.depth ≤ depth + 1)
include ht ha hh hs hk hπ hd hle

/-- What one slot pushes: on the border the bound goes on with the slot's byte, inside it is
rewritten to do so. -/
theorem PageScan.slot_ok {e : Entry} {j : ℕ} {fromPartial toPartial : UInt8}
    (hj : j < pg.hdr.type.num) (he : e = pg.slots j) (hlo : l = .border → π <+: lo.bytes)
    (hfp : getPartial lo (pg.hdr.depth + pg.hdr.partials.length) = some fromPartial)
    {ctxs : List (ScanContext n)}
    (hc : (PageScan.mk pg.hdr a lo hi l r fromPartial toPartial).slot e j = some ctxs) :
    ∀ s ∈ ctxs, ∃ τ, CtxOk L m s τ := by
  intro s hs'
  have hn := ht.node a π ha
  have hhp : HdrPath π pg.hdr := hh ▸ hn.hdr
  have hend := hhp.end_eq
  have hpos := hhp.pos
  have hshort := hn.short
  have hload : m.load (.slot a j) = e := by rw [he, hs j hj]
  unfold PageScan.slot at hc
  dsimp only at hc
  split at hc
  · cases hc; cases hs'
  · rename_i hne
    split at hc
    · cases hc; cases hs'
    · rename_i hout
      obtain ⟨nextFrom, hf, hc⟩ := Option.bind_eq_some_iff.mp hc
      obtain ⟨nextTo, -, hc⟩ := Option.bind_eq_some_iff.mp hc
      cases hc
      obtain rfl := List.mem_singleton.mp hs'
      refine ⟨π ++ [e.partialKey], ?_, by simpa using hend, ?_, ?_, hne, by rwa [hload], fun _ => hload⟩
      · rw [← hload] at hne ⊢
        exact .slot ha hne
      · dsimp only
        unfold State.nextBound at hf
        split at hf
        · -- the bound is rewritten
          have hfit : pg.hdr.depth - 1 + (pg.hdr.partials ++ [e.partialKey]).length ≤ n := by
            simp only [List.length_append, List.length_singleton]
            omega
          obtain ⟨k', h1, h2⟩ := remakePath_spec (k := lo) hpos hfit
          obtain rfl := Option.some.inj (hf.symm.trans h1)
          rw [← List.append_assoc] at h2
          have hpath := hhp.cachePath_eq hk hπ (hd ▸ hle)
          rw [cachePath, Key.pre] at hpath
          rwa [hpath] at h2
        · rename_i hin
          cases hf
          have hb : l.left e.partialKey fromPartial = .border := by
            cases hst : l.left e.partialKey fromPartial with
            | border => rfl
            | inside => exact absurd hst hin
            | outside => exact absurd (.inl hst) hout
          obtain ⟨h1, h2⟩ := State.left_border hb
          rw [hend, getPartial_eq (by omega)] at hfp
          rw [h2, ← Option.some.inj hfp]
          exact Key.append_byte_prefix (hlo h1) hshort
      · rw [← hload] at hne ⊢
        exact hn.entry j hne

theorem rangeQueryOnPage_ok {q : List (AddCall n) × List (ScanContext n)} (hp : p.addr? = some a)
    (h : rangeQueryOnPage pg depth p lo hi l r = some q) :
    (∀ c ∈ q.1, CallOk L m c a π) ∧ ∀ s ∈ q.2, ∃ τ, CtxOk L m s τ := by
  have hhp : HdrPath π pg.hdr := hh ▸ (ht.node a π ha).hdr
  have hshort := (ht.node a π ha).short
  have hcalls : ∀ c ∈ (if depth + 1 = pg.hdr.depth then [AddCall.mk lo pg (.slot a 0)] else []),
      CallOk L m c a π := by
    intro c hc
    split at hc
    · obtain rfl := List.mem_singleton.mp hc
      exact ⟨rfl, ha, hh, hs, hhp.cachePath_eq hk hπ (hd ▸ hle)⟩
    · cases hc
  unfold rangeQueryOnPage at h
  simp only [hp, Option.getD_some] at h
  obtain ⟨l', hl, h⟩ := Option.bind_eq_some_iff.mp h
  obtain ⟨r', -, h⟩ := Option.bind_eq_some_iff.mp h
  split at h
  · cases h
    exact ⟨hcalls, by simp⟩
  · obtain ⟨fp, hfp, h⟩ := Option.bind_eq_some_iff.mp h
    obtain ⟨tp, -, h⟩ := Option.bind_eq_some_iff.mp h
    obtain ⟨ctxs, hctxs, h⟩ := Option.bind_eq_some_iff.mp h
    cases h
    refine ⟨hcalls, fun s hs' => ?_⟩
    obtain ⟨j, hj, ys, hy, hsy⟩ := mem_collect hctxs hs'
    refine PageScan.slot_ok ht ha hh hs hk hπ hd hle (List.mem_range.mp hj) rfl ?_ hfp hy s hsy
    rintro rfl
    exact hhp.border (by omega) hk hπ (hd ▸ hle) hl

end page
end SmartTree
