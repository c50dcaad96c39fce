import SmartTree.RadixCache.Cache
import SmartTree.Lib.RadixTree

/-! What `_search` collects: exactly the slots that stand for prefixes of the byte array, the
longest on top. -/
namespace SmartTree

/-- Where a comparison with a header ends: behind the header with a byte to spare, or at an
index where the array ends or differs. -/
theorem parseHeader_cases (bs : List UInt8) (d : ℕ) (hs : List UInt8) (i : ℕ)
    (hlt : d + i < bs.length) :
    (parseHeader bs d hs i = some none ∧ ∃ b, hs ++ [b] <+: bs.drop (d + i)) ∨
    ∃ l₁ h l₂ cur, hs = l₁ ++ h :: l₂ ∧ parseHeader bs d hs i = some (some (i + l₁.length, cur, h)) ∧
      l₁ ++ [cur] <+: bs.drop (d + i) ∧ (l₁ ++ [cur] = bs.drop (d + i) ∨ cur ≠ h) := by
  have hd : bs.drop (d + i) = bs[d + i] :: bs.drop (d + i + 1) := List.drop_eq_getElem_cons hlt
  induction hs generalizing i with
  | nil => exact .inl ⟨rfl, bs[d + i], _, hd.symm⟩
  | cons h hs ih =>
    rw [parseHeader, List.getElem?_eq_getElem hlt]
    by_cases hstop : d + i = bs.length - 1 ∨ bs[d + i] ≠ h
    · refine .inr ⟨[], h, hs, bs[d + i], rfl, by simp [hstop], ⟨_, hd.symm⟩, ?_⟩
      refine hstop.imp_left fun hlast => ?_
      rw [hd, List.drop_eq_nil_of_le (by omega)]
      rfl
    · obtain ⟨hlast, heq⟩ : d + i ≠ bs.length - 1 ∧ bs[d + i] = h := by simpa using hstop
      have hnext : d + (i + 1) < bs.length := by omega
      simp only [Option.bind_eq_bind, Option.bind_some, if_neg hstop]
      rw [hd, heq]
      obtain ⟨hp, b, hb⟩ | ⟨l₁, h', l₂, cur, rfl, hp, hc, he⟩ :=
        ih (i + 1) hnext (List.drop_eq_getElem_cons hnext)
      · exact .inl ⟨hp, b, by simpa [Nat.add_assoc] using hb⟩
      · refine .inr ⟨h :: l₁, h', l₂, cur, rfl, ?_, ?_, ?_⟩
        · rw [hp, List.length_cons, Nat.add_assoc, Nat.add_comm 1]
        · simpa [Nat.add_assoc] using hc
        · exact he.imp_left fun he => by simpa [Nat.add_assoc] using he

namespace Trie
open RadixTree

def view (t : Trie) : View ℕ UInt8 where
  root := 0
  alive i := i < t.size
  label i := (t.node i).header.partials
  next := t.nextAt

/-- The trie is a tree, its headers carry their depths, and the root has an empty header. -/
structure WF (t : Trie) (path : ℕ → List UInt8) : Prop where
  tree : Inv t.view path
  depth : ∀ i < t.size, (t.node i).header.depth = (path i).length
  root : (t.node 0).header.partials = []

def item (t : Trie) (path : ℕ → List UInt8) (s : SlotPtr) : SearchRet where
  entryPtrPtr := s
  entryPtr := t.entryAt s
  nextIdx := (full t.view path s.1 s.2).length

def HasSlot (t : Trie) (s : SlotPtr) : Prop := s.1 < t.size ∧ ((t.node s.1).records s.2).isSome

/-- The items are those of the slots below `id` on the way along the byte array. -/
structure Collects (t : Trie) (path : ℕ → List UInt8) (bs : List UInt8) (id : ℕ)
    (items : List SearchRet) : Prop where
  sound : ∀ it ∈ items, ∃ s, t.HasSlot s ∧ it = t.item path s ∧ full t.view path s.1 s.2 <+: bs ∧
    (path id).length < it.nextIdx
  sorted : items.Pairwise fun a b => b.nextIdx < a.nextIdx
  complete : ∀ s, t.HasSlot s → path id <+: path s.1 → full t.view path s.1 s.2 <+: bs →
    t.item path s ∈ items

section search
variable {t : Trie} {path : ℕ → List UInt8} {bs : List UInt8} {id : ℕ}

theorem WF.parse_cases (wf : t.WF path) (hid : id < t.size) (hp : path id <+: bs)
    (hlt : (path id).length < bs.length) :
    (parseHeader bs (t.node id).header.depth (t.node id).header.partials 0 = some none ∧
      ∃ b, full t.view path id b <+: bs) ∨
    ∃ l₁ h l₂ cur, (t.node id).header.partials = l₁ ++ h :: l₂ ∧
      parseHeader bs (t.node id).header.depth (t.node id).header.partials 0 =
        some (some (l₁.length, cur, h)) ∧
      path id ++ l₁ ++ [cur] <+: bs ∧ (path id ++ l₁ ++ [cur] = bs ∨ cur ≠ h) := by
  obtain ⟨w, rfl⟩ := hp
  have hd := wf.depth id hid
  obtain ⟨h, b, hb⟩ | ⟨l₁, h, l₂, cur, hl, h', hc, he⟩ :=
    parseHeader_cases (path id ++ w) (t.node id).header.depth (t.node id).header.partials 0
      (by omega)
  · rw [hd, Nat.add_zero, List.drop_left] at hb
    exact .inl ⟨h, b, by simpa [full, view] using hb⟩
  · rw [hd, Nat.add_zero, List.drop_left] at hc he
    exact .inr ⟨l₁, h, l₂, cur, hl, by simpa using h', by simpa using hc, by simpa using he⟩

theorem byte_of_full {b : UInt8} (h : full t.view path id b <+: bs) :
    bs[(path id).length + (t.node id).header.partials.length]? = some b := by
  obtain ⟨w, rfl⟩ := h
  simp [full, view]

theorem Collects.nil (h : ∀ s, t.HasSlot s → path id <+: path s.1 → ¬ full t.view path s.1 s.2 <+: bs) :
    Collects t path bs id [] where
  sound := by simp
  sorted := .nil
  complete s hs hp hf := absurd hf (h s hs hp)

/-- Everything below `id` on the way along the array passes the slot at its first byte. -/
theorem WF.through (wf : t.WF path) (hid : id < t.size) {s : SlotPtr} (hs : t.HasSlot s)
    (hp : path id <+: path s.1) (hf : full t.view path s.1 s.2 <+: bs) :
    s.1 = id ∨ ∃ b j, t.nextAt id b = some j ∧ path j <+: path s.1 ∧ full t.view path id b <+: bs := by
  by_cases he : path id = path s.1
  · exact .inl (wf.tree.eq_of_path_eq hid hs.1 he).symm
  · obtain ⟨b, j, hj, hpj⟩ := wf.tree.descends hid hs.1 hp he
    refine .inr ⟨b, j, hj, hpj, ?_⟩
    rw [← (wf.tree.link id b j hid hj).2]
    exact (hpj.trans path_prefix_full).trans hf

theorem searchLoop_collects (wf : t.WF path) (fuel : ℕ) (ret : List SearchRet) (hid : id < t.size)
    (hp : path id <+: bs) (hfuel : bs.length < fuel + (path id).length) :
    ∃ items, t.searchLoop bs fuel id (path id).length ret = some (items ++ ret) ∧
      Collects t path bs id items := by
  induction fuel generalizing id ret with
  | zero => exact absurd hp.length_le (by omega)
  | succ fuel ih =>
    rw [searchLoop]
    by_cases hend : bs.length ≤ (path id).length
    · refine ⟨[], by rw [if_pos hend]; rfl, .nil fun s _ hps hf => ?_⟩
      have hle := hf.length_le
      rw [length_full] at hle
      have := hps.length_le
      omega
    rw [if_neg hend]
    have hd := wf.depth id hid
    obtain ⟨hparse, b, hb⟩ | ⟨l₁, h, l₂, cur, hl, hparse, hc, he⟩ :=
      wf.parse_cases hid hp (by omega)
    · have hbyte := byte_of_full hb
      have hfull : ∀ {b'}, full t.view path id b' <+: bs → b' = b := fun hb' =>
        Option.some.inj ((byte_of_full hb').symm.trans hbyte)
      rw [hd] at hparse
      simp only [hd, hparse, hbyte, Option.bind_eq_bind, Option.bind_some]
      cases hrec : (t.node id).records b with
      | none =>
        refine ⟨[], rfl, .nil fun s hs hps hf => ?_⟩
        obtain hid' | ⟨b', j, hj, -, hb'⟩ := wf.through hid hs hps hf
        · rw [hid'] at hf
          simpa [hid', hfull hf, hrec] using hs.2
        · simp [nextAt, hfull hb', hrec] at hj
      | some v =>
        have hslot : t.HasSlot (id, b) := ⟨hid, by simp [hrec]⟩
        have hitem : (⟨(id, b), v.cacheEntry, (path id).length + (t.node id).header.partials.length + 1⟩ :
            SearchRet) = t.item path (id, b) := by
          simp only [item, entryAt, hrec, length_full, Option.bind_some]
          rfl
        have hlen : (t.item path (id, b)).nextIdx =
          (path id).length + (t.node id).header.partials.length + 1 := length_full
        simp only [hitem]
        cases hnext : v.next with
        | none =>
          refine ⟨[t.item path (id, b)], rfl, ?_, List.pairwise_singleton .., ?_⟩
          · intro it hit
            obtain rfl := List.mem_singleton.mp hit
            exact ⟨_, hslot, rfl, hb, by omega⟩
          · intro s hs hps hf
            obtain hid' | ⟨b', j, hj, -, hb'⟩ := wf.through hid hs hps hf
            · rw [hid'] at hf
              rw [show s = (id, b) from Prod.ext hid' (hfull hf)]
              exact List.mem_singleton_self _
            · simp [nextAt, hfull hb', hrec, hnext] at hj
        | some j =>
          have hj : t.nextAt id b = some j := by simp [nextAt, hrec, hnext]
          obtain ⟨hja, hjp⟩ := wf.tree.link id b j hid hj
          have hjl : (path j).length = (path id).length + (t.node id).header.partials.length + 1 := by
            rw [hjp, length_full]
            rfl
          obtain ⟨items, hit, hc⟩ := ih (t.item path (id, b) :: ret) hja (hjp ▸ hb) (by omega)
          refine ⟨items ++ [t.item path (id, b)], ?_, ?_, ?_, ?_⟩
          · simp only [← hjl, hit, List.append_assoc, List.singleton_append]
          · intro it hit
            obtain hit | hit := List.mem_append.mp hit
            · obtain ⟨s, hs, he, hf, hlt⟩ := hc.sound it hit
              exact ⟨s, hs, he, hf, by omega⟩
            · obtain rfl := List.mem_singleton.mp hit
              exact ⟨_, hslot, rfl, hb, by omega⟩
          · refine List.pairwise_append.mpr ⟨hc.sorted, List.pairwise_singleton .., ?_⟩
            intro it hit it' hit'
            obtain rfl := List.mem_singleton.mp hit'
            obtain ⟨-, -, -, -, hlt⟩ := hc.sound it hit
            omega
          · intro s hs hps hf
            obtain hid' | ⟨b', j', hj', hpj, hb'⟩ := wf.through hid hs hps hf
            · rw [hid'] at hf
              rw [show s = (id, b) from Prod.ext hid' (hfull hf)]
              simp
            · rw [hfull hb', hj] at hj'
              cases hj'
              exact List.mem_append_left _ (hc.complete s hs hpj hf)
    · -- the header does not lead along the array
      refine ⟨[], by simp [hparse], .nil fun s hs hps hf => ?_⟩
      have hno : ∀ b, ¬ full t.view path id b <+: bs := by
        intro b hb
        have hw : path id ++ l₁ ++ [h] <+: bs := by
          refine List.IsPrefix.trans ?_ hb
          simp [full, view, hl]
        have heq := (List.prefix_of_prefix_length_le hc hw (by simp)).eq_of_length (by simp)
        obtain he | he := he
        · have := hb.length_le
          simp only [length_full, ← he, view, hl, List.length_append, List.length_cons,
            List.length_nil] at this
          omega
        · exact he (by simpa using heq)
      obtain hid' | ⟨b', j, -, -, hb'⟩ := wf.through hid hs hps hf
      · rw [hid'] at hf
        exact hno _ hf
      · exact hno b' hb'

/-- `_search` collects the slots of all prefixes of the byte array. -/
theorem search_collects (wf : t.WF path) (bs : List UInt8) :
    ∃ items, t.search bs = some items ∧ Collects t path bs 0 items := by
  have hr : path 0 = [] := wf.tree.path_root
  have hp : path 0 <+: bs := hr ▸ List.nil_prefix
  have h0 : 0 < t.size := wf.tree.alive_root
  obtain ⟨items, hit, hc⟩ := searchLoop_collects wf (bs.length + 1) [] h0 hp (by omega)
  refine ⟨items, ?_, hc⟩
  rw [hr] at hit
  simpa [search] using hit

/-- Whatever the search of a key collects leads on to a byte of the key. -/
theorem Collects.nextIdx_lt {n : ℕ} {k : Key n} {items : List SearchRet} {it : SearchRet}
    (h : t.Collects path (k.pre (n - 1)) id items) (hmem : it ∈ items) : it.nextIdx < n := by
  obtain ⟨s, -, rfl, hf, hpos⟩ := h.sound it hmem
  have hle := hf.length_le
  simp only [Key.pre, List.length_take, Key.length_bytes] at hle
  simp only [Trie.item] at hpos ⊢
  omega

theorem slotOf_eq_some (wf : t.WF path) {s : SlotPtr} :
    t.slotOf bs = some s ↔ t.HasSlot s ∧ full t.view path s.1 s.2 = bs := by
  obtain ⟨items, hit, hc⟩ := search_collects wf bs
  simp only [slotOf, hit, Option.bind_eq_bind, Option.bind_some, Option.map_eq_some_iff]
  constructor
  · rintro ⟨it, hfind, rfl⟩
    obtain ⟨s, hs, rfl, hf, -⟩ := hc.sound it (List.mem_of_find?_eq_some hfind)
    have hlen := List.find?_some hfind
    exact ⟨hs, hf.eq_of_length (of_decide_eq_true hlen)⟩
  · rintro ⟨hs, rfl⟩
    have hmem := hc.complete s hs (by rw [show path 0 = [] from wf.tree.path_root]; exact List.nil_prefix)
      List.prefix_rfl
    obtain ⟨it, hfind⟩ : ∃ it, items.find? (·.nextIdx = (full t.view path s.1 s.2).length) = some it :=
      Option.isSome_iff_exists.mp (List.find?_isSome.mpr ⟨_, hmem, by simp [item]⟩)
    refine ⟨it, hfind, ?_⟩
    obtain ⟨s', hs', rfl, hf, -⟩ := hc.sound it (List.mem_of_find?_eq_some hfind)
    have hlen := List.find?_some hfind
    obtain ⟨h₁, h₂⟩ := wf.tree.full_inj hs'.1 hs.1 (hf.eq_of_length (of_decide_eq_true hlen))
    exact Prod.ext h₁ h₂

end search
end Trie
end SmartTree
