import SmartTree.LocalAllocatorApart

/-! Bytes nobody has written to. A block comes from memory that was never handed out, or from a
free list; if whoever gave blocks back wrote to their first bytes only, the rest of every block
that is handed out is still as it was in the beginning. -/
namespace SmartTree
open Transition Regions

/-- The bytes of a block from the `w`-th on. -/
def behind (w : ℕ) (a : GlobalAddress) (len : ℕ) : Set (BitVec 16 × ℕ) :=
  {x | x ∈ extent a len ∧ a.offset.toNat + w ≤ x.2}

theorem behind_subset {w : ℕ} {a : GlobalAddress} {len : ℕ} : behind w a len ⊆ extent a len :=
  fun _ hx => hx.1

theorem behind_mono {w : ℕ} {a : GlobalAddress} {k len : ℕ} (h : k ≤ len) :
    behind w a k ⊆ behind w a len := fun _ hx => ⟨extent_mono h hx.1, hx.2⟩

variable {Z Z' : Set (BitVec 16 × ℕ)} {w : ℕ} {size : BitVec 64}

namespace LocalAllocator
variable {gs : List GlobalAddress} {l : LocalAllocator}

/-- What an allocator may hand out is in `Z`, the first bytes of blocks it got back apart. -/
structure Clean (Z : Set (BitVec 16 × ℕ)) (w : ℕ) (l : LocalAllocator) : Prop where
  rest : l.rest ⊆ Z
  free : ∀ p ∈ l.freeList, behind w p.1 p.2.toNat ⊆ Z

theorem clean_new : new.Clean Z w := ⟨fun _ hx => absurd rfl hx.1, by simp [new]⟩

theorem Clean.mono (h : l.Clean Z w) (hz : ∀ r ∈ l.pieces, ∀ x ∈ r, x ∈ Z → x ∈ Z') :
    l.Clean Z' w where
  rest x hx := hz l.rest List.mem_cons_self x hx (h.rest hx)
  free p hp x hx := hz _ (List.mem_cons_of_mem _ (List.mem_map_of_mem hp)) x (behind_subset hx)
    (h.free p hp hx)

theorem Clean.malloc (hc : l.Clean Z w) (h : Ok gs l) (hg : ∀ c ∈ gs, ChunkOk c)
    (hsize : size.toNat ≤ kChunkSize) (hneed : (l.malloc size).2.1 = false) :
    (l.malloc size).2.2.Clean Z w ∧ behind w (l.malloc size).1 (up size.toNat) ⊆ Z := by
  have hm := malloc_mallocs l size
  generalize l.malloc size = r at hm hneed
  cases hm with
  | bump hn hfit =>
    have hcarve := h.carves hg hsize hn hfit
    exact ⟨⟨hcarve.left.trans hc.rest, hc.free⟩, behind_subset.trans (hcarve.block.trans hc.rest)⟩
  | @reuse p hp =>
    have hmem := List.mem_of_find?_eq_some hp
    have hle : size.toNat ≤ p.2.toNat := by
      have := List.find?_some hp
      simpa [BitVec.le_def] using this
    refine ⟨⟨?_, fun q hq => hc.free q (List.mem_of_mem_eraseP hq)⟩, ?_⟩
    · rw [rest_aligned h hg]
      exact hc.rest
    · exact (behind_mono (up_le hle (h.whole p hmem))).trans (hc.free p hmem)
  | need => cases hneed

theorem Clean.setChunck (hc : l.Clean Z w) {chunk : GlobalAddress} (hok : ChunkOk chunk)
    (hz : extent chunk kChunkSize ⊆ Z) : (l.setChunck chunk).Clean Z w :=
  ⟨rest_setChunck hok ▸ hz, hc.free⟩

theorem Clean.freed (hc : l.Clean Z w) {a : GlobalAddress} (hsize : size.toNat ≤ kChunkSize)
    (hz : behind w a (up size.toNat) ⊆ Z) : (l.free a (roundUp size allocAllignBit)).Clean Z w where
  rest := hc.rest
  free p hp := by
    obtain hp | hp := List.mem_append.mp hp
    · exact hc.free p hp
    · obtain rfl := List.mem_singleton.mp hp
      rwa [toNat_roundUp_of_le hsize]

end LocalAllocator

section thread
variable {nodeNum dirNum : ℕ} {d : ThreadAlloc nodeNum dirNum} {gs : List GlobalAddress}
  {live : List (GlobalAddress × BitVec 64)} {chunk : GlobalAddress}

def ThreadAlloc.Clean (Z : Set (BitVec 16 × ℕ)) (w : ℕ) (d : ThreadAlloc nodeNum dirNum) : Prop :=
  ∀ i, (d.localAllocators i).Clean Z w

theorem ThreadAlloc.Clean.set (h : d.Clean Z w) {i : Fin nodeNum × Fin dirNum} {l : LocalAllocator}
    (hl : l.Clean Z w) : (d.set i l).Clean Z w := by
  intro j
  by_cases hj : j = i
  · subst hj
    simpa [ThreadAlloc.set] using hl
  · simpa [ThreadAlloc.set, Function.update_of_ne hj] using h j

variable [NeZero nodeNum] [NeZero dirNum]

theorem ThreadAlloc.Clean.rotate (h : d.Clean Z w) : d.rotate.Clean Z w := by
  intro i
  rw [rotate_localAllocators]
  exact h i

theorem ThreadAlloc.Clean.alloc (hc : d.Clean Z w) (h : ThreadOk d gs live) (chunk : GlobalAddress)
    (hsize : size.toNat ≤ kChunkSize) (hneed : (d.tryAlloc size).2.1 = false) :
    (d.alloc size chunk).2.Clean Z w ∧ behind w (d.alloc size chunk).1 (up size.toNat) ⊆ Z := by
  obtain ⟨henough, he⟩ := ThreadAlloc.alloc_eq chunk hneed
  obtain ⟨h1, h2⟩ := (hc d.rotate.target).malloc (h.ok _) h.chunks hsize henough
  rw [he]
  exact ⟨hc.rotate.set h1, h2⟩

theorem ThreadAlloc.Clean.alloc_grant (hc : d.Clean Z w) (h : ThreadOk d gs live)
    (hsize : size.toNat ≤ kChunkSize) (hneed : (d.tryAlloc size).2.1 = true) (hok : ChunkOk chunk)
    (hz : extent chunk kChunkSize ⊆ Z) :
    (d.alloc size chunk).2.Clean Z w ∧ behind w (d.alloc size chunk).1 (up size.toNat) ⊆ Z := by
  have hg : ∀ c ∈ chunk :: gs, ChunkOk c := List.forall_mem_cons.mpr ⟨hok, h.chunks⟩
  have henough := LocalAllocator.setChunck_enough hok (h.ok d.rotate.target) hg hsize
  have hset := (hc d.rotate.target).setChunck hok hz
  obtain ⟨h1, h2⟩ := hset.malloc ((h.ok _).setChunck chunk) hg hsize henough
  rw [ThreadAlloc.alloc_grant_eq chunk hneed]
  exact ⟨(hc.rotate.set hset).set h1, h2⟩

end thread

namespace Blocks
variable {τ : Type*} {nodeNum dirNum : ℕ} {s u : Blocks τ nodeNum dirNum}

/-- What the threads may hand out, and what may be granted to them, is in `Z`. -/
structure Clean (Z : Set (BitVec 16 × ℕ)) (w : ℕ) (s : Blocks τ nodeNum dirNum) : Prop where
  thread : ∀ t, (s.thread t).Clean Z w
  chunk : ∀ c, ChunkOk c → (∀ t, c ∉ s.granted t) → extent c kChunkSize ⊆ Z

theorem Initial.clean (h : Initial s) (hz : ∀ x, x ∈ Z) : s.Clean Z w where
  thread t i := h.thread t i ▸ LocalAllocator.clean_new
  chunk _ _ _ x _ := hz x

theorem Inv.live_not_piece (h : Inv s) {t t' : τ} {b : GlobalAddress × BitVec 64} (hb : b ∈ s.live t)
    {i : Fin nodeNum × Fin dirNum} {r : Set (BitVec 16 × ℕ)}
    (hr : r ∈ ((s.thread t').localAllocators i).pieces) : Disjoint (footprint b) r := by
  refine Set.disjoint_left.mpr fun x hx hxr => ?_
  by_cases ht : t = t'
  · subst ht
    have h1 := cover_pos (List.mem_map_of_mem (f := footprint) hb) hx
    have h2 := cover_pos hr hxr
    have h3 := Finset.single_le_sum (f := fun j => cover ((s.thread t).localAllocators j).pieces x)
      (fun _ _ => Nat.zero_le _) (Finset.mem_univ i)
    have h4 := (h.thread t).once x
    omega
  · obtain ⟨c, hc, hs⟩ := (h.thread t).live_inside hb
    obtain ⟨c', hc', hxc⟩ := (h.thread t').piece_inside hr hxr
    have hne : c ≠ c' := by rintro rfl; exact h.chunks t t' ht c hc hc'
    have hdis := ((h.thread t).chunks c hc).disjoint ((h.thread t').chunks c' hc') hne
    exact Set.disjoint_left.mp hdis (hs hx) hxc

/-- Writes to live blocks, and outside all chunks, touch nothing that may be handed out. -/
theorem Clean.write (hc : s.Clean Z w) (h : Inv s)
    (hz : ∀ x ∈ Z, x ∈ Z' ∨ (∃ t, ∃ b ∈ s.live t, x ∈ footprint b) ∨
      ∀ c, ChunkOk c → x ∉ extent c kChunkSize) : s.Clean Z' w where
  thread t i := by
    refine (hc.thread t i).mono fun r hr x hx hxz => ?_
    obtain hxz | ⟨t', b, hb, hxb⟩ | hout := hz x hxz
    · exact hxz
    · exact absurd hx (Set.disjoint_left.mp (h.live_not_piece hb hr) hxb)
    · obtain ⟨c, hcg, hxc⟩ := (h.thread t).piece_inside hr hx
      exact absurd hxc (hout c ((h.thread t).chunks c hcg))
  chunk c hok hnew x hx := by
    obtain hxz | ⟨t, b, hb, hxb⟩ | hout := hz x (hc.chunk c hok hnew hx)
    · exact hxz
    · obtain ⟨c', hcg, hs⟩ := (h.thread t).live_inside hb
      have hne : c ≠ c' := by rintro rfl; exact hnew t hcg
      exact absurd (hs hxb) (Set.disjoint_left.mp (hok.disjoint ((h.thread t).chunks c' hcg) hne) hx)
    · exact absurd hx (hout c hok)

variable [DecidableEq τ]

theorem Clean.update (hc : s.Clean Z w) {t : τ} {d : ThreadAlloc nodeNum dirNum} (hd : d.Clean Z w)
    (hu : u.thread = Function.update s.thread t d) (hg : ∀ t c, c ∈ s.granted t → c ∈ u.granted t) :
    u.Clean Z w where
  thread t' := by
    rw [hu]
    by_cases ht : t' = t
    · subst ht
      simpa using hd
    · simpa [Function.update_of_ne ht] using hc.thread t'
  chunk c hok hnew := hc.chunk c hok fun t' hm => hnew t' (hg t' c hm)

variable [Fintype τ] [NeZero nodeNum] [NeZero dirNum]

theorem Clean.alloc (hc : s.Clean Z w) (h : Inv s) {t : τ} {chunk : GlobalAddress}
    (hg : s.BelowTop (.alloc t size chunk)) (hn : s.next (.alloc t size chunk) = some u) :
    u.Clean Z w ∧ behind w ((s.thread t).alloc size chunk).1 (up size.toNat) ⊆ Z := by
  simp only [Blocks.next] at hn
  split at hn
  · rename_i hok
    obtain ⟨-, hsize, hgrant⟩ := hok
    cases hn
    by_cases hneed : ((s.thread t).tryAlloc size).2.1 = true
    · obtain ⟨h1, h2, h3⟩ := hgrant hneed
      have hchunk : ChunkOk chunk := ⟨h1, h2, hg hneed⟩
      obtain ⟨hcl, hb⟩ := (hc.thread t).alloc_grant (h.thread t) hsize hneed hchunk
        (hc.chunk chunk hchunk h3)
      refine ⟨hc.update hcl rfl fun t' c hm => ?_, hb⟩
      simp only [hneed, if_true]
      by_cases ht : t' = t
      · subst ht
        simpa using .inr hm
      · simpa [Function.update_of_ne ht] using hm
    · obtain ⟨hcl, hb⟩ := (hc.thread t).alloc (h.thread t) chunk hsize (Bool.not_eq_true _ ▸ hneed)
      exact ⟨hc.update hcl rfl fun t' c hm => by simpa [hneed] using hm, hb⟩
  · cases hn

theorem Clean.free (hc : s.Clean Z w) (h : Inv s) {t : τ} {a : GlobalAddress}
    (hz : behind w a (up size.toNat) ⊆ Z) (hn : s.next (.free t a size) = some u) :
    u.Clean Z w := by
  simp only [Blocks.next] at hn
  split at hn
  · rename_i hb
    obtain ⟨d, hd, rfl⟩ := Option.map_eq_some_iff.mp hn
    refine hc.update ?_ rfl fun _ _ hm => hm
    unfold ThreadAlloc.free at hd
    split at hd
    · cases hd
      exact (hc.thread t).set (((hc.thread t) _).freed ((h.thread t).size _ hb) hz)
    · cases hd
  · cases hn

end Blocks
end SmartTree
