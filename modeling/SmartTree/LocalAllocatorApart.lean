import SmartTree.LocalAllocator

/-! Blocks of live allocations never overlap. Every byte of a granted chunk belongs to at most
one piece: a live block, a block on a free list, or the unused rest of a current chunk. -/
namespace SmartTree
open Transition Regions

def extent (a : GlobalAddress) (len : ℕ) : Set (BitVec 16 × ℕ) :=
  {x | x.1 = a.nodeID ∧ a.offset.toNat ≤ x.2 ∧ x.2 < a.offset.toNat + len}

def footprint (b : GlobalAddress × BitVec 64) : Set (BitVec 16 × ℕ) :=
  extent b.1 (roundUp b.2 allocAllignBit).toNat

theorem extent_mono {a : GlobalAddress} {k len : ℕ} (h : k ≤ len) : extent a k ⊆ extent a len :=
  fun _ hx => ⟨hx.1, hx.2.1, by have := hx.2.2; omega⟩

def up (x : ℕ) : ℕ := (x + 255) / 256 * 256

theorem up_spec (x : ℕ) : x ≤ up x ∧ up x % 256 = 0 ∧ up x < x + 256 := by
  unfold up
  omega

theorem up_le {x y : ℕ} (h : x ≤ y) (hy : y % 256 = 0) : up x ≤ y := by
  unfold up
  omega

theorem toNat_roundUp_of_le {size : BitVec 64} (h : size.toNat ≤ kChunkSize) :
    (roundUp size allocAllignBit).toNat = up size.toNat :=
  toNat_roundUp size (by have : kChunkSize + 255 < 2 ^ 64 := by decide
                         omega)

/-- A chunk of the granted ones: aligned, and not the last one of the 48-bit range. -/
structure ChunkOk (c : GlobalAddress) : Prop where
  ne_null : c ≠ .null
  aligned : c.offset.toNat % kChunkSize = 0
  room : c.offset.toNat + kChunkSize < 2 ^ 48

theorem ChunkOk.mod_256 {c : GlobalAddress} (h : ChunkOk c) : c.offset.toNat % 256 = 0 := by
  have := h.aligned
  unfold kChunkSize at this
  omega

theorem ChunkOk.disjoint {c d : GlobalAddress} (hc : ChunkOk c) (hd : ChunkOk d) (hne : c ≠ d) :
    Disjoint (extent c kChunkSize) (extent d kChunkSize) := by
  refine Set.disjoint_left.mpr fun x hx hy => hne ?_
  have hoff : c.offset.toNat = d.offset.toNat := by
    obtain ⟨-, h1, h2⟩ := hx
    obtain ⟨-, h3, h4⟩ := hy
    have h5 := hc.aligned
    have h6 := hd.aligned
    unfold kChunkSize at *
    omega
  cases c
  cases d
  congr 1
  · exact hx.1.symm.trans hy.1
  · exact BitVec.eq_of_toNat_eq hoff

namespace LocalAllocator

def rest (l : LocalAllocator) : Set (BitVec 16 × ℕ) :=
  {x | l.head ≠ .null ∧ x.1 = l.head.nodeID ∧ up l.cur.offset.toNat ≤ x.2 ∧
    x.2 < l.head.offset.toNat + kChunkSize}

def pieces (l : LocalAllocator) : List (Set (BitVec 16 × ℕ)) :=
  l.rest :: l.freeList.map fun p => extent p.1 p.2.toNat

structure Within (gs : List GlobalAddress) (a : GlobalAddress) (len : ℕ) : Prop where
  aligned : a.offset.toNat % 256 = 0
  inside : ∃ c ∈ gs, extent a len ⊆ extent c kChunkSize

structure Ok (gs : List GlobalAddress) (l : LocalAllocator) : Prop where
  granted : l.head ≠ .null → l.head ∈ gs
  node : l.head ≠ .null → l.cur.nodeID = l.head.nodeID
  lower : l.head ≠ .null → l.head.offset.toNat ≤ l.cur.offset.toNat
  upper : l.head ≠ .null → l.cur.offset.toNat ≤ l.head.offset.toNat + kChunkSize
  whole : ∀ p ∈ l.freeList, p.2.toNat % 256 = 0
  free : ∀ p ∈ l.freeList, Within gs p.1 p.2.toNat

variable {gs : List GlobalAddress} {l : LocalAllocator} {size : BitVec 64} {x : BitVec 16 × ℕ}

theorem Within.mono {a : GlobalAddress} {len k : ℕ} (h : Within gs a len) (hk : k ≤ len) :
    Within gs a k := by
  obtain ⟨c, hc, hs⟩ := h.inside
  exact ⟨h.aligned, c, hc, (extent_mono hk).trans hs⟩

def aligned (l : LocalAllocator) : GlobalAddress :=
  { l.cur with offset := (roundUp (l.cur.offset.setWidth 64) allocAllignBit).setWidth 48 }

theorem Ok.up_le_end (h : Ok gs l) (hg : ∀ c ∈ gs, ChunkOk c) (hn : l.head ≠ .null) :
    up l.cur.offset.toNat ≤ l.head.offset.toNat + kChunkSize :=
  up_le (h.upper hn) (by
    have := (hg _ (h.granted hn)).mod_256
    unfold kChunkSize
    omega)

theorem Ok.toNat_aligned (h : Ok gs l) (hg : ∀ c ∈ gs, ChunkOk c) (hn : l.head ≠ .null) :
    l.aligned.offset.toNat = up l.cur.offset.toNat := by
  have hend := h.up_le_end hg hn
  have hroom := (hg _ (h.granted hn)).room
  have hlt := l.cur.offset.isLt
  have hw : (l.cur.offset.setWidth 64).toNat = l.cur.offset.toNat := by
    rw [BitVec.toNat_setWidth]
    omega
  rw [aligned, BitVec.toNat_setWidth, toNat_roundUp _ (by omega), hw]
  exact Nat.mod_eq_of_lt (by unfold up at hend; omega)

theorem toNat_chunkEnd (l : LocalAllocator) : l.chunkEnd.toNat = l.head.offset.toNat + kChunkSize := by
  have hlt := l.head.offset.isLt
  have hk : kChunkSize < 2 ^ 48 := by decide
  rw [chunkEnd, BitVec.toNat_add, BitVec.toNat_setWidth, BitVec.toNat_ofNat]
  omega

theorem rest_aligned (h : Ok gs l) (hg : ∀ c ∈ gs, ChunkOk c) (fl : List (GlobalAddress × BitVec 64)) :
    rest { l with cur := l.aligned, freeList := fl } = l.rest := by
  by_cases hn : l.head = .null
  · simp [rest, hn]
  · have ha := h.toNat_aligned hg hn
    have hup : up (up l.cur.offset.toNat) = up l.cur.offset.toNat :=
      le_antisymm (up_le le_rfl (up_spec _).2.1) (up_spec _).1
    simp only [rest, ha, hup]

theorem Ok.aligned_cur (h : Ok gs l) (hg : ∀ c ∈ gs, ChunkOk c)
    {fl : List (GlobalAddress × BitVec 64)} (hfl : ∀ p ∈ fl, p ∈ l.freeList) :
    Ok gs { l with cur := l.aligned, freeList := fl } where
  granted := h.granted
  node := h.node
  lower hn := by
    have := (up_spec l.cur.offset.toNat).1
    have := h.lower hn
    dsimp only
    rw [h.toNat_aligned hg hn]
    omega
  upper hn := by
    dsimp only
    rw [h.toNat_aligned hg hn]
    exact h.up_le_end hg hn
  whole p hp := h.whole p (hfl p hp)
  free p hp := h.free p (hfl p hp)

inductive Mallocs (l : LocalAllocator) (size : BitVec 64) :
    GlobalAddress × Bool × LocalAllocator → Prop
  | bump (hn : l.head ≠ .null) (hfit : ¬ l.chunkEnd < l.aligned.offset.setWidth 64 + size) :
    Mallocs l size (l.aligned, false, { l with cur := l.aligned.addOffset size })
  | reuse {p} (hp : l.freeList.find? (fun p => decide (size ≤ p.2)) = some p) :
    Mallocs l size (p.1, false, { l with
      cur := l.aligned, freeList := l.freeList.eraseP fun p => decide (size ≤ p.2) })
  | need (hover : l.head = .null ∨ l.chunkEnd < l.aligned.offset.setWidth 64 + size) :
    Mallocs l size (l.aligned, true, { l with cur := l.aligned })

theorem malloc_mallocs (l : LocalAllocator) (size : BitVec 64) : Mallocs l size (l.malloc size) := by
  unfold malloc
  dsimp only
  split
  · rename_i hover
    split
    · exact .reuse ‹_›
    · exact .need hover
  · rename_i hfit
    obtain ⟨hn, hfit⟩ := not_or.mp hfit
    exact .bump hn hfit

/-- A served request: the block is within the chunks, and the pieces that are left and the block
take no more than the pieces before. -/
structure Served (gs : List GlobalAddress) (l l' : LocalAllocator) (a : GlobalAddress)
    (size : BitVec 64) : Prop where
  ok : Ok gs l'
  within : Within gs a (up size.toNat)
  carved : ∀ x, weight (extent a (up size.toNat)) x + cover l'.pieces x ≤ cover l.pieces x

/-- A block carved from the current chunk, and what is left behind it. -/
structure Carves (l : LocalAllocator) (size : BitVec 64) : Prop where
  cur : (l.aligned.addOffset size).offset.toNat = l.aligned.offset.toNat + size.toNat
  fits : l.aligned.offset.toNat + up size.toNat ≤ l.head.offset.toNat + kChunkSize
  block : extent l.aligned (up size.toNat) ⊆ l.rest
  left : rest { l with cur := l.aligned.addOffset size } ⊆ l.rest
  apart : Disjoint (extent l.aligned (up size.toNat)) (rest { l with cur := l.aligned.addOffset size })

theorem Ok.carves (h : Ok gs l) (hg : ∀ c ∈ gs, ChunkOk c) (hsize : size.toNat ≤ kChunkSize)
    (hn : l.head ≠ .null) (hfit : ¬ l.chunkEnd < l.aligned.offset.setWidth 64 + size) :
    Carves l size := by
  have ha := h.toNat_aligned hg hn
  have hc := hg _ (h.granted hn)
  have hroom := hc.room
  have hmod := hc.mod_256
  obtain ⟨-, hu2, -⟩ := up_spec l.cur.offset.toNat
  have hle : l.aligned.offset.toNat + size.toNat ≤ l.head.offset.toNat + kChunkSize := by
    have hlt := l.aligned.offset.isLt
    have hk : kChunkSize < 2 ^ 48 := by decide
    have := toNat_chunkEnd l
    rw [BitVec.lt_def, BitVec.toNat_add, BitVec.toNat_setWidth] at hfit
    omega
  have hcur : (l.aligned.addOffset size).offset.toNat = l.aligned.offset.toNat + size.toNat :=
    l.aligned.toNat_addOffset_of_lt size (by omega)
  -- the end of the chunk is aligned, so the rounded block still fits
  have hend : (l.head.offset.toNat + kChunkSize) % 256 = 0 := by
    unfold kChunkSize
    omega
  have hup : up (l.aligned.offset.toNat + size.toNat) = l.aligned.offset.toNat + up size.toNat := by
    rw [ha]
    unfold up at hu2 ⊢
    omega
  have hfoot : l.aligned.offset.toNat + up size.toNat ≤ l.head.offset.toNat + kChunkSize :=
    hup ▸ up_le hle hend
  refine ⟨hcur, hfoot, ?_, ?_, ?_⟩
  · rintro y ⟨h1, h2, h3⟩
    exact ⟨hn, h1.trans (h.node hn), by omega, by omega⟩
  · rintro y ⟨h1, h2, h3, h4⟩
    dsimp only at h3
    rw [hcur, hup] at h3
    exact ⟨h1, h2, by omega, h4⟩
  · refine Set.disjoint_left.mpr fun y hy hz => ?_
    have h1 := hy.2.2
    have h2 := hz.2.2.1
    dsimp only at h2
    rw [hcur, hup] at h2
    omega

theorem Ok.bump_served (h : Ok gs l) (hg : ∀ c ∈ gs, ChunkOk c) (hsize : size.toNat ≤ kChunkSize)
    (hn : l.head ≠ .null) (hfit : ¬ l.chunkEnd < l.aligned.offset.setWidth 64 + size) :
    Served gs l { l with cur := l.aligned.addOffset size } l.aligned size := by
  have hc := h.carves hg hsize hn hfit
  have ha := h.toNat_aligned hg hn
  have hlower := h.lower hn
  have hcur := hc.cur
  have hfits := hc.fits
  obtain ⟨hu1, hu2, -⟩ := up_spec l.cur.offset.toNat
  have hs := (up_spec size.toNat).1
  refine ⟨⟨h.granted, h.node, fun _ => ?_, fun _ => ?_, h.whole, h.free⟩, ⟨?_, l.head, h.granted hn, ?_⟩,
    fun x => ?_⟩
  · dsimp only
    omega
  · dsimp only
    omega
  · omega
  · rintro y ⟨h1, h2, h3⟩
    exact ⟨h1.trans (h.node hn), by omega, by omega⟩
  · have := weight_add_le (x := x) hc.block hc.left hc.apart
    simp only [pieces, cover_cons]
    omega

theorem Ok.reuse_served (h : Ok gs l) (hg : ∀ c ∈ gs, ChunkOk c) {p : GlobalAddress × BitVec 64}
    (hp : l.freeList.find? (fun p => decide (size ≤ p.2)) = some p) :
    Served gs l { l with
      cur := l.aligned, freeList := l.freeList.eraseP fun p => decide (size ≤ p.2) } p.1 size := by
  have hmem := List.mem_of_find?_eq_some hp
  have hsize : size.toNat ≤ p.2.toNat := by
    have := List.find?_some hp
    simpa [BitVec.le_def] using this
  have hle : up size.toNat ≤ p.2.toNat := up_le hsize (h.whole p hmem)
  refine ⟨h.aligned_cur hg fun q hq => List.mem_of_mem_eraseP hq, (h.free p hmem).mono hle, fun x => ?_⟩
  obtain ⟨hq, l₁, l₂, hl, hbefore⟩ := List.find?_eq_some_iff_append.mp hp
  have herase : l.freeList.eraseP (fun p => decide (size ≤ p.2)) = l₁ ++ l₂ := by
    rw [hl, List.eraseP_append_right _ (fun b hb => by simpa using hbefore b hb), List.eraseP_cons,
      hq, cond_true]
  have hw := weight_mono (x := x) (extent_mono (a := p.1) hle)
  rw [pieces, rest_aligned h hg, pieces, herase, hl]
  simp only [cover_cons, List.map_append, List.map_cons, cover_append]
  omega

theorem Ok.malloc_served (h : Ok gs l) (hg : ∀ c ∈ gs, ChunkOk c) (hsize : size.toNat ≤ kChunkSize)
    (hneed : (l.malloc size).2.1 = false) :
    Served gs l (l.malloc size).2.2 (l.malloc size).1 size := by
  have hm := malloc_mallocs l size
  generalize l.malloc size = r at hm hneed
  cases hm with
  | bump hn hfit => exact h.bump_served hg hsize hn hfit
  | reuse hp => exact h.reuse_served hg hp
  | need => cases hneed

theorem Ok.setChunck (h : Ok gs l) (chunk : GlobalAddress) : Ok (chunk :: gs) (l.setChunck chunk) where
  granted _ := List.mem_cons_self
  node _ := rfl
  lower _ := le_rfl
  upper _ := Nat.le_add_right _ _
  whole := h.whole
  free p hp := by
    obtain ⟨h1, c, hc, h2⟩ := h.free p hp
    exact ⟨h1, c, List.mem_cons_of_mem _ hc, h2⟩

theorem rest_setChunck {chunk : GlobalAddress} (hc : ChunkOk chunk) :
    (l.setChunck chunk).rest = extent chunk kChunkSize := by
  have hup : up chunk.offset.toNat = chunk.offset.toNat :=
    le_antisymm (up_le le_rfl hc.mod_256) (up_spec _).1
  simp [rest, LocalAllocator.setChunck, extent, hc.ne_null, hup]

theorem cover_setChunck {chunk : GlobalAddress} (hc : ChunkOk chunk) :
    cover (l.setChunck chunk).pieces x ≤ cover l.pieces x + weight (extent chunk kChunkSize) x := by
  simp only [pieces, cover_cons, rest_setChunck hc]
  simp only [LocalAllocator.setChunck]
  omega

theorem setChunck_enough {chunk : GlobalAddress} (hc : ChunkOk chunk) (h : Ok gs l)
    (hg : ∀ c ∈ chunk :: gs, ChunkOk c) (hsize : size.toNat ≤ kChunkSize) :
    ((l.setChunck chunk).malloc size).2.1 = false := by
  have hm := malloc_mallocs (l.setChunck chunk) size
  generalize (l.setChunck chunk).malloc size = r at hm
  cases hm with
  | bump | reuse => rfl
  | need hover =>
    exfalso
    have ha := (h.setChunck chunk).toNat_aligned hg hc.ne_null
    have hend := toNat_chunkEnd (l.setChunck chunk)
    have hroom := hc.room
    have hup : up chunk.offset.toNat = chunk.offset.toNat :=
      le_antisymm (up_le le_rfl hc.mod_256) (up_spec _).1
    rcases hover with hover | hover
    · exact hc.ne_null hover
    · rw [BitVec.lt_def, hend, BitVec.toNat_add, BitVec.toNat_setWidth, ha] at hover
      simp only [LocalAllocator.setChunck, hup] at hover
      omega

theorem Ok.freed (h : Ok gs l) {a : GlobalAddress} (hw : Within gs a (up size.toNat))
    (hsize : size.toNat ≤ kChunkSize) : Ok gs (l.free a (roundUp size allocAllignBit)) where
  granted := h.granted
  node := h.node
  lower := h.lower
  upper := h.upper
  whole p hp := by
    rcases List.mem_append.mp hp with hp | hp
    · exact h.whole p hp
    · obtain rfl := List.mem_singleton.mp hp
      rw [toNat_roundUp_of_le hsize]
      exact (up_spec _).2.1
  free p hp := by
    rcases List.mem_append.mp hp with hp | hp
    · exact h.free p hp
    · obtain rfl := List.mem_singleton.mp hp
      rwa [toNat_roundUp_of_le hsize]

theorem cover_free (a : GlobalAddress) :
    cover (l.free a (roundUp size allocAllignBit)).pieces x =
      weight (footprint (a, size)) x + cover l.pieces x := by
  simp only [pieces, LocalAllocator.free, cover_cons, List.map_append, cover_append, List.map_cons,
    List.map_nil, cover_nil, footprint, rest]
  omega

end LocalAllocator

section thread
variable {nodeNum dirNum : ℕ}

structure ThreadOk (d : ThreadAlloc nodeNum dirNum) (gs : List GlobalAddress)
    (live : List (GlobalAddress × BitVec 64)) : Prop where
  chunks : ∀ c ∈ gs, ChunkOk c
  ok : ∀ i, (d.localAllocators i).Ok gs
  size : ∀ b ∈ live, b.2.toNat ≤ kChunkSize
  within : ∀ b ∈ live, LocalAllocator.Within gs b.1 (up b.2.toNat)
  once : ∀ x, cover (live.map footprint) x + ∑ i, cover (d.localAllocators i).pieces x ≤ 1

variable {d : ThreadAlloc nodeNum dirNum} {gs : List GlobalAddress}
  {live : List (GlobalAddress × BitVec 64)} {size : BitVec 64} {chunk : GlobalAddress}

theorem sum_set (i : Fin nodeNum × Fin dirNum) (l : LocalAllocator) (x : BitVec 16 × ℕ) :
    ∑ j, cover ((d.set i l).localAllocators j).pieces x + cover (d.localAllocators i).pieces x =
      ∑ j, cover (d.localAllocators j).pieces x + cover l.pieces x := by
  rw [← Finset.add_sum_erase _ _ (Finset.mem_univ i), ← Finset.add_sum_erase _ (fun j =>
    cover (d.localAllocators j).pieces x) (Finset.mem_univ i)]
  have hrest : ∑ j ∈ Finset.univ.erase i, cover ((d.set i l).localAllocators j).pieces x =
      ∑ j ∈ Finset.univ.erase i, cover (d.localAllocators j).pieces x := by
    refine Finset.sum_congr rfl fun j hj => ?_
    simp [ThreadAlloc.set, Function.update_of_ne (Finset.ne_of_mem_erase hj)]
  rw [hrest]
  simp [ThreadAlloc.set]
  omega

theorem ThreadOk.piece_inside (h : ThreadOk d gs live) {i : Fin nodeNum × Fin dirNum}
    {r : Set (BitVec 16 × ℕ)} (hr : r ∈ (d.localAllocators i).pieces) {x : BitVec 16 × ℕ}
    (hx : x ∈ r) : ∃ c ∈ gs, x ∈ extent c kChunkSize := by
  obtain rfl | hr := List.mem_cons.mp hr
  · obtain ⟨hn, h1, h2, h3⟩ := hx
    have := (h.ok i).lower hn
    have := (up_spec (d.localAllocators i).cur.offset.toNat).1
    exact ⟨_, (h.ok i).granted hn, h1, by omega, h3⟩
  · obtain ⟨p, hp, rfl⟩ := List.mem_map.mp hr
    obtain ⟨-, c, hcg, hs⟩ := (h.ok i).free p hp
    exact ⟨c, hcg, hs hx⟩

theorem ThreadOk.live_inside (h : ThreadOk d gs live) {b : GlobalAddress × BitVec 64} (hb : b ∈ live) :
    ∃ c ∈ gs, footprint b ⊆ extent c kChunkSize := by
  obtain ⟨-, c, hc, hs⟩ := h.within b hb
  exact ⟨c, hc, by rwa [footprint, toNat_roundUp_of_le (h.size b hb)]⟩

theorem ThreadOk.uncovered (h : ThreadOk d gs live) (hc : ChunkOk chunk) (hnew : chunk ∉ gs)
    {x : BitVec 16 × ℕ} (hx : x ∈ extent chunk kChunkSize) :
    cover (live.map footprint) x + ∑ i, cover (d.localAllocators i).pieces x = 0 := by
  have hout : ∀ c ∈ gs, x ∉ extent c kChunkSize := by
    intro c hcg
    have hne : chunk ≠ c := by rintro rfl; exact hnew hcg
    exact Set.disjoint_left.mp (hc.disjoint (h.chunks c hcg) hne) hx
  have hlive : cover (live.map footprint) x = 0 := by
    refine cover_eq_zero.mpr fun r hr hxr => ?_
    obtain ⟨b, hb, rfl⟩ := List.mem_map.mp hr
    obtain ⟨c, hcg, hs⟩ := h.live_inside hb
    exact hout c hcg (hs hxr)
  have hpieces : ∀ i, cover (d.localAllocators i).pieces x = 0 := by
    intro i
    refine cover_eq_zero.mpr fun r hr hxr => ?_
    obtain ⟨c, hcg, hxc⟩ := h.piece_inside hr hxr
    exact hout c hcg hxc
  simp [hlive, hpieces]

theorem ThreadOk.congr {e : ThreadAlloc nodeNum dirNum} (h : ThreadOk d gs live)
    (he : e.localAllocators = d.localAllocators) : ThreadOk e gs live :=
  ⟨h.chunks, he ▸ h.ok, h.size, h.within, he ▸ h.once⟩

theorem set_ok {i : Fin nodeNum × Fin dirNum} {l : LocalAllocator}
    (h : ∀ j, (d.localAllocators j).Ok gs) (hl : l.Ok gs) (j : Fin nodeNum × Fin dirNum) :
    ((d.set i l).localAllocators j).Ok gs := by
  by_cases hj : j = i
  · subst hj; simpa [ThreadAlloc.set] using hl
  · simpa [ThreadAlloc.set, Function.update_of_ne hj] using h j

theorem ThreadOk.serve (h : ThreadOk d gs live) {i : Fin nodeNum × Fin dirNum} {l : LocalAllocator}
    {a : GlobalAddress} (hs : LocalAllocator.Served gs (d.localAllocators i) l a size)
    (hsize : size.toNat ≤ kChunkSize) : ThreadOk (d.set i l) gs ((a, size) :: live) where
  chunks := h.chunks
  ok := set_ok h.ok hs.ok
  size b hb := by
    rcases List.mem_cons.mp hb with rfl | hb
    · exact hsize
    · exact h.size b hb
  within b hb := by
    rcases List.mem_cons.mp hb with rfl | hb
    · exact hs.within
    · exact h.within b hb
  once x := by
    have h1 := h.once x
    have h2 := hs.carved x
    have h3 := sum_set (d := d) i l x
    have h4 : weight (footprint (a, size)) x = weight (extent a (up size.toNat)) x := by
      rw [footprint, toNat_roundUp_of_le hsize]
    simp only [List.map_cons, cover_cons]
    omega

theorem ThreadOk.grant (h : ThreadOk d gs live) (hc : ChunkOk chunk) (hnew : chunk ∉ gs)
    (i : Fin nodeNum × Fin dirNum) :
    ThreadOk (d.set i ((d.localAllocators i).setChunck chunk)) (chunk :: gs) live where
  chunks c hm := by
    rcases List.mem_cons.mp hm with rfl | hm
    · exact hc
    · exact h.chunks c hm
  ok := by
    refine set_ok (fun j => ?_) ((h.ok i).setChunck chunk)
    obtain ⟨h1, h2, h3, h4, h5, h6⟩ := h.ok j
    exact ⟨fun hn => List.mem_cons_of_mem _ (h1 hn), h2, h3, h4, h5,
      fun p hp => ⟨(h6 p hp).aligned, (h6 p hp).inside.imp fun c hcg => ⟨List.mem_cons_of_mem _ hcg.1, hcg.2⟩⟩⟩
  size := h.size
  within b hb := by
    obtain ⟨h1, c, hcg, h2⟩ := h.within b hb
    exact ⟨h1, c, List.mem_cons_of_mem _ hcg, h2⟩
  once x := by
    have h1 := h.once x
    have h2 := LocalAllocator.cover_setChunck (l := d.localAllocators i) (x := x) hc
    have h3 := sum_set (d := d) i ((d.localAllocators i).setChunck chunk) x
    by_cases hx : x ∈ extent chunk kChunkSize
    · have h4 := h.uncovered hc hnew hx
      rw [weight_of_mem hx] at h2
      omega
    · rw [weight_of_not_mem hx] at h2
      omega

variable [NeZero nodeNum] [NeZero dirNum]

theorem rotate_localAllocators : d.rotate.localAllocators = d.localAllocators := by
  unfold ThreadAlloc.rotate
  split <;> rfl

def ThreadAlloc.turn (d : ThreadAlloc nodeNum dirNum) : LocalAllocator :=
  d.localAllocators d.rotate.target

theorem ThreadAlloc.alloc_eq (chunk : GlobalAddress) (hneed : (d.tryAlloc size).2.1 = false) :
    (d.turn.malloc size).2.1 = false ∧ d.alloc size chunk =
      ((d.turn.malloc size).1, d.rotate.set d.rotate.target (d.turn.malloc size).2.2) := by
  have ht : d.rotate.localAllocators d.rotate.target = d.turn := by rw [rotate_localAllocators]; rfl
  simp only [alloc, hneed, Bool.false_eq_true, if_false]
  simpa only [tryAlloc, ht, and_true] using hneed

theorem ThreadAlloc.alloc_grant_eq (chunk : GlobalAddress) (hneed : (d.tryAlloc size).2.1 = true) :
    d.alloc size chunk = (((d.turn.setChunck chunk).malloc size).1,
      (d.rotate.set d.rotate.target (d.turn.setChunck chunk)).set d.rotate.target
        ((d.turn.setChunck chunk).malloc size).2.2) := by
  have ht : d.rotate.localAllocators d.rotate.target = d.turn := by rw [rotate_localAllocators]; rfl
  have hm := LocalAllocator.malloc_mallocs d.turn size
  simp only [alloc, hneed, if_true]
  simp only [tryAlloc, ht] at hneed ⊢
  generalize d.turn.malloc size = r at hm hneed
  cases hm with
  | bump | reuse => cases hneed
  | need => simp [ThreadAlloc.set, ThreadAlloc.target, LocalAllocator.setChunck]

theorem ThreadOk.alloc (h : ThreadOk d gs live) (chunk : GlobalAddress)
    (hsize : size.toNat ≤ kChunkSize) (hneed : (d.tryAlloc size).2.1 = false) :
    ThreadOk (d.alloc size chunk).2 gs (((d.alloc size chunk).1, size) :: live) := by
  have hr : ThreadOk d.rotate gs live := h.congr rotate_localAllocators
  obtain ⟨henough, he⟩ := ThreadAlloc.alloc_eq chunk hneed
  rw [he]
  refine hr.serve ?_ hsize
  rw [rotate_localAllocators]
  exact (h.ok _).malloc_served h.chunks hsize henough

theorem ThreadOk.alloc_grant (h : ThreadOk d gs live) (hsize : size.toNat ≤ kChunkSize)
    (hneed : (d.tryAlloc size).2.1 = true) (hc : ChunkOk chunk) (hnew : chunk ∉ gs) :
    ThreadOk (d.alloc size chunk).2 (chunk :: gs) (((d.alloc size chunk).1, size) :: live) := by
  have hr : ThreadOk d.rotate gs live := h.congr rotate_localAllocators
  have hd := hr.grant hc hnew d.rotate.target
  rw [rotate_localAllocators] at hd
  rw [ThreadAlloc.alloc_grant_eq chunk hneed]
  refine hd.serve ?_ hsize
  have henough := LocalAllocator.setChunck_enough hc (h.ok d.rotate.target) hd.chunks hsize
  have := ((h.ok d.rotate.target).setChunck chunk).malloc_served hd.chunks hsize henough
  simpa [ThreadAlloc.set, ThreadAlloc.turn] using this

omit [NeZero nodeNum] in
theorem ThreadOk.free (h : ThreadOk d gs live) {a : GlobalAddress} {e : ThreadAlloc nodeNum dirNum}
    (hb : (a, size) ∈ live) (he : d.free a (roundUp size allocAllignBit) = some e) :
    ThreadOk e gs (live.erase (a, size)) := by
  unfold ThreadAlloc.free at he
  split at he
  · cases he
    refine ⟨h.chunks, set_ok h.ok ((h.ok _).freed (h.within _ hb) (h.size _ hb)),
      fun b hm => h.size b (List.mem_of_mem_erase hm), fun b hm => h.within b (List.mem_of_mem_erase hm),
      fun x => ?_⟩
    have h1 := h.once x
    have h2 := cover_perm (x := x) ((List.perm_cons_erase hb).map footprint)
    have h3 := sum_set (d := d) (⟨a.nodeID.toNat, ‹_›⟩, 0)
      ((d.localAllocators (⟨a.nodeID.toNat, ‹_›⟩, 0)).free a (roundUp size allocAllignBit)) x
    rw [LocalAllocator.cover_free] at h3
    rw [List.map_cons, cover_cons] at h2
    omega
  · cases he

end thread

namespace Blocks
variable {τ : Type*} {nodeNum dirNum : ℕ}

/-- Live blocks are apart, aligned and inside a chunk of their thread. -/
structure Apart (s : Blocks τ nodeNum dirNum) : Prop where
  own : ∀ t, (s.live t).Pairwise fun b c => Disjoint (footprint b) (footprint c)
  other : ∀ t u, t ≠ u → ∀ b ∈ s.live t, ∀ c ∈ s.live u, Disjoint (footprint b) (footprint c)
  aligned : ∀ t, ∀ b ∈ s.live t, b.1.offset.toNat % 256 = 0
  inside : ∀ t, ∀ b ∈ s.live t, ∃ c ∈ s.granted t, footprint b ⊆ extent c kChunkSize

structure Inv (s : Blocks τ nodeNum dirNum) : Prop where
  thread : ∀ t, ThreadOk (s.thread t) (s.granted t) (s.live t)
  chunks : ∀ t u, t ≠ u → ∀ c ∈ s.granted t, c ∉ s.granted u

theorem Inv.apart {s : Blocks τ nodeNum dirNum} (h : Inv s) : Apart s where
  own t := by
    refine List.pairwise_map.mp (pairwise_disjoint fun x => ?_)
    have := (h.thread t).once x
    omega
  other t u hne b hb c hc := by
    obtain ⟨x, hx, hbx⟩ := (h.thread t).live_inside hb
    obtain ⟨y, hy, hcy⟩ := (h.thread u).live_inside hc
    have hxy : x ≠ y := by rintro rfl; exact h.chunks t u hne x hx hy
    exact (((h.thread t).chunks x hx).disjoint ((h.thread u).chunks y hy) hxy).mono hbx hcy
  aligned t b hb := ((h.thread t).within b hb).aligned
  inside t _ := (h.thread t).live_inside

theorem Initial.inv {s : Blocks τ nodeNum dirNum} (h : Initial s) : Inv s where
  thread t := by
    rw [h.granted, h.live]
    refine ⟨by simp, fun i => ?_, by simp, by simp, fun x => ?_⟩
    · rw [h.thread]
      exact ⟨fun hn => absurd rfl hn, fun hn => absurd rfl hn, fun hn => absurd rfl hn,
        fun hn => absurd rfl hn, by simp [LocalAllocator.new], by simp [LocalAllocator.new]⟩
    · have hrest : LocalAllocator.new.rest = ∅ := by simp [LocalAllocator.rest, LocalAllocator.new]
      have hfree : LocalAllocator.new.freeList = [] := rfl
      simp [h.thread, LocalAllocator.pieces, hrest, hfree]
  chunks t _ _ c hc := by simp [h.granted] at hc

variable [DecidableEq τ]

theorem Inv.update {s : Blocks τ nodeNum dirNum} (h : Inv s) {t : τ}
    {d : ThreadAlloc nodeNum dirNum} {gs : List GlobalAddress}
    {live : List (GlobalAddress × BitVec 64)} (ht : ThreadOk d gs live)
    (hgs : ∀ c ∈ gs, c ∈ s.granted t ∨ ∀ u, c ∉ s.granted u) :
    Inv ⟨Function.update s.thread t d, Function.update s.granted t gs,
      Function.update s.live t live⟩ where
  thread u := by
    by_cases hu : u = t
    · subst hu; simpa using ht
    · simpa [Function.update_of_ne hu] using h.thread u
  chunks u v huv c hc := by
    by_cases hu : u = t
    · subst hu
      simp only [Function.update_self, Function.update_of_ne (Ne.symm huv)] at hc ⊢
      rcases hgs c hc with hc | hc
      · exact h.chunks u v huv c hc
      · exact hc v
    · simp only [Function.update_of_ne hu] at hc
      by_cases hv : v = t
      · subst hv
        simp only [Function.update_self]
        intro hcv
        rcases hgs c hcv with hcv | hcv
        · exact h.chunks u v huv c hc hcv
        · exact hcv u hc
      · simpa [Function.update_of_ne hv] using h.chunks u v huv c hc

variable [Fintype τ] [NeZero nodeNum] [NeZero dirNum]

/-- No chunk that is granted ends where the 48-bit offsets end. -/
def BelowTop (s : Blocks τ nodeNum dirNum) : BlockCall τ → Prop
  | .alloc t size chunk => ((s.thread t).tryAlloc size).2.1 = true →
      chunk.offset.toNat + kChunkSize < 2 ^ 48
  | .free _ _ _ => True

instance (s : Blocks τ nodeNum dirNum) (c : BlockCall τ) : Decidable (s.BelowTop c) :=
  match c with
  | .alloc _ _ _ => inferInstanceAs (Decidable (_ → _))
  | .free _ _ _ => isTrue trivial

theorem Inv.next {s u : Blocks τ nodeNum dirNum} (h : Inv s) {c : BlockCall τ} (hg : s.BelowTop c)
    (hn : s.next c = some u) : Inv u := by
  cases c with
  | alloc t size chunk =>
    simp only [Blocks.next] at hn
    split at hn
    · rename_i hok
      obtain ⟨-, hsize, hgrant⟩ := hok
      cases hn
      by_cases hneed : ((s.thread t).tryAlloc size).2.1 = true
      · obtain ⟨h1, h2, h3⟩ := hgrant hneed
        have hth := (h.thread t).alloc_grant hsize hneed ⟨h1, h2, hg hneed⟩ (h3 t)
        simp only [hneed, if_true]
        refine h.update hth fun c hc => ?_
        rcases List.mem_cons.mp hc with rfl | hc
        · exact .inr h3
        · exact .inl hc
      · have hth := (h.thread t).alloc chunk hsize (Bool.not_eq_true _ ▸ hneed)
        have := h.update hth fun c hc => .inl hc
        simpa only [hneed, Bool.false_eq_true, if_false, Function.update_eq_self] using this
    · cases hn
  | free t addr size =>
    simp only [Blocks.next] at hn
    split at hn
    · obtain ⟨d, hd, rfl⟩ := Option.map_eq_some_iff.mp hn
      have := h.update ((h.thread t).free ‹_› hd) fun c hc => .inl hc
      simpa only [Function.update_eq_self] using this
    · cases hn

/-- In every run in which no granted chunk reaches the end of the 48-bit range, live blocks
stay apart. -/
theorem apart_of_belowTop {s : Blocks τ nodeNum dirNum}
    (h : (system τ nodeNum dirNum).Reach BelowTop s) : Apart s :=
  Inv.apart <| h.invariant (P := Inv) (fun _ hi => Initial.inv hi) fun _ _ _ _ ih hg hn => ih.next hg hn

open scoped Transition.Numbered

def twoThreads : Blocks (Fin 2) 1 1 := ⟨fun _ => ⟨0, 0, fun _ => .new⟩, fun _ => [], fun _ => []⟩

theorem twoThreads_initial : Initial twoThreads := ⟨fun _ _ => rfl, fun _ => rfl, fun _ => rfl⟩

/-- A block is freed with its rounded size and reused for a smaller one once the chunk is full. -/
def reuseRun : List (BlockCall (Fin 2)) :=
  [.alloc 0 300 ⟨0, BitVec.ofNat 48 kChunkSize⟩, .alloc 1 100 ⟨0, BitVec.ofNat 48 (2 * kChunkSize)⟩,
    .free 0 ⟨0, BitVec.ofNat 48 kChunkSize⟩ 300, .alloc 0 (BitVec.ofNat 64 (kChunkSize - 512)) .null,
    .alloc 0 10 .null]

theorem apart_after_reuse : (system (Fin 2) 1 1).Ends twoThreads reuseRun fun s =>
    (s.live 0).length = 2 ∧ s.Apart := by
  obtain ⟨s, hs, hl⟩ : (system (Fin 2) 1 1).Ends twoThreads reuseRun
      fun s => (s.live 0).length = 2 := by decide +kernel
  have hm : (system (Fin 2) 1 1).Meets BelowTop twoThreads reuseRun := by decide +kernel
  exact ⟨s, hs, hl, apart_of_belowTop (.run (.init twoThreads_initial) hm hs)⟩

def topChunk : GlobalAddress := ⟨0, BitVec.ofNat 48 (2 ^ 48 - kChunkSize)⟩

/-- A block that fills the last chunk wraps the position around to zero, and the next block is
handed out at offset zero. -/
theorem block_outside_chunk : (system (Fin 2) 1 1).Ends twoThreads
    [.alloc 0 (BitVec.ofNat 64 kChunkSize) topChunk, .alloc 0 256 topChunk] fun s => ¬ s.Apart := by
  obtain ⟨s, hs, hb, hg⟩ : (system (Fin 2) 1 1).Ends twoThreads
      [.alloc 0 (BitVec.ofNat 64 kChunkSize) topChunk, .alloc 0 256 topChunk]
      fun s => (⟨0, 0⟩, 256) ∈ s.live 0 ∧ s.granted 0 = [topChunk] := by decide +kernel
  refine ⟨s, hs, fun h => ?_⟩
  obtain ⟨c, hc, hsub⟩ := h.inside 0 _ hb
  rw [hg, List.mem_singleton] at hc
  have hx : ((0, 0) : BitVec 16 × ℕ) ∈ footprint (⟨0, 0⟩, 256) := ⟨rfl, by decide, by decide +kernel⟩
  have hlow := (hsub hx).2.1
  rw [hc] at hlow
  exact absurd hlow (by decide +kernel)

end Blocks
end SmartTree
