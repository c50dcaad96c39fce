import SmartTree.Tree.Mapped

/-! The reads of a lone client answer as the map does: a search that ends has found the leaf of
its key, or there is none. -/
namespace SmartTree
open Transition MapMachine
variable {n : ℕ} {L : Layout} {m : Mem n} {c c' : Client n} {x : MapState (Key n) Value}
  {crc : Key n → Value → UInt64}

theorem Alone.holds_node (h : Alone crc L m c) (ht : TreeInv L m) (hk : c.Knows L m)
    (hpc : c.pc = .nodeRead) (hv : c.page.isValid c.pPtr c.depth c.fromCache = true) :
    c.Holds m := by
  have hs := h.sees
  simp only [Client.Sees, hpc] at hs
  simp only [Client.Knows, hpc] at hk
  obtain ⟨-, b, a, π, hp, ha, -⟩ := hk
  obtain ⟨hst, hq, hseen⟩ := hs
  have hx := (h.exact (by simp [hpc, Pc.owes]) hq).linked
  have htar : c.target = a := by simp [Client.target, hp]
  have hhdr := hseen.hdr
  have hrev := hseen.rev
  rw [htar] at hhdr hrev
  refine ⟨hq, ?_⟩
  cases hf : c.fromCache with
  | true =>
    simp only [hf, Page.isValid, Bool.not_true, Bool.false_or, Bool.and_eq_true,
      decide_eq_true_eq] at hv
    exact hst.load_node ht hx (hhdr ▸ hp) ha (hrev ▸ hv.2.symm)
  | false => exact (hst.current hf).2

namespace Client

/-- A page read in full shows the slot that goes on along a stored key. -/
theorem PageSeen.seesWay (h : c.PageSeen m []) (ht : TreeInv L m) (hx : Exact crc L m)
    (hk : Planted L m c.key) {b : UInt8} {a : Addr} {π : List UInt8}
    (hp : c.p = .node b c.page.hdr.type a) (ha : L a = some (.node π)) (ho : OnWay L m c.key c.p) :
    c.SeesWay L m [] := by
  have htar : c.target = a := by simp [target, hp]
  have hty : c.p.type = c.page.hdr.type := by rw [hp]; rfl
  have hslot : ∀ i < c.p.type.num, c.page.slots i = m.load (.slot a i) := fun i hi =>
    htar ▸ h.slot hi
  have hhdr := h.hdr
  rw [htar] at hhdr
  obtain ⟨j, hj, hjk⟩ := hk.child ht ha ((hp ▸ ho).node ha)
  have hlt : j < c.p.type.num := by
    rw [hty, hhdr]
    exact hx.sized _ _ _ ha hj
  refine ⟨π, htar ▸ ha, fun i hi _ hn hpre => ?_, j, htar ▸ hj, htar ▸ hjk,
    fun _ => hty ▸ hlt, fun hi _ => ?_⟩
  · rw [hslot i hi] at hn hpre ⊢
    exact OnWay.of_load ht hk (.slot ha hn) hpre
  · rw [hslot j hi, htar]
    exact ⟨hj, rfl⟩

namespace Mapped

theorem miss (h : c.Mapped L m x) (hc : c.pc.reading = true) (hpc : c'.pc = .finish false)
    (hs : c'.isSearch = true) (hcall : c'.call = c.call) (hk : ¬ Planted L m c'.key) :
    c'.Mapped L m x := by
  refine h.moved ?_ ?_ (writing_of_reading hc) (by simp [hpc, Pc.writing]) (fun _ _ => rfl) ?_
  · rw [op_reading hc, ← hcall, op, hpc]
  · rw [effect_reading hc, effect, hpc]
    simp [hs]
  · simp only [Replies, hpc]
    exact fun _ => (h.represents hc).absent hk

theorem turn (h : c.Mapped L m x) (hc : c.pc.reading = true) {pc : Pc}
    (hop : op { c with pc := pc } = some c.call)
    (he : effect { c with pc := pc } x.content = x.content) (hw : pc.writing = false)
    (hr : Replies x.content { c with pc := pc }) : Mapped L m { c with pc := pc } x :=
  h.moved (by rw [hop, op_reading hc]) (by rw [he, effect_reading hc]) (writing_of_reading hc) hw
    (fun _ _ => rfl) hr

section
variable (h : c.Mapped L m x) (ht : TreeInv L m)
include h ht

theorem readRoot (hpc : c.pc = .readRoot) : Mapped L m { c with
    pPtr := .root, p := m.root, depth := 1
    pc := if c.isSearch && m.root.isNull then .noTree else .next } x := by
  have hc : c.pc.reading = true := by simp [hpc, Pc.reading]
  by_cases hn : (c.isSearch && m.root.isNull) = true
  · refine h.moved (by simp [op, call, hn, hpc]) (by simp [effect, hn, hpc]) (writing_of_reading hc)
      (by simp [hn, Pc.writing]) (fun _ _ => rfl) ?_
    simp only [Replies, hn, if_true]
    simp only [Bool.and_eq_true, Entry.isNull, beq_iff_eq] at hn
    refine ⟨hn.1, fun k => (h.represents hc).absent fun hk => ?_⟩
    exact (OnWay.of_load ht hk .root List.nil_prefix).ne_null hn.2
  · exact h.read hc (by simp [hn, Pc.reading]) rfl

variable (ha : Alone crc L m c)
include ha

theorem next (hk : ∃ σ, Located L m c σ) (hpc : c.pc = .next) : Mapped L m c.next x := by
  have hs := ha.sees
  simp only [Sees, hpc] at hs
  have hc : c.pc.reading = true := by simp [hpc, Pc.reading]
  unfold Client.next
  split
  · rename_i hp
    obtain ⟨σ, hσ⟩ := hk
    obtain ⟨-, hld⟩ := hs.current (hσ.null hp).2
    split
    · exact h.read hc rfl rfl
    · split
      · rename_i hsearch
        refine h.miss hc rfl hsearch rfl fun hk => ?_
        exact (OnWay.of_load ht hk hσ.slot hσ.key).ne_null (hld.trans hp)
      · rename_i hsearch
        exact h.turn hc rfl rfl rfl (show c.isSearch = false by simpa using hsearch)
  · exact h.read hc rfl rfl
  · exact h.read hc rfl rfl

/-- A leaf at the client's slot holds the answer for the key, whichever key it has. -/
theorem gotLeaf (hk : (∃ σ, Located L m c σ) ∧ ∃ b l, c.p = .leaf b l ∧ LeafBuf m l [] c.leaf)
    (hpc : c.pc = .gotLeaf) : Mapped L m c.gotLeaf x := by
  have hs := ha.sees
  simp only [Sees, hpc] at hs
  obtain ⟨⟨-, hld⟩, -, hleaf⟩ := hs
  have hc : c.pc.reading = true := by simp [hpc, Pc.reading]
  have hrep := h.represents hc
  obtain ⟨⟨σ, hσ⟩, b, l, hp, -⟩ := hk
  have htar : c.target = l := by simp [target, hp]
  have hl := (hσ.leaf hp).1
  rw [htar] at hleaf
  have hval : c.leaf.key = c.key → x.content c.key = some c.leaf.value := by
    intro hkey
    have := hrep.leaf hl
    rwa [← hleaf, hkey] at this
  unfold Client.gotLeaf
  split
  · rename_i hsearch
    split
    · rename_i hkey
      refine h.moved (by simp [op, call, hsearch, hpc]) (by simp [effect, hsearch, hpc])
        (writing_of_reading hc) rfl (fun _ _ => rfl) ?_
      exact fun _ => hval hkey
    · rename_i hkey
      refine h.miss hc rfl hsearch rfl fun hk => hkey ?_
      have ho := OnWay.of_load ht hk hσ.slot hσ.key
      rw [hld, hp] at ho
      rw [hleaf]
      exact ho.leaf hl
  · rename_i hsearch
    replace hsearch : c.isSearch = false := by simpa using hsearch
    split
    · rename_i hkey
      split
      · rename_i hload
        refine h.turn hc rfl ?_ rfl ?_
        · simp [effect, hsearch, hload, put_keep (hval hkey)]
        · simp [Replies, hsearch]
      · rename_i hload
        exact h.turn hc rfl rfl rfl ⟨hsearch, (by simpa using hload : c.isLoad = false)⟩
    · split
      · exact h.read hc rfl rfl
      · split
        · exact h.read hc rfl rfl
        · exact h.turn hc rfl rfl rfl hsearch

theorem nodeRead (hl : Local L m c) (hpc : c.pc = .nodeRead) :
    Mapped L m (c.nodeRead m c.target).client x := by
  have hc : c.pc.reading = true := by simp [hpc, Pc.reading]
  have hs := ha.sees
  have hk := hl.knows
  simp only [Sees, hpc] at hs
  simp only [Knows, hpc] at hk
  by_cases hv : c.page.isValid c.pPtr c.depth c.fromCache = true
  · obtain ⟨hq, hld⟩ := ha.holds_node ht hl.knows hpc hv
    have hx := ha.exact (by simp [hpc, Pc.owes]) hq
    have hseek : Planted L m c.key → (c.nodeRead m c.target).client.Seeks L m := by
      intro hpl
      have hk' := hk
      obtain ⟨⟨σ, hσ⟩, b, a, π, hp, hL, -⟩ := hk'
      have ho : OnWay L m c.key c.p := hld ▸ OnWay.of_load ht hpl hσ.slot hσ.key
      exact nodeRead_seeks ht hk ⟨ho, hs.2.2.seesWay ht hx hpl hp hL ho⟩
    unfold Client.nodeRead at hseek ⊢
    simp only [hv, Bool.not_true, Bool.false_eq_true, if_false] at hseek ⊢
    unfold Client.checkHeader at hseek ⊢
    dsimp only at hseek ⊢
    split
    · exact h.read hc rfl rfl
    · exact h.read hc rfl rfl
    · split
      · rename_i hdiff hsearch
        refine h.miss hc rfl hsearch rfl fun hpl => ?_
        have := hseek hpl
        simp [hdiff, hsearch, Seeks] at this
      · split
        · exact h.read hc rfl rfl
        · rename_i hsearch _
          refine h.moved (by simp [op, hpc]; rfl) (by simp [effect, hpc]) (writing_of_reading hc) rfl
            (fun _ _ => rfl) ?_
          exact (by simpa using hsearch : c.isSearch = false)
  · unfold Client.nodeRead
    simp only [hv, Bool.not_false, if_true]
    exact h.read hc rfl rfl

theorem scan (hk : ∃ a π, InNode L m c a π) (hpc : c.pc = .scan) :
    Mapped L m (c.scan c.target) x := by
  have hc : c.pc.reading = true := by simp [hpc, Pc.reading]
  have hs := ha.sees
  simp only [Sees, hpc] at hs
  obtain ⟨⟨hq, hld⟩, -, hseen⟩ := hs
  obtain ⟨a, π, hn⟩ := hk
  have hx := ha.exact (by simp [hpc, Pc.owes]) hq
  have hseek : Planted L m c.key → (c.scan c.target).Seeks L m := by
    intro hpl
    obtain ⟨b, hp⟩ := hn.entry
    have ho : OnWay L m c.key c.p := ⟨a, π, by rw [hp]; rfl, .node hn.layout, hn.key⟩
    exact scan_seeks ht hn ⟨ho, hseen.seesWay ht hx hpl hp hn.layout ho⟩
  unfold Client.scan at hseek ⊢
  rw [hn.getPartial ht] at hseek ⊢
  dsimp only at hseek ⊢
  split
  · exact h.read hc rfl rfl
  · rename_i hnone
    simp only [hnone] at hseek
    split
    · rename_i hsearch
      refine h.miss hc rfl hsearch rfl fun hpl => ?_
      have := hseek hpl
      simp [hsearch, Seeks] at this
    · rename_i hsearch
      exact h.turn hc rfl rfl rfl (by simpa using hsearch : c.isSearch = false)

end
end Mapped
end Client
end SmartTree
