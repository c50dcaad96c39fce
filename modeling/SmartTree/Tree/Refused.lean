import SmartTree.Tree.Finds
import SmartTree.Tree.Reverse

/-! A search from the index cache: as long as reverse pointers are written in order, an entry whose
block has moved on is turned down, and the search goes on from the slot itself. -/
namespace SmartTree
open Transition
variable {n : ℕ} {L L' : Layout} {m m' : Mem n} {c : Client n} {crc : Key n → Value → UInt64}
  {x : Block}

/-- A block that was seen at a slot hangs there, or further down. -/
theorem TreeInv.at_or_below (ht : TreeInv L m) {p q : Ptr} {σ τ : List UInt8} {e : Entry}
    (hp : SlotPath L m p σ) (he : EntryOk L m σ e) (hx : e.block? = some x) (hq : Sits L m x q τ) :
    p = q ∨ Higher L m p q := by
  obtain ⟨ρ, hσ, hτ, hρ⟩ : ∃ ρ, σ <+: ρ ∧ τ <+: ρ ∧
      ∀ b t a, m.load q = .node b t a → L a = some (.node ρ) := by
    have hok := ht.entry hq.slot
    have hload := hq.load
    cases he with
    | null => cases hx
    | leaf hl hk =>
      cases hx
      cases hlq : m.load q with
      | null => rw [hlq] at hload; cases hload
      | leaf b l =>
        rw [hlq] at hok hload
        cases hload
        cases hok with | leaf _ hk' => exact ⟨_, hk, hk', fun b t a h => by cases h⟩
      | node b t a => rw [hlq] at hload; cases hload
    | node ha hpre =>
      cases hx
      cases hlq : m.load q with
      | null => rw [hlq] at hload; cases hload
      | leaf b l => rw [hlq] at hload; cases hload
      | node b t a =>
        rw [hlq] at hok hload
        cases hload
        cases hok with
        | node ha' hpre' =>
          cases ha.symm.trans ha'
          exact ⟨_, hpre, hpre', fun b t a h => by cases h; exact ha⟩
  obtain hc | hc := List.prefix_or_prefix_of_prefix hσ hτ
  · obtain hlen | hlen := Nat.lt_or_ge σ.length τ.length
    · exact .inr ⟨σ, τ, hp, hq.slot, hlen⟩
    · obtain rfl := hc.eq_of_length_le hlen
      exact .inl (ht.slot_unique hp hq.slot)
  · obtain rfl | ⟨b, t, a, π, hn, ha, -, hlen⟩ := ht.slot_cases hq.slot hp hc
    · exact .inl rfl
    · cases (hρ b t a hn).symm.trans ha
      have := hσ.length_le
      omega

namespace Client

/-- The entry is from the cache, and its block points back to a slot further down. -/
def Left (L : Layout) (m : Mem n) (c : Client n) : Prop :=
  c.fromCache = true ∧ ∃ x, c.p.block? = some x ∧ x.In L ∧ Higher L m c.pPtr (m.back x)

/-- The client holds an outdated entry, which it is going to turn down. -/
def Refuses (L : Layout) (m : Mem n) (c : Client n) : Prop :=
  match c.pc with
  | .next => c.Left L m
  | .readLeaf todo => c.Left L m ∧ (.rev ∉ todo → Higher L m c.pPtr c.leaf.rev)
  | .readNode todo | .readRest todo => c.Left L m ∧ (.rev ∉ todo → Higher L m c.pPtr c.page.rev)
  | .nodeRead => c.Left L m ∧ Higher L m c.pPtr c.page.rev
  | .reread => True
  | _ => False

theorem Refuses.searches (h : c.Refuses L m) : c.pc.searches = true ∧ c.pc ≠ .finish false := by
  unfold Refuses at h
  cases hpc : c.pc <;> simp_all [Pc.searches]

theorem Left.leaf (h : c.Left L m) {b : UInt8} {l : Addr} (hp : c.p = .leaf b l) :
    Higher L m c.pPtr (m.leaf c.target).rev := by
  obtain ⟨-, x, hx, -, hh⟩ := h
  rw [hp] at hx
  cases hx
  simpa [target, hp, Mem.back] using hh

theorem Left.node (h : c.Left L m) {b : UInt8} {t : NodeType} {a : Addr} (hp : c.p = .node b t a) :
    Higher L m c.pPtr (m.node c.target).rev := by
  obtain ⟨-, x, hx, -, hh⟩ := h
  rw [hp] at hx
  cases hx
  simpa [target, hp, Mem.back] using hh

section mono
variable (hx : Extends L m L' m') (ht : Turns L m L' m')
include hx ht

theorem Left.mono (h : c.Left L m) : c.Left L' m' := by
  obtain ⟨hf, x, hb, hin, hh⟩ := h
  exact ⟨hf, x, hb, hin.mono hx, hh.back hx ht hin⟩

theorem Refuses.mono (h : c.Refuses L m) : c.Refuses L' m' := by
  unfold Refuses at h ⊢
  cases hpc : c.pc <;> simp only [hpc] at h ⊢
  case next => exact h.mono hx ht
  case readLeaf | readNode | readRest => exact ⟨h.1.mono hx ht, fun hr => (h.2 hr).mono hx⟩
  case nodeRead => exact ⟨h.1.mono hx ht, h.2.mono hx⟩

end mono

theorem next_refuses (h : c.Left L m) : c.next.Refuses L m := by
  obtain ⟨-, x, hx, -⟩ := id h
  unfold next
  split
  · rename_i hp
    rw [hp] at hx
    cases hx
  · exact ⟨h, fun hr => absurd (by simp [leafWords]) hr⟩
  · exact ⟨h, fun hr => absurd (by simp [nodeWords]) hr⟩

theorem typeRead_refuses (h : c.Left L m) (hr : Higher L m c.pPtr c.page.rev) :
    c.typeRead.Refuses L m := by
  have hleft : Left L m c.typeRead := by
    obtain ⟨hf, x, hx, hin, hh⟩ := h
    exact ⟨hf, x, (Entry.Alike.withType c.p _).block_eq.trans hx, hin, hh⟩
  unfold typeRead at hleft ⊢
  split
  · exact ⟨hleft, fun _ => hr⟩
  · exact ⟨hleft, hr⟩

theorem leafWord_refuses {todo : List LeafWord} {j : ℕ} {w : LeafWord} (hw : todo[j]? = some w)
    (h : .rev ∉ todo → Higher L m c.pPtr c.leaf.rev) (hn : Higher L m c.pPtr (m.leaf c.target).rev)
    (hr : .rev ∉ todo.eraseIdx j) :
    Higher L m c.pPtr ((m.leaf c.target).copy w c.leaf).rev := by
  obtain hr | rfl := not_mem_eraseIdx hw hr
  · cases w with
    | rev => exact hn
    | _ => exact h hr
  · exact hn

theorem nodeWord_refuses {todo : List NodeWord} {j : ℕ} {w : NodeWord} (hw : todo[j]? = some w)
    (h : .rev ∉ todo → Higher L m c.pPtr c.page.rev) (hn : Higher L m c.pPtr (m.node c.target).rev)
    (hr : .rev ∉ todo.eraseIdx j) :
    Higher L m c.pPtr ((m.node c.target).copy w c.page).rev := by
  obtain hr | rfl := not_mem_eraseIdx hw hr
  · cases w with
    | rev => exact hn
    | _ => exact h hr
  · exact hn

theorem leafRead_refuses (h : c.Left L m) (hr : Higher L m c.pPtr c.leaf.rev) :
    (c.leafRead crc c.target).Refuses L m := by
  have hne : c.pPtr ≠ c.leaf.rev := fun he => Higher.irrefl (he ▸ hr)
  have hv : c.leaf.isValid c.pPtr c.fromCache = false := by
    simp [Leaf.isValid, h.1, hne]
  simp [leafRead, Refuses, hv]

theorem nodeRead_refuses (h : c.Left L m) (hr : Higher L m c.pPtr c.page.rev) :
    (c.nodeRead m c.target).client.Refuses L m := by
  have hne : c.pPtr ≠ c.page.rev := fun he => Higher.irrefl (he ▸ hr)
  have hv : c.page.isValid c.pPtr c.depth c.fromCache = false := by
    simp [Page.isValid, h.1, hne]
  simp [nodeRead, Refuses, hv]

/-- Where all blocks point back to their slots, a cached entry is on the way or turned down. -/
theorem cached_way (ht : TreeInv L m) (hpc : c.pc = .next) (hl : ∃ σ, c.Located L m σ)
    (hf : c.fromCache = true) (hst : Planted L m c.key)
    (hback : ∀ x ptr σ, Sits L m x ptr σ → m.back x = ptr) : c.Seeks L m ∨ c.Refuses L m := by
  obtain ⟨σ, hσ⟩ := hl
  have hne : c.p ≠ .null := by
    intro hn
    rw [(hσ.null hn).2] at hf
    cases hf
  obtain ⟨x, hx⟩ := Entry.exists_block hne
  have hin := hσ.entry.block_in hx
  obtain ⟨q, τ, hq, hqa⟩ := ht.parent x.addr hin.ne_none
  have hsit : Sits L m x q τ := ⟨hq, (ht.entry hq).block_of_addr hin hqa⟩
  obtain rfl | hh := ht.at_or_below hσ.slot hσ.entry hx hsit
  · left
    simp only [Seeks, hpc]
    exact (OnWay.of_load ht hst hσ.slot hσ.key).alike ((Entry.addr_of_block hx).trans hqa.symm)
  · right
    simp only [Refuses, hpc]
    exact ⟨hf, x, hx, hin, by rw [hback x q τ hsit]; exact hh⟩

end Client

/-- A search that holds an outdated entry goes on until it reads the slot itself. -/
theorem step_refuses (ht : TreeInv L m) (hl : Local L m c) (hst : Planted L m c.key)
    (h : c.Refuses L m) {ch : Choice n} {mv : Move n} (hs : Step crc m c ch mv)
    (hx : Extends L m (L.publish mv.published) mv.mem)
    (htn : Turns L m (L.publish mv.published) mv.mem) :
    mv.client.Refuses (L.publish mv.published) mv.mem ∨
      mv.client.Seeks (L.publish mv.published) mv.mem := by
  have hk := hl.knows
  cases hs with
  | next hpc =>
    simp only [Client.Refuses, hpc] at h
    exact .inl (Client.next_refuses h)
  | leafRead hpc =>
    simp only [Client.Refuses, hpc] at h
    exact .inl (Client.leafRead_refuses h.1 (h.2 (by simp)))
  | leafWord hpc hw =>
    simp only [Client.Refuses, hpc] at h
    simp only [Client.Knows, hpc] at hk
    obtain ⟨-, b, l, hp, -⟩ := hk
    exact .inl ⟨h.1, Client.leafWord_refuses hw h.2 (h.1.leaf hp)⟩
  | reread hpc =>
    simp only [Client.Knows, hpc] at hk
    obtain ⟨-, σ, hσ⟩ := hk
    exact .inr (OnWay.of_load ht hst hσ.slot hσ.key)
  | typeRead hpc =>
    simp only [Client.Refuses, hpc] at h
    exact .inl (Client.typeRead_refuses h.1 (h.2 (by simp)))
  | nodeWord hpc hw =>
    simp only [Client.Refuses, hpc] at h
    simp only [Client.Knows, hpc] at hk
    obtain ⟨-, b, t, a, π, hp, -⟩ := hk
    exact .inl ⟨h.1, Client.nodeWord_refuses hw h.2 (h.1.node hp)⟩
  | restWord hpc hw =>
    simp only [Client.Refuses, hpc] at h
    simp only [Client.Knows, hpc] at hk
    obtain ⟨-, -, b, a, π, hp, -⟩ := hk
    exact .inl ⟨h.1, Client.nodeWord_refuses hw h.2 (h.1.node hp)⟩
  | restRead hpc =>
    simp only [Client.Refuses, hpc] at h
    exact .inl ⟨h.1, h.2 (by simp)⟩
  | nodeRead hpc =>
    simp only [Client.Refuses, hpc] at h
    rw [Client.nodeRead_eq]
    exact .inl (Client.nodeRead_refuses h.1 h.2)
  | flush => exact .inl (Client.Refuses.mono hx htn h)
  | readRoot hpc | gotLeaf hpc | scan hpc | finish hpc
  | combineUpdate hpc | lockBusy hpc | lockTaken hpc | writeFault hpc | combineWrite hpc
  | written hpc | writeWord hpc | leafPrepare hpc | leafWrite hpc | leafCasDone hpc
  | leafCasFailed hpc | splitReuse hpc | splitFresh hpc | splitFault hpc | splitWrite hpc
  | splitCasDone hpc | splitCasFailed hpc | splitRev hpc | splitHdr hpc | emptyScan hpc
  | switchEntry hpc | switchHdr hpc | switchDown hpc | switchEnd hpc =>
    simp only [Client.Refuses, hpc] at h

namespace World
variable {ι : Type*}

structure Traced (s : World ι n) (c : Client n) : Prop extends Wanted s c where
  way : c.Seeks s.layout s.mem ∨ c.Refuses s.layout s.mem

theorem Traced.searches {s : World ι n} {c : Client n} (h : c.pc ≠ .idle → Traced s c) :
    c.pc.searches = true ∧ c.pc ≠ .finish false := by
  by_cases hpc : c.pc = .idle
  · simp [hpc, Pc.searches]
  · obtain hseek | href := (h hpc).way
    · refine ⟨hseek.searches, fun hf => ?_⟩
      simp [Client.Seeks, hf] at hseek
    · exact href.searches

/-- Inserts go down in bounds, and reverse pointers are written in order. -/
def InOrder (s : World ι n) (a : ι × Choice n) : Prop := s.Bounded a ∧ s.Orderly a

instance (s : World ι n) [DecidableEq ι] [Fintype ι] (a : ι × Choice n) : Decidable (s.InOrder a) :=
  inferInstanceAs (Decidable (_ ∧ _))

/-- No update of a reverse pointer or of a header is under way. -/
def Quiet (s : World ι n) : Prop := ∀ i, (s.client i).outstanding.isEmpty = true

variable [DecidableEq ι] [Fintype ι]

instance (s : World ι n) : Decidable s.Quiet := inferInstanceAs (Decidable (∀ _, _))

theorem Traced.begins {s t : World ι n} (h : Sighted s) (hb : Backed s) (hq : s.Quiet) {i : ι}
    {k : Key n} {v : Value} {isLoad : Bool} {hit : Option ℕ} (hk : k ∈ s.done)
    (ht : Takes crc s (i, .begin true k v isLoad hit) t) : Traced t (t.client i) := by
  have hl := (h.recalling.safe.takes ht).1.client i
  have hback : ∀ x ptr σ, Sits s.layout s.mem x ptr σ → s.mem.back x = ptr := by
    intro x ptr σ hs
    refine (hb.owed x ptr σ hs).resolve_right ?_
    rintro ⟨j, hop⟩
    rw [List.isEmpty_iff.mp (hq j)] at hop
    cases hop
  cases ht with
  | start hpc hbeg =>
    rw [put_client_self] at hl ⊢
    cases hbeg with
    | root => exact ⟨⟨rfl, h.storing.done k hk, h.done k hk⟩, .inl trivial⟩
    | hit =>
      exact ⟨⟨rfl, h.storing.done k hk, h.done k hk⟩,
        Client.cached_way h.recalling.safe.tree rfl hl.knows rfl (h.storing.done k hk) hback⟩
  | step hs => cases hs

theorem Traced.takes {s t : World ι n} {a : ι × Choice n} {i : ι} (hs : Sighted s) (hb : Backed s)
    (ho : s.Orderly a) (h : (s.client i).pc ≠ .idle → Traced s (s.client i))
    (hone : a.1 = i → a.2.isBegin = false) (ht : Takes crc s a t) (hne : (t.client i).pc ≠ .idle) :
    Traced t (t.client i) := by
  refine ⟨Wanted.takes hs (fun hpc => (h hpc).toWanted) hone ht hne, ?_⟩
  have hsafe := hs.recalling.safe
  have hcare := hb.careful ho
  cases ht with
  | @start j isSearch k v isLoad hit c' hpc hbeg =>
    have hj : i ≠ j := fun hj => by simpa [Choice.isBegin] using hone hj.symm
    rw [put_client_ne _ _ hj] at hne ⊢
    exact (h hne).way
  | @step j ch mv hstep =>
    have hx := (step_outcome hsafe.tree (hsafe.client j) hstep).ext
    have hturn := step_turns hsafe.tree (hsafe.client j) (hs.recalling.client j) (hb.client j) hcare
      hstep
    by_cases hj : i = j
    · subst hj
      rw [put_client_self] at hne ⊢
      have hc := h fun hpc => hne (step_idle hpc hstep)
      obtain hseek | href := hc.way
      · exact .inl (step_seeks hsafe.tree (hsafe.client i) hc.search hc.stored hc.sight hseek hstep)
      · exact (step_refuses hsafe.tree (hsafe.client i) hc.stored href hstep hx hturn).symm
    · rw [put_client_ne _ _ hj] at hne ⊢
      exact (h hne).way.imp (·.mono hx) (·.mono hx hturn)

open scoped Transition.Numbered

def lookCached : Fin 2 × Choice 3 := (1, .begin true (.ofList [1, 1, 5]) 0 false (some 0))

end World
end SmartTree
