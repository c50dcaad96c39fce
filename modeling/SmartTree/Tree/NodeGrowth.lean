import SmartTree.Tree.RecallStep
import SmartTree.Tree.Script

/-! Node growth over whole runs: types of headers and of the entries that refer to them only
grow, the search loop of `cas_node_type` always arrives at its node, and when it returns
both types are at least the one asked for. -/
namespace SmartTree
open Transition
variable {n : ℕ} {L : Layout} {m : Mem n} {crc : Key n → Value → UInt64}

def Mem.Refers (m : Mem n) (a : Addr) (t : NodeType) : Prop := ∃ σ b, Spells m σ (.node b t a)

/-- The loop of `cas_node_type` finds its node after so many rounds, past nodes only. -/
inductive Mem.Arrives (m : Mem n) (x : Addr) : ℕ → Entry → Prop
  | here {b t} : Arrives m x 0 (.node b t x)
  | down {r b t a} (ha : a ≠ x) (h : Arrives m x r (m.load (.slot a 0))) :
    Arrives m x (r + 1) (.node b t a)

theorem Declared.refers (ht : TreeInv L m) {a : Addr} {t : NodeType} (h : Declared L m a t) :
    (∃ u, m.Refers a u) ∧ ∀ u, m.Refers a u → t.code ≤ u.code := by
  obtain ⟨ptr, σ, b, u, hs, hl, hc⟩ := h
  refine ⟨⟨u, σ, b, hl ▸ ht.spells_of_slot hs⟩, fun u' hu' => ?_⟩
  obtain ⟨τ, b', hsp⟩ := hu'
  obtain ⟨p, hp, hlp⟩ := ht.slot_of_spells hsp
  -- no other slot refers to the node
  obtain rfl := ht.unique p ptr τ σ a hp hs (by rw [hlp]; rfl) (by rw [hl]; rfl)
  rw [hl] at hlp
  cases hlp
  exact hc

theorem Mem.Refers.declared (ht : TreeInv L m) {a : Addr} {t : NodeType} (h : m.Refers a t) :
    Declared L m a t := by
  obtain ⟨σ, b, hsp⟩ := h
  obtain ⟨ptr, hs, hl⟩ := ht.slot_of_spells hsp
  exact ⟨ptr, σ, b, t, hs, hl, le_rfl⟩

theorem arrives_of_below (ht : TreeInv L m) {x : Addr} {π σ : List UInt8} {e e' : Entry}
    (hx : L x = some (.node π)) (hb : m.Below e e') (he : e'.addr? = some x)
    (hok : EntryOk L m σ e) : ∃ r, m.Arrives x r e ∧ r + σ.length ≤ π.length := by
  induction hb generalizing σ with
  | here =>
    obtain ⟨b, t, rfl⟩ := hok.eq_node he hx
    cases hok with
    | node ha hp =>
      cases hx.symm.trans ha
      exact ⟨0, .here, by simpa using hp.length_le⟩
  | @down b t a e _ ih =>
    cases hok with
    | @node _ _ _ τ ha hp =>
      have hlen := hp.length_le
      by_cases hax : a = x
      · subst hax
        cases hx.symm.trans ha
        exact ⟨0, .here, by simpa using hlen⟩
      · have hs : SlotPath L m (.slot a 0) _ := .slot ha (ht.node a τ ha).first
        obtain ⟨r, hr, hle⟩ := ih he (ht.entry hs)
        simp only [List.length_append, List.length_singleton] at hle
        exact ⟨r + 1, .down hax hr, by omega⟩

/-- `cas_node_type` returns when both compare-and-swaps are done or not needed any more. -/
theorem Switch.close_finish {w : Switch} {r : Bool} (h : w.close = .finish r) :
    w.entryDone = true ∧ (w.hdrDone = true ∨
      w.hdrDone = false ∧ w.next.code ≤ w.hdrBuf.type.code) := by
  unfold close at h
  dsimp only at h
  cases hd : w.hdrDone with
  | true =>
    simp only [hd, if_true, Bool.and_true] at h
    split at h
    · exact ⟨‹_›, .inl rfl⟩
    · cases h
  | false =>
    simp only [hd, Bool.false_eq_true, if_false] at h
    split at h
    · rename_i hb
      simp only [Bool.and_eq_true, decide_eq_true_eq] at hb
      exact ⟨hb.1, .inr ⟨rfl, hb.2⟩⟩
    · cases h

namespace World
variable {ι : Type*}

structure Recalling (s : World ι n) : Prop where
  safe : Safe s
  client : ∀ i, (s.client i).Recalls s.layout s.mem
  log : ∀ q ∈ s.log, LogHeld s.layout s.mem q

theorem Initial.recalling {s : World ι n} (h : Initial s) : Recalling s where
  safe := h.safe
  client i := by simp [Client.Recalls, h.idle i]
  log := by simp [h.log]

variable [DecidableEq ι] [Fintype ι]

theorem Recalling.takes {s t : World ι n} {a : ι × Choice n} (h : Recalling s)
    (ht : Takes crc s a t) : Recalling t ∧ Grows s.layout s.mem t.mem := by
  obtain ⟨hsafe, hx⟩ := h.safe.takes ht
  have hg : Grows s.layout s.mem t.mem := by
    cases ht with
    | start => exact (Change.quiet (fun _ _ => rfl) fun _ _ => rfl).grows
    | step hs => exact (step_change h.safe.tree (h.safe.client _) (h.client _) hs).grows
  have hothers : ∀ j, (s.client j).Recalls t.layout t.mem :=
    fun j => (h.client j).mono hx hg h.safe.tree hsafe.tree
  refine ⟨⟨hsafe, ?_, ?_⟩, hg⟩
  · cases ht with
    | @start i isSearch k v isLoad hit c' hpc hb =>
      intro j
      by_cases hj : j = i
      · subst hj
        rw [put_client_self]
        cases hb with
        | root => trivial
        | hit hq _ _ hi he _ => exact h.log _ (List.mem_of_getElem? hq) _ _ hi
      · rw [put_client_ne _ _ hj]
        exact hothers j
    | @step i ch mv hs =>
      intro j
      by_cases hj : j = i
      · subst hj
        rw [put_client_self]
        exact (step_recalls h.safe.tree (h.safe.client _) (h.client _) hs).1
      · rw [put_client_ne _ _ hj]
        exact hothers j
  · have hold : ∀ q ∈ s.log, LogHeld t.layout t.mem q :=
      fun q hq => (h.log q hq).mono hx hg h.safe.tree
    cases ht with
    | start =>
      intro q hq
      exact hold q (by simpa [put] using hq)
    | step hs =>
      intro q hq
      obtain hq | hq := List.mem_append.mp hq
      · exact hold q hq
      · exact (step_recalls h.safe.tree (h.safe.client _) (h.client _) hs).2 q hq

theorem recalling_of_reachable {s : World ι n} (h : (treeSystem ι crc).Reachable s) :
    Recalling s :=
  h.invariant (P := Recalling) (fun _ hi => Initial.recalling hi)
    fun _ _ _ _ ih _ hn => (ih.takes (next_takes hn)).1

theorem Recalling.run {s t : World ι n} {as : List (ι × Choice n)} (h : Recalling s)
    (hr : (treeSystem ι crc).run s as = some t) : Recalling t ∧
      (∀ a, s.layout a ≠ none → (s.mem.node a).hdr.type.code ≤ (t.mem.node a).hdr.type.code) ∧
      ∀ a u, Declared s.layout s.mem a u → Declared t.layout t.mem a u := by
  induction as generalizing s with
  | nil => cases hr; exact ⟨h, fun _ _ => le_rfl, fun _ _ hd => hd⟩
  | cons a as ih =>
    rw [System.run_cons] at hr
    obtain ⟨v, hv, hr⟩ := Option.bind_eq_some_iff.mp hr
    have htk := next_takes hv
    obtain ⟨hrec, hg⟩ := h.takes htk
    obtain ⟨hsafe, hx⟩ := h.safe.takes htk
    obtain ⟨h1, h2, h3⟩ := ih hrec hr
    exact ⟨h1, fun a ha => (hg.hdr a ha).trans (h2 a (hx.ne_none ha)),
      fun a u hd => h3 a u (hd.mono hx hg hsafe.tree)⟩

def rounds (i : ι) (as : List (ι × Choice n)) : ℕ :=
  as.countP fun a => match a with
    | (j, .go) => decide (j = i)
    | _ => false

theorem act_switchDown {c : Client n} {w : Switch} {ch : Choice n} {mv : Move n}
    (hpc : c.pc = .switchDown w) (h : c.act crc m ch = some mv) :
    ch = .go ∧ mv.client.pc = w.down m ∨ ch = .flush ∧ mv.client.pc = .switchDown w := by
  unfold Client.act at h
  rw [hpc] at h
  cases ch with
  | go =>
    obtain ⟨-, rfl⟩ := Client.await_eq.mp h
    exact .inl ⟨rfl, rfl⟩
  | flush =>
    dsimp only at h
    split at h
    · cases h
    · cases h
      exact .inr ⟨rfl, rfl⟩
  | _ => cases h

/-- A client inside the search loop: a round finds the node or goes on to a node with a longer
path, and nobody else interferes. -/
theorem loop_step {s t : World ι n} {i : ι} {w : Switch} {a : ι × Choice n} {σ : List UInt8}
    (h : Recalling s) (hpc : (s.client i).pc = .switchDown w)
    (hok : EntryOk s.layout s.mem σ w.p) (hn : s.next crc a = some t) :
    ((t.client i).pc = .switchDown w ∧ EntryOk t.layout t.mem σ w.p ∧ rounds i [a] = 0) ∨
    (∃ w' τ, (t.client i).pc = .switchDown w' ∧ w'.node = w.node ∧
      EntryOk t.layout t.mem τ w'.p ∧ σ.length < τ.length) ∨
    ∃ w' b ty, (t.client i).pc = .switchEnd w' ∧ w'.p = .node b ty w.node := by
  obtain ⟨-, hx⟩ := h.safe.takes (next_takes hn)
  obtain ⟨j, ch⟩ := a
  by_cases hj : j = i
  · subst hj
    obtain ⟨mv, hmv, rfl⟩ : ∃ mv, (s.client j).act crc s.mem ch = some mv ∧ s.put j mv = t := by
      cases ch with
      | begin => simp [World.next, hpc] at hn
      | _ => simpa [World.next] using hn
    rw [put_client_self]
    obtain ⟨rfl, hgo⟩ | ⟨rfl, hpc'⟩ := act_switchDown hpc hmv
    · right
      have hr := h.client j
      simp only [Client.Recalls, hpc] at hr
      obtain ⟨π, hπ⟩ := hr.1.node
      obtain ⟨b, ty, x, hwp, -⟩ := hr.2.2.eq_node hπ
      rw [hgo, Switch.down, hwp]
      by_cases hxw : x = w.node
      · right
        exact ⟨_, b, ty, if_pos hxw, congrArg _ hxw⟩
      · left
        rw [hwp] at hok
        cases hok with
        | @node _ _ _ τ hτ hpre =>
          have hsl : SlotPath s.layout s.mem (.slot x 0) _ :=
            .slot hτ (h.safe.tree.node x τ hτ).first
          refine ⟨_, _, if_neg hxw, rfl, (h.safe.tree.entry hsl).mono hx, ?_⟩
          have := hpre.length_le
          simp only [List.length_append, List.length_singleton]
          omega
    · exact .inl ⟨hpc', hok.mono hx, rfl⟩
  · have hcl : t.client i = s.client i := by
      cases next_takes hn with
      | start => exact put_client_ne _ _ (Ne.symm hj)
      | step => exact put_client_ne _ _ (Ne.symm hj)
    refine .inl ⟨by rw [hcl, hpc], hok.mono hx, ?_⟩
    cases ch <;> simp [rounds, hj]

theorem loop_arrives {s t : World ι n} {i : ι} {w : Switch} {as : List (ι × Choice n)}
    {σ π : List UInt8} (h : Recalling s) (hpc : (s.client i).pc = .switchDown w)
    (hπ : s.layout w.node = some (.node π)) (hok : EntryOk s.layout s.mem σ w.p)
    (hr : (treeSystem ι crc).run s as = some t) (hlen : π.length < σ.length + rounds i as) :
    ∃ before u w' b ty, before <+: as ∧ (treeSystem ι crc).run s before = some u ∧
      (u.client i).pc = .switchEnd w' ∧ w'.p = .node b ty w.node := by
  induction as generalizing s w σ with
  | nil =>
    -- no round left although the path is not exhausted
    have hrec := h.client i
    simp only [Client.Recalls, hpc] at hrec
    obtain ⟨e', hb, he⟩ := hrec.2.2.node
    obtain ⟨r, -, hle⟩ := arrives_of_below h.safe.tree hπ hb he hok
    simp only [rounds, List.countP_nil] at hlen
    omega
  | cons a as ih =>
    rw [System.run_cons] at hr
    obtain ⟨v, hv, hr⟩ := Option.bind_eq_some_iff.mp hr
    obtain ⟨hrec, -⟩ := h.takes (next_takes hv)
    obtain ⟨-, hx⟩ := h.safe.takes (next_takes hv)
    have hcount : rounds i (a :: as) = rounds i [a] + rounds i as := by
      rw [rounds, ← List.singleton_append, List.countP_append]
      rfl
    have hgo : ∀ {before u w' b ty}, before <+: as → (treeSystem ι crc).run v before = some u →
        (u.client i).pc = .switchEnd w' → w'.p = .node b ty w.node →
        ∃ before u w' b ty, before <+: a :: as ∧ (treeSystem ι crc).run s before = some u ∧
          (u.client i).pc = .switchEnd w' ∧ w'.p = .node b ty w.node := by
      intro before u w' b ty h1 h2 h3 h4
      refine ⟨a :: before, u, w', b, ty, (List.prefix_cons_inj a).mpr h1, ?_, h3, h4⟩
      rw [System.run_cons]
      exact Option.bind_eq_some_iff.mpr ⟨v, hv, h2⟩
    obtain ⟨hpc', hok', h0⟩ | ⟨w', τ, hpc', hnode, hok', hlt⟩ | ⟨w', b, ty, hpc', hp⟩ :=
      loop_step h hpc hok hv
    · obtain ⟨_, _, _, _, _, h1, h2, h3, h4⟩ :=
        ih hrec hpc' (hx.layout _ _ hπ) hok' hr (by omega)
      exact hgo h1 h2 h3 h4
    · have hone : rounds i [a] ≤ 1 := List.countP_le_length
      obtain ⟨_, _, _, _, _, h1, h2, h3, h4⟩ :=
        ih hrec hpc' (hnode ▸ hx.layout _ _ hπ) hok' hr (by omega)
      exact hgo h1 h2 h3 (hnode ▸ h4)
    · exact hgo List.nil_prefix rfl hpc' hp

/-- Node growth is monotone and complete: over every run the type in a node's header and in the
entry that refers to the node never decrease; the search loop arrives at the node being switched,
past nodes only, whatever others do meanwhile; and when `cas_node_type` returns, both types are
at least the one asked for. -/
theorem node_growth {s : World ι n} (h : (treeSystem ι crc).Reachable s) :
    (∀ as t, (treeSystem ι crc).run s as = some t → ∀ a u, s.mem.Refers a u →
      (s.mem.node a).hdr.type.code ≤ (t.mem.node a).hdr.type.code ∧
      (∃ u', t.mem.Refers a u') ∧ ∀ u', t.mem.Refers a u' → u.code ≤ u'.code) ∧
    (∀ i w, (s.client i).pc = .switchDown w →
      (∃ r < n, s.mem.Arrives w.node r w.p) ∧
      ∀ as t, (treeSystem ι crc).run s as = some t → n ≤ rounds i as →
        ∃ before u w' b ty, before <+: as ∧ (treeSystem ι crc).run s before = some u ∧
          (u.client i).pc = .switchEnd w' ∧ w'.p = .node b ty w.node) ∧
    ∀ i w, (s.client i).pc = .switchEnd w → w.close = .finish true →
      w.next.code ≤ (s.mem.node w.node).hdr.type.code ∧
      (∃ u, s.mem.Refers w.node u) ∧ ∀ u, s.mem.Refers w.node u → w.next.code ≤ u.code := by
  have hs := recalling_of_reachable h
  refine ⟨fun as t hr a u hu => ?_, fun i w hpc => ?_, fun i w hpc hclose => ?_⟩
  · obtain ⟨hrec, hhdr, hdecl⟩ := hs.run hr
    have hd := hu.declared hs.safe.tree
    obtain ⟨h1, h2⟩ := (hdecl a u hd).refers hrec.safe.tree
    obtain ⟨σ, b, hsp⟩ := hu
    have hpub := (hs.safe.tree.entry_of_spells hsp).addr_published (a := a) rfl
    exact ⟨hhdr a hpub, h1, h2⟩
  · have hrec := hs.client i
    simp only [Client.Recalls, hpc] at hrec
    obtain ⟨π, hπ⟩ := hrec.1.node
    obtain ⟨e', hb, he⟩ := hrec.2.2.node
    have hshort := (hs.safe.tree.node _ _ hπ).short
    constructor
    · obtain ⟨r, hr, hle⟩ := arrives_of_below hs.safe.tree hπ hb he hrec.2.2.ok
      exact ⟨r, by omega, hr⟩
    · intro as t hr hlen
      exact loop_arrives hs hpc hπ hrec.2.2.ok hr (by simp only [List.length_nil]; omega)
  · have hrec := hs.client i
    simp only [Client.Recalls, hpc] at hrec
    obtain ⟨hf, hb, -⟩ := hrec
    obtain ⟨he, hd⟩ := Switch.close_finish hclose
    refine ⟨?_, (hf.entry he).refers hs.safe.tree⟩
    obtain hd | ⟨hd, hle⟩ := hd
    · exact hf.hdr hd
    · exact hle.trans (hb hd)

open scoped Transition.Numbered

def switchPastSplit : List (Fin 2 × (Choice 2 ⊕ ℕ)) :=
  let key (a b : UInt8) : Key 2 := .ofList [a, b]
  [1, 2, 3, 4].flatMap (fun b => inserts 0 (key 1 b)) ++
    [(0, .inl (.begin false (key 1 5) 0 false none)), (0, .inr 15)] ++
    inserts 1 (key 2 0) ++ [(0, .inr 2)]

theorem switch_past_split : ∃ t w, (treeSystem (Fin 2) fun _ _ => 0).run (empty (Fin 2) 2)
      (script (fun _ _ => 0) switchPastSplit (empty (Fin 2) 2)) = some t ∧
    (t.client 0).pc = .switchDown w ∧ (∃ r < 2, t.mem.Arrives w.node r w.p) ∧
    w.p.addr? ≠ some w.node := by
  obtain ⟨t, ht, hpc⟩ : (treeSystem (Fin 2) fun _ _ => 0).Ends (empty (Fin 2) 2)
      (script (fun _ _ => 0) switchPastSplit (empty (Fin 2) 2)) fun t =>
        (match (t.client 0).pc with
          | .switchDown w => decide (w.p.addr? ≠ some w.node)
          | _ => false) = true := by decide +kernel
  split at hpc
  · rename_i w hw
    have hg := node_growth (empty_reachable.run ht)
    exact ⟨t, w, ht, hw, (hg.2.1 0 w hw).1, of_decide_eq_true hpc⟩
  · cases hpc

end World
end SmartTree
