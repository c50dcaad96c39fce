import Mathlib.Data.List.Find
import SmartTree.Tree.Migrate
import SmartTree.Tree.Owed

/-! A round of `Tree::search` in one step and word by word: alone with the memory, a client that
searches does what `searchStep` says. -/
namespace SmartTree
open Transition
variable {n : ℕ} {m : Mem n} {c c' d : Client n} {crc : Key n → Value → UInt64}
  {qs qs' : List (List UInt8 × CacheEntry)} {b : UInt8} {t : NodeType} {a l : Addr} {r : WalkStep n}

namespace Client

/-- Steps of a client that leave the memory as it is, with what they add to the index cache. -/
inductive Runs (crc : Key n → Value → UInt64) (m : Mem n) :
    Client n → List (List UInt8 × CacheEntry) → Client n → Prop
  | refl (c : Client n) : Runs crc m c [] c
  | step {c d c' : Client n} {ch : Choice n} {q qs : List (List UInt8 × CacheEntry)}
      (h : c.act crc m ch = some { mem := m, client := d, added := q }) (tail : Runs crc m d qs c') :
      Runs crc m c (q ++ qs) c'

namespace Runs

theorem trans (h : Runs crc m c qs d) (h' : Runs crc m d qs' c') : Runs crc m c (qs ++ qs') c' := by
  induction h with
  | refl => exact h'
  | step hs _ ih => rw [List.append_assoc]; exact .step hs (ih h')

theorem cons {x : Choice n} (h : c.act crc m x = some { mem := m, client := d })
    (h' : Runs crc m d qs c') : Runs crc m c qs c' := .step h h'

variable (crc) in
/-- The words of a page one after the other, in either of the two reads. -/
theorem words (read : List NodeWord → Pc) (hread : ∀ (c : Client n) w todo, c.pc = read (w :: todo) →
      c.pending = [] → c.act crc m (.word 0) = some { mem := m, client := { c with
        page := (m.node c.target).copy w c.page, pc := read todo } })
    {todo : List NodeWord} (hpc : c.pc = read todo) (hq : c.pending = []) (hs : c.PageSeen m todo) :
    ∃ pg, Runs crc m c [] { c with page := pg, pc := read [] } ∧
      PageSeen m { c with page := pg, pc := read [] } [] := by
  induction todo generalizing c with
  | nil => exact ⟨c.page, hpc ▸ .refl c, hs.congr rfl rfl⟩
  | cons w todo ih =>
    obtain ⟨pg, hrun, hpg⟩ := ih (c := { c with page := (m.node c.target).copy w c.page, pc := read todo })
      rfl hq (hs.word (j := 0) rfl)
    exact ⟨pg, .cons (hread c w todo hpc hq) hrun, hpg⟩

variable (crc) in
/-- The rest of a page whose header declares more slots than the entry. -/
theorem typeRead (hpc : c.pc = .readNode []) (hq : c.pending = []) (hp : c.p = .node b t a)
    (hs : c.PageSeen m []) :
    ∃ pg, Runs crc m c [] { c with
        p := .node b (m.node a).hdr.type a, page := pg, pc := .nodeRead } ∧
      PageSeen m { c with p := .node b (m.node a).hdr.type a, page := pg, pc := .nodeRead } [] := by
  have htar : c.target = a := by simp [target, hp]
  have hhdr : c.page.hdr = (m.node a).hdr := htar ▸ hs.hdr
  have hgo : c.act crc m .go = some { mem := m, client := c.typeRead } := by simp [act, hpc]
  have hwith : ∀ {todo pc}, (∀ i < (m.node a).hdr.type.num, t.num ≤ i → NodeWord.slot i ∈ todo) →
      PageSeen m { c with p := .node b (m.node a).hdr.type a, pc := pc } todo := by
    intro todo pc htodo
    have hseen : PageSeen m { c with p := c.p.withType (m.node a).hdr.type, pc := pc } todo :=
      hs.withType hp htodo
    rwa [hp] at hseen
  rw [Client.typeRead, hp, hhdr, Entry.withType_node, Entry.type_node] at hgo
  split at hgo
  · obtain ⟨pg, hrun, hseen⟩ := words crc .readRest
      (c := { c with p := .node b (m.node a).hdr.type a
                     pc := .readRest (slotWords t.num (m.node a).hdr.type.num) })
      (fun c w todo hpc hq => by simp [act, hpc, pick, await, hq]) rfl hq
      (hwith fun i hi hge => mem_slotWords.mpr ⟨hge, hi⟩)
    exact ⟨pg, .cons hgo (hrun.trans (.cons (x := .go) (by simp [act]) (.refl _))),
      hseen.congr rfl rfl⟩
  · rename_i hle
    have hnum := NodeType.num_mono (not_lt.mp hle)
    exact ⟨c.page, .cons hgo (.refl _), hwith fun i hi hge => by omega⟩

variable (crc) in
theorem readNode (hpc : c.pc = .next) (hq : c.pending = []) (hp : c.p = .node b t a) :
    ∃ pg, Runs crc m c [] { c with
        p := .node b (m.node a).hdr.type a, page := pg, pc := .nodeRead } ∧
      PageSeen m { c with p := .node b (m.node a).hdr.type a, page := pg, pc := .nodeRead } [] := by
  have hnext : c.act crc m .go =
      some { mem := m, client := { c with pc := .readNode (nodeWords t) } } := by
    simp [act, hpc, Client.next, hp]
  obtain ⟨pg, hrun, hseen⟩ := words crc .readNode
    (c := { c with pc := .readNode (nodeWords t) }) (fun c w todo hpc hq => by
      simp [act, hpc, pick, await, hq]) rfl hq (fun w hw hn => absurd (by simpa [hp] using hw) hn)
  obtain ⟨pg', hrun', hseen'⟩ := typeRead crc (c := { c with page := pg, pc := .readNode [] })
    rfl hq hp hseen
  exact ⟨pg', .cons hnext (hrun.trans hrun'), hseen'⟩

variable (crc) in
theorem readLeaf (hpc : c.pc = .next) (hq : c.pending = []) (hp : c.p = .leaf b l) :
    Runs crc m c [] { c with leaf := m.leaf l, pc := .readLeaf [] } := by
  have hword : ∀ (lf : Leaf n) w todo,
      act crc m { c with leaf := lf, pc := .readLeaf (w :: todo) } (.word 0) =
      some { mem := m, client := { c with leaf := (m.leaf l).copy w lf, pc := .readLeaf todo } } := by
    intro lf w todo
    simp [act, pick, await, hq, target, hp]
  have hnext : c.act crc m .go = some { mem := m, client := { c with pc := .readLeaf leafWords } } := by
    simp [act, hpc, Client.next, hp]
  exact .cons hnext (.cons (hword _ _ _) (.cons (hword _ _ _) (.cons (hword _ _ _) (.cons (hword _ _ _)
    (.cons (hword _ _ _) (.cons (hword _ _ _) (.refl _)))))))

end Runs

def walk? (m : Mem n) (c : Client n) : Option Walk :=
  match c.pc with
  | .next => some ⟨c.pPtr, c.p, c.depth, c.fromCache⟩
  | .reread => some ⟨c.pPtr, m.load c.pPtr, c.depth, false⟩
  | _ => none

structure Did (m : Mem n) (c : Client n) (r : WalkStep n) : Prop where
  pending : c.pending = r.ops
  next : c.walk? m = r.next
  done : r.next = none → ∃ found, c.pc = .finish found

theorem did_leaf (hs : c.isSearch = true) (hpc : c.pc = .next) (hq : c.pending = [])
    (hp : c.p = .leaf b l) (hl : (m.leaf l).isConsistent crc = true)
    (hr : searchStep m c.key ⟨c.pPtr, c.p, c.depth, c.fromCache⟩ = some r) :
    ∃ c', Runs crc m c (r.calls.flatMap AddCall.filed) c' ∧ c'.Did m r := by
  have hrun := Runs.readLeaf crc (m := m) hpc hq hp
  have hgo : act crc m { c with leaf := m.leaf l, pc := .readLeaf [] } .go =
      some { mem := m, client := leafRead crc { c with leaf := m.leaf l, pc := .readLeaf [] } l } := by
    simp [act, target, hp]
  rw [searchStep, hp] at hr
  dsimp only at hr
  split at hr <;> rename_i hv <;> obtain rfl := Option.some.inj hr
  · have hgot : (leafRead crc { c with leaf := m.leaf l, pc := .readLeaf [] } l).pc = .gotLeaf := by
      simp [leafRead, hv, hl]
    have hend : ∀ d : Client n, d.pc = .gotLeaf →
        d.act crc m .go = some { mem := m, client := d.gotLeaf } :=
      fun d hd => by simp [act, hd]
    refine ⟨_, hrun.trans (.cons hgo (.cons (hend _ hgot) (.refl _))), ?_⟩
    have hsearch : (leafRead crc { c with leaf := m.leaf l, pc := .readLeaf [] } l).isSearch = true := hs
    unfold gotLeaf
    rw [if_pos hsearch]
    split <;> exact ⟨by simp [leafRead, hq, repairLeaf], rfl, fun _ => ⟨_, rfl⟩⟩
  · refine ⟨_, hrun.trans (.cons hgo (.refl _)), ?_⟩
    exact ⟨by simp [leafRead, hq, repairLeaf], by simp [walk?, leafRead, hv], by simp⟩

variable (crc) in
theorem did_scan {x : UInt8} {pg : Page} (hs : c.isSearch = true) (hpc : c.pc = .scan)
    (hp : c.p = .node b t a)
    (hx : getPartial c.key c.depth = some x) (hpg : ∀ i < t.num, c.page.slots i = pg.slots i) :
    c.act crc m .go = some { mem := m, client := c.scan a } ∧ (c.scan a).Did m {
      ops := c.pending
      next := descendTo pg a t.num (fun e => !e.isNull && e.partialKey == x) c.depth false } := by
  refine ⟨by simp [act, hpc, target, hp], ?_⟩
  have hfind : (List.range t.num).find? (fun i => !(c.page.slots i).isNull &&
      (c.page.slots i).partialKey == x) = (List.range t.num).find? fun i => !(pg.slots i).isNull &&
      (pg.slots i).partialKey == x :=
    List.find?_congr fun i hi => by rw [hpg i (List.mem_range.mp hi)]
  unfold scan descendTo
  rw [hx, hp, Entry.type_node]
  dsimp only
  rw [hfind]
  split
  · rename_i i hi
    have hlt := List.mem_range.mp (List.mem_of_find?_eq_some hi)
    simp only [hi, descend, hpg i hlt]
    exact ⟨rfl, rfl, by simp⟩
  · rename_i hi
    simp only [hi, hs]
    exact ⟨rfl, rfl, fun _ => ⟨_, rfl⟩⟩

/-- A page with the words that were read is filed as the node itself. -/
theorem addToCache_eq {k : Key n} {pg : Page} (hhdr : pg.hdr = (m.node a).hdr)
    (hslot : ∀ i < (m.node a).hdr.type.num, pg.slots i = (m.node a).slots i) :
    addToCache k pg a = AddCall.filed ⟨k, m.node a, .slot a 0⟩ := by
  have hrec : CacheEntry.ofPage pg a = .ofPage (m.node a) a := by
    simp only [CacheEntry.ofPage, hhdr, CacheEntry.mk.injEq, true_and]
    exact List.map_congr_left fun i hi => hslot i (List.mem_range.mp hi)
  simp [addToCache, AddCall.filed, hhdr, hrec]

theorem did_node (hs : c.isSearch = true) (hpc : c.pc = .next) (hq : c.pending = [])
    (hp : c.p = .node b t a)
    (hr : searchStep m c.key ⟨c.pPtr, c.p, c.depth, c.fromCache⟩ = some r) :
    ∃ c', Runs crc m c (r.calls.flatMap AddCall.filed) c' ∧ c'.Did m r := by
  obtain ⟨pg, hrun, hseen⟩ := Runs.readNode crc (m := m) hpc hq hp
  have hhdr : pg.hdr = (m.node a).hdr := hseen.hdr
  have hrev : pg.rev = (m.node a).rev := hseen.rev
  have hslot : ∀ i < (m.node a).hdr.type.num, pg.slots i = (m.node a).slots i := fun i hi => hseen.slot hi
  have hvalid : pg.isValid c.pPtr c.depth c.fromCache =
      (m.node a).isValid c.pPtr c.depth c.fromCache := by
    simp [Page.isValid, hhdr, hrev]
  have hgo : act crc m { c with p := .node b (m.node a).hdr.type a, page := pg, pc := .nodeRead } .go =
      some (nodeRead m { c with p := .node b (m.node a).hdr.type a, page := pg, pc := .nodeRead } a) := rfl
  rw [nodeRead] at hgo
  simp only [repairNode, hrev, hvalid, hhdr, checkHeader] at hgo
  rw [searchStep, hp] at hr
  simp only [SmartTree.readNode] at hr
  split at hr <;> rename_i hv
  · obtain rfl := Option.some.inj hr
    rw [if_pos hv] at hgo
    exact ⟨_, hrun.trans (.cons hgo (.refl _)), by simp [hq], rfl, by simp⟩
  rw [if_neg hv, addToCache_eq hhdr hslot] at hgo
  obtain ⟨diff, hdiff, hr⟩ := Option.bind_eq_some_iff.mp hr
  rw [hdiff] at hgo
  have hadd : (if c.depth = (m.node a).hdr.depth then AddCall.filed ⟨c.key, m.node a, .slot a 0⟩
      else []) = (if c.depth = (m.node a).hdr.depth then [⟨c.key, m.node a, .slot a 0⟩]
        else [] : List (AddCall n)).flatMap AddCall.filed := by
    split <;> simp
  cases diff with
  | some i =>
    obtain rfl := Option.some.inj hr
    dsimp only at hgo
    rw [if_pos hs] at hgo
    refine ⟨_, hadd ▸ List.append_nil _ ▸ hrun.trans (.step hgo (.refl _)), ?_⟩
    exact ⟨by simp [hq], rfl, fun _ => ⟨_, rfl⟩⟩
  | none =>
    obtain ⟨x, hx, hr⟩ := Option.bind_eq_some_iff.mp hr
    obtain rfl := Option.some.inj hr
    obtain ⟨hscan, hdid⟩ := did_scan crc (m := m)
      (c := { c with
        p := .node b (m.node a).hdr.type a, page := pg, pc := .scan
        depth := (m.node a).hdr.depth + (m.node a).hdr.partials.length
        pending := c.pending ++ _ }) hs rfl rfl hx hslot
    refine ⟨_, hadd ▸ List.append_nil _ ▸ hrun.trans (.step hgo (.cons hscan (.refl _))), ?_⟩
    exact ⟨hdid.pending.trans (by simp [hq]), hdid.next, hdid.done⟩

theorem did_round (hs : c.isSearch = true) (hpc : c.pc = .next) (hq : c.pending = [])
    (hnull : c.p = .null → c.fromCache = false)
    (hleaf : ∀ b l, c.p = .leaf b l → (m.leaf l).isConsistent crc = true)
    (hr : searchStep m c.key ⟨c.pPtr, c.p, c.depth, c.fromCache⟩ = some r) :
    ∃ c', Runs crc m c (r.calls.flatMap AddCall.filed) c' ∧ c'.Did m r := by
  cases hp : c.p with
  | null =>
    rw [searchStep, hp] at hr
    obtain rfl := Option.some.inj hr
    refine ⟨_, .cons (x := .go) (d := c.next) (by simp [act, hpc]) (.refl _), ?_⟩
    rw [Client.next, hp]
    simp only [hnull hp, hs, if_true, Bool.false_eq_true, if_false]
    exact ⟨hq, rfl, fun _ => ⟨_, rfl⟩⟩
  | leaf b l => exact did_leaf hs hpc hq hp (hleaf b l hp) hr
  | node b t a => exact did_node hs hpc hq hp hr

end Client

namespace World
variable {ι : Type*} [DecidableEq ι] [Fintype ι] {s : World ι n} {i : ι}

theorem run_of_runs (h : Client.Runs crc s.mem (s.client i) qs c') :
    ∃ as t, (treeSystem ι crc).run s as = some t ∧ (∀ x ∈ as, x.1 = i) ∧
      t.mem = s.mem ∧ t.log = s.log ++ qs ∧ t.client = Function.update s.client i c' := by
  generalize hm : s.mem = m at h
  generalize hc : s.client i = c at h
  induction h generalizing s with
  | refl c => exact ⟨[], s, rfl, by simp, hm, by simp, by simp [← hc]⟩
  | @step c d c' ch q qs hact _ ih =>
    subst hm hc
    have hnext : (treeSystem ι crc).next s (i, ch) =
        some (s.put i { mem := s.mem, client := d, added := q }) := by
      cases ch with
      | begin => cases act_step hact
      | _ => exact congrArg (Option.map (s.put i)) hact
    obtain ⟨as, t, hrun, has, hmem, hlog, hcl⟩ :=
      ih (s := s.put i { mem := s.mem, client := d, added := q }) rfl (by simp [put])
    refine ⟨(i, ch) :: as, t, by rw [System.run_cons, hnext]; exact hrun, by simpa using has, hmem, ?_, ?_⟩
    · simpa [put, List.append_assoc] using hlog
    · simpa [put] using hcl

/-- A round of `search` from the label `next` on: while the others wait, the client reads, offers to
the index cache and repairs what `searchStep` says, and goes on where it says. -/
theorem search_round (hs : (s.client i).isSearch = true) (hpc : (s.client i).pc = .next)
    (hq : (s.client i).pending = []) (hnull : (s.client i).p = .null → (s.client i).fromCache = false)
    (hleaf : ∀ b l, (s.client i).p = .leaf b l → (s.mem.leaf l).isConsistent crc = true)
    (hr : searchStep s.mem (s.client i).key
      ⟨(s.client i).pPtr, (s.client i).p, (s.client i).depth, (s.client i).fromCache⟩ = some r) :
    ∃ as t, (treeSystem ι crc).run s as = some t ∧ (∀ x ∈ as, x.1 = i) ∧ t.mem = s.mem ∧
      t.log = s.log ++ r.calls.flatMap AddCall.filed ∧ (t.client i).Did t.mem r := by
  obtain ⟨c', hrun, hdid⟩ := Client.did_round hs hpc hq hnull hleaf hr
  obtain ⟨as, t, ht, has, hmem, hlog, hcl⟩ := run_of_runs hrun
  exact ⟨as, t, ht, has, hmem, hlog, by rw [hcl, hmem, Function.update_self]; exact hdid⟩

end World
end SmartTree
