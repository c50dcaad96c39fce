import SmartTree.Tree.Alone
import SmartTree.Tree.Session
import SmartTree.Tree.TaskStep

/-! Whatever a lone client adds to the index cache is filed under the bytes that lead from
the root to the node, whichever of the call sites adds it. -/
namespace SmartTree
open Transition
variable {n : ℕ} {L : Layout} {m : Mem n} {c : Client n} {crc : Key n → Value → UInt64}

def NodePath (m : Mem n) (a : Addr) (π : List UInt8) : Prop :=
  ∃ σ b t, Spells m σ (.node b t a) ∧
    π = σ.take ((m.node a).hdr.depth - 1) ++ (m.node a).hdr.partials

/-- A call with the header of a node, the address of its slot 0 and a key that begins with the
bytes above the header. -/
def AddCall.Filed (m : Mem n) (q : AddCall n) : Prop :=
  ∃ a, q.addr = .slot a 0 ∧ q.page.hdr = (m.node a).hdr ∧ NodePath m a (cachePath q.key q.page.hdr)

namespace CallOk
variable {q : AddCall n} {a : Addr} {π : List UInt8}

theorem filed (h : CallOk L m q a π) (ht : TreeInv L m) : q.Filed m := by
  refine ⟨a, h.addr, h.hdr, ?_⟩
  rw [h.path]
  obtain ⟨ptr, σ, hs, hl⟩ := ht.parent a (by simp [h.layout])
  obtain ⟨b, t, he⟩ := ht.load_node hs hl h.layout
  obtain ⟨π', hπ', hpre⟩ := ht.node_of_load hs he
  cases h.layout.symm.trans hπ'
  refine ⟨σ, b, t, he ▸ ht.spells_of_slot hs, ?_⟩
  exact ((ht.node a π h.layout).hdr.take_append hpre (ht.attached a π h.layout ptr σ hs hl)).symm

theorem logOk (h : CallOk L m q a π) (ht : TreeInv L m) : ∀ x ∈ q.filed, LogOk L m x := by
  obtain ⟨k, pg, addr⟩ := q
  obtain ⟨rfl, ha, hh, hs, hπ⟩ := h
  have hn := ht.node a π ha
  have hhp : HdrPath π pg.hdr := hh ▸ hn.hdr
  have hle := hhp.le
  have hshort := hn.short
  refine Client.addToCache_logOk ha hhp ⟨_, hπ⟩ (fun i hi => ?_) (show pg.hdr.depth - 1 ≤ n by omega)
  rw [show pg.slots i = m.load (.slot a i) from hs i hi]
  exact .of_load ht ha

end CallOk

/-- The calls of `insert` and `search`: the page just read, and the pages of a split. -/
theorem Client.calls_ok (ht : TreeInv L m) (hl : Local L m c) (ha : Alone crc L m c)
    {ch : Choice n} : ∀ q ∈ c.calls ch, ∃ a π, CallOk L m q a π := by
  intro q hq
  have hk := hl.knows
  have hs := ha.sees
  cases ch with
  | go =>
    simp only [calls] at hq
    cases hpc : c.pc <;> simp only [hpc] at hq <;> try cases hq
    case nodeRead =>
      simp only [Knows, hpc] at hk
      simp only [Sees, hpc] at hs
      obtain ⟨⟨σ, hσ⟩, b, a, π, hp, hL, -⟩ := hk
      obtain ⟨-, -, hseen⟩ := hs
      have htar : c.target = a := by simp [target, hp]
      split at hq
      · rename_i hv
        obtain rfl := List.mem_singleton.mp hq
        have hhdr := hseen.hdr
        rw [htar] at hhdr
        obtain ⟨π', hL', hpre⟩ : ∃ π', L a = some (.node π') ∧ σ <+: π' := by
          have he := hσ.entry
          rw [hp] at he
          cases he with | node h1 h2 => exact ⟨_, h1, h2⟩
        cases hL.symm.trans hL'
        refine ⟨a, π, by rw [htar], hL, hhdr, fun j hj => ?_, ?_⟩
        · rw [← htar]
          exact hseen.slot (by rw [hp]; exact hj)
        · exact (hhdr ▸ (ht.node a π hL).hdr : HdrPath π c.page.hdr).cachePath_eq hσ.key hpre
            (by rw [← hv.2, hσ.depth])
      · cases hq
    case splitRev sp nodes =>
      simp only [Sees, hpc] at hs
      obtain ⟨p, hp, rfl⟩ := List.mem_map.mp hq
      cases hpg : c.pages sp nodes with
      | none => simp [hpg] at hp
      | some pages =>
        rw [hpg, Option.getD_some] at hp
        obtain ⟨h1, h2, h3⟩ := hs.2 pages hpg p hp
        exact ⟨p.1, _, rfl, h1, h2.symm, fun j _ => congrFun h3.symm j, rfl⟩
  | _ => cases hq

theorem Step.added_eq {ch : Choice n} {mv : Move n} (h : Step crc m c ch mv) :
    mv.added = (c.calls ch).flatMap AddCall.filed := by
  cases h with
  | nodeRead hpc =>
    simp only [Client.calls, hpc, Client.nodeRead]
    by_cases hv : c.page.isValid c.pPtr c.depth c.fromCache = true
    · by_cases hd : c.depth = c.page.hdr.depth
      · rw [hd] at hv
        simp [hv, hd, AddCall.filed, Client.addToCache]
      · simp [hv, hd]
    · simp [hv]
  | splitRev hpc =>
    simp only [Client.calls, hpc, Client.splitRev, List.flatMap_map]
    rfl
  | flush => rfl
  | _ hpc => first | rfl | simp [Client.calls, hpc]

namespace Session

def TaskOk (s : Session n) : Prop :=
  match s.task with
  | .point => True
  | .entries fromKey _ _ w => s.client.pc = .idle ∧ ∃ σ, WalkOk s.world.layout s.mem fromKey w σ
  | .range _ _ st => s.client.pc = .idle ∧
      ∀ c ∈ st.survivors, ∃ σ, CtxOk s.world.layout s.mem c σ
  | .migrate k w => s.client.pc = .idle ∧ MigrateOk s.world.layout s.mem k w

structure Good (crc : Key n → Value → UInt64) (s : Session n) : Prop where
  safe : s.world.Safe
  alone : Alone crc s.world.layout s.mem s.client
  task : s.TaskOk

/-- What a step shows: calls for nodes of the tree, and a log that grows by them. -/
structure Shows (s : Session n) (qs : List (AddCall n)) (t : Session n) : Prop where
  calls : ∀ q ∈ qs, ∃ a π, CallOk s.world.layout s.mem q a π
  log : t.world.log = s.world.log ++ qs.flatMap AddCall.filed

variable {s t : Session n} {calls : List (AddCall n)}

theorem Good.exact (h : Good crc s) (hpc : s.client.pc = .idle) (hq : s.client.pending = []) :
    Exact crc s.world.layout s.mem :=
  h.alone.exact (by simp [hpc, Pc.owes]) hq

/-- A step of `insert` or `search`, or the completion of an issued operation. -/
theorem Good.next (h : Good crc s) {ch : Choice n} {w : World Unit n}
    (hn : s.world.next crc ((), ch) = some w) :
    (w.Safe ∧ Alone crc w.layout w.mem (w.client ())) ∧ s.Shows (s.client.calls ch) ⟨w, s.task⟩ := by
  have ht := World.next_takes hn
  have hs := (h.safe.takes ht).1
  have hcalls : ∀ q ∈ s.client.calls ch, ∃ a π, CallOk s.world.layout s.mem q a π :=
    s.client.calls_ok h.safe.tree (h.safe.client ()) h.alone
  cases ht with
  | start hpc hb =>
    refine ⟨⟨hs, ?_⟩, hcalls, rfl⟩
    rw [World.put_client_self]
    exact h.alone.begins (c := s.world.opening () _ _ _ _) hpc rfl rfl h.safe.log hb
  | step hst =>
    refine ⟨⟨hs, ?_⟩, hcalls, ?_⟩
    · rw [World.put_client_self]
      exact h.alone.step h.safe.tree (h.safe.client ()) hst
    · change s.world.log ++ _ = _
      rw [hst.added_eq]

theorem TaskOk.carry (h : s.TaskOk) (htask : t.task = s.task) (hpc : t.client.pc = s.client.pc)
    (hx : Extends s.world.layout s.mem t.world.layout t.mem)
    (hload : ∀ ptr, t.mem.load ptr = s.mem.load ptr) : t.TaskOk := by
  unfold TaskOk at h ⊢
  rw [htask, hpc]
  cases hk : s.task <;> simp only [hk] at h ⊢
  case entries =>
    obtain ⟨hidle, σ, hw⟩ := h
    exact ⟨hidle, σ, hw.carry hx hload⟩
  case range =>
    refine ⟨h.1, fun c hc => ?_⟩
    obtain ⟨σ, hσ⟩ := h.2 c hc
    exact ⟨σ, hσ.carry hx hload⟩
  case migrate => exact ⟨h.1, h.2.carry hx hload⟩

theorem Good.issue (h : Good crc s) (hc : ∀ q ∈ calls, ∃ a π, CallOk s.world.layout s.mem q a π)
    {task : Task n} (ht : TaskOk ⟨s.world, task⟩) :
    Good crc (s.issue [] calls task) ∧ s.Shows calls (s.issue [] calls task) := by
  have hself : { s.client with pending := s.client.pending ++ [] } = s.client := by
    rw [List.append_nil]
  have hclient : (s.issue [] calls task).client = s.client := by
    change (s.world.put () _).client () = _
    rw [World.put_client_self, hself]
  refine ⟨⟨h.safe.put ⟨h.safe.tree, .refl _ _, ?_, ?_, fun a ha _ _ => ⟨.refl _ a, ha⟩, ?_⟩, ?_, ?_⟩,
    hc, rfl⟩
  · rw [hself]
    exact h.safe.client ()
  · intro x hx
    obtain ⟨q, hq, hx⟩ := List.mem_flatMap.mp hx
    obtain ⟨a, π, hok⟩ := hc q hq
    exact hok.logOk h.safe.tree x hx
  · rw [hself]
    exact fun a ha => .inl ha
  · rw [hclient]
    exact h.alone
  · unfold TaskOk at ht ⊢
    rw [hclient]
    exact ht

theorem Good.advance (h : Good crc s) {old : ℕ → Page} (hq : s.client.pending = [])
    (hs : s.advance crc old = some (calls, t)) : Good crc t ∧ s.Shows calls t := by
  have hk := h.task
  unfold TaskOk at hk
  unfold Session.advance at hs
  cases htask : s.task <;> simp only [htask] at hs hk
  case point => cases hs
  case entries lo hi target w =>
    obtain ⟨hpc, σ, hw⟩ := hk
    obtain ⟨r, hr, he⟩ := Option.map_eq_some_iff.mp hs
    obtain ⟨rfl, rfl⟩ := Prod.mk.inj he
    obtain ⟨h1, h2, h3, h4⟩ := searchEntries_ok h.safe.tree (h.exact hpc hq).linked hw hr
    rw [h1]
    refine h.issue h2 ?_
    cases hn : r.next with
    | none => exact ⟨hpc, h3⟩
    | some w' => exact ⟨hpc, h4 w' hn⟩
  case range lo hi st =>
    obtain ⟨hpc, hst⟩ := hk
    split at hs
    · obtain ⟨rfl, rfl⟩ := Prod.mk.inj (Option.some.inj hs)
      exact h.issue (by simp) trivial
    · obtain ⟨r, hr, he⟩ := Option.map_eq_some_iff.mp hs
      obtain ⟨rfl, rfl⟩ := Prod.mk.inj he
      obtain ⟨h1, h2⟩ := rangeLevel_ok h.safe.tree (h.exact hpc hq).linked hst hr
      exact h.issue h1 ⟨hpc, h2⟩
  case migrate k w =>
    obtain ⟨hpc, hw⟩ := hk
    obtain ⟨r, hr, he⟩ := Option.map_eq_some_iff.mp hs
    obtain ⟨rfl, rfl⟩ := Prod.mk.inj he
    obtain ⟨h1, h2, h3⟩ := migrateStep_ok h.safe.tree (h.exact hpc hq).linked hw hr
    rw [h1]
    refine h.issue h2 ?_
    cases hn : r.next with
    | none => trivial
    | some w' => exact ⟨hpc, h3 w' hn⟩

theorem startWalk_ok (h : s.world.Safe) {k : Key n} {hit : Option ℕ} {w : Walk}
    (hw : s.startWalk k hit = some w) : ∃ σ, WalkOk s.world.layout s.mem k w σ := by
  unfold startWalk at hw
  dsimp only at hw
  split at hw
  · cases hw
    exact Walk.start_ok h.tree h.log hit
  · cases hw

theorem startRange_ok (h : s.world.Safe) (hpc : s.client.pc = .idle) {lo hi : Key n}
    {hits : Key n → Option ℕ} {hit : Option ℕ} {task : Task n}
    (ht : s.startRange lo hi hits hit = some task) : TaskOk ⟨s.world, task⟩ := by
  unfold startRange at ht
  split at ht
  · cases ht; trivial
  · dsimp only at ht
    split at ht
    · obtain ⟨target, -, ht⟩ := Option.bind_eq_some_iff.mp ht
      obtain ⟨w, hw, ht⟩ := Option.bind_eq_some_iff.mp ht
      cases ht
      exact ⟨hpc, startWalk_ok h hw⟩
    · cases ht
      refine ⟨hpc, fun c hc => ?_⟩
      obtain ⟨rc, hrc, rfl⟩ := List.mem_map.mp hc
      exact rangeCacheLoop_ok h.log (Key.le_iff.mpr le_rfl) hrc

theorem Good.effect (h : Good crc s) {a : Request n} (hs : s.effect crc a = some (calls, t)) :
    Good crc t ∧ s.Shows calls t := by
  have hstay : ∀ {task}, TaskOk ⟨s.world, task⟩ →
      Good crc ⟨s.world, task⟩ ∧ s.Shows [] ⟨s.world, task⟩ :=
    fun htask => ⟨⟨h.safe, h.alone, htask⟩, by simp, by simp⟩
  cases a with
  | tree ch =>
    simp only [Session.effect] at hs
    split at hs
    · rename_i htask
      obtain ⟨w, hw, he⟩ := Option.map_eq_some_iff.mp hs
      obtain ⟨rfl, rfl⟩ := Prod.mk.inj he
      obtain ⟨⟨h1, h2⟩, h3⟩ := h.next hw
      exact ⟨⟨h1, h2, by simp [TaskOk, htask]⟩, h3⟩
    · obtain ⟨w, hw, he⟩ := Option.map_eq_some_iff.mp hs
      obtain ⟨rfl, rfl⟩ := Prod.mk.inj he
      obtain ⟨⟨h1, h2⟩, h3⟩ := h.next hw
      refine ⟨⟨h1, h2, ?_⟩, h3⟩
      have ht := World.next_takes hw
      have hx := (h.safe.takes ht).2
      cases ht with
      | step hst =>
        cases hst with
        | flush hq => exact h.task.carry rfl (by simp [client]) hx (by simp [mem])
    · cases hs
  | rangeQuery lo hi hits hit =>
    simp only [Session.effect] at hs
    split at hs
    · rename_i hpc
      obtain ⟨task, ht, he⟩ := Option.map_eq_some_iff.mp hs
      obtain ⟨rfl, rfl⟩ := Prod.mk.inj he
      exact hstay (startRange_ok h.safe hpc ht)
    · cases hs
  | migrate k hit =>
    simp only [Session.effect] at hs
    split at hs
    · rename_i hpc
      obtain ⟨w, hw, he⟩ := Option.map_eq_some_iff.mp hs
      obtain ⟨rfl, rfl⟩ := Prod.mk.inj he
      obtain ⟨σ, hσ⟩ := startWalk_ok h.safe hw
      exact hstay ⟨hpc, hσ.migrate⟩
    · cases hs
  | go old =>
    simp only [Session.effect] at hs
    split at hs
    · rename_i hq
      exact h.advance (by simpa using hq) hs
    · cases hs

theorem good_of_reachable (h : (sessionSystem n crc).Reachable s) : Good crc s := by
  refine h.invariant (P := Good crc) (fun s hi => ?_) fun s a t _ ih _ hn => ?_
  · obtain ⟨hi, htask⟩ := hi
    refine ⟨hi.safe, .of_exact ?_ (hi.pending ()) ⟨⟨?_, ?_, ?_⟩, ?_⟩ ?_, by simp [TaskOk, htask]⟩
    · simp [hi.idle (), Pc.owes]
    · intro ptr σ b t a hs hl
      cases hs with
      | root => cases hi.root.symm.trans hl
      | slot ha => simp [hi.layout] at ha
    · intro ptr σ b l hs hl
      cases hs with
      | root => cases hi.root.symm.trans hl
      | slot ha => simp [hi.layout] at ha
    · intro l hl
      simp [hi.layout] at hl
    · intro a π i ha
      simp [hi.layout] at ha
    · simp [Client.Sees, hi.idle ()]
  · obtain ⟨⟨calls, t'⟩, he, rfl⟩ := Option.map_eq_some_iff.mp hn
    exact (ih.effect he).1

/-- In every run of inserts, searches, range queries and migrations by one client, every call of
`add_to_cache` has a key and a header that spell the path from the root to the node whose slot
0 it names, and the calls are what the cache files. -/
theorem filed_of_reachable (h : (sessionSystem n crc).Reachable s) {a : Request n}
    (hs : s.effect crc a = some (calls, t)) :
    (∀ q ∈ calls, q.Filed s.mem) ∧ t.world.log = s.world.log ++ calls.flatMap AddCall.filed := by
  have hg := good_of_reachable h
  obtain ⟨hc, hlog⟩ := (hg.effect hs).2
  refine ⟨fun q hq => ?_, hlog⟩
  obtain ⟨x, π, hok⟩ := hc q hq
  exact hok.filed hg.safe.tree

def empty (n : ℕ) : Session n := ⟨.empty Unit n, .point⟩

theorem empty_reachable : (sessionSystem n crc).Reachable (empty n) :=
  .init ⟨⟨rfl, fun _ _ => rfl, fun _ => rfl, fun _ => rfl, fun _ => rfl, rfl, fun _ => rfl, rfl⟩, rfl⟩

def zeroPages : ℕ → Page := fun _ => ⟨.root, ⟨0, .deleted, []⟩, fun _ => .null⟩

/-- Two inserts that split a leaf over two nodes, and a range query down to the lower one. -/
def queryRun : List (Request 8) :=
  ([.begin false (int2key 8 0x0102) 1 false none, .go, .go, .combine none, .alloc 0, .go, .go,
    .begin false (int2key 8 0x0103) 2 false none, .go, .go, .word 0, .word 0, .word 0, .word 0,
    .word 0, .word 0, .go, .go, .split none [2, 3, 4], .go, .go, .go, .flush, .go].map .tree) ++
  [.rangeQuery (int2key 8 0x0100) (int2key 8 0x0200) (fun _ => none) none, .go zeroPages,
    .go zeroPages]

theorem filed_after_query :
    ∃ s t q, (sessionSystem 8 fun _ _ => 0).run (empty 8) queryRun = some s ∧
      s.effect (fun _ _ => 0) (.go zeroPages) = some ([q], t) ∧ q.addr = .slot 4 0 ∧
      q.Filed s.mem := by
  obtain ⟨s, hs, he⟩ : (sessionSystem 8 fun _ _ => 0).Ends (empty 8) queryRun fun s =>
      ((s.effect (fun _ _ => 0) (.go zeroPages)).map fun r => r.1.map AddCall.addr) =
        some [.slot 4 0] := by decide +kernel
  obtain ⟨⟨calls, t⟩, hr, hc⟩ := Option.map_eq_some_iff.mp he
  obtain ⟨q, rfl, hq⟩ := List.map_eq_singleton_iff.mp hc
  refine ⟨s, t, q, hs, hr, hq, ?_⟩
  exact (filed_of_reachable (empty_reachable.run hs) hr).1 q (List.mem_singleton.mpr rfl)

end Session
end SmartTree
