import SmartTree.Tree.Script
import SmartTree.Tree.SessionStep
import SmartTree.Tree.Smooth

/-! A lone client is never stuck: there is a step to take until it has returned, so that every
operation returns, within a number of steps linear in the length of the keys. -/
namespace SmartTree
open Transition
variable {n : ℕ} {L : Layout} {m : Mem n} {c : Client n} {crc : Key n → Value → UInt64}

def Mem.Roomy (m : Mem n) : Prop := ∃ top : ℕ, ∀ a : ℕ, top ≤ a → m.live a = false

theorem Mem.Roomy.blocks (h : m.Roomy) (k : ℕ) :
    ∃ as : List Addr, as.length = k ∧ as.Nodup ∧ ∀ a ∈ as, m.live a = false := by
  obtain ⟨top, htop⟩ := h
  refine ⟨List.range' top k, by simp, List.nodup_range', fun a ha => htop a ?_⟩
  exact (List.mem_range'_1.mp ha).1

theorem Mem.Roomy.alloc (h : m.Roomy) (as : List Addr) : (m.alloc as).Roomy := by
  obtain ⟨top, htop⟩ := h
  induction as with
  | nil => exact ⟨top, fun a ha => by simpa [Mem.alloc] using htop a ha⟩
  | cons b as ih =>
    obtain ⟨t, ht⟩ := ih
    refine ⟨max t (b + 1), fun a ha => ?_⟩
    have h1 := ht a ((Nat.le_max_left _ _).trans ha)
    have h2 : a ≠ b := Nat.ne_of_gt ((Nat.le_max_right _ _).trans ha)
    simp only [Mem.alloc, Bool.or_eq_false_iff, decide_eq_false_iff_not] at h1 ⊢
    simp [h1, h2]

theorem Mem.Roomy.of_live {m' : Mem n} (h : m.Roomy)
    (hl : ∀ a, m.live a = false → m'.live a = false) : m'.Roomy := by
  obtain ⟨top, htop⟩ := h
  exact ⟨top, fun a ha => hl a (htop a ha)⟩

theorem Step.roomy {ch : Choice n} {mv : Move n} (hs : Step crc m c ch mv) (h : m.Roomy) :
    mv.mem.Roomy := by
  cases hs with
  | leafWrite => exact (h.alloc _).of_live fun _ => id
  | splitReuse | splitFresh => exact h.alloc _
  | splitCasFailed => exact h.of_live fun a ha => by simp [Mem.free, ha]
  | leafCasDone | splitCasDone | flush => exact h.of_live fun a ha => by simpa using ha
  | splitWrite =>
    dsimp only
    split
    · exact h.of_live fun a ha => by simpa [Mem.setLeaf] using ha
    · exact h.of_live fun a ha => by simpa using ha
  | @switchEntry w =>
    unfold Switch.casEntry
    dsimp only
    split
    · exact h
    · dsimp only
      split
      · exact h.of_live fun a ha => by simpa using ha
      · exact h
  | @switchHdr w =>
    unfold Switch.casHdr
    split
    · exact h
    · exact h.of_live fun _ => id
  | lockTaken | writeWord => exact h.of_live fun _ => id
  | nodeRead => rw [Client.nodeRead_eq]; exact h
  | _ => exact h

namespace Client

theorem SiteOk.siteByte (ht : TreeInv L m) {site : Site} (h : SiteOk L m c site) :
    ∃ b, c.siteByte site = some b := by
  cases h with
  | null hσ =>
    have h1 := hσ.key.length_le
    have h2 := hσ.depth
    rw [c.key.length_bytes] at h1
    exact ⟨_, getPartial_eq (by omega)⟩
  | empty hn => exact ⟨_, hn.getPartial ht⟩
  | behind hn => exact ⟨_, hn.getPartial ht⟩

theorem act_exists (ht : TreeInv L m) (hl : Local L m c) (ha : Alone crc L m c) (hm : m.Roomy)
    (hi : c.pc ≠ .idle) (hn : c.pc ≠ .noTree) :
    ∃ ch, Choice.isPlain ch = true ∧ (c.act crc m ch).isSome = true := by
  cases hq : c.pending with
  | cons op ops => exact ⟨.flush, rfl, by simp [act, hq]⟩
  | nil =>
    have hk := hl.knows
    have hs := ha.sees
    cases hpc : c.pc with
    | idle => exact absurd hpc hi
    | noTree => exact absurd hpc hn
    | fault => simp [Knows, hpc] at hk
    | readLeaf todo =>
      cases todo with
      | nil => exact ⟨.go, rfl, by simp [act, hpc]⟩
      | cons w ws => exact ⟨.word 0, rfl, by simp [act, hpc, pick, await, hq]⟩
    | readNode todo =>
      cases todo with
      | nil => exact ⟨.go, rfl, by simp [act, hpc]⟩
      | cons w ws => exact ⟨.word 0, rfl, by simp [act, hpc, pick, await, hq]⟩
    | readRest todo =>
      cases todo with
      | nil => exact ⟨.go, rfl, by simp [act, hpc]⟩
      | cons w ws => exact ⟨.word 0, rfl, by simp [act, hpc, pick, await, hq]⟩
    | writeBack todo => cases todo <;> exact ⟨.go, rfl, by simp [act, hpc, await, hq]⟩
    | combineUpdate | combineWrite | leafPrepare => exact ⟨.combine none, rfl, by simp [act, hpc]⟩
    | leafWrite site =>
      obtain ⟨as, hlen, -, hfree⟩ := hm.blocks 1
      obtain ⟨a, rfl⟩ := List.length_eq_one_iff.mp hlen
      exact ⟨.alloc a, rfl, by simp [act, hpc, await, hq, hfree a (by simp)]⟩
    | leafCas site =>
      simp only [Knows, hpc] at hk
      simp only [Sees, hpc] at hs
      obtain ⟨b, hb⟩ := hk.siteByte ht
      obtain ⟨-, -, l, hla, -⟩ := hs
      exact ⟨.go, rfl, by simp [act, hpc, leafCas, hb, hla, await, hq]⟩
    | splitPrepare sp =>
      simp only [Sees, hpc] at hs
      obtain ⟨as, hlen, hnd, hfree⟩ := hm.blocks (sp.partialLen / (hPartialLenMax + 1) + 2)
      obtain ⟨l, nodes, rfl⟩ := List.exists_cons_of_length_eq_add_one hlen
      have hlen' : nodes.length = sp.partialLen / (hPartialLenMax + 1) + 1 := by simpa using hlen
      refine ⟨.split none (l :: nodes), rfl, ?_⟩
      simp only [act, hpc, splitPrepare, hs.2.1, if_pos (And.intro hnd hfree), if_pos hlen',
        Option.isSome_some]
    | splitWrite sp nodes unwrite =>
      refine ⟨.go, rfl, ?_⟩
      cases hp : c.pages sp nodes <;> simp [act, hpc, splitWrite, hp, await, hq]
    | _ => exact ⟨.go, rfl, by simp [act, hpc, splitCas, await, hq]⟩

end Client
namespace Session
variable {s t : Session n}

theorem roomy_of_reachable (h : (sessionSystem n crc).Reachable s) : s.mem.Roomy := by
  refine h.invariant (P := fun s => s.mem.Roomy) (fun s hi => ⟨0, fun a _ => hi.1.live a⟩)
    fun s a t _ ih _ hn => ?_
  cases next_turn hn with
  | tree hw =>
    cases World.next_takes hw with
    | start => exact ih
    | step hs => exact hs.roomy ih
  | rangeQuery | migrate | go => exact ih

/-- A step of a running operation is one of the client, and gets it on. -/
theorem next_work (h : Good crc s) (htask : s.task = .point) {ch : Choice n}
    (hch : ch.isBegin = false) (hn : (sessionSystem n crc).next s (.tree ch) = some t) :
    (Good crc t ∧ t.task = .point) ∧ t.client.work < s.client.work ∧
      (if s.client.rereads then 1 else 0) + t.client.stale ≤ s.client.stale := by
  have hg : Good crc t := by
    obtain ⟨⟨calls, t'⟩, he, rfl⟩ := Option.map_eq_some_iff.mp hn
    exact (h.effect he).1
  cases next_turn hn with
  | tree hw =>
    refine ⟨⟨hg, htask⟩, ?_⟩
    cases World.next_takes hw with
    | start => cases hch
    | step hs =>
      change ((s.world.put () _).client ()).work < _ ∧ _ + ((s.world.put () _).client ()).stale ≤ _
      rw [World.put_client_self]
      exact ⟨h.alone.step_work h.safe.tree (h.safe.client ()) hs,
        h.alone.step_stale h.safe.tree (h.safe.client ()) hs⟩

theorem next_exists (h : (sessionSystem n crc).Reachable s) (htask : s.task = .point)
    (hi : s.client.pc ≠ .idle) (hn : s.client.pc ≠ .noTree) :
    ∃ ch t, Choice.isPlain ch = true ∧ (sessionSystem n crc).next s (.tree ch) = some t := by
  have hg := good_of_reachable h
  obtain ⟨ch, hch, hact⟩ :=
    Client.act_exists hg.safe.tree (hg.safe.client ()) hg.alone (roomy_of_reachable h) hi hn
  obtain ⟨mv, hmv⟩ := Option.isSome_iff_exists.mp hact
  have hw : s.world.next crc ((), ch) = some (s.world.put () mv) := by
    cases ch with
    | begin => cases hch
    | _ => simp [World.next, hmv]
  refine ⟨ch, ⟨s.world.put () mv, s.task⟩, hch, ?_⟩
  change (s.effect crc (.tree ch)).map Prod.snd = _
  simp only [effect, htask, hw, Option.map_some]

theorem begin_work {isSearch isLoad : Bool} {k : Key n} {v : Value} {hit : Option ℕ}
    (hb : (sessionSystem n crc).next s (.tree (.begin isSearch k v isLoad hit)) = some t) :
    t.task = .point ∧ t.client.work ≤ 600 * (n + 4) + s.client.pending.length := by
  cases next_turn hb with
  | tree hw hp =>
    refine ⟨hp.resolve_right (by simp), ?_⟩
    cases World.next_takes hw with
    | start hpc hbeg =>
      change ((s.world.put () _).client ()).work ≤ 600 * (n + 4) + (s.world.client ()).pending.length
      rw [World.put_client_self]
      cases hbeg with
      | root =>
        simp only [Client.work, World.opening]
        omega
      | hit =>
        simp only [Client.work, Client.levels, Client.again, World.opening, if_true]
        omega
    | step hs => cases hs

/-- Every `insert` and every `search` of a lone client returns: whatever it does after the call,
and whenever the operations it has issued complete, it takes at most so many steps, reads an entry
again at most once, finds every lock free and every compare-and-swap to succeed, and can go on until
it has returned, or has run into the assert of `search` for an empty tree. -/
theorem operation_returns (h : (sessionSystem n crc).Reachable s) {isSearch isLoad : Bool} {k : Key n}
    {v : Value} {hit : Option ℕ} {u : Session n}
    (hb : (sessionSystem n crc).next s (.tree (.begin isSearch k v isLoad hit)) = some u)
    {as : List (Choice n)} (has : ∀ ch ∈ as, ch.isBegin = false)
    (hr : (sessionSystem n crc).run u (as.map .tree) = some t) :
    as.length ≤ 600 * (n + 4) + s.client.pending.length ∧
      ((sessionSystem n crc).trace u (as.map .tree)).countP (·.client.rereads) ≤ 1 ∧
      (∀ x ∈ (sessionSystem n crc).trace u (as.map .tree), x.client.Succeeds x.mem) ∧
      (t.client.pc = .idle ∨ t.client.pc = .noTree ∨
        ∃ ch w, Choice.isBegin ch = false ∧ (sessionSystem n crc).next t (.tree ch) = some w) := by
  have hu : (sessionSystem n crc).Reachable u := .step h trivial hb
  obtain ⟨htask, hwork⟩ := begin_work hb
  have hsteps : ∀ a ∈ as.map Request.tree, ∃ ch : Choice n, a = .tree ch ∧ ch.isBegin = false := by
    intro a ha
    obtain ⟨ch, hch, rfl⟩ := List.mem_map.mp ha
    exact ⟨ch, rfl, has ch hch⟩
  have hstep : ∀ (s : Session n) a t, (Good crc s ∧ s.task = .point) →
      (∃ ch : Choice n, a = .tree ch ∧ ch.isBegin = false) → (sessionSystem n crc).next s a = some t →
        (Good crc t ∧ t.task = .point) ∧ t.client.work < s.client.work ∧
          (if s.client.rereads then 1 else 0) + t.client.stale ≤ s.client.stale := by
    rintro s a t ⟨hg, ht⟩ ⟨ch, rfl, hch⟩ hn
    exact next_work hg ht hch hn
  have hlen := System.run_length_le (r := fun s : Session n => s.client.work)
    (fun s a t hs ha hn => ⟨(hstep s a t hs ha hn).1, (hstep s a t hs ha hn).2.1⟩)
    ⟨good_of_reachable hu, htask⟩ hsteps hr
  obtain ⟨⟨-, htask'⟩, hall, hcount⟩ := System.run_countP_le (r := fun s : Session n => s.client.stale)
    (p := fun s => s.client.rereads)
    (fun s a t hs ha hn => ⟨(hstep s a t hs ha hn).1, (hstep s a t hs ha hn).2.2⟩)
    ⟨good_of_reachable hu, htask⟩ hsteps hr
  have hone : u.client.stale ≤ 1 := by
    unfold Client.stale
    split <;> simp
  refine ⟨by rw [List.length_map] at hlen; omega, by omega,
    fun x hx => (hall x hx).1.alone.succeeds ((hall x hx).1.safe.client ()), ?_⟩
  by_cases hi : t.client.pc = .idle
  · exact .inl hi
  · by_cases hn : t.client.pc = .noTree
    · exact .inr (.inl hn)
    · obtain ⟨ch, w, hch, hw⟩ := next_exists (hu.run hr) htask' hi hn
      exact .inr (.inr ⟨ch, w, Choice.isBegin_of_isPlain hch, hw⟩)

/-- Inserts that leave the cache with an outdated page: the last one splits a leaf below it. -/
def outdating : List (Request 4) :=
  let keys : List (Key 4) := [.ofList [2, 0, 0, 0], .ofList [1, 2, 0, 0], .ofList [1, 2, 3, 0],
    .ofList [1, 2, 0, 5]]
  (World.script (fun _ _ => 0) (keys.flatMap (World.inserts ())) (.empty Unit 4)).map
    fun a => .tree a.2

def fromOutdated : Choice 4 := .begin false (.ofList [1, 2, 0, 7]) 9 false (some 0)

def alone (s : Session n) : List (Choice n) := (World.drive (fun _ _ => 0) () 100 s.world).map Prod.snd

theorem insert_from_outdated_returns : ∃ s u t, (sessionSystem 4 fun _ _ => 0).run (empty 4) outdating =
      some s ∧ (sessionSystem 4 fun _ _ => 0).next s (.tree fromOutdated) = some u ∧
    (sessionSystem 4 fun _ _ => 0).run u (u.alone.map .tree) = some t ∧ t.client.pc = .idle ∧
    u.alone.length ≤ 4800 + s.client.pending.length ∧
    ((sessionSystem 4 fun _ _ => 0).trace u (u.alone.map .tree)).countP (·.client.rereads) = 1 ∧
    ∀ x ∈ (sessionSystem 4 fun _ _ => 0).trace u (u.alone.map .tree), x.client.Succeeds x.mem := by
  obtain ⟨s, hs, u, hu, hone, t, ht, hidle⟩ :
      (sessionSystem 4 fun _ _ => 0).Ends (empty 4) outdating fun s =>
        (sessionSystem 4 fun _ _ => 0).Ends s [.tree fromOutdated] fun u =>
          ((sessionSystem 4 fun _ _ => 0).trace u (u.alone.map .tree)).countP
              (·.client.rereads) = 1 ∧
          (sessionSystem 4 fun _ _ => 0).Ends u (u.alone.map .tree) fun t =>
            t.client.pc.isIdle = true := by
    decide +kernel
  rw [System.run_cons] at hu
  obtain ⟨u', hu, hend⟩ := Option.bind_eq_some_iff.mp hu
  cases hend
  have hbegin : ∀ ch ∈ u.alone, ch.isBegin = false := by
    intro ch hch
    obtain ⟨a, ha, rfl⟩ := List.mem_map.mp hch
    exact World.isBegin_of_mem_drive ha
  obtain ⟨hlen, -, hall, -⟩ := operation_returns (System.Reachable.run
    (.init ⟨World.empty_initial, rfl⟩) hs) hu hbegin ht
  exact ⟨s, u, t, hs, hu, ht, Pc.isIdle_iff.mp hidle, hlen, hone, hall⟩

end Session
end SmartTree
