import SmartTree.Tree.LoneMap
import SmartTree.Tree.Progress

/-! The calls of one client, one after the other: after any inserts the next call returns within a
bounded number of steps, and a search with the value last inserted for its key. -/
namespace SmartTree
open Transition MapMachine
variable {n : ℕ} {crc : Key n → Value → UInt64} {xs : List (Key n × Value)}
  {op : MapOp (Key n) Value}

/-- What a client has seen once these inserts have returned, the latest first. -/
def insertEvents : List (Key n × Value) → List (MapEvent (Key n) Value)
  | [] => []
  | (k, v) :: xs => .ret none :: .call (.insert false k v) :: insertEvents xs

theorem run_insertEvents (xs : List (Key n × Value)) :
    (machine (Key n) Value).run ⟨fun _ => none, none⟩ (insertEvents xs).reverse =
      some ⟨fun k => xs.lookup k, none⟩ := by
  induction xs with
  | nil => rfl
  | cons x xs ih =>
    obtain ⟨k, v⟩ := x
    have hput : put (fun k => xs.lookup k) false k v = fun k' => ((k, v) :: xs).lookup k' := by
      funext k'
      by_cases hk : k' = k
      · simp [put, hk]
      · have hbeq : (k' == k) = false := by simpa using hk
        simp [put, hk, List.lookup_cons, hbeq]
    rw [insertEvents, List.reverse_cons, List.reverse_cons, List.append_assoc, System.run_append, ih]
    rw [← hput]
    rfl

def answer (xs : List (Key n × Value)) : MapOp (Key n) Value → Option Value
  | .search k => xs.lookup k
  | .insert .. => none

theorem run_call : (machine (Key n) Value).run ⟨fun _ => none, none⟩
    (.call op :: insertEvents xs).reverse = some ⟨fun k => xs.lookup k, some op⟩ := by
  rw [List.reverse_cons, System.run_append, run_insertEvents]
  rfl

theorem run_ret {found : Option Value} {x : MapState (Key n) Value}
    (hr : (machine (Key n) Value).run ⟨fun _ => none, none⟩
      (.ret found :: .call op :: insertEvents xs).reverse = some x) :
    found = answer xs op ∧ x.running = none := by
  rw [List.reverse_cons, System.run_append, run_call] at hr
  obtain ⟨y, hy, hx⟩ : ∃ y, (machine (Key n) Value).next ⟨fun k => xs.lookup k, some op⟩
      (.ret found) = some y ∧ some y = some x := Option.bind_eq_some_iff.mp hr
  cases hx
  cases op with
  | search k =>
    change (if found = xs.lookup k then _ else none) = some x at hy
    split at hy
    · rename_i hf
      cases hy
      exact ⟨hf, rfl⟩
    · cases hy
  | insert keep k v =>
    cases found with
    | none =>
      cases hy
      exact ⟨rfl, rfl⟩
    | some w => cases hy

theorem run_ret_ret {f f' : Option Value} : (machine (Key n) Value).run ⟨fun _ => none, none⟩
    (.ret f' :: .ret f :: .call op :: insertEvents xs).reverse = none := by
  rw [List.reverse_cons, System.run_append]
  cases hr : (machine (Key n) Value).run ⟨fun _ => none, none⟩
      (.ret f :: .call op :: insertEvents xs).reverse with
  | none => rfl
  | some x =>
    obtain ⟨M, running⟩ := x
    obtain ⟨-, rfl⟩ := run_ret hr
    rfl

theorem Client.mapEvent_plain (c : Client n) {ch : Choice n} (h : ch.isPlain = true) :
    c.mapEvent ch = none ∨ ∃ found, c.mapEvent ch = some (.ret found) := by
  cases ch with
  | begin => cases h
  | go =>
    dsimp only [mapEvent]
    split
    · exact .inr ⟨_, rfl⟩
    · exact .inl rfl
  | combine v | split v =>
    cases v with
    | none => exact .inl rfl
    | some w => cases h
  | word | alloc | flush => exact .inl rfl

namespace Session
variable {p q : Session n × List (MapEvent (Key n) Value)}

/-- A call is on its way after these inserts, or has returned with its answer. -/
structure Called (crc : Key n → Value → UInt64) (xs : List (Key n × Value)) (op : MapOp (Key n) Value)
    (p : Session n × List (MapEvent (Key n) Value)) : Prop where
  reachable : ((sessionSystem n crc).logged mapEvent).Reachable p
  task : p.1.task = .point
  log : p.2 = .call op :: insertEvents xs ∨ p.2 = .ret (answer xs op) :: .call op :: insertEvents xs

theorem Called.session (h : Called crc xs op p) : (sessionSystem n crc).Reachable p.1 :=
  System.Reach.of_logged (G := fun _ _ => True) h.reachable

theorem Called.next (h : Called crc xs op p) {ch : Choice n} (hch : ch.isPlain = true)
    (hn : ((sessionSystem n crc).logged mapEvent).next p (.tree ch) = some q) :
    Called crc xs op q ∧ q.1.client.work < p.1.client.work := by
  have hq : ((sessionSystem n crc).logged mapEvent).Reachable q := .step h.reachable trivial hn
  obtain ⟨hnext, hlog⟩ := System.logged_next hn
  obtain ⟨⟨-, htask⟩, hwork, -⟩ :=
    next_work (good_of_reachable h.session) h.task (Choice.isBegin_of_isPlain hch) hnext
  refine ⟨⟨hq, htask, ?_⟩, hwork⟩
  obtain he | ⟨found, he⟩ := p.1.client.mapEvent_plain hch
  · have : q.2 = p.2 := by rw [hlog, mapEvent, he]; rfl
    rw [this]
    exact h.log
  · obtain ⟨_, x, rfl, hr, -⟩ := refines_map.shown hq
    have hq2 : q.2 = .ret found :: p.2 := by rw [hlog, mapEvent, he]; rfl
    rw [hq2] at hr ⊢
    obtain hp | hp := h.log
    · rw [hp] at hr ⊢
      rw [(run_ret hr).1]
      exact .inr rfl
    · rw [hp, run_ret_ret] at hr
      cases hr

theorem Called.pc (h : Called crc xs op p) (hne : ∀ k, op = .search k → xs ≠ []) :
    p.1.client.pc ≠ .fault ∧ p.1.client.pc ≠ .noTree ∧
      (p.1.client.pc = .idle → p.2 = .ret (answer xs op) :: .call op :: insertEvents xs) := by
  obtain ⟨_, x, rfl, hr, hg, hm⟩ := refines_map.shown h.reachable
  refine ⟨fun hpc => ?_, fun hpc => ?_, fun hpc => ?_⟩
  · have hk := (hg.safe.client ()).knows
    simp [Client.Knows, hpc] at hk
  · have hrun := hm.running
    have hnone := hm.replies
    simp only [Client.op, Client.call, Client.Replies, hpc] at hrun hnone
    rw [hnone.1, if_pos rfl] at hrun
    obtain hlog | hlog := h.log
    · rw [hlog, run_call] at hr
      cases hr
      obtain ⟨y, ys, rfl⟩ := List.exists_cons_of_ne_nil (hne _ (Option.some.inj hrun))
      have := hnone.2 y.1
      simp at this
    · rw [hlog] at hr
      rw [(run_ret hr).2] at hrun
      cases hrun
  · refine h.log.resolve_left fun hlog => ?_
    have hrun := hm.running
    rw [hlog, run_call] at hr
    cases hr
    simp [Client.op, hpc] at hrun

/-- A call of a lone client after these inserts, from the root or from any page it ever cached: it
takes at most so many steps, can go on until it has returned, and meets no failing assert; a search
returns the value of the last insert of its key, or that there is none. -/
theorem calls_answer (h : ((sessionSystem n crc).logged mapEvent).Reachable p)
    (hp : p.2 = insertEvents xs) {isSearch : Bool} (hne : isSearch = true → xs ≠ []) {k : Key n}
    {v : Value} {hit : Option ℕ} {as : List (Choice n)} (has : ∀ ch ∈ as, ch.isPlain = true)
    (hr : ((sessionSystem n crc).logged mapEvent).run p
      (.tree (.begin isSearch k v false hit) :: as.map .tree) = some q) :
    as.length ≤ 600 * (n + 4) + p.1.client.pending.length ∧
      q.1.client.pc ≠ .fault ∧ q.1.client.pc ≠ .noTree ∧
      (q.1.client.pc ≠ .idle → ∃ ch t, Choice.isPlain ch = true ∧
        ((sessionSystem n crc).logged mapEvent).next q (.tree ch) = some t) ∧
      (q.1.client.pc = .idle → q.2 = if isSearch then
          .ret (xs.lookup k) :: .call (.search k) :: insertEvents xs
        else insertEvents ((k, v) :: xs)) := by
  rw [System.run_cons] at hr
  obtain ⟨u, hb, hr⟩ := Option.bind_eq_some_iff.mp hr
  obtain ⟨hnext, hlog⟩ := System.logged_next hb
  obtain ⟨htask, hwork⟩ := begin_work hnext
  have hcalled : Called crc xs (if isSearch then .search k else .insert false k v) u :=
    ⟨.step h trivial hb, htask, .inl (by rw [hlog, hp]; rfl)⟩
  obtain ⟨hq, -, hle⟩ := System.run_countP_le (r := fun p => p.1.client.work) (p := fun _ => true)
    (G := fun a => ∃ ch : Choice n, a = .tree ch ∧ ch.isPlain = true)
    (fun p a t h ha hn => by
      obtain ⟨ch, rfl, hch⟩ := ha
      have := h.next hch hn
      exact ⟨this.1, by simp only [if_true]; omega⟩) hcalled
    (by
      intro a ha
      obtain ⟨ch, hch, rfl⟩ := List.mem_map.mp ha
      exact ⟨ch, rfl, has ch hch⟩) hr
  rw [List.countP_true, System.length_trace hr, List.length_map] at hle
  obtain ⟨hfault, htree, hidle⟩ := hq.pc (by
    intro k' hk
    cases isSearch with
    | true => exact hne rfl
    | false => cases hk)
  refine ⟨by omega, hfault, htree, fun hpc => ?_, fun hpc => ?_⟩
  · obtain ⟨ch, t, hch, hn⟩ := next_exists hq.session hq.task hpc htree
    refine ⟨ch, (t, (mapEvent q.1 (.tree ch)).toList ++ q.2), hch, ?_⟩
    change ((sessionSystem n crc).next q.1 (.tree ch)).map _ = _
    rw [hn]
    rfl
  · rw [hidle hpc]
    cases isSearch <;> rfl

/-- Two keys below one node and the second one again, the latest first. -/
def inserted : List (Key 2 × Value) :=
  [(.ofList [1, 2], 9), (.ofList [1, 2], 4), (.ofList [1, 0], 3), (.ofList [2, 0], 1)]

def inserting : List (Request 2) :=
  (World.script (fun _ _ => 0) (inserted.reverse.flatMap fun x =>
    [((), .inl (.begin false x.1 x.2 false none)), ((), .inr 100)]) (.empty Unit 2)).map
      fun a => .tree a.2

def lookCached : Choice 2 := .begin true (.ofList [1, 2]) 0 false (some 0)

def looking (s : Session 2) : List (Choice 2) :=
  (s.world.next (fun _ _ => 0) ((), lookCached)).elim [] fun w =>
    (World.drive (fun _ _ => 0) () 100 w).map Prod.snd

theorem last_insert_answered : ∃ p q, ((sessionSystem 2 fun _ _ => 0).logged mapEvent).run
      (empty 2, []) inserting = some p ∧ p.2 = insertEvents inserted ∧
    ((sessionSystem 2 fun _ _ => 0).logged mapEvent).run p
      (.tree lookCached :: p.1.looking.map .tree) = some q ∧ q.1.client.pc = .idle ∧
    q.2 = .ret (some 9) :: .call (.search (.ofList [1, 2])) :: insertEvents inserted := by
  obtain ⟨p, hp, hlog, hplain, q, hq, hidle⟩ :
      ((sessionSystem 2 fun _ _ => 0).logged mapEvent).Ends (empty 2, []) inserting fun p =>
        p.2 = insertEvents inserted ∧ (∀ ch ∈ p.1.looking, ch.isPlain = true) ∧
        ((sessionSystem 2 fun _ _ => 0).logged mapEvent).Ends p
          (.tree lookCached :: p.1.looking.map .tree) fun q => q.1.client.pc.isIdle = true := by
    decide +kernel
  have hreach : ((sessionSystem 2 fun _ _ => 0).logged mapEvent).Reachable p :=
    System.Reachable.run (.init ⟨⟨World.empty_initial, rfl⟩, rfl⟩) hp
  obtain ⟨-, -, -, -, hret⟩ := calls_answer hreach hlog (fun _ => List.cons_ne_nil _ _) hplain hq
  exact ⟨p, q, hp, hlog, hq, Pc.isIdle_iff.mp hidle, hret (Pc.isIdle_iff.mp hidle)⟩

end Session
end SmartTree
