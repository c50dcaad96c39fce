import Mathlib.Data.Finset.Card
import SmartTree.Lib.Transition
import SmartTree.Keeper.Memcached

/-! `DSMKeeper::barrier`, called by every node for the same list of names. Node 0 creates the
counter, every node adds one to it and then polls until it counts all nodes. -/
namespace SmartTree.Barrier
open Transition

inductive Pc
  | entry | set | add | poll
deriving DecidableEq

/-- A node at its `idx`-th barrier. -/
structure Node where
  idx : ℕ
  pc : Pc
deriving DecidableEq

structure World where
  store : Memcached String
  nodes : ℕ → Node

def key (name : String) : String := "barrier-" ++ name

@[simps -fullyApplied] def World.put (w : World) (i : ℕ) (x : Node) : World := { w with nodes := Function.update w.nodes i x }

/-- The value of a barrier's counter; `std::stoull` reads its decimal text. -/
def World.counter (w : World) (name : String) : Option ℕ :=
  (w.store.memGet (key name)).bind stoull

/-- The next step of node `i` of `getServerNR` nodes; a failed try changes nothing. -/
def next (serverNR : UInt16) (names : List String) (w : World) (i : ℕ) : Option World :=
  if i < serverNR.toNat then
    let x := w.nodes i
    match names[x.idx]? with
    | none => none
    | some name =>
      match x.pc with
      | .entry => some (w.put i ⟨x.idx, if i = 0 then .set else .add⟩)
      | .set => some ({ w with store := w.store.memSet (key name) "0" }.put i ⟨x.idx, .add⟩)
      | .add =>
        match w.store.memFetchAndAdd (key name) with
        | none => some w
        | some store => some ({ w with store := store }.put i ⟨x.idx, .poll⟩)
      | .poll =>
        match w.store.memGet (key name) with
        | none => some w
        | some text => (stoull text).map fun v =>
          if v = serverNR.toNat then w.put i ⟨x.idx + 1, .entry⟩ else w
  else none

/-- All nodes stand before the first barrier, and no name has been used. -/
def system (serverNR : UInt16) (names : List String) : System World ℕ where
  init w := (∀ i, w.nodes i = ⟨0, .entry⟩) ∧ ∀ name ∈ names, w.store.memGet (key name) = none
  next := next serverNR names

namespace Node
variable (x : Node) (b : ℕ)

def Entered : Prop := b < x.idx ∨ b = x.idx ∧ x.pc ≠ .entry
def Returned : Prop := b < x.idx
def Counted : Prop := b < x.idx ∨ b = x.idx ∧ x.pc = .poll
def Created : Prop := b < x.idx ∨ b = x.idx ∧ (x.pc = .add ∨ x.pc = .poll)

instance : Decidable (x.Entered b) := inferInstanceAs (Decidable (_ ∨ _))
instance : Decidable (x.Returned b) := inferInstanceAs (Decidable (_ < _))
instance : Decidable (x.Counted b) := inferInstanceAs (Decidable (_ ∨ _))
instance : Decidable (x.Created b) := inferInstanceAs (Decidable (_ ∨ _))

end Node

def World.count (N : ℕ) (w : World) (b : ℕ) : ℕ :=
  ((Finset.range N).filter fun i => (w.nodes i).Counted b).card

section count
variable {N b i : ℕ} {w : World} {x : Node}

theorem count_le : w.count N b ≤ N := by
  exact (Finset.card_filter_le _ _).trans (Finset.card_range N).le

theorem count_eq_all (h : w.count N b = N) {j : ℕ} (hj : j < N) : (w.nodes j).Counted b := by
  have hall := Finset.filter_card_eq (s := Finset.range N) (p := fun i => (w.nodes i).Counted b)
    (h.trans (Finset.card_range N).symm)
  exact hall j (Finset.mem_range.mpr hj)

theorem count_put_same (h : x.Counted b ↔ (w.nodes i).Counted b) :
    (w.put i x).count N b = w.count N b := by
  unfold World.count World.put
  congr 1
  refine Finset.filter_congr fun j _ => ?_
  by_cases hj : j = i
  · subst hj
    simpa using h
  · simp [hj]

theorem count_put_new (hi : i < N) (h : ¬ (w.nodes i).Counted b) (hx : x.Counted b) :
    (w.put i x).count N b = w.count N b + 1 := by
  unfold World.count World.put
  have hins : ((Finset.range N).filter fun j => (Function.update w.nodes i x j).Counted b) =
      insert i ((Finset.range N).filter fun j => (w.nodes j).Counted b) := by
    ext j
    by_cases hj : j = i
    · subst hj
      simp [hx, hi]
    · simp [hj]
  rw [hins, Finset.card_insert_of_notMem (by simp [h])]

end count

/-- Before node 0 comes to it a counter does not exist; then it counts the nodes. -/
structure Inv (N : ℕ) (names : List String) (w : World) : Prop where
  creator : ∀ i, (w.nodes i).pc = .set → i = 0
  before : ∀ b name, names[b]? = some name → ¬ (w.nodes 0).Created b →
    w.store.memGet (key name) = none ∧ w.count N b = 0
  since : ∀ b name, names[b]? = some name → (w.nodes 0).Created b →
    w.store.memGet (key name) = some (Nat.repr (w.count N b))
  all : ∀ b i, i < N → (w.nodes i).Returned b → w.count N b = N

theorem key_injective {a b : String} (h : key a = key b) : a = b := by
  have := congrArg String.toList h
  simp only [key, String.toList_append] at this
  exact String.ext (List.append_cancel_left this)

section step
variable {N : ℕ} {names : List String} {w : World} {i : ℕ} {x : Node}

theorem Inv.put (h : Inv N names w) (hset : x.pc = .set → i = 0)
    (hc : ∀ b, x.Counted b ↔ (w.nodes i).Counted b)
    (hcr : i = 0 → ∀ b, x.Created b ↔ (w.nodes i).Created b)
    (hret : ∀ b, x.Returned b → w.count N b = N) : Inv N names (w.put i x) := by
  have hcount : ∀ b, (w.put i x).count N b = w.count N b := fun b => count_put_same (hc b)
  have hzero : ∀ b, ((w.put i x).nodes 0).Created b ↔ (w.nodes 0).Created b := by
    intro b
    rw [World.put_nodes, Function.update_apply]
    split
    · rename_i h0
      subst h0
      exact hcr rfl b
    · rfl
  refine ⟨fun j hj => ?_, fun b name hb hn => ?_, fun b name hb hn => ?_, fun b j hj hr => ?_⟩
  · rw [World.put_nodes, Function.update_apply] at hj
    split at hj
    · rename_i he
      rw [he, hset hj]
    · exact h.creator j hj
  · rw [hcount]
    exact h.before b name hb (by rwa [hzero] at hn)
  · rw [hcount]
    exact h.since b name hb (by rwa [hzero] at hn)
  · rw [hcount]
    rw [World.put_nodes, Function.update_apply] at hr
    split at hr
    · exact hret b hr
    · exact h.all b j hj hr

theorem Inv.write (h : Inv N names w) (hnd : names.Nodup) {b₀ v : ℕ} {name : String}
    (hb₀ : names[b₀]? = some name) (hx : x.pc ≠ .set)
    (hv : (w.put i x).count N b₀ = v) (hcr : ((w.put i x).nodes 0).Created b₀)
    (hc : ∀ b, b ≠ b₀ → (x.Counted b ↔ (w.nodes i).Counted b))
    (hcr' : ∀ b, b ≠ b₀ → (x.Created b ↔ (w.nodes i).Created b))
    (hret : ∀ b, x.Returned b ↔ (w.nodes i).Returned b)
    (hfull : w.count N b₀ = N → v = N) :
    Inv N names ({ w with store := w.store.memSet (key name) (Nat.repr v) }.put i x) := by
  have hcount : ∀ b, b ≠ b₀ → (w.put i x).count N b = w.count N b := fun b hb => count_put_same (hc b hb)
  have hzero : ∀ b, b ≠ b₀ → (((w.put i x).nodes 0).Created b ↔ (w.nodes 0).Created b) := by
    intro b hb
    rw [World.put_nodes, Function.update_apply]
    split
    · rename_i h0
      subst h0
      exact hcr' b hb
    · rfl
  have hkey : ∀ b name', b ≠ b₀ → names[b]? = some name' → key name' ≠ key name := by
    intro b name' hb hn he
    rw [key_injective he, ← hb₀] at hn
    exact hb ((List.getElem?_inj (List.getElem?_eq_some_iff.mp (hn.trans hb₀)).1 hnd).mp hn)
  refine ⟨fun j hj => ?_, fun b name' hb hn => ?_, fun b name' hb hn => ?_, fun b j hj hr => ?_⟩
  · rw [World.put_nodes, Function.update_apply] at hj
    split at hj
    · exact absurd hj hx
    · exact h.creator j hj
  · by_cases hbb : b = b₀
    · subst hbb
      exact absurd hcr hn
    · have := h.before b name' hb ((hzero b hbb).not.mp hn)
      exact ⟨by simpa [hkey b name' hbb hb] using this.1, (hcount b hbb).trans this.2⟩
  · by_cases hbb : b = b₀
    · subst hbb
      obtain rfl := Option.some.inj (hb.symm.trans hb₀)
      simp only [World.put_store, Memcached.memGet_memSet, if_true]
      exact congrArg (some ∘ Nat.repr) hv.symm
    · have := h.since b name' hb ((hzero b hbb).mp hn)
      rw [← hcount b hbb] at this
      simp only [World.put_store, Memcached.memGet_memSet, hkey b name' hbb hb, if_false]
      exact this
  · have hold : w.count N b = N := by
      rw [World.put_nodes, Function.update_apply] at hr
      split at hr
      · rename_i he
        subst he
        exact h.all b j hj ((hret b).mp hr)
      · exact h.all b j hj hr
    by_cases hbb : b = b₀
    · subst hbb
      exact hv.trans (hfull hold)
    · exact (hcount b hbb).trans hold

variable {serverNR : UInt16} {w' : World}

/-- What a step does; `stay` is a try that failed. -/
inductive Step (serverNR : UInt16) (w : World) (i : ℕ) (name : String) : World → Prop
  | stay : Step serverNR w i name w
  | enter (hpc : (w.nodes i).pc = .entry) :
    Step serverNR w i name (w.put i ⟨(w.nodes i).idx, if i = 0 then .set else .add⟩)
  | create (hpc : (w.nodes i).pc = .set) : Step serverNR w i name
      ({ w with store := w.store.memSet (key name) "0" }.put i ⟨(w.nodes i).idx, .add⟩)
  | count {store} (hpc : (w.nodes i).pc = .add) (hadd : w.store.memFetchAndAdd (key name) = some store) :
    Step serverNR w i name ({ w with store := store }.put i ⟨(w.nodes i).idx, .poll⟩)
  | leave {text} (hpc : (w.nodes i).pc = .poll) (hget : w.store.memGet (key name) = some text)
      (hv : stoull text = some serverNR.toNat) :
    Step serverNR w i name (w.put i ⟨(w.nodes i).idx + 1, .entry⟩)

theorem next_step (h : next serverNR names w i = some w') : i < serverNR.toNat ∧
    ∃ name, names[(w.nodes i).idx]? = some name ∧ Step serverNR w i name w' := by
  unfold next at h
  split at h
  · rename_i hi
    refine ⟨hi, ?_⟩
    cases hname : names[(w.nodes i).idx]? with
    | none => simp [hname] at h
    | some name =>
      refine ⟨name, rfl, ?_⟩
      simp only [hname] at h
      cases hpc : (w.nodes i).pc with
      | entry =>
        simp only [hpc, Option.some.injEq] at h
        exact h ▸ .enter hpc
      | set =>
        simp only [hpc, Option.some.injEq] at h
        exact h ▸ .create hpc
      | add =>
        simp only [hpc] at h
        split at h
        · exact Option.some.inj h ▸ .stay
        · exact Option.some.inj h ▸ .count hpc ‹_›
      | poll =>
        simp only [hpc] at h
        split at h
        · exact Option.some.inj h ▸ .stay
        · rename_i text hget
          obtain ⟨v, hv, rfl⟩ := Option.map_eq_some_iff.mp h
          split
          · rename_i he
            exact .leave hpc hget (he ▸ hv)
          · exact .stay
  · cases h

theorem Inv.created (h : Inv N names w) {b : ℕ} {name text : String} (hb : names[b]? = some name)
    (hget : w.store.memGet (key name) = some text) :
    (w.nodes 0).Created b ∧ text = Nat.repr (w.count N b) := by
  have hcr : (w.nodes 0).Created b := by
    by_contra hn
    rw [(h.before b name hb hn).1] at hget
    cases hget
  exact ⟨hcr, Option.some.inj (hget.symm.trans (h.since b name hb hcr))⟩

theorem count_lt (h : ¬ (w.nodes i).Counted (w.nodes i).idx) (hi : i < serverNR.toNat) :
    w.count serverNR.toNat (w.nodes i).idx < serverNR.toNat :=
  lt_of_le_of_ne count_le fun he => h (count_eq_all he hi)

theorem Inv.fetchAndAdd (h : Inv serverNR.toNat names w) {name : String} {store : Memcached String}
    (hb : names[(w.nodes i).idx]? = some name) (hi : i < serverNR.toNat)
    (hpc : (w.nodes i).pc = .add) (hadd : w.store.memFetchAndAdd (key name) = some store) :
    (w.nodes 0).Created (w.nodes i).idx ∧
      w.count serverNR.toNat (w.nodes i).idx < serverNR.toNat ∧
      w.store.memGet (key name) = some (Nat.repr (w.count serverNR.toNat (w.nodes i).idx)) ∧
      store = w.store.memSet (key name) (Nat.repr (w.count serverNR.toNat (w.nodes i).idx + 1)) := by
  have hlt : w.count serverNR.toNat (w.nodes i).idx < serverNR.toNat :=
    count_lt (by simp [Node.Counted, hpc]) hi
  cases hget : w.store.memGet (key name) with
  | none =>
    rw [Memcached.memGet] at hget
    simp [Memcached.memFetchAndAdd, hget] at hadd
  | some text =>
    obtain ⟨hcr, rfl⟩ := h.created hb hget
    have hN := serverNR.toNat_lt
    rw [Memcached.memFetchAndAdd_repr hget (by omega)] at hadd
    exact ⟨hcr, hlt, rfl, (Option.some.inj hadd).symm⟩

theorem Inv.step (h : Inv serverNR.toNat names w) (hnd : names.Nodup) {name : String}
    (hi : i < serverNR.toNat) (hb : names[(w.nodes i).idx]? = some name)
    (hs : Step serverNR w i name w') : Inv serverNR.toNat names w' := by
  cases hs with
  | stay => exact h
  | enter hpc =>
    refine h.put ?_ (fun b => ?_) (fun h0 b => ?_) fun b hr => h.all b i hi hr
    · by_cases h0 : i = 0 <;> simp [h0]
    · by_cases h0 : i = 0 <;> simp [Node.Counted, h0, hpc]
      simp [← h0, hpc]
    · subst h0
      simp [Node.Created, hpc]
  | create hpc =>
    obtain rfl := h.creator i hpc
    have hbefore := h.before _ name hb (by simp [Node.Created, hpc])
    refine h.write (i := 0) (x := ⟨(w.nodes 0).idx, .add⟩) (v := 0) hnd hb (by simp) ?_ ?_
      (fun b hbb => ?_) (fun b hbb => ?_) (fun b => Iff.rfl) ?_
    · rw [count_put_same (by simp [Node.Counted, hpc])]
      exact hbefore.2
    · simp [Node.Created]
    · simp [Node.Counted, hbb]
    · simp [Node.Created, hbb]
    · intro he
      exact hbefore.2.symm.trans he
  | count hpc hadd =>
    obtain ⟨hcr, hlt, -, rfl⟩ := h.fetchAndAdd hb hi hpc hadd
    refine h.write hnd hb (by simp) ?_ ?_ (fun b hbb => ?_) (fun b hbb => ?_) (fun b => Iff.rfl) ?_
    · exact count_put_new hi (by simp [Node.Counted, hpc]) (by simp [Node.Counted])
    · rw [World.put_nodes, Function.update_apply]
      split
      · simp [Node.Created]
      · exact hcr
    · simp [Node.Counted, hbb]
    · simp [Node.Created, hbb]
    · intro he
      omega
  | leave hpc hget hv =>
    obtain ⟨-, rfl⟩ := h.created hb hget
    have hall : w.count serverNR.toNat (w.nodes i).idx = serverNR.toNat := by simpa using hv
    refine h.put (by simp) (fun b => ?_) (fun _ b => ?_) fun b hr => ?_
    · simp only [Node.Counted, hpc, Nat.lt_succ_iff_lt_or_eq]
      simp
    · simp only [Node.Created, hpc, Nat.lt_succ_iff_lt_or_eq]
      simp
    · obtain hlt | rfl := Nat.lt_succ_iff_lt_or_eq.mp hr
      · exact h.all b i hi hlt
      · exact hall

theorem inv_of_reachable (hnd : names.Nodup) (h : (system serverNR names).Reachable w) :
    Inv serverNR.toNat names w := by
  refine h.invariant (P := Inv serverNR.toNat names) (fun w hi => ?_) fun w i w' _ hp _ hn => ?_
  · have hcount : ∀ b, w.count serverNR.toNat b = 0 := fun b => by
      simp [World.count, Node.Counted, hi.1]
    refine ⟨fun j hj => ?_, fun b name hb _ => ⟨hi.2 name (List.mem_of_getElem? hb), hcount b⟩, ?_, ?_⟩
    · simp [hi.1] at hj
    · intro b name _ hcr
      simp [Node.Created, hi.1] at hcr
    · intro b j _ hr
      simp [Node.Returned, hi.1] at hr
  · obtain ⟨hi, name, hb, hs⟩ := next_step hn
    exact hp.step hnd hi hb hs

/-- How a step may change a counter: not at all, into being at 0, or by one. -/
def Counts (before after : Option ℕ) : Prop :=
  after = before ∨ (before = none ∧ after = some 0) ∨ ∃ v, before = some v ∧ after = some (v + 1)

theorem Inv.counts (h : Inv serverNR.toNat names w) {name name' : String}
    (hi : i < serverNR.toNat) (hb : names[(w.nodes i).idx]? = some name)
    (hs : Step serverNR w i name w') : Counts (w.counter name') (w'.counter name') := by
  by_cases hne : name' = name
  · subst hne
    cases hs with
    | stay => exact .inl rfl
    | enter hpc => exact .inl rfl
    | create hpc =>
      obtain rfl := h.creator i hpc
      refine .inr (.inl ⟨?_, ?_⟩)
      · rw [World.counter, (h.before _ name' hb (by simp [Node.Created, hpc])).1]
        rfl
      · rw [World.counter, World.put_store, Memcached.memGet_memSet, if_pos rfl]
        exact stoull_repr 0
    | count hpc hadd =>
      obtain ⟨-, -, hget, rfl⟩ := h.fetchAndAdd hb hi hpc hadd
      exact .inr (.inr ⟨_, by rw [World.counter, hget, Option.bind_some, stoull_repr],
        by rw [World.counter, World.put_store, Memcached.memGet_memSet, if_pos rfl, Option.bind_some,
          stoull_repr]⟩)
    | leave hpc hget hv => exact .inl rfl
  · have hkey : key name' ≠ key name := fun he => hne (key_injective he)
    refine .inl ?_
    cases hs with
    | stay => rfl
    | enter hpc => rfl
    | create hpc => simp [World.counter, hkey]
    | count hpc hadd =>
      obtain ⟨-, -, -, rfl⟩ := h.fetchAndAdd hb hi hpc hadd
      simp [World.counter, hkey]
    | leave hpc hget hv => rfl

end step

/-- No node leaves a barrier that some node has not entered, and a counter goes from 0 up to the
number of nodes one by one. -/
theorem barrier_safe {serverNR : UInt16} {names : List String} (hnd : names.Nodup) {w : World}
    (h : (system serverNR names).Reachable w) :
    (∀ b i j, i < serverNR.toNat → j < serverNR.toNat →
      (w.nodes i).Returned b → (w.nodes j).Entered b) ∧
    (∀ name ∈ names, ∀ v, w.counter name = some v → v ≤ serverNR.toNat) ∧
    ∀ i w', next serverNR names w i = some w' → ∀ name, Counts (w.counter name) (w'.counter name) := by
  have hinv := inv_of_reachable hnd h
  refine ⟨fun b i j hi hj hr => ?_, fun name hm v hv => ?_, fun i w' hn name => ?_⟩
  · obtain hlt | ⟨he, hpc⟩ := count_eq_all (hinv.all b i hi hr) hj
    · exact .inl hlt
    · exact .inr ⟨he, by simp [hpc]⟩
  · obtain ⟨b, hb⟩ := List.getElem?_of_mem hm
    obtain ⟨text, hget, htext⟩ := Option.bind_eq_some_iff.mp hv
    obtain ⟨-, rfl⟩ := hinv.created hb hget
    rw [stoull_repr] at htext
    exact Option.some.inj htext ▸ count_le
  · obtain ⟨hi, name', hb, hs⟩ := next_step hn
    exact hinv.counts hi hb hs

/-- Two nodes at two barriers: node 1 is at the first one before node 0 has created the counter. -/
theorem barrier_safe_two :
    (system 2 ["a", "b"]).Ends ⟨fun _ => none, fun _ => ⟨0, .entry⟩⟩ [1, 1, 0, 0, 1, 1, 0, 0] fun w =>
      (w.nodes 0).Returned 0 ∧ (w.nodes 1).Entered 0 := by
  obtain ⟨w, hw, hr⟩ : (system 2 ["a", "b"]).Ends ⟨fun _ => none, fun _ => ⟨0, .entry⟩⟩
      [1, 1, 0, 0, 1, 1, 0, 0] fun w => (w.nodes 0).Returned 0 := by decide +kernel
  have hreach : (system 2 ["a", "b"]).Reachable w :=
    .run (.init ⟨fun _ => rfl, fun _ _ => rfl⟩) hw
  exact ⟨w, hw, hr, (barrier_safe (by decide) hreach).1 0 0 1 (by decide) (by decide) hr⟩

end SmartTree.Barrier
