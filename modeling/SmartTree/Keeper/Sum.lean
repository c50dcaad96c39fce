import Mathlib.Data.UInt
import Mathlib.Algebra.BigOperators.Group.List.Basic
import SmartTree.Lib.Transition
import SmartTree.Keeper.Memcached

/-! `DSM::sum`: every node files its value under the number of the call and its own id, and
node 0 collects the values of all ids. Call number and id are written one after the other with
nothing between them, so different pairs can share a key. -/
namespace SmartTree.Sum
open Transition

/-- The key of `DSM::sum` and `DSMKeeper::sum` for a call and a node. -/
def key (call id : ℕ) : String := "sum-" ++ ("sum-" ++ Nat.repr call) ++ Nat.repr id

/-- Where a node stands in its call; `get` is the loop of node 0. -/
inductive Pc
  | idle
  | set (call : UInt64) (value : UInt64)
  | get (call : UInt64) (i : ℕ) (ret : UInt64)
deriving DecidableEq

/-- `count` is the static call counter; `args` are the values passed so far, one for each call. -/
structure Node where
  count : UInt64
  pc : Pc
  args : List UInt64
deriving DecidableEq

structure World where
  store : Memcached UInt64
  nodes : ℕ → Node
  /-- What the calls of node 0 returned. -/
  results : List UInt64

inductive Event
  | call (i : ℕ) (value : UInt64)
  | step (i : ℕ)
deriving DecidableEq

@[simps -fullyApplied] def World.put (w : World) (i : ℕ) (x : Node) : World := { w with nodes := Function.update w.nodes i x }

/-- One memcached operation of node `i`, or its return. -/
def step (serverNR : UInt16) (w : World) (i : ℕ) : Option World :=
  let x := w.nodes i
  match x.pc with
  | .idle => none
  | .set call value =>
    let pc := if i = 0 then .get call 0 0 else .idle
    some ({ w with store := w.store.memSet (key call.toNat i) value }.put i { x with pc := pc })
  | .get call j ret =>
    if j < serverNR.toNat then
      match w.store.memGet (key call.toNat j) with
      | none => some w
      | some value => some (w.put i { x with pc := .get call (j + 1) (ret + value) })
    else some ({ w with results := w.results ++ [ret] }.put i { x with pc := .idle })

def next (serverNR : UInt16) (w : World) : Event → Option World
  | .call i value =>
    let x := w.nodes i
    if i < serverNR.toNat ∧ x.pc = .idle then
      some (w.put i ⟨x.count + 1, .set x.count value, x.args ++ [value]⟩)
    else none
  | .step i => if i < serverNR.toNat then step serverNR w i else none

def system (serverNR : UInt16) : System World Event where
  init w := (∀ i, w.nodes i = ⟨0, .idle, []⟩) ∧ (∀ call id, w.store.memGet (key call id) = none) ∧
    w.results = []
  next := next serverNR

/-- Each result of node 0 is the sum of what the nodes passed to their calls of that number. -/
def Right (serverNR : UInt16) (w : World) : Prop :=
  ∀ (c : ℕ) (r : UInt64), w.results[c]? = some r → ∃ vs : ℕ → UInt64,
    (∀ i < serverNR.toNat, (w.nodes i).args[c]? = some (vs i)) ∧
    r = ((List.range serverNR.toNat).map vs).sum

/-- At most eleven nodes and no wrap of the call counter, or at most eleven calls. -/
def Allowed (serverNR : UInt16) (call : ℕ) : Prop :=
  (serverNR.toNat ≤ 11 ∧ call < 2 ^ 64) ∨ call < 11

instance (serverNR : UInt16) (call : ℕ) : Decidable (Allowed serverNR call) :=
  inferInstanceAs (Decidable (_ ∨ _))

def Within (serverNR : UInt16) (w : World) : Event → Prop
  | .call i _ => Allowed serverNR (w.nodes i).args.length
  | .step _ => True

instance (serverNR : UInt16) (w : World) : ∀ e, Decidable (Within serverNR w e)
  | .call i _ => inferInstanceAs (Decidable (Allowed serverNR (w.nodes i).args.length))
  | .step _ => inferInstanceAs (Decidable True)

section keys
variable {c c' i i' : ℕ}

theorem key_toList (c i : ℕ) : (key c i).toList =
    "sum-".toList ++ "sum-".toList ++ (Nat.toDigits 10 c ++ Nat.toDigits 10 i) := by
  simp [key, Nat.toList_repr]

/-- Two pairs with one key: as many digits in all, and the same number. -/
theorem digits_of_key (h : key c i = key c' i') :
    (Nat.toDigits 10 c).length + (Nat.toDigits 10 i).length =
      (Nat.toDigits 10 c').length + (Nat.toDigits 10 i').length ∧
    10 ^ (Nat.toDigits 10 i).length * c + i = 10 ^ (Nat.toDigits 10 i').length * c' + i' := by
  have hl := congrArg String.toList h
  rw [key_toList, key_toList, List.append_cancel_left_eq] at hl
  have hv := congrArg (fun ds => Nat.ofDigitChars 10 ds 0) hl
  simp only [Nat.ofDigitChars_append, Nat.ofDigitChars_ten_toDigits] at hv
  rw [Nat.ofDigitChars_eq_ofDigitChars_zero, @Nat.ofDigitChars_eq_ofDigitChars_zero _ c',
    Nat.ofDigitChars_ten_toDigits, Nat.ofDigitChars_ten_toDigits] at hv
  exact ⟨by simpa using congrArg List.length hl, hv⟩

theorem lt_pow_digits (i : ℕ) : i < 10 ^ (Nat.toDigits 10 i).length :=
  (Nat.length_toDigits_le_iff (by omega) Nat.length_toDigits_pos).mp le_rfl

theorem eq_of_same_digits {a : ℕ} (hi : i < 10 ^ a) (hi' : i' < 10 ^ a)
    (h : 10 ^ a * c + i = 10 ^ a * c' + i') : c = c' ∧ i = i' := by
  have hpos : 0 < 10 ^ a := Nat.pow_pos (by omega)
  have hd := congrArg (· / 10 ^ a) h
  have hm := congrArg (· % 10 ^ a) h
  simp only [Nat.mul_add_div hpos, Nat.div_eq_of_lt hi, Nat.div_eq_of_lt hi', Nat.add_zero] at hd
  simp only [Nat.mul_add_mod, Nat.mod_eq_of_lt hi, Nat.mod_eq_of_lt hi'] at hm
  exact ⟨hd, hm⟩

/-- The one way keys of at most eleven nodes meet: node 10 in a call, node 0 in a later one. -/
def Overlap (c i c' i' : ℕ) : Prop := i = 10 ∧ i' = 0 ∧ c' = 10 * c + 1 ∧ 1 ≤ c

theorem digits_small {i : ℕ} (h : i < 10) : (Nat.toDigits 10 i).length = 1 := by
  rw [Nat.toDigits_of_lt_base h]
  rfl

theorem key_few_nodes (hi : i ≤ 10) (hi' : i' ≤ 10) (h : key c i = key c' i') :
    (c = c' ∧ i = i') ∨ Overlap c i c' i' ∨ Overlap c' i' c i := by
  have hten : (Nat.toDigits 10 10).length = 2 := by decide
  -- an id of two digits against one of one digit
  have hmixed : ∀ {c c' i : ℕ}, i < 10 → key c 10 = key c' i → Overlap c 10 c' i := by
    intro c c' i hi h
    obtain ⟨hlen, hval⟩ := digits_of_key h
    rw [hten, digits_small hi] at hlen hval
    have hc' : i = 0 ∧ c' = 10 * c + 1 := by omega
    refine ⟨rfl, hc'.1, hc'.2, ?_⟩
    by_contra hc
    obtain rfl : c = 0 := by omega
    rw [hc'.2] at hlen
    simp [digits_small] at hlen
  by_cases h1 : i < 10
  · by_cases h2 : i' < 10
    · obtain ⟨-, hval⟩ := digits_of_key h
      rw [digits_small h1, digits_small h2] at hval
      omega
    · obtain rfl : i' = 10 := by omega
      exact .inr (.inr (hmixed h1 h.symm))
  · obtain rfl : i = 10 := by omega
    by_cases h2 : i' < 10
    · exact .inr (.inl (hmixed h2 h))
    · obtain rfl : i' = 10 := by omega
      obtain ⟨-, hval⟩ := digits_of_key h
      rw [hten] at hval
      omega

theorem key_few_calls (hc : c ≤ 10) (hc' : c' ≤ 10) (h : key c i = key c' i') : c = c' ∧ i = i' := by
  have hten : (Nat.toDigits 10 10).length = 2 := by decide
  -- the id with a call of one digit has one digit more than the id with call 10
  have hmixed : ∀ {c' i i' : ℕ}, c' < 10 → key 10 i = key c' i' → False := by
    intro c' i i' hc' h
    obtain ⟨hlen, hval⟩ := digits_of_key h
    rw [hten, digits_small hc'] at hlen
    have hdigits : (Nat.toDigits 10 i').length = (Nat.toDigits 10 i).length + 1 := by omega
    have hi := lt_pow_digits i
    have hi' := lt_pow_digits i'
    have hbig : 10 ^ (Nat.toDigits 10 i).length ≤ i' := by
      by_contra hlt
      have := (Nat.length_toDigits_le_iff (by omega) Nat.length_toDigits_pos).mpr
        (Nat.lt_of_not_le hlt)
      omega
    rw [hdigits, pow_succ] at hval hi'
    generalize 10 ^ (Nat.toDigits 10 i).length = p at *
    obtain rfl | hpos := Nat.eq_zero_or_pos c'
    · omega
    · have : p * 10 * 1 ≤ p * 10 * c' := Nat.mul_le_mul_left _ hpos
      omega
  by_cases h1 : c < 10
  · by_cases h2 : c' < 10
    · obtain ⟨hlen, hval⟩ := digits_of_key h
      rw [digits_small h1, digits_small h2] at hlen
      have hsame : (Nat.toDigits 10 i).length = (Nat.toDigits 10 i').length := by omega
      rw [hsame] at hval
      exact eq_of_same_digits (hsame ▸ lt_pow_digits i) (lt_pow_digits i') hval
    · obtain rfl : c' = 10 := by omega
      exact (hmixed h1 h.symm).elim
  · obtain rfl : c = 10 := by omega
    by_cases h2 : c' < 10
    · exact (hmixed h2 h).elim
    · obtain rfl : c' = 10 := by omega
      obtain ⟨hlen, hval⟩ := digits_of_key h
      have hsame : (Nat.toDigits 10 i).length = (Nat.toDigits 10 i').length := by omega
      rw [hsame] at hval
      exact eq_of_same_digits (hsame ▸ lt_pow_digits i) (lt_pow_digits i') hval

theorem key_allowed {serverNR : UInt16} (hc : Allowed serverNR c) (hc' : Allowed serverNR c')
    (hi : i < serverNR.toNat) (hi' : i' < serverNR.toNat) (h : key c i = key c' i') :
    (c = c' ∧ i = i') ∨ Overlap c i c' i' ∨ Overlap c' i' c i := by
  by_cases hN : serverNR.toNat ≤ 11
  · exact key_few_nodes (by omega) (by omega) h
  · have hfew : ∀ {c}, Allowed serverNR c → c ≤ 10 := fun ha => by
      obtain ⟨h1, -⟩ | h1 := ha
      · exact absurd h1 hN
      · omega
    exact .inl (key_few_calls (hfew hc) (hfew hc') h)

end keys

def Node.filed (x : Node) : ℕ :=
  match x.pc with
  | .set _ _ => x.args.length - 1
  | _ => x.args.length

/-- The loop of node 0 has added the values of the first `j` nodes. -/
structure Adding (serverNR : UInt16) (w : World) (c j : ℕ) (ret : UInt64) : Prop where
  call : c = w.results.length
  args : (w.nodes 0).args.length = w.results.length + 1
  le : j ≤ serverNR.toNat
  sum : ∃ vs : ℕ → UInt64, (∀ i < j, c < (w.nodes i).filed ∧ (w.nodes i).args[c]? = some (vs i)) ∧
    ret = ((List.range j).map vs).sum

structure Inv (serverNR : UInt16) (w : World) : Prop where
  allowed : ∀ i c, c < (w.nodes i).args.length → Allowed serverNR c
  count : ∀ i, (w.nodes i).count = UInt64.ofNat (w.nodes i).args.length
  setting : ∀ i call v, (w.nodes i).pc = .set call v →
    (w.nodes i).args.length = call.toNat + 1 ∧ (w.nodes i).args[call.toNat]? = some v
  getting : ∀ i call j ret, (w.nodes i).pc = .get call j ret → i = 0 ∧ Adding serverNR w call.toNat j ret
  begun : (w.nodes 0).args.length = w.results.length + if (w.nodes 0).pc = .idle then 0 else 1
  done : ∀ c < w.results.length, ∀ i < serverNR.toNat, c < (w.nodes i).filed
  written : ∀ i < serverNR.toNat, ∀ c < (w.nodes i).filed,
    w.store.memGet (key c i) = (w.nodes i).args[c]? ∨ (i = 10 ∧ 10 * c + 1 < (w.nodes 0).filed)
  fresh : ∀ i < serverNR.toNat, i ≠ 0 → ∀ c, Allowed serverNR c → (w.nodes i).filed ≤ c →
    w.store.memGet (key c i) = none
  right : Right serverNR w

section step
variable {serverNR : UInt16} {w w' : World} {i : ℕ} {x : Node}

theorem Allowed.lt {c : ℕ} (h : Allowed serverNR c) : c < 2 ^ 64 := by
  obtain ⟨-, h⟩ | h := h <;> omega

theorem Node.filed_le (x : Node) : x.filed ≤ x.args.length := by
  unfold Node.filed
  split <;> omega

/-- What a step does; `stay` is a try that found no value. -/
inductive Step (serverNR : UInt16) (w : World) (i : ℕ) : World → Prop
  | stay : Step serverNR w i w
  | begin (v : UInt64) (hpc : (w.nodes i).pc = .idle)
      (hall : Allowed serverNR (w.nodes i).args.length) : Step serverNR w i
      (w.put i ⟨(w.nodes i).count + 1, .set (w.nodes i).count v, (w.nodes i).args ++ [v]⟩)
  | file {call v} (hpc : (w.nodes i).pc = .set call v) : Step serverNR w i
      ({ w with store := w.store.memSet (key call.toNat i) v }.put i
        { w.nodes i with pc := if i = 0 then .get call 0 0 else .idle })
  | add {call j ret v} (hpc : (w.nodes i).pc = .get call j ret) (hj : j < serverNR.toNat)
      (hget : w.store.memGet (key call.toNat j) = some v) :
    Step serverNR w i (w.put i { w.nodes i with pc := .get call (j + 1) (ret + v) })
  | ret {call j ret} (hpc : (w.nodes i).pc = .get call j ret) (hj : ¬ j < serverNR.toNat) :
    Step serverNR w i ({ w with results := w.results ++ [ret] }.put i { w.nodes i with pc := .idle })

theorem next_step {e : Event} (hin : Within serverNR w e) (h : next serverNR w e = some w') :
    ∃ i < serverNR.toNat, Step serverNR w i w' := by
  cases e with
  | call i v =>
    simp only [next] at h
    split at h
    · rename_i hg
      exact ⟨i, hg.1, Option.some.inj h ▸ .begin v hg.2 hin⟩
    · cases h
  | step i =>
    simp only [next] at h
    split at h
    · rename_i hi
      refine ⟨i, hi, ?_⟩
      unfold step at h
      cases hpc : (w.nodes i).pc with
      | idle => simp [hpc] at h
      | set call v =>
        simp only [hpc, Option.some.injEq] at h
        exact h ▸ .file hpc
      | get call j ret =>
        simp only [hpc] at h
        split at h
        · rename_i hj
          split at h
          · exact Option.some.inj h ▸ .stay
          · exact Option.some.inj h ▸ .add hpc hj ‹_›
        · exact Option.some.inj h ▸ .ret hpc ‹_›
    · cases h

theorem getElem?_append_of_some {l : List UInt64} {c : ℕ} {v v' : UInt64} (h : l[c]? = some v) :
    (l ++ [v'])[c]? = some v := by
  rw [List.getElem?_append_left (List.getElem?_eq_some_iff.mp h).1, h]

theorem Inv.begin (h : Inv serverNR w) (v : UInt64) (hpc : (w.nodes i).pc = .idle)
    (hall : Allowed serverNR (w.nodes i).args.length) : Inv serverNR
      (w.put i ⟨(w.nodes i).count + 1, .set (w.nodes i).count v, (w.nodes i).args ++ [v]⟩) := by
  set y : Node := ⟨(w.nodes i).count + 1, .set (w.nodes i).count v, (w.nodes i).args ++ [v]⟩ with hy
  have hfiled : ∀ j, ((w.put i y).nodes j).filed = (w.nodes j).filed := by
    intro j
    rw [World.put_nodes, Function.update_apply]
    split
    · rename_i he
      subst he
      simp [hy, Node.filed, hpc]
    · rfl
  have hargs : ∀ (j c : ℕ) (u : UInt64), (w.nodes j).args[c]? = some u →
      ((w.put i y).nodes j).args[c]? = some u := by
    intro j c u hu
    rw [World.put_nodes, Function.update_apply]
    split
    · rename_i he
      subst he
      exact getElem?_append_of_some hu
    · exact hu
  have hcount : (w.nodes i).count.toNat = (w.nodes i).args.length := by
    rw [h.count i]
    exact UInt64.toNat_ofNat_of_lt' hall.lt
  refine ⟨fun j c hc => ?_, fun j => ?_, fun j call u hs => ?_, fun j call k ret hg => ?_, ?_,
    fun c hc j hj => ?_, fun j hj c hc => ?_, fun j hj h0 c hca hc => ?_, fun c r hr => ?_⟩
  · rw [World.put_nodes, Function.update_apply] at hc
    split at hc
    · rw [List.length_append, List.length_singleton] at hc
      obtain hlt | rfl := Nat.lt_succ_iff_lt_or_eq.mp hc
      · exact h.allowed i c hlt
      · exact hall
    · exact h.allowed j c hc
  · rw [World.put_nodes, Function.update_apply]
    split
    · simp [hy, h.count i]
    · exact h.count j
  · rw [World.put_nodes, Function.update_apply] at hs ⊢
    split at hs
    · rename_i he
      subst he
      obtain ⟨rfl, rfl⟩ := Pc.set.inj hs
      simp [hy, hcount]
    · rename_i hj
      rw [if_neg hj]
      exact h.setting j call u hs
  · rw [World.put_nodes, Function.update_apply] at hg
    split at hg
    · cases hg
    · obtain ⟨rfl, hadd⟩ := h.getting j call k ret hg
      rename_i h0
      refine ⟨rfl, hadd.call, ?_, hadd.le, ?_⟩
      · rw [World.put_nodes, Function.update_apply, if_neg h0]
        exact hadd.args
      · obtain ⟨vs, hvs, hret⟩ := hadd.sum
        exact ⟨vs, fun l hl => ⟨by rw [hfiled]; exact (hvs l hl).1, hargs l _ _ (hvs l hl).2⟩, hret⟩
  · have hb := h.begun
    rw [World.put_nodes, Function.update_apply]
    split
    · rename_i he
      subst he
      rw [if_pos hpc] at hb
      simp [hy, hb]
    · exact hb
  · rw [hfiled]
    exact h.done c hc j hj
  · rw [hfiled] at hc
    have hlt := hc.trans_le (w.nodes j).filed_le
    rw [hfiled, hargs j c _ (List.getElem?_eq_getElem hlt), ← List.getElem?_eq_getElem hlt]
    exact h.written j hj c hc
  · rw [hfiled] at hc
    exact h.fresh j hj h0 c hca hc
  · obtain ⟨vs, hvs, hsum⟩ := h.right c r hr
    exact ⟨vs, fun j hj => hargs j c _ (hvs j hj), hsum⟩

theorem Inv.filed_zero (h : Inv serverNR w) {c c' : ℕ} (hc : c < (w.nodes 0).args.length) (hlt : c' < c) :
    ∀ j < serverNR.toNat, c' < (w.nodes j).filed := by
  have hb := h.begun
  refine h.done c' ?_
  split at hb <;> omega

/-- Filing a value: the key can only be shared with a call of node 0 that comes later. -/
theorem Inv.file (h : Inv serverNR w) (hi : i < serverNR.toNat) {call v : UInt64}
    (hpc : (w.nodes i).pc = .set call v) : Inv serverNR
      ({ w with store := w.store.memSet (key call.toNat i) v }.put i
        { w.nodes i with pc := if i = 0 then .get call 0 0 else .idle }) := by
  set w' : World := { w with store := w.store.memSet (key call.toNat i) v }.put i
        { w.nodes i with pc := if i = 0 then .get call 0 0 else .idle } with hw'
  obtain ⟨hlen, hval⟩ := h.setting i call v hpc
  have hcall : Allowed serverNR call.toNat := h.allowed i _ (by omega)
  have hnode : ∀ j, w'.nodes j =
      if j = i then { w.nodes i with pc := if i = 0 then .get call 0 0 else .idle } else w.nodes j :=
    Function.update_apply _ _ _
  have hargs : ∀ j, (w'.nodes j).args = (w.nodes j).args := fun j => by
    rw [hnode]
    split
    · rename_i he
      rw [he]
    · rfl
  have hself : (w.nodes i).filed = call.toNat := by simp [Node.filed, hpc, hlen]
  have hself' : (w'.nodes i).filed = call.toNat + 1 := by
    rw [hnode, if_pos rfl]
    by_cases h0 : i = 0 <;> simp [Node.filed, h0, ← hlen]
  have hfiled : ∀ j, j ≠ i → (w'.nodes j).filed = (w.nodes j).filed := fun j hj => by
    rw [hnode, if_neg hj]
  have hmono : ∀ j, (w.nodes j).filed ≤ (w'.nodes j).filed := fun j => by
    by_cases hj : j = i
    · subst hj
      omega
    · rw [hfiled j hj]
  have hstore : ∀ c j, w'.store.memGet (key c j) =
      if key c j = key call.toNat i then some v else w.store.memGet (key c j) :=
    fun c j => Memcached.memGet_memSet _ _ _ _
  -- the call of node 0 that shares the key with this one is not behind
  have hlater : ∀ c, i = 10 → c = 10 * call.toNat + 1 → ¬ c < (w.nodes 0).args.length := by
    intro c _ hc hlt
    have := h.filed_zero hlt (show call.toNat < c by omega) i hi
    omega
  refine ⟨fun j c hc => h.allowed j c (hargs j ▸ hc), fun j => ?_, fun j call' u hs => ?_,
    fun j call' k ret hg => ?_, ?_, fun c hc j hj => (h.done c hc j hj).trans_le (hmono j),
    fun j hj c hc => ?_, fun j hj h0 c hca hc => ?_, fun c r hr => ?_⟩
  · rw [hnode]
    split
    · exact h.count i
    · exact h.count j
  · rw [hnode] at hs
    split at hs
    · by_cases h0 : i = 0 <;> simp [h0] at hs
    · rename_i hj
      rw [hnode, if_neg hj]
      exact h.setting j call' u hs
  · rw [hnode] at hg
    split at hg
    · rename_i hj
      by_cases h0 : i = 0
      · subst h0
        simp only [if_true, Pc.get.injEq] at hg
        obtain ⟨rfl, rfl, rfl⟩ := hg
        have hb := h.begun
        rw [hpc, if_neg (by simp)] at hb
        exact ⟨hj, show call.toNat = w.results.length by omega, by rw [hargs]; exact hb, Nat.zero_le _,
          fun _ => 0, fun l hl => absurd hl (Nat.not_lt_zero l), rfl⟩
      · simp [h0] at hg
    · obtain ⟨rfl, hadd⟩ := h.getting j call' k ret hg
      refine ⟨rfl, hadd.call, by rw [hargs]; exact hadd.args, hadd.le, ?_⟩
      obtain ⟨vs, hvs, hret⟩ := hadd.sum
      exact ⟨vs, fun l hl => ⟨(hvs l hl).1.trans_le (hmono l), by rw [hargs]; exact (hvs l hl).2⟩, hret⟩
  · have hb := h.begun
    rw [hargs, hnode, show w'.results = w.results from rfl]
    split
    · rename_i he
      subst he
      rw [hpc] at hb
      simpa using hb
    · exact hb
  · have hc' : Allowed serverNR c :=
      h.allowed j c (by rw [← hargs j]; exact hc.trans_le (w'.nodes j).filed_le)
    rw [hstore, hargs]
    by_cases hkey : key c j = key call.toNat i
    · rw [if_pos hkey]
      obtain ⟨rfl, rfl⟩ | ho | ho := key_allowed hc' hcall hj hi hkey
      · exact .inl hval.symm
      · -- node 10 is overwritten by a later call of node 0
        obtain ⟨hj10, rfl, hlate, -⟩ := ho
        exact .inr ⟨hj10, by omega⟩
      · obtain ⟨hi10, rfl, hlate, -⟩ := ho
        refine absurd ?_ (hlater c hi10 hlate)
        rw [← hargs 0]
        exact hc.trans_le (w'.nodes 0).filed_le
    · rw [if_neg hkey]
      have hc'' : c < (w.nodes j).filed := by
        by_cases hj' : j = i
        · subst hj'
          have hne : c ≠ call.toNat := fun he => hkey (by rw [he])
          omega
        · rwa [hfiled j hj'] at hc
      obtain hold | ⟨h10, hlt⟩ := h.written j hj c hc''
      · exact .inl hold
      · exact .inr ⟨h10, hlt.trans_le (hmono 0)⟩
  · have hc'' : (w.nodes j).filed ≤ c := (hmono j).trans hc
    rw [hstore, if_neg, h.fresh j hj h0 c hca hc'']
    intro hkey
    obtain ⟨rfl, rfl⟩ | ho | ho := key_allowed hca hcall hj hi hkey
    · omega
    · obtain ⟨-, rfl, hlate, -⟩ := ho
      have := h.filed_zero (show call.toNat < (w.nodes 0).args.length by omega)
        (show c < call.toNat by omega) j hj
      omega
    · exact h0 ho.2.1
  · obtain ⟨vs, hvs, hsum⟩ := h.right c r hr
    exact ⟨vs, fun j hj => by rw [hargs]; exact hvs j hj, hsum⟩

/-- What node 0 reads for a node is what that node passed to the same call. -/
theorem Inv.read (h : Inv serverNR w) {call ret v : UInt64} {j : ℕ}
    (hpc : (w.nodes 0).pc = .get call j ret) (hj : j < serverNR.toNat)
    (hget : w.store.memGet (key call.toNat j) = some v) :
    call.toNat < (w.nodes j).filed ∧ (w.nodes j).args[call.toNat]? = some v := by
  obtain ⟨-, hadd⟩ := h.getting 0 call j ret hpc
  have hcall := hadd.call
  have hargs := hadd.args
  have hzero : (w.nodes 0).filed = call.toNat + 1 := by
    simp only [Node.filed, hpc]
    omega
  have hfiled : call.toNat < (w.nodes j).filed := by
    by_cases h0 : j = 0
    · rw [h0]
      omega
    · by_contra hlt
      have hnone := h.fresh j hj h0 _ (h.allowed 0 call.toNat (by omega)) (Nat.le_of_not_lt hlt)
      rw [hnone] at hget
      cases hget
  refine ⟨hfiled, ?_⟩
  obtain hold | ⟨-, hlt⟩ := h.written j hj _ hfiled
  · rw [← hold, hget]
  · omega

theorem Inv.move (h : Inv serverNR w) {call ret : UInt64} {j : ℕ}
    (hpc : (w.nodes 0).pc = .get call j ret) {pc : Pc} (hset : ∀ c v, pc ≠ .set c v)
    {rs : List UInt64}
    (hadd : ∀ c k r, pc = .get c k r → rs = w.results ∧ Adding serverNR w c.toNat k r)
    (hbegun : (w.nodes 0).args.length = rs.length + if pc = .idle then 0 else 1)
    (hdone : ∀ c < rs.length, ∀ l < serverNR.toNat, c < (w.nodes l).filed)
    (hright : Right serverNR { w with results := rs }) :
    Inv serverNR ({ w with results := rs }.put 0 { w.nodes 0 with pc := pc }) := by
  set w' := { w with results := rs }.put 0 { w.nodes 0 with pc := pc } with hw'
  have hnode : ∀ l, w'.nodes l = if l = 0 then { w.nodes 0 with pc := pc } else w.nodes l :=
    Function.update_apply _ _ _
  have hargs : ∀ l, (w'.nodes l).args = (w.nodes l).args := fun l => by
    rw [hnode]
    split
    · rename_i he
      rw [he]
    · rfl
  have hfiled : ∀ l, (w'.nodes l).filed = (w.nodes l).filed := fun l => by
    rw [hnode]
    split
    · rename_i he
      subst he
      cases pc with
      | set c v => exact absurd rfl (hset c v)
      | idle => simp [Node.filed, hpc]
      | get c k r => simp [Node.filed, hpc]
    · rfl
  refine ⟨fun l c hc => h.allowed l c (hargs l ▸ hc), fun l => ?_, fun l call' u hs => ?_,
    fun l call' k r hg => ?_, ?_, fun c hc l hl => by rw [hfiled]; exact hdone c hc l hl,
    fun l hl c hc => ?_, fun l hl h0 c hca hc => h.fresh l hl h0 c hca (hfiled l ▸ hc), fun c r hr => ?_⟩
  · rw [hnode]
    split
    · exact h.count 0
    · exact h.count l
  · rw [hnode] at hs
    split at hs
    · exact absurd hs (hset call' u)
    · rename_i h0
      rw [hnode, if_neg h0]
      exact h.setting l call' u hs
  · rw [hnode] at hg
    split at hg
    · rename_i h0
      obtain ⟨rfl, hk⟩ := hadd call' k r hg
      refine ⟨h0, hk.call, by rw [hargs]; exact hk.args, hk.le, ?_⟩
      obtain ⟨vs, hvs, hret⟩ := hk.sum
      exact ⟨vs, fun l hl => by rw [hfiled, hargs]; exact hvs l hl, hret⟩
    · rename_i h0
      exact absurd (h.getting l call' k r hg).1 h0
  · rw [hargs, hnode, if_pos rfl]
    exact hbegun
  · rw [hfiled] at hc
    rw [hargs, hfiled]
    exact h.written l hl c hc
  · obtain ⟨vs, hvs, hsum⟩ := hright c r hr
    exact ⟨vs, fun l hl => by rw [hargs]; exact hvs l hl, hsum⟩

theorem Adding.next {c j : ℕ} {ret v : UInt64} (h : Adding serverNR w c j ret) (hj : j < serverNR.toNat)
    (hfiled : c < (w.nodes j).filed) (hval : (w.nodes j).args[c]? = some v) :
    Adding serverNR w c (j + 1) (ret + v) := by
  obtain ⟨vs, hvs, hret⟩ := h.sum
  refine ⟨h.call, h.args, hj, Function.update vs j v, fun l hl => ?_, ?_⟩
  · obtain hlt | rfl := Nat.lt_succ_iff_lt_or_eq.mp hl
    · rw [Function.update_of_ne hlt.ne]
      exact hvs l hlt
    · rw [Function.update_self]
      exact ⟨hfiled, hval⟩
  · have hsame : (List.range j).map (Function.update vs j v) = (List.range j).map vs :=
      List.map_congr_left fun l hl => Function.update_of_ne (List.mem_range.mp hl).ne _ _
    rw [List.range_succ, List.map_append, List.sum_append, hsame, hret]
    simp

theorem Inv.add (h : Inv serverNR w) {call ret v : UInt64} {j : ℕ}
    (hpc : (w.nodes i).pc = .get call j ret) (hj : j < serverNR.toNat)
    (hget : w.store.memGet (key call.toNat j) = some v) :
    Inv serverNR (w.put i { w.nodes i with pc := .get call (j + 1) (ret + v) }) := by
  obtain ⟨rfl, hadd⟩ := h.getting i call j ret hpc
  obtain ⟨hfiled, hval⟩ := h.read hpc hj hget
  refine h.move hpc (by simp) (fun c k r hg => ?_) hadd.args h.done h.right
  simp only [Pc.get.injEq] at hg
  obtain ⟨rfl, rfl, rfl⟩ := hg
  exact ⟨rfl, hadd.next hj hfiled hval⟩

theorem Inv.ret (h : Inv serverNR w) {call ret : UInt64} {j : ℕ}
    (hpc : (w.nodes i).pc = .get call j ret) (hj : ¬ j < serverNR.toNat) :
    Inv serverNR ({ w with results := w.results ++ [ret] }.put i { w.nodes i with pc := .idle }) := by
  obtain ⟨rfl, hadd⟩ := h.getting i call j ret hpc
  obtain rfl : j = serverNR.toNat := le_antisymm hadd.le (Nat.le_of_not_lt hj)
  obtain ⟨vs, hvs, hret⟩ := hadd.sum
  have hcall := hadd.call
  refine h.move hpc (by simp) (by simp) (by simp [hadd.args]) (fun c hc l hl => ?_) fun c r hr => ?_
  · rw [List.length_append, List.length_singleton] at hc
    obtain hlt | rfl := Nat.lt_succ_iff_lt_or_eq.mp hc
    · exact h.done c hlt l hl
    · exact hcall ▸ (hvs l hl).1
  · rw [List.getElem?_append] at hr
    split at hr
    · exact h.right c r hr
    · obtain ⟨hlt, rfl⟩ := List.getElem?_eq_some_iff.mp hr
      have hc : c = call.toNat := by
        simp only [List.length_singleton] at hlt
        omega
      exact ⟨vs, fun l hl => by rw [hc]; exact (hvs l hl).2, by simpa using hret⟩

theorem inv_of_reach (h : (system serverNR).Reach (Within serverNR) w) : Inv serverNR w := by
  refine h.invariant (P := Inv serverNR) (fun w hi => ?_) fun w e w' _ hp hin hn => ?_
  · obtain ⟨hn, hs, hr⟩ := hi
    refine ⟨?_, ?_, ?_, ?_, ?_, ?_, ?_, fun i _ _ c _ _ => hs c i, ?_⟩
    all_goals simp [hn, hr, Node.filed, Right]
  · obtain ⟨i, hi, hs⟩ := next_step hin hn
    cases hs with
    | stay => exact hp
    | begin v hpc hall => exact hp.begin v hpc hall
    | file hpc => exact hp.file hi hpc
    | add hpc hj hget => exact hp.add hpc hj hget
    | ret hpc hj => exact hp.ret hpc hj

end step

/-- As long as there are at most eleven nodes, or no node goes beyond its eleventh call, every
result of node 0 is the sum of the values of its call. -/
theorem sum_right {serverNR : UInt16} {w : World} (h : (system serverNR).Reach (Within serverNR) w) :
    Right serverNR w := (inv_of_reach h).right

def noCalls : World := ⟨fun _ => none, fun _ => ⟨0, .idle, []⟩, []⟩

theorem noCalls_init (serverNR : UInt16) : (system serverNR).init noCalls :=
  ⟨fun _ => rfl, fun _ _ => rfl, rfl⟩

/-- Node 1 files its value while node 0 waits for it; the sum wraps. -/
theorem sum_right_two : (system 2).Ends noCalls
    [.call 0 7, .step 0, .step 0, .step 0, .call 1 (2 ^ 64 - 1), .step 1, .step 0, .step 0] fun w =>
      w.results = [6] ∧ Right 2 w := by
  obtain ⟨w, hw, hr, hm⟩ : (system 2).Ends noCalls
      [.call 0 7, .step 0, .step 0, .step 0, .call 1 (2 ^ 64 - 1), .step 1, .step 0, .step 0] fun w =>
        w.results = [6] ∧ (system 2).Meets (Within 2) noCalls
          [.call 0 7, .step 0, .step 0, .step 0, .call 1 (2 ^ 64 - 1), .step 1, .step 0, .step 0] := by
    decide +kernel
  exact ⟨w, hw, hr, sum_right (.run (.init (noCalls_init 2)) hm hw)⟩

/-- All values are 1, except for what node 1 passes to the last call it makes here. Node 1 does
not wait for anybody and comes to its call 11 while node 0 has yet to make its call 1. -/
def hastyNode : List Event :=
  let ones (is : List ℕ) : List Event := is.flatMap fun i => [.call i 1, .step i]
  let adds : List Event := List.replicate 13 (.step 0)
  ones (List.range 12) ++ adds ++ ones (List.range 12) ++ ones (List.replicate 9 1) ++
    [.call 1 100, .step 1] ++ adds

/-- The keys of call 1 of node 11 and of call 11 of node 1 are the same. -/
theorem sum_of_twelve_wrong : ∃ w, (system 12).Reachable w ∧ ¬ Right 12 w := by
  obtain ⟨w, hw, hr, hone⟩ : (system 12).Ends noCalls hastyNode fun w =>
      w.results = [12, 111] ∧ ∀ i < 12, (w.nodes i).args[1]? = some 1 := by
    decide +kernel
  refine ⟨w, .run (.init (noCalls_init 12)) hw, fun hright => ?_⟩
  obtain ⟨vs, hvs, hsum⟩ := hright 1 111 (by rw [hr]; rfl)
  have hvs1 : ∀ i < 12, vs i = 1 := fun i hi =>
    (Option.some.inj ((hone i hi).symm.trans (hvs i hi))).symm
  have hmap : (List.range 12).map vs = List.replicate 12 1 :=
    List.eq_replicate_iff.mpr ⟨by simp, by simpa using hvs1⟩
  rw [show UInt16.toNat 12 = 12 from rfl, hmap] at hsum
  exact absurd hsum (by decide)

end SmartTree.Sum
