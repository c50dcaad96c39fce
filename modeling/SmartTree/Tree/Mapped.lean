import SmartTree.Lib.MapMachine
import SmartTree.Tree.Alone
import SmartTree.Tree.OnWay

/-! The tree of a lone client as a map: the pairs of its published leaves, once what the client
is in the middle of has been carried out, are the content of a sequential map. -/
namespace SmartTree
open Transition MapMachine
variable {n : ℕ} {L L' : Layout} {m m' : Mem n} {c c' : Client n} {k : Key n} {v : Value}
  {l : Addr} {M : Key n → Option Value} {x : MapState (Key n) Value} {crc : Key n → Value → UInt64}

def Mem.pair (m : Mem n) (l : Addr) : Key n × Value := ((m.leaf l).key, (m.leaf l).value)

theorem Mem.pair_setLeaf {a : Addr} {f : Leaf n → Leaf n} {q : Key n × Value}
    (h : ((f (m.leaf a)).key, (f (m.leaf a)).value) = q) (l : Addr) :
    (m.setLeaf a f).pair l = if l = a then q else m.pair l := by
  split
  · rename_i hl
    subst hl
    simpa [pair] using h
  · rename_i hl
    simp [pair, setLeaf_ne _ _ hl]

def Represents (L : Layout) (m : Mem n) (M : Key n → Option Value) : Prop :=
  ∀ k v, M k = some v ↔ ∃ l, L l = some .leaf ∧ m.pair l = (k, v)

theorem TreeInv.leaf_inj (ht : TreeInv L m) {l' : Addr} (hl : L l = some .leaf)
    (hl' : L l' = some .leaf) (hk : (m.leaf l).key = (m.leaf l').key) : l = l' := by
  obtain ⟨p, σ, hp, hpl⟩ := ht.parent l (by simp [hl])
  obtain ⟨q, τ, hq, hql⟩ := ht.parent l' (by simp [hl'])
  obtain ⟨b, hb⟩ := ht.load_leaf hp hpl hl
  obtain ⟨b', hb'⟩ := ht.load_leaf hq hql hl'
  obtain rfl := ht.leaf_unique hp hq hb hb' hk
  rw [hb] at hb'
  cases hb'
  rfl

namespace Represents

theorem congr (h : Represents L m M) (hp : ∀ l, L l = some .leaf → m'.pair l = m.pair l) :
    Represents L m' M := by
  intro k v
  refine (h k v).trans (exists_congr fun l => and_congr_right fun hl => ?_)
  rw [hp l hl]

theorem planted (h : Represents L m M) (hM : M k = some v) : Planted L m k := by
  obtain ⟨l, hl, hp⟩ := (h k v).mp hM
  exact ⟨l, hl, congrArg Prod.fst hp⟩

theorem leaf (h : Represents L m M) (hl : L l = some .leaf) :
    M (m.leaf l).key = some (m.leaf l).value :=
  (h _ _).mpr ⟨l, hl, rfl⟩

theorem absent (h : Represents L m M) (hk : ¬ Planted L m k) : M k = none := by
  cases hM : M k with
  | none => rfl
  | some v => exact absurd (h.planted hM) hk

theorem publish (h : Represents L m M) (hk : ¬ Planted L m k) (hl : m'.pair l = (k, v))
    (hL : ∀ a, L' a = some .leaf ↔ a = l ∨ L a = some .leaf)
    (hp : ∀ a, L a = some .leaf → m'.pair a = m.pair a) :
    Represents L' m' (Function.update M k (some v)) := by
  intro q w
  by_cases hq : q = k
  · subst hq
    rw [Function.update_self]
    constructor
    · rintro ⟨⟩
      exact ⟨l, (hL l).mpr (.inl rfl), hl⟩
    · rintro ⟨a, ha, hpa⟩
      obtain rfl | ha := (hL a).mp ha
      · rw [hl] at hpa
        cases hpa
        rfl
      · refine absurd ⟨a, ha, ?_⟩ hk
        rw [hp a ha] at hpa
        exact congrArg Prod.fst hpa
  · rw [Function.update_of_ne hq]
    refine (h q w).trans ⟨fun ⟨a, ha, hpa⟩ => ⟨a, (hL a).mpr (.inr ha), (hp a ha).trans hpa⟩, ?_⟩
    rintro ⟨a, ha, hpa⟩
    obtain rfl | ha := (hL a).mp ha
    · rw [hl] at hpa
      cases hpa
      exact absurd rfl hq
    · exact ⟨a, ha, (hp a ha).symm.trans hpa⟩

theorem update (ht : TreeInv L m) (h : Represents L m M) (hl : L l = some .leaf)
    (hk : (m.leaf l).key = k) (hp : ∀ a, m'.pair a = if a = l then (k, v) else m.pair a) :
    Represents L m' (Function.update M k (some v)) := by
  intro q w
  by_cases hq : q = k
  · subst hq
    rw [Function.update_self]
    constructor
    · rintro ⟨⟩
      exact ⟨l, hl, by rw [hp, if_pos rfl]⟩
    · rintro ⟨a, ha, hpa⟩
      rw [hp] at hpa
      split at hpa
      · cases hpa
        rfl
      · rename_i hne
        exact absurd (ht.leaf_inj ha hl ((congrArg Prod.fst hpa).trans hk.symm)) hne
  · rw [Function.update_of_ne hq]
    refine (h q w).trans (exists_congr fun a => and_congr_right fun ha => ?_)
    rw [hp]
    split
    · rename_i hal
      subst hal
      constructor
      · intro hpa
        exact absurd ((congrArg Prod.fst hpa).symm.trans hk) hq
      · intro hpa
        exact absurd (congrArg Prod.fst hpa).symm hq
    · exact Iff.rfl

end Represents

theorem Mem.performAll_pair (ops : List RemoteOp) (l : Addr) :
    (ops.foldl Mem.perform m).pair l = m.pair l := by
  induction ops generalizing m with
  | nil => rfl
  | cons op ops ih =>
    obtain ⟨rev, he⟩ := m.perform_leaf l op
    rw [List.foldl_cons, ih]
    simp [Mem.pair, he]

def Pc.writing : Pc → Bool
  | .writeBack _ => true
  | _ => false

def Pc.reading : Pc → Bool
  | .readRoot | .next | .readLeaf _ | .reread | .gotLeaf | .readNode _ | .readRest _ | .nodeRead
  | .scan | .fault => true
  | _ => false

namespace Client

/-- What a client still has to write changes no pair, unless it writes a leaf back. -/
theorem settle_pair (h : c.pc.writing = false) (l : Addr) : (c.settle m).pair l = m.pair l := by
  unfold settle
  cases hpc : c.pc <;> simp only [hpc, Pc.writing, Bool.true_eq_false] at h ⊢
  case switchEntry w =>
    refine Eq.trans ?_ (Mem.performAll_pair (c.pending ++ c.dueOps) l)
    change (Mem.store _ _ _).pair l = _
    simp [Mem.pair]
  case combineWrite =>
    rw [Mem.pair_setLeaf rfl]
    split
    · rename_i he
      rw [he]
      exact Mem.performAll_pair ..
    · exact Mem.performAll_pair ..
  all_goals exact Mem.performAll_pair ..

def call (c : Client n) : MapOp (Key n) Value :=
  if c.isSearch then .search c.key else .insert c.isLoad c.key c.value

def op (c : Client n) : Option (MapOp (Key n) Value) :=
  match c.pc with
  | .idle => none
  | _ => some c.call

def effect (c : Client n) (M : Key n → Option Value) : Key n → Option Value :=
  match c.pc with
  | .writeBack _ | .splitRev _ _ | .splitHdr _ | .switchEntry _ | .switchHdr _ | .switchDown _
  | .switchEnd _ => put M c.isLoad c.key c.value
  | .finish _ => if c.isSearch then M else put M c.isLoad c.key c.value
  | _ => M

/-- The program points of an insert are not those of a search, and a search that is about to
return has the answer. -/
def Replies (M : Key n → Option Value) (c : Client n) : Prop :=
  match c.pc with
  | .finish r => c.isSearch = true → M c.key = if r then some c.value else none
  | .noTree => c.isSearch = true ∧ ∀ k, M k = none
  | .combineUpdate | .acquireLock | .combineWrite | .writeBack _ =>
    c.isSearch = false ∧ c.isLoad = false
  | .leafPrepare _ | .leafWrite _ | .leafCas _ | .splitPrepare _ | .splitWrite _ _ _
  | .splitCas _ _ | .splitRev _ _ | .splitHdr _ | .emptyScan _ | .switchEntry _ | .switchHdr _
  | .switchDown _ | .switchEnd _ => c.isSearch = false
  | _ => True

structure Mapped (L : Layout) (m : Mem n) (c : Client n) (x : MapState (Key n) Value) : Prop where
  running : x.running = c.op
  content : Represents L (c.settle m) (c.effect x.content)
  replies : c.Replies x.content

/-- A step that changes no pair in thought, and nothing about the operation. -/
theorem Mapped.same (h : c.Mapped L m x) (hop : c'.op = c.op)
    (he : c'.effect x.content = c.effect x.content)
    (hp : ∀ l, L l = some .leaf → (c'.settle m').pair l = (c.settle m).pair l)
    (hr : c'.Replies x.content) : c'.Mapped L m' x where
  running := h.running.trans hop.symm
  content := by
    rw [he]
    exact h.content.congr hp
  replies := hr

theorem Mapped.moved (h : c.Mapped L m x) (hop : c'.op = c.op)
    (he : c'.effect x.content = c.effect x.content) (hw : c.pc.writing = false)
    (hw' : c'.pc.writing = false) (hp : ∀ l, L l = some .leaf → m'.pair l = m.pair l)
    (hr : c'.Replies x.content) : c'.Mapped L m' x :=
  h.same hop he (fun l hl => by rw [settle_pair hw', settle_pair hw, hp l hl]) hr

theorem reading_eq (h : c.pc.reading = true) :
    c.op = some c.call ∧ c.effect M = M ∧ c.pc.writing = false ∧ c.Replies M := by
  unfold op effect Replies
  cases hpc : c.pc <;> simp_all [Pc.reading, Pc.writing]

theorem op_reading (h : c.pc.reading = true) : c.op = some c.call :=
  (reading_eq (M := fun _ => none) h).1

theorem effect_reading (h : c.pc.reading = true) : c.effect M = M := (reading_eq h).2.1

theorem writing_of_reading (h : c.pc.reading = true) : c.pc.writing = false :=
  (reading_eq (M := fun _ => none) h).2.2.1

theorem replies_reading (h : c.pc.reading = true) : c.Replies M := (reading_eq h).2.2.2

theorem Mapped.read (h : c.Mapped L m x) (hc : c.pc.reading = true) (hc' : c'.pc.reading = true)
    (hcall : c'.call = c.call) : c'.Mapped L m x :=
  h.moved (by rw [op_reading hc, op_reading hc', hcall]) (by rw [effect_reading hc, effect_reading hc'])
    (writing_of_reading hc) (writing_of_reading hc') (fun _ _ => rfl) (replies_reading hc')

/-- What the tree itself represents while the operation does not count. -/
theorem Mapped.before (h : c.Mapped L m x) (hw : c.pc.writing = false)
    (he : c.effect x.content = x.content) : Represents L m x.content := by
  have hr := h.content
  rw [he] at hr
  exact hr.congr fun l _ => (settle_pair hw l).symm

theorem Mapped.represents (h : c.Mapped L m x) (hc : c.pc.reading = true) :
    Represents L m x.content :=
  h.before (writing_of_reading hc) (effect_reading hc)

theorem op_insert (hs : c.isSearch = false) (hpc : c.pc ≠ .idle) :
    c.op = some (.insert c.isLoad c.key c.value) := by
  unfold op call
  cases hc : c.pc <;> simp_all

end Client
end SmartTree
