import SmartTree.Lib.MaskedCas
import SmartTree.Node

/-! The header of a node as the 64-bit word in memory. Header splits and type switches
update it by masked compare-and-swaps: a split under the complement of `node_type_mask`,
a switch under the mask itself. -/
namespace SmartTree
open MaskedCas

def nodeTypeNumBit : ℕ := 5

/-- `Header::val`: the depth in the lowest byte, then the node type, the number of partial
bytes and the six partial bytes. -/
abbrev HeaderWord := BitVec 64

namespace HeaderWord

def nodeTypeMask : HeaderWord := ((1 <<< nodeTypeNumBit) - 1) <<< 8

def depth (x : HeaderWord) : BitVec 8 := x.extractLsb' 0 8
def nodeType (x : HeaderWord) : BitVec nodeTypeNumBit := x.extractLsb' 8 nodeTypeNumBit
def partialLen (x : HeaderWord) : BitVec (8 - nodeTypeNumBit) :=
  x.extractLsb' (8 + nodeTypeNumBit) (8 - nodeTypeNumBit)
def partialByte (x : HeaderWord) (i : ℕ) : BitVec 8 := x.extractLsb' (16 + 8 * i) 8

def make (depth : BitVec 8) (type : BitVec nodeTypeNumBit) (len : BitVec (8 - nodeTypeNumBit))
    (partials : ℕ → BitVec 8) : HeaderWord :=
  (List.range hPartialLenMax).foldl
    (fun x i => x ||| (partials i).setWidth 64 <<< (16 + 8 * i))
    (depth.setWidth 64 ||| type.setWidth 64 <<< 8 ||| len.setWidth 64 <<< (8 + nodeTypeNumBit))

def ofType (t : NodeType) : HeaderWord := make 0 (BitVec.ofNat _ t.code) 0 fun _ => 0

def splitHeader (old : HeaderWord) (diffIdx : ℕ) : HeaderWord :=
  make (old.depth + BitVec.ofNat _ (diffIdx + 1)) 0 (old.partialLen - BitVec.ofNat _ (diffIdx + 1))
    fun j => if diffIdx + 1 + j < old.partialLen.toNat then old.partialByte (diffIdx + 1 + j) else 0

inductive Party
  | split | switch
deriving DecidableEq

/-- The compare and the swap mask of each party's `cas_mask`. -/
def mask : Party → HeaderWord
  | .split => ~~~nodeTypeMask
  | .switch => nodeTypeMask

/-- A masked update of a header, by a client that has read the word `hdr`: after a header
split, or as the header half of `cas_node_type`. -/
inductive Update
  | split (hdr : HeaderWord) (diffIdx : ℕ)
  | switch (hdr : HeaderWord) (next : NodeType)

namespace Update

def party : Update → Party
  | split _ _ => .split
  | switch _ _ => .switch

def op : Update → Op 64 Party
  | split hdr diffIdx => ⟨.split, hdr, hdr.splitHeader diffIdx⟩
  | switch hdr next => ⟨.switch, hdr, ofType next⟩

def perform (x : HeaderWord) (u : Update) : HeaderWord := u.op.perform mask x
def succeeds (x : HeaderWord) (u : Update) : Bool := u.op.hits mask x

end Update

def after (x : HeaderWord) (us : List Update) : HeaderWord := us.foldl Update.perform x

def results : HeaderWord → List Update → List (Update × Bool)
  | _, [] => []
  | x, u :: us => (u, u.succeeds x) :: results (u.perform x) us

theorem getLsbD_nodeTypeMask (i : ℕ) : nodeTypeMask.getLsbD i = decide (8 ≤ i ∧ i < 13) := by
  by_cases hi : i < 64
  · have h : ∀ j < 64, nodeTypeMask.getLsbD j = decide (8 ≤ j ∧ j < 13) := by decide
    exact h i hi
  · rw [BitVec.getLsbD_of_ge _ _ (not_lt.mp hi)]
    symm
    rw [decide_eq_false_iff_not]
    omega

theorem mask_apart : Pairwise fun f g => mask f &&& mask g = 0#64 := by
  intro f g hne
  cases f <;> cases g <;> first | exact absurd rfl hne | decide

theorem eq_of_masked (u v : HeaderWord) (h : ∀ f, u &&& mask f = v &&& mask f) : u = v := by
  refine BitVec.eq_of_getLsbD_eq fun i hi => ?_
  have h1 := congrArg (fun z => z.getLsbD i) (h .switch)
  have h2 := congrArg (fun z => z.getLsbD i) (h .split)
  simp only [mask, BitVec.getLsbD_and, BitVec.getLsbD_not, hi, decide_true, Bool.true_and] at h1 h2
  cases hm : nodeTypeMask.getLsbD i <;> simp_all

theorem extract_congr {u v m : HeaderWord} {lo len : ℕ} (h : u &&& m = v &&& m)
    (hm : ∀ i < len, lo + i < 64 → m.getLsbD (lo + i) = true) :
    u.extractLsb' lo len = v.extractLsb' lo len := by
  refine BitVec.eq_of_getLsbD_eq fun i hi => ?_
  have hb := congrArg (fun z => z.getLsbD (lo + i)) h
  simp only [BitVec.getLsbD_and] at hb
  simp only [BitVec.getLsbD_extractLsb', hi, decide_true, Bool.true_and]
  by_cases h64 : lo + i < 64
  · rwa [hm i hi h64, Bool.and_true, Bool.and_true] at hb
  · rw [BitVec.getLsbD_of_ge _ _ (not_lt.mp h64), BitVec.getLsbD_of_ge _ _ (not_lt.mp h64)]

theorem nodeType_congr {u v : HeaderWord} (h : u &&& mask .switch = v &&& mask .switch) :
    u.nodeType = v.nodeType := by
  refine extract_congr h fun i hi _ => ?_
  simp only [nodeTypeNumBit] at hi
  rw [mask, getLsbD_nodeTypeMask, decide_eq_true_eq]
  omega

/-- A field away from the node type is determined by the rest of the word. -/
theorem extract_of_split {u v : HeaderWord} (h : u &&& mask .split = v &&& mask .split) {lo len : ℕ}
    (ha : lo + len ≤ 8 ∨ 13 ≤ lo) : u.extractLsb' lo len = v.extractLsb' lo len := by
  refine extract_congr h fun i hi h64 => ?_
  simp only [mask, BitVec.getLsbD_not, h64, getLsbD_nodeTypeMask, decide_true, Bool.true_and,
    Bool.not_eq_true', decide_eq_false_iff_not]
  omega

@[simp] theorem Update.op_field (u : Update) : u.op.field = u.party := by cases u <;> rfl

theorem after_eq_run (x : HeaderWord) (us : List Update) :
    x.after us = run mask x (us.map Update.op) := by
  rw [run, List.foldl_map]
  rfl

theorem filter_op (us : List Update) (f : Party) :
    (us.map Update.op).filter (fun op => op.field = f) =
      (us.filter fun u => u.party = f).map Update.op := by
  rw [List.filter_map]
  congr 1
  refine List.filter_congr fun u _ => ?_
  simp

variable {x y : HeaderWord}

theorem Update.nodeType_split (hdr : HeaderWord) (i : ℕ) :
    ((split hdr i).perform x).nodeType = x.nodeType :=
  nodeType_congr (Op.perform_apart (mask_apart (by simp [party])))

theorem Update.extract_switch (hdr : HeaderWord) (next : NodeType) {lo len : ℕ}
    (ha : lo + len ≤ 8 ∨ 13 ≤ lo) :
    ((switch hdr next).perform x).extractLsb' lo len = x.extractLsb' lo len :=
  extract_of_split (Op.perform_apart (mask_apart (by simp [party]))) ha

/-- The updates of one party succeed as they would without the other. -/
theorem results_party (f : Party) (us : List Update) (h : x &&& mask f = y &&& mask f) :
    (x.results us).filter (fun q => q.1.party = f) =
      y.results (us.filter fun u => u.party = f) := by
  induction us generalizing x y with
  | nil => rfl
  | cons u us ih =>
    by_cases hf : u.party = f
    · subst hf
      rw [← Update.op_field] at h
      simp only [results, List.filter_cons, decide_true, if_true]
      rw [ih (x := u.perform x) (y := u.perform y) ?_, Update.succeeds, Update.succeeds,
        Op.hits_congr h]
      rw [← Update.op_field]
      exact Op.perform_congr h
    · simp only [results, List.filter_cons, hf, decide_false]
      refine ih ?_
      rw [Update.perform, Op.perform_apart (mask_apart (by rwa [Update.op_field])), h]

/-- In any interleaving of header splits and type switches each succeeds exactly if it would
without the other party, leaves the other party's fields alone, and the final word depends only
on the order within each party. -/
theorem splits_and_switches_apart (x : HeaderWord) (us : List Update) :
    (∀ f, (x.results us).filter (fun q => q.1.party = f) =
      x.results (us.filter fun u => u.party = f)) ∧
    (∀ hdr i, ((Update.split hdr i).perform x).nodeType = x.nodeType) ∧
    (∀ hdr next, ((Update.switch hdr next).perform x).depth = x.depth ∧
      ((Update.switch hdr next).perform x).partialLen = x.partialLen ∧
      ∀ i, ((Update.switch hdr next).perform x).partialByte i = x.partialByte i) ∧
    ∀ us', (∀ f, us.filter (fun u => u.party = f) = us'.filter fun u => u.party = f) →
      x.after us = x.after us' := by
  refine ⟨fun f => results_party f us rfl, fun hdr i => Update.nodeType_split hdr i,
    fun hdr next => ⟨?_, ?_, fun i => ?_⟩, fun us' h => ?_⟩
  · exact Update.extract_switch hdr next (.inl le_rfl)
  · exact Update.extract_switch hdr next (.inr le_rfl)
  · exact Update.extract_switch hdr next (.inr (by omega))
  · rw [after_eq_run, after_eq_run]
    refine run_eq_of_fields mask_apart eq_of_masked fun f => ?_
    rw [filter_op, filter_op, h f]

end HeaderWord
end SmartTree
