import SmartTree.GlobalAddress
import SmartTree.HeaderWord
import Mathlib.Logic.Function.Basic

/-! `cas_mask_sync` and `two_cas_mask_sync`. The NIC compares and swaps under the mask and returns
the word it found; the client infers from that word whether the swap was made. -/
namespace SmartTree
open MaskedCas

/-- Where a word lies: `dest` and `is_on_chip` of an `RdmaOpRegion`. -/
structure Place where
  dest : GlobalAddress
  isOnChip : Bool
deriving DecidableEq

abbrev Words := Place → BitVec 64

/-- A masked compare-and-swap; each has a buffer of its own for the word it finds. -/
structure CasMask where
  place : Place
  equal : BitVec 64
  val : BitVec 64
  mask : BitVec 64

namespace CasMask
variable (c d : CasMask) (m : Words)

/-- The work request of `rdmaCompareAndSwapMask`: one mask for the compare and the swap. -/
def request : Op 64 (BitVec 64) := ⟨c.mask, c.equal, c.val⟩

def hits : Bool := c.request.hits id (m c.place)

/-- `cas_mask`: the word that reaches the buffer, and the memory afterwards. -/
def casMask : BitVec 64 × Words :=
  (m c.place, Function.update m c.place (c.request.perform id (m c.place)))

def casMaskSync : Bool × Words :=
  let r := c.casMask m
  (c.equal &&& c.mask == r.1 &&& c.mask, r.2)

/-- What the other clients do to the memory between the two operations of a pair, and which of
the two is carried out first if they go to different nodes. -/
structure Schedule where
  between : Words → Words
  secondFirst : Bool

variable (s : Schedule)

/-- `two_cas_mask`: one chain of two requests, carried out in order. -/
def twoCasMask : (BitVec 64 × BitVec 64) × Words :=
  let x := c.casMask m
  let y := d.casMask (s.between x.2)
  ((x.1, y.1), y.2)

def eachCasMask : (BitVec 64 × BitVec 64) × Words :=
  if s.secondFirst then
    let y := d.casMask m
    let x := c.casMask (s.between y.2)
    ((x.1, y.1), x.2)
  else
    let x := c.casMask m
    let y := d.casMask (s.between x.2)
    ((x.1, y.1), y.2)

def twoCasMaskSync : (Bool × Bool) × Words :=
  let r := if c.place.dest.nodeID = d.place.dest.nodeID then twoCasMask c d m s
    else eachCasMask c d m s
  ((c.equal == r.1.1, d.equal == r.1.2), r.2)

def met : Words × Words :=
  if c.place.dest.nodeID ≠ d.place.dest.nodeID ∧ s.secondFirst = true then
    (s.between (d.casMask m).2, m)
  else (m, s.between (c.casMask m).2)

/-- The word agrees with the compare value on all bits, or differs from it under the mask. -/
def Plain : Prop :=
  m c.place &&& ~~~c.mask = c.equal &&& ~~~c.mask ∨ m c.place &&& c.mask ≠ c.equal &&& c.mask

instance : Decidable (c.Plain m) := inferInstanceAs (Decidable (_ ∨ _))

variable {c d m s}

theorem hits_iff : c.hits m = true ↔ m c.place &&& c.mask = c.equal &&& c.mask := by
  simp [hits, Op.hits, request]

theorem casMaskSync_fst : (c.casMaskSync m).1 = c.hits m := by
  rw [Bool.eq_iff_iff, hits_iff]
  simp only [casMaskSync, casMask, beq_iff_eq]
  exact eq_comm

theorem eq_of_mask {x y z : BitVec 64} (h1 : x &&& z = y &&& z) (h2 : x &&& ~~~z = y &&& ~~~z) :
    x = y := by
  refine BitVec.eq_of_getLsbD_eq fun i hi => ?_
  have b1 := congrArg (fun w => w.getLsbD i) h1
  have b2 := congrArg (fun w => w.getLsbD i) h2
  simp only [BitVec.getLsbD_and, BitVec.getLsbD_not, hi, decide_true, Bool.true_and] at b1 b2
  cases hz : z.getLsbD i <;> simp_all

/-- The comparison of whole words agrees with the masked one exactly on plain words. -/
theorem equal_eq_hits_iff : (c.equal == m c.place) = c.hits m ↔ c.Plain m := by
  rw [Bool.eq_iff_iff, hits_iff, beq_iff_eq]
  constructor
  · intro h
    by_cases hm : m c.place &&& c.mask = c.equal &&& c.mask
    · exact .inl (by rw [h.mpr hm])
    · exact .inr hm
  · intro h
    refine ⟨fun he => by rw [he], fun hm => ?_⟩
    obtain hout | hne := h
    · exact (eq_of_mask hm hout).symm
    · exact absurd hm hne

/-- Both paths compare each compare value with the word its operation met. -/
theorem twoCasMaskSync_fst : (twoCasMaskSync c d m s).1 =
    (c.equal == (met c d m s).1 c.place, d.equal == (met c d m s).2 d.place) := by
  unfold twoCasMaskSync met
  by_cases hn : c.place.dest.nodeID = d.place.dest.nodeID
  · simp [hn, twoCasMask, casMask]
  · cases hs : s.secondFirst <;> simp [hn, hs, eachCasMask, casMask]

/-- The pair is what the masked compares did, and what `cas_mask_sync` would report, exactly if
both words met are plain. -/
theorem two_cas_mask_sync_reports_iff (c d : CasMask) (m : Words) (s : Schedule) :
    ((twoCasMaskSync c d m s).1 = (c.hits (met c d m s).1, d.hits (met c d m s).2) ↔
      c.Plain (met c d m s).1 ∧ d.Plain (met c d m s).2) ∧
    ((twoCasMaskSync c d m s).1 =
        ((c.casMaskSync (met c d m s).1).1, (d.casMaskSync (met c d m s).2).1) ↔
      c.Plain (met c d m s).1 ∧ d.Plain (met c d m s).2) := by
  rw [casMaskSync_fst, casMaskSync_fst, twoCasMaskSync_fst, Prod.mk.injEq, equal_eq_hits_iff,
    equal_eq_hits_iff]
  exact ⟨Iff.rfl, Iff.rfl⟩

/-- `cas_node_type` on a node of the smallest type: its entry at offset 256 of node 0, its header
on the given node, read as depth 1 with the bytes 5, 5. -/
def entrySwitch : CasMask := ⟨⟨⟨0, 256⟩, false⟩, 0x20407, 0x20807, ~~~0⟩
@[inherit_doc entrySwitch] def headerSwitch (id : BitVec 16) : CasMask :=
  ⟨⟨⟨id, 520⟩, false⟩, 0x05054101, 0x200, HeaderWord.nodeTypeMask⟩

/-- The entry as read, and the header since split at its first byte. -/
def splitSince : Words := fun p => if p.dest.offset = 256 then 0x20407 else 0x00052102

def undisturbed : Schedule := ⟨fun m => m, false⟩

/-- The switch of the header is made, and `cas_mask_sync` would say so, but it is reported as
failed. -/
def MadeNotReported (id : BitVec 16) : Prop :=
  (twoCasMaskSync entrySwitch (headerSwitch id) splitSince undisturbed).1 = (true, false) ∧
    (headerSwitch id).hits (met entrySwitch (headerSwitch id) splitSince undisturbed).2 = true ∧
    ((headerSwitch id).casMaskSync
      (met entrySwitch (headerSwitch id) splitSince undisturbed).2).1 = true

/-- So it is on both paths. -/
theorem switch_made_but_not_reported : MadeNotReported 0 ∧ MadeNotReported 1 := by
  constructor <;> (unfold MadeNotReported; decide +kernel)

end CasMask
end SmartTree
