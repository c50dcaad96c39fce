import SmartTree.Lib.Transition
import Mathlib.Logic.Function.Basic

/-! The local lock table: read delegation and write combining between the clients of
one compute node. Every shared access of the key versions of acquire and release is
one step; a mutex-protected access of the combining buffer is one step as well. The
8-bit counters are kept unwrapped and compared modulo 256. Times are history only. -/
namespace SmartTree.LocalLock

inductive Side where
  | read | write
deriving DecidableEq

def Side.other : Side → Side
  | .read => .write
  | .write => .read

@[simp] theorem Side.other_ne (sd : Side) : sd.other ≠ sd := by cases sd <;> decide
theorem Side.eq_other_of_ne {sd sd' : Side} (h : sd ≠ sd') : sd' = sd.other := by
  cases sd <;> cases sd' <;> simp_all [Side.other]

@[simp] theorem Side.ne_other (sd : Side) : sd ≠ sd.other := by cases sd <;> decide

/-- One waiting queue of a lock node, with its window, mutex and unique key. -/
structure Queue (κ : Type*) where
  current : ℕ
  ticket : ℕ
  handover : Bool
  window : ℕ
  locked : Bool
  uniqueKey : Option κ

/-- `LocalLockNode`; the last three fields record when the write key was opened, the
buffer stored, and the leaf of the published result read. -/
structure LockNode (κ ν : Type*) where
  queue : Side → Queue κ
  windowStart : Bool
  res : Bool
  retValue : ν
  wcBuffer : ν
  keyAt : ℕ
  wcAt : ℕ
  resAt : ℕ

/-- Call sites of `get_combining_value`: before comparing a found leaf, before the
in-place write, and before an out-of-place leaf is installed. -/
inductive Site where
  | check | inPlace | place
deriving DecidableEq

inductive Pc where
  | idle
  | casKey | deposit | takeTicket | wait | loadKey
  | cLoadWin | cDec | cLoadRead | cLoadWrite | cClose | cBump
  | loadWin | clearHand | loadHand
  | body | getKey (site : Site) | getBuf (site : Site) | checkLeaf | writeLeaf | placeLeaf
  | testHand | storeRes | storeVal | loadRes | loadVal
  | rTicket | rCurrent | rLoadHand | rCasWin
  | oLock | oCurrent | oTicket | oStoreOther | oUnlock | oStoreOwn
  | rStoreHand | rTestKey | rClearKey | rLock | rLoadWin | rDec | rLoadRead | rLoadWrite | rClose
  | rBump | rUnlock | ret
deriving DecidableEq

/-- Locals of the running (or last) `insert` or `search` of a client. -/
structure Client (κ ν : Type*) where
  pc : Pc
  side : Side
  key : κ
  arg : ν
  isLoad : Bool
  val : ν
  found : Bool
  acq : Bool × Bool
  ticket : ℕ
  relTicket : ℕ
  relCurrent : ℕ
  othTicket : ℕ
  othCurrent : ℕ
  invAt : ℕ
  depAt : Option ℕ
  valAt : Option ℕ
  wroteAt : Option ℕ
  readAt : ℕ

/-- What the tree answers at a step that depends on it. -/
inductive Choice (κ ν : Type*) where
  | go
  | beginInsert (key : κ) (v : ν) (isLoad : Bool)
  | beginSearch (key : κ)
  | foundLeaf | noLeaf
  | sameValue | differs
  | casOk | casFail
  | traversed (found : Bool) (v : ν)

/-- Remote leaf write: when, for which key, with which value, and when that value was deposited. -/
structure LeafWrite (κ ν : Type*) where
  issuedAt : ℕ
  key : κ
  value : ν
  depAt : Option ℕ

structure Completed (κ : Type*) where
  key : κ
  wroteAt : ℕ
  returnedAt : ℕ

inductive Obs (κ ν : Type*) where
  | silent
  | deposited (key : κ) (v : ν)
  | leafWrite (w : LeafWrite κ ν)
  | completed (c : Completed κ)

variable {κ ν : Type*} [DecidableEq κ]

namespace LockNode
variable (n : LockNode κ ν)

def setQueue (sd : Side) (q : Queue κ) : LockNode κ ν :=
  { n with queue := Function.update n.queue sd q }

omit [DecidableEq κ] in
theorem setQueue_queue (sd sd' : Side) (q : Queue κ) :
    (n.setQueue sd q).queue sd' = if sd' = sd then q else n.queue sd' := by
  simp [setQueue, Function.update_apply]

omit [DecidableEq κ] in
theorem setQueue_keeps {α : Type*} (f : Queue κ → α) (sd sd' : Side) {q : Queue κ}
    (h : f q = f (n.queue sd)) : f ((n.setQueue sd q).queue sd') = f (n.queue sd') := by
  rw [setQueue_queue]
  split
  · rename_i he
    rw [he, h]
  · rfl

def setWindow (sd : Side) (w : ℕ) : LockNode κ ν := n.setQueue sd { n.queue sd with window := w }
def setHandover (sd : Side) (b : Bool) : LockNode κ ν := n.setQueue sd { n.queue sd with handover := b }
def setLocked (sd : Side) (b : Bool) : LockNode κ ν := n.setQueue sd { n.queue sd with locked := b }
def setKey (sd : Side) (k : Option κ) : LockNode κ ν := n.setQueue sd { n.queue sd with uniqueKey := k }
def bumpTicket (sd : Side) : LockNode κ ν :=
  n.setQueue sd { n.queue sd with ticket := (n.queue sd).ticket + 1 }
def bumpCurrent (sd : Side) : LockNode κ ν :=
  n.setQueue sd { n.queue sd with current := (n.queue sd).current + 1 }
def decWindow (sd : Side) : LockNode κ ν := n.setWindow sd (((n.queue sd).window + 255) % 256)

end LockNode

def outstanding (ticket current : ℕ) : ℕ := (256 + ticket % 256 - current % 256) % 256

def afterAcquire (c : Client κ ν) : Client κ ν :=
  if c.acq = (true, false) then { c with pc := if c.side = .read then .testHand else .rTicket }
  else { c with pc := .body }

/-- Leaving the body: a conflicting client returns at once, the others release. -/
def leaveBody (c : Client κ ν) : Client κ ν :=
  { c with pc := if c.acq.2 then .ret else if c.side = .read then .testHand else .rTicket }

/-- What a returning insert reports; a handed-over one wrote nothing itself. -/
def returnObs (now : ℕ) (c : Client κ ν) : Obs κ ν :=
  match c.side, c.wroteAt with
  | .write, some w => .completed ⟨c.key, w, now⟩
  | _, _ => .silent

/-- Where a call site goes on after `get_combining_value`. -/
def Site.after : Site → Pc
  | .check => .checkLeaf
  | .inPlace => .writeLeaf
  | .place => .placeLeaf

def afterGet (c : Client κ ν) (site : Site) : Client κ ν := { c with pc := site.after }

def act (now : ℕ) (n : LockNode κ ν) (c : Client κ ν) (ch : Choice κ ν) :
    Option (LockNode κ ν × Client κ ν × Obs κ ν) :=
  let q := n.queue c.side
  match c.pc, ch with
  -- acquire
  | .casKey, .go =>
    let next : Pc := if c.side = .write then .deposit else .takeTicket
    match q.uniqueKey with
    | none =>
      some ({ n.setKey c.side (some c.key) with keyAt := if c.side = .write then now else n.keyAt },
        { c with pc := next }, .silent)
    | some k =>
      if k = c.key then some (n, { c with pc := next }, .silent)
      else some (n, { c with acq := (false, true), pc := .body }, .silent)
  | .deposit, .go =>
    some ({ n with wcBuffer := c.val, wcAt := now },
      { c with pc := .takeTicket, depAt := some now, valAt := some now }, .deposited c.key c.val)
  | .takeTicket, .go => some (n.bumpTicket c.side, { c with pc := .wait, ticket := q.ticket }, .silent)
  | .wait, .go =>
    some (n, { c with pc := if c.ticket % 256 = q.current % 256 then .loadKey else .wait }, .silent)
  | .loadKey, .go =>
    some (n, { c with pc := if q.uniqueKey = some c.key then .loadWin else .cLoadWin }, .silent)
  | .cLoadWin, .go => some (n, { c with pc := if q.window = 0 then .cBump else .cDec }, .silent)
  | .cDec, .go => some (n.decWindow c.side, { c with pc := .cLoadRead }, .silent)
  | .cLoadRead, .go =>
    some (n, { c with pc := if (n.queue .read).window = 0 then .cLoadWrite else .cBump }, .silent)
  | .cLoadWrite, .go =>
    some (n, { c with pc := if (n.queue .write).window = 0 then .cClose else .cBump }, .silent)
  | .cClose, .go => some ({ n with windowStart := false }, { c with pc := .cBump }, .silent)
  | .cBump, .go => some (n.bumpCurrent c.side, { c with acq := (false, true), pc := .body }, .silent)
  | .loadWin, .go => some (n, { c with pc := if q.window = 0 then .clearHand else .loadHand }, .silent)
  | .clearHand, .go => some (n.setHandover c.side false, { c with pc := .loadHand }, .silent)
  | .loadHand, .go => some (n, afterAcquire { c with acq := (q.handover, false) }, .silent)
  -- the operation between acquire and release
  | .body, .foundLeaf =>
    if c.side = .write then
      if c.isLoad then some (n, leaveBody c, .silent)
      else some (n, { c with pc := .getKey .check }, .silent)
    else none
  | .body, .noLeaf => if c.side = .write then some (n, { c with pc := .getKey .place }, .silent) else none
  | .body, .traversed found v =>
    if c.side = .read then
      some (n, leaveBody { c with found := found, val := v, readAt := now }, .silent)
    else none
  | .getKey site, .go =>
    some (n, if q.uniqueKey = some c.key then { c with pc := .getBuf site } else afterGet c site, .silent)
  | .getBuf site, .go =>
    some (n, afterGet { c with val := n.wcBuffer, valAt := some n.wcAt } site, .silent)
  | .checkLeaf, .sameValue => some (n, leaveBody c, .silent)
  | .checkLeaf, .differs => some (n, { c with pc := .getKey .inPlace }, .silent)
  | .writeLeaf, .go =>
    some (n, leaveBody { c with wroteAt := some now }, .leafWrite ⟨now, c.key, c.val, c.valAt⟩)
  | .placeLeaf, .casOk =>
    some (n, leaveBody { c with wroteAt := some now }, .leafWrite ⟨now, c.key, c.val, c.valAt⟩)
  | .placeLeaf, .casFail => some (n, { c with pc := .body }, .silent)
  -- release
  | .testHand, .go => some (n, { c with pc := if q.handover then .loadRes else .storeRes }, .silent)
  | .storeRes, .go => some ({ n with res := c.found, resAt := c.readAt }, { c with pc := .storeVal }, .silent)
  | .storeVal, .go => some ({ n with retValue := c.val }, { c with pc := .rTicket }, .silent)
  | .loadRes, .go => some (n, { c with found := n.res, readAt := n.resAt, pc := .loadVal }, .silent)
  | .loadVal, .go => some (n, { c with val := n.retValue, pc := .rTicket }, .silent)
  | .rTicket, .go => some (n, { c with relTicket := q.ticket, pc := .rCurrent }, .silent)
  | .rCurrent, .go => some (n, { c with relCurrent := q.current, pc := .rLoadHand }, .silent)
  | .rLoadHand, .go => some (n, { c with pc := if q.handover then .rStoreHand else .rCasWin }, .silent)
  | .rCasWin, .go =>
    if n.windowStart then some (n, { c with pc := .rStoreHand }, .silent)
    else some ({ n with windowStart := true },
      { c with pc := if c.side = .read then .oStoreOwn else .oLock }, .silent)
  | .oLock, .go =>
    if (n.queue c.side.other).locked then none
    else some (n.setLocked c.side.other true, { c with pc := .oCurrent }, .silent)
  | .oCurrent, .go =>
    some (n, { c with othCurrent := (n.queue c.side.other).current, pc := .oTicket }, .silent)
  | .oTicket, .go =>
    some (n, { c with othTicket := (n.queue c.side.other).ticket, pc := .oStoreOther }, .silent)
  | .oStoreOther, .go =>
    some (n.setWindow c.side.other (outstanding c.othTicket c.othCurrent), { c with pc := .oUnlock }, .silent)
  | .oUnlock, .go =>
    some (n.setLocked c.side.other false,
      { c with pc := if c.side = .read then .rStoreHand else .oStoreOwn }, .silent)
  | .oStoreOwn, .go =>
    some (n.setWindow c.side (outstanding c.relTicket c.relCurrent),
      { c with pc := if c.side = .read then .oLock else .rStoreHand }, .silent)
  | .rStoreHand, .go =>
    some (n.setHandover c.side (decide (c.relTicket % 256 ≠ (c.relCurrent + 1) % 256)),
      { c with pc := .rTestKey }, .silent)
  | .rTestKey, .go => some (n, { c with pc := if q.handover then .rLock else .rClearKey }, .silent)
  | .rClearKey, .go => some (n.setKey c.side none, { c with pc := .rLock }, .silent)
  | .rLock, .go =>
    if q.locked then none else some (n.setLocked c.side true, { c with pc := .rLoadWin }, .silent)
  | .rLoadWin, .go => some (n, { c with pc := if q.window = 0 then .rBump else .rDec }, .silent)
  | .rDec, .go => some (n.decWindow c.side, { c with pc := .rLoadRead }, .silent)
  | .rLoadRead, .go =>
    some (n, { c with pc := if (n.queue .read).window = 0 then .rLoadWrite else .rBump }, .silent)
  | .rLoadWrite, .go =>
    some (n, { c with pc := if (n.queue .write).window = 0 then .rClose else .rBump }, .silent)
  | .rClose, .go => some ({ n with windowStart := false }, { c with pc := .rBump }, .silent)
  | .rBump, .go => some (n.bumpCurrent c.side, { c with pc := .rUnlock }, .silent)
  | .rUnlock, .go => some (n.setLocked c.side false, { c with pc := .idle }, returnObs now c)
  | .ret, .go => some (n, { c with pc := .idle }, returnObs now c)
  | _, _ => none

def beginOp (now : ℕ) (c : Client κ ν) : Choice κ ν → Option (Client κ ν)
  | .beginInsert key v isLoad =>
    some { c with
      pc := .casKey, side := .write, key := key, arg := v, isLoad := isLoad, val := v
      acq := (false, false), invAt := now, depAt := none, valAt := none, wroteAt := none }
  | .beginSearch key =>
    some { c with
      pc := .casKey, side := .read, key := key, found := false, acq := (false, false), invAt := now
      depAt := none, valAt := none, wroteAt := none }
  | _ => none

/-- The lock table, its clients, and what has been observed of them so far. -/
structure Table (ι κ ν : Type*) where
  now : ℕ
  node : ℕ → LockNode κ ν
  client : ι → Client κ ν
  deposits : List (κ × ν)
  writes : List (LeafWrite κ ν)
  returned : List (Completed κ)

variable {ι : Type*}

def Table.observe (s : Table ι κ ν) : Obs κ ν → Table ι κ ν
  | .silent => s
  | .deposited key v => { s with deposits := s.deposits ++ [(key, v)] }
  | .leafWrite w => { s with writes := s.writes ++ [w] }
  | .completed c => { s with returned := s.returned ++ [c] }

section observe
omit [DecidableEq κ]
variable (s : Table ι κ ν) (o : Obs κ ν)

@[simp] theorem Table.observe_now : (s.observe o).now = s.now := by cases o <;> rfl
@[simp] theorem Table.observe_node : (s.observe o).node = s.node := by cases o <;> rfl
@[simp] theorem Table.observe_client : (s.observe o).client = s.client := by cases o <;> rfl

theorem Table.mem_observe_deposits {x : κ × ν} (h : x ∈ s.deposits) : x ∈ (s.observe o).deposits := by
  cases o <;> simp [Table.observe, h]

theorem Table.mem_observe_writes {x : LeafWrite κ ν} (h : x ∈ s.writes) : x ∈ (s.observe o).writes := by
  cases o <;> simp [Table.observe, h]

end observe

variable [DecidableEq ι]

def next (hash : κ → ℕ) (s : Table ι κ ν) (a : ι × Choice κ ν) : Option (Table ι κ ν) :=
  let c := s.client a.1
  if c.pc = .idle then
    (beginOp s.now c a.2).map fun c' =>
      { s with now := s.now + 1, client := Function.update s.client a.1 c' }
  else
    (act s.now (s.node (hash c.key)) c a.2).map fun r =>
      Table.observe { s with
        now := s.now + 1
        node := Function.update s.node (hash c.key) r.1
        client := Function.update s.client a.1 r.2.1 } r.2.2

/-- `LocalLockNode()`; buffers are uninitialised. -/
def LockNode.Fresh (n : LockNode κ ν) : Prop :=
  (∀ sd, n.queue sd = ⟨0, 0, false, 0, false, none⟩) ∧ n.windowStart = false ∧
    n.keyAt = 0 ∧ n.wcAt = 0 ∧ n.resAt = 0

def Initial (s : Table ι κ ν) : Prop :=
  s.now = 0 ∧ (∀ m, (s.node m).Fresh) ∧ (∀ i, (s.client i).pc = .idle) ∧
    s.deposits = [] ∧ s.writes = [] ∧ s.returned = []

def system (ι : Type*) [DecidableEq ι] (ν : Type*) (hash : κ → ℕ) :
    Transition.System (Table ι κ ν) (ι × Choice κ ν) where
  init := Initial
  next := next hash

def Table.zero (ι : Type*) (k : κ) (v : ν) : Table ι κ ν where
  now := 0
  node := fun _ => ⟨fun _ => ⟨0, 0, false, 0, false, none⟩, false, false, v, v, 0, 0, 0⟩
  client := fun _ => ⟨.idle, .read, k, v, false, v, false, (false, false), 0, 0, 0, 0, 0, 0,
    none, none, none, 0⟩
  deposits := []
  writes := []
  returned := []

omit [DecidableEq κ] [DecidableEq ι] in
theorem Table.zero_initial (k : κ) (v : ν) : Initial (Table.zero ι k v) :=
  ⟨rfl, fun _ => ⟨fun _ => rfl, rfl, rfl, rfl, rfl⟩, fun _ => rfl, rfl, rfl, rfl⟩

def acts (i : ι) (chs : List (Choice κ ν)) : List (ι × Choice κ ν) := chs.map (i, ·)

def goes (i : ι) (count : ℕ) : List (ι × Choice κ ν) := List.replicate count (i, .go)

end SmartTree.LocalLock
