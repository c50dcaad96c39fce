import SmartTree.Lib.Transition
import SmartTree.Lib.TicketLock

/-! Lock handover: the clients of a compute node queue at a local lock and pass the remote
lock of an address on to each other. Compute nodes share the remote lock bits, which are
on the chip or embedded in the leaves; every access of either is one step. -/
namespace SmartTree.Hocl

def maxHoclHandover : ℕ := 8

inductive Build where
  | onChip | embedded
deriving DecidableEq

/-- The fields of `LocalLockNode` that lock handover uses; counters are unwrapped. -/
structure LockNode (α : Type*) where
  current : ℕ
  ticket : ℕ
  handover : Bool
  uniqueAddr : α
  handoverCnt : ℕ

inductive Pc where
  | idle
  | takeTicket | wait | testHand | setAddr | testAgain | testAddr | casLock
  | writeLeaf
  | rTicket | rCurrent | rStoreHand | rCount | rCut | rTestZero | rZero
  | rTestAddr | unlockOwn | rTestHand | unlockUnique
  | eTestHand | eEndAddr | eUnlockUnique | eKeepAddr | eWriteUnlock | eWrite
  | rBump
deriving DecidableEq

/-- Locals of a client; `image` is the lock bit of the leaf as it was read beforehand. -/
structure Client (α : Type*) where
  pc : Pc
  addr : α
  ticket : ℕ
  relTicket : ℕ
  relCurrent : ℕ
  image : Bool

def Client.start {α : Type*} (c : Client α) (addr : α) (bit : Bool) : Client α :=
  { c with pc := .takeTicket, addr := addr, image := bit }

inductive Choice (α : Type*) where
  | begin (addr : α)
  | go

inductive Effect (α : Type*) where
  | silent
  | acquire (a : α)
  | unlock (a : α)
  | write (a : α) (bit : Bool)
deriving DecidableEq

variable {α : Type*} [DecidableEq α]

/-- One step of a client on its local lock node, with the remote bits it sees. -/
def act (build : Build) (lock : α → Bool) (n : LockNode α) (c : Client α) :
    Option (LockNode α × Client α × Effect α) :=
  match c.pc with
  | .idle => none
  -- `acquire_local_lock`
  | .takeTicket => some ({ n with ticket := n.ticket + 1 }, { c with pc := .wait, ticket := n.ticket }, .silent)
  | .wait => some (n, { c with pc := if c.ticket % 256 = n.current % 256 then .testHand else .wait }, .silent)
  | .testHand => some (n, { c with pc := if n.handover then .testAgain else .setAddr }, .silent)
  | .setAddr => some ({ n with uniqueAddr := c.addr }, { c with pc := .testAgain }, .silent)
  | .testAgain => some (n, { c with pc := if n.handover then .testAddr else .casLock }, .silent)
  | .testAddr => some (n, { c with pc := if n.uniqueAddr = c.addr then .writeLeaf else .casLock }, .silent)
  -- `re_acquire`
  | .casLock =>
    if lock c.addr then some (n, c, .silent) else some (n, { c with pc := .writeLeaf }, .acquire c.addr)
  | .writeLeaf => some (n, { c with pc := .rTicket }, .silent)
  -- `release_local_lock`
  | .rTicket => some (n, { c with pc := .rCurrent, relTicket := n.ticket }, .silent)
  | .rCurrent => some (n, { c with pc := .rStoreHand, relCurrent := n.current }, .silent)
  | .rStoreHand =>
    some ({ n with handover := decide (c.relTicket % 256 ≠ (c.relCurrent + 1) % 256) },
      { c with pc := .rCount }, .silent)
  | .rCount =>
    some ({ n with handoverCnt := n.handoverCnt + 1 },
      { c with pc := if maxHoclHandover < n.handoverCnt then .rCut else .rTestZero }, .silent)
  | .rCut => some ({ n with handover := false }, { c with pc := .rTestZero }, .silent)
  | .rTestZero =>
    some (n, { c with pc := if n.handover then (if build = .embedded then .eTestHand else .rTestAddr)
      else .rZero }, .silent)
  | .rZero =>
    some ({ n with handoverCnt := 0 },
      { c with pc := if build = .embedded then .eTestHand else .rTestAddr }, .silent)
  -- bits on the chip
  | .rTestAddr => some (n, { c with pc := if n.uniqueAddr = c.addr then .rTestHand else .unlockOwn }, .silent)
  | .unlockOwn => some (n, { c with pc := .rTestHand }, .unlock c.addr)
  | .rTestHand => some (n, { c with pc := if n.handover then .rBump else .unlockUnique }, .silent)
  | .unlockUnique => some (n, { c with pc := .rBump }, .unlock n.uniqueAddr)
  -- bits in the leaves
  | .eTestHand => some (n, { c with pc := if n.handover then .eKeepAddr else .eEndAddr }, .silent)
  | .eEndAddr =>
    some (n, { c with pc := if n.uniqueAddr = c.addr then .eWriteUnlock else .eUnlockUnique }, .silent)
  | .eUnlockUnique => some (n, { c with pc := .eWriteUnlock }, .unlock n.uniqueAddr)
  | .eKeepAddr => some (n, { c with pc := if n.uniqueAddr = c.addr then .eWrite else .eWriteUnlock }, .silent)
  | .eWriteUnlock => some (n, { c with pc := .rBump, image := false }, .unlock c.addr)
  | .eWrite => some (n, { c with pc := .rBump }, .write c.addr c.image)
  | .rBump => some ({ n with current := n.current + 1 }, { c with pc := .idle }, .silent)

/-- The remote bits after a step: unlocking clears the bit by a masked CAS or by the write
of the leaf. -/
def Effect.apply (lock : α → Bool) : Effect α → α → Bool
  | .silent => lock
  | .acquire a => Function.update lock a true
  | .unlock a => Function.update lock a false
  | .write a bit => Function.update lock a bit

/-- The compute nodes with their local lock nodes, the remote lock bits and the clients. -/
structure Cluster (μ ι α : Type*) where
  node : μ → ℕ → LockNode α
  lock : α → Bool
  client : ι → Client α

variable {μ ι : Type*} [DecidableEq μ] [DecidableEq ι]

/-- A client belongs to the compute node `home`; an address to the lock node `hash`. -/
def Cluster.next (build : Build) (home : ι → μ) (hash : α → ℕ) (s : Cluster μ ι α)
    (a : ι × Choice α) : Option (Cluster μ ι α) :=
  let c := s.client a.1
  match a.2 with
  | .begin addr =>
    if c.pc = .idle then
      some { s with client := Function.update s.client a.1 (c.start addr (s.lock addr)) }
    else none
  | .go =>
    let m := home a.1
    let h := hash c.addr
    (act build s.lock (s.node m h) c).map fun r => {
      node := Function.update s.node m (Function.update (s.node m) h r.1)
      lock := r.2.2.apply s.lock
      client := Function.update s.client a.1 r.2.1 }

/-- No lock is held and nobody is waiting; the unique addresses are arbitrary. -/
def Cluster.Initial (s : Cluster μ ι α) : Prop :=
  (∀ m h, (s.node m h).current = 0 ∧ (s.node m h).ticket = 0 ∧ (s.node m h).handover = false ∧
    (s.node m h).handoverCnt = 0) ∧ (∀ a, s.lock a = false) ∧ ∀ i, (s.client i).pc = .idle

def Cluster.system (build : Build) (home : ι → μ) (hash : α → ℕ) :
    Transition.System (Cluster μ ι α) (ι × Choice α) where
  init := Cluster.Initial
  next := Cluster.next build home hash

/-- A successful lock CAS of a compute node, and an unlock it issues. -/
inductive LockEvent (μ α : Type*) where
  | acquired (m : μ) (a : α)
  | unlocked (m : μ) (a : α)
deriving DecidableEq

def Effect.event (m : μ) : Effect α → Option (LockEvent μ α)
  | .acquire a => some (.acquired m a)
  | .unlock a => some (.unlocked m a)
  | _ => none

def lockEvent (build : Build) (home : ι → μ) (hash : α → ℕ) (s : Cluster μ ι α)
    (a : ι × Choice α) : Option (LockEvent μ α) :=
  let c := s.client a.1
  match a.2 with
  | .begin _ => none
  | .go => (act build s.lock (s.node (home a.1) (hash c.addr)) c).bind fun r => r.2.2.event (home a.1)

def holder : List (LockEvent μ α) → α → Option μ
  | [], _ => none
  | .acquired m b :: log, a => if b = a then some m else holder log a
  | .unlocked _ b :: log, a => if b = a then none else holder log a

def Client.served (c : Client α) : Bool :=
  match c.pc with
  | .idle | .takeTicket | .wait => false
  | _ => true

def Client.ticketed (c : Client α) : Bool := decide (c.pc = .wait) || c.served

/-- Holding the lock of its address: from the lock CAS, or from being handed the lock, up to
the unlock or the write that may clear the bit. -/
def Client.critical (c : Client α) : Bool :=
  match c.pc with
  | .writeLeaf | .rTicket | .rCurrent | .rStoreHand | .rCount | .rCut | .rTestZero | .rZero
  | .rTestAddr | .unlockOwn | .eTestHand | .eEndAddr | .eUnlockUnique | .eKeepAddr | .eWriteUnlock
  | .eWrite => true
  | _ => false

end SmartTree.Hocl
