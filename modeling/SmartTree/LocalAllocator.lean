import SmartTree.GlobalAddress
import SmartTree.Lib.Regions
import SmartTree.Lib.Transition

/-! Fine-grained allocation. Each thread carves blocks from the chunk it was granted last and
keeps a first-fit list of blocks it freed; every thread has one allocator for each directory
of each memory node. -/
namespace SmartTree
open Transition Regions

structure LocalAllocator where
  head : GlobalAddress
  cur : GlobalAddress
  freeList : List (GlobalAddress × BitVec 64)

namespace LocalAllocator

def new : LocalAllocator := ⟨.null, .null, []⟩

def chunkEnd (l : LocalAllocator) : BitVec 64 :=
  l.head.offset.setWidth 64 + BitVec.ofNat 64 kChunkSize

/-- `malloc` with `align = true`: the address, whether a chunk is needed, and the allocator. -/
def malloc (l : LocalAllocator) (size : BitVec 64) : GlobalAddress × Bool × LocalAllocator :=
  let cur := { l.cur with
    offset := (roundUp (l.cur.offset.setWidth 64) allocAllignBit).setWidth 48 }
  if l.head = .null ∨ l.chunkEnd < cur.offset.setWidth 64 + size then
    match l.freeList.find? fun p => decide (size ≤ p.2) with
    | some p => (p.1, false, { l with
        cur := cur, freeList := l.freeList.eraseP fun p => decide (size ≤ p.2) })
    | none => (cur, true, { l with cur := cur })
  else (cur, false, { l with cur := cur.addOffset size })

def setChunck (l : LocalAllocator) (addr : GlobalAddress) : LocalAllocator :=
  { l with head := addr, cur := addr }

def free (l : LocalAllocator) (addr : GlobalAddress) (size : BitVec 64) : LocalAllocator :=
  { l with freeList := l.freeList ++ [(addr, size)] }

end LocalAllocator

structure ThreadAlloc (nodeNum dirNum : ℕ) where
  curTargetNode : Fin nodeNum
  curTargetDirId : Fin dirNum
  localAllocators : Fin nodeNum × Fin dirNum → LocalAllocator

namespace ThreadAlloc
variable {nodeNum dirNum : ℕ} [NeZero nodeNum] [NeZero dirNum]

/-- The next directory, and the next node after the last directory. -/
def rotate (d : ThreadAlloc nodeNum dirNum) : ThreadAlloc nodeNum dirNum :=
  if d.curTargetDirId.val + 1 = dirNum then
    { d with curTargetNode := d.curTargetNode + 1, curTargetDirId := 0 }
  else { d with curTargetDirId := d.curTargetDirId + 1 }

def target (d : ThreadAlloc nodeNum dirNum) : Fin nodeNum × Fin dirNum :=
  (d.curTargetNode, d.curTargetDirId)

def set (d : ThreadAlloc nodeNum dirNum) (i : Fin nodeNum × Fin dirNum) (l : LocalAllocator) :
    ThreadAlloc nodeNum dirNum :=
  { d with localAllocators := Function.update d.localAllocators i l }

/-- `DSM::alloc` without a remote call; `none` if a chunk is needed. -/
def tryAlloc (d : ThreadAlloc nodeNum dirNum) (size : BitVec 64) :
    GlobalAddress × Bool × ThreadAlloc nodeNum dirNum :=
  let d := d.rotate
  let r := (d.localAllocators d.target).malloc size
  (r.1, r.2.1, d.set d.target r.2.2)

/-- `DSM::alloc`; `chunk` is what the directory grants if it is asked. -/
def alloc (d : ThreadAlloc nodeNum dirNum) (size : BitVec 64) (chunk : GlobalAddress) :
    GlobalAddress × ThreadAlloc nodeNum dirNum :=
  let r := d.tryAlloc size
  if r.2.1 then
    let d := r.2.2
    let q := ((d.localAllocators d.target).setChunck chunk).malloc size
    (q.1, d.set d.target q.2.2)
  else (r.1, r.2.2)

/-- `DSM::free`; the node number indexes the thread's array. -/
def free (d : ThreadAlloc nodeNum dirNum) (addr : GlobalAddress) (size : BitVec 64) :
    Option (ThreadAlloc nodeNum dirNum) :=
  if h : addr.nodeID.toNat < nodeNum then
    let i := (⟨addr.nodeID.toNat, h⟩, 0)
    some (d.set i ((d.localAllocators i).free addr size))
  else none

end ThreadAlloc

/-- All threads, the chunks granted to them and the blocks they hold. -/
structure Blocks (τ : Type*) (nodeNum dirNum : ℕ) where
  thread : τ → ThreadAlloc nodeNum dirNum
  granted : τ → List GlobalAddress
  live : τ → List (GlobalAddress × BitVec 64)

inductive BlockCall (τ : Type*)
  | alloc (t : τ) (size : BitVec 64) (chunk : GlobalAddress)
  | free (t : τ) (addr : GlobalAddress) (size : BitVec 64)

namespace Blocks
variable {τ : Type*} [DecidableEq τ] [Fintype τ] {nodeNum dirNum : ℕ} [NeZero nodeNum]
  [NeZero dirNum]

/-- A chunk a directory may grant: not null, aligned and not granted before. Aligned chunks are
disjoint as soon as they differ. -/
def Grantable (s : Blocks τ nodeNum dirNum) (chunk : GlobalAddress) : Prop :=
  chunk ≠ .null ∧ chunk.offset.toNat % kChunkSize = 0 ∧ ∀ t, chunk ∉ s.granted t

instance (s : Blocks τ nodeNum dirNum) (chunk : GlobalAddress) : Decidable (s.Grantable chunk) :=
  inferInstanceAs (Decidable (_ ∧ _ ∧ _))

def next (s : Blocks τ nodeNum dirNum) : BlockCall τ → Option (Blocks τ nodeNum dirNum)
  | .alloc t size chunk =>
    let need := ((s.thread t).tryAlloc size).2.1
    let r := (s.thread t).alloc size chunk
    if 0 < size ∧ size.toNat ≤ kChunkSize ∧ (need = true → s.Grantable chunk) then
      some { thread := Function.update s.thread t r.2
             granted := if need then Function.update s.granted t (chunk :: s.granted t)
               else s.granted
             live := Function.update s.live t ((r.1, size) :: s.live t) }
    else none
  | .free t addr size =>
    if (addr, size) ∈ s.live t then
      ((s.thread t).free addr (roundUp size allocAllignBit)).map fun d =>
        { s with
          thread := Function.update s.thread t d
          live := Function.update s.live t ((s.live t).erase (addr, size)) }
    else none

/-- Nothing allocated yet; where each thread's rotation starts does not matter. -/
structure Initial (s : Blocks τ nodeNum dirNum) : Prop where
  thread : ∀ t i, (s.thread t).localAllocators i = .new
  granted : ∀ t, s.granted t = []
  live : ∀ t, s.live t = []

def system (τ : Type*) [DecidableEq τ] [Fintype τ] (nodeNum dirNum : ℕ) [NeZero nodeNum]
    [NeZero dirNum] : System (Blocks τ nodeNum dirNum) (BlockCall τ) where
  init := Initial
  next := next

end Blocks
end SmartTree
