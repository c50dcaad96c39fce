import SmartTree.Coroutine.Command
import SmartTree.Dsm.Batches

/-! `Tree::insert` and `Tree::search` as the scheduler sees them: the order of the remote
operations and of the waits, with every branch the data can take. -/
namespace SmartTree.Coroutine
variable {E : Type*}

/-- A wait for a predicate: a coroutine queues itself and yields, a plain thread spins. -/
def busyWait (ready : E → Bool) : Option ℕ → Cmd E
  | none => .skip
  | some coroId => .seq (.push coroId ready) .yield

section functions
variable (ready : ℕ → E → Bool) (ctx : Option ℕ)

/-- The loop of `acquire_local_read_lock` and `acquire_local_write_lock` for some ticket. -/
def acquireLocalLock : Cmd E := .choose fun ticket => .loop (busyWait (ready ticket) ctx)

def getRootPtr : Cmd E := Dsm.readSync ctx

/-- `read_leaf`: read, repair the reverse pointer, and again while the leaf is inconsistent. -/
def readLeaf : Cmd E := .again (.seq (Dsm.readSync ctx) (.oneOf [Dsm.cas ctx false]))

/-- `in_place_update_leaf`: try the lock until it is taken, then write. -/
def inPlaceUpdateLeaf : Cmd E :=
  .seq (.loop (.seq (Dsm.casMaskSync ctx) (busyWait (fun _ => true) ctx)))
    (.seq (Dsm.casMaskSync ctx) (Dsm.writeSync ctx))

/-- `out_of_place_write_leaf`: write the leaf, or only its reverse pointer, and swap it in. -/
def outOfPlaceWriteLeaf : Cmd E :=
  .seq (.choose fun unwrite => if unwrite = 0 then Dsm.writeSync ctx else Dsm.write ctx false)
    (Dsm.casSync ctx)

/-- `read_node`: read, read the rest, repair the reverse pointer. -/
def readNode : Cmd E :=
  .seq (Dsm.readSync ctx) (.seq (.oneOf [Dsm.readSync ctx]) (.oneOf [Dsm.cas ctx false]))

def outOfPlaceWriteNode : Cmd E :=
  .seq (.oneOf [Dsm.write ctx false])
    (.seq (.chooseList maxMachine fun cnts => Dsm.writeBatchesSync ctx cnts)
      (.seq (Dsm.casSync ctx) (.oneOf [Dsm.cas ctx false])))

/-- `cas_node_type`: both words, or one of them, then the way down to the entry. -/
def casNodeType : Cmd E :=
  .again (.seq
    (.choose fun both =>
      if both < 2 then Dsm.twoCasMaskSync ctx (both == 0)
      else .seq (.oneOf [Dsm.casSync ctx]) (.oneOf [Dsm.casMaskSync ctx]))
    (.loop (Dsm.readSync ctx)))

def insertBehind : Cmd E := .again (outOfPlaceWriteLeaf ctx)

/-- One round of `insert` from `next` on: at a null entry, at a leaf, or at a node. -/
def insertRound : Cmd E :=
  .oneOf [
    outOfPlaceWriteLeaf ctx,
    .seq (readLeaf ctx)
      (.oneOf [Dsm.readSync ctx, inPlaceUpdateLeaf ctx, outOfPlaceWriteNode ctx]),
    .seq (readNode ctx)
      (.oneOf [
        Dsm.readSync ctx,
        .seq (outOfPlaceWriteNode ctx) (.oneOf [Dsm.casMask ctx false]),
        .loop (outOfPlaceWriteLeaf ctx),
        .seq (.loop (outOfPlaceWriteLeaf ctx)) (.seq (insertBehind ctx) (.oneOf [casNodeType ctx]))])]

/-- `Tree::insert`; without a handover it starts from the cache or from the root. -/
def insert : Cmd E :=
  .seq (acquireLocalLock ready ctx)
    (.oneOf [.seq (.oneOf [getRootPtr ctx]) (.again (insertRound ctx))])

def searchRound : Cmd E :=
  .oneOf [
    .seq (readLeaf ctx) (.oneOf [Dsm.readSync ctx]),
    .seq (readNode ctx) (.oneOf [Dsm.readSync ctx])]

def search : Cmd E :=
  .seq (acquireLocalLock ready ctx)
    (.oneOf [.seq (.oneOf [getRootPtr ctx]) (.again (searchRound ctx))])

def workFunc : Cmd E := .choose fun op => if op = 0 then insert ready ctx else search ready ctx

end functions

namespace Disciplined
variable {id : ℕ} {c d : Cmd E}

theorem oneOf_one (h : Disciplined id c) : Disciplined id (.oneOf [c]) :=
  oneOf fun _ hm => List.mem_singleton.mp hm ▸ h

theorem busyWait (ready : E → Bool) : Disciplined id (busyWait ready (some id)) := .wait ready

theorem acquireLocalLock (ready : ℕ → E → Bool) : Disciplined id (acquireLocalLock ready (some id)) :=
  .choose fun ticket => .loop (busyWait (ready ticket))

theorem readLeaf : Disciplined id (readLeaf (E := E) (some id)) :=
  again (.seq readSync (oneOf_one (one false)))

theorem inPlaceUpdateLeaf : Disciplined id (inPlaceUpdateLeaf (E := E) (some id)) :=
  .seq (.loop (.seq casMaskSync (busyWait _))) (.seq casMaskSync writeSync)

theorem outOfPlaceWriteLeaf : Disciplined id (outOfPlaceWriteLeaf (E := E) (some id)) := by
  refine .seq (.choose fun unwrite => ?_) casSync
  split
  · exact writeSync
  · exact one false

theorem readNode : Disciplined id (readNode (E := E) (some id)) :=
  .seq readSync (.seq (oneOf_one readSync) (oneOf_one (one false)))

theorem outOfPlaceWriteNode : Disciplined id (outOfPlaceWriteNode (E := E) (some id)) :=
  .seq (oneOf_one (one false)) (.seq (chooseList writeBatchesSync)
    (.seq casSync (oneOf_one (one false))))

theorem casNodeType : Disciplined id (casNodeType (E := E) (some id)) := by
  refine again (.seq (.choose fun both => ?_) (.loop readSync))
  split
  · exact twoCasMaskSync _
  · exact .seq (oneOf_one casSync) (oneOf_one casMaskSync)

theorem insertBehind : Disciplined id (insertBehind (E := E) (some id)) := again outOfPlaceWriteLeaf

theorem insertRound : Disciplined id (insertRound (E := E) (some id)) := by
  refine oneOf fun c hc => ?_
  simp only [List.mem_cons, List.not_mem_nil, or_false] at hc
  obtain rfl | rfl | rfl := hc
  · exact outOfPlaceWriteLeaf
  · refine .seq readLeaf (oneOf fun c hc => ?_)
    simp only [List.mem_cons, List.not_mem_nil, or_false] at hc
    obtain rfl | rfl | rfl := hc
    · exact readSync
    · exact inPlaceUpdateLeaf
    · exact outOfPlaceWriteNode
  · refine .seq readNode (oneOf fun c hc => ?_)
    simp only [List.mem_cons, List.not_mem_nil, or_false] at hc
    obtain rfl | rfl | rfl | rfl := hc
    · exact readSync
    · exact .seq outOfPlaceWriteNode (oneOf_one (one false))
    · exact .loop outOfPlaceWriteLeaf
    · exact .seq (.loop outOfPlaceWriteLeaf) (.seq insertBehind (oneOf_one casNodeType))

theorem insert (ready : ℕ → E → Bool) : Disciplined id (insert ready (some id)) :=
  .seq (acquireLocalLock ready) (oneOf_one (.seq (oneOf_one readSync) (again insertRound)))

theorem searchRound : Disciplined id (searchRound (E := E) (some id)) := by
  refine oneOf fun c hc => ?_
  simp only [List.mem_cons, List.not_mem_nil, or_false] at hc
  obtain rfl | rfl := hc
  · exact .seq readLeaf (oneOf_one readSync)
  · exact .seq readNode (oneOf_one readSync)

theorem search (ready : ℕ → E → Bool) : Disciplined id (search ready (some id)) :=
  .seq (acquireLocalLock ready) (oneOf_one (.seq (oneOf_one readSync) (again searchRound)))

theorem workFunc (ready : ℕ → E → Bool) : Disciplined id (workFunc ready (some id)) := by
  refine .choose fun op => ?_
  split
  · exact insert ready
  · exact search ready

end Disciplined
end SmartTree.Coroutine
