import Mathlib.Logic.Function.Basic
import SmartTree.Lib.Transition

/-! A sequential map as a machine with calls and returns. An insert may be one that keeps the
value of a key that is there already, and may be told to go on with another value. -/
namespace MapMachine
open Transition
variable {κ ν : Type*}

inductive MapOp (κ ν : Type*)
  | insert (keep : Bool) (k : κ) (v : ν)
  | search (k : κ)
deriving DecidableEq

inductive MapEvent (κ ν : Type*)
  | call (op : MapOp κ ν)
  | merge (v : ν)
  | ret (found : Option ν)
deriving DecidableEq

structure MapState (κ ν : Type*) where
  content : κ → Option ν
  running : Option (MapOp κ ν)

variable [DecidableEq κ] {M : κ → Option ν} {k : κ} {v w : ν} {keep : Bool}

def put (M : κ → Option ν) (keep : Bool) (k : κ) (v : ν) : κ → Option ν :=
  Function.update M k (some (if keep then (M k).getD v else v))

def next [DecidableEq ν] : MapState κ ν → MapEvent κ ν → Option (MapState κ ν)
  | ⟨M, none⟩, .call op => some ⟨M, some op⟩
  | ⟨M, some (.insert keep k _)⟩, .merge v => some ⟨M, some (.insert keep k v)⟩
  | ⟨M, some (.insert keep k v)⟩, .ret none => some ⟨put M keep k v, none⟩
  | ⟨M, some (.search k)⟩, .ret found => if found = M k then some ⟨M, none⟩ else none
  | _, _ => none

def machine (κ ν : Type*) [DecidableEq κ] [DecidableEq ν] : System (MapState κ ν) (MapEvent κ ν) where
  init s := s = ⟨fun _ => none, none⟩
  next := next

theorem put_keep (h : M k = some w) : put M true k v = M := by
  rw [put, if_pos rfl, h, Option.getD_some, ← h, Function.update_eq_self]

theorem put_same (h : M k = some v) : put M keep k v = M := by
  cases keep with
  | true => exact put_keep h
  | false => rw [put, if_neg (by simp), ← h, Function.update_eq_self]

theorem put_absent (h : M k = none) : put M keep k v = Function.update M k (some v) := by
  simp [put, h]

theorem put_replace : put M false k v = Function.update M k (some v) := rfl

end MapMachine
