import Mathlib.Algebra.Group.Nat.Defs
import Mathlib.Logic.Function.Basic
import Mathlib.Data.Nat.Notation

/-! The store the keepers of all nodes share. Each operation takes effect at one moment; the
retry loops of `Keeper` leave the store alone until their operation succeeds. -/
namespace SmartTree

/-- The number of a decimal text, as memcached and `std::stoull` read it. -/
def stoull (text : String) : Option ℕ :=
  if text.toList ≠ [] ∧ text.toList.all Char.isDigit then some (Nat.ofDigitChars 10 text.toList 0)
  else none

@[simp] theorem stoull_repr (v : ℕ) : stoull (Nat.repr v) = some v := by
  have hlist : (Nat.repr v).toList = Nat.toDigits 10 v := by
    rw [Nat.repr_eq_ofList_toDigits, String.toList_ofList]
  have hdigits : (Nat.toDigits 10 v).all Char.isDigit = true :=
    List.all_eq_true.mpr fun c hc => Nat.isDigit_of_mem_toDigits (by omega) (by omega) hc
  rw [stoull, hlist, if_pos ⟨Nat.toDigits_ne_nil, hdigits⟩, Nat.ofDigitChars_ten_toDigits]

abbrev Memcached (ν : Type*) := String → Option ν

namespace Memcached
variable {ν : Type*}

def memSet (m : Memcached ν) (key : String) (val : ν) : Memcached ν := Function.update m key (some val)

/-- One try of `Keeper::memGet`; without the key it is made again. -/
def memGet (m : Memcached ν) (key : String) : Option ν := m key

/-- One try of `Keeper::memFetchAndAdd` on a decimal text; it fails without the key. -/
def memFetchAndAdd (m : Memcached String) (key : String) : Option (Memcached String) :=
  (m key).bind fun text => (stoull text).map fun v => m.memSet key (Nat.repr ((v + 1) % 2 ^ 64))

@[simp] theorem memGet_memSet (m : Memcached ν) (key key' : String) (val : ν) :
    (m.memSet key val).memGet key' = if key' = key then some val else m.memGet key' := by
  by_cases h : key' = key
  · subst h
    simp [memGet, memSet]
  · simp [memGet, memSet, h]

theorem memFetchAndAdd_repr {m : Memcached String} {key : String} {v : ℕ}
    (h : m.memGet key = some (Nat.repr v)) (hv : v + 1 < 2 ^ 64) :
    m.memFetchAndAdd key = some (m.memSet key (Nat.repr (v + 1))) := by
  rw [memGet] at h
  rw [memFetchAndAdd, h, Option.bind_some, stoull_repr, Option.map_some, Nat.mod_eq_of_lt hv]

end Memcached
end SmartTree
