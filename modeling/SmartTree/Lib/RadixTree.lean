import Mathlib.Data.List.Basic
import Mathlib.Logic.Function.Basic
import Mathlib.Order.Lattice

/-! Path-compressed tries in a heap. A node carries a label and, at each letter, at most one
link to another node; its path is what leads from the root to it. That the links agree with
the paths is a condition on single nodes, and it already makes the trie a tree. -/
namespace RadixTree
variable {ι α : Type*}

structure View (ι α : Type*) where
  root : ι
  alive : ι → Prop
  label : ι → List α
  next : ι → α → Option ι

def full (v : View ι α) (path : ι → List α) (i : ι) (a : α) : List α := path i ++ v.label i ++ [a]

structure Inv (v : View ι α) (path : ι → List α) : Prop where
  alive_root : v.alive v.root
  path_root : path v.root = []
  link : ∀ i a j, v.alive i → v.next i a = some j → v.alive j ∧ path j = full v path i a
  parent : ∀ j, v.alive j → j ≠ v.root → ∃ i a, v.alive i ∧ v.next i a = some j

section
variable {v v' : View ι α} {path : ι → List α} {i j : ι} {a b : α}

theorem length_full : (full v path i a).length = (path i).length + (v.label i).length + 1 := by
  simp [full]
  omega

theorem path_prefix_full : path i <+: full v path i a := by
  rw [full, List.append_assoc]
  exact List.prefix_append ..

theorem full_congr (h : v'.label i = v.label i) : full v' path i a = full v path i a := by
  rw [full, full, h]

namespace Inv

theorem eq_root (inv : Inv v path) (hi : v.alive i) (h : path i = []) : i = v.root := by
  by_contra hne
  obtain ⟨k, b, hk, hn⟩ := inv.parent i hi hne
  have hp := (inv.link k b i hk hn).2
  simp [h, full] at hp

theorem ne_root (inv : Inv v path) (hi : v.alive i) (hn : v.next i a = some j) : j ≠ v.root := by
  rintro rfl
  have hp := (inv.link i a _ hi hn).2
  simp [inv.path_root, full] at hp

/-- Nodes are told apart by their paths, and from every node on the way to `j` a link leads on
towards `j`. Each half at one length of the path needs both at smaller lengths. -/
private theorem eq_and_descends (inv : Inv v path) (m : ℕ) : ∀ j, v.alive j → (path j).length = m →
    (∀ i, v.alive i → path i = path j → i = j) ∧
    ∀ i, v.alive i → path i <+: path j → path i ≠ path j →
      ∃ b k, v.next i b = some k ∧ path k <+: path j := by
  induction m using Nat.strongRecOn with
  | _ m ih =>
    intro j hj hm
    refine ⟨fun i hi he => ?_, fun i hi hp hne => ?_⟩
    · by_cases hr : j = v.root
      · rw [hr]
        exact inv.eq_root hi (by rw [he, hr, inv.path_root])
      have hri : i ≠ v.root := fun h => hr (inv.eq_root hj (by rw [← he, h, inv.path_root]))
      obtain ⟨x, b, hx, hxi⟩ := inv.parent i hi hri
      obtain ⟨y, c, hy, hyj⟩ := inv.parent j hj hr
      have hpi := (inv.link x b i hx hxi).2
      have hpj := (inv.link y c j hy hyj).2
      have hli : (path i).length = (path x).length + (v.label x).length + 1 := by
        rw [hpi, length_full]
      have hlj : (path j).length = (path y).length + (v.label y).length + 1 := by
        rw [hpj, length_full]
      have hxj : path x <+: path j := he ▸ hpi ▸ path_prefix_full
      have hyj' : path y <+: path j := hpj ▸ path_prefix_full
      obtain hlt | heq | hgt := Nat.lt_trichotomy (path x).length (path y).length
      · obtain ⟨d, z, hz, hpz⟩ := (ih _ (by omega) y hy rfl).2 x hx
          (List.prefix_of_prefix_length_le hxj hyj' hlt.le) (fun h => by rw [h] at hlt; omega)
        have hlz := hpz.length_le
        rw [(inv.link x d z hx hz).2, length_full, ← hli, he] at hlz
        omega
      · have hxy : x = y := (ih _ (by omega) y hy rfl).1 x hx
          ((List.prefix_of_prefix_length_le hxj hyj' heq.le).eq_of_length heq)
        subst hxy
        rw [hpi, hpj, full, full, List.append_cancel_left_eq, List.cons.injEq] at he
        rw [he.1, hyj] at hxi
        exact (Option.some.inj hxi).symm
      · obtain ⟨d, z, hz, hpz⟩ := (ih _ (by rw [← hm, ← he]; omega) x hx rfl).2 y hy
          (List.prefix_of_prefix_length_le hyj' hxj hgt.le) (fun h => by rw [h] at hgt; omega)
        have hlz := hpz.length_le
        rw [(inv.link y d z hy hz).2, length_full, ← hlj, ← he] at hlz
        omega
    · have hlt : (path i).length < (path j).length :=
        lt_of_le_of_ne hp.length_le fun h => hne (hp.eq_of_length h)
      have hr : j ≠ v.root := by
        rintro rfl
        simp [inv.path_root] at hlt
      obtain ⟨y, c, hy, hyj⟩ := inv.parent j hj hr
      have hpj := (inv.link y c j hy hyj).2
      have hlj : (path j).length = (path y).length + (v.label y).length + 1 := by
        rw [hpj, length_full]
      have hyj' : path y <+: path j := hpj ▸ path_prefix_full
      obtain hlt' | heq | hgt := Nat.lt_trichotomy (path i).length (path y).length
      · obtain ⟨b, k, hk, hpk⟩ := (ih _ (by omega) y hy rfl).2 i hi
          (List.prefix_of_prefix_length_le hp hyj' hlt'.le) (fun h => by rw [h] at hlt'; omega)
        exact ⟨b, k, hk, hpk.trans hyj'⟩
      · have hiy : i = y := (ih _ (by omega) y hy rfl).1 i hi
          ((List.prefix_of_prefix_length_le hp hyj' heq.le).eq_of_length heq)
        exact ⟨c, j, hiy ▸ hyj, List.prefix_rfl⟩
      · obtain ⟨b, k, hk, hpk⟩ := (ih _ (by omega) i hi rfl).2 y hy
          (List.prefix_of_prefix_length_le hyj' hp hgt.le) (fun h => by rw [h] at hgt; omega)
        have hlk := hpk.length_le
        rw [(inv.link y b k hy hk).2, length_full, ← hlj] at hlk
        omega

theorem eq_of_path_eq (inv : Inv v path) (hi : v.alive i) (hj : v.alive j) (h : path i = path j) :
    i = j :=
  (inv.eq_and_descends _ j hj rfl).1 i hi h

theorem descends (inv : Inv v path) (hi : v.alive i) (hj : v.alive j) (h : path i <+: path j)
    (hne : path i ≠ path j) : ∃ b k, v.next i b = some k ∧ path k <+: path j :=
  (inv.eq_and_descends _ j hj rfl).2 i hi h hne

theorem path_length_le (inv : Inv v path) (hi : v.alive i) (hj : v.alive j)
    (h : full v path i a = full v path j b) : (path j).length ≤ (path i).length := by
  by_contra hlt
  have hp : path i <+: path j := List.prefix_of_prefix_length_le (h ▸ path_prefix_full)
    path_prefix_full (by omega)
  obtain ⟨c, k, hk, hpk⟩ := inv.descends hi hj hp (fun he => by rw [he] at hlt; omega)
  have hlk := hpk.length_le
  rw [(inv.link i c k hi hk).2, length_full, ← length_full (a := a), h, length_full] at hlk
  omega

theorem full_inj (inv : Inv v path) (hi : v.alive i) (hj : v.alive j)
    (h : full v path i a = full v path j b) : i = j ∧ a = b := by
  have hl := Nat.le_antisymm (inv.path_length_le hj hi h.symm) (inv.path_length_le hi hj h)
  have hp : path i <+: path j := List.prefix_of_prefix_length_le (h ▸ path_prefix_full)
    path_prefix_full hl.le
  obtain rfl := inv.eq_of_path_eq hi hj (hp.eq_of_length hl)
  simpa [full] using h

end Inv
end

/-! The two ways a trie grows: a new node under a free link, and a new node in the middle of
a label. -/
section grow
variable {v v' : View ι α} {path : ι → List α} {i j x : ι} {a c : α}

structure Adds (v v' : View ι α) (x : ι) : Prop where
  fresh : ¬ v.alive x
  root : v'.root = v.root
  alive : ∀ k, v'.alive k ↔ v.alive k ∨ k = x

theorem Adds.ne (h : Adds v v' x) {k : ι} (hk : v.alive k) : k ≠ x := by
  rintro rfl
  exact h.fresh hk

variable [DecidableEq ι]

/-- The paths after a node is hung under the slot `a` of the node `i`. -/
def hangPath (v : View ι α) (path : ι → List α) (i : ι) (a : α) (x : ι) : ι → List α :=
  Function.update path x (full v path i a)

/-- The paths after the node `x` takes over the first part `l` of the label of `j`. -/
def splitPath (path : ι → List α) (j x : ι) (l : List α) (c : α) : ι → List α :=
  Function.update (Function.update path x (path j)) j (path j ++ l ++ [c])

theorem hangPath_of_ne {k : ι} (h : k ≠ x) : hangPath v path i a x k = path k :=
  Function.update_of_ne h ..

theorem hangPath_self : hangPath v path i a x x = full v path i a := Function.update_self ..

theorem full_hangPath (hl : ∀ k, k ≠ x → v'.label k = v.label k) {k : ι} (h : k ≠ x) (b : α) :
    full v' (hangPath v path i a x) k b = full v path k b := by
  rw [full, full, hangPath_of_ne h, hl k h]

theorem Inv.hang (inv : Inv v path) (hg : Adds v v' x) (hl : ∀ k, k ≠ x → v'.label k = v.label k)
    (hi : v.alive i) (hfree : v.next i a = none) (hia : v'.next i a = some x)
    (hx : ∀ b, v'.next x b = none)
    (hn : ∀ k b, v.alive k → (k ≠ i ∨ b ≠ a) → v'.next k b = v.next k b) :
    Inv v' (hangPath v path i a x) where
  alive_root := by rw [hg.root, hg.alive]; exact .inl inv.alive_root
  path_root := by rw [hg.root, hangPath_of_ne (hg.ne inv.alive_root), inv.path_root]
  link k b y hk hy := by
    obtain hk | rfl := (hg.alive k).mp hk
    · rw [full_hangPath hl (hg.ne hk), hg.alive]
      by_cases h : k ≠ i ∨ b ≠ a
      · rw [hn k b hk h] at hy
        obtain ⟨hya, hyp⟩ := inv.link k b y hk hy
        exact ⟨.inl hya, by rw [hangPath_of_ne (hg.ne hya), hyp]⟩
      · obtain ⟨rfl, rfl⟩ : k = i ∧ b = a := by simpa using h
        rw [hia] at hy
        cases hy
        exact ⟨.inr rfl, hangPath_self⟩
    · rw [hx] at hy
      cases hy
  parent y hy hr := by
    obtain hy | rfl := (hg.alive y).mp hy
    · obtain ⟨k, b, hk, hky⟩ := inv.parent y hy (hg.root ▸ hr)
      refine ⟨k, b, (hg.alive k).mpr (.inl hk), ?_⟩
      rw [hn k b hk, hky]
      by_contra h
      obtain ⟨rfl, rfl⟩ : k = i ∧ b = a := by simpa using h
      rw [hfree] at hky
      cases hky
    · exact ⟨i, a, (hg.alive i).mpr (.inl hi), hia⟩

section split
variable {l₁ l₂ : List α}

theorem splitPath_of_ne {k : ι} (hx : k ≠ x) (hj : k ≠ j) : splitPath path j x l₁ c k = path k := by
  rw [splitPath, Function.update_of_ne hj, Function.update_of_ne hx]

theorem splitPath_new (h : x ≠ j) : splitPath path j x l₁ c x = path j := by
  rw [splitPath, Function.update_of_ne h, Function.update_self]

theorem splitPath_old : splitPath path j x l₁ c j = path j ++ l₁ ++ [c] := Function.update_self ..

theorem full_splitPath (hl : ∀ k, k ≠ x → k ≠ j → v'.label k = v.label k)
    (hj : v.label j = l₁ ++ c :: l₂) (hj' : v'.label j = l₂) {k : ι} (h : k ≠ x) (b : α) :
    full v' (splitPath path j x l₁ c) k b = full v path k b := by
  by_cases hk : k = j
  · subst hk
    rw [full, full, splitPath_old, hj, hj']
    simp
  · rw [full, full, splitPath_of_ne h hk, hl k h hk]

theorem Inv.split (inv : Inv v path) (hg : Adds v v' x)
    (hl : ∀ k, k ≠ x → k ≠ j → v'.label k = v.label k) (hi : v.alive i)
    (hij : v.next i a = some j) (hj : v.label j = l₁ ++ c :: l₂) (hj' : v'.label j = l₂)
    (hx : v'.label x = l₁) (hia : v'.next i a = some x) (hxc : v'.next x c = some j)
    (hxb : ∀ b, b ≠ c → v'.next x b = none)
    (hn : ∀ k b, v.alive k → (k ≠ i ∨ b ≠ a) → v'.next k b = v.next k b) :
    Inv v' (splitPath path j x l₁ c) := by
  obtain ⟨hja, hjp⟩ := inv.link i a j hi hij
  have hjx : j ≠ x := hg.ne hja
  have hjr : j ≠ v.root := inv.ne_root hi hij
  -- `j` hangs in one slot only, so no other link has to change.
  have honly : ∀ k b, v.alive k → (k ≠ i ∨ b ≠ a) → v.next k b ≠ some j := by
    intro k b hk h hkj
    obtain ⟨rfl, rfl⟩ := inv.full_inj hk hi ((inv.link k b j hk hkj).2.symm.trans hjp)
    simp at h
  refine ⟨?_, ?_, fun k b y hk hy => ?_, fun y hy hr => ?_⟩
  · rw [hg.root, hg.alive]
    exact .inl inv.alive_root
  · rw [hg.root, splitPath_of_ne (hg.ne inv.alive_root) hjr.symm, inv.path_root]
  · obtain hk | rfl := (hg.alive k).mp hk
    · rw [full_splitPath hl hj hj' (hg.ne hk), hg.alive]
      by_cases h : k ≠ i ∨ b ≠ a
      · rw [hn k b hk h] at hy
        obtain ⟨hya, hyp⟩ := inv.link k b y hk hy
        have hyj : y ≠ j := by
          rintro rfl
          exact honly k b hk h hy
        exact ⟨.inl hya, by rw [splitPath_of_ne (hg.ne hya) hyj, hyp]⟩
      · obtain ⟨rfl, rfl⟩ : k = i ∧ b = a := by simpa using h
        rw [hia] at hy
        cases hy
        exact ⟨.inr rfl, by rw [splitPath_new hjx.symm, hjp]⟩
    · by_cases h : b = c
      · rw [h, hxc] at hy
        cases hy
        exact ⟨(hg.alive _).mpr (.inl hja), by
          rw [splitPath_old, full, splitPath_new hjx.symm, hx, h]⟩
      · rw [hxb b h] at hy
        cases hy
  · obtain hy | rfl := (hg.alive y).mp hy
    · by_cases hyj : y = j
      · exact ⟨x, c, (hg.alive x).mpr (.inr rfl), hyj ▸ hxc⟩
      obtain ⟨k, b, hk, hky⟩ := inv.parent y hy (hg.root ▸ hr)
      refine ⟨k, b, (hg.alive k).mpr (.inl hk), ?_⟩
      rw [hn k b hk, hky]
      by_contra h
      obtain ⟨rfl, rfl⟩ : k = i ∧ b = a := by simpa using h
      rw [hij] at hky
      exact hyj (Option.some.inj hky).symm
    · exact ⟨i, a, (hg.alive i).mpr (.inl hi), hia⟩

end split
end grow
end RadixTree
