import Mathlib.Data.List.MinMax
import SmartTree.LocalCache

/-! The lists of the cache and their counters. Every operation leaves them alone or brings one node
to the front of its list; only the last node of a list is ever dropped. -/
namespace SmartTree.LocalCache
variable {κ ν : Type*} [DecidableEq κ]

/-- The counters agree with the lists, and a list has one node of a key. -/
structure Lists (c : Cache κ ν) : Prop where
  elements : ∀ b, c.bucketElements b = (c.buckets b).length
  limit : ∀ b, (c.buckets b).length ≤ bucketElementsLimit
  nodup : ∀ b, ((c.buckets b).map Node.key).Nodup

structure Same (c c' : Cache κ ν) : Prop where
  capacity : c'.capacity = c.capacity
  buckets : c'.buckets = c.buckets
  elements : c'.bucketElements = c.bucketElements
  size : c'.curSize = c.curSize

/-- A node has come to the front of a list, with what is left of the list behind it. -/
structure Moved (c c' : Cache κ ν) (index : ℕ) (node : Node κ ν) (rest : List (Node κ ν)) : Prop where
  capacity : c'.capacity = c.capacity
  buckets : c'.buckets = Function.update c.buckets index (node :: rest)
  elements : c'.bucketElements = Function.update c.bucketElements index (rest.length + 1)
  size : c'.curSize + (c.buckets index).length = c.curSize + (rest.length + 1)
  bound : c'.curSize ≤ max c.curSize c.capacity
  limit : rest.length + 1 ≤ bucketElementsLimit
  kept : rest.Sublist (c.buckets index)
  away : ∀ n ∈ rest, n.key ≠ node.key
  lost : ∀ n ∈ c.buckets index, n.key ≠ node.key → n ∉ rest → c.buckets index = rest ++ [n]

section select
omit [DecidableEq κ]

theorem select_foldl (c : Cache κ ν) (candidates : List ℕ) (m : ℕ) (o : Option ℕ)
    (hm : ∀ b ∈ o, c.bucketElements b = m) (hn : o = none → ∀ b ∈ candidates, c.bucketElements b < m) :
    (candidates.foldl (fun (acc : ℕ × Option ℕ) idx =>
      if c.bucketElements idx < acc.1 then (c.bucketElements idx, some idx) else acc) (m, o)).2 =
    candidates.foldl (List.argAux fun b a => c.bucketElements b < c.bucketElements a) o := by
  induction candidates generalizing m o with
  | nil => rfl
  | cons i rest ih =>
    cases o with
    | none =>
      have hi := hn rfl i (by simp)
      simp only [List.foldl_cons, hi, if_true]
      rw [ih _ _ (by simp) (by simp)]
      rfl
    | some b =>
      have hb : c.bucketElements b = m := hm b rfl
      simp only [List.foldl_cons, List.argAux, ← hb]
      split
      · exact ih _ _ (by simp) (by simp)
      · exact ih _ _ (by simp) (by simp)

/-- With every list within its limit the scan is `argmin`, first of the least loaded. -/
theorem selectBucket_eq_argmin (c : Cache κ ν) (candidates : List ℕ)
    (h : ∀ b, c.bucketElements b ≤ bucketElementsLimit) :
    selectBucket c candidates = candidates.argmin c.bucketElements :=
  select_foldl c candidates _ none (by simp) fun _ b _ => Nat.lt_succ_of_le (h b)

theorem candidates_ne_nil (hash : κ → ℕ → ℕ) (capacity : ℕ) (key : κ) :
    getCandidateBuckets hash capacity key ≠ [] := by
  simp [getCandidateBuckets, hashCandidateCount]

/-- The scan of `insert` finds the first of the least loaded lists. -/
theorem Lists.selectBucket_eq_some {c : Cache κ ν} (h : Lists c) (hash : κ → ℕ → ℕ) (key : κ) :
    ∃ index ∈ getCandidateBuckets hash c.capacity key,
      selectBucket c (getCandidateBuckets hash c.capacity key) = some index ∧
      (getCandidateBuckets hash c.capacity key).argmin c.bucketElements = some index ∧
        c.bucketElements index ≤ bucketElementsLimit := by
  have hload : ∀ b, c.bucketElements b ≤ bucketElementsLimit := by
    intro b
    rw [h.elements]
    exact h.limit b
  cases harg : (getCandidateBuckets hash c.capacity key).argmin c.bucketElements with
  | none => exact absurd (List.argmin_eq_none.mp harg) (candidates_ne_nil hash c.capacity key)
  | some index =>
    exact ⟨index, List.argmin_mem harg, (selectBucket_eq_argmin c _ hload).trans harg, rfl, hload index⟩

end select

section step
variable {c c' : Cache κ ν} {index : ℕ} {key : κ}

theorem touch_eq_none {f : Node κ ν → Node κ ν} {key : κ} {bucket : List (Node κ ν)} :
    touch f key bucket = none ↔ ∀ n ∈ bucket, n.key ≠ key := by
  simp [touch]

theorem mem_eraseP_key {key : κ} {bucket : List (Node κ ν)} (hn : (bucket.map Node.key).Nodup)
    {x : Node κ ν} (hx : x ∈ bucket.eraseP fun n => decide (n.key = key)) :
    x ∈ bucket ∧ x.key ≠ key := by
  induction bucket with
  | nil => simp at hx
  | cons y ys ih =>
    rw [List.map_cons, List.nodup_cons] at hn
    by_cases hy : y.key = key
    · have hx' : x ∈ ys := by simpa [List.eraseP_cons, hy] using hx
      refine ⟨List.mem_cons_of_mem y hx', fun hk => hn.1 ?_⟩
      exact List.mem_map.mpr ⟨x, hx', hk.trans hy.symm⟩
    · rw [List.eraseP_cons_of_neg (by simpa using hy)] at hx
      obtain rfl | hx := List.mem_cons.mp hx
      · exact ⟨by simp, hy⟩
      · exact ⟨List.mem_cons_of_mem y (ih hn.2 hx).1, (ih hn.2 hx).2⟩

omit [DecidableEq κ] in
theorem evictBack_spec (now : Int) (c : Cache κ ν) (index : ℕ) (hne : c.buckets index ≠ []) :
    (evictBack now c index).1.capacity = c.capacity ∧
      (evictBack now c index).1.buckets = Function.update c.buckets index (c.buckets index).dropLast ∧
      (evictBack now c index).1.bucketElements =
        Function.update c.bucketElements index (c.bucketElements index - 1) ∧
      (evictBack now c index).1.curSize = c.curSize - 1 := by
  rw [evictBack, List.getLast?_eq_some_getLast hne]
  dsimp only
  split <;> exact ⟨rfl, rfl, rfl, rfl⟩

theorem moved_of_touch {f : Node κ ν → Node κ ν} (hf : ∀ n, (f n).key = n.key) {m : Node κ ν}
    {out : List (Node κ ν)} (h : Lists c) (ht : touch f key (c.buckets index) = some (m, out))
    (hcap : c'.capacity = c.capacity) (hb : c'.buckets = Function.update c.buckets index out)
    (he : c'.bucketElements = c.bucketElements) (hs : c'.curSize = c.curSize) :
    ∃ n ∈ c.buckets index, n.key = key ∧ m = f n ∧ ∃ rest, Moved c c' index m rest := by
  rw [touch, Option.map_eq_some_iff] at ht
  obtain ⟨n, hfind, heq⟩ := ht
  obtain ⟨rfl, rfl⟩ := Prod.mk.inj heq
  have hmem := List.mem_of_find?_eq_some hfind
  have hkey : n.key = key := by simpa using List.find?_some hfind
  have hmkey : (f n).key = key := (hf n).trans hkey
  have hpos : 0 < (c.buckets index).length := List.length_pos_of_mem hmem
  have hlen : ((c.buckets index).eraseP fun n => decide (n.key = key)).length + 1 =
      (c.buckets index).length := by
    rw [List.length_eraseP_of_mem hmem (by simpa using hkey)]
    omega
  refine ⟨n, hmem, hkey, rfl, _, hcap, hb, ?_, ?_, ?_, ?_,
    List.eraseP_sublist, fun x hx => ?_, fun x hx hne hnot => absurd ?_ hnot⟩
  · rw [he, hlen, ← h.elements, Function.update_eq_self]
  · rw [hs, hlen]
  · exact hs ▸ le_max_left _ _
  · rw [hlen]
    exact h.limit index
  · rw [hmkey]
    exact (mem_eraseP_key (h.nodup index) hx).2
  · rw [hmkey] at hne
    exact (List.mem_eraseP_of_neg (by simpa using hne)).mpr hx

omit [DecidableEq κ] in
/-- A list with a new node in front drops its last node when it is too long. -/
theorem moved_of_evict (h : Lists c) (now : Int) {value : ν} (habs : ∀ n ∈ c.buckets index, n.key ≠ key)
    (hover : bucketElementsLimit < (c.buckets index).length + 1) :
    Moved c (evictBack now { c.setBucket index (⟨key, value, []⟩ :: c.buckets index) with
      bucketElements := Function.update c.bucketElements index (c.bucketElements index + 1)
      curSize := c.curSize + 1 } index).1 index ⟨key, value, []⟩ (c.buckets index).dropLast := by
  have hlim := h.limit index
  have hne : c.buckets index ≠ [] := fun he => by simp [he, bucketElementsLimit] at hover
  have hpos := List.length_pos_iff.mpr hne
  have hback := List.dropLast_append_getLast hne
  have hdrop : ((⟨key, value, []⟩ : Node κ ν) :: c.buckets index).dropLast =
      ⟨key, value, []⟩ :: (c.buckets index).dropLast := List.dropLast_cons_of_ne_nil hne
  obtain ⟨h1, h2, h3, h4⟩ := evictBack_spec now
    { c.setBucket index (⟨key, value, []⟩ :: c.buckets index) with
      bucketElements := Function.update c.bucketElements index (c.bucketElements index + 1)
      curSize := c.curSize + 1 } index (by simp [Cache.setBucket])
  have hsize : c.curSize + 1 - 1 = c.curSize := Nat.add_sub_cancel _ _
  refine ⟨h1, ?_, ?_, ?_, ?_, ?_, List.dropLast_sublist _,
    fun n hn => habs n (List.dropLast_subset _ hn), fun n hn _ hnot => ?_⟩
  · rw [h2]
    simp [Cache.setBucket, hdrop]
  · rw [h3]
    simp only [Function.update_self, Function.update_idem, List.length_dropLast, h.elements,
      Nat.add_sub_cancel, Nat.sub_add_cancel hpos]
  · rw [h4, List.length_dropLast, hsize]
    omega
  · rw [h4, hsize]
    exact le_max_left _ _
  · rw [List.length_dropLast]
    omega
  · rw [← hback, List.mem_append, List.mem_singleton] at hn
    rw [hn.resolve_left hnot, hback]

/-- The locked region of `insert`: an update, a rejection, an insertion, or an insertion that
drops the last node. -/
theorem insertAt_cases (h : Lists c) (now : Int) (index : ℕ) (key : κ) (value : ν) :
    (Same c (insertAt now c index key value).1 ∧ c.capacity ≤ c.curSize ∧ ∀ n ∈ c.buckets index,
      n.key ≠ key) ∨
    ((c.capacity ≤ c.curSize → ∃ n ∈ c.buckets index, n.key = key) ∧ ∃ m rest, m.key = key ∧
      m.value = value ∧ Moved c (insertAt now c index key value).1 index m rest) := by
  cases ht : touch (fun n => Node.updateAccessTime now { n with value := value }) key
      (c.buckets index) with
  | some p =>
    obtain ⟨m, out⟩ := p
    simp only [insertAt, ht]
    obtain ⟨n, hn, hnk, rfl, rest, hmoved⟩ : ∃ n ∈ c.buckets index, n.key = key ∧ m = _ ∧
        ∃ rest, Moved c (c.setBucket index out) index m rest :=
      moved_of_touch (by intro n; rfl) h ht rfl rfl rfl rfl
    exact .inr ⟨fun _ => ⟨n, hn, hnk⟩, .updateAccessTime now { n with value := value }, rest, hnk,
      rfl, hmoved⟩
  | none =>
    have habs := touch_eq_none.mp ht
    by_cases hfull : c.capacity ≤ c.curSize
    · simp only [insertAt, ht, if_pos hfull]
      exact .inl ⟨⟨rfl, rfl, rfl, rfl⟩, hfull, habs⟩
    · simp only [insertAt, ht, if_neg hfull, Function.update_self]
      refine .inr ⟨fun hge => absurd hge hfull, ⟨key, value, []⟩, ?_⟩
      have hlen := h.limit index
      split
      · rename_i hover
        rw [h.elements] at hover
        exact ⟨_, rfl, rfl, moved_of_evict h now habs hover⟩
      · rename_i hroom
        rw [h.elements] at hroom
        refine ⟨c.buckets index, rfl, rfl, rfl, rfl, ?_, ?_, ?_, ?_, List.Sublist.refl _, habs,
          fun n hn _ hnot => absurd hn hnot⟩
        · rw [h.elements]
        · simp only
          omega
        · exact (Nat.succ_le_of_lt (not_le.mp hfull)).trans (le_max_right _ _)
        · omega

/-- The candidate loop of `query`: the first list with a node of the key answers. -/
theorem queryFrom_cases (h : Lists c) (now : Int) (key : κ) (candidates : List ℕ) :
    (Same c (queryFrom now c key candidates).2 ∧ (queryFrom now c key candidates).1 = none ∧
      candidates.find? (fun index => (c.buckets index).any fun n => n.key = key) = none) ∨
    ∃ index ∈ candidates, candidates.find? (fun index =>
        (c.buckets index).any fun n => n.key = key) = some index ∧
      ∃ n ∈ c.buckets index, n.key = key ∧ (queryFrom now c key candidates).1 = some n.value ∧
      ∃ m rest, m.key = key ∧ m.value = n.value ∧
        Moved c (queryFrom now c key candidates).2 index m rest := by
  induction candidates with
  | nil => exact .inl ⟨⟨rfl, rfl, rfl, rfl⟩, rfl, rfl⟩
  | cons index others ih =>
    cases ht : touch (Node.updateAccessTime now) key (c.buckets index) with
    | none =>
      have habs := touch_eq_none.mp ht
      rw [List.find?_cons_of_neg (by simpa using habs)]
      simp only [queryFrom, ht]
      obtain h | ⟨i, hi, h⟩ := ih
      · exact .inl h
      · exact .inr ⟨i, List.mem_cons_of_mem _ hi, h⟩
    | some p =>
      obtain ⟨m, out⟩ := p
      obtain ⟨n, hn, hnk, rfl, rest, hmoved⟩ : ∃ n ∈ c.buckets index, n.key = key ∧ m = _ ∧
          ∃ rest, Moved c { c.setBucket index out with localCacheHit := c.localCacheHit + 1 } index m rest :=
        moved_of_touch (by intro n; rfl) h ht rfl rfl rfl rfl
      rw [List.find?_cons_of_pos (by simpa using ⟨n, hn, hnk⟩)]
      simp only [queryFrom, ht]
      exact .inr ⟨index, List.mem_cons_self, rfl, n, hn, hnk, rfl, .updateAccessTime now n, rest,
        hnk, rfl, hmoved⟩

end step

section keep
omit [DecidableEq κ]
variable {c c' : Cache κ ν} {index : ℕ} {m : Node κ ν} {rest : List (Node κ ν)}

theorem lists_new (capacity : ℕ) : Lists (new capacity : Cache κ ν) :=
  ⟨fun _ => rfl, fun _ => Nat.zero_le _, fun _ => List.nodup_nil⟩

theorem Same.lists (hs : Same c c') (h : Lists c) : Lists c' where
  elements b := by rw [hs.elements, hs.buckets, h.elements]
  limit b := by rw [hs.buckets]; exact h.limit b
  nodup b := by rw [hs.buckets]; exact h.nodup b

theorem Moved.lists (hm : Moved c c' index m rest) (h : Lists c) : Lists c' where
  elements b := by
    rw [hm.elements, hm.buckets]
    by_cases hb : b = index
    · subst hb
      simp
    · simp [hb, h.elements]
  limit b := by
    rw [hm.buckets]
    by_cases hb : b = index
    · subst hb
      simpa using hm.limit
    · simpa [hb] using h.limit b
  nodup b := by
    rw [hm.buckets]
    by_cases hb : b = index
    · subst hb
      rw [Function.update_self, List.map_cons, List.nodup_cons]
      refine ⟨fun hin => ?_, (h.nodup b).sublist (hm.kept.map _)⟩
      obtain ⟨n, hn, hk⟩ := List.mem_map.mp hin
      exact hm.away n hn hk
    · simpa [hb] using h.nodup b

/-- A node of the new lists is the one that has moved, or was there before. -/
theorem Moved.mem (hm : Moved c c' index m rest) {b : ℕ} {n : Node κ ν} (hn : n ∈ c'.buckets b) :
    b = index ∧ n = m ∨ n ∈ c.buckets b ∧ (b = index → n.key ≠ m.key) := by
  rw [hm.buckets] at hn
  by_cases hb : b = index
  · subst hb
    rw [Function.update_self] at hn
    obtain rfl | hn := List.mem_cons.mp hn
    · exact .inl ⟨rfl, rfl⟩
    · exact .inr ⟨hm.kept.subset hn, fun _ => hm.away n hn⟩
  · rw [Function.update_of_ne hb] at hn
    exact .inr ⟨hn, fun he => absurd he hb⟩

end keep
end SmartTree.LocalCache
