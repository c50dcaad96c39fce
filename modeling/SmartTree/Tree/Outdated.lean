import SmartTree.Tree.Resolve
import SmartTree.Lib.Transition

/-! One node while splits hang it deeper. Each split asks for an update of the header with
`split_header` that nobody waits for; the update may come late, in any order, or never. -/
namespace SmartTree
open Transition
variable {n : ℕ}

/-- How a key compares with a header: it passes, or it differs first at a position of the key from
the byte the header stores there; `none` for an index outside the key. -/
def Header.verdict (h : Header) (k : Key n) : Option (Option (ℕ × UInt8)) :=
  (h.firstDiff k).map fun r => r.map fun i => (h.depth + i, h.partials.getD i 0)

def Key.Follows (k : Key n) (bs : List UInt8) : Prop := ∀ p < bs.length, getPartial k p = bs[p]?

instance (k : Key n) (bs : List UInt8) : Decidable (k.Follows bs) :=
  inferInstanceAs (Decidable (∀ p < bs.length, _))

/-- A node, the bytes on the way to it, and the header it would have with every update done.
`seen` are the headers clients have read, `issued` the updates still on their way. -/
structure Hanging where
  bytes : List UInt8
  stored : Header
  full : Header
  seen : List Header
  issued : List (Header × Header)
deriving DecidableEq

namespace Hanging

inductive Event (n : ℕ)
  | read
  | split (hdr : Header) (k : Key n)
  | switch (hdr : Header) (next : NodeType)
  | deliver (j : ℕ)
  | lose (j : ℕ)

/-- A split by a key that comes to the node, from a header read at any time before. The node then
hangs behind the byte the key differs from. -/
def split (s : Hanging) (hdr : Header) (k : Key n) : Option Hanging :=
  match hdr.firstDiff k with
  | some (some i) => some { s with
      bytes := k.cut 0 (hdr.depth + i) ++ [hdr.partials.getD i 0]
      full := s.full.splitHeader (hdr.depth + i - s.full.depth)
      issued := s.issued ++ [(hdr, hdr.splitHeader i)] }
  | _ => none

def next (s : Hanging) : Event n → Option Hanging
  | .read => some { s with seen := s.stored :: s.seen }
  | .split hdr k => if hdr ∈ s.seen ∧ k.Follows s.bytes then s.split hdr k else none
  | .switch hdr next => some { s with stored := s.stored.casType hdr next }
  | .deliver j => s.issued[j]?.map fun u =>
      { s with stored := s.stored.casSplit u.1 u.2, issued := s.issued.eraseIdx j }
  | .lose j => s.issued[j]?.map fun _ => { s with issued := s.issued.eraseIdx j }

/-- All headers about: in memory, in a client's hands, or to be written. -/
def versions (s : Hanging) : List Header :=
  s.stored :: s.full :: s.seen ++ s.issued.map Prod.fst ++ s.issued.map Prod.snd

end Hanging

def hanging (n : ℕ) (H : Header) : System Hanging (Hanging.Event n) where
  init s := ∃ bs, bs.length = H.depth ∧ s = ⟨bs, H, H, [], []⟩
  next := Hanging.next

section verdict
variable {k : Key n} {π : List UInt8} {d a : ℕ}

/-- A byte that agrees moves the comparison on without a change of its verdict. -/
theorem verdict_cons {b : UInt8} {bs : List UInt8} {t t' : NodeType} (hb : getPartial k d = some b) :
    (⟨d, t, b :: bs⟩ : Header).verdict k = (⟨d + 1, t', bs⟩ : Header).verdict k := by
  simp only [Header.verdict, Header.firstDiff, Header.diffLoop, hb, Option.bind_eq_bind,
    Option.bind_some, ne_eq, not_true_eq_false, if_false]
  cases Header.diffLoop k (d + 1) bs with
  | none => rfl
  | some r => cases r <;> simp [Nat.add_assoc, Nat.add_comm 1]

/-- Two headers cut from one path give the same verdict for a key that follows the path to the
start of both. -/
theorem verdict_drop {t u : NodeType} (hda : d ≤ a) (ha : a ≤ π.length)
    (hk : ∀ p < a, getPartial k p = π[p]?) :
    (⟨d, t, π.drop d⟩ : Header).verdict k = (⟨a, u, π.drop a⟩ : Header).verdict k := by
  induction hda with
  | refl => rfl
  | @step a hda ih =>
    have hlt : a < π.length := by omega
    rw [ih (by omega) fun p hp => hk p (by omega), List.drop_eq_getElem_cons hlt]
    exact verdict_cons (by rw [hk a (by omega), List.getElem?_eq_getElem hlt])

theorem diffLoop_isSome {bs : List UInt8} (h : d + bs.length ≤ n + 1) :
    (Header.diffLoop k d bs).isSome := by
  induction bs generalizing d with
  | nil => rfl
  | cons b bs ih =>
    rw [List.length_cons] at h
    obtain ⟨r, hr⟩ := Option.isSome_iff_exists.mp (ih (d := d + 1) (by omega))
    simp only [Header.diffLoop, getPartial_eq (show d ≤ n by omega), hr, Option.bind_eq_bind,
      Option.bind_some]
    split <;> rfl

end verdict

namespace Hanging
variable {H : Header} {s t : Hanging} {k : Key n}

structure CutFrom (π bs : List UInt8) (h : Header) : Prop where
  le : h.depth ≤ bs.length
  partials : h.partials = π.drop h.depth

/-- The path of the node never changes; the bytes above the node are a part of it that grows. -/
structure Inv (π : List UInt8) (s : Hanging) : Prop where
  above : s.bytes <+: π
  full : s.full.depth = s.bytes.length
  cut : ∀ h ∈ s.versions, CutFrom π s.bytes h

theorem CutFrom.mono {π bs bs' : List UInt8} {h : Header} (hc : CutFrom π bs h)
    (hle : bs.length ≤ bs'.length) : CutFrom π bs' h := ⟨hc.le.trans hle, hc.partials⟩

theorem CutFrom.splitHeader {π bs bs' : List UInt8} {h : Header} {i : ℕ} (hc : CutFrom π bs h)
    (hle : h.depth + i + 1 ≤ bs'.length) : CutFrom π bs' (h.splitHeader i) :=
  ⟨hle, by simp [Header.splitHeader, hc.partials, List.drop_drop, Nat.add_assoc]⟩

theorem follows_path {π bs : List UInt8} (hπ : bs <+: π) (hk : k.Follows bs) {p : ℕ}
    (hp : p < bs.length) : getPartial k p = π[p]? := by
  obtain ⟨rest, rfl⟩ := hπ
  rw [hk p hp, List.getElem?_append_left hp]

/-- Where a key that comes to the node first differs, the node is not yet above. -/
theorem CutFrom.length_le {π bs : List UInt8} {h : Header} {i : ℕ} (hc : CutFrom π bs h)
    (hπ : bs <+: π) (hk : k.Follows bs) (hi : h.firstDiff k = some (some i)) :
    bs.length ≤ h.depth + i := by
  by_contra hlt
  obtain ⟨hn, ⟨b, hb, hne⟩, -⟩ := diffLoop_some hi
  refine hne (Option.some.inj ?_)
  rw [← hb, hc.partials, List.getElem?_drop, ← getPartial_eq hn, follows_path hπ hk (by omega)]

/-- The bytes of the key up to the difference and the stored byte are the path so far. -/
theorem CutFrom.bytes_split {π bs : List UInt8} {h : Header} {i : ℕ} (hc : CutFrom π bs h)
    (hπ : bs <+: π) (hk : k.Follows bs) (hi : h.firstDiff k = some (some i)) :
    k.cut 0 (h.depth + i) ++ [h.partials.getD i 0] = π.take (h.depth + i + 1) ∧
      h.depth + i < π.length := by
  obtain ⟨hn, ⟨b, hb, -⟩, hbefore⟩ := diffLoop_some hi
  have hlen : h.depth + i < π.length := by
    rw [hc.partials, List.getElem?_drop] at hb
    exact (List.getElem?_eq_some_iff.mp hb).1
  refine ⟨?_, hlen⟩
  rw [hc.partials, List.getElem?_drop] at hb
  rw [List.take_add_one, hb, hc.partials, List.getD_eq_getElem?_getD, List.getElem?_drop, hb]
  refine congrArg (· ++ [b]) (List.ext_getElem? fun p => ?_)
  by_cases hp : p < h.depth + i
  · have hcut : (k.cut 0 (h.depth + i))[p]? = some (k.byte p) := by simp [Key.cut, hp]
    rw [hcut, List.getElem?_take_of_lt hp, ← getPartial_eq (k := k) (by omega)]
    by_cases hpa : p < bs.length
    · exact follows_path hπ hk hpa
    · have hle := hc.le
      have := hbefore (p - h.depth) (by omega)
      rw [hc.partials, List.getElem?_drop, show h.depth + (p - h.depth) = p by omega] at this
      rw [this, getPartial_eq (by omega)]
  · rw [List.getElem?_eq_none (by simp [Key.cut]; omega), List.getElem?_take_eq_none (by omega)]

theorem Inv.split {π : List UInt8} (h : Inv π s) {hdr : Header} (hseen : hdr ∈ s.seen)
    (hk : k.Follows s.bytes) (ht : s.split hdr k = some t) : Inv π t := by
  have hv : ∀ v ∈ s.versions, CutFrom π s.bytes v := h.cut
  have hc : CutFrom π s.bytes hdr := hv hdr (by simp [versions, hseen])
  unfold Hanging.split at ht
  split at ht
  · rename_i i hi
    obtain rfl := Option.some.inj ht
    obtain ⟨hbytes, hlt⟩ := hc.bytes_split h.above hk hi
    have hle := hc.length_le h.above hk hi
    have hlen : (k.cut 0 (hdr.depth + i) ++ [hdr.partials.getD i 0]).length = hdr.depth + i + 1 := by
      simp [Key.cut]
    have hmono : s.bytes.length ≤ (k.cut 0 (hdr.depth + i) ++ [hdr.partials.getD i 0]).length := by
      omega
    have hf := h.full
    refine ⟨hbytes ▸ List.take_prefix _ _, ?_, fun v hm => ?_⟩
    · simp only [hlen, Header.splitHeader]
      omega
    · simp only [versions, List.map_append, List.map_cons, List.map_nil, List.mem_append, List.mem_cons,
        List.cons_append, List.not_mem_nil, or_false] at hm
      have hold : v ∈ s.versions → CutFrom π (k.cut 0 (hdr.depth + i) ++ [hdr.partials.getD i 0]) v :=
        fun hm => (hv v hm).mono hmono
      obtain rfl | rfl | ((hm | hm | rfl) | hm | rfl) := hm
      · exact hold (by simp [versions])
      · refine (hv s.full (by simp [versions])).splitHeader ?_
        rw [hlen]
        omega
      · exact hold (by simp [versions, hm])
      · exact hold (by simp only [versions, List.mem_cons, List.mem_append, List.cons_append]; tauto)
      · exact hc.mono hmono
      · exact hold (by simp only [versions, List.mem_cons, List.mem_append, List.cons_append]; tauto)
      · exact hc.splitHeader hlen.ge
  · cases ht

theorem Inv.next {π : List UInt8} (h : Inv π s) {e : Event n} (ht : s.next e = some t) : Inv π t := by
  have hv : ∀ v ∈ s.versions, CutFrom π s.bytes v := h.cut
  have hstored := hv s.stored (by simp [versions])
  -- what is left of the issued updates is among them
  have hless : ∀ (hdr : Header) j v, CutFrom π s.bytes hdr →
      v ∈ versions { s with stored := hdr, issued := s.issued.eraseIdx j } → CutFrom π s.bytes v := by
    intro hdr j v hhdr hm
    have hsub : ∀ f : Header × Header → Header, v ∈ (s.issued.eraseIdx j).map f → v ∈ s.issued.map f :=
      fun f hm => ((List.eraseIdx_sublist _ j).map f).subset hm
    simp only [versions, List.mem_append, List.mem_cons, List.cons_append] at hm hv
    obtain rfl | rfl | (hm | hm) | hm := hm
    · exact hhdr
    · exact hv _ (by tauto)
    · exact hv v (by tauto)
    · exact hv v (.inr (.inr (.inl (.inr (hsub _ hm)))))
    · exact hv v (.inr (.inr (.inr (hsub _ hm))))
  cases e with
  | read =>
    obtain rfl := Option.some.inj ht
    refine ⟨h.above, h.full, fun v hm => hv v ?_⟩
    simp only [versions, List.mem_append, List.mem_cons, List.cons_append] at hm ⊢
    tauto
  | split hdr k =>
    simp only [Hanging.next] at ht
    split at ht
    · rename_i hg
      exact h.split hg.1 hg.2 ht
    · cases ht
  | switch hdr next =>
    obtain rfl := Option.some.inj ht
    refine ⟨h.above, h.full, fun v hm => ?_⟩
    obtain rfl | hm := List.mem_cons.mp hm
    · unfold Header.casType
      split
      · exact ⟨hstored.le, hstored.partials⟩
      · exact hstored
    · exact hv v (List.mem_cons_of_mem _ hm)
  | deliver j =>
    obtain ⟨u, hu, rfl⟩ := Option.map_eq_some_iff.mp ht
    have hmem := List.mem_of_getElem? hu
    refine ⟨h.above, h.full, fun v hm => hless _ j v ?_ hm⟩
    unfold Header.casSplit
    split
    · have hnew := hv u.2 (by
        simp only [versions, List.mem_append]
        exact .inr (List.mem_map_of_mem hmem))
      exact ⟨hnew.le, hnew.partials⟩
    · exact hstored
  | lose j =>
    obtain ⟨u, hu, rfl⟩ := Option.map_eq_some_iff.mp ht
    exact ⟨h.above, h.full, fun v hm => hless s.stored j v hstored hm⟩

theorem inv_of_reachable (hs : (hanging n H).Reachable s) :
    ∃ π, π.length = H.depth + H.partials.length ∧ Inv π s := by
  refine hs.invariant (P := fun s => ∃ π, π.length = H.depth + H.partials.length ∧ Inv π s)
    (fun s hi => ?_) fun s e t _ hp _ ht => ?_
  · obtain ⟨bs, hbs, rfl⟩ := hi
    refine ⟨bs ++ H.partials, by simp [hbs], List.prefix_append _ _, hbs.symm, fun v hm => ?_⟩
    obtain rfl : v = H := by simpa [versions] using hm
    exact ⟨hbs.ge, by rw [← hbs, List.drop_left]⟩
  · obtain ⟨π, hlen, h⟩ := hp
    exact ⟨π, hlen, h.next ht⟩

/-- Whatever header updates are late or lost, a key that comes to the node gets from the stored
header the verdict of the full one. -/
theorem outdated_headers_harmless (hs : (hanging n H).Reachable s) (hk : k.Follows s.bytes) :
    s.stored.verdict k = s.full.verdict k ∧
    (∀ i, s.stored.firstDiff k = some (some i) → s.bytes.length ≤ s.stored.depth + i) ∧
    (∀ v ∈ s.versions, v.depth + v.partials.length = H.depth + H.partials.length) ∧
    (H.depth + H.partials.length ≤ n + 1 → (s.stored.verdict k).isSome) := by
  obtain ⟨π, hlen, h⟩ := inv_of_reachable hs
  have hstored := h.cut s.stored (by simp [versions])
  have hfull := h.cut s.full (by simp [versions])
  have habove := h.above.length_le
  have hsum : ∀ v ∈ s.versions, v.depth + v.partials.length = H.depth + H.partials.length := by
    intro v hm
    have hle := (h.cut v hm).le
    rw [(h.cut v hm).partials, List.length_drop]
    omega
  refine ⟨?_, fun i hi => hstored.length_le h.above hk hi, hsum, fun hfit => ?_⟩
  · have heq := verdict_drop (t := s.stored.type) (u := s.full.type) (hstored.le.trans h.full.ge)
      (h.full.trans_le habove) fun p hp => follows_path h.above hk (hp.trans_eq h.full)
    rwa [← hstored.partials, ← hfull.partials] at heq
  · rw [Header.verdict, Option.isSome_map]
    have := hsum s.stored (by simp [versions])
    exact diffLoop_isSome (by omega)

/-- Two splits from one header: the update of the first arrives and puts the second's in vain. -/
def crossedUpdates : List (Event 5) :=
  [.read, .split ⟨1, .node4, [1, 2, 3, 4]⟩ ⟨[1, 9, 0, 0, 0], rfl⟩,
    .split ⟨1, .node4, [1, 2, 3, 4]⟩ ⟨[1, 2, 9, 0, 0], rfl⟩, .deliver 0, .deliver 0]

theorem outdated_after_crossing :
    (hanging 5 ⟨1, .node4, [1, 2, 3, 4]⟩).Ends ⟨[0], ⟨1, .node4, [1, 2, 3, 4]⟩, ⟨1, .node4, [1, 2, 3, 4]⟩, [], []⟩
      crossedUpdates fun s => s.stored.depth < s.full.depth ∧
        s.stored.verdict (⟨[1, 2, 3, 7, 0], rfl⟩ : Key 5) = s.full.verdict ⟨[1, 2, 3, 7, 0], rfl⟩ := by
  obtain ⟨s, hs, hlt, hk⟩ : (hanging 5 ⟨1, .node4, [1, 2, 3, 4]⟩).Ends
      ⟨[0], ⟨1, .node4, [1, 2, 3, 4]⟩, ⟨1, .node4, [1, 2, 3, 4]⟩, [], []⟩ crossedUpdates fun s =>
        s.stored.depth < s.full.depth ∧ (⟨[1, 2, 3, 7, 0], rfl⟩ : Key 5).Follows s.bytes := by
    decide
  exact ⟨s, hs, hlt, (outdated_headers_harmless (.run (.init ⟨[0], rfl, rfl⟩) hs) hk).1⟩

end Hanging
end SmartTree
