import SmartTree.Dsm.Batches

/-! What becomes of the batches. Without a coroutine they are all posted before a completion is
polled, so the call returns iff the send queues have room for all of them. -/
namespace SmartTree

section requests
variable (remoteInfo : ℕ → RemoteInfo) (op : Opcode) (ctx : Option ℕ)

def requests (rs : List RdmaOpRegion) : List WorkRequest :=
  rs.mapIdx fun i r => r.request remoteInfo op (i + 1 == rs.length) (ctx.getD 0)

theorem length_requests (rs : List RdmaOpRegion) : (requests remoteInfo op ctx rs).length = rs.length :=
  List.length_mapIdx

theorem filter_requests_take {rs : List RdmaOpRegion} (hpos : rs ≠ []) (i : ℕ) :
    (((requests remoteInfo op ctx rs).take i).filter (·.signaled)).length =
      if rs.length ≤ i then 1 else 0 := by
  obtain ⟨init, last, rfl⟩ := (List.eq_nil_or_concat rs).resolve_left hpos
  have hinit : ∀ j, ((init.mapIdx fun i r =>
      r.request remoteInfo op (i + 1 == (init ++ [last]).length) (ctx.getD 0)).take j).filter
        (·.signaled) = [] := by
    intro j
    rw [List.filter_eq_nil_iff]
    intro q hq
    obtain ⟨i, hi, rfl⟩ := List.mem_mapIdx.mp (List.mem_of_mem_take hq)
    simp [RdmaOpRegion.request]
    omega
  rw [List.concat_eq_append, requests, List.mapIdx_append, List.take_append, List.filter_append, hinit,
    List.length_mapIdx]
  by_cases hi : init.length + 1 ≤ i
  · obtain ⟨j, hj⟩ := Nat.exists_eq_add_of_le' (show 1 ≤ i - init.length by omega)
    simp [hi, hj, RdmaOpRegion.request]
  · simp [hi, show i - init.length = 0 by omega]

theorem signaled_requests {rs : List RdmaOpRegion} (hpos : rs ≠ []) :
    ((requests remoteInfo op ctx rs).filter (·.signaled)).length = 1 := by
  have h := filter_requests_take remoteInfo op ctx hpos rs.length
  rwa [List.take_of_length_le (length_requests remoteInfo op ctx rs).le, if_pos le_rfl] at h

variable (turns : ℕ → SendQueues) (st : Posting)

theorem any_signaled_take {rs : List RdmaOpRegion} (hpos : rs ≠ []) (i : ℕ) :
    ((requests remoteInfo op ctx rs).take i).any (·.signaled) = decide (rs.length ≤ i) := by
  have h := filter_requests_take remoteInfo op ctx hpos i
  by_cases hi : rs.length ≤ i
  · rw [if_pos hi] at h
    obtain ⟨q, hq⟩ := List.exists_mem_of_length_pos (h ▸ Nat.one_pos)
    rw [List.mem_filter] at hq
    simpa [hi] using ⟨q, hq⟩
  · rw [if_neg hi, List.length_eq_zero_iff, List.filter_eq_nil_iff] at h
    simpa [hi] using h

theorem postBatch_eq {b : ℕ × List RdmaOpRegion} (hpos : b.2 ≠ []) (hsize : b.2.length ≤ op.oroMax)
    (hown : ∀ r ∈ b.2, r.node = b.1) : postBatch remoteInfo op turns ctx st b.2 =
      let p := st.queues.ibvPostSend b.1 (requests remoteInfo op ctx b.2)
      if ctx.isSome then
        if b.2.length ≤ st.queues.room b.1 then
          .ok ⟨turns st.waits, st.issued ++ [(b.1, p.taken)], st.waits + 1⟩
        else .error .waiting
      else .ok ⟨p.queues, st.issued ++ [(b.1, p.taken)], st.waits⟩ := by
  have hany := any_signaled_take remoteInfo op ctx hpos (st.queues.room b.1)
  rw [postBatch, List.getLast?_eq_some_getLast hpos]
  simp only [rdmaBatch, if_pos hsize, hown _ (List.getLast_mem hpos)]
  change (if ctx.isSome then if ((requests remoteInfo op ctx b.2).take (st.queues.room b.1)).any
    (·.signaled) = true then _ else _ else _) = _
  simp only [hany, decide_eq_true_eq]
  rfl

/-- The queues have room for all the requests of the batches. -/
def Fits (q : SendQueues) (bs : List (ℕ × List RdmaOpRegion)) : Prop :=
  ∀ j, ((bs.filter (·.1 = j)).flatMap (·.2)).length ≤ q.room j

theorem fits_cons {q : SendQueues} {b : ℕ × List RdmaOpRegion} {bs : List (ℕ × List RdmaOpRegion)} :
    Fits q (b :: bs) ↔ b.2.length ≤ q.room b.1 ∧
      Fits (q.ibvPostSend b.1 (requests remoteInfo op ctx b.2)).queues bs := by
  simp only [Fits, SendQueues.room_ibvPostSend, length_requests, List.filter_cons]
  constructor
  · intro h
    have hb := h b.1
    simp only [decide_true, if_true, List.flatMap_cons, List.length_append] at hb
    refine ⟨by omega, fun j => ?_⟩
    have hj := h j
    by_cases he : j = b.1
    · subst he
      simp only [if_true]
      omega
    · simpa [he, Ne.symm he] using hj
  · rintro ⟨hb, h⟩ j
    have hj := h j
    by_cases he : j = b.1
    · subst he
      simp only [decide_true, if_true, List.flatMap_cons, List.length_append] at hj ⊢
      omega
    · simpa [he, Ne.symm he] using hj

/-- Without a coroutine all batches are posted before any completion is polled: they all get into
the queues if these have room, and otherwise a completion is missing. -/
theorem postBatch_foldlM {bs : List (ℕ × List RdmaOpRegion)}
    (hb : ∀ b ∈ bs, b.2 ≠ [] ∧ b.2.length ≤ op.oroMax ∧ ∀ r ∈ b.2, r.node = b.1) :
    ∃ q taken, bs.foldlM (fun st b => postBatch remoteInfo op turns none st b.2) st =
        .ok ⟨q, st.issued ++ taken, st.waits⟩ ∧
      ((taken.flatMap Prod.snd).filter (·.signaled)).length ≤ bs.length ∧
      (Fits st.queues bs → taken = bs.map fun b => (b.1, requests remoteInfo op none b.2)) ∧
      (¬ Fits st.queues bs → ((taken.flatMap Prod.snd).filter (·.signaled)).length < bs.length) := by
  induction bs generalizing st with
  | nil => exact ⟨st.queues, [], by simp [pure, Except.pure], le_rfl, fun _ => rfl,
      fun h => absurd (fun j => Nat.zero_le _) h⟩
  | cons b bs ih =>
    obtain ⟨hpos, hsize, hown⟩ := hb b List.mem_cons_self
    obtain ⟨q, taken, hfold, hle, hfits, hnot⟩ := ih ⟨_, st.issued ++ [(b.1, _)], st.waits⟩
      fun c hc => hb c (List.mem_cons_of_mem _ hc)
    have hone := filter_requests_take remoteInfo op none hpos (st.queues.room b.1)
    refine ⟨q, (b.1, (requests remoteInfo op none b.2).take (st.queues.room b.1)) :: taken, ?_, ?_, ?_, ?_⟩
    · rw [List.foldlM_cons, postBatch_eq remoteInfo op none turns st hpos hsize hown]
      refine hfold.trans ?_
      rw [List.append_assoc]
      rfl
    · rw [List.flatMap_cons, List.filter_append, List.length_append, hone, List.length_cons]
      split <;> omega
    · intro h
      obtain ⟨h1, h2⟩ := (fits_cons remoteInfo op none).mp h
      rw [hfits h2, List.map_cons, List.take_of_length_le]
      rwa [length_requests]
    · intro h
      rw [List.flatMap_cons, List.filter_append, List.length_append, hone, List.length_cons]
      by_cases h1 : b.2.length ≤ st.queues.room b.1
      · have := hnot fun h2 => h ((fits_cons remoteInfo op none).mpr ⟨h1, h2⟩)
        rw [if_pos h1]
        omega
      · rw [if_neg h1]
        omega

/-- A coroutine finds room for each of its batches, if the others leave room for one. -/
theorem postBatch_foldlM_turns (id : ℕ) {bs : List (ℕ × List RdmaOpRegion)}
    (hb : ∀ b ∈ bs, b.2 ≠ [] ∧ b.2.length ≤ op.oroMax ∧ ∀ r ∈ b.2, r.node = b.1)
    (hroom : ∀ j, op.oroMax ≤ st.queues.room j) (hturns : ∀ i j, op.oroMax ≤ (turns i).room j) :
    ∃ q, bs.foldlM (fun st b => postBatch remoteInfo op turns (some id) st b.2) st =
      .ok ⟨q, st.issued ++ bs.map fun b => (b.1, requests remoteInfo op (some id) b.2),
        st.waits + bs.length⟩ := by
  induction bs generalizing st with
  | nil => exact ⟨st.queues, by simp [pure, Except.pure]⟩
  | cons b bs ih =>
    obtain ⟨hpos, hsize, hown⟩ := hb b List.mem_cons_self
    obtain ⟨q, hfold⟩ := ih ⟨turns st.waits, st.issued ++ [(b.1, requests remoteInfo op (some id) b.2)],
      st.waits + 1⟩ (fun c hc => hb c (List.mem_cons_of_mem _ hc)) (hturns _)
    have hfit := hsize.trans (hroom b.1)
    refine ⟨q, ?_⟩
    rw [List.foldlM_cons, postBatch_eq remoteInfo op (some id) turns st hpos hsize hown]
    simp only [Option.isSome_some, if_true, if_pos hfit, SendQueues.ibvPostSend,
      List.take_of_length_le ((length_requests remoteInfo op (some id) b.2).trans_le hfit)]
    refine hfold.trans ?_
    rw [List.append_assoc, List.length_cons, List.map_cons, Nat.add_right_comm, Nat.add_assoc]
    rfl

theorem completions_requests {q : SendQueues} {waits : ℕ} {bs : List (ℕ × List RdmaOpRegion)}
    (hpos : ∀ b ∈ bs, b.2 ≠ []) :
    Posting.completions ⟨q, bs.map fun b => (b.1, requests remoteInfo op ctx b.2), waits⟩ = bs.length := by
  unfold Posting.completions
  induction bs with
  | nil => rfl
  | cons b bs ih =>
    have hone := signaled_requests remoteInfo op ctx (hpos b List.mem_cons_self)
    have hrest := ih fun c hc => hpos c (List.mem_cons_of_mem _ hc)
    simp only [List.map_cons, List.flatMap_cons, List.filter_append, List.length_append,
      List.length_cons] at hrest ⊢
    omega

/-- What a call has to do: the batches it has issued partition the regions, each went to the node
of its regions, within the size of the arrays and in their order, and as many completions were
waited for as batches were posted, each of which has one. -/
def Partitions (rs : List RdmaOpRegion) (st : Posting) : Prop :=
  ∃ bs : List (ℕ × List RdmaOpRegion),
    st.issued = bs.map (fun b => (b.1, requests remoteInfo op ctx b.2)) ∧ st.waits = bs.length ∧
    (bs.flatMap (·.2)).Perm rs ∧
    (∀ j, (bs.filter (·.1 = j)).flatMap (·.2) = rs.filter (·.node = j)) ∧
    ∀ b ∈ bs, b.2.length ≤ op.oroMax ∧ (∀ r ∈ b.2, r.node = b.1) ∧
      ((requests remoteInfo op ctx b.2).filter (·.signaled)).length = 1

theorem Batched.partitions {bs : List (ℕ × List RdmaOpRegion)} {rs : List RdmaOpRegion}
    (h : Batched op bs rs) (hi : st.issued = bs.map fun b => (b.1, requests remoteInfo op ctx b.2))
    (hw : st.waits = bs.length) : Partitions remoteInfo op ctx rs st :=
  ⟨bs, hi, hw, h.perm, h.order, fun b hb => ⟨h.size b hb, h.own b hb,
    signaled_requests remoteInfo op ctx (h.pos b hb)⟩⟩

variable (cq : CompletionQueue) (stale : Bool) {queues : SendQueues} {rs : List RdmaOpRegion}
  {bs : List (ℕ × List RdmaOpRegion)}

theorem Batched.postBatches_ok (h : Batched op bs rs)
    (hroom : ∀ j, (rs.filter (·.node = j)).length ≤ queues.room j) :
    ∃ fuel₀, ∀ fuel ≥ fuel₀, ∃ st,
      postBatches remoteInfo op cq turns stale fuel none queues bs = .ok st ∧
        Partitions remoteInfo op none rs st := by
  obtain ⟨q, taken, hfold, -, hfits, -⟩ := postBatch_foldlM remoteInfo op turns ⟨queues, [], 0⟩
    fun b hb => ⟨h.pos b hb, h.size b hb, h.own b hb⟩
  obtain rfl := hfits fun j => by rw [h.order]; exact hroom j
  have hcount : Posting.completions ⟨q, bs.map fun b => (b.1, requests remoteInfo op none b.2), 0⟩ =
      bs.length := completions_requests remoteInfo op none h.pos
  obtain ⟨fuel₀, hpoll⟩ := cq.pollWithCQ_all bs.length stale
  refine ⟨fuel₀, fun fuel hfuel => ?_⟩
  obtain ⟨code, hcode⟩ := hpoll fuel hfuel
  refine ⟨⟨q, bs.map fun b => (b.1, requests remoteInfo op none b.2), bs.length⟩, ?_,
    h.partitions remoteInfo op none _ rfl rfl⟩
  simp only [postBatches, hfold, List.nil_append, Option.isSome_none, hcount, hcode]
  rfl

theorem Batched.postBatches_waits (h : Batched op bs rs) {j : ℕ}
    (hroom : queues.room j < (rs.filter (·.node = j)).length) (fuel : ℕ) :
    postBatches remoteInfo op cq turns stale fuel none queues bs = .error .waiting := by
  obtain ⟨q, taken, hfold, -, -, hnot⟩ := postBatch_foldlM remoteInfo op turns ⟨queues, [], 0⟩
    fun b hb => ⟨h.pos b hb, h.size b hb, h.own b hb⟩
  have hless : Posting.completions ⟨q, taken, 0⟩ < bs.length :=
    hnot fun hf => absurd (h.order j ▸ hf j) (not_le.mpr hroom)
  simp only [postBatches, hfold, List.nil_append, Option.isSome_none, cq.pollWithCQ_more hless]
  rfl

/-- A coroutine that finds room for a batch whenever it runs returns. -/
theorem Batched.postBatches_turns (h : Batched op bs rs) {id : ℕ}
    (hroom : ∀ j, op.oroMax ≤ queues.room j) (hturns : ∀ i j, op.oroMax ≤ (turns i).room j)
    (fuel : ℕ) : ∃ st, postBatches remoteInfo op cq turns stale fuel (some id) queues bs = .ok st ∧
      Partitions remoteInfo op (some id) rs st := by
  obtain ⟨q, hfold⟩ := postBatch_foldlM_turns remoteInfo op turns ⟨queues, [], 0⟩ id
    (fun b hb => ⟨h.pos b hb, h.size b hb, h.own b hb⟩) hroom hturns
  refine ⟨⟨q, bs.map fun b => (b.1, requests remoteInfo op (some id) b.2), bs.length⟩, ?_,
    h.partitions remoteInfo op (some id) _ rfl rfl⟩
  simp only [postBatches, hfold, List.nil_append, Nat.zero_add, Option.isSome_some, if_true]

end requests
end SmartTree
