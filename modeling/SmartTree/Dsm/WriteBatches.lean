import SmartTree.Dsm.Completions

/-! `DSM::write_batches_sync`: one batch for each memory node. The buffer of a node holds
`kWriteOroMax` regions, and nothing keeps the caller from handing in more. -/
namespace SmartTree

/-- The regions go to the buffers `each_rs`, as long as these last. -/
def fillWrites : List RdmaOpRegion → (ℕ → List RdmaOpRegion) → Option (ℕ → List RdmaOpRegion)
  | [], each => some each
  | r :: rest, each =>
    if r.node < maxMachine ∧ (each r.node).length < kWriteOroMax then
      fillWrites rest (Function.update each r.node (each r.node ++ [r]))
    else none

def writeBatchesSync (remoteInfo : ℕ → RemoteInfo) (cq : CompletionQueue) (turns : ℕ → SendQueues)
    (stale : Bool) (fuel : ℕ) (ctx : Option ℕ) (queues : SendQueues) (rs : List RdmaOpRegion) :
    Except Halt Posting :=
  match fillWrites rs fun _ => [] with
  | none => .error .overrun
  | some each =>
    postBatches remoteInfo .rdmaWrite cq turns stale fuel ctx queues (roundBatches each)

/-- The buffers last iff no memory node gets more regions than fit. -/
theorem fillWrites_eq (rs : List RdmaOpRegion) (each : ℕ → List RdmaOpRegion) :
    fillWrites rs each = if ∀ r ∈ rs, r.node < maxMachine ∧
        (each r.node ++ rs.filter (·.node = r.node)).length ≤ kWriteOroMax
      then some fun j => each j ++ rs.filter (·.node = j) else none := by
  induction rs generalizing each with
  | nil => simp [fillWrites]
  | cons r rest ih =>
    have hupdate : Function.update each r.node (each r.node ++ [r]) =
        fun j => each j ++ [r].filter (·.node = j) := by
      funext j
      by_cases hj : j = r.node
      · subst hj
        simp
      · rw [Function.update_of_ne hj]
        simp [Ne.symm hj]
    rw [fillWrites, hupdate, ih]
    simp only [List.append_assoc, ← List.filter_append, List.singleton_append]
    have hone : (each r.node ++ (r :: rest).filter (·.node = r.node)).length =
        (each r.node).length + (rest.filter (·.node = r.node)).length + 1 := by
      simp [Nat.add_assoc]
    by_cases h : r.node < maxMachine ∧ (each r.node).length < kWriteOroMax
    · rw [if_pos h]
      refine if_congr ⟨fun hrest x hx => ?_, fun hall x hx => hall x (by simp [hx])⟩ rfl rfl
      obtain rfl | hx := List.mem_cons.mp hx
      · refine ⟨h.1, ?_⟩
        -- the last region of the node decides
        cases hf : rest.filter (·.node = x.node) with
        | nil =>
          rw [hone, hf, List.length_nil]
          omega
        | cons y tail =>
          obtain ⟨hy, hxy⟩ := List.mem_filter.mp (hf ▸ List.mem_cons_self :
            y ∈ rest.filter (·.node = x.node))
          rw [← of_decide_eq_true hxy]
          exact (hrest y hy).2
      · exact hrest x hx
    · rw [if_neg h, if_neg fun hall => h ?_]
      obtain ⟨h1, h2⟩ := hall r (by simp)
      rw [hone] at h2
      exact ⟨h1, by omega⟩

/-- No memory node gets more regions than its buffer holds and, without a coroutine, its queue has
room for. -/
def SendQueues.TakesWrites (q : SendQueues) (ctx : Option ℕ) (rs : List RdmaOpRegion) : Prop :=
  ∀ r ∈ rs, r.node < maxMachine ∧ (rs.filter (·.node = r.node)).length ≤ kWriteOroMax ∧
    (ctx = none → (rs.filter (·.node = r.node)).length ≤ q.room r.node)

section writes
variable (remoteInfo : ℕ → RemoteInfo) (ctx : Option ℕ) (turns : ℕ → SendQueues) (cq : CompletionQueue)
  (stale : Bool) {queues : SendQueues} {rs : List RdmaOpRegion}

theorem fillWrites_batched (h : ∀ r ∈ rs, r.node < maxMachine ∧
    (rs.filter (·.node = r.node)).length ≤ kWriteOroMax) :
    fillWrites rs (fun _ => []) = some (fun j => rs.filter (·.node = j)) ∧
      Batched .rdmaWrite (roundBatches fun j => rs.filter (·.node = j)) rs := by
  refine ⟨?_, roundBatches_batched (fun r hr => (h r hr).1)
    (length_filter_node_le (b := fun _ => kWriteOroMax) fun r hr => (h r hr).2)⟩
  rw [fillWrites_eq]
  exact if_pos h

theorem takesWrites_of_ok {fuel : ℕ} {st : Posting}
    (h : writeBatchesSync remoteInfo cq turns stale fuel ctx queues rs = .ok st) :
    queues.TakesWrites ctx rs := by
  by_cases hfit : ∀ r ∈ rs, r.node < maxMachine ∧ (rs.filter (·.node = r.node)).length ≤ kWriteOroMax
  · obtain ⟨hfill, hb⟩ := fillWrites_batched hfit
    simp only [writeBatchesSync, hfill] at h
    refine fun r hr => ⟨(hfit r hr).1, (hfit r hr).2, ?_⟩
    rintro rfl
    by_contra hroom
    rw [hb.postBatches_waits remoteInfo _ turns cq stale (not_le.mp hroom)] at h
    cases h
  · have hfill : fillWrites rs (fun _ => []) = none := by
      rw [fillWrites_eq]
      exact if_neg hfit
    simp [writeBatchesSync, hfill] at h

/-- It does return, if a coroutine finds room for a batch whenever it runs. -/
theorem writeBatchesSync_ok (h : queues.TakesWrites ctx rs) (hturns : ctx.isSome → ∀ j,
      kWriteOroMax ≤ queues.room j ∧ ∀ i, kWriteOroMax ≤ (turns i).room j) :
    ∃ fuel₀, ∀ fuel ≥ fuel₀, ∃ st,
      writeBatchesSync remoteInfo cq turns stale fuel ctx queues rs = .ok st ∧
        Partitions remoteInfo .rdmaWrite ctx rs st := by
  obtain ⟨hfill, hb⟩ := fillWrites_batched fun r hr => ⟨(h r hr).1, (h r hr).2.1⟩
  simp only [writeBatchesSync, hfill]
  cases ctx with
  | none =>
    exact hb.postBatches_ok remoteInfo _ turns cq stale
      (length_filter_node_le fun r hr => (h r hr).2.2 rfl)
  | some id =>
    exact ⟨0, fun fuel _ => hb.postBatches_turns remoteInfo _ turns cq stale
      (fun j => (hturns rfl j).1) (fun i j => (hturns rfl j).2 i) fuel⟩

end writes
end SmartTree
