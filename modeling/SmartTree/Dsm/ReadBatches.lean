import SmartTree.Dsm.Completions

/-! `DSM::read_batches_sync`: regions are sorted into one buffer for each memory node until one of
the buffers is full, and every buffer in use is posted as one batch. -/
namespace SmartTree

/-- The inner loop: regions go to the buffers `each_rs` until one of them is full. -/
def fillRound : List RdmaOpRegion → (ℕ → List RdmaOpRegion) →
    Option ((ℕ → List RdmaOpRegion) × List RdmaOpRegion)
  | [], each => some (each, [])
  | r :: rest, each =>
    if r.node < maxMachine ∧ (each r.node).length < kReadOroMax then
      let each := Function.update each r.node (each r.node ++ [r])
      if kReadOroMax ≤ (each r.node).length then some (each, rest) else fillRound rest each
    else none

/-- The outer loop with `fuel` rounds to go: the batches it posts. -/
def readRounds : ℕ → List RdmaOpRegion → Option (List (ℕ × List RdmaOpRegion))
  | _, [] => some []
  | 0, _ :: _ => none
  | fuel + 1, rs => do
    let (each, rest) ← fillRound rs fun _ => []
    let more ← readRounds fuel rest
    return roundBatches each ++ more

def readBatchesSync (remoteInfo : ℕ → RemoteInfo) (cq : CompletionQueue) (turns : ℕ → SendQueues)
    (stale : Bool) (fuel : ℕ) (ctx : Option ℕ) (queues : SendQueues) (rs : List RdmaOpRegion) :
    Except Halt Posting :=
  match readRounds rs.length rs with
  | none => .error .overrun
  | some batches => postBatches remoteInfo .rdmaRead cq turns stale fuel ctx queues batches

section rounds
variable {rs : List RdmaOpRegion} {each : ℕ → List RdmaOpRegion}

/-- A round takes regions off the front, each to the buffer of its node. By induction on the
regions; the loop ends before a full buffer is written to. -/
theorem fillRound_spec (hnode : ∀ r ∈ rs, r.node < maxMachine)
    (hroom : ∀ j, (each j).length < kReadOroMax) :
    ∃ taken rest, rs = taken ++ rest ∧ (taken = [] → rs = []) ∧
      fillRound rs each = some (fun j => each j ++ taken.filter (·.node = j), rest) ∧
      ∀ j, (each j ++ taken.filter (·.node = j)).length ≤ kReadOroMax := by
  induction rs generalizing each with
  | nil =>
    refine ⟨[], [], rfl, fun _ => rfl, by simp [fillRound], fun j => ?_⟩
    simpa using Nat.le_of_lt (hroom j)
  | cons r rest ih =>
    have hupdate : Function.update each r.node (each r.node ++ [r]) =
        fun j => each j ++ [r].filter (·.node = j) := by
      funext j
      by_cases hj : j = r.node
      · subst hj
        simp
      · rw [Function.update_of_ne hj]
        simp [Ne.symm hj]
    have hlength : ∀ j, (each j ++ [r].filter (·.node = j)).length ≤ kReadOroMax := by
      intro j
      have := hroom j
      by_cases hj : r.node = j <;> simp [hj] <;> omega
    rw [fillRound, if_pos ⟨hnode r (by simp), hroom _⟩, hupdate]
    by_cases hfull : kReadOroMax ≤ (each r.node ++ [r].filter (·.node = r.node)).length
    · exact ⟨[r], rest, rfl, by simp, if_pos hfull, hlength⟩
    · have hroom' : ∀ j, (each j ++ [r].filter (·.node = j)).length < kReadOroMax := by
        intro j
        by_cases hj : r.node = j
        · subst hj
          exact not_le.mp hfull
        · simpa [hj] using hroom j
      obtain ⟨taken, rest', hsplit, -, hfill, hle⟩ := ih (fun x hx => hnode x (by simp [hx])) hroom'
      refine ⟨r :: taken, rest', by rw [hsplit]; rfl, by simp, ?_, fun j => ?_⟩
      · rw [if_neg hfull, hfill]
        simp only [List.append_assoc, ← List.filter_append, List.singleton_append]
      · simpa only [List.append_assoc, ← List.filter_append, List.singleton_append] using hle j

/-- A round that does not run over its arrays has only seen memory nodes there are. -/
theorem fillRound_nodes {rest : List RdmaOpRegion} {each' : ℕ → List RdmaOpRegion}
    (h : fillRound rs each = some (each', rest)) (hrest : ∀ r ∈ rest, r.node < maxMachine) :
    ∀ r ∈ rs, r.node < maxMachine := by
  induction rs generalizing each with
  | nil => simp
  | cons x rs ih =>
    rw [fillRound] at h
    split at h
    · rename_i hx
      intro r hr
      obtain rfl | hr := List.mem_cons.mp hr
      · exact hx.1
      · dsimp only at h
        split at h
        · cases h
          exact hrest r hr
        · exact ih h r hr
    · cases h

theorem readRounds_nodes {fuel : ℕ} {bs : List (ℕ × List RdmaOpRegion)}
    (h : readRounds fuel rs = some bs) : ∀ r ∈ rs, r.node < maxMachine := by
  induction fuel generalizing rs bs with
  | zero =>
    cases rs with
    | nil => simp
    | cons => cases h
  | succ fuel ih =>
    cases hrs : rs with
    | nil => simp
    | cons x tail =>
      rw [← hrs]
      rw [readRounds.eq_3 _ _ (by simp [hrs])] at h
      obtain ⟨⟨each', rest⟩, hfill, h⟩ := Option.bind_eq_some_iff.mp h
      obtain ⟨more, hmore, -⟩ := Option.bind_eq_some_iff.mp h
      exact fillRound_nodes hfill (ih hmore)

/-- Every round takes at least one region, so as many rounds as regions are enough. -/
theorem readRounds_batched {fuel : ℕ} (hnode : ∀ r ∈ rs, r.node < maxMachine)
    (hfuel : rs.length ≤ fuel) : ∃ bs, readRounds fuel rs = some bs ∧ Batched .rdmaRead bs rs := by
  induction fuel generalizing rs with
  | zero =>
    obtain rfl := List.length_eq_zero_iff.mp (Nat.le_zero.mp hfuel)
    exact ⟨[], rfl, nofun, nofun, nofun, fun _ => rfl⟩
  | succ fuel ih =>
    cases hrs : rs with
    | nil => exact ⟨[], rfl, nofun, nofun, nofun, fun _ => rfl⟩
    | cons r tail =>
      rw [← hrs]
      have hroom : ∀ j, ((fun _ => [] : ℕ → List RdmaOpRegion) j).length < kReadOroMax :=
        fun _ => by simp [kReadOroMax]
      obtain ⟨taken, rest, rfl, hne, hfill, hle⟩ := fillRound_spec hnode hroom
      have htaken : taken ≠ [] := fun h => by simp [hne h] at hrs
      have hlen := List.length_pos_iff.mpr htaken
      rw [List.length_append] at hfuel
      have hrest : ∀ x ∈ rest, x.node < maxMachine := fun x hx => hnode x (by simp [hx])
      obtain ⟨more, hmore, hb⟩ := ih hrest (by omega)
      refine ⟨_, ?_, (roundBatches_batched (fun x hx => hnode x (by simp [hx])) ?_).append hb⟩
      · rw [readRounds.eq_3 _ _ (by simp [htaken]), hfill]
        simp only [List.nil_append, Option.bind_eq_bind, Option.bind_some, hmore]
        rfl
      · simpa [Opcode.oroMax] using hle

end rounds

section reads
variable (remoteInfo : ℕ → RemoteInfo) (ctx : Option ℕ) (turns : ℕ → SendQueues) (cq : CompletionQueue)
  (stale : Bool) {queues : SendQueues} {rs : List RdmaOpRegion}

theorem readBatchesSync_ok (hnode : ∀ r ∈ rs, r.node < maxMachine)
    (hroom : ∀ j, (rs.filter (·.node = j)).length ≤ queues.room j) :
    ∃ fuel₀, ∀ fuel ≥ fuel₀, ∃ st,
      readBatchesSync remoteInfo cq turns stale fuel none queues rs = .ok st ∧
        Partitions remoteInfo .rdmaRead none rs st := by
  obtain ⟨bs, hbs, h⟩ := readRounds_batched hnode le_rfl
  simp only [readBatchesSync, hbs]
  exact h.postBatches_ok remoteInfo _ turns cq stale hroom

theorem readBatchesSync_waits (hnode : ∀ r ∈ rs, r.node < maxMachine) {j : ℕ}
    (hroom : queues.room j < (rs.filter (·.node = j)).length) (fuel : ℕ) :
    readBatchesSync remoteInfo cq turns stale fuel none queues rs = .error .waiting := by
  obtain ⟨bs, hbs, h⟩ := readRounds_batched hnode le_rfl
  simp only [readBatchesSync, hbs]
  exact h.postBatches_waits remoteInfo _ turns cq stale hroom fuel

/-- The regions are of memory nodes there are, with room for them in the queues. -/
def SendQueues.Takes (q : SendQueues) (rs : List RdmaOpRegion) : Prop :=
  ∀ r ∈ rs, r.node < maxMachine ∧ (rs.filter (·.node = r.node)).length ≤ q.room r.node

instance (q : SendQueues) (rs : List RdmaOpRegion) : Decidable (q.Takes rs) :=
  inferInstanceAs (Decidable (∀ r ∈ rs, _))

theorem SendQueues.Takes.room {q : SendQueues} (h : q.Takes rs) (j : ℕ) :
    (rs.filter (·.node = j)).length ≤ q.room j :=
  length_filter_node_le (fun r hr => (h r hr).2) j

/-- Without a coroutine the call returns, with each region read once, iff its regions are taken. -/
theorem readBatchesSync_returns_iff :
    (∃ fuel st, readBatchesSync remoteInfo cq turns stale fuel none queues rs = .ok st ∧
      Partitions remoteInfo .rdmaRead none rs st) ↔ queues.Takes rs := by
  constructor
  · rintro ⟨fuel, st, h, -⟩
    have hnode : ∀ r ∈ rs, r.node < maxMachine := by
      cases hbs : readRounds rs.length rs with
      | none => simp [readBatchesSync, hbs] at h
      | some bs => exact readRounds_nodes hbs
    refine fun r hr => ⟨hnode r hr, ?_⟩
    by_contra hroom
    rw [readBatchesSync_waits remoteInfo turns cq stale hnode (not_le.mp hroom)] at h
    cases h
  · intro h
    obtain ⟨fuel, hok⟩ := readBatchesSync_ok remoteInfo turns cq stale (fun r hr => (h r hr).1) h.room
    exact ⟨fuel, hok fuel le_rfl⟩

end reads
end SmartTree
