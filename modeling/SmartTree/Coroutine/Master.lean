import Mathlib.Data.List.Perm.Basic
import SmartTree.Coroutine.Operations
import SmartTree.Lib.Transition

/-! `coro_master` and its workers, all in one thread, together with the NIC. The shared state
that the predicates of waiting coroutines read may change at any moment, as other threads and
the workers themselves change it. -/
namespace SmartTree.Coroutine
open Transition
variable {E : Type*}

inductive MasterPc (E : Type*)
  /-- The loop that starts the workers. -/
  | start (i : ℕ)
  | poll
  /-- A completion has been taken and its worker is about to be resumed. -/
  | polled (coroId : ℕ)
  | check
  /-- An element has been taken out of the queue and its predicate is about to be called. -/
  | popped (coroId : ℕ) (ready : E → Bool)

inductive Control (E : Type*)
  | master (pc : MasterPc E)
  | worker (coroId : ℕ) (ret : MasterPc E)

structure World (E : Type*) where
  inflight : List WorkRequest
  cq : List ℕ
  queue : List (ℕ × (E → Bool))
  shared : E
  code : ℕ → List (Cmd E)
  started : ℕ
  control : Control E

inductive Event (E : Type*)
  /-- The NIC completes a request, in any order. -/
  | complete (j : ℕ)
  | share (e : E)
  | master
  /-- The next step of the worker that runs; the number decides where the code leaves it open. -/
  | worker (n : ℕ)

def World.setCode (w : World E) (id : ℕ) (cs : List (Cmd E)) : World E :=
  { w with code := Function.update w.code id cs }

def complete (w : World E) (j : ℕ) : Option (World E) :=
  w.inflight[j]?.map fun r =>
    { w with
      inflight := w.inflight.eraseIdx j
      cq := if r.signaled then w.cq ++ [r.wrId] else w.cq }

def masterStep (coroCnt : ℕ) (w : World E) : MasterPc E → World E
  | .start i =>
    if i < coroCnt then { w with started := i + 1, control := .worker i (.start (i + 1)) }
    else { w with control := .master .poll }
  | .poll =>
    match w.cq with
    | [] => { w with control := .master .check }
    | id :: rest => { w with cq := rest, control := .master (.polled id) }
  | .polled id => { w with control := .worker id .check }
  | .check =>
    match w.queue with
    | [] => { w with control := .master .poll }
    | (id, ready) :: rest => { w with queue := rest, control := .master (.popped id ready) }
  | .popped id ready =>
    if ready w.shared then { w with control := .worker id .poll }
    else { w with queue := w.queue ++ [(id, ready)], control := .master .poll }

/-- One step of the worker `id`; out of code, it takes the next request. -/
def workerStep (ready : ℕ → E → Bool) (w : World E) (id : ℕ) (ret : MasterPc E) (n : ℕ) : World E :=
  match w.code id with
  | [] => w.setCode id [workFunc ready (some id)]
  | .skip :: cs => w.setCode id cs
  | .post wrs :: cs => { w with inflight := w.inflight ++ wrs }.setCode id cs
  | .poll num :: cs =>
    if num ≤ w.cq.length then { w with cq := w.cq.drop num }.setCode id cs else w
  | .push coroId ready :: cs => { w with queue := w.queue ++ [(coroId, ready)] }.setCode id cs
  | .yield :: cs => { w with control := .master ret }.setCode id cs
  | .seq c d :: cs => w.setCode id (c :: d :: cs)
  | .choose f :: cs => w.setCode id (f n :: cs)
  | .loop c :: cs => w.setCode id (if n = 0 then cs else c :: .loop c :: cs)

def next (coroCnt : ℕ) (ready : ℕ → E → Bool) (w : World E) : Event E → Option (World E)
  | .complete j => complete w j
  | .share e => some { w with shared := e }
  | .master =>
    match w.control with
    | .master pc => some (masterStep coroCnt w pc)
    | .worker _ _ => none
  | .worker n =>
    match w.control with
    | .master _ => none
    | .worker id ret => some (workerStep ready w id ret n)

def system (coroCnt : ℕ) (ready : ℕ → E → Bool) : System (World E) (Event E) where
  init w := w.inflight = [] ∧ w.cq = [] ∧ w.queue = [] ∧ (∀ i, w.code i = []) ∧ w.started = 0 ∧
    w.control = .master (.start 0)
  next := next coroCnt ready

/-- The completions with this id that the master has not resumed a worker for: requests in
flight, in the completion queue, or in the master's hand. -/
def World.posted (w : World E) (i : ℕ) : ℕ :=
  ((w.inflight.filter WorkRequest.signaled).map WorkRequest.wrId).count i + w.cq.count i +
    match w.control with
    | .master (.polled id) => if id = i then 1 else 0
    | _ => 0

def World.queued (w : World E) (i : ℕ) : ℕ :=
  (w.queue.map Prod.fst).count i +
    match w.control with
    | .master (.popped id _) => if id = i then 1 else 0
    | _ => 0

/-- The coroutine waits for one thing: its completion or its turn. -/
def World.Waits (w : World E) (i : ℕ) : Prop :=
  (w.posted i = 1 ∧ w.queued i = 0) ∨ (w.posted i = 0 ∧ w.queued i = 1)

/-- The code of a coroutine as it runs; `true` once it has asked to be woken up. -/
inductive Stack (id : ℕ) : Bool → List (Cmd E) → Prop
  | code {cs} (h : ∀ c ∈ cs, Disciplined id c) : Stack id false cs
  | post {wrs cs} (hw : (wrs.filter WorkRequest.signaled).map WorkRequest.wrId = [id])
    (h : ∀ c ∈ cs, Disciplined id c) : Stack id false (.post wrs :: .yield :: cs)
  | push {ready cs} (h : ∀ c ∈ cs, Disciplined id c) : Stack id false (.push id ready :: .yield :: cs)
  | yield {cs} (h : ∀ c ∈ cs, Disciplined id c) : Stack id true (.yield :: cs)

def MasterPc.StartsAt (k : ℕ) : MasterPc E → Prop
  | .start i => i = k
  | _ => True

def MasterPc.Returns (k : ℕ) : MasterPc E → Prop
  | .start i => i = k
  | .poll | .check => True
  | .polled _ | .popped _ _ => False

structure Inv (w : World E) : Prop where
  fresh : ∀ i, w.started ≤ i → w.posted i = 0 ∧ w.queued i = 0 ∧ w.code i = []
  code : ∀ i < w.started, (∀ ret, w.control ≠ .worker i ret) →
    w.Waits i ∧ ∀ c ∈ w.code i, Disciplined i c
  run : ∀ id ret, w.control = .worker id ret → id < w.started ∧ ret.Returns w.started ∧
    ∃ asked, Stack id asked (w.code id) ∧
      if asked then w.Waits id else w.posted id = 0 ∧ w.queued id = 0
  master : ∀ pc, w.control = .master pc → pc.StartsAt w.started

section step
variable {w w' : World E} {id : ℕ} {ret ret' : MasterPc E} {cs : List (Cmd E)}

@[simp] theorem setCode_posted (i : ℕ) : (w.setCode id cs).posted i = w.posted i := rfl
@[simp] theorem setCode_queued (i : ℕ) : (w.setCode id cs).queued i = w.queued i := rfl

/-- The NIC and the master's own steps: nobody gains or loses what wakes it up. -/
theorem Inv.master_moves (h : Inv w) {pc pc' : MasterPc E} (hc : w.control = .master pc)
    (hc' : w'.control = .master pc') (hpc : pc'.StartsAt w.started) (hs : w'.started = w.started)
    (hcode : w'.code = w.code) (hp : ∀ i, w'.posted i = w.posted i)
    (hq : ∀ i, w'.queued i = w.queued i) : Inv w' := by
  refine ⟨fun i hi => ?_, fun i hi _ => ?_, fun id ret hr => ?_, fun pc'' hr => ?_⟩
  · rw [hp, hq, hcode]
    exact h.fresh i (hs ▸ hi)
  · rw [World.Waits, hp, hq, hcode]
    exact h.code i (hs ▸ hi) (by simp [hc])
  · rw [hc'] at hr
    cases hr
  · rw [hc'] at hr
    cases hr
    exact hs ▸ hpc

theorem Inv.resume (h : Inv w) {pc : MasterPc E} (hc : w.control = .master pc)
    (hc' : w'.control = .worker id ret) (hret : ret.Returns w.started) (hs : w'.started = w.started)
    (hcode : w'.code = w.code) (hid : id < w.started)
    (hp : ∀ i, i ≠ id → w'.posted i = w.posted i) (hq : ∀ i, i ≠ id → w'.queued i = w.queued i)
    (hpid : w'.posted id = 0) (hqid : w'.queued id = 0) : Inv w' := by
  refine ⟨fun i hi => ?_, fun i hi hrun => ?_, fun id' ret' hr => ?_, fun pc'' hr => ?_⟩
  · rw [hs] at hi
    have hne : i ≠ id := by omega
    rw [hp i hne, hq i hne, hcode]
    exact h.fresh i hi
  · have hne : i ≠ id := by
      rintro rfl
      exact hrun ret hc'
    rw [World.Waits, hp i hne, hq i hne, hcode]
    exact h.code i (hs ▸ hi) (by simp [hc])
  · rw [hc'] at hr
    cases hr
    refine ⟨hs ▸ hid, hs ▸ hret, false, .code ?_, hpid, hqid⟩
    rw [hcode]
    exact (h.code id hid (by simp [hc])).2
  · rw [hc'] at hr
    cases hr

theorem Inv.works (h : Inv w) (hc : w.control = .worker id ret) (hc' : w'.control = w.control)
    (hs : w'.started = w.started) (hcode : ∀ i, i ≠ id → w'.code i = w.code i)
    (hp : ∀ i, i ≠ id → w'.posted i = w.posted i) (hq : ∀ i, i ≠ id → w'.queued i = w.queued i)
    (asked : Bool) (hst : Stack id asked (w'.code id))
    (hask : if asked then w'.Waits id else w'.posted id = 0 ∧ w'.queued id = 0) : Inv w' := by
  obtain ⟨hid, hret, -⟩ := h.run id ret hc
  refine ⟨fun i hi => ?_, fun i hi hrun => ?_, fun id' ret' hr => ?_, fun pc hr => ?_⟩
  · rw [hs] at hi
    have hne : i ≠ id := by omega
    rw [hp i hne, hq i hne, hcode i hne]
    exact h.fresh i hi
  · have hne : i ≠ id := by
      rintro rfl
      exact hrun ret (hc'.trans hc)
    rw [World.Waits, hp i hne, hq i hne, hcode i hne]
    exact h.code i (hs ▸ hi) (hc' ▸ hrun)
  · rw [hc', hc] at hr
    cases hr
    exact ⟨hs ▸ hid, hs ▸ hret, asked, hst, hask⟩
  · rw [hc', hc] at hr
    cases hr

/-- Back at one of these places the master has nothing in its hand. -/
theorem posted_yield (hret : ret.Returns w.started) (hc : w.control = .worker id ret') (i : ℕ) :
    ({ w with control := .master ret } : World E).posted i = w.posted i := by
  cases ret <;> simp_all [World.posted, MasterPc.Returns]

theorem queued_yield (hret : ret.Returns w.started) (hc : w.control = .worker id ret') (i : ℕ) :
    ({ w with control := .master ret } : World E).queued i = w.queued i := by
  cases ret <;> simp_all [World.queued, MasterPc.Returns]

theorem MasterPc.Returns.startsAt {k : ℕ} (h : ret.Returns k) : ret.StartsAt k := by
  cases ret <;> simp_all [MasterPc.Returns, MasterPc.StartsAt]

theorem Inv.yields (h : Inv w) (hc : w.control = .worker id ret) (hw : w.Waits id)
    (hcs : ∀ c ∈ cs, Disciplined id c) : Inv ({ w with control := .master ret }.setCode id cs) := by
  obtain ⟨hid, hret, -⟩ := h.run id ret hc
  have hp := posted_yield hret hc
  have hq := queued_yield hret hc
  have hcode : ∀ i, (({ w with control := .master ret } : World E).setCode id cs).code i =
      if i = id then cs else w.code i := fun i => by
    simp only [World.setCode, Function.update_apply]
  refine ⟨fun i (hi : w.started ≤ i) => ?_, fun i hi _ => ?_, fun id' ret' hr => ?_, fun pc hr => ?_⟩
  · have hne : i ≠ id := by omega
    rw [setCode_posted, setCode_queued, hp, hq, hcode, if_neg hne]
    exact h.fresh i hi
  · rw [World.Waits, setCode_posted, setCode_queued, hp, hq, hcode]
    split
    · rename_i he
      subst he
      exact ⟨hw, hcs⟩
    · rename_i hne
      exact h.code i hi (by simpa [hc] using fun he => absurd he.symm hne)
  · cases hr
  · cases hr
    exact hret.startsAt

theorem Inv.complete (h : Inv w) {j : ℕ} (hn : complete w j = some w') : Inv w' := by
  obtain ⟨r, hr, rfl⟩ := Option.map_eq_some_iff.mp hn
  obtain ⟨hj, rfl⟩ := List.getElem?_eq_some_iff.mp hr
  have hperm : w.inflight.Perm (w.inflight[j] :: w.inflight.eraseIdx j) :=
    (List.getElem_cons_eraseIdx_perm hj).symm
  have hp : ∀ i, ({ w with
      inflight := w.inflight.eraseIdx j
      cq := if w.inflight[j].signaled then w.cq ++ [w.inflight[j].wrId] else w.cq } : World E).posted i =
        w.posted i := by
    intro i
    have hcount := ((hperm.filter WorkRequest.signaled).map WorkRequest.wrId).count_eq i
    by_cases hsig : w.inflight[j].signaled = true
    · rw [List.filter_cons_of_pos hsig, List.map_cons, List.count_cons] at hcount
      simp only [World.posted, hsig, if_true, List.count_append, List.count_singleton]
      omega
    · rw [List.filter_cons_of_neg hsig] at hcount
      simp only [World.posted, hsig, if_false, hcount, Bool.false_eq_true]
  refine ⟨fun i hi => ?_, fun i hi hrun => ?_, fun id ret hc => ?_, h.master⟩
  · rw [hp]
    exact h.fresh i hi
  · rw [World.Waits, hp]
    exact h.code i hi hrun
  · obtain ⟨h1, h2, asked, h3, h4⟩ := h.run id ret hc
    refine ⟨h1, h2, asked, h3, ?_⟩
    rw [World.Waits, hp]
    exact h4

theorem Inv.share (h : Inv w) (e : E) : Inv { w with shared := e } :=
  ⟨h.fresh, h.code, h.run, h.master⟩

/-- A coroutine with a completion or an element about has been started. -/
theorem Inv.lt_started (h : Inv w) {i : ℕ} (hi : w.posted i ≠ 0 ∨ w.queued i ≠ 0) : i < w.started := by
  by_contra hge
  obtain ⟨h1, h2, -⟩ := h.fresh i (Nat.le_of_not_lt hge)
  omega

theorem Inv.start (h : Inv w) (hc : w.control = .master (.start w.started)) :
    Inv { w with started := w.started + 1, control := .worker w.started (.start (w.started + 1)) } := by
  set w' : World E :=
    { w with started := w.started + 1, control := .worker w.started (.start (w.started + 1)) } with hw'
  have hp : ∀ i, w'.posted i = w.posted i := by simp [World.posted, hc, hw']
  have hq : ∀ i, w'.queued i = w.queued i := by simp [World.queued, hc, hw']
  refine ⟨fun i hi => ?_, fun i hi hrun => ?_, fun id ret hr => ?_, by simp [hw']⟩
  · rw [hp, hq]
    exact h.fresh i (Nat.le_of_succ_le hi)
  · rw [World.Waits, hp, hq]
    have hne : i ≠ w.started := by
      rintro rfl
      exact hrun _ rfl
    exact h.code i (Nat.lt_of_le_of_ne (Nat.le_of_lt_succ hi) hne) (by simp [hc])
  · cases hr
    obtain ⟨h1, h2, h3⟩ := h.fresh w.started (Nat.le_refl _)
    have hcode : ∀ c ∈ w'.code w.started, Disciplined w.started c := by
      rw [show w'.code = w.code from rfl, h3]
      simp
    exact ⟨Nat.lt_succ_self _, rfl, false, .code hcode, (hp _).trans h1, (hq _).trans h2⟩

theorem Inv.masterStep (h : Inv w) {pc : MasterPc E} (hc : w.control = .master pc) (coroCnt : ℕ) :
    Inv (masterStep coroCnt w pc) := by
  cases pc with
  | start i =>
    obtain rfl : i = w.started := h.master _ hc
    simp only [Coroutine.masterStep]
    split
    · exact h.start hc
    · exact h.master_moves hc rfl trivial rfl rfl (by simp [World.posted, hc]) (by simp [World.queued, hc])
  | poll =>
    simp only [Coroutine.masterStep]
    cases hcq : w.cq with
    | nil =>
      exact h.master_moves hc rfl trivial rfl rfl (by simp [World.posted, hc, hcq])
        (by simp [World.queued, hc])
    | cons id rest =>
      refine h.master_moves hc rfl trivial rfl rfl (fun i => ?_) (by simp [World.queued, hc])
      simp only [World.posted, hc, hcq, List.count_cons, beq_iff_eq]
      omega
  | polled id =>
    have hw : w.Waits id ∧ _ := h.code id (h.lt_started (.inl (by simp [World.posted, hc]))) (by simp [hc])
    have hone : w.posted id = 1 ∧ w.queued id = 0 := by
      obtain hw | hw := hw.1
      · exact hw
      · simp [World.posted, hc] at hw
    refine h.resume hc rfl trivial rfl rfl (h.lt_started (.inl (by omega))) (fun i hi => ?_)
      (by simp [World.queued, hc, Coroutine.masterStep]) ?_ ?_
    · simp [World.posted, hc, Coroutine.masterStep, hi.symm]
    · have := hone.1
      simp only [World.posted, hc, if_true] at this
      simp only [World.posted, Coroutine.masterStep]
      omega
    · have := hone.2
      simpa [World.queued, hc, Coroutine.masterStep] using this
  | check =>
    simp only [Coroutine.masterStep]
    cases hqu : w.queue with
    | nil =>
      exact h.master_moves hc rfl trivial rfl rfl (by simp [World.posted, hc])
        (by simp [World.queued, hc, hqu])
    | cons e rest =>
      refine h.master_moves hc rfl trivial rfl rfl (by simp [World.posted, hc]) fun i => ?_
      simp only [World.queued, hc, hqu, List.map_cons, List.count_cons, beq_iff_eq]
      omega
  | popped id ready =>
    have hlt := h.lt_started (i := id) (.inr (by simp [World.queued, hc]))
    have hone : w.posted id = 0 ∧ w.queued id = 1 := by
      obtain hw | hw := (h.code id hlt (by simp [hc])).1
      · simp [World.queued, hc] at hw
      · exact hw
    simp only [Coroutine.masterStep]
    split
    · refine h.resume hc rfl trivial rfl rfl hlt (by simp [World.posted, hc]) (fun i hi => ?_) ?_ ?_
      · simp [World.queued, hc, hi.symm]
      · have := hone.1
        simpa [World.posted, hc] using this
      · have := hone.2
        simp only [World.queued, hc, if_true] at this
        simp only [World.queued]
        omega
    · refine h.master_moves hc rfl trivial rfl rfl (by simp [World.posted, hc]) fun i => ?_
      simp only [World.queued, hc, List.map_append, List.map_cons, List.map_nil, List.count_append,
        List.count_singleton, beq_iff_eq]
      omega

theorem Inv.goes_on (h : Inv w) (hc : w.control = .worker id ret)
    (hq : w.posted id = 0 ∧ w.queued id = 0) (hst : Stack id false cs) : Inv (w.setCode id cs) := by
  refine h.works hc rfl rfl (fun i hi => ?_) (fun _ _ => rfl) (fun _ _ => rfl) false ?_ hq
  · simp [World.setCode, hi]
  · simpa [World.setCode] using hst

theorem Inv.post (h : Inv w) (hc : w.control = .worker id ret) {wrs : List WorkRequest}
    (hw : (wrs.filter WorkRequest.signaled).map WorkRequest.wrId = [id])
    (hq : w.posted id = 0 ∧ w.queued id = 0) (hcs : ∀ c ∈ cs, Disciplined id c) :
    Inv ({ w with inflight := w.inflight ++ wrs }.setCode id (.yield :: cs)) := by
  have hp : ∀ i, ({ w with inflight := w.inflight ++ wrs } : World E).posted i =
      w.posted i + if i = id then 1 else 0 := by
    intro i
    simp only [World.posted, List.filter_append, List.map_append, hw, List.count_append,
      List.count_singleton, beq_iff_eq, eq_comm (a := id)]
    omega
  refine h.works hc rfl rfl (fun i hi => by simp [World.setCode, hi]) (fun i hi => ?_) (fun _ _ => rfl)
    true (by simpa [World.setCode] using .yield hcs) (.inl ⟨?_, hq.2⟩)
  · rw [setCode_posted, hp, if_neg hi, Nat.add_zero]
  · rw [setCode_posted, hp, if_pos rfl, hq.1]

theorem Inv.push (h : Inv w) (hc : w.control = .worker id ret) (ready : E → Bool)
    (hq : w.posted id = 0 ∧ w.queued id = 0) (hcs : ∀ c ∈ cs, Disciplined id c) :
    Inv ({ w with queue := w.queue ++ [(id, ready)] }.setCode id (.yield :: cs)) := by
  have hqu : ∀ i, ({ w with queue := w.queue ++ [(id, ready)] } : World E).queued i =
      w.queued i + if i = id then 1 else 0 := by
    intro i
    simp only [World.queued, List.map_append, List.map_cons, List.map_nil, List.count_append,
      List.count_singleton, beq_iff_eq, eq_comm (a := id)]
    omega
  refine h.works hc rfl rfl (fun i hi => by simp [World.setCode, hi]) (fun _ _ => rfl) (fun i hi => ?_)
    true (by simpa [World.setCode] using .yield hcs) (.inr ⟨hq.1, ?_⟩)
  · rw [setCode_queued, hqu, if_neg hi, Nat.add_zero]
  · rw [setCode_queued, hqu, if_pos rfl, hq.2]

/-- Code that is only made of disciplined commands takes a step: by the command it begins with. -/
theorem Inv.code_step (h : Inv w) (hc : w.control = .worker id ret) (ready : ℕ → E → Bool) (n : ℕ)
    (hcs : ∀ c ∈ w.code id, Disciplined id c) (hq : w.posted id = 0 ∧ w.queued id = 0) :
    Inv (workerStep ready w id ret n) := by
  unfold workerStep
  cases hcode : w.code id with
  | nil => exact h.goes_on hc hq (.code (by simpa using .workFunc ready))
  | cons c cs =>
    rw [hcode] at hcs
    have hrest : ∀ c ∈ cs, Disciplined id c := fun c hm => hcs c (List.mem_cons_of_mem _ hm)
    have hhead := hcs c List.mem_cons_self
    cases hhead with
    | skip => exact h.goes_on hc hq (.code hrest)
    | await hw => exact h.goes_on hc hq (.post hw hrest)
    | wait ready => exact h.goes_on hc hq (.push hrest)
    | seq h1 h2 => exact h.goes_on hc hq (.code (by simp [h1, h2]; exact hrest))
    | choose h1 => exact h.goes_on hc hq (.code (by simp [h1]; exact hrest))
    | loop h1 =>
      refine h.goes_on hc hq (.code ?_)
      split
      · exact hrest
      · simp only [List.mem_cons, forall_eq_or_imp]
        exact ⟨h1, .loop h1, hrest⟩

theorem Inv.workerStep (h : Inv w) (hc : w.control = .worker id ret) (ready : ℕ → E → Bool) (n : ℕ) :
    Inv (workerStep ready w id ret n) := by
  obtain ⟨hid, hret, asked, hst, hq⟩ := h.run id ret hc
  generalize hcode : w.code id = cs at hst
  cases hst with
  | code hcs => exact h.code_step hc ready n (hcode ▸ hcs) hq
  | post hw hcs =>
    simp only [Coroutine.workerStep, hcode]
    exact h.post hc hw hq hcs
  | push hcs =>
    simp only [Coroutine.workerStep, hcode]
    exact h.push hc _ hq hcs
  | yield hcs =>
    simp only [Coroutine.workerStep, hcode]
    exact h.yields hc hq hcs

end step

theorem inv_of_reachable {coroCnt : ℕ} {ready : ℕ → E → Bool} {w : World E}
    (h : (system coroCnt ready).Reachable w) : Inv w := by
  refine h.invariant (P := Inv) (fun w hi => ?_) fun w e w' _ hp _ hn => ?_
  · obtain ⟨h1, h2, h3, h4, h5, h6⟩ := hi
    refine ⟨fun i _ => ?_, fun i hi => ?_, ?_, ?_⟩
    · simp [World.posted, World.queued, h1, h2, h3, h4, h6]
    · omega
    · simp [h6]
    · rw [h6, h5]
      rintro _ ⟨⟩
      rfl
  · cases e with
    | complete j => exact hp.complete hn
    | share e =>
      obtain rfl := Option.some.inj hn
      exact hp.share e
    | master =>
      simp only [system, next] at hn
      split at hn
      · obtain rfl := Option.some.inj hn
        exact hp.masterStep ‹_› coroCnt
      · cases hn
    | worker n =>
      simp only [system, next] at hn
      split at hn
      · cases hn
      · obtain rfl := Option.some.inj hn
        exact hp.workerStep ‹_› ready n

/-- Whenever the master runs, every started coroutine waits either for exactly one completion or
for exactly one element of the queue, and it is resumed for that reason only. -/
theorem no_lost_wakeup {coroCnt : ℕ} {ready : ℕ → E → Bool} {w : World E}
    (h : (system coroCnt ready).Reachable w) :
    (∀ pc, w.control = .master pc → ∀ i < w.started, w.Waits i) ∧
    ∀ w' id ret, next coroCnt ready w .master = some w' → w'.control = .worker id ret →
      (w.control = .master (.start id) ∧ w.started = id) ∨
      (w.control = .master (.polled id) ∧ w.posted id = 1 ∧ w'.posted id = 0 ∧ w.queued id = 0) ∨
      ∃ r, w.control = .master (.popped id r) ∧ r w.shared = true ∧
        w.queued id = 1 ∧ w'.queued id = 0 ∧ w.posted id = 0 := by
  have hinv := inv_of_reachable h
  refine ⟨fun pc hc i hi => (hinv.code i hi (by simp [hc])).1, fun w' id ret hn hc' => ?_⟩
  simp only [next] at hn
  split at hn
  · rename_i pc hc
    obtain rfl := Option.some.inj hn
    cases pc with
    | start i =>
      simp only [masterStep] at hc'
      split at hc'
      · cases hc'
        exact .inl ⟨hc, (hinv.master _ hc).symm⟩
      · cases hc'
    | poll =>
      simp only [masterStep] at hc'
      split at hc' <;> cases hc'
    | polled i =>
      cases hc'
      have hpos : w.posted id ≠ 0 := by simp [World.posted, hc]
      have hw := (hinv.code id (hinv.lt_started (.inl hpos)) (by simp [hc])).1
      have hone : w.posted id = 1 ∧ w.queued id = 0 := hw.resolve_right fun h0 => hpos h0.1
      refine .inr (.inl ⟨hc, hone.1, ?_, hone.2⟩)
      have := hone.1
      simp only [World.posted, hc, if_true] at this
      simp only [World.posted, masterStep]
      omega
    | check =>
      simp only [masterStep] at hc'
      split at hc' <;> cases hc'
    | popped i r =>
      simp only [masterStep] at hc' ⊢
      split at hc'
      · rename_i hr
        cases hc'
        have hpos : w.queued id ≠ 0 := by simp [World.queued, hc]
        have hw := (hinv.code id (hinv.lt_started (.inr hpos)) (by simp [hc])).1
        have hone : w.posted id = 0 ∧ w.queued id = 1 := hw.resolve_left fun h0 => hpos h0.2
        refine .inr (.inr ⟨r, hc, hr, hone.2, ?_, hone.1⟩)
        have := hone.2
        simp only [World.queued, hc, if_true] at this
        simp only [World.queued, hr, if_true]
        omega
      · cases hc'
  · cases hn

/-- Two searches come to their first read, and the second read completes first. -/
def twoReads : List (Event Unit) :=
  let toFirstRead : List (Event Unit) := [0, 1, 0, 0, 0, 0, 0, 0, 0, 0, 0, 0].map Event.worker
  [.master] ++ toFirstRead ++ [.master] ++ toFirstRead ++ [.master, .complete 1]

def idle : World Unit := ⟨[], [], [], (), fun _ => [], 0, .master (.start 0)⟩

theorem two_reads_wait : (system 2 fun _ (_ : Unit) => true).Ends idle twoReads fun w =>
    w.cq = [1] ∧ w.Waits 0 ∧ w.Waits 1 := by
  obtain ⟨w, hw, hcq, hs, hm⟩ : (system 2 fun _ (_ : Unit) => true).Ends idle twoReads fun w =>
      w.cq = [1] ∧ w.started = 2 ∧ (match w.control with | .master .poll => True | _ => False) := by
    exact ⟨_, rfl, rfl, rfl, trivial⟩
  have hreach : (system 2 fun _ (_ : Unit) => true).Reachable w :=
    .run (.init ⟨rfl, rfl, rfl, fun _ => rfl, rfl, rfl⟩) hw
  split at hm
  · rename_i hc
    have := (no_lost_wakeup hreach).1 _ hc
    exact ⟨w, hw, hcq, this 0 (by omega), this 1 (by omega)⟩
  · cases hm

end SmartTree.Coroutine
