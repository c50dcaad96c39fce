import SmartTree.LocalLock.Table

/-! The steps of a client case by case, and the ones that touch each field. -/
namespace SmartTree.LocalLock
variable {κ ν : Type*} [DecidableEq κ]

/-- The step function case by case, with the branch each case took. -/
inductive Step (now : ℕ) (n : LockNode κ ν) (c : Client κ ν) :
    LockNode κ ν → Client κ ν → Obs κ ν → Prop where
  | openKey (hpc : c.pc = .casKey) (hk : (n.queue c.side).uniqueKey = none) :
      Step now n c
        { n.setKey c.side (some c.key) with keyAt := if c.side = .write then now else n.keyAt }
        { c with pc := if c.side = .write then .deposit else .takeTicket } .silent
  | joinKey (hpc : c.pc = .casKey) (hk : (n.queue c.side).uniqueKey = some c.key) :
      Step now n c n { c with pc := if c.side = .write then .deposit else .takeTicket } .silent
  | refuseKey (hpc : c.pc = .casKey) {k : κ} (hk : (n.queue c.side).uniqueKey = some k)
      (hne : k ≠ c.key) : Step now n c n { c with acq := (false, true), pc := .body } .silent
  | deposit (hpc : c.pc = .deposit) :
      Step now n c { n with wcBuffer := c.val, wcAt := now }
        { c with pc := .takeTicket, depAt := some now, valAt := some now } (.deposited c.key c.val)
  | takeTicket (hpc : c.pc = .takeTicket) :
      Step now n c (n.bumpTicket c.side) { c with pc := .wait, ticket := (n.queue c.side).ticket } .silent
  | enter (hpc : c.pc = .wait) (ht : c.ticket % 256 = (n.queue c.side).current % 256) :
      Step now n c n { c with pc := .loadKey } .silent
  | spin (hpc : c.pc = .wait) : Step now n c n { c with pc := .wait } .silent
  | keyKept (hpc : c.pc = .loadKey) (hk : (n.queue c.side).uniqueKey = some c.key) :
      Step now n c n { c with pc := .loadWin } .silent
  | keyLost (hpc : c.pc = .loadKey) (hk : (n.queue c.side).uniqueKey ≠ some c.key) :
      Step now n c n { c with pc := .cLoadWin } .silent
  | cNoWin (hpc : c.pc = .cLoadWin) (hw : (n.queue c.side).window = 0) :
      Step now n c n { c with pc := .cBump } .silent
  | cWin (hpc : c.pc = .cLoadWin) (hw : (n.queue c.side).window ≠ 0) :
      Step now n c n { c with pc := .cDec } .silent
  | cDec (hpc : c.pc = .cDec) : Step now n c (n.decWindow c.side) { c with pc := .cLoadRead } .silent
  | cReadZero (hpc : c.pc = .cLoadRead) (hw : (n.queue .read).window = 0) :
      Step now n c n { c with pc := .cLoadWrite } .silent
  | cReadPos (hpc : c.pc = .cLoadRead) (hw : (n.queue .read).window ≠ 0) :
      Step now n c n { c with pc := .cBump } .silent
  | cWriteZero (hpc : c.pc = .cLoadWrite) (hw : (n.queue .write).window = 0) :
      Step now n c n { c with pc := .cClose } .silent
  | cWritePos (hpc : c.pc = .cLoadWrite) (hw : (n.queue .write).window ≠ 0) :
      Step now n c n { c with pc := .cBump } .silent
  | cClose (hpc : c.pc = .cClose) :
      Step now n c { n with windowStart := false } { c with pc := .cBump } .silent
  | cBump (hpc : c.pc = .cBump) :
      Step now n c (n.bumpCurrent c.side) { c with acq := (false, true), pc := .body } .silent
  | noWin (hpc : c.pc = .loadWin) (hw : (n.queue c.side).window = 0) :
      Step now n c n { c with pc := .clearHand } .silent
  | win (hpc : c.pc = .loadWin) (hw : (n.queue c.side).window ≠ 0) :
      Step now n c n { c with pc := .loadHand } .silent
  | clearHand (hpc : c.pc = .clearHand) :
      Step now n c (n.setHandover c.side false) { c with pc := .loadHand } .silent
  | handed (hpc : c.pc = .loadHand) (hh : (n.queue c.side).handover = true) :
      Step now n c n { c with
        acq := (true, false), pc := if c.side = .read then .testHand else .rTicket } .silent
  | winner (hpc : c.pc = .loadHand) (hh : (n.queue c.side).handover = false) :
      Step now n c n { c with acq := (false, false), pc := .body } .silent
  | loaded (hpc : c.pc = .body) (hs : c.side = .write) (hl : c.isLoad = true) :
      Step now n c n (leaveBody c) .silent
  | foundLeaf (hpc : c.pc = .body) (hs : c.side = .write) (hl : c.isLoad = false) :
      Step now n c n { c with pc := .getKey .check } .silent
  | noLeaf (hpc : c.pc = .body) (hs : c.side = .write) :
      Step now n c n { c with pc := .getKey .place } .silent
  | traversed (hpc : c.pc = .body) (hs : c.side = .read) (found : Bool) (v : ν) :
      Step now n c n (leaveBody { c with found := found, val := v, readAt := now }) .silent
  | getKeyOk {site : Site} (hpc : c.pc = .getKey site) (hk : (n.queue c.side).uniqueKey = some c.key) :
      Step now n c n { c with pc := .getBuf site } .silent
  | getKeyNo {site : Site} (hpc : c.pc = .getKey site) (hk : (n.queue c.side).uniqueKey ≠ some c.key) :
      Step now n c n (afterGet c site) .silent
  | getBuf {site : Site} (hpc : c.pc = .getBuf site) :
      Step now n c n (afterGet { c with val := n.wcBuffer, valAt := some n.wcAt } site) .silent
  | sameValue (hpc : c.pc = .checkLeaf) : Step now n c n (leaveBody c) .silent
  | differs (hpc : c.pc = .checkLeaf) : Step now n c n { c with pc := .getKey .inPlace } .silent
  | writeLeaf (hpc : c.pc = .writeLeaf ∨ c.pc = .placeLeaf) :
      Step now n c n (leaveBody { c with wroteAt := some now })
        (.leafWrite ⟨now, c.key, c.val, c.valAt⟩)
  | casFail (hpc : c.pc = .placeLeaf) : Step now n c n { c with pc := .body } .silent
  | loser (hpc : c.pc = .testHand) (hh : (n.queue c.side).handover = true) :
      Step now n c n { c with pc := .loadRes } .silent
  | publish (hpc : c.pc = .testHand) (hh : (n.queue c.side).handover = false) :
      Step now n c n { c with pc := .storeRes } .silent
  | storeRes (hpc : c.pc = .storeRes) :
      Step now n c { n with res := c.found, resAt := c.readAt } { c with pc := .storeVal } .silent
  | storeVal (hpc : c.pc = .storeVal) :
      Step now n c { n with retValue := c.val } { c with pc := .rTicket } .silent
  | loadRes (hpc : c.pc = .loadRes) :
      Step now n c n { c with found := n.res, readAt := n.resAt, pc := .loadVal } .silent
  | loadVal (hpc : c.pc = .loadVal) :
      Step now n c n { c with val := n.retValue, pc := .rTicket } .silent
  | rTicket (hpc : c.pc = .rTicket) :
      Step now n c n { c with relTicket := (n.queue c.side).ticket, pc := .rCurrent } .silent
  | rCurrent (hpc : c.pc = .rCurrent) :
      Step now n c n { c with relCurrent := (n.queue c.side).current, pc := .rLoadHand } .silent
  | rHanded (hpc : c.pc = .rLoadHand) (hh : (n.queue c.side).handover = true) :
      Step now n c n { c with pc := .rStoreHand } .silent
  | rWinner (hpc : c.pc = .rLoadHand) (hh : (n.queue c.side).handover = false) :
      Step now n c n { c with pc := .rCasWin } .silent
  | winTaken (hpc : c.pc = .rCasWin) (hw : n.windowStart = true) :
      Step now n c n { c with pc := .rStoreHand } .silent
  | openWin (hpc : c.pc = .rCasWin) (hw : n.windowStart = false) :
      Step now n c { n with windowStart := true }
        { c with pc := if c.side = .read then .oStoreOwn else .oLock } .silent
  | oLock (hpc : c.pc = .oLock) (hl : (n.queue c.side.other).locked = false) :
      Step now n c (n.setLocked c.side.other true) { c with pc := .oCurrent } .silent
  | oCurrent (hpc : c.pc = .oCurrent) :
      Step now n c n { c with othCurrent := (n.queue c.side.other).current, pc := .oTicket } .silent
  | oTicket (hpc : c.pc = .oTicket) :
      Step now n c n { c with othTicket := (n.queue c.side.other).ticket, pc := .oStoreOther } .silent
  | oStoreOther (hpc : c.pc = .oStoreOther) :
      Step now n c (n.setWindow c.side.other (outstanding c.othTicket c.othCurrent))
        { c with pc := .oUnlock } .silent
  | oUnlock (hpc : c.pc = .oUnlock) :
      Step now n c (n.setLocked c.side.other false)
        { c with pc := if c.side = .read then .rStoreHand else .oStoreOwn } .silent
  | oStoreOwn (hpc : c.pc = .oStoreOwn) :
      Step now n c (n.setWindow c.side (outstanding c.relTicket c.relCurrent))
        { c with pc := if c.side = .read then .oLock else .rStoreHand } .silent
  | rStoreHand (hpc : c.pc = .rStoreHand) :
      Step now n c (n.setHandover c.side (decide (c.relTicket % 256 ≠ (c.relCurrent + 1) % 256)))
        { c with pc := .rTestKey } .silent
  | keepKey (hpc : c.pc = .rTestKey) (hh : (n.queue c.side).handover = true) :
      Step now n c n { c with pc := .rLock } .silent
  | dropKey (hpc : c.pc = .rTestKey) (hh : (n.queue c.side).handover = false) :
      Step now n c n { c with pc := .rClearKey } .silent
  | rClearKey (hpc : c.pc = .rClearKey) :
      Step now n c (n.setKey c.side none) { c with pc := .rLock } .silent
  | rLock (hpc : c.pc = .rLock) (hl : (n.queue c.side).locked = false) :
      Step now n c (n.setLocked c.side true) { c with pc := .rLoadWin } .silent
  | rNoWin (hpc : c.pc = .rLoadWin) (hw : (n.queue c.side).window = 0) :
      Step now n c n { c with pc := .rBump } .silent
  | rWin (hpc : c.pc = .rLoadWin) (hw : (n.queue c.side).window ≠ 0) :
      Step now n c n { c with pc := .rDec } .silent
  | rDec (hpc : c.pc = .rDec) : Step now n c (n.decWindow c.side) { c with pc := .rLoadRead } .silent
  | rReadZero (hpc : c.pc = .rLoadRead) (hw : (n.queue .read).window = 0) :
      Step now n c n { c with pc := .rLoadWrite } .silent
  | rReadPos (hpc : c.pc = .rLoadRead) (hw : (n.queue .read).window ≠ 0) :
      Step now n c n { c with pc := .rBump } .silent
  | rWriteZero (hpc : c.pc = .rLoadWrite) (hw : (n.queue .write).window = 0) :
      Step now n c n { c with pc := .rClose } .silent
  | rWritePos (hpc : c.pc = .rLoadWrite) (hw : (n.queue .write).window ≠ 0) :
      Step now n c n { c with pc := .rBump } .silent
  | rClose (hpc : c.pc = .rClose) :
      Step now n c { n with windowStart := false } { c with pc := .rBump } .silent
  | rBump (hpc : c.pc = .rBump) : Step now n c (n.bumpCurrent c.side) { c with pc := .rUnlock } .silent
  | rUnlock (hpc : c.pc = .rUnlock) :
      Step now n c (n.setLocked c.side false) { c with pc := .idle } (returnObs now c)
  | ret (hpc : c.pc = .ret) : Step now n c n { c with pc := .idle } (returnObs now c)

theorem act_step {now : ℕ} {n n' : LockNode κ ν} {c c' : Client κ ν} {ch : Choice κ ν} {o : Obs κ ν}
    (h : act now n c ch = some (n', c', o)) : Step now n c n' c' o := by
  unfold act at h
  split at h <;> try rename_i hpc
  · dsimp only at h
    split at h
    · cases h
      exact .openKey hpc ‹_›
    · rename_i k hk
      split at h
      · rename_i he
        cases h
        exact .joinKey hpc (he ▸ hk)
      · rename_i hne
        cases h
        exact .refuseKey hpc hk hne
  · cases h
    exact .deposit hpc
  · cases h
    exact .takeTicket hpc
  · cases h
    split
    · exact .enter hpc ‹_›
    · exact .spin hpc
  · cases h
    split
    · exact .keyKept hpc ‹_›
    · exact .keyLost hpc ‹_›
  · cases h
    split
    · exact .cNoWin hpc ‹_›
    · exact .cWin hpc ‹_›
  · cases h
    exact .cDec hpc
  · cases h
    split
    · exact .cReadZero hpc ‹_›
    · exact .cReadPos hpc ‹_›
  · cases h
    split
    · exact .cWriteZero hpc ‹_›
    · exact .cWritePos hpc ‹_›
  · cases h
    exact .cClose hpc
  · cases h
    exact .cBump hpc
  · cases h
    split
    · exact .noWin hpc ‹_›
    · exact .win hpc ‹_›
  · cases h
    exact .clearHand hpc
  · cases h
    cases hh : (n.queue c.side).handover
    · exact .winner hpc hh
    · exact .handed hpc hh
  · split at h
    · rename_i hs
      split at h
      · cases h
        exact .loaded hpc hs ‹_›
      · cases h
        exact .foundLeaf hpc hs (Bool.eq_false_iff.mpr ‹_›)
    · cases h
  · split at h
    · cases h
      exact .noLeaf hpc ‹_›
    · cases h
  · split at h
    · cases h
      exact .traversed hpc ‹_› _ _
    · cases h
  · cases h
    split
    · exact .getKeyOk hpc ‹_›
    · exact .getKeyNo hpc ‹_›
  · cases h
    exact .getBuf hpc
  · cases h
    exact .sameValue hpc
  · cases h
    exact .differs hpc
  · cases h
    exact .writeLeaf (.inl hpc)
  · cases h
    exact .writeLeaf (.inr hpc)
  · cases h
    exact .casFail hpc
  · cases h
    split
    · exact .loser hpc ‹_›
    · exact .publish hpc (Bool.eq_false_iff.mpr ‹_›)
  · cases h
    exact .storeRes hpc
  · cases h
    exact .storeVal hpc
  · cases h
    exact .loadRes hpc
  · cases h
    exact .loadVal hpc
  · cases h
    exact .rTicket hpc
  · cases h
    exact .rCurrent hpc
  · cases h
    split
    · exact .rHanded hpc ‹_›
    · exact .rWinner hpc (Bool.eq_false_iff.mpr ‹_›)
  · split at h
    · cases h
      exact .winTaken hpc ‹_›
    · cases h
      exact .openWin hpc (Bool.eq_false_iff.mpr ‹_›)
  · split at h
    · cases h
    · cases h
      exact .oLock hpc (Bool.eq_false_iff.mpr ‹_›)
  · cases h
    exact .oCurrent hpc
  · cases h
    exact .oTicket hpc
  · cases h
    exact .oStoreOther hpc
  · cases h
    exact .oUnlock hpc
  · cases h
    exact .oStoreOwn hpc
  · cases h
    exact .rStoreHand hpc
  · cases h
    split
    · exact .keepKey hpc ‹_›
    · exact .dropKey hpc (Bool.eq_false_iff.mpr ‹_›)
  · cases h
    exact .rClearKey hpc
  · dsimp only at h
    split at h
    · cases h
    · cases h
      exact .rLock hpc (Bool.eq_false_iff.mpr ‹_›)
  · cases h
    split
    · exact .rNoWin hpc ‹_›
    · exact .rWin hpc ‹_›
  · cases h
    exact .rDec hpc
  · cases h
    split
    · exact .rReadZero hpc ‹_›
    · exact .rReadPos hpc ‹_›
  · cases h
    split
    · exact .rWriteZero hpc ‹_›
    · exact .rWritePos hpc ‹_›
  · cases h
    exact .rClose hpc
  · cases h
    exact .rBump hpc
  · cases h
    exact .rUnlock hpc
  · cases h
    exact .ret hpc
  · cases h

section
omit [DecidableEq κ]
variable {now : ℕ} {n n' : LockNode κ ν} {c c' : Client κ ν} {o : Obs κ ν}

theorem Step.key_eq (h : Step now n c n' c' o) : c'.key = c.key := by
  cases h <;> rfl

theorem Step.side_eq (h : Step now n c n' c' o) : c'.side = c.side := by
  cases h <;> rfl

end

def Pc.onlySide : Pc → Option Side
  | .deposit | .getKey _ | .getBuf _ | .checkLeaf | .writeLeaf | .placeLeaf => some .write
  | .testHand | .storeRes | .storeVal | .loadRes | .loadVal => some .read
  | _ => none

def Client.Shaped (c : Client κ ν) : Prop := ∀ sd, c.pc.onlySide = some sd → c.side = sd

omit [DecidableEq κ] in
theorem Step.shaped {now : ℕ} {n n' : LockNode κ ν} {c c' : Client κ ν} {o : Obs κ ν}
    (h : Step now n c n' c' o) (hc : c.Shaped) : c'.Shaped := by
  intro sd hsd
  have hw := hc .write
  have hr := hc .read
  rw [h.side_eq]
  cases h with
  | openKey hpc hk => cases hs : c.side <;> simp_all [Pc.onlySide]
  | joinKey hpc hk => cases hs : c.side <;> simp_all [Pc.onlySide]
  | @getKeyNo site hpc hk => cases site <;> simp_all [Pc.onlySide, afterGet, Site.after]
  | @getBuf site hpc => cases site <;> simp_all [Pc.onlySide, afterGet, Site.after]
  | writeLeaf hpc | sameValue hpc | traversed hpc | loaded hpc =>
    cases ha : c.acq.2 <;> cases hs : c.side <;> simp_all [Pc.onlySide, leaveBody]
  | handed hpc _ | openWin hpc _ | oUnlock hpc | oStoreOwn hpc =>
    cases hs : c.side <;> simp_all [Pc.onlySide]
  | _ => simp_all [Pc.onlySide]

inductive Begins (now : ℕ) (c : Client κ ν) : Client κ ν → Prop where
  | insert (key : κ) (v : ν) (isLoad : Bool) : Begins now c { c with
      pc := .casKey, side := .write, key := key, arg := v, isLoad := isLoad, val := v
      acq := (false, false), invAt := now, depAt := none, valAt := none, wroteAt := none }
  | search (key : κ) : Begins now c { c with
      pc := .casKey, side := .read, key := key, found := false, acq := (false, false), invAt := now
      depAt := none, valAt := none, wroteAt := none }

omit [DecidableEq κ] in
theorem Begins.locals {now : ℕ} {c c' : Client κ ν} (h : Begins now c c') :
    c'.pc = .casKey ∧ c'.acq = (false, false) ∧ c'.invAt = now ∧ c'.depAt = none ∧ c'.valAt = none ∧
      c'.wroteAt = none ∧ (c'.side = .write → c'.val = c'.arg) := by
  cases h <;> simp

variable {ι : Type*} [DecidableEq ι]

/-- One step of the table by a client: it starts an operation, or moves on its node. -/
inductive Moves (hash : κ → ℕ) (s : Table ι κ ν) (i : ι) : Table ι κ ν → Prop where
  | begins (hpc : (s.client i).pc = .idle) {c' : Client κ ν} (hb : Begins s.now (s.client i) c') :
      Moves hash s i { s with now := s.now + 1, client := Function.update s.client i c' }
  | steps (hpc : (s.client i).pc ≠ .idle) {n' : LockNode κ ν} {c' : Client κ ν} {o : Obs κ ν}
      (hs : Step s.now (s.node (hash (s.client i).key)) (s.client i) n' c' o) :
      Moves hash s i (Table.observe { s with
        now := s.now + 1
        node := Function.update s.node (hash (s.client i).key) n'
        client := Function.update s.client i c' } o)

theorem next_moves {hash : κ → ℕ} {s t : Table ι κ ν} {i : ι} {ch : Choice κ ν}
    (h : next hash s (i, ch) = some t) : Moves hash s i t := by
  unfold next at h
  dsimp only at h
  split at h
  · rename_i hpc
    obtain ⟨c', hb, rfl⟩ := Option.map_eq_some_iff.mp h
    refine .begins hpc ?_
    cases ch <;> simp only [beginOp, Option.some.injEq, reduceCtorEq] at hb
    · subst hb; exact .insert _ _ _
    · subst hb; exact .search _
  · rename_i hpc
    obtain ⟨⟨n', c', o⟩, ha, rfl⟩ := Option.map_eq_some_iff.mp h
    exact .steps hpc (act_step ha)

theorem shaped_of_reach {hash : κ → ℕ} {G : Table ι κ ν → ι × Choice κ ν → Prop}
    {s : Table ι κ ν} (h : (system ι ν hash).Reach G s) (i : ι) : (s.client i).Shaped := by
  refine h.invariant (P := fun s => ∀ i, (s.client i).Shaped) ?_ ?_ i
  · intro s hs i sd hsd
    simp [hs.2.2.1 i, Pc.onlySide] at hsd
  · intro s a t _ ih _ ht i
    by_cases hi : i = a.1
    · subst hi
      cases next_moves ht with
      | begins hpc hb => cases hb <;> simp [Client.Shaped, Pc.onlySide]
      | steps hpc hs => simpa using hs.shaped (ih a.1)
    · cases next_moves ht <;> simpa [Function.update_of_ne hi] using ih i

end SmartTree.LocalLock
