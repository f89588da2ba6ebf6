import QTrace.Flight.EmergencyCrash

/-! Runs of calls on one emergency slot, stopped after any store. Every call has one
of three shapes: it touches no cell, it counts a dropped failure on the reported
gap, or it publishes one record. The slot's resting invariant is kept by whole
calls, and what a stopped call leaves readable follows from its shape. -/

namespace QTrace.Flight

/-- A store outside the cells. -/
def SlotStore.IsMetadata : SlotStore → Prop
  | .word _ _ _ => False
  | _ => True

theorem storeAll_append (s : EmergencySlot) (xs ys : List SlotStore) :
    s.storeAll (xs ++ ys) = (s.storeAll xs).storeAll ys := List.foldl_append

theorem cell_storeAll_of_metadata : ∀ (stores : List SlotStore) (s : EmergencySlot),
    (∀ x ∈ stores, x.IsMetadata) → (s.storeAll stores).cell = s.cell
  | [], _, _ => rfl
  | x :: stores, s, h => by
    have ih := cell_storeAll_of_metadata stores (s.store x) fun y hy => h y (by simp [hy])
    have hx : x.IsMetadata := h x (by simp)
    have hcell : (s.store x).cell = s.cell := by
      cases x with
      | word c k v => exact absurd hx id
      | claim v => rfl
      | nextVersion v => rfl
      | pinnedCell v => rfl
    rw [EmergencySlot.storeAll, List.foldl_cons, ← EmergencySlot.storeAll, ih, hcell]

theorem storeAll_words : ∀ (words : List (Fin 16 × UInt32)) (s : EmergencySlot) (c : Fin 2),
    s.storeAll (words.map fun w => .word c w.1 w.2) =
      { s with cell := Function.update s.cell c ((s.cell c).write words) }
  | [], s, c => by
    simp [EmergencySlot.storeAll, EmergencyCell.write]
  | w :: words, s, c => by
    rw [List.map_cons, EmergencySlot.storeAll, List.foldl_cons, ← EmergencySlot.storeAll,
      storeAll_words words]
    simp [EmergencySlot.store, EmergencyCell.write]

inductive SlotOp where
  | writeEmergency (record : EmergencyRecord)
  | replacePinnedTermination (tid syscallNumber signalNumber : UInt32) (record : EmergencyRecord)
  | writeCoverageGapSticky (spurious : ℕ) (record : EmergencyRecord)

def SlotOp.call (s : EmergencySlot) : SlotOp → SlotCall
  | .writeEmergency record => s.writeEmergency record
  | .replacePinnedTermination tid syscallNumber signalNumber record =>
    s.replacePinnedTermination tid syscallNumber signalNumber record
  | .writeCoverageGapSticky spurious record => s.writeCoverageGapSticky spurious record

/-- The pinned cell a call is going to overwrite: it is a replacement, and the
cell still holds the intent it names. -/
def SlotOp.replaces (s : EmergencySlot) : SlotOp → Option (Fin 2)
  | .replacePinnedTermination _ syscallNumber signalNumber record =>
    s.matchedCell syscallNumber signalNumber record
  | _ => none

/-- What a call can do to the slot `s`. -/
inductive CallShape (s : EmergencySlot) (replaced : Option (Fin 2)) : SlotCall → Prop where
  /-- Only the metadata changes, and at most the pin of a matched replacement is given up. -/
  | quiet (stores : List SlotStore) (result : Bool) (hmeta : ∀ x ∈ stores, x.IsMetadata)
      (hclaim : (s.storeAll stores).claim = s.claim)
      (hversion : (s.storeAll stores).nextVersion = s.nextVersion)
      (hpin : (s.storeAll stores).pinnedCell = s.pinnedCell ∨ (s.storeAll stores).pinnedCell = 0) :
      CallShape s replaced ⟨stores, none, [], result⟩
  /-- One more failure is counted on the gap the slot reports. -/
  | dropped (stores : List SlotStore) (c : Fin 2) (existing : EmergencyRecord) (count : UInt32)
      (hmeta : ∀ x ∈ stores, x.IsMetadata) (hclaim : (s.storeAll stores).claim = s.claim)
      (hversion : (s.storeAll stores).nextVersion = s.nextVersion)
      (hpin : (s.storeAll stores).pinnedCell = s.pinnedCell)
      (hlatest : s.latest = some (c, existing)) (hgap : existing.isCoverageGap = true) :
      CallShape s replaced ⟨stores ++ [.word c 11 count], none, [], true⟩
  /-- One record is published. -/
  | publish (prologue : List SlotStore) (record : EmergencyRecord)
      (hmeta : ∀ x ∈ prologue, x.IsMetadata)
      (hclaim : s.claim = 0)
      (hversion : (s.storeAll prologue).nextVersion = s.nextVersion + 2)
      (hpin : (s.storeAll prologue).pinnedCell = if replaced = none then s.pinnedCell else 0)
      (hflags : record.flags &&& emergencyCommitted = 0)
      (hbound : s.nextVersion ≤ 0xffffffff - 2) :
      CallShape s replaced ⟨prologue, some ⟨replaced.getD s.targetCell, record, s.nextVersion⟩,
        (if record.isTerminationIntent then
          [.pinnedCell (UInt32.ofNat (replaced.getD s.targetCell + 1))] else []) ++ [.claim 0], true⟩

variable {s : EmergencySlot} {replaced : Option (Fin 2)} {record r : EmergencyRecord} {call : SlotCall}

theorem publishEmergencyClaimed_shape (hflags : record.flags &&& emergencyCommitted = 0) (hclaim : s.claim = 0)
    (stores : List SlotStore)
    (hstores : stores = if replaced = none then [SlotStore.claim 1] else [.claim 1, .pinnedCell 0]) :
    CallShape s replaced ((s.publishEmergencyClaimed record replaced).behind stores) := by
  by_cases hversion : s.nextVersion = 0 ∨ s.nextVersion > 0xffffffff - 2
  · have hcall : (s.publishEmergencyClaimed record replaced).behind stores =
        ⟨stores ++ [.claim 0], none, [], false⟩ := by
      simp only [EmergencySlot.publishEmergencyClaimed, if_pos hversion]
      rfl
    rw [hcall]
    cases replaced <;> subst hstores <;> apply CallShape.quiet <;>
      simp [SlotStore.IsMetadata, EmergencySlot.storeAll, EmergencySlot.store, hclaim]
  · have hcall : (s.publishEmergencyClaimed record replaced).behind stores =
        ⟨stores ++ [.nextVersion (s.nextVersion + 2)],
          some ⟨replaced.getD s.targetCell, record, s.nextVersion⟩,
          (if record.isTerminationIntent then
            [.pinnedCell (UInt32.ofNat (replaced.getD s.targetCell + 1))] else []) ++ [.claim 0], true⟩ := by
      simp only [EmergencySlot.publishEmergencyClaimed, if_neg hversion]
      rfl
    rw [hcall]
    have hbound : s.nextVersion ≤ 0xffffffff - 2 := by
      rw [not_or] at hversion
      exact UInt32.not_lt.1 hversion.2
    refine CallShape.publish _ record ?_ hclaim ?_ ?_ hflags hbound <;> cases replaced <;> subst hstores <;>
      simp [SlotStore.IsMetadata, EmergencySlot.storeAll, EmergencySlot.store]

theorem returns_nil_shape (s : EmergencySlot) (replaced : Option (Fin 2)) (result : Bool) :
    CallShape s replaced (.returns [] result) :=
  .quiet [] result (by simp) rfl rfl (Or.inl rfl)

theorem returns_claim_shape (replaced : Option (Fin 2)) (result : Bool) (hclaim : s.claim = 0) :
    CallShape s replaced (.returns [.claim 1, .claim 0] result) :=
  .quiet [.claim 1, .claim 0] result (by simp [SlotStore.IsMetadata]) hclaim.symm rfl (Or.inl rfl)

theorem incrementDroppedCoverageGap_shape (replaced : Option (Fin 2)) (stores : List SlotStore)
    (hmeta : ∀ x ∈ stores, x.IsMetadata) (hclaim : (s.storeAll stores).claim = s.claim)
    (hversion : (s.storeAll stores).nextVersion = s.nextVersion)
    (hpin : (s.storeAll stores).pinnedCell = s.pinnedCell) :
    CallShape s replaced (s.incrementDroppedCoverageGap.behind stores) := by
  have hquiet : ∀ result, CallShape s replaced ((SlotCall.returns [] result).behind stores) := by
    intro result
    simp only [SlotCall.behind, SlotCall.returns, List.append_nil]
    exact .quiet stores result hmeta hclaim hversion (Or.inl hpin)
  unfold EmergencySlot.incrementDroppedCoverageGap
  split
  · exact hquiet false
  next c existing hlatest =>
    split_ifs with hgap hmax
    · exact hquiet true
    · exact .dropped stores c existing _ hmeta hclaim hversion hpin hlatest hgap
    · exact hquiet false

theorem claimLoop_claimed : ∀ {attempts spurious : ℕ},
    s.claimLoop attempts spurious = .claimed → s.claim = 0
  | 0, _, h => by cases h
  | attempts + 1, spurious, h => by
    rw [EmergencySlot.claimLoop] at h
    split_ifs at h with hclaim hgap
    · exact hclaim.1
    · exact claimLoop_claimed h

/-- Every call has one of the shapes. -/
theorem call_shape (s : EmergencySlot) (op : SlotOp) : CallShape s (op.replaces s) (op.call s) := by
  cases op with
  | writeEmergency record =>
    simp only [SlotOp.call, SlotOp.replaces, EmergencySlot.writeEmergency]
    split_ifs with hbad hclaim hgap
    · exact returns_nil_shape ..
    · exact returns_nil_shape ..
    · exact returns_claim_shape none false (not_not.1 hclaim)
    · rw [not_or, not_not] at hbad
      exact publishEmergencyClaimed_shape hbad.2 (not_not.1 hclaim) _ rfl
  | replacePinnedTermination tid syscallNumber signalNumber record =>
    simp only [SlotOp.call, SlotOp.replaces, EmergencySlot.replacePinnedTermination]
    split_ifs with hbad hclaim
    · exact returns_nil_shape ..
    · exact returns_nil_shape ..
    · simp only [not_or, not_not] at hbad
      cases hm : s.matchedCell syscallNumber signalNumber record with
      | none => exact returns_claim_shape none true (not_not.1 hclaim)
      | some pinned =>
        exact publishEmergencyClaimed_shape hbad.2.2.2.2 (not_not.1 hclaim) _ (by simp)
  | writeCoverageGapSticky spurious record =>
    simp only [SlotOp.call, SlotOp.replaces, EmergencySlot.writeCoverageGapSticky]
    by_cases hbad : record.tid = 0 ∨ record.isCoverageGap = false ∨ record.signalCode ≠ 0 ∨
        record.flags &&& emergencyCommitted ≠ 0
    · rw [if_pos hbad]; exact returns_nil_shape ..
    · rw [if_neg hbad]
      simp only [not_or, not_not] at hbad
      split
      · exact returns_nil_shape ..
      · have hshape := incrementDroppedCoverageGap_shape (s := s) none [] (by simp) rfl rfl rfl
        simpa [SlotCall.behind] using hshape
      next hclaimed =>
        have hclaim := claimLoop_claimed hclaimed
        split_ifs with hgap
        · exact incrementDroppedCoverageGap_shape none _ (by simp [SlotStore.IsMetadata]) hclaim.symm rfl rfl
        · exact publishEmergencyClaimed_shape hbad.2.2.2 hclaim _ rfl

theorem CallShape.target_eq {p : Publication} (h : CallShape s replaced call) (hp : call.publication = some p) :
    p.target = replaced.getD s.targetCell := by
  cases h with
  | quiet => cases hp
  | dropped => cases hp
  | publish => cases hp; rfl

/-- The slot after the first `n` stores of a call. -/
def EmergencySlot.stop (s : EmergencySlot) (call : SlotCall) (n : ℕ) : EmergencySlot :=
  s.storeAll (call.stores.take n)

/-- The record of cell `c` after `n` stores of a call. -/
def SlotCall.rootAt (s : EmergencySlot) (call : SlotCall) (n : ℕ) (c : Fin 2) : Option EmergencyRecord :=
  match call.publication with
  | none => (s.cell c).root
  | some p =>
    if c = p.target then
      if n ≤ call.prologue.length then (s.cell c).root
      else if n < call.prologue.length + 18 then none
      else some p.record.rootCause
    else (s.cell c).root

theorem root_stop_quiet {stores : List SlotStore} (h : ∀ x ∈ stores, x.IsMetadata) (n : ℕ) :
    (s.storeAll (stores.take n)).cell = s.cell :=
  cell_storeAll_of_metadata _ _ fun x hx => h x (List.mem_of_mem_take hx)

variable {c : Fin 2}

theorem latest_scan (h : s.latest = some (c, r)) : ∃ v, scanCell (s.cell c) = some (r, v) := by
  unfold EmergencySlot.latest at h
  split at h
  · cases h
  · cases h; exact ⟨_, by assumption⟩
  · cases h; exact ⟨_, by assumption⟩
  · split_ifs at h <;> cases h <;> exact ⟨_, by assumption⟩

/-- The readable records at every stop of a call. -/
theorem root_stop (h : CallShape s replaced call) (hv : s.nextVersion ≠ 0) (heven : s.nextVersion &&& 1 = 0)
    (n : ℕ) (c : Fin 2) :
    ((s.stop call n).cell c).root = call.rootAt s n c := by
  cases h with
  | quiet stores result hmeta =>
    have hcell : (s.stop ⟨stores, none, [], result⟩ n).cell = s.cell := by
      simpa [EmergencySlot.stop, SlotCall.stores, SlotCall.publicationStores] using root_stop_quiet hmeta n
    rw [hcell]; rfl
  | dropped stores d existing count hmeta hclaim hversion hpin hlatest hgap =>
    obtain ⟨v, hscan⟩ := latest_scan hlatest
    simp only [EmergencySlot.stop, SlotCall.stores, SlotCall.publicationStores, List.append_nil,
      List.take_append, storeAll_append, SlotCall.rootAt]
    have hcell := root_stop_quiet (s := s) hmeta n
    rcases hm : n - stores.length with _ | m
    · simp only [List.take_zero, EmergencySlot.storeAll, List.foldl_nil]
      rw [← EmergencySlot.storeAll, hcell]
    · simp only [List.take_succ_cons, List.take_nil, EmergencySlot.storeAll, List.foldl_cons, List.foldl_nil]
      rw [← EmergencySlot.storeAll]
      by_cases hc : c = d
      · subst hc
        simp only [EmergencySlot.store, Function.update_self, hcell]
        exact root_update_dropped hscan hgap count
      · simp only [EmergencySlot.store, Function.update_of_ne hc, hcell]
  | publish prologue record hmeta hclaim hversion hpin hflags hbound =>
    set p : Publication := ⟨replaced.getD s.targetCell, record, s.nextVersion⟩ with hp
    set epilogue := (if record.isTerminationIntent then
      [SlotStore.pinnedCell (UInt32.ofNat (replaced.getD s.targetCell + 1))] else []) ++ [.claim 0] with he
    have hepi : ∀ x ∈ epilogue, x.IsMetadata := by
      intro x hx
      rw [he] at hx
      split_ifs at hx <;> simp at hx <;> rcases hx with rfl | rfl <;> trivial
    simp only [EmergencySlot.stop, SlotCall.stores, SlotCall.publicationStores, List.take_append,
      storeAll_append, ← List.map_take, SlotCall.rootAt, List.length_map, p.length_words]
    rw [root_stop_quiet hepi, storeAll_words]
    have hcell := root_stop_quiet (s := s) hmeta n
    by_cases hc : c = p.target
    · subst hc
      simp only [Function.update_self, hcell, if_true]
      split_ifs with h1 h2
      · rw [Nat.sub_eq_zero_of_le h1]; rfl
      · unfold EmergencyCell.root
        rw [scanCell_write_take p _ _ (by omega) (by omega)]; rfl
      · rw [List.take_of_length_le (by rw [p.length_words]; omega)]
        unfold EmergencyCell.root
        rw [scanCell_write_words p _ hflags hv heven]; rfl
    · simp only [Function.update_of_ne hc, hcell, if_neg hc]

/-- The records whose publication is complete after `n` stores of a call. -/
def SlotCall.completed (call : SlotCall) (n : ℕ) : List EmergencyRecord :=
  match call.publication with
  | none => []
  | some p => if call.prologue.length + 18 ≤ n then [p.record] else []

/-- A slot and every record completely published on it. -/
structure SlotHistory where
  slot : EmergencySlot
  published : List EmergencyRecord

namespace SlotHistory

/-- The history when the process stops after `n` stores of the next call. -/
def stop (h : SlotHistory) (op : SlotOp) (n : ℕ) : SlotHistory :=
  ⟨h.slot.stop (op.call h.slot) n, h.published ++ (op.call h.slot).completed n⟩

def step (h : SlotHistory) (op : SlotOp) : SlotHistory := h.stop op (op.call h.slot).stores.length

def run (ops : List SlotOp) : SlotHistory := ops.foldl step ⟨.create, []⟩

/-- The invariant between calls. -/
structure Resting (h : SlotHistory) : Prop where
  claim : h.slot.claim = 0
  version_ne : h.slot.nextVersion ≠ 0
  version_even : h.slot.nextVersion.toNat % 2 = 0
  pinned : ∀ c : Fin 2, h.slot.pinnedCell = UInt32.ofNat (c + 1) →
    ∃ intent, (h.slot.cell c).root = some intent ∧ intent.isTerminationIntent = true
  readable : h.published ≠ [] → ∃ c, (h.slot.cell c).root ≠ none
  genuine : ∀ c r, (h.slot.cell c).root = some r → r ∈ h.published.map EmergencyRecord.rootCause

variable {h : SlotHistory} {op : SlotOp}

theorem Resting.version_and_one (hr : Resting h) : h.slot.nextVersion &&& 1 = 0 := by
  apply UInt32.toNat_inj.1
  rw [UInt32.toNat_and]
  show h.slot.nextVersion.toNat &&& 1 = 0
  rw [Nat.and_one_is_mod, hr.version_even]

theorem resting_create : Resting ⟨.create, []⟩ where
  claim := rfl
  version_ne := by decide
  version_even := by decide
  pinned c hc := by revert c; decide
  readable hne := absurd rfl hne
  genuine c r hc := by
    have hnone : EmergencyCell.root (fun _ => 0) = none := by decide
    exact absurd (hc.symm.trans hnone) (by simp)

/-- An unforced publication never overwrites the pinned cell, and while some cell is
readable it spares a readable one. -/
theorem Resting.targetCell_spares (hr : Resting h) :
    (∀ c : Fin 2, h.slot.pinnedCell = UInt32.ofNat (c + 1) → c ≠ h.slot.targetCell) ∧
      ((∃ c, (h.slot.cell c).root ≠ none) →
        ∃ c, c ≠ h.slot.targetCell ∧ (h.slot.cell c).root ≠ none) := by
  unfold EmergencySlot.targetCell
  by_cases h1 : h.slot.pinnedCell = 1
  · obtain ⟨intent, hi, -⟩ := hr.pinned 0 (by simpa using h1)
    rw [if_pos h1, h1]
    exact ⟨by decide, fun _ => ⟨0, by decide, by simp [hi]⟩⟩
  by_cases h2 : h.slot.pinnedCell = 2
  · obtain ⟨intent, hi, -⟩ := hr.pinned 1 (by simpa using h2)
    rw [if_neg h1, if_pos h2, h2]
    exact ⟨by decide, fun _ => ⟨1, by decide, by simp [hi]⟩⟩
  rw [if_neg h1, if_neg h2]
  constructor
  · intro c hc
    have hc' : h.slot.pinnedCell = 1 ∨ h.slot.pinnedCell = 2 := by
      rw [hc]; clear hc; revert c; decide
    exact absurd hc' (by simp [h1, h2])
  · -- with no pin the older or unreadable cell is chosen
    rintro ⟨c, hc⟩
    unfold EmergencyCell.root at hc ⊢
    rcases h0 : scanCell (h.slot.cell 0) with _ | ⟨r, v⟩
    · have hc1 : c = 1 := by
        by_contra hne
        have : c = 0 := by omega
        subst this
        simp [h0] at hc
      subst hc1
      exact ⟨1, by simp, hc⟩
    · rcases h3 : scanCell (h.slot.cell 1) with _ | ⟨q, w⟩
      · exact ⟨0, by simp, by simp [h0]⟩
      · by_cases hvw : v > w
        · exact ⟨0, by simp [hvw], by simp [h0]⟩
        · exact ⟨1, by simp [hvw], by simp [h3]⟩

theorem metadata_publish {prologue : List SlotStore} (p : Publication) (epilogue : List SlotStore)
    (result : Bool) :
    s.stop ⟨prologue, some p, epilogue, result⟩ (SlotCall.stores ⟨prologue, some p, epilogue, result⟩).length =
      ({ s.storeAll prologue with
        cell := Function.update (s.storeAll prologue).cell p.target
          (((s.storeAll prologue).cell p.target).write p.words) } : EmergencySlot).storeAll epilogue := by
  rw [EmergencySlot.stop, List.take_length]
  simp only [SlotCall.stores, SlotCall.publicationStores, storeAll_append, storeAll_words]

theorem rootCause_of_intent (hi : r.isTerminationIntent = true) : r.rootCause = r := by
  have hgap : r.isCoverageGap = false := by
    have : r.type = UInt32.ofNat RecordType.terminationIntent.code := by
      simpa [EmergencyRecord.isTerminationIntent] using hi
    simp only [EmergencyRecord.isCoverageGap, this]
    decide
  simp [EmergencyRecord.rootCause, hgap]

theorem zero_ne_pin (c : Fin 2) : (0 : UInt32) ≠ UInt32.ofNat (c + 1) := by revert c; decide

theorem pin_injective {d : Fin 2} : UInt32.ofNat (c + 1) = UInt32.ofNat (d + 1) → c = d := by
  revert c d; decide

theorem Resting.of_unpublished (hr : Resting h) (hc : (h.step op).slot.claim = 0)
    (hv : (h.step op).slot.nextVersion = h.slot.nextVersion)
    (hp : (h.step op).slot.pinnedCell = h.slot.pinnedCell ∨ (h.step op).slot.pinnedCell = 0)
    (hroot : ∀ c, ((h.step op).slot.cell c).root = (h.slot.cell c).root)
    (hpub : (h.step op).published = h.published) : Resting (h.step op) where
  claim := hc
  version_ne := hv ▸ hr.version_ne
  version_even := hv ▸ hr.version_even
  pinned c hc' := by
    rw [hroot]
    rcases hp with hp | hp
    · exact hr.pinned c (hp ▸ hc')
    · exact absurd (hp ▸ hc') (zero_ne_pin c)
  readable hne := by
    obtain ⟨c, hc'⟩ := hr.readable (hpub ▸ hne)
    exact ⟨c, by rwa [hroot]⟩
  genuine c r hc' := by
    rw [hroot] at hc'
    rw [hpub]; exact hr.genuine c r hc'

theorem Resting.of_published (hr : Resting h) {target : Fin 2}
    (htarget : target = (op.replaces h.slot).getD h.slot.targetCell) (hbound : h.slot.nextVersion ≤ 0xffffffff - 2)
    (hc : (h.step op).slot.claim = 0) (hv : (h.step op).slot.nextVersion = h.slot.nextVersion + 2)
    (hp : (h.step op).slot.pinnedCell = if record.isTerminationIntent then UInt32.ofNat (target + 1)
      else if op.replaces h.slot = none then h.slot.pinnedCell else 0)
    (hself : ((h.step op).slot.cell target).root = some record.rootCause)
    (hother : ∀ c, c ≠ target → ((h.step op).slot.cell c).root = (h.slot.cell c).root)
    (hpub : (h.step op).published = h.published ++ [record]) : Resting (h.step op) := by
  have hnat : (h.step op).slot.nextVersion.toNat = h.slot.nextVersion.toNat + 2 := by
    have : h.slot.nextVersion.toNat ≤ 4294967293 := hbound
    rw [hv, UInt32.toNat_add]
    show (h.slot.nextVersion.toNat + 2) % 2 ^ 32 = _
    omega
  refine ⟨hc, fun h0 => ?_, ?_, fun c hpin => ?_, fun _ => ⟨target, by simp [hself]⟩, fun c r hroot => ?_⟩
  · rw [h0] at hnat
    simp at hnat
  · have := hr.version_even
    omega
  · rw [hp] at hpin
    split_ifs at hpin with hintent hnone
    · rw [← pin_injective hpin, hself, rootCause_of_intent hintent]
      exact ⟨record, rfl, hintent⟩
    · have hne : c ≠ target := by
        rw [htarget, hnone]
        exact hr.targetCell_spares.1 c hpin
      rw [hother c hne]
      exact hr.pinned c hpin
    · exact absurd hpin (zero_ne_pin c)
  · rw [hpub, List.map_append, List.mem_append]
    by_cases hct : c = target
    · subst hct
      rw [hself, Option.some.injEq] at hroot
      exact Or.inr (by simp [hroot])
    · rw [hother c hct] at hroot
      exact Or.inl (hr.genuine c r hroot)

theorem Resting.step (hr : Resting h) (op : SlotOp) : Resting (h.step op) := by
  have hshape := call_shape h.slot op
  have hroot := root_stop hshape hr.version_ne hr.version_and_one (op.call h.slot).stores.length
  generalize hcall : op.call h.slot = call at hshape hroot
  have hstep : h.step op = ⟨h.slot.stop call call.stores.length, h.published ++ call.completed call.stores.length⟩ := by
    rw [SlotHistory.step, SlotHistory.stop, hcall]
  cases hshape with
  | quiet stores result hmeta hclaim hversion hpin =>
    have hslot : (h.step op).slot = h.slot.storeAll stores := by
      simp [hstep, EmergencySlot.stop, SlotCall.stores, SlotCall.publicationStores]
    refine hr.of_unpublished ?_ ?_ ?_ (fun c => ?_) ?_
    · rw [hslot, hclaim, hr.claim]
    · rw [hslot, hversion]
    · rw [hslot]; exact hpin
    · rw [hstep]; exact hroot c
    · simp [hstep, SlotCall.completed]
  | dropped stores d existing count hmeta hclaim hversion hpin hlatest hgap =>
    have hslot : (h.step op).slot = (h.slot.storeAll stores).store (.word d 11 count) := by
      rw [hstep, EmergencySlot.stop, List.take_length]
      simp [SlotCall.stores, SlotCall.publicationStores, EmergencySlot.storeAll]
    refine hr.of_unpublished ?_ ?_ (Or.inl ?_) (fun c => ?_) ?_
    · rw [hslot, EmergencySlot.store, hclaim, hr.claim]
    · rw [hslot, EmergencySlot.store, hversion]
    · rw [hslot, EmergencySlot.store, hpin]
    · rw [hstep]; exact hroot c
    · simp [hstep, SlotCall.completed]
  | publish prologue record hmeta hclaim hversion hpin hflags hbound =>
    set target := (op.replaces h.slot).getD h.slot.targetCell with htarget
    have hlen : prologue.length + 18 ≤ (SlotCall.stores ⟨prologue, some ⟨target, record, h.slot.nextVersion⟩,
        (if record.isTerminationIntent then [.pinnedCell (UInt32.ofNat (target + 1))] else []) ++ [.claim 0],
        true⟩).length := by
      simp only [SlotCall.stores, SlotCall.publicationStores, List.length_append, List.length_map,
        Publication.length_words]
      omega
    have hslot := congrArg SlotHistory.slot hstep
    rw [metadata_publish] at hslot
    refine hr.of_published htarget hbound ?_ ?_ ?_ ?_ (fun c hc => ?_)
      (show _ = h.published ++ [record] by rw [hstep]; simp only [SlotCall.completed, if_pos hlen])
    · rw [hslot]
      cases record.isTerminationIntent <;> simp [EmergencySlot.storeAll, EmergencySlot.store]
    · rw [hslot]
      cases record.isTerminationIntent <;> simpa [EmergencySlot.storeAll, EmergencySlot.store] using hversion
    · rw [hslot]
      cases record.isTerminationIntent
      · simpa [EmergencySlot.storeAll, EmergencySlot.store] using hpin
      · simp [EmergencySlot.storeAll, EmergencySlot.store]
    · rw [hstep, hroot]
      simp only [SlotCall.rootAt, if_true]
      rw [if_neg (by omega), if_neg (by omega)]
    · rw [hstep, hroot]
      simp only [SlotCall.rootAt, if_neg hc]

theorem resting_run (ops : List SlotOp) : Resting (run ops) :=
  List.foldlRecOn ops _ resting_create fun _ hr op _ => hr.step op

/-- The stop lies inside a replacement: the matched intent's cell has been opened for
the replacing record and not yet committed. -/
def insideReplacement (h : SlotHistory) (op : SlotOp) (n : ℕ) : Bool :=
  (op.replaces h.slot).isSome && (op.call h.slot).publication.isSome &&
    decide ((op.call h.slot).prologue.length < n) && decide (n < (op.call h.slot).prologue.length + 18)

/-- A slot with a readable cell reports the record of one of its cells. -/
theorem scan_of_root (hc : (s.cell c).root ≠ none) :
    ∃ d r, s.scan = some r ∧ (s.cell d).root = some r.rootCause := by
  unfold EmergencySlot.scan
  cases hl : s.latest with
  | none =>
    have hboth : scanCell (s.cell 0) = none ∧ scanCell (s.cell 1) = none := by
      unfold EmergencySlot.latest at hl
      split at hl
      · exact ⟨by assumption, by assumption⟩
      · cases hl
      · cases hl
      · split_ifs at hl
    have hnone : ∀ d : Fin 2, scanCell (s.cell d) = none := Fin.forall_fin_two.2 hboth
    simp [EmergencyCell.root, hnone] at hc
  | some latest =>
    obtain ⟨v, hv⟩ := latest_scan (c := latest.1) (r := latest.2) hl
    exact ⟨latest.1, latest.2, rfl, by simp [EmergencyCell.root, hv]⟩

theorem Resting.genuine_stop (hr : Resting h) (op : SlotOp) (n : ℕ)
    (hc : (op.call h.slot).rootAt h.slot n c = some r) :
    r ∈ (h.stop op n).published.map EmergencyRecord.rootCause := by
  have hold : (h.slot.cell c).root = some r →
      r ∈ (h.stop op n).published.map EmergencyRecord.rootCause := by
    intro hroot
    simp only [SlotHistory.stop, List.map_append, List.mem_append]
    exact Or.inl (hr.genuine c r hroot)
  unfold SlotCall.rootAt at hc
  cases hp : (op.call h.slot).publication with
  | none => rw [hp] at hc; exact hold hc
  | some p =>
    simp only [hp] at hc
    split_ifs at hc with ht hn hn'
    · exact hold hc
    · simp only [SlotHistory.stop, SlotCall.completed, hp, if_pos (Nat.not_lt.1 hn')]
      simp [← Option.some.inj hc]
    · exact hold hc

/-- While some record has been published and no replacement is under way, some cell
is readable at every stop. -/
theorem Resting.readable_stop (hr : Resting h) (op : SlotOp) (n : ℕ)
    (hin : h.insideReplacement op n = false) (hne : (h.stop op n).published ≠ []) :
    ∃ c, (op.call h.slot).rootAt h.slot n c ≠ none := by
  unfold SlotCall.rootAt
  cases hp : (op.call h.slot).publication with
  | none =>
    refine hr.readable ?_
    simpa [SlotHistory.stop, SlotCall.completed, hp] using hne
  | some p =>
    dsimp only
    by_cases hdone : (op.call h.slot).prologue.length + 18 ≤ n
    · refine ⟨p.target, ?_⟩
      rw [if_pos rfl, if_neg (by omega), if_neg (by omega)]
      simp
    · have hpub : h.published ≠ [] := by
        simpa [SlotHistory.stop, SlotCall.completed, hp, hdone] using hne
      by_cases hstart : n ≤ (op.call h.slot).prologue.length
      · obtain ⟨c, hc⟩ := hr.readable hpub
        refine ⟨c, ?_⟩
        split_ifs
        · exact hc
        · exact hc
      · -- the target is open, and it is not a matched intent's cell
        have hnone : op.replaces h.slot = none := by
          cases hrep : op.replaces h.slot with
          | none => rfl
          | some c =>
            simp [insideReplacement, hrep, hp] at hin
            omega
        have htarget : p.target = h.slot.targetCell := by
          rw [(call_shape h.slot op).target_eq hp, hnone]
          rfl
        obtain ⟨c, hne', hc⟩ := hr.targetCell_spares.2 (hr.readable hpub)
        refine ⟨c, ?_⟩
        rw [if_neg (htarget ▸ hne')]
        exact hc

/-- Crash consistency of the slot at every stop of every run. Outside a replacement a
published slot reports a completely published record. The pinned intent stays readable
until a publication completes, and beyond if the call does not replace it. Inside a
replacement the intent is unreadable and the other cell is untouched. -/
theorem stop_consistent (ops : List SlotOp) (op : SlotOp) (n : ℕ) :
    let h := run ops
    let stopped := h.stop op n
    (h.insideReplacement op n = false → stopped.published ≠ [] →
      ∃ r, stopped.slot.scan = some r ∧
        r.rootCause ∈ stopped.published.map EmergencyRecord.rootCause) ∧
    (∀ c : Fin 2, h.slot.pinnedCell = UInt32.ofNat (c + 1) →
      ∃ intent, intent.isTerminationIntent = true ∧ (h.slot.cell c).root = some intent ∧
        (op.replaces h.slot = none ∨
            h.insideReplacement op n = false ∧ (op.call h.slot).completed n = [] →
          (stopped.slot.cell c).root = some intent)) ∧
    (h.insideReplacement op n = true →
      ∃ c, op.replaces h.slot = some c ∧ (stopped.slot.cell c).root = none ∧
        ∀ d, d ≠ c → (stopped.slot.cell d).root = (h.slot.cell d).root) := by
  intro h stopped
  have hr : Resting h := resting_run ops
  have hshape := call_shape h.slot op
  have hroot : ∀ c, (stopped.slot.cell c).root = (op.call h.slot).rootAt h.slot n c :=
    root_stop hshape hr.version_ne hr.version_and_one n
  refine ⟨fun hin hne => ?_, fun c hpin => ?_, fun hin => ?_⟩
  · obtain ⟨c, hc⟩ := hr.readable_stop op n hin hne
    rw [← hroot] at hc
    obtain ⟨d, r, hscan, hd⟩ := scan_of_root hc
    rw [hroot] at hd
    exact ⟨r, hscan, hr.genuine_stop op n hd⟩
  · obtain ⟨intent, hi, hti⟩ := hr.pinned c hpin
    refine ⟨intent, hti, hi, fun hcase => ?_⟩
    rw [hroot, SlotCall.rootAt]
    cases hp : (op.call h.slot).publication with
    | none => exact hi
    | some p =>
      dsimp only
      by_cases ht : c = p.target
      · -- the pinned cell is only opened by a call that replaces it
        have hrep : op.replaces h.slot ≠ none := by
          intro hnone
          apply hr.targetCell_spares.1 c hpin
          rw [ht, hshape.target_eq hp, hnone]
          rfl
        obtain ⟨hin, hdone⟩ := hcase.resolve_left hrep
        have hlt : ¬ (op.call h.slot).prologue.length + 18 ≤ n := by
          intro hle
          simp [SlotCall.completed, hp, hle] at hdone
        have hle : n ≤ (op.call h.slot).prologue.length := by
          by_contra hgt
          simp [insideReplacement, Option.isSome_iff_ne_none, hrep, hp] at hin
          omega
        rw [if_pos ht, if_pos hle, hi]
      · rw [if_neg ht, hi]
  · simp only [insideReplacement, Bool.and_eq_true, Option.isSome_iff_exists, decide_eq_true_eq] at hin
    obtain ⟨⟨⟨⟨c, hc⟩, p, hp⟩, hstart⟩, hend⟩ := hin
    have htarget : p.target = c := by rw [hshape.target_eq hp, hc]; rfl
    refine ⟨c, hc, ?_, fun d hd => ?_⟩
    · rw [hroot, SlotCall.rootAt, hp]
      simp only [htarget, if_true]
      rw [if_neg (by omega), if_pos hend]
    · rw [hroot, SlotCall.rootAt, hp]
      simp only [htarget, if_neg hd]

/-- The intent of a thread that sent itself signal 9. -/
def killIntent : EmergencyRecord := ⟨14, 7, 1, 0, 0, 9, 130, 0, 0⟩

/-- A stop with the cancelled intent's cell just opened leaves the slot unreadable:
one publication has completed, the pinned intent is gone, and nothing else is there. -/
theorem replacement_stop_unreadable :
    let h := run [.writeEmergency killIntent]
    let stopped := h.stop (.replacePinnedTermination 7 130 9 ⟨11, 7, 2, 0, 0, 0, 9, 0, 0⟩) 4
    stopped.published ≠ [] ∧ h.slot.pinnedCell = 1 ∧ (h.slot.cell 0).root = some killIntent ∧
      stopped.published = h.published ∧ (stopped.slot.cell 0).root = none ∧ stopped.slot.scan = none := by
  decide +kernel

end SlotHistory

end QTrace.Flight
