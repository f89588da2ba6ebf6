import QTrace.Flight.EmergencyRuns

/-! Coverage gaps over runs of complete calls on one slot. Every call but one asks
whether the newest cell is a coverage gap before it publishes, so a gap stays in place
as long as it is the newest record. `replace_pinned_termination` does not ask: it
publishes over the pinned intent, the gap becomes the older cell, and the next
publication takes it. -/

namespace QTrace.Flight

/-- The calls on one slot, with a bare `increment_dropped_coverage_gap`. -/
inductive GapOp where
  | slot (op : SlotOp)
  | incrementDroppedCoverageGap

namespace GapOp

def call (s : EmergencySlot) : GapOp → SlotCall
  | .slot op => op.call s
  | .incrementDroppedCoverageGap => s.incrementDroppedCoverageGap

/-- The pinned cell the call is going to overwrite. -/
def replaces (s : EmergencySlot) : GapOp → Option (Fin 2)
  | .slot op => op.replaces s
  | .incrementDroppedCoverageGap => none

end GapOp

namespace EmergencySlot

/-- The slot after a complete call. -/
def after (s : EmergencySlot) (op : GapOp) : EmergencySlot := s.storeAll (op.call s).stores

def afterAll (s : EmergencySlot) (ops : List GapOp) : EmergencySlot := ops.foldl after s

/-- The dropped count of cell `c`, if the cell holds the gap `gap`. -/
def gapCount (s : EmergencySlot) (c : Fin 2) (gap : EmergencyRecord) : Option UInt32 :=
  match scanCell (s.cell c) with
  | none => none
  | some (r, _) =>
    if r.isCoverageGap ∧ r.tid = gap.tid ∧ r.sequence = gap.sequence ∧ r.flags = gap.flags then
      some r.signalCode
    else none

/-- The call does not cancel a pinned intent while the slot reports a coverage gap. -/
def Spares (s : EmergencySlot) (op : GapOp) : Prop := s.reportsGap = true → op.replaces s = none

instance (s : EmergencySlot) (op : GapOp) : Decidable (s.Spares op) :=
  inferInstanceAs (Decidable (_ → _))

/-- No call of a run cancels a pinned intent under a reported coverage gap. -/
def SparesAll : EmergencySlot → List GapOp → Prop
  | _, [] => True
  | s, op :: ops => s.Spares op ∧ (s.after op).SparesAll ops

theorem afterAll_append (s : EmergencySlot) (xs ys : List GapOp) :
    s.afterAll (xs ++ ys) = (s.afterAll xs).afterAll ys := List.foldl_append

end EmergencySlot

theorem GapOp.call_shape (s : EmergencySlot) (op : GapOp) : CallShape s (op.replaces s) (op.call s) := by
  cases op with
  | slot op => exact Flight.call_shape s op
  | incrementDroppedCoverageGap =>
    have hshape := incrementDroppedCoverageGap_shape (s := s) none [] (by simp) rfl rfl rfl
    exact hshape

/-- The cells after a complete call. -/
inductive CellStep (s s' : EmergencySlot) (target : Fin 2) : Option Publication → Prop where
  | same (hcell : s'.cell = s.cell) (hnext : s'.nextVersion = s.nextVersion) :
      CellStep s s' target none
  | dropped (c : Fin 2) (existing : EmergencyRecord) (count : UInt32)
      (hlatest : s.latest = some (c, existing)) (hgap : existing.isCoverageGap = true)
      (hcell : s'.cell = Function.update s.cell c (Function.update (s.cell c) 11 count))
      (hnext : s'.nextVersion = s.nextVersion) : CellStep s s' target none
  | publish (record : EmergencyRecord)
      (hflags : record.flags &&& emergencyCommitted = 0) (hbound : s.nextVersion ≤ 0xffffffff - 2)
      (hcell : s'.cell = Function.update s.cell target
        ((s.cell target).write (Publication.words ⟨target, record, s.nextVersion⟩)))
      (hnext : s'.nextVersion = s.nextVersion + 2) :
      CellStep s s' target (some ⟨target, record, s.nextVersion⟩)

theorem after_step (s : EmergencySlot) (op : GapOp) :
    CellStep s (s.after op) ((op.replaces s).getD s.targetCell) (op.call s).publication := by
  have hshape := op.call_shape s
  unfold EmergencySlot.after
  generalize op.call s = call at hshape
  cases hshape with
  | quiet stores result hmeta hclaim hversion hpin =>
    have hstores : SlotCall.stores ⟨stores, none, [], result⟩ = stores := by
      simp [SlotCall.stores, SlotCall.publicationStores]
    rw [hstores]
    exact .same (cell_storeAll_of_metadata _ _ hmeta) hversion
  | dropped stores c existing count hmeta hclaim hversion hpin hlatest hgap =>
    have hstores : SlotCall.stores ⟨stores ++ [.word c 11 count], none, [], true⟩ =
        stores ++ [.word c 11 count] := by
      simp [SlotCall.stores, SlotCall.publicationStores]
    have hcell : (s.storeAll stores).cell = s.cell := cell_storeAll_of_metadata _ _ hmeta
    rw [hstores, storeAll_append]
    refine .dropped c existing count hlatest hgap ?_ hversion
    rw [← hcell]
    rfl
  | publish prologue record hmeta hclaim hversion hpin hflags hbound =>
    have hcell : (s.storeAll prologue).cell = s.cell := cell_storeAll_of_metadata _ _ hmeta
    rw [← List.take_length (l := SlotCall.stores _), ← EmergencySlot.stop, SlotHistory.metadata_publish]
    refine .publish record hflags hbound ?_ ?_
    · rw [hcell]
      split_ifs <;> rfl
    · split_ifs <;> exact hversion

/-- The next version is usable and lies above every readable cell. -/
structure Versioned (s : EmergencySlot) : Prop where
  version_ne : s.nextVersion ≠ 0
  version_even : s.nextVersion &&& 1 = 0
  below : ∀ c r v, scanCell (s.cell c) = some (r, v) → v < s.nextVersion

theorem versioned_create : Versioned .create where
  version_ne := by decide
  version_even := by decide
  below c r v h := by
    have hnone : scanCell (fun _ => 0) = none := by decide
    exact absurd (h.symm.trans hnone) (by simp)

variable {v : UInt32}

theorem version_add_two (hbound : v ≤ 0xffffffff - 2) : v < v + 2 ∧ v + 2 ≠ 0 := by
  have hnat : v.toNat ≤ 4294967293 := hbound
  have hadd : (v + 2).toNat = v.toNat + 2 := by
    rw [UInt32.toNat_add]
    show (v.toNat + 2) % 2 ^ 32 = _
    omega
  constructor
  · rw [UInt32.lt_iff_toNat_lt, hadd]
    omega
  · intro h0
    rw [h0] at hadd
    simp at hadd

theorem and_one_add_two (heven : v &&& 1 = 0) : (v + 2) &&& 1 = 0 := by
  have hv : v.toNat % 2 = 0 := by
    have := congrArg UInt32.toNat heven
    rwa [UInt32.toNat_and, show (1 : UInt32).toNat = 1 from rfl, Nat.and_one_is_mod] at this
  apply UInt32.toNat_inj.1
  rw [UInt32.toNat_and, show (1 : UInt32).toNat = 1 from rfl, Nat.and_one_is_mod, UInt32.toNat_add]
  show (v.toNat + 2) % 2 ^ 32 % 2 = 0
  omega

variable {s : EmergencySlot} {c : Fin 2} {r : EmergencyRecord}

theorem Versioned.after (hs : Versioned s) (op : GapOp) : Versioned (s.after op) := by
  have hstep := after_step s op
  generalize (op.call s).publication = p at hstep
  generalize s.after op = s' at hstep
  cases hstep with
  | same hcell hnext =>
    exact ⟨hnext ▸ hs.version_ne, hnext ▸ hs.version_even, by rw [hcell, hnext]; exact hs.below⟩
  | dropped c existing count hlatest hgap hcell hnext =>
    obtain ⟨v, hscan⟩ := latest_scan hlatest
    refine ⟨hnext ▸ hs.version_ne, hnext ▸ hs.version_even, fun d r w hd => ?_⟩
    rw [hcell] at hd
    rw [hnext]
    by_cases hdc : d = c
    · subst hdc
      rw [Function.update_self, scanCell_update_dropped hscan hgap] at hd
      cases hd
      exact hs.below d existing v hscan
    · rw [Function.update_of_ne hdc] at hd
      exact hs.below d r w hd
  | publish record hflags hbound hcell hnext =>
    obtain ⟨hlt, hne⟩ := version_add_two hbound
    refine ⟨hnext ▸ hne, hnext ▸ and_one_add_two hs.version_even, fun d r w hd => ?_⟩
    rw [hcell] at hd
    rw [hnext]
    by_cases hdt : d = (op.replaces s).getD s.targetCell
    · subst hdt
      rw [Function.update_self, scanCell_write_words _ _ hflags hs.version_ne hs.version_even] at hd
      cases hd
      exact hlt
    · rw [Function.update_of_ne hdt] at hd
      exact UInt32.lt_trans (hs.below d r w hd) hlt

theorem versioned_afterAll (ops : List GapOp) : Versioned (EmergencySlot.create.afterAll ops) :=
  List.foldlRecOn ops _ versioned_create fun _ hs op _ => hs.after op

theorem latest_eq (hc : scanCell (s.cell c) = some (r, v))
    (hother : ∀ d q w, d ≠ c → scanCell (s.cell d) = some (q, w) → w < v) : s.latest = some (c, r) := by
  unfold EmergencySlot.latest
  obtain rfl | rfl : c = 0 ∨ c = 1 := by omega
  · rw [hc]
    cases h1 : scanCell (s.cell 1) with
    | none => rfl
    | some second =>
      have hlt : second.2 < v := hother 1 _ _ (by decide) h1
      exact if_neg (UInt32.not_lt.2 (UInt32.le_of_lt hlt))
  · rw [hc]
    cases h0 : scanCell (s.cell 0) with
    | none => rfl
    | some first => exact if_pos (hother 0 _ _ (by decide) h0)

variable {op : GapOp}

theorem Versioned.latest_after (hs : Versioned s) {p : Publication} (hp : (op.call s).publication = some p) :
    (s.after op).latest = some (p.target, p.record) := by
  have hstep := after_step s op
  rw [hp] at hstep
  cases hstep with
  | publish record hflags hbound hcell hnext =>
    refine latest_eq (v := s.nextVersion) ?_ fun d q w hd hq => ?_
    · rw [hcell, Function.update_self]
      exact scanCell_write_words _ _ hflags hs.version_ne hs.version_even
    · rw [hcell, Function.update_of_ne hd] at hq
      exact hs.below d q w hq

theorem reportsGap_of_latest (h : s.latest = some (c, r)) (hgap : r.isCoverageGap = true) :
    s.reportsGap = true := by
  simp [EmergencySlot.reportsGap, EmergencySlot.scan, h, hgap]

/-- Under a reported gap `increment_dropped_coverage_gap` counts up to the largest word. -/
theorem incrementDroppedCoverageGap_of_gap (h : s.latest = some (c, r)) (hgap : r.isCoverageGap = true) :
    s.incrementDroppedCoverageGap = if s.cell c 11 = 0xffffffff then .returns [] true
      else .returns [.word c 11 (s.cell c 11 + 1)] true := by
  simp [EmergencySlot.incrementDroppedCoverageGap, h, hgap]

/-- Counting one more failure on cell `c`, saturating. -/
inductive EmergencySlot.Counted (s s' : EmergencySlot) (c : Fin 2) : Prop
  | kept (hcell : s'.cell = s.cell)
  | raised (hmax : s.cell c 11 ≠ 0xffffffff)
      (hcell : s'.cell = Function.update s.cell c (Function.update (s.cell c) 11 (s.cell c 11 + 1)))

theorem increment_counted (h : s.latest = some (c, r)) (hgap : r.isCoverageGap = true) (stores : List SlotStore)
    (hmeta : ∀ x ∈ stores, x.IsMetadata) :
    s.Counted (s.storeAll (s.incrementDroppedCoverageGap.behind stores).stores) c := by
  have hcell : (s.storeAll stores).cell = s.cell := cell_storeAll_of_metadata _ _ hmeta
  rw [incrementDroppedCoverageGap_of_gap h hgap]
  split_ifs with hmax
  · refine .kept ?_
    simpa [SlotCall.behind, SlotCall.returns, SlotCall.stores, SlotCall.publicationStores] using hcell
  · refine .raised hmax ?_
    simp only [SlotCall.behind, SlotCall.returns, SlotCall.stores, SlotCall.publicationStores,
      List.append_nil, storeAll_append]
    rw [← hcell]
    rfl

theorem returns_counted (c : Fin 2) {stores : List SlotStore} (result : Bool)
    (hmeta : ∀ x ∈ stores, x.IsMetadata) :
    s.Counted (s.storeAll (SlotCall.returns stores result).stores) c := by
  refine .kept ?_
  simpa [SlotCall.returns, SlotCall.stores, SlotCall.publicationStores] using
    cell_storeAll_of_metadata stores s hmeta

/-- Under a reported gap a call that cancels no intent at most counts on the gap. -/
theorem counted_after (h : s.latest = some (c, r)) (hgap : r.isCoverageGap = true)
    (hreplaces : op.replaces s = none) : s.Counted (s.after op) c := by
  have hreports := reportsGap_of_latest h hgap
  have hclaims : ∀ x ∈ [SlotStore.claim 1, SlotStore.claim 0], x.IsMetadata := by
    simp [SlotStore.IsMetadata]
  unfold EmergencySlot.after
  cases op with
  | incrementDroppedCoverageGap => exact increment_counted h hgap [] (by simp)
  | slot op =>
    cases op with
    | writeEmergency record =>
      simp only [GapOp.call, SlotOp.call, EmergencySlot.writeEmergency, hreports, if_true]
      split_ifs
      · exact returns_counted c false (by simp)
      · exact returns_counted c false (by simp)
      · exact returns_counted c false hclaims
    | replacePinnedTermination tid syscallNumber signalNumber record =>
      have hnone : s.matchedCell syscallNumber signalNumber record = none := hreplaces
      simp only [GapOp.call, SlotOp.call, EmergencySlot.replacePinnedTermination, hnone]
      split_ifs
      · exact returns_counted c false (by simp)
      · exact returns_counted c false (by simp)
      · exact returns_counted c true hclaims
    | writeCoverageGapSticky spurious record =>
      simp only [GapOp.call, SlotOp.call, EmergencySlot.writeCoverageGapSticky, hreports, if_true]
      split_ifs
      · exact returns_counted c false (by simp)
      · split
        · exact returns_counted c false (by simp)
        · exact increment_counted h hgap [] (by simp)
        · exact increment_counted h hgap _ hclaims

/-- The newest cell is `c`, and it holds the gap `gap` with a dropped count. -/
structure Latched (s : EmergencySlot) (c : Fin 2) (gap : EmergencyRecord) (count : UInt32) : Prop where
  latest : s.latest = some (c, { gap with signalCode := count })
  gap : gap.isCoverageGap = true

variable {gap : EmergencyRecord} {count : UInt32}

theorem Latched.gapCount (h : Latched s c gap count) : s.gapCount c gap = some count := by
  obtain ⟨v, hv⟩ := latest_scan h.latest
  have hgap : ({ gap with signalCode := count } : EmergencyRecord).isCoverageGap = true := h.gap
  simp [EmergencySlot.gapCount, hv, hgap]

theorem signalCode_of_scanCell {c : EmergencyCell} (h : scanCell c = some (r, v)) : r.signalCode = c 11 := by
  unfold scanCell at h
  split_ifs at h
  cases h
  rfl

variable {s' : EmergencySlot}

theorem latest_of_cell (h : s'.cell = s.cell) : s'.latest = s.latest := by
  simp only [EmergencySlot.latest, h]

theorem latest_update_dropped (h : s.latest = some (c, r)) (hgap : r.isCoverageGap = true) (count : UInt32)
    (hcell : s'.cell = Function.update s.cell c (Function.update (s.cell c) 11 count)) :
    s'.latest = some (c, { r with signalCode := count }) := by
  obtain ⟨v, hscan⟩ := latest_scan h
  have hnew := scanCell_update_dropped hscan hgap count
  unfold EmergencySlot.latest at h ⊢
  obtain rfl | rfl : c = 0 ∨ c = 1 := by omega
  · have h1 : s'.cell 1 = s.cell 1 := by rw [hcell, Function.update_of_ne (by decide)]
    rw [hscan] at h
    rw [hcell, Function.update_self, hnew, ← hcell, h1]
    cases hother : scanCell (s.cell 1) with
    | none => rfl
    | some second =>
      simp only [hother] at h ⊢
      split_ifs at h ⊢
      · cases h
      · rfl
  · have h0 : s'.cell 0 = s.cell 0 := by rw [hcell, Function.update_of_ne (by decide)]
    rw [hscan] at h
    rw [h0, hcell, Function.update_self, hnew]
    cases hother : scanCell (s.cell 0) with
    | none => rfl
    | some first =>
      simp only [hother] at h ⊢
      split_ifs at h ⊢
      · rfl
      · cases h

theorem Latched.counted (h : Latched s c gap count) (hstep : s.Counted s' c) :
    ∃ m, Latched s' c gap m ∧ count ≤ m := by
  obtain ⟨v, hv⟩ := latest_scan h.latest
  have hword : count = s.cell c 11 := signalCode_of_scanCell hv
  obtain hcell | ⟨hmax, hcell⟩ := hstep
  · exact ⟨count, ⟨(latest_of_cell hcell).trans h.latest, h.gap⟩, UInt32.le_refl count⟩
  · refine ⟨s.cell c 11 + 1, ⟨latest_update_dropped h.latest h.gap _ hcell, h.gap⟩, ?_⟩
    have hlt : (s.cell c 11).toNat < 4294967295 := by
      have hne : (s.cell c 11).toNat ≠ 4294967295 := fun heq => hmax (UInt32.toNat_inj.1 heq)
      have := (s.cell c 11).toNat_lt
      omega
    rw [hword, UInt32.le_iff_toNat_le, UInt32.toNat_add]
    show _ ≤ ((s.cell c 11).toNat + 1) % 2 ^ 32
    omega

/-- A latched gap stays latched over a run that spares it, and its count only grows. -/
theorem Latched.afterAll : ∀ (ops : List GapOp) {s : EmergencySlot}
    {count : UInt32}, Latched s c gap count → s.SparesAll ops →
    ∃ m, Latched (s.afterAll ops) c gap m ∧ count ≤ m
  | [], _, count, h, _ => ⟨count, h, UInt32.le_refl count⟩
  | op :: ops, s, count, h, hspares => by
    have hnone : op.replaces s = none := hspares.1 (reportsGap_of_latest h.latest h.gap)
    obtain ⟨m, hm, hle⟩ := h.counted (counted_after h.latest h.gap hnone)
    obtain ⟨n, hn, hle'⟩ := hm.afterAll ops hspares.2
    exact ⟨n, hn, UInt32.le_trans hle hle'⟩

theorem sparesAll_append {xs ys : List GapOp} : ∀ {s : EmergencySlot},
    s.SparesAll (xs ++ ys) → s.SparesAll xs ∧ (s.afterAll xs).SparesAll ys := by
  induction xs with
  | nil => exact fun h => ⟨trivial, h⟩
  | cons op xs ih =>
    intro s h
    obtain ⟨hxs, hys⟩ := ih h.2
    exact ⟨⟨h.1, hxs⟩, hys⟩

/-- A published coverage gap stays readable in its cell through every run in which no
pinned intent is cancelled under a reported gap, and its dropped count never decreases. -/
theorem gap_sticks (before : List GapOp) (op : GapOp) (later : List GapOp) (p : Publication)
    (hp : (op.call (EmergencySlot.create.afterAll before)).publication = some p)
    (hgap : p.record.isCoverageGap = true)
    (hspares : (EmergencySlot.create.afterAll (before ++ [op])).SparesAll later) :
    ∃ c, ∀ mid rest tail : List GapOp, later = mid ++ rest ++ tail →
      ∃ m n, (EmergencySlot.create.afterAll (before ++ op :: mid)).gapCount c p.record = some m ∧
        (EmergencySlot.create.afterAll (before ++ op :: (mid ++ rest))).gapCount c p.record = some n ∧
        m ≤ n := by
  set s := EmergencySlot.create.afterAll (before ++ [op]) with hs
  have hrun : ∀ ops, EmergencySlot.create.afterAll (before ++ op :: ops) = s.afterAll ops := by
    intro ops
    rw [hs, ← EmergencySlot.afterAll_append, List.append_assoc, List.singleton_append]
  have hstart : Latched s p.target p.record p.record.signalCode := by
    refine ⟨?_, hgap⟩
    rw [hs, EmergencySlot.afterAll_append]
    exact (versioned_afterAll before).latest_after hp
  refine ⟨p.target, fun mid rest tail hlater => ?_⟩
  rw [hlater] at hspares
  obtain ⟨hboth, -⟩ := sparesAll_append hspares
  obtain ⟨hmid, hrest⟩ := sparesAll_append hboth
  obtain ⟨m, hm, -⟩ := hstart.afterAll mid hmid
  obtain ⟨n, hn, hle⟩ := hm.afterAll rest hrest
  refine ⟨m, n, ?_, ?_, hle⟩
  · rw [hrun]
    exact hm.gapCount
  · rw [hrun, EmergencySlot.afterAll_append]
    exact hn.gapCount

deriving instance DecidableEq for Publication

/-- A coverage gap of the thread that sent itself a signal. -/
def killGap : EmergencyRecord := ⟨UInt32.ofNat RecordType.coverageGap.code, 7, 2, 0, 0, 0, 0, 0, 0⟩

/-- The gap is counted twice and stays in the second cell. -/
theorem gap_sticks_killGap :
    ∃ c, ∀ mid rest tail : List GapOp,
      [.slot (.writeCoverageGapSticky 0 killGap), .incrementDroppedCoverageGap] = mid ++ rest ++ tail →
      ∃ m n, (EmergencySlot.create.afterAll ([.slot (.writeEmergency SlotHistory.killIntent)] ++
          .slot (.writeCoverageGapSticky 0 killGap) :: mid)).gapCount c killGap = some m ∧
        (EmergencySlot.create.afterAll ([.slot (.writeEmergency SlotHistory.killIntent)] ++
          .slot (.writeCoverageGapSticky 0 killGap) :: (mid ++ rest))).gapCount c killGap = some n ∧ m ≤ n :=
  gap_sticks [.slot (.writeEmergency SlotHistory.killIntent)] (.slot (.writeCoverageGapSticky 0 killGap))
    [.slot (.writeCoverageGapSticky 0 killGap), .incrementDroppedCoverageGap] ⟨1, killGap, 4⟩
    (by decide +kernel) (by decide) ⟨by decide +kernel, by decide +kernel, trivial⟩

/-- The intent is cancelled after the gap was published; the next emergency record
then takes the cell of the gap. -/
theorem gap_lost_after_cancel :
    let gapped := [GapOp.slot (.writeEmergency SlotHistory.killIntent),
      .slot (.writeCoverageGapSticky 0 killGap)]
    let cancelled := gapped ++ [.slot (.replacePinnedTermination 7 130 9 ⟨11, 7, 3, 0, 0, 0, 9, 0, 0⟩)]
    let overwritten := cancelled ++ [.slot (.writeEmergency ⟨11, 7, 4, 0, 0, 0, 11, 0, 0⟩)]
    (EmergencySlot.create.afterAll gapped).gapCount 1 killGap = some 0 ∧
      (EmergencySlot.create.afterAll cancelled).gapCount 1 killGap = some 0 ∧
      ∀ c, (EmergencySlot.create.afterAll overwritten).gapCount c killGap = none := by
  decide +kernel

end QTrace.Flight
