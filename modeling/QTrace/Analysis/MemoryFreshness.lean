import QTrace.Lib.ResetFold
import QTrace.Analysis.Memory

/-! When a memory state shows an overwritten value. A write whose capture does not reach a
byte leaves the byte as it was, so that an older value stays on show; this file says for
which histories that happens. -/

namespace QTrace.Analysis

open Lib

namespace EventTable

variable {t : EventTable}

theorem row_of_eventKey {key : EventKey} {row : ℕ} (h : t.eventKey row = some key) :
    t.rowForSourceKey key = some row := by
  obtain ⟨e, he, rfl⟩ := Option.map_eq_some_iff.mp h
  obtain ⟨hlt, rfl⟩ := List.getElem?_eq_some_iff.mp he
  refine List.findIdx?_eq_some_iff_getElem.mpr ⟨hlt, by simp, fun j hj => ?_⟩
  have hne := List.pairwise_iff_getElem.mp t.keys_nodup j row (by simp; omega) (by simpa using hlt) hj
  simpa using hne

end EventTable

namespace MemoryRow

/-- The access touches the byte. -/
def Covers (access : MemoryRow) (address : ℕ) : Prop :=
  access.address ≤ address ∧ address < access.endExclusive

/-- The byte that the access is known to have left. -/
def writtenByte (access : MemoryRow) (address : ℕ) : Option UInt8 :=
  match access.after with
  | .ok (.captured bytes) => byteAt access.address (captureExtent bytes access.size) address
  | _ => none

/-- The access is known to have destroyed the byte. -/
def Damages (access : MemoryRow) (address : ℕ) : Prop :=
  access.after = .ok .unavailable ∧ access.Covers address

/-- The access has an effect on the byte that the history knows of. -/
def Reaches (access : MemoryRow) (address : ℕ) : Prop :=
  (access.writtenByte address).isSome = true ∨ access.Damages address

theorem covers_of_writtenByte {access : MemoryRow} {address : ℕ}
    (h : (access.writtenByte address).isSome = true) : access.Covers address := by
  unfold writtenByte at h
  split at h
  · unfold byteAt at h
    split at h
    · rename_i bytes _ hle
      obtain ⟨b, hb⟩ := Option.isSome_iff_exists.mp h
      have hlt := (List.getElem?_eq_some_iff.mp hb).1
      rw [captureExtent, List.length_take] at hlt
      exact ⟨hle, by unfold endExclusive; omega⟩
    · cases h
  · cases h

end MemoryRow

namespace MemoryStore

variable (store : MemoryStore) (q : MemoryQuery)

/-- A write that the state of the target takes into account, before the target. -/
structure InScope (row : ℕ) (key : EventKey) (access : MemoryRow) : Prop where
  eventKey : store.eventKey row = some key
  memory : store.memory row = some access
  artifact : key.artifact = q.key.artifact
  timeline : key.timeline = q.key.timeline
  thread : store.globalOrdering = true ∨ key.tid = q.key.tid
  writes : access.direction.writes = true
  before : row < q.target

/-- The discontinuity at a row clears the byte of a write of thread `tid`. -/
structure Clears (row : ℕ) (tid : Option UInt32) (address : ℕ) (key : EventKey)
    (evidence : RangeDomain × RangeBounds) (first last : ℕ) : Prop where
  upTo : row ≤ q.target
  eventKey : store.eventKey row = some key
  artifact : key.artifact = q.key.artifact
  timeline : key.timeline = q.key.timeline
  thread : key.tid = none ∨ key.tid = q.key.tid
  discontinuity : store.discontinuity row = .ok evidence
  range : affected q.start q.stop evidence = some (first, last)
  inside : first ≤ address ∧ address < last
  own : key.tid = none ∨ tid = key.tid

/-- After the step, a byte written by thread `tid` no longer stands. -/
def Overrides (address : ℕ) (tid : Option UInt32) : HistoryStep → Prop
  | .access row => ∃ key access, store.InScope q row key access ∧ access.Reaches address
  | .gap row => ∃ key evidence first last, store.Clears q row tid address key evidence first last

/-- A write of another thread of the timeline. -/
structure Foreign (row : ℕ) (key : EventKey) (access : MemoryRow) : Prop where
  eventKey : store.eventKey row = some key
  memory : store.memory row = some access
  artifact : key.artifact = q.key.artifact
  timeline : key.timeline = q.key.timeline
  thread : key.tid ≠ q.key.tid
  writes : access.direction.writes = true

/-- A write of another thread touches the byte, and no order relates it to the target. -/
def Conflicted (address : ℕ) : Prop :=
  store.globalOrdering = false ∧
    ∃ row key access, store.Foreign q row key access ∧ access.Covers address

/-- The write at `row` is the last that the byte is known to have seen. -/
structure Standing (address : ℕ) (steps : List HistoryStep) (row : ℕ) (key : EventKey)
    (access : MemoryRow) : Prop where
  scope : store.InScope q row key access
  written : (access.writtenByte address).isSome = true
  step : .access row ∈ steps
  last : ∀ s ∈ steps, row < s.row → ¬ store.Overrides q address key.tid s

variable {store q}

/-- A cell after some steps: it holds a value exactly when some write still stands, and then
that write is its evidence. -/
structure Tracks (store : MemoryStore) (q : MemoryQuery) (steps : List HistoryStep)
    (cell : ByteState) : Prop where
  standing : cell.value.isSome = true → ∃ row key access,
    store.Standing q cell.address steps row key access ∧
      cell.evidence = some (memoryEvidence store row key access)
  shown : ∀ row key access, store.Standing q cell.address steps row key access →
    cell.value.isSome = true ∧ cell.evidence = some (memoryEvidence store row key access)

/-- What a step does to a cell. -/
structure StepEffect (store : MemoryStore) (q : MemoryQuery) (s : HistoryStep)
    (cell cell' : ByteState) : Prop where
  address : cell'.address = cell.address
  written : ∀ row key access, s = .access row → store.InScope q row key access →
    (access.writtenByte cell.address).isSome = true →
    cell'.value.isSome = true ∧ cell'.evidence = some (memoryEvidence store row key access)
  shown : cell'.value.isSome = true →
    (∃ row key access, s = .access row ∧ store.InScope q row key access ∧
      (access.writtenByte cell.address).isSome = true) ∨
    cell' = cell ∧ ∀ evidence, cell.evidence = some evidence →
      ¬ store.Overrides q cell.address evidence.tid s
  kept : ∀ evidence, cell.evidence = some evidence →
    ¬ store.Overrides q cell.address evidence.tid s → cell' = cell

variable {s : HistoryStep} {cell : ByteState} {access : MemoryRow} {capture : CaptureState} {p : Progress}
  {row address : ℕ} {key : EventKey} {cells : List ByteState} {conflicts : ℕ → Option MemoryEvidence}
  {steps : List HistoryStep} {evidence : MemoryEvidence} {gaps : List ℕ}

theorem Tracks.step {cell' : ByteState} (h : Tracks store q steps cell) (hs : ∀ s' ∈ steps, s'.row < s.row)
    (heffect : StepEffect store q s cell cell') :
    Tracks store q (steps ++ [s]) cell' := by
  constructor
  · intro hvalue
    rcases heffect.shown hvalue with ⟨row, key, access, rfl, hscope, hwritten⟩ | ⟨rfl, hover⟩
    · refine ⟨row, key, access, ⟨hscope, heffect.address ▸ hwritten, by simp, ?_⟩,
        (heffect.written row key access rfl hscope hwritten).2⟩
      intro s' hs' hlt
      rcases List.mem_append.mp hs' with hs' | hs'
      · exact absurd (hs s' hs') (not_lt.mpr hlt.le)
      · obtain rfl := List.mem_singleton.mp hs'
        exact absurd hlt (lt_irrefl row)
    · obtain ⟨row, key, access, hstand, hevidence⟩ := h.standing hvalue
      refine ⟨row, key, access, ⟨hstand.scope, hstand.written, by simp [hstand.step], ?_⟩, hevidence⟩
      intro s' hs' hlt
      rcases List.mem_append.mp hs' with hs' | hs'
      · exact hstand.last s' hs' hlt
      · obtain rfl := List.mem_singleton.mp hs'
        exact hover _ hevidence
  · intro row key access hstand
    rw [heffect.address] at hstand
    rcases List.mem_append.mp hstand.step with hmem | hmem
    · have hold : store.Standing q cell.address steps row key access :=
        ⟨hstand.scope, hstand.written, hmem, fun s' hs' => hstand.last s' (by simp [hs'])⟩
      obtain ⟨hvalue, hevidence⟩ := h.shown row key access hold
      rw [heffect.kept _ hevidence (hstand.last s (by simp) (hs _ hmem))]
      exact ⟨hvalue, hevidence⟩
    · exact heffect.written row key access (List.mem_singleton.mp hmem).symm hstand.scope hstand.written

theorem StepEffect.refl (h : ∀ tid, ¬ store.Overrides q cell.address tid s) : StepEffect store q s cell cell where
  address := rfl
  written := by
    rintro row key access rfl hscope hwritten
    exact absurd ⟨key, access, hscope, .inl hwritten⟩ (h none)
  shown := fun _ => .inr ⟨rfl, fun evidence _ => h evidence.tid⟩
  kept := fun _ _ _ => rfl

/-- What a capture does to a cell: it leaves it, or its evidence is the access, or no value
is left. For the capture after the access, the bytes that the access reaches say which. -/
theorem applyCapture_spec {target target' : List ByteState} {provenance : Provenance}
    (h : applyCapture target access capture provenance evidence = .ok target') :
    ∃ g : ByteState → ByteState, target' = target.map g ∧ ∀ cell,
      (g cell).address = cell.address ∧
      (g cell = cell ∨ (g cell).value = none ∨ (g cell).evidence = some evidence) ∧
      (access.after = .ok capture →
        ((access.writtenByte cell.address).isSome = true →
          (g cell).value.isSome = true ∧ (g cell).evidence = some evidence) ∧
        (access.Damages cell.address → (g cell).value = none) ∧
        (¬ access.Reaches cell.address → g cell = cell)) := by
  cases capture with
  | notCaptured =>
    obtain rfl : target = target' := by simpa [applyCapture] using h
    refine ⟨id, by simp, fun cell => ⟨rfl, .inl rfl, fun hafter => ?_⟩⟩
    refine ⟨fun hw => ?_, fun hd => ?_, fun _ => rfl⟩
    · simp [MemoryRow.writtenByte, hafter] at hw
    · exact absurd (hd.1.symm.trans hafter) (by simp)
  | unavailable =>
    obtain rfl := Except.ok.inj h
    refine ⟨_, rfl, fun cell => ?_⟩
    split
    · rename_i hcover
      refine ⟨rfl, .inr (.inl rfl), fun hafter => ⟨fun hw => ?_, fun _ => rfl, fun hno => ?_⟩⟩
      · simp [MemoryRow.writtenByte, hafter] at hw
      · exact absurd (.inr ⟨hafter, hcover⟩) hno
    · rename_i hcover
      refine ⟨rfl, .inl rfl, fun hafter => ⟨fun hw => ?_, fun hd => ?_, fun _ => rfl⟩⟩
      · simp [MemoryRow.writtenByte, hafter] at hw
      · exact absurd hd.2 hcover
  | captured bytes =>
    simp only [applyCapture, overlay] at h
    split at h
    · cases h
    · obtain rfl := Except.ok.inj h
      refine ⟨_, rfl, fun cell => ?_⟩
      have hbyte : access.after = .ok (.captured bytes) → access.writtenByte cell.address =
          byteAt access.address (captureExtent bytes access.size) cell.address := by
        intro hafter
        simp [MemoryRow.writtenByte, hafter]
      split
      · rename_i hnone
        refine ⟨rfl, .inl rfl, fun hafter => ⟨fun hw => ?_, fun hd => ?_, fun _ => rfl⟩⟩
        · simp [hbyte hafter, hnone] at hw
        · exact absurd (hd.1.symm.trans hafter) (by simp)
      · rename_i value hsome
        refine ⟨rfl, .inr (.inr rfl), fun hafter => ⟨fun _ => ⟨rfl, rfl⟩, fun hd => ?_, fun hno => ?_⟩⟩
        · exact absurd (hd.1.symm.trans hafter) (by simp)
        · exact absurd (.inl (by simp [hbyte hafter, hsome])) hno

/-- A cell of the state before or after the target that adds nothing to the bytes written
earlier but what the target itself shows. -/
def Borrowed (q : MemoryQuery) (lastWritten : List ByteState) (cell : ByteState) : Prop :=
  cell.value = none ∨ (∃ evidence, cell.evidence = some evidence ∧ evidence.key = q.key) ∨
    cell ∈ lastWritten

variable (store q) in
/-- What one round of the loop does. -/
structure Round (s : HistoryStep) (p p' : Progress) : Prop where
  cells : ∃ g : ByteState → ByteState, p'.lastWritten = p.lastWritten.map g ∧
    ∀ cell, StepEffect store q s cell (g cell)
  later : q.target < s.row → p' = p
  target : p'.targetSeen = p.targetSeen ∧ p'.before = p.before ∧ p'.after = p.after ∨
    s = .access q.target ∧ p'.lastWritten = p.lastWritten ∧
      ∀ cell, cell ∈ p'.before ∨ cell ∈ p'.after → Borrowed q p.lastWritten cell

theorem Round.refl (h : ∀ address tid, ¬ store.Overrides q address tid s) : Round store q s p p where
  cells := ⟨id, by simp, fun cell => .refl (h cell.address)⟩
  later := fun _ => rfl
  target := .inl ⟨rfl, rfl, rfl⟩

theorem not_overrides_access (h : ∀ key access, ¬ store.InScope q row key access) (address : ℕ)
    (tid : Option UInt32) : ¬ store.Overrides q address tid (.access row) := by
  rintro ⟨key, access, hscope, -⟩
  exact h key access hscope

theorem InScope.unique {key' : EventKey} {access' : MemoryRow} (h : store.InScope q row key access)
    (h' : store.InScope q row key' access') : key = key' ∧ access = access' :=
  ⟨Option.some.inj (h.eventKey.symm.trans h'.eventKey), Option.some.inj (h.memory.symm.trans h'.memory)⟩

/-- An earlier write of the history puts its capture into the cells. -/
theorem write_round (hscope : store.InScope q row key access) (hafter : access.after = .ok capture)
    (h : applyCapture p.lastWritten access capture .derived (memoryEvidence store row key access) = .ok cells) :
    Round store q (.access row) p { p with lastWritten := cells } := by
  obtain ⟨g, rfl, hg⟩ := applyCapture_spec h
  refine ⟨⟨g, rfl, fun cell => ?_⟩, fun hlt => ?_, .inl ⟨rfl, rfl, rfl⟩⟩
  · obtain ⟨haddress, -, hcell⟩ := hg cell
    obtain ⟨hwritten, hdamaged, hkept⟩ := hcell hafter
    have hover : ∀ tid, ¬ store.Overrides q cell.address tid (.access row) → ¬ access.Reaches cell.address :=
      fun tid hno hreach => hno ⟨key, access, hscope, hreach⟩
    refine ⟨haddress, ?_, fun hvalue => ?_, fun evidence _ hno => hkept (hover _ hno)⟩
    · rintro row' key' access' ⟨⟩ hscope' hw
      obtain ⟨rfl, rfl⟩ := hscope.unique hscope'
      exact hwritten hw
    · by_cases hreach : access.Reaches cell.address
      · rcases hreach with hw | hd
        · exact .inl ⟨row, key, access, rfl, hscope, hw⟩
        · simp [hdamaged hd] at hvalue
      · refine .inr ⟨hkept hreach, fun evidence _ => ?_⟩
        rintro ⟨key', access', hscope', hreach'⟩
        obtain ⟨rfl, rfl⟩ := hscope.unique hscope'
        exact hreach hreach'
  · exact absurd hscope.before (not_lt.mpr hlt.le)

/-- The target shows the bytes written earlier, overlaid with its own captures. -/
theorem target_borrowed {lastWritten cells' : List ByteState} {provenance : Provenance}
    (hkey : evidence.key = q.key) (h : applyCapture cells access capture provenance evidence = .ok cells')
    (hcells : ∀ cell ∈ cells, Borrowed q lastWritten cell) : ∀ cell ∈ cells', Borrowed q lastWritten cell := by
  obtain ⟨g, rfl, hg⟩ := applyCapture_spec h
  intro cell hcell
  obtain ⟨cell, hmem, rfl⟩ := List.mem_map.mp hcell
  obtain ⟨-, hcase | hcase | hcase, -⟩ := hg cell
  · rw [hcase]
    exact hcells cell hmem
  · exact .inl hcase
  · exact .inr (.inl ⟨evidence, hcase, hkey⟩)

variable {p' : Progress}

theorem accessRow_round (hkey : store.eventKey q.target = some q.key) (h : accessRow store q p row = .ok p') :
    Round store q (.access row) p p' := by
  have hkeep (hp : (.ok p : Except AnalysisError Progress) = .ok p') (h : ∀ key access, ¬ store.InScope q row key access) :
      Round store q (.access row) p p' := Except.ok.inj hp ▸ .refl (not_overrides_access h)
  unfold accessRow at h
  cases hk : store.eventKey row with
  | none => simp [hk] at h
  | some rowKey =>
    simp only [hk] at h
    split at h
    · rename_i hother
      refine hkeep h fun key access hscope => ?_
      obtain rfl := Option.some.inj (hk.symm.trans hscope.eventKey)
      rcases hother with hother | hother
      · exact hother hscope.artifact
      · exact hother hscope.timeline
    · rename_i hsame
      simp only [not_or, not_not] at hsame
      cases hm : store.memory row with
      | none =>
        simp only [hm] at h
        refine hkeep h fun key access hscope => ?_
        exact absurd (hm.symm.trans hscope.memory) (by simp)
      | some access =>
        simp only [hm] at h
        split at h
        · rename_i hthread
          refine hkeep h fun key access hscope => ?_
          obtain rfl := Option.some.inj (hk.symm.trans hscope.eventKey)
          rcases hscope.thread with ht | ht
          · simp [hthread.1] at ht
          · exact hthread.2 ht
        · rename_i hthread
          have hthread : store.globalOrdering = true ∨ rowKey.tid = q.key.tid := by grind
          split at h
          · rename_i hlate
            refine hkeep h fun key access hscope => ?_
            exact absurd hscope.before (not_lt.mpr hlate.le)
          · rename_i hlate
            split at h
            · rename_i hwrite
              simp only [bind_eq_ok, pure_eq_ok] at h
              obtain ⟨capture, hafter, cells, hcells, rfl⟩ := h
              exact write_round ⟨hk, hm, hsame.1, hsame.2, hthread, hwrite.2, hwrite.1⟩ hafter hcells
            · rename_i hwrite
              have hscope : ∀ key access, ¬ store.InScope q row key access := by
                intro key access' hscope
                obtain rfl := Option.some.inj (hm.symm.trans hscope.memory)
                exact hwrite ⟨hscope.before, hscope.writes⟩
              split at h
              · exact hkeep h hscope
              · rename_i htarget
                obtain rfl : row = q.target := not_not.mp htarget
                obtain rfl : rowKey = q.key := Option.some.inj (hk.symm.trans hkey)
                simp only [bind_eq_ok, pure_eq_ok] at h
                obtain ⟨observed, -, capture, -, before, hbefore, after, hafter, rfl⟩ := h
                have hb := target_borrowed rfl hbefore fun cell hcell => .inr (.inr hcell)
                refine ⟨⟨id, by simp, fun cell => .refl (not_overrides_access hscope cell.address)⟩,
                  fun hlt => absurd hlt (lt_irrefl _), .inr ⟨rfl, rfl, fun cell hcell => ?_⟩⟩
                rcases hcell with hcell | hcell
                · exact hb cell hcell
                · unfold bytesAfter at hafter
                  split at hafter
                  · obtain ⟨capture', -, hafter⟩ := bind_eq_ok.mp hafter
                    exact target_borrowed rfl hafter hb cell hcell
                  · obtain rfl := Except.ok.inj hafter
                    exact hb cell hcell

/-- A discontinuity of the history clears what it affects. -/
theorem clear_effect {first last : ℕ} {evidence : RangeDomain × RangeBounds} (hle : row ≤ q.target)
    (hk : store.eventKey row = some key) (hartifact : key.artifact = q.key.artifact)
    (htimeline : key.timeline = q.key.timeline) (hthread : key.tid = none ∨ key.tid = q.key.tid)
    (hevidence : store.discontinuity row = .ok evidence)
    (hrange : affected q.start q.stop evidence = some (first, last)) (cell : ByteState) :
    StepEffect store q (.gap row) cell
      (if first ≤ cell.address ∧ cell.address < last ∧
          (key.tid = none ∨ cell.evidence.all fun evidence => evidence.tid = key.tid) then
        { cell with value := none, provenance := .damaged, evidence := none }
      else cell) := by
  have hover : ∀ seen, cell.evidence = some seen → (store.Overrides q cell.address seen.tid (.gap row) ↔
      first ≤ cell.address ∧ cell.address < last ∧
        (key.tid = none ∨ cell.evidence.all fun evidence => evidence.tid = key.tid)) := by
    intro seen hseen
    simp only [hseen, Option.all_some, decide_eq_true_eq]
    constructor
    · rintro ⟨key', evidence', first', last', hclear⟩
      obtain rfl := Option.some.inj (hk.symm.trans hclear.eventKey)
      obtain rfl := Except.ok.inj (hevidence.symm.trans hclear.discontinuity)
      obtain ⟨rfl, rfl⟩ := Prod.mk.inj (Option.some.inj (hrange.symm.trans hclear.range))
      exact ⟨hclear.inside.1, hclear.inside.2, hclear.own⟩
    · rintro ⟨h1, h2, hown⟩
      exact ⟨key, evidence, first, last, hle, hk, hartifact, htimeline, hthread, hevidence, hrange,
        ⟨h1, h2⟩, hown⟩
  split
  · rename_i hclear
    refine ⟨rfl, by rintro _ _ _ ⟨⟩, fun hvalue => by simp at hvalue, fun seen hseen hno => ?_⟩
    exact absurd ((hover seen hseen).mpr hclear) hno
  · rename_i hclear
    refine ⟨rfl, by rintro _ _ _ ⟨⟩, fun _ => .inr ⟨rfl, fun seen hseen => ?_⟩, fun _ _ _ => rfl⟩
    exact fun hno => hclear ((hover seen hseen).mp hno)

theorem gapRow_round (h : gapRow store q p row = .ok p') : Round store q (.gap row) p p' := by
  have hkeep (h : ∀ {tid address key evidence first last}, ¬ store.Clears q row tid address key evidence first last) :
      Round store q (.gap row) p p := .refl (by rintro _ _ ⟨_, _, _, _, hclear⟩; exact h hclear)
  unfold gapRow at h
  split at h
  · rename_i hlate
    obtain rfl := Except.ok.inj h
    refine hkeep fun hclear => ?_
    exact absurd hclear.upTo (not_le.mpr hlate)
  · rename_i hlate
    obtain ⟨cells, hcells, hp⟩ := bind_eq_ok.mp h
    obtain rfl := pure_eq_ok.mp hp
    unfold applyTemporalDiscontinuity at hcells
    cases hk : store.eventKey row with
    | none =>
      simp only [hk] at hcells
      obtain rfl := Except.ok.inj hcells
      refine hkeep fun hclear => ?_
      exact absurd (hk.symm.trans hclear.eventKey) (by simp)
    | some rowKey =>
      simp only [hk] at hcells
      split at hcells
      · rename_i hother
        obtain rfl := Except.ok.inj hcells
        refine hkeep fun hclear => ?_
        obtain rfl := Option.some.inj (hk.symm.trans hclear.eventKey)
        rcases hother with hother | hother | ⟨hsome, hother⟩
        · exact hother hclear.artifact
        · exact hother hclear.timeline
        · exact hclear.thread.elim hsome hother
      · rename_i hsame
        obtain ⟨evidence, hevidence, hcells⟩ := bind_eq_ok.mp hcells
        cases hrange : affected q.start q.stop evidence with
        | none =>
          simp only [hrange] at hcells
          obtain rfl := pure_eq_ok.mp hcells
          refine hkeep fun hclear => ?_
          obtain rfl := Except.ok.inj (hevidence.symm.trans hclear.discontinuity)
          exact absurd (hrange.symm.trans hclear.range) (by simp)
        | some range =>
          obtain ⟨first, last⟩ := range
          simp only [hrange] at hcells
          obtain rfl := pure_eq_ok.mp hcells
          refine ⟨⟨_, rfl, fun cell => ?_⟩, fun hlt => absurd hlt hlate, .inl ⟨rfl, rfl, rfl⟩⟩
          simp only [not_or, not_not, not_and_or] at hsame
          exact clear_effect (not_lt.mp hlate) hk hsame.1 hsame.2.1 hsame.2.2 hevidence hrange cell

theorem historyStep_round (hkey : store.eventKey q.target = some q.key) (h : historyStep store q p s = .ok p') :
    Round store q s p p' := by
  cases s with
  | access row => exact accessRow_round hkey h
  | gap row => exact gapRow_round h

theorem mem_historySteps {rows : List ℕ} :
    s ∈ historySteps rows gaps ↔ (∃ row ∈ rows, s = .access row) ∨ ∃ row ∈ gaps, s = .gap row := by
  induction rows generalizing gaps with
  | nil => simp [historySteps, eq_comm]
  | cons row rows ih =>
    have hsplit : ∀ r, r ∈ gaps ↔ r ∈ gaps.takeWhile (· < row) ∨ r ∈ gaps.dropWhile (· < row) := by
      intro r
      rw [← List.mem_append, List.takeWhile_append_dropWhile]
    simp only [historySteps, List.mem_append, List.mem_map, List.mem_cons, ih, hsplit, or_and_right, exists_or,
      exists_eq_left, @eq_comm _ s]
    grind

theorem le_of_mem_dropWhile (h : gaps.Pairwise (· < ·)) {r : ℕ} (hr : r ∈ gaps.dropWhile (· < row)) : row ≤ r := by
  induction gaps with
  | nil => cases hr
  | cons g gaps ih =>
    obtain ⟨hg, h⟩ := List.pairwise_cons.mp h
    rw [List.dropWhile_cons] at hr
    split at hr
    · exact ih h hr
    · rename_i hle
      have hle : row ≤ g := by simpa using hle
      rcases List.mem_cons.mp hr with rfl | hr
      · exact hle
      · exact hle.trans (hg r hr).le

/-- The merged history goes through the rows in order. -/
theorem historySteps_sorted {rows : List ℕ} (hrows : rows.Pairwise (· < ·)) (hgaps : gaps.Pairwise (· < ·))
    (hdisjoint : ∀ r ∈ rows, r ∉ gaps) : (historySteps rows gaps).Pairwise (·.row < ·.row) := by
  induction rows generalizing gaps with
  | nil => exact List.pairwise_map.mpr hgaps
  | cons row rows ih =>
    obtain ⟨hrow, hrows⟩ := List.pairwise_cons.mp hrows
    have hafter : ∀ s ∈ historySteps rows (gaps.dropWhile (· < row)), row < s.row := by
      intro s hs
      rcases mem_historySteps.mp hs with ⟨r, hr, rfl⟩ | ⟨r, hr, rfl⟩
      · exact hrow r hr
      · refine lt_of_le_of_ne (le_of_mem_dropWhile hgaps hr) ?_
        rintro rfl
        exact hdisjoint row (by simp) ((List.dropWhile_sublist _).subset hr)
    have hbefore : ∀ s ∈ (gaps.takeWhile (· < row)).map HistoryStep.gap, s.row < row := by
      intro s hs
      obtain ⟨r, hr, rfl⟩ := List.mem_map.mp hs
      have hlt := List.mem_takeWhile_imp hr
      exact of_decide_eq_true hlt
    refine List.pairwise_append.mpr ⟨?_, List.pairwise_cons.mpr ⟨hafter, ?_⟩, ?_⟩
    · exact List.pairwise_map.mpr (hgaps.sublist (List.takeWhile_sublist _))
    · exact ih hrows (hgaps.sublist (List.dropWhile_sublist _))
        fun r hr hg => hdisjoint r (by simp [hr]) ((List.dropWhile_sublist _).subset hg)
    · intro s hs s' hs'
      rcases List.mem_cons.mp hs' with rfl | hs'
      · exact hbefore s hs
      · exact (hbefore s hs).trans (hafter s' hs')

variable (store q) in
/-- The loop state after some steps. -/
structure RunInv (steps : List HistoryStep) (p : Progress) : Prop where
  addresses : p.lastWritten.map (·.address) = (unknownBytes q.start q.stop).map (·.address)
  tracks : ∀ cell ∈ p.lastWritten, Tracks store q steps cell
  seen : p.targetSeen = true → .access q.target ∈ steps ∧
    ∀ cell, cell ∈ p.before ∨ cell ∈ p.after → Borrowed q p.lastWritten cell

theorem RunInv.step (h : RunInv store q steps p) (hs : ∀ s' ∈ steps, s'.row < s.row)
    (hround : Round store q s p p') : RunInv store q (steps ++ [s]) p' := by
  obtain ⟨g, hcells, hg⟩ := hround.cells
  refine ⟨?_, fun cell hcell => ?_, fun hseen => ?_⟩
  · rw [← h.addresses, hcells, List.map_map]
    exact List.map_congr_left fun cell _ => (hg cell).address
  · rw [hcells] at hcell
    obtain ⟨cell, hmem, rfl⟩ := List.mem_map.mp hcell
    exact (h.tracks cell hmem).step hs (hg cell)
  · rcases hround.target with ⟨hsame, hbefore, hafter⟩ | ⟨rfl, hlast, hborrowed⟩
    · obtain ⟨hmem, hborrowed⟩ := h.seen (hsame ▸ hseen)
      obtain rfl := hround.later (hs _ hmem)
      exact ⟨by simp [hmem], hborrowed⟩
    · exact ⟨by simp, hlast ▸ hborrowed⟩

theorem mem_memoryRows {start stop : ℕ} : row ∈ store.memoryRows start stop ↔
    ∃ access, store.memory row = some access ∧ access.address < stop ∧ start < access.endExclusive ∧
      access.address < access.endExclusive ∧ start < stop := by
  rw [memoryRows, List.mem_filter, List.mem_range]
  constructor
  · rintro ⟨-, h⟩
    cases hm : store.memory row with
    | none => simp [hm] at h
    | some access => exact ⟨access, rfl, by simpa [hm] using h⟩
  · rintro ⟨access, hm, h⟩
    refine ⟨?_, by simpa [hm] using h⟩
    have hkind := store.memory_kind row access hm
    obtain ⟨e, he, -⟩ := Option.map_eq_some_iff.mp hkind
    exact (List.getElem?_eq_some_iff.mp he).1

/-- An access to a byte of the range is found by the query. -/
theorem mem_memoryRows_of_covers {start stop : ℕ} (hm : store.memory row = some access)
    (hcovers : access.Covers address) (hin : start ≤ address ∧ address < stop) :
    row ∈ store.memoryRows start stop := by
  obtain ⟨h1, h2⟩ := hcovers
  exact mem_memoryRows.mpr ⟨access, hm, by omega, by omega, by omega, by omega⟩

variable (store) in
theorem history_sorted (start stop : ℕ) (reused : Bool) (target : ℕ) :
    (historySteps (store.memoryRows start stop) (store.discontinuities reused target)).Pairwise
      (·.row < ·.row) := by
  refine historySteps_sorted (List.pairwise_lt_range.filter _) (List.pairwise_lt_range.filter _) ?_
  intro row hrow hgap
  obtain ⟨access, haccess, -⟩ := mem_memoryRows.mp hrow
  have hkind := (of_decide_eq_true (List.mem_filter.mp hgap).2).1
  exact absurd ((store.memory_kind row access haccess).symm.trans hkind) (by simp)

theorem recordConflict_isSome :
    (recordConflict store q.key conflicts row address).isSome = true ↔
      (conflicts address).isSome = true ∨
        ∃ key access, store.Foreign q row key access ∧ access.Covers address := by
  unfold recordConflict
  cases hk : store.eventKey row with
  | none =>
    refine ⟨.inl, fun h => h.elim id ?_⟩
    rintro ⟨key, access, hforeign, -⟩
    exact absurd (hk.symm.trans hforeign.eventKey) (by simp)
  | some rowKey =>
    cases hm : store.memory row with
    | none =>
      refine ⟨.inl, fun h => h.elim id ?_⟩
      rintro ⟨key, access, hforeign, -⟩
      exact absurd (hm.symm.trans hforeign.memory) (by simp)
    | some access =>
      have hunique : ∀ {key' access'}, store.Foreign q row key' access' →
          rowKey = key' ∧ access = access' := fun h =>
        ⟨Option.some.inj (hk.symm.trans h.eventKey), Option.some.inj (hm.symm.trans h.memory)⟩
      dsimp only
      split
      · rename_i hforeign
        obtain ⟨h1, h2, h3, h4⟩ := hforeign
        dsimp only
        split
        · rename_i hcovers
          exact ⟨fun _ => .inr ⟨rowKey, access, ⟨hk, hm, h1, h2, h3, h4⟩, hcovers⟩, fun _ => rfl⟩
        · rename_i hcovers
          refine ⟨.inl, fun h => h.elim id ?_⟩
          rintro ⟨key', access', hforeign, hc⟩
          obtain ⟨rfl, rfl⟩ := hunique hforeign
          exact absurd hc hcovers
      · rename_i hno
        refine ⟨.inl, fun h => h.elim id ?_⟩
        rintro ⟨key', access', hforeign, -⟩
        obtain ⟨rfl, rfl⟩ := hunique hforeign
        exact absurd ⟨hforeign.artifact, hforeign.timeline, hforeign.thread, hforeign.writes⟩ hno

/-- The conflicts at an address are the writes of other threads that touch it. -/
theorem unorderedConflicts_isSome (hin : q.start ≤ address ∧ address < q.stop) :
    (unorderedConflicts store q.key (store.memoryRows q.start q.stop) address).isSome = true ↔
      store.Conflicted q address := by
  have hfold : ∀ rows : List ℕ, (rows.foldl (recordConflict store q.key) (fun _ => none) address).isSome = true ↔
      ∃ row ∈ rows, ∃ key access, store.Foreign q row key access ∧ access.Covers address := by
    intro rows
    induction rows using List.reverseRecOn with
    | nil => simp
    | append_singleton rows row ih => simp [recordConflict_isSome, ih, or_and_right, exists_or]
  unfold unorderedConflicts Conflicted
  cases hg : store.globalOrdering with
  | true => simp
  | false =>
    simp only [Bool.false_eq_true, if_false, true_and, hfold]
    constructor
    · rintro ⟨row, -, h⟩
      exact ⟨row, h⟩
    · rintro ⟨row, key, access, hforeign, hcovers⟩
      exact ⟨row, mem_memoryRows_of_covers hforeign.memory hcovers hin, key, access, hforeign, hcovers⟩

variable (store q) in
/-- No byte on show, in the bytes written earlier or around the target, is older than a write
of the history that touched it. -/
def Fresh (state : MemoryStateAtEvent) : Prop :=
  ∀ cell, cell ∈ state.lastWritten ∨ cell ∈ state.before ∨ cell ∈ state.after →
    ∀ evidence, cell.value.isSome = true → cell.evidence = some evidence →
      ∀ shown row key access, store.rowForSourceKey evidence.key = some shown →
        store.InScope q row key access → access.Covers cell.address → ¬ shown < row

variable (store q) in
/-- A captured write is followed by a write that touches the byte without reaching it, and
nothing later takes the captured byte away. -/
structure Stale (address : ℕ) (row : ℕ) (key : EventKey) (access : MemoryRow) : Prop where
  scope : store.InScope q row key access
  written : (access.writtenByte address).isSome = true
  hidden : ∃ row' key' access', store.InScope q row' key' access' ∧ row < row' ∧ access'.Covers address
  writes : ∀ row' key' access', store.InScope q row' key' access' → row < row' → ¬ access'.Reaches address
  gaps : ∀ row', store.eventKind row' = some .discontinuity → row < row' →
    ¬ store.Overrides q address key.tid (.gap row')
  alone : ¬ store.Conflicted q address

variable (store q) in
/-- The steps that a query replays. -/
def history (reused : Bool) : List HistoryStep :=
  historySteps (store.memoryRows q.start q.stop) (store.discontinuities reused q.target)

/-- A standing write is stale when a later write touches the byte. -/
theorem Standing.stale {reused : Bool}
    (hin : q.start ≤ address ∧ address < q.stop)
    (h : store.Standing q address (store.history q reused) row key access)
    (hhidden : ∃ row' key' access', store.InScope q row' key' access' ∧ row < row' ∧
      access'.Covers address)
    (halone : ¬ store.Conflicted q address) : store.Stale q address row key access := by
  refine ⟨h.scope, h.written, hhidden, fun row' key' access' hscope hlt hreach => ?_,
    fun row' hkind hlt hover => ?_, halone⟩
  · have hcovers : access'.Covers address := by
      rcases hreach with hw | hd
      · exact MemoryRow.covers_of_writtenByte hw
      · exact hd.2
    have hstep : HistoryStep.access row' ∈ store.history q reused :=
      mem_historySteps.mpr (.inl ⟨row', mem_memoryRows_of_covers hscope.memory hcovers hin, rfl⟩)
    exact h.last _ hstep hlt ⟨key', access', hscope, hreach⟩
  · obtain ⟨_, _, _, _, hclear⟩ := id hover
    have hstep : HistoryStep.gap row' ∈ store.history q reused := by
      refine mem_historySteps.mpr (.inr ⟨row', List.mem_filter.mpr ⟨?_, ?_⟩, rfl⟩)
      · obtain ⟨e, he, -⟩ := Option.map_eq_some_iff.mp hkind
        exact List.mem_range.mpr (List.getElem?_eq_some_iff.mp he).1
      · exact decide_eq_true ⟨hkind, .inr hclear.upTo⟩
    exact h.last _ hstep hlt hover

theorem Stale.standing (reused : Bool) (hin : q.start ≤ address ∧ address < q.stop)
    (h : store.Stale q address row key access) :
    store.Standing q address (store.history q reused) row key access := by
  refine ⟨h.scope, h.written, ?_, fun s hs hlt => ?_⟩
  · have hcovers := MemoryRow.covers_of_writtenByte h.written
    exact mem_historySteps.mpr (.inl ⟨row, mem_memoryRows_of_covers h.scope.memory hcovers hin, rfl⟩)
  · rcases mem_historySteps.mp hs with ⟨row', -, rfl⟩ | ⟨row', hrow', rfl⟩
    · rintro ⟨key', access', hscope, hreach⟩
      exact h.writes row' key' access' hscope hlt hreach
    · exact h.gaps row' (of_decide_eq_true (List.mem_filter.mp hrow').2).1 hlt

theorem replayHistory_inv (hkey : store.eventKey q.target = some q.key) {reused : Bool} {p : Progress}
    (h : replayHistory store q (store.memoryRows q.start q.stop) (store.discontinuities reused q.target) =
      .ok p) :
    p.lastWritten.map (·.address) = (unknownBytes q.start q.stop).map (·.address) ∧
    (∀ cell ∈ p.lastWritten, Tracks store q (store.history q reused) cell) ∧
    ∀ cell, cell ∈ p.before ∨ cell ∈ p.after → Borrowed q p.lastWritten cell := by
  obtain ⟨p', hrun, hp⟩ := bind_eq_ok.mp h
  obtain rfl := pure_eq_ok.mp hp
  have hsorted : (store.history q reused).Pairwise (·.row < ·.row) :=
    store.history_sorted q.start q.stop reused q.target
  have hinv : RunInv store q (store.history q reused) p' := by
    refine foldlM_rule (RunInv store q) ⟨rfl, ?_, by simp⟩ ?_ hrun
    · intro cell hcell
      obtain ⟨offset, -, rfl⟩ := List.mem_map.mp hcell
      refine ⟨by simp, fun row key access hstand => ?_⟩
      cases hstand.step
    · intro before s after p p' hl hinv hstep
      refine hinv.step (fun s' hs' => ?_) (historyStep_round hkey hstep)
      rw [hl] at hsorted
      exact (List.pairwise_append.mp hsorted).2.2 s' hs' s (by simp)
  split
  · rename_i hseen
    exact ⟨hinv.addresses, hinv.tracks, (hinv.seen hseen).2⟩
  · refine ⟨hinv.addresses, hinv.tracks, fun cell hcell => .inr (.inr ?_)⟩
    exact hcell.elim id id

/-- A value on show after the conflicts were taken out was on show before. -/
theorem applyUnorderedConflicts_shown (h : cell ∈ applyUnorderedConflicts conflicts cells)
    (hvalue : cell.value.isSome = true) : cell ∈ cells ∧ conflicts cell.address = none := by
  obtain ⟨old, hmem, rfl⟩ := List.mem_map.mp h
  cases hc : conflicts old.address with
  | none => exact ⟨hmem, hc⟩
  | some evidence => simp [hc] at hvalue

theorem mem_applyUnorderedConflicts (h : cell ∈ cells) (hnone : conflicts cell.address = none) :
    cell ∈ applyUnorderedConflicts conflicts cells :=
  List.mem_map.mpr ⟨cell, h, by simp [hnone]⟩

theorem mem_addresses (h : cells.map (·.address) = (unknownBytes q.start q.stop).map (·.address)) :
    (∃ cell ∈ cells, cell.address = address) ↔ q.start ≤ address ∧ address < q.stop := by
  rw [← List.mem_map, h, List.mem_map]
  simp only [unknownBytes, List.mem_map, List.mem_range]
  constructor
  · rintro ⟨cell, ⟨offset, hoffset, rfl⟩, rfl⟩
    exact ⟨Nat.le_add_right _ _, by dsimp only; omega⟩
  · rintro ⟨h1, h2⟩
    exact ⟨_, ⟨address - q.start, by omega, rfl⟩, by dsimp only; omega⟩

/-- **When a memory state shows an overwritten value.** A state is fresh exactly when no byte
of the range is stale: no captured byte of an earlier write is left on show behind a write
whose capture does not reach the byte. -/
theorem stateAt_fresh_iff {reused : Bool} {key : EventKey} {target start stop : ℕ}
    {state : MemoryStateAtEvent} (htarget : store.rowForSourceKey key = some target)
    (h : store.stateAt reused key start stop = .ok state) :
    store.Fresh ⟨key, target, start, stop⟩ state ↔
      ∀ address, start ≤ address → address < stop →
        ∀ row rowKey access, ¬ store.Stale ⟨key, target, start, stop⟩ address row rowKey access := by
  unfold stateAt at h
  split at h
  · cases h
  split at h
  · cases h
  simp only [htarget] at h
  split at h
  · cases h
  obtain ⟨p, hp, hstate⟩ := bind_eq_ok.mp h
  obtain rfl := pure_eq_ok.mp hstate
  obtain ⟨haddresses, htracks, hborrowed⟩ :=
    @replayHistory_inv store ⟨key, target, start, stop⟩ (EventTable.eventKey_of_row htarget) reused p hp
  have hconflict : ∀ {address}, start ≤ address ∧ address < stop →
      (unorderedConflicts store key (store.memoryRows start stop) address = none ↔
        ¬ store.Conflicted ⟨key, target, start, stop⟩ address) := by
    intro address hin
    rw [← @unorderedConflicts_isSome store ⟨key, target, start, stop⟩ address hin]
    simp
  constructor
  · intro hfresh address h1 h2 row rowKey access hstale
    obtain ⟨cell, hcell, rfl⟩ := (mem_addresses haddresses).mpr ⟨h1, h2⟩
    obtain ⟨hvalue, hevidence⟩ := (htracks cell hcell).shown row rowKey access
      (hstale.standing reused ⟨h1, h2⟩)
    obtain ⟨row', key', access', hscope, hlt, hcovers⟩ := hstale.hidden
    have hshown := mem_applyUnorderedConflicts hcell ((hconflict ⟨h1, h2⟩).mpr hstale.alone)
    exact hfresh cell (.inl hshown) _ hvalue hevidence row row' key' access'
      (EventTable.row_of_eventKey hstale.scope.eventKey) hscope hcovers hlt
  · intro hfresh cell hcell evidence hvalue hevidence shown row rowKey access hshown hscope hcovers hlt
    -- the byte was on show before conflicts, and comes from the bytes written earlier
    have hlast : cell ∈ p.lastWritten ∧
        unorderedConflicts store key (store.memoryRows start stop) cell.address = none := by
      have hborrow : (cell ∈ p.before ∨ cell ∈ p.after) → cell ∈ p.lastWritten := by
        intro hmem
        rcases hborrowed cell hmem with hnone | ⟨evidence', hevidence', hkey⟩ | hmem
        · simp [hnone] at hvalue
        · -- evidence of the target itself is not older than any write before the target
          obtain rfl := Option.some.inj (hevidence.symm.trans hevidence')
          rw [hkey] at hshown
          have heq := Option.some.inj (htarget.symm.trans hshown)
          have hbefore : row < target := hscope.before
          omega
        · exact hmem
      rcases hcell with hcell | hcell
      · exact applyUnorderedConflicts_shown hcell hvalue
      · have hshown := hcell.imp (applyUnorderedConflicts_shown · hvalue) (applyUnorderedConflicts_shown · hvalue)
        exact (or_and_right.mpr hshown).imp_left hborrow
    have hin : start ≤ cell.address ∧ cell.address < stop :=
      (mem_addresses haddresses).mp ⟨cell, hlast.1, rfl⟩
    obtain ⟨row', key', access', hstand, hevidence'⟩ := (htracks cell hlast.1).standing hvalue
    obtain rfl := Option.some.inj (hevidence.symm.trans hevidence')
    obtain rfl : row' = shown :=
      Option.some.inj ((EventTable.row_of_eventKey hstand.scope.eventKey).symm.trans hshown)
    exact hfresh cell.address hin.1 hin.2 row' key' access'
      (hstand.stale hin ⟨row, rowKey, access, hscope, hlt, hcovers⟩ ((hconflict hin).mp hlast.2))

/-- A thread writes the byte at 8192 with its value captured, writes it again without, and
then reads it. -/
def rewrittenStore : MemoryStore where
  events := [(⟨[], 2, 0, 0, some 1, some 9⟩, .memory), (⟨[], 2, 1, 1, some 2, some 9⟩, .memory),
    (⟨[], 2, 2, 2, some 3, some 9⟩, .memory)]
  keys_nodup := by decide
  memory
    | 0 => some ⟨8192, 1, .write, true, 1, .ok .notCaptured, .ok (.captured [1]), by decide⟩
    | 1 => some ⟨8192, 1, .write, true, 5, .ok .notCaptured, .ok .notCaptured, by decide⟩
    | 2 => some ⟨8192, 1, .read, true, 5, .ok .notCaptured, .ok .notCaptured, by decide⟩
    | _ => none
  discontinuity := fun _ => .error (.invalid "not a discontinuity")
  provenance := fun _ => some .captured
  globalOrdering := true
  memory_kind := by
    intro row access h
    match row with
    | 0 | 1 | 2 => rfl
    | _ + 3 => cases h

/-- The state at the read: the byte of the first write is still on show. -/
def rewrittenState : MemoryStateAtEvent :=
  let read : ByteState := ⟨8192, some 5, .captured,
    some ⟨⟨[], 2, 2, 2, some 3, some 9⟩, some 9, .read, .captured, 8192, 1⟩⟩
  let stale : ByteState := ⟨8192, some 1, .derived,
    some ⟨⟨[], 2, 0, 0, some 1, some 9⟩, some 9, .write, .captured, 8192, 1⟩⟩
  ⟨⟨[], 2, 2, 2, some 3, some 9⟩, 8192, 8193, [read], [stale], [stale], [stale]⟩

theorem rewritten_stateAt : rewrittenStore.stateAt false ⟨[], 2, 2, 2, some 3, some 9⟩ 8192 8193 =
    .ok rewrittenState := by
  rfl

theorem stateAt_fresh_iff_rewritten :
    rewrittenStore.Fresh ⟨⟨[], 2, 2, 2, some 3, some 9⟩, 2, 8192, 8193⟩ rewrittenState ↔
      ∀ address, 8192 ≤ address → address < 8193 → ∀ row rowKey access,
        ¬ rewrittenStore.Stale ⟨⟨[], 2, 2, 2, some 3, some 9⟩, 2, 8192, 8193⟩ address row rowKey access :=
  stateAt_fresh_iff (by decide) rewritten_stateAt

theorem rewritten_not_fresh :
    rewrittenStore.stateAt false ⟨[], 2, 2, 2, some 3, some 9⟩ 8192 8193 = .ok rewrittenState ∧
      ¬ rewrittenStore.Fresh ⟨⟨[], 2, 2, 2, some 3, some 9⟩, 2, 8192, 8193⟩ rewrittenState := by
  refine ⟨rewritten_stateAt, fun hfresh => ?_⟩
  refine hfresh _ (.inl (List.mem_singleton.mpr rfl)) _ rfl rfl 0 1 _ _ (by decide)
    ⟨rfl, rfl, rfl, rfl, .inl rfl, rfl, by decide⟩ ⟨le_rfl, by decide⟩ (by decide)

end MemoryStore

end QTrace.Analysis
