import QTrace.Qtrb.Steps

/-! Reading a stream that was cut off. The cursor looks at complete records only, so that a
cut stream yields the events whose records were left whole, and it ends without an error
exactly where a record ends and no group of fragments is open. -/

namespace QTrace.Qtrb

open Lib Provider

/-- The frames from `offset` on, as far as they lie in the source. -/
def framesFrom (source : List UInt8) : ℕ → ℕ → List Frame
  | 0, _ => []
  | fuel + 1, offset =>
    if (frameAt source offset).stop ≤ source.length then
      frameAt source offset :: framesFrom source fuel (frameAt source offset).stop
    else []

/-- The records of a stream. -/
def frames (source : List UInt8) : List Frame := framesFrom source (source.length + 1) streamHeaderBytes

/-- The cut stands at the end of a record, and a begin record lies before it. -/
def BoundaryAfterBegin (source : List UInt8) (cut : ℕ) : Prop :=
  (∃ frame ∈ frames source, frame.stop = cut) ∧
    ∃ first, (frames source).head? = some first ∧ RecordType.fromRaw first.rawType = some .traceBegin ∧
      first.stop ≤ cut

/-- The last record before the cut is a fragment of an event that goes on behind it. -/
def InsideFragmentGroup (source : List UInt8) (cut : ℕ) : Prop :=
  ∃ frame ∈ frames source, frame.stop = cut ∧ frame.unfinished = true

variable {source artifact : List UInt8} {mode : OpenMode}

theorem framesFrom_stop {frame : Frame} : ∀ {fuel offset : ℕ},
    frame ∈ framesFrom source fuel offset → offset < frame.stop
  | 0, _, h => by simp [framesFrom] at h
  | fuel + 1, offset, h => by
    have hstop := frameAt_stop source offset
    rw [framesFrom] at h
    split_ifs at h with hfits
    · rcases List.mem_cons.mp h with rfl | h
      · omega
      · have := framesFrom_stop h
        omega
    · simp at h

theorem framesFrom_inj {frame other : Frame} : ∀ {fuel offset : ℕ},
    frame ∈ framesFrom source fuel offset → other ∈ framesFrom source fuel offset →
      frame.stop = other.stop → frame = other
  | 0, _, h, _, _ => by simp [framesFrom] at h
  | fuel + 1, offset, h, h', heq => by
    rw [framesFrom] at h h'
    split_ifs at h h' with hfits
    · rcases List.mem_cons.mp h with rfl | h <;> rcases List.mem_cons.mp h' with rfl | h'
      · rfl
      · have := framesFrom_stop h'
        omega
      · have := framesFrom_stop h
        omega
      · exact framesFrom_inj h h' heq
    · simp at h

section Turns

variable {mode : OpenMode} {source : List UInt8} {c c' : QtrbEventCursor} {result : Option EventRecord} {cut : ℕ}

theorem finishStream_ok {u : Unit} : c.finishStream mode = .ok u ↔
    c.pending = none ∧ c.began = true ∧ (c.terminalSeen = true ∨ mode = .recoverablePartial) := by
  simp only [QtrbEventCursor.finishStream, bind_eq_ok, failIf_eq_ok, exists_const, Option.isSome_eq_false_iff,
    Option.isNone_iff_eq_none, Bool.not_eq_false', Bool.and_eq_false_iff, decide_eq_false_iff_not]
  cases mode <;> simp

theorem turn_drained : c.turn mode source = .ok none ↔
    c.pending = none ∧ c.began = true ∧
      (c.terminalSeen = true ∧ source.length ≤ c.offset ∨
        c.terminalSeen = false ∧ c.offset = source.length ∧ mode = .recoverablePartial) := by
  have hfinish : ((fun _ => none) <$> c.finishStream mode :
      Except ProviderError (Option (QtrbEventCursor × Option EventRecord))) = .ok none ↔
      c.pending = none ∧ c.began = true ∧ (c.terminalSeen = true ∨ mode = .recoverablePartial) := by
    rw [← @finishStream_ok mode c ()]
    cases c.finishStream mode <;> simp [Functor.map, Except.map]
  have hnext : some <$> c.nextRecord source ≠ .ok none := by
    cases c.nextRecord source <;> simp [Functor.map, Except.map]
  unfold QtrbEventCursor.turn
  cases hseen : c.terminalSeen with
  | false =>
    simp only [hseen, Bool.false_and, Bool.false_or, decide_eq_true_eq, Bool.false_eq_true, if_false, false_or,
      false_and, true_and] at hfinish ⊢
    split_ifs with hend hpast
    · rw [hfinish, and_iff_right hend]
    · simp only [false_iff]
      tauto
    · simp only [hnext, false_iff]
      tauto
  | true =>
    simp only [hseen, Bool.true_and, Bool.true_or, decide_eq_true_eq, if_true, true_or, true_and, and_true,
      Bool.true_eq_false, false_and, or_false] at hfinish ⊢
    split_ifs with hmore
    · simp only [false_iff]
      omega
    · rw [hfinish, and_iff_left (not_lt.mp hmore)]

theorem turn_advanced : c.turn mode source = .ok (some (c', result)) ↔
    c.terminalSeen = false ∧ c.offset < source.length ∧ c.nextRecord source = .ok (c', result) := by
  have hfinish : ((fun _ => none) <$> c.finishStream mode :
      Except ProviderError (Option (QtrbEventCursor × Option EventRecord))) ≠ .ok (some (c', result)) := by
    cases c.finishStream mode <;> simp [Functor.map, Except.map]
  have hnext : some <$> c.nextRecord source = .ok (some (c', result)) ↔
      c.nextRecord source = .ok (c', result) := by
    cases c.nextRecord source <;> simp [Functor.map, Except.map]
  unfold QtrbEventCursor.turn
  split_ifs with hafter hend hpast
  · simp only [Bool.and_eq_true] at hafter
    simp [hafter.1]
  · simp only [hfinish, false_iff]
    simp only [Bool.or_eq_true, decide_eq_true_eq] at hend
    rintro ⟨hseen, hlt, -⟩
    rcases hend with hend | hend
    · simp [hseen] at hend
    · omega
  · simp only [false_iff]
    omega
  · simp only [Bool.or_eq_true, decide_eq_true_eq, not_or, Bool.not_eq_true] at hend
    rw [hnext]
    have hlt : c.offset < source.length := by omega
    simp [hend.1, hlt]

theorem nextRecord_take (h : c.nextRecord source = .ok (c', result)) (hseen : c.terminalSeen = false)
    (hcut : c'.offset ≤ cut) (hle : cut ≤ source.length) :
    c.nextRecord (source.take cut) = .ok (c', result) := by
  have hstands := QtrbEventCursor.nextRecord_stands h
  obtain ⟨c₁, record, hread, hbegin, hfree, hdecode⟩ := QtrbEventCursor.nextRecord_ok.mp h
  obtain ⟨hlen, hadmits, hbound, hordinal, rfl, rfl⟩ := QtrbEventCursor.readRecord_ok.mp hread
  have hframe : frameAt (source.take cut) c.offset = frameAt source c.offset :=
    frameAt_take (hstands.offset.symm.trans_le hcut)
  have hwhole : (source.take cut).length = cut := List.length_take_of_le hle
  refine QtrbEventCursor.nextRecord_ok.mpr ⟨_, _, ?_, hbegin, hfree, ?_⟩
  · rw [QtrbEventCursor.readRecord_ok, hframe, hwhole]
    exact ⟨hstands.offset.symm.trans_le hcut, hadmits, hbound, hordinal, rfl, rfl⟩
  · apply QtrbEventCursor.decodeRecord_resize hdecode
    -- a terminal stands at the end of the whole stream, and so does the cut behind it
    intro hterminal
    obtain hearly | hlast := hstands.terminal hterminal
    · simp [hseen] at hearly
    · omega

theorem nextRecord_short (h : c.nextRecord source = .ok (c', result)) (hcut : cut < c'.offset)
    (hle : cut ≤ source.length) : ∃ error, c.nextRecord (source.take cut) = .error error := by
  have hstands := QtrbEventCursor.nextRecord_stands h
  cases hpart : c.nextRecord (source.take cut) with
  | error error => exact ⟨error, rfl⟩
  | ok r =>
    obtain ⟨c₁, record, hread, -⟩ := QtrbEventCursor.nextRecord_ok.mp hpart
    obtain ⟨hlen, -⟩ := QtrbEventCursor.readRecord_ok.mp hread
    have hwhole : (source.take cut).length = cut := List.length_take_of_le hle
    have hhead := frameAt_stop (source.take cut) c.offset
    rw [hwhole] at hlen
    have hstop := @frameAt_take_stop source c.offset cut (hhead.trans hlen)
    have := hstands.offset
    omega

end Turns

section Runs

variable {mode : OpenMode} {source : List UInt8} {c c' : QtrbEventCursor} {result : Option EventRecord}
  {fuel cut : ℕ}

theorem readFrom_failed {error : ProviderError} (h : c.turn mode source = .error error) :
    readFrom mode source (fuel + 1) c = ⟨[], some (.failed error)⟩ := by
  rw [readFrom, h]

theorem readFrom_drained (h : c.turn mode source = .ok none) :
    readFrom mode source (fuel + 1) c = ⟨[], some .drained⟩ := by
  rw [readFrom, h]

theorem readFrom_advanced (h : c.turn mode source = .ok (some (c', result))) :
    readFrom mode source (fuel + 1) c =
      ⟨result.toList.map (⟨·, c'.offset⟩) ++ (readFrom mode source fuel c').deliveries,
        (readFrom mode source fuel c').ending⟩ := by
  rw [readFrom, h]

theorem readFrom_through {delivery : Delivery} : ∀ {fuel : ℕ} {c : QtrbEventCursor},
    delivery ∈ (readFrom mode source fuel c).deliveries → c.offset < delivery.through
  | 0, c, h => by simp [readFrom] at h
  | fuel + 1, c, h => by
    match hturn : c.turn mode source with
    | .error _ => simp [readFrom_failed hturn] at h
    | .ok none => simp [readFrom_drained hturn] at h
    | .ok (some (c', result)) =>
      obtain ⟨-, -, hnext⟩ := turn_advanced.mp hturn
      have hoffset := (QtrbEventCursor.nextRecord_stands hnext).offset
      have hstop := frameAt_stop source c.offset
      simp only [readFrom_advanced hturn, List.mem_append, List.mem_map] at h
      rcases h with ⟨event, -, rfl⟩ | h
      · simp only
        omega
      · have := readFrom_through h
        omega

theorem filter_readFrom (h : cut ≤ c.offset) :
    (readFrom mode source fuel c).deliveries.filter (·.through ≤ cut) = [] := by
  rw [List.filter_eq_nil_iff]
  intro delivery hmem
  have := readFrom_through hmem
  simp only [decide_eq_true_eq]
  omega

theorem framesFrom_cons (h : c.nextRecord source = .ok (c', result)) :
    framesFrom source (fuel + 1) c.offset = frameAt source c.offset :: framesFrom source fuel c'.offset := by
  have hstands := QtrbEventCursor.nextRecord_stands h
  rw [framesFrom, if_pos (hstands.offset.symm.trans_le hstands.inside), hstands.offset]

/-- From here on, the cut stream yields the events that end before the cut, and it ends
without an error where a finished record ends at the cut. -/
structure Recovers (source : List UInt8) (cut fuel : ℕ) (c : QtrbEventCursor) : Prop where
  deliveries : (readFrom .recoverablePartial (source.take cut) fuel c).deliveries =
    (readFrom .sealed source fuel c).deliveries.filter (·.through ≤ cut)
  ends : (readFrom .recoverablePartial (source.take cut) fuel c).ending ≠ none
  drained : (readFrom .recoverablePartial (source.take cut) fuel c).ending = some .drained ↔
    c.offset = cut ∧ c.pending = none ∧ c.began = true ∨
      ∃ frame ∈ framesFrom source fuel c.offset, frame.stop = cut ∧ frame.unfinished = false

theorem filter_advanced (h : c.turn mode source = .ok (some (c', result))) (hcut : cut < c'.offset) :
    (readFrom mode source (fuel + 1) c).deliveries.filter (·.through ≤ cut) = [] := by
  rw [readFrom_advanced h, List.filter_append, filter_readFrom hcut.le, List.append_nil,
    List.filter_eq_nil_iff]
  intro delivery hmem
  obtain ⟨event, -, rfl⟩ := List.mem_map.mp hmem
  simpa using hcut

theorem no_frame_at (h : c.nextRecord source = .ok (c', result)) (hcut : cut < c'.offset) :
    ¬∃ frame ∈ framesFrom source (fuel + 1) c.offset, frame.stop = cut ∧ frame.unfinished = false := by
  rw [framesFrom_cons h]
  rintro ⟨frame, hmem, hstop, -⟩
  rcases List.mem_cons.mp hmem with rfl | hmem
  · have := (QtrbEventCursor.nextRecord_stands h).offset
    omega
  · have := framesFrom_stop hmem
    omega

variable (hle : cut ≤ source.length)

include hle

theorem recovers_drained (hturn : c.turn .sealed source = .ok none) (hoff : c.offset ≤ cut)
    (hterm : c.terminalSeen = true → c.offset = source.length) : Recovers source cut (fuel + 1) c := by
  obtain ⟨hpending, hbegan, ⟨hseen, -⟩ | ⟨-, -, hmode⟩⟩ := turn_drained.mp hturn
  · have hcut : cut = source.length := by
      have := hterm hseen
      omega
    have hpart : c.turn .recoverablePartial (source.take cut) = .ok none := by
      rw [turn_drained, hcut, List.take_length]
      exact ⟨hpending, hbegan, .inl ⟨hseen, (hterm hseen).ge⟩⟩
    refine ⟨?_, ?_, ?_⟩
    · simp [readFrom_drained hturn, readFrom_drained hpart]
    · simp [readFrom_drained hpart]
    · rw [readFrom_drained hpart]
      simp [hpending, hbegan, hterm hseen, hcut]
  · cases hmode

variable (hturn : c.turn .sealed source = .ok (some (c', result)))

include hturn

theorem recovers_before (hcut : c'.offset ≤ cut) (ih : Recovers source cut fuel c') :
    Recovers source cut (fuel + 1) c := by
  obtain ⟨hseen, hlt, hnext⟩ := turn_advanced.mp hturn
  have hstands := QtrbEventCursor.nextRecord_stands hnext
  have hstop := frameAt_stop source c.offset
  have hoffset := hstands.offset
  have hpart : c.turn .recoverablePartial (source.take cut) = .ok (some (c', result)) := by
    rw [turn_advanced, List.length_take_of_le hle]
    exact ⟨hseen, by omega, nextRecord_take hnext hseen hcut hle⟩
  refine ⟨?_, ?_, ?_⟩
  · simp only [readFrom_advanced hpart, readFrom_advanced hturn, List.filter_append, ih.deliveries]
    congr 1
    rw [List.filter_eq_self.mpr]
    intro delivery hmem
    obtain ⟨event, -, rfl⟩ := List.mem_map.mp hmem
    simpa using hcut
  · simpa only [readFrom_advanced hpart] using ih.ends
  · have hpending : c'.pending = none ↔ (frameAt source c.offset).unfinished = false := by
      rw [← hstands.pending]
      simp
    have hstart : c.offset ≠ cut := by omega
    simp only [readFrom_advanced hpart, framesFrom_cons hnext, List.mem_cons, exists_eq_or_imp, ih.drained,
      hstands.began, hstart, false_and, false_or, and_true, hpending, hoffset]

theorem recovers_behind (hcut : cut < c'.offset) : Recovers source cut (fuel + 1) c := by
  obtain ⟨hseen, -, hnext⟩ := turn_advanced.mp hturn
  obtain ⟨error, hshort⟩ := nextRecord_short hnext hcut hle
  have hempty := @filter_advanced .sealed source c c' result fuel cut hturn hcut
  have hpart : c.turn .recoverablePartial (source.take cut) = .ok none ↔
      c.offset = cut ∧ c.pending = none ∧ c.began = true := by
    rw [turn_drained, List.length_take_of_le hle]
    simp only [hseen, Bool.false_eq_true, false_and, false_or, true_and, and_true]
    tauto
  match hend : c.turn .recoverablePartial (source.take cut) with
  | .ok none =>
    refine ⟨?_, ?_, ?_⟩
    · rw [readFrom_drained hend, hempty]
    · simp [readFrom_drained hend]
    · rw [readFrom_drained hend, iff_true_left rfl]
      exact .inl (hpart.mp hend)
  | .error error =>
    refine ⟨?_, ?_, ?_⟩
    · rw [readFrom_failed hend, hempty]
    · simp [readFrom_failed hend]
    · rw [readFrom_failed hend, or_iff_left (no_frame_at hnext hcut), ← hpart, hend]
      simp
  | .ok (some _) =>
    obtain ⟨-, -, hread⟩ := turn_advanced.mp hend
    simp [hshort] at hread

end Runs

/-- The run over the cut stream along the run over the whole one. -/
theorem readFrom_recovers {cut : ℕ} (hle : cut ≤ source.length) :
    ∀ {fuel : ℕ} {c : QtrbEventCursor}, (readFrom .sealed source fuel c).ending = some .drained →
      c.offset ≤ cut → (c.terminalSeen = true → c.offset = source.length) → Recovers source cut fuel c
  | 0, c, h, _, _ => by simp [readFrom] at h
  | fuel + 1, c, h, hoff, hterm => by
    match hturn : c.turn .sealed source with
    | .error _ => simp [readFrom_failed hturn] at h
    | .ok none => exact recovers_drained hle hturn hoff hterm
    | .ok (some (c', result)) =>
      obtain ⟨hseen, -, hnext⟩ := turn_advanced.mp hturn
      rw [readFrom_advanced hturn] at h
      rcases le_or_gt c'.offset cut with hcut | hcut
      · apply recovers_before hle hturn hcut
        apply readFrom_recovers hle h hcut
        intro hlater
        exact ((QtrbEventCursor.nextRecord_stands hnext).terminal hlater).resolve_left (by simp [hseen])
      · exact recovers_behind hle hturn hcut

theorem readFrom_mono : ∀ {fuel more : ℕ} {c : QtrbEventCursor},
    (readFrom mode source fuel c).ending ≠ none → fuel ≤ more →
      readFrom mode source more c = readFrom mode source fuel c
  | 0, _, _, h, _ => by simp [readFrom] at h
  | fuel + 1, 0, _, _, hle => by omega
  | fuel + 1, more + 1, c, h, hle => by
    match hturn : c.turn mode source with
    | .error _ => rw [readFrom_failed hturn, readFrom_failed hturn]
    | .ok none => rw [readFrom_drained hturn, readFrom_drained hturn]
    | .ok (some (c', result)) =>
      rw [readFrom_advanced hturn] at h
      rw [readFrom_advanced hturn, readFrom_advanced hturn, readFrom_mono h (by omega)]

/-- Every record takes a byte, so that the length of the source is fuel enough. -/
theorem readFrom_ends : ∀ {fuel : ℕ} {c : QtrbEventCursor},
    source.length < c.offset + fuel → c.offset ≤ source.length → (readFrom mode source fuel c).ending ≠ none
  | 0, c, hfuel, hoff => by omega
  | fuel + 1, c, hfuel, hoff => by
    match hturn : c.turn mode source with
    | .error _ => simp [readFrom_failed hturn]
    | .ok none => simp [readFrom_drained hturn]
    | .ok (some (c', result)) =>
      obtain ⟨-, -, hnext⟩ := turn_advanced.mp hturn
      have hstands := QtrbEventCursor.nextRecord_stands hnext
      have hstop := frameAt_stop source c.offset
      rw [readFrom_advanced hturn]
      apply readFrom_ends _ hstands.inside
      have := hstands.offset
      omega

theorem openStream_ok {c : QtrbEventCursor} :
    openStream artifact source = .ok c ↔ streamHeaderBytes ≤ source.length ∧
      ∃ header, StreamHeader.parse (source.take streamHeaderBytes) = .ok header ∧
        c = { artifact := artifact, header := header } := by
  simp only [openStream, bind_eq_ok, readExactAt_ok, pure_eq_ok, List.drop_zero, Nat.zero_add]
  constructor
  · rintro ⟨_, ⟨hlen, rfl⟩, header, hparse, rfl⟩
    exact ⟨hlen, header, hparse, rfl⟩
  · rintro ⟨hlen, header, hparse, rfl⟩
    exact ⟨_, ⟨hlen, rfl⟩, header, hparse, rfl⟩

theorem read_opened {c : QtrbEventCursor} (h : openStream artifact source = .ok c) :
    read mode artifact source = readFrom mode source (source.length + 1) c := by
  rw [read, h]

theorem read_refused {error : ProviderError} (h : openStream artifact source = .error error) :
    read mode artifact source = ⟨[], some (.failed error)⟩ := by
  rw [read, h]

theorem frames_head {fuel : ℕ} {c : QtrbEventCursor} (hbegan : c.began = false)
    (h : (readFrom .sealed source (fuel + 1) c).ending = some .drained) :
    ∃ first later, framesFrom source (fuel + 1) c.offset = first :: later ∧
      RecordType.fromRaw first.rawType = some .traceBegin ∧ ∀ frame ∈ later, first.stop < frame.stop := by
  match hturn : c.turn .sealed source with
  | .error _ => simp [readFrom_failed hturn] at h
  | .ok none =>
    obtain ⟨-, hlate, -⟩ := turn_drained.mp hturn
    simp [hbegan] at hlate
  | .ok (some (c', result)) =>
    obtain ⟨-, -, hnext⟩ := turn_advanced.mp hturn
    have hstands := QtrbEventCursor.nextRecord_stands hnext
    refine ⟨_, _, framesFrom_cons hnext, hstands.first hbegan, fun frame hmem => ?_⟩
    rw [← hstands.offset]
    exact framesFrom_stop hmem

/-- Where a finished record ends, the cut is a boundary outside every group. -/
theorem boundary_iff {cut : ℕ} {first : Frame} {later : List Frame} (hframes : frames source = first :: later)
    (htype : RecordType.fromRaw first.rawType = some .traceBegin)
    (hfirst : ∀ frame ∈ later, first.stop < frame.stop) :
    (∃ frame ∈ frames source, frame.stop = cut ∧ frame.unfinished = false) ↔
      BoundaryAfterBegin source cut ∧ ¬InsideFragmentGroup source cut := by
  constructor
  · rintro ⟨frame, hmem, hstop, hfinished⟩
    refine ⟨⟨⟨frame, hmem, hstop⟩, first, by simp [hframes], htype, ?_⟩, ?_⟩
    · rw [hframes] at hmem
      rcases List.mem_cons.mp hmem with rfl | hmem
      · exact hstop.le
      · exact hstop ▸ (hfirst frame hmem).le
    · rintro ⟨other, hother, hcut, hunfinished⟩
      obtain rfl := framesFrom_inj hmem hother (hstop.trans hcut.symm)
      simp [hfinished] at hunfinished
  · rintro ⟨⟨⟨frame, hmem, hstop⟩, -⟩, houtside⟩
    refine ⟨frame, hmem, hstop, ?_⟩
    rw [← Bool.not_eq_true]
    exact fun hunfinished => houtside ⟨frame, hmem, hstop, hunfinished⟩

/-- A call in two fragments between a begin and an end record. -/
def fragmentedCall : List UInt8 :=
  let zeros (count : ℕ) : List UInt8 := List.replicate count 0
  let fragment (index detail : ℕ) := leBytes 2 6 ++ leBytes 2 1 ++ leBytes 4 23 ++ leBytes 8 1 ++ leBytes 4 2 ++
    leBytes 2 index ++ leBytes 2 2 ++ zeros 4 ++ leBytes 2 1 ++ leBytes 1 detail
  magic ++ [1, 2, 1, 8, 0, 0, 16, 0, 1, 0, 0, 0] ++
    (leBytes 2 1 ++ leBytes 2 0 ++ leBytes 4 54 ++ zeros 24 ++ leBytes 4 7 ++ leBytes 4 9 ++ zeros 22) ++
    fragment 0 0x68 ++ fragment 1 0x69 ++
    (leBytes 2 9 ++ leBytes 2 0 ++ leBytes 4 97 ++ [1] ++ zeros 24 ++ leBytes 8 245 ++ zeros 64)

theorem fragmentedCall_accepted : (read .sealed [] fragmentedCall).ending = some .drained := by
  decide +kernel

end QTrace.Qtrb
