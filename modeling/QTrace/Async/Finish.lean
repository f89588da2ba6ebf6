import QTrace.Async.Turns

/-! The end of the file. Once everything written so far has been drained, the consumer has
nothing to do until `finish` publishes the last buffer; the bytes that buffer puts into the
file are then known, because compressing the same bytes again gives as many of them. -/

namespace QTrace.Async

open Lib

variable {Ctx : Type} {lz4 : Lz4 Ctx} {produced : List UInt8}

/-- Compressing the same bytes twice gives the same size. -/
def Lz4.SameSize (lz4 : Lz4 Ctx) : Prop :=
  ∀ {input context₁ context₂ context₁' context₂' bytes₁ bytes₂},
    lz4.frame context₁ input = some (context₁', bytes₁) →
      lz4.frame context₂ input = some (context₂', bytes₂) → bytes₁.length = bytes₂.length

/-- Rounds that find nothing left to do do not count. -/
theorem Lz4.updates_enough : ∀ {rounds rounds' : ℕ} {context : Ctx} {input : List UInt8},
    input.length ≤ rounds → input.length ≤ rounds' →
      lz4.updates rounds context input = lz4.updates rounds' context input
  | 0, rounds', context, input, h, _ => by
    obtain rfl : input = [] := List.length_eq_zero_iff.mp (by omega)
    cases rounds' <;> simp [updates]
  | rounds + 1, 0, context, input, _, h => by
    obtain rfl : input = [] := List.length_eq_zero_iff.mp (by omega)
    simp [updates]
  | rounds + 1, rounds' + 1, context, input, h, h' => by
    by_cases hinput : input = []
    · simp [updates, hinput]
    · have hpos := List.length_pos_iff.mpr hinput
      have hdrop : (input.drop compressionChunkBytes).length < input.length := by
        simp only [List.length_drop, compressionChunkBytes]
        omega
      have hrest : ∀ context, lz4.updates rounds context (input.drop compressionChunkBytes) =
          lz4.updates rounds' context (input.drop compressionChunkBytes) :=
        fun context => updates_enough (by omega) (by omega)
      simp only [updates, hrest]

theorem Lz4.updates_step {context context' context'' : Ctx} {input rest : List UInt8} (hinput : input ≠ [])
    (hround : lz4.compressUpdate context (input.take compressionChunkBytes) = some (context', produced))
    (hrest : lz4.updates (input.drop compressionChunkBytes).length context'
      (input.drop compressionChunkBytes) = some (context'', rest)) :
    lz4.updates input.length context input = some (context'', produced ++ rest) := by
  obtain ⟨rounds, hrounds⟩ : ∃ r, input.length = r + 1 :=
    Nat.exists_eq_succ_of_ne_zero (by simpa using hinput)
  have hdrop : (input.drop compressionChunkBytes).length ≤ rounds := by
    simp only [List.length_drop, compressionChunkBytes]
    omega
  rw [updates_enough le_rfl hdrop] at hrest
  simp [hrounds, updates, hinput, hround, hrest]

theorem Lz4.frame_of_measureFrame {context context' : Ctx} {input : List UInt8} {measured : ℕ}
    (h : lz4.measureFrame context input = some (context', measured)) :
    ∃ bytes, lz4.frame context input = some (context', bytes) ∧ measured = bytes.length := by
  unfold measureFrame at h
  split at h
  case h_1 => cases h
  case h_2 context'' bytes hframe =>
    split at h
    case isTrue => cases h
    case isFalse =>
      simp only [Option.some.injEq, Prod.mk.injEq] at h
      exact ⟨bytes, h.1 ▸ hframe, h.2.symm⟩

/-- Buffer `i` holds the record and no other buffer holds anything. -/
structure Loaded (s : Shared Ctx) (i : BufferIndex) (record : List UInt8) : Prop where
  used : (s.buffers i).used = record.length
  data : (s.buffers i).data.take record.length = record
  free : ∀ j, j ≠ i → (s.buffers j).state = .free

/-- The record is on its way: when the rest of it is written the file has `goal` bytes. -/
def Remains (lz4 : Lz4 Ctx) (record : List UInt8) (total goal : ℕ) (s : Shared Ctx) (offset : ℕ)
    (stage : FrameStage) : Prop :=
  if s.compressionEnabled then
    match stage with
    | .opening => offset = 0 ∧ s.file.length + total = goal
    | .body => ∀ {context context' body trailer},
        lz4.updates (record.drop offset).length s.context (record.drop offset) = some (context, body) →
          lz4.compressEnd context = some (context', trailer) →
            s.file.length + (body.length + trailer.length) = goal
  else s.file.length + (record.length - offset) = goal

/-- Where the consumer is after the last buffer, with the record in it, was published. -/
inductive Closing (lz4 : Lz4 Ctx) (record : List UInt8) (total goal : ℕ) (s : Shared Ctx) : Prop
  | failed (h : s.error ≠ 0 ∨ s.consumer.failing = true)
  | published (i : BufferIndex) (hconsumer : s.consumer = .scanning) (hready : (s.buffers i).state = .ready)
      (hloaded : Loaded s i record) (hfile : s.file.length + total = goal)
  | writing (i : BufferIndex) (offset : ℕ) (stage : FrameStage)
      (hconsumer : s.consumer = .writing i record.length offset stage) (hloaded : Loaded s i record)
      (hremains : Remains lz4 record total goal s offset stage)
  | releasing (i : BufferIndex) (hconsumer : s.consumer = .releasing i none) (hloaded : Loaded s i record)
      (hfile : s.file.length = goal)
  | drained (hconsumer : s.consumer = .scanning) (hfree : ∀ i, (s.buffers i).state = .free)
      (hfile : s.file.length = goal)
  | exited (hconsumer : s.consumer = .exited) (hfile : s.file.length = goal)

/-- How many bytes the record puts into the file. -/
structure Totals (lz4 : Lz4 Ctx) (record : List UInt8) (total : ℕ) (s : Shared Ctx) : Prop where
  raw : s.compressionEnabled = false → total = record.length
  framed : s.compressionEnabled = true → ∀ {context context' bytes},
    lz4.frame context record = some (context', bytes) → bytes.length = total

theorem Totals.congr {record : List UInt8} {total : ℕ} {s s' : Shared Ctx} (h : Totals lz4 record total s)
    (henabled : s'.compressionEnabled = s.compressionEnabled) : Totals lz4 record total s' :=
  ⟨fun hraw => h.raw (henabled ▸ hraw), fun hframed => h.framed (henabled ▸ hframed)⟩

/-- What the consumer reads in one round of the update loop. -/
theorem Loaded.input {s : Shared Ctx} {i : BufferIndex} {record : List UInt8} (h : Loaded s i record)
    (offset : ℕ) :
    ((s.buffers i).data.drop offset).take (min compressionChunkBytes (record.length - offset)) =
      (record.drop offset).take compressionChunkBytes := by
  conv_rhs => rw [← h.data, List.drop_take, List.take_take]

theorem drop_behind_chunk (record : List UInt8) (offset : ℕ) :
    record.drop (offset + min compressionChunkBytes (record.length - offset)) =
      (record.drop offset).drop compressionChunkBytes := by
  rw [List.drop_drop]
  rcases Nat.le_total compressionChunkBytes (record.length - offset) with h | h
  · rw [min_eq_left h]
  · rw [min_eq_right h, List.drop_of_length_le (by omega), List.drop_of_length_le (by omega)]

namespace Closing

variable {record : List UInt8} {total goal offset : ℕ} {s : Shared Ctx} {i : BufferIndex} {stage : FrameStage}

theorem oldest_ready (hready : (s.buffers i).state = .ready)
    (hfree : ∀ j, j ≠ i → (s.buffers j).state = .free) :
    oldest (fun i => (s.buffers i).state = .ready) (fun i => (s.buffers i).publicationSequence)
      [.first, .second] none = some i := by
  cases i with
  | first => simp [oldest, hready, hfree .second (by decide)]
  | second => simp [oldest, hready, hfree .first (by decide)]

theorem take (h : Closing lz4 record total goal s) (ht : Totals lz4 record total s)
    (hdone : s.producerDone = true) : Closing lz4 record total goal s.take := by
  by_cases he : s.error = 0
  case neg => exact .failed (Or.inl ((AsyncWriter.consumed_take s).error he))
  cases hc : s.consumer with
  | scanning =>
    cases h with
    | failed h => simp [he, hc, Consumer.failing] at h
    | published i _ hready hloaded hfile =>
      have htake : s.take = { s.setBuffer i { s.buffers i with state := .writing } with
          consumer := .writing i (s.buffers i).used 0 .opening } := by
        simp [Shared.take, hc, he, oldest_ready hready hloaded.free]
      rw [htake]
      refine .writing i 0 .opening (by rw [hloaded.used]) ?_ ?_
      · refine ⟨?_, ?_, fun j hj => ?_⟩
        · simpa [Shared.setBuffer] using hloaded.used
        · simpa [Shared.setBuffer] using hloaded.data
        · simpa [Shared.setBuffer, hj] using hloaded.free j hj
      · simp only [Remains, Shared.setBuffer]
        split_ifs with henabled
        · exact ⟨trivial, hfile⟩
        · rw [Nat.sub_zero, ← ht.raw (by simpa using henabled)]
          exact hfile
    | drained _ hfree hfile =>
      have htake : s.take = { s with consumer := .exited } := by
        simp [Shared.take, hc, he, oldest, hfree, hdone]
      rw [htake]
      exact .exited rfl hfile
    | _ => simp_all
  | _ => simpa only [Shared.take, hc] using h

/-- A round that reaches the file goes on, and one that does not fails. -/
theorem emit {next : Consumer} (outcome : WriteOutcome)
    (hnext : Closing lz4 record total goal { s.put produced with consumer := next }) :
    Closing lz4 record total goal (s.emit i produced outcome next) := by
  unfold Shared.emit Shared.writeAll
  cases outcome with
  | all =>
    dsimp only
    split_ifs
    · exact hnext
    · exact .failed (Or.inr rfl)
  | failed kept code => exact .failed (Or.inr rfl)

theorem writeFrame (hloaded : Loaded s i record) (ht : Totals lz4 record total s)
    (henabled : s.compressionEnabled = true) (hremains : Remains lz4 record total goal s offset stage)
    (outcome : WriteOutcome) :
    Closing lz4 record total goal (s.writeFrame lz4 i record.length offset stage outcome) := by
  unfold Shared.writeFrame
  cases stage with
  | opening =>
    simp only [Remains, henabled, if_true] at hremains
    obtain ⟨rfl, hfile⟩ := hremains
    dsimp only
    split
    case h_1 => exact .failed (Or.inr rfl)
    case h_2 context header hbegin =>
      refine emit outcome (.writing i 0 .body rfl ⟨hloaded.used, hloaded.data, hloaded.free⟩ ?_)
      simp only [Remains, Shared.put, henabled, if_true, List.drop_zero, List.length_append]
      intro context' context'' body trailer hbody hend
      have hframe : lz4.frame s.context record = some (context'', header ++ body ++ trailer) := by
        simp [Lz4.frame, hbegin, hbody, hend]
      have htotal := ht.framed henabled hframe
      simp only [List.length_append] at htotal
      omega
  | body =>
    simp only [Remains, henabled, if_true] at hremains
    dsimp only
    split
    case isTrue hlt =>
      have hinput := hloaded.input offset
      rw [hinput]
      split
      case h_1 => exact .failed (Or.inr rfl)
      case h_2 context produced hround =>
        refine emit _ (.writing i _ .body rfl ⟨hloaded.used, hloaded.data, hloaded.free⟩ ?_)
        simp only [Remains, Shared.put, henabled, if_true, List.length_append]
        intro context' context'' body trailer hbody hend
        have hne : record.drop offset ≠ [] := by
          rw [ne_eq, List.drop_eq_nil_iff]
          omega
        rw [drop_behind_chunk] at hbody
        have hfile := hremains (Lz4.updates_step hne hround hbody) hend
        rw [List.length_append] at hfile
        omega
    case isFalse hge =>
      split
      case h_1 => exact .failed (Or.inr rfl)
      case h_2 context trailer hend =>
        refine emit outcome (.releasing i rfl ⟨hloaded.used, hloaded.data, hloaded.free⟩ ?_)
        have hnil : record.drop offset = [] := List.drop_of_length_le (by omega)
        rw [hnil] at hremains
        have hfile := hremains rfl hend
        simpa [Shared.put] using hfile

theorem writeRaw (hloaded : Loaded s i record) (henabled : s.compressionEnabled = false)
    (hremains : Remains lz4 record total goal s offset stage) (count : ℕ) (outcome : WriteOutcome) :
    Closing lz4 record total goal (s.writeRaw i record.length offset count outcome) := by
  simp only [Remains, henabled, Bool.false_eq_true, if_false] at hremains
  unfold Shared.writeRaw
  dsimp only
  split
  case isTrue hlt =>
    refine emit outcome (.writing i _ .body rfl ⟨hloaded.used, hloaded.data, hloaded.free⟩ ?_)
    have hdata : record.length ≤ (s.buffers i).data.length := by
      have hlength := congrArg List.length hloaded.data
      rw [List.length_take] at hlength
      omega
    simp only [Remains, Shared.put, henabled, Bool.false_eq_true, if_false, List.length_append,
      List.length_take, List.length_drop]
    omega
  case isFalse hge =>
    refine .releasing i rfl ⟨hloaded.used, hloaded.data, hloaded.free⟩ ?_
    show s.file.length = goal
    omega

theorem write (h : Closing lz4 record total goal s) (ht : Totals lz4 record total s) (count : ℕ)
    (outcome : WriteOutcome) : Closing lz4 record total goal (s.write lz4 count outcome) := by
  cases hc : s.consumer with
  | writing j size start turn =>
    cases h with
    | failed h =>
      have he := h.resolve_right (by simp [hc, Consumer.failing])
      exact .failed (Or.inl ((AsyncWriter.consumed_write s count outcome).error he))
    | writing i offset stage hc hloaded hremains =>
      simp only [Shared.write, hc]
      split_ifs with henabled
      · exact writeFrame hloaded ht henabled hremains outcome
      · exact writeRaw hloaded (by simpa using henabled) hremains count outcome
    | _ => simp_all
  | _ => simpa only [Shared.write, hc] using h

theorem release (h : Closing lz4 record total goal s) : Closing lz4 record total goal s.release := by
  cases hc : s.consumer with
  | releasing j outcome =>
    cases h with
    | failed h =>
      refine .failed (Or.inl ?_)
      obtain he | hfailing := h
      · exact (AsyncWriter.consumed_release s).error he
      · simp only [Shared.release, hc]
        cases outcome with
        | none => simp [hc, Consumer.failing] at hfailing
        | some code => exact Shared.error_latchFailure_ne _ code
    | releasing i hc hloaded hfile =>
      simp only [Shared.release, hc]
      refine .drained rfl (fun j => ?_) hfile
      by_cases hj : j = i
      · simp [Shared.setBuffer, hj]
      · simpa [Shared.setBuffer, hj] using hloaded.free j hj
    | _ => simp_all
  | _ => simpa only [Shared.release, hc] using h

end Closing

namespace AsyncWriter

variable {w w' : AsyncWriter Ctx} {i : BufferIndex} {turns rest : List Turn} {frameBytes : ℕ}

/-- The consumer waits for a buffer and the producer fills `i`. -/
structure Idle (w : AsyncWriter Ctx) (i : BufferIndex) : Prop where
  error : w.error = 0
  activeBuffer : w.activeBuffer = some i
  filling : (w.buffers i).state = .filling
  free : ∀ j, j ≠ i → (w.buffers j).state = .free
  consumer : w.consumer = .scanning
  producerDone : w.producerDone = false

theorem Idle.not_ready (h : w.Idle i) (j : BufferIndex) : (w.buffers j).state ≠ .ready := by
  by_cases hj : j = i
  · rw [hj, h.filling]
    decide
  · rw [h.free j hj]
    decide

theorem Idle.consume (h : w.Idle i) (step : ConsumerStep) : w.consume lz4 step = w := by
  cases step with
  | take =>
    simp [AsyncWriter.consume, Shared.take, h.consumer, h.error, oldest, h.not_ready, h.producerDone]
  | write count outcome => simp [AsyncWriter.consume, Shared.write, h.consumer]
  | release => simp [AsyncWriter.consume, Shared.release, h.consumer]

theorem Idle.consumeAll (h : w.Idle i) : ∀ steps : List ConsumerStep, w.consumeAll lz4 steps = w
  | [] => rfl
  | step :: steps => by
    rw [AsyncWriter.consumeAll, List.foldl_cons, h.consume]
    exact h.consumeAll steps

/-- A call that returns at once finds the writer as it was left. -/
theorem Idle.perform {step : ProducerStep} (h : w.Idle i) (hp : w.producer = .running)
    (honce : (w.call lz4 step).producer = .running) (hrun : perform lz4 step w turns = some (w', rest)) :
    w' = w.call lz4 step := by
  cases turns with
  | nil => simp [AsyncWriter.perform] at hrun
  | cons turn turns =>
    rw [AsyncWriter.perform, h.consumeAll, produce, if_pos hp, settle_running honce] at hrun
    simp only [Option.some.injEq, Prod.mk.injEq] at hrun
    exact hrun.1.symm

/-- An idle writer between two calls whose open buffer holds just `bytes`. -/
structure Waiting (w : AsyncWriter Ctx) (i : BufferIndex) (bytes : List UInt8) : Prop extends Idle w i where
  producer : w.producer = .running
  opened : w.opened = true
  finishCalled : w.finishCalled = false
  reservationActive : w.reservationActive = false
  used : (w.buffers i).used = bytes.length
  data : (w.buffers i).data.take bytes.length = bytes

/-- What the footer queries check leaves the consumer without work. -/
theorem waiting_of_drained (h : w.Inv) (hp : w.producer = .running) (hdrained : w.drained = true) :
    ∃ i, w.Waiting i [] := by
  simp only [drained, Bool.and_eq_true, Bool.not_eq_true', decide_eq_true_eq] at hdrained
  obtain ⟨⟨⟨⟨hopened, hfinish⟩, hspan⟩, he⟩, hbuffers⟩ := hdrained
  split at hbuffers
  case h_1 => cases hbuffers
  case h_2 i hi =>
    simp only [Bool.and_eq_true, decide_eq_true_eq, List.all_eq_true, Bool.or_eq_true] at hbuffers
    obtain ⟨hused, hothers⟩ := hbuffers
    have hfree : ∀ j, j ≠ i → (w.buffers j).state = .free := fun j hj =>
      (hothers j j.mem_all).resolve_left hj
    obtain ⟨queue, hgood⟩ := (h.running he).good
    have hfilling := hgood.active_state hi
    have hdone : w.producerDone = false := by
      by_contra hdone
      rw [hgood.stopped (by simpa using hdone)] at hi
      cases hi
    have hheld : ∀ j, w.consumer.held ≠ some j := by
      intro j hj
      have hwriting := (hgood.writing j).mpr hj
      by_cases hji : j = i
      · rw [hji, hfilling] at hwriting
        cases hwriting
      · rw [hfree j hji] at hwriting
        cases hwriting
    have hconsumer : w.consumer = .scanning := by
      cases hc : w.consumer with
      | scanning => rfl
      | writing j size offset stage => exact absurd (by rw [hc]; rfl) (hheld j)
      | releasing j outcome => exact absurd (by rw [hc]; rfl) (hheld j)
      | exited =>
        rw [(hgood.exited hc).1] at hdone
        cases hdone
    exact ⟨i, ⟨he, hi, hfilling, hfree, hconsumer, hdone⟩, hp, hopened, hfinish, hspan, hused, rfl⟩

theorem Waiting.give {bytes : List UInt8} (h : w.Waiting i bytes) (result : Returned) :
    (w.give result).Waiting i bytes :=
  ⟨⟨h.error, h.activeBuffer, h.filling, h.free, h.consumer, h.producerDone⟩, rfl, h.opened, h.finishCalled,
    h.reservationActive, h.used, h.data⟩

/-- The target of a file with the record behind it, as `final_file_target` computes it. -/
structure Targeted (lz4 : Lz4 Ctx) (w : AsyncWriter Ctx) (recordBytes target : ℕ) : Prop where
  raw : w.compressionEnabled = false → target = w.compressedBytes.toNat + recordBytes
  framed : w.compressionEnabled = true → ∃ bound, lz4.compressFrameBound recordBytes = some bound ∧
    target = w.compressedBytes.toNat + (bound + 8)
  fits : target ≤ uint64Max

theorem finalFileTarget_spec {recordBytes target : ℕ} (h : w.Inv) (hp : w.producer = .running)
    (hret : (w.finalFileTarget lz4 recordBytes).returned = .target (some target)) :
    w.finalFileTarget lz4 recordBytes = w.give (.target (some target)) ∧ (∃ i, w.Waiting i []) ∧
      Targeted lz4 w recordBytes target := by
  unfold finalFileTarget at hret ⊢
  split at hret
  case isTrue => simp [AsyncWriter.give] at hret
  case isFalse hguard =>
    simp only [Bool.or_eq_true, decide_eq_true_eq, Bool.not_eq_true', not_or, Bool.not_eq_false] at hguard
    rw [if_neg (by simpa using hguard)]
    split at hret
    case h_1 => simp [AsyncWriter.give] at hret
    case h_2 suffixBytes hsuffix =>
      split at hret
      case isTrue => simp [AsyncWriter.give] at hret
      case isFalse hfits =>
        simp only [AsyncWriter.give, Returned.target.injEq, Option.some.injEq] at hret
        subst hret
        simp only [if_neg hfits]
        simp only [Bool.or_eq_true, decide_eq_true_eq, not_or, Nat.not_lt] at hfits
        refine ⟨trivial, waiting_of_drained h hp hguard.2, ?_, ?_, by omega⟩
        · intro hraw
          rw [hraw] at hsuffix
          simp only [Bool.false_eq_true, if_false, Option.some.injEq] at hsuffix
          rw [hsuffix]
        · intro hframed
          rw [hframed] at hsuffix
          simp only [if_true, Option.map_eq_some_iff] at hsuffix
          obtain ⟨bound, hbound, rfl⟩ := hsuffix
          exact ⟨bound, hbound, rfl⟩

/-- The padding behind the record, as `final_frame_padding` measures it. -/
structure Padded (lz4 : Lz4 Ctx) (w : AsyncWriter Ctx) (record : List UInt8) (padding : ℕ) : Prop where
  raw : w.compressionEnabled = false → padding = 0
  framed : w.compressionEnabled = true → ∃ bound context bytes,
    lz4.compressFrameBound record.length = some bound ∧ lz4.frame w.context record = some (context, bytes) ∧
      bytes.length ≤ bound ∧ padding = bound + 8 - bytes.length

theorem finalFramePadding_spec {record : List UInt8} {padding : ℕ}
    (hret : (w.finalFramePadding lz4 record).returned = .padding (some padding)) :
    (∃ context, w.finalFramePadding lz4 record = { w with context }.give (.padding (some padding))) ∧
      Padded lz4 w record padding := by
  unfold finalFramePadding at hret ⊢
  split at hret
  case isTrue => simp [AsyncWriter.give] at hret
  case isFalse hguard =>
    rw [if_neg hguard]
    split at hret
    case isTrue hraw =>
      simp only [AsyncWriter.give, Returned.padding.injEq, Option.some.injEq] at hret
      subst hret
      rw [if_pos hraw]
      exact ⟨⟨w.context, rfl⟩, fun _ => rfl, fun hframed => by simp [hframed] at hraw⟩
    case isFalse hframed =>
      rw [if_neg hframed]
      cases hmeasure : lz4.measureFrame w.context record with
      | none => simp [hmeasure, AsyncWriter.give] at hret
      | some result =>
        obtain ⟨context, measured⟩ := result
        obtain ⟨bytes, hframe, rfl⟩ := Lz4.frame_of_measureFrame hmeasure
        simp only [hmeasure] at hret ⊢
        split at hret
        case h_1 => simp [AsyncWriter.give] at hret
        case h_2 bound hbound =>
          split at hret
          case isTrue => simp [AsyncWriter.give] at hret
          case isFalse hfits =>
            simp only [AsyncWriter.give, Returned.padding.injEq, Option.some.injEq] at hret
            simp only [if_neg hfits]
            simp only [Bool.or_eq_true, decide_eq_true_eq, not_or, Nat.not_lt] at hfits
            subst hret
            exact ⟨⟨context, rfl⟩, fun hraw => by simp [hraw] at hframed,
              fun _ => ⟨bound, context, bytes, hbound, hframe, hfits.1, rfl⟩⟩

theorem length_skippableFrame (h : 8 ≤ frameBytes) : (skippableFrame frameBytes).length = frameBytes := by
  simp only [skippableFrame, List.length_append, length_leBytes, List.length_replicate]
  omega

variable {record : List UInt8} {total goal padding closeError capacity : ℕ} {outcome : WriteOutcome}

/-- The writer waits in `finish` for the consumer, which writes the last record. -/
structure Joining (lz4 : Lz4 Ctx) (record : List UInt8) (total goal padding : ℕ) (w : AsyncWriter Ctx) :
    Prop where
  producer : w.producer = .joining padding
  producerDone : w.producerDone = true
  closing : Closing lz4 record total goal w.toShared
  totals : Totals lz4 record total w.toShared

theorem Joining.consume (h : Joining lz4 record total goal padding w) (step : ConsumerStep) :
    Joining lz4 record total goal padding (w.consume lz4 step) := by
  cases step with
  | take =>
    have hs := consumed_take w.toShared
    exact ⟨h.producer, hs.producerDone.trans h.producerDone, h.closing.take h.totals h.producerDone,
      h.totals.congr hs.compressionEnabled⟩
  | write count outcome =>
    have hs : Consumed w.toShared (w.toShared.write lz4 count outcome) := consumed_write _ count outcome
    exact ⟨h.producer, hs.producerDone.trans h.producerDone, h.closing.write h.totals count outcome,
      h.totals.congr hs.compressionEnabled⟩
  | release =>
    have hs := consumed_release w.toShared
    exact ⟨h.producer, hs.producerDone.trans h.producerDone, h.closing.release,
      h.totals.congr hs.compressionEnabled⟩

theorem Joining.consumeAll : ∀ (steps : List ConsumerStep) {w : AsyncWriter Ctx},
    Joining lz4 record total goal padding w → Joining lz4 record total goal padding (w.consumeAll lz4 steps)
  | [], _, h => h
  | step :: steps, _, h => Joining.consumeAll steps (h.consume step)

/-- What a `finish` that answers `true` leaves. -/
structure Finished (w w' : AsyncWriter Ctx) (goal padding : ℕ) : Prop where
  error : w'.error = 0
  committed : w'.committed = w.committed
  metrics : w'.metrics = { w.metrics with compressedBytes := w'.compressedBytes }
  counted : Counted w.toShared → Counted w'.toShared
  length : w'.file.length = goal + padding

/-- A padding frame that latches no error is in the file. -/
theorem writeSkippableFrame_eq (herror : (w.writeSkippableFrame frameBytes outcome).error = 0) : 8 ≤ frameBytes ∧
      w.writeSkippableFrame frameBytes outcome =
        { w with toShared := w.toShared.put (skippableFrame frameBytes) } := by
  have hlatch : ∀ (v : AsyncWriter Ctx) code, (v.latchFailure code).error ≠ 0 :=
    fun v code => Shared.error_latchFailure_ne _ code
  unfold writeSkippableFrame at herror ⊢
  split at herror
  case isTrue => exact absurd herror (hlatch _ _)
  case isFalse hsize =>
    simp only [Bool.or_eq_true, decide_eq_true_eq, not_or, Nat.not_lt] at hsize
    refine ⟨hsize.1, ?_⟩
    rw [if_neg (by simp; omega)]
    cases outcome with
    | failed kept code => exact absurd herror (hlatch _ _)
    | all =>
      by_cases hbound : w.file.length + (skippableFrame frameBytes).length ≤ maxFileBytes
      · simp only [Shared.writeAll, if_pos hbound]
      · simp only [Shared.writeAll, if_neg hbound] at herror
        exact absurd herror (hlatch _ _)

/-- Giving the resources back without an error changes nothing but the buffers. -/
theorem releaseConsumerResources_eq (herror : (w.releaseConsumerResources closeError).error = 0) : w.error = 0 ∧
      w.releaseConsumerResources closeError = { w with
        bufferBytes := 0
        buffers := fun i => { w.buffers i with data := [], used := 0, state := .free } } := by
  unfold releaseConsumerResources at herror ⊢
  dsimp only at herror ⊢
  split at herror
  case isTrue => exact absurd herror (Shared.error_latchFailure_ne _ _)
  case isFalse hclose => exact ⟨herror, if_neg hclose⟩

theorem finished_joined (h : Joining lz4 record total goal padding w) (hc : w.consumer = .exited)
    (hok : (w.joined padding outcome closeError).returned = .finished true) :
    Finished w (w.joined padding outcome closeError) goal padding := by
  unfold joined at hok ⊢
  dsimp only at hok ⊢
  generalize hpadded : (if w.error = 0 ∧ padding ≠ 0 then w.writeSkippableFrame padding outcome else w) = v
    at hok ⊢
  have herror : (v.releaseConsumerResources closeError).error = 0 := by
    simpa [give] using hok
  obtain ⟨hv, hreleased⟩ := releaseConsumerResources_eq herror
  have hw : w.error = 0 := by
    by_contra hne
    rw [if_neg (by simp [hne])] at hpadded
    exact hne (hpadded ▸ hv)
  have hgoal : w.file.length = goal := by
    cases h.closing with
    | failed hf => simp [hc, Consumer.failing, hw] at hf
    | exited _ hfile => exact hfile
    | _ => simp_all
  have hlength : v.file.length = goal + padding ∧ v.committed = w.committed ∧ v.metrics = w.metrics ∧
      (Counted w.toShared → Counted v.toShared) := by
    by_cases hpadding : padding = 0
    · rw [if_neg (by simp [hpadding])] at hpadded
      subst hpadded
      exact ⟨by omega, rfl, rfl, id⟩
    · rw [if_pos ⟨hw, hpadding⟩] at hpadded
      subst hpadded
      obtain ⟨hsize, hframe⟩ := writeSkippableFrame_eq hv
      rw [hframe]
      refine ⟨?_, rfl, rfl, fun hcounted => hcounted.put _⟩
      simp [Shared.put, length_skippableFrame hsize, hgoal]
  obtain ⟨hlength, hcommitted, hmetrics, hcounted⟩ := hlength
  simp only [hreleased, give]
  exact ⟨hv, hcommitted, by simp [hmetrics], hcounted, hlength⟩

theorem Finished.of_elapsed {v : AsyncWriter Ctx} (h : Elapsed w v) (hfinished : Finished v w' goal padding) :
    Finished w w' goal padding := by
  have hcommitted := congrArg Books.committed h.books
  exact ⟨hfinished.error, hfinished.committed.trans hcommitted, h.metrics ▸ hfinished.metrics,
    hfinished.counted ∘ h.counted, hfinished.length⟩

/-- The wait for the consumer ends with the whole file written. -/
theorem settle_joining (h : w.Inv) (hjoining : Joining lz4 record total goal padding w)
    (hsettle : settle lz4 turns w = some (w', rest)) (hok : w'.returned = .finished true) :
    w'.Inv ∧ Finished w w' goal padding := by
  have hsettled := settle_rule (P := fun v => v.Inv ∧
    (Joining lz4 record total goal padding v ∧ Elapsed w v ∨
      v.producer = .running ∧ (v.returned = .finished true → Finished w v goal padding))) ?_
    ⟨h, Or.inl ⟨hjoining, Elapsed.refl w⟩⟩ hsettle
  · obtain ⟨⟨hinv, ⟨hjoining, -⟩ | ⟨-, hfinished⟩⟩, hrunning⟩ := hsettled
    · rw [hjoining.producer] at hrunning
      cases hrunning
    · exact ⟨hinv, hfinished hok⟩
  · rintro v steps wake ⟨hinv, hcase⟩ hp
    obtain ⟨hjoining, helapsed⟩ := hcase.resolve_right fun hr => hp hr.1
    obtain ⟨hinv, hpass⟩ := elapsed_consumeAll steps hinv
    have hjoining := hjoining.consumeAll steps
    have helapsed := helapsed.trans hpass
    generalize v.consumeAll lz4 steps = u at hinv hjoining helapsed
    refine ⟨hinv.produce wake, ?_⟩
    rw [produce, if_neg (by rw [hjoining.producer]; simp)]
    cases wake with
    | resume waited =>
      left
      simpa only [proceed, hjoining.producer] using And.intro hjoining helapsed
    | join outcome closeError =>
      by_cases hc : u.consumer = .exited
      · right
        simp only [proceed, hjoining.producer, hc]
        exact ⟨rfl, fun hok => (finished_joined hjoining hc hok).of_elapsed helapsed⟩
      · left
        have hsame : u.proceed (.join outcome closeError) = u := by
          simp only [proceed, hjoining.producer]
          split
          case h_1 _ hexited => exact absurd hexited hc
          case h_2 => rfl
        rw [hsame]
        exact ⟨hjoining, helapsed⟩
    | joinFailed code =>
      right
      simp only [proceed, hjoining.producer]
      exact ⟨rfl, fun hok => by simp [joinFailed, give] at hok⟩
    | _ => exact Or.inl ⟨hjoining, helapsed⟩

theorem producer_finalFileTarget (w : AsyncWriter Ctx) (recordBytes : ℕ) :
    (w.finalFileTarget lz4 recordBytes).producer = .running := by
  unfold finalFileTarget
  split
  · rfl
  · split
    · rfl
    · split_ifs <;> rfl

/-- A file target is only computed for a drained writer. -/
theorem perform_finalFileTarget {recordBytes target : ℕ} (h : w.Inv) (hp : w.producer = .running)
    (hrun : perform lz4 (.finalFileTarget recordBytes) w turns = some (w', rest))
    (hret : w'.returned = .target (some target)) :
    w'.Inv ∧ Ledger w w' ∧ w'.metrics = w.metrics ∧ (∃ i, w'.Waiting i []) ∧
      Targeted lz4 w' recordBytes target := by
  have honce : ∀ v : AsyncWriter Ctx, (v.call lz4 (.finalFileTarget recordBytes)).producer = .running :=
    fun v => producer_finalFileTarget v recordBytes
  obtain ⟨v, hv, hpass, rfl⟩ := perform_at_once h hp honce hrun
  obtain ⟨htarget, ⟨i, hwaiting⟩, htargeted⟩ := finalFileTarget_spec hv (hpass.producer.trans hp) hret
  have hinv : (v.call lz4 (.finalFileTarget recordBytes)).Inv := hv.call _
  have hcall : v.call lz4 (.finalFileTarget recordBytes) = v.give (.target (some target)) := htarget
  rw [hcall] at hinv ⊢
  exact ⟨hinv, ⟨hpass.books, hpass.error, hpass.counted⟩, hpass.metrics, ⟨i, hwaiting.give _⟩,
    htargeted.raw, htargeted.framed, htargeted.fits⟩

theorem producer_finalFramePadding (w : AsyncWriter Ctx) (record : List UInt8) :
    (w.finalFramePadding lz4 record).producer = .running := by
  unfold finalFramePadding
  split_ifs
  · rfl
  · rfl
  · split
    · rfl
    · dsimp only
      split
      · rfl
      · split_ifs <;> rfl

theorem Waiting.perform_finalFramePadding (h : w.Waiting i [])
    (hrun : perform lz4 (.finalFramePadding record) w turns = some (w', rest))
    (hret : w'.returned = .padding (some padding)) :
    w'.Waiting i [] ∧ (∃ context, w' = { w with context }.give (.padding (some padding))) ∧
      Padded lz4 w record padding := by
  have honce : (w.call lz4 (.finalFramePadding record)).producer = .running := producer_finalFramePadding w record
  obtain rfl := h.toIdle.perform h.producer honce hrun
  obtain ⟨⟨context, hw'⟩, hpadded⟩ := finalFramePadding_spec hret
  have hcall : w.call lz4 (.finalFramePadding record) = { w with context }.give (.padding (some padding)) := hw'
  refine ⟨?_, ⟨context, hcall⟩, hpadded⟩
  rw [hcall]
  exact ⟨⟨h.error, h.activeBuffer, h.filling, h.free, h.consumer, h.producerDone⟩, rfl, h.opened,
    h.finishCalled, h.reservationActive, h.used, h.data⟩

/-- A drained writer grants the whole of its empty buffer. -/
theorem Waiting.perform_reserve {minimum : ℕ} (h : w.Waiting i [])
    (hrun : perform lz4 (.reserve minimum) w turns = some (w', rest))
    (hret : w'.returned = .span (some capacity)) :
    minimum ≤ w.bufferBytes ∧ w' = (w.grant w.bufferBytes).give (.span (some w.bufferBytes)) := by
  have hused : (w.buffers i).used = 0 := h.used
  have hcall : w.call lz4 (.reserve minimum) = if minimum = 0 ∨ w.bufferBytes < minimum then
      w.refuse .reserve else (w.grant w.bufferBytes).give (.span (some w.bufferBytes)) := by
    simp only [call, reserveFor, h.opened, h.finishCalled, h.reservationActive, h.error, h.activeBuffer, hused]
    by_cases hmin : minimum = 0
    · simp [hmin]
    · by_cases hfits : w.bufferBytes < minimum
      · simp [hfits]
      · simp [hmin, hfits, grantTo]
  have honce : (w.call lz4 (.reserve minimum)).producer = .running := by
    rw [hcall]
    split_ifs <;> rfl
  obtain rfl := h.toIdle.perform h.producer honce hrun
  rw [hcall] at hret ⊢
  split_ifs at hret ⊢ with hguard
  · simp [refuse, AsyncWriter.give] at hret
  · exact ⟨by omega, rfl⟩

/-- The record is committed to an empty buffer, and nothing else happens. -/
structure Appended (w w' : AsyncWriter Ctx) (record : List UInt8) : Prop where
  metrics : w'.metrics =
    { w.metrics with encodedBytes := w.metrics.encodedBytes + UInt64.ofNat record.length }
  committed : w'.committed = w.committed ++ record
  file : w'.file = w.file
  compressedBytes : w'.compressedBytes = w.compressedBytes
  compressionEnabled : w'.compressionEnabled = w.compressionEnabled

theorem Waiting.perform_write {w₁ w₂ : AsyncWriter Ctx} {turns₁ turns₂ : List Turn} (h : w.Waiting i [])
    (hreserve : perform lz4 (.reserve record.length) w turns = some (w₁, turns₁))
    (hspan : w₁.returned = .span (some capacity))
    (hfill : perform lz4 (.fill record) w₁ turns₁ = some (w₂, turns₂))
    (hcommit : perform lz4 (.commit record.length) w₂ turns₂ = some (w', rest)) :
    w'.Waiting i record ∧ Appended w w' record := by
  obtain ⟨hfits, rfl⟩ := h.perform_reserve hreserve hspan
  have hidle₁ : ((w.grant w.bufferBytes).give (.span (some w.bufferBytes))).Idle i :=
    ⟨h.error, h.activeBuffer, h.filling, h.free, h.consumer, h.producerDone⟩
  obtain rfl := hidle₁.perform rfl rfl hfill
  have hcall : ((w.grant w.bufferBytes).give (.span (some w.bufferBytes))).call lz4 (.fill record) =
      ({ (w.grant w.bufferBytes).give (.span (some w.bufferBytes)) with
        toShared := w.toShared.fill i record }).give .nothing :=
    congrArg (AsyncWriter.give · .nothing) (fill_eq rfl h.activeBuffer hfits)
  rw [hcall] at hcommit
  generalize hw₂ : ({ (w.grant w.bufferBytes).give (.span (some w.bufferBytes)) with
        toShared := w.toShared.fill i record }).give .nothing = w₂ at hcommit
  have hstate : ∀ j, (w₂.buffers j).state = (w.buffers j).state := by
    subst hw₂
    exact Shared.Good.forall_setBuffer (P := fun j b => b.state = (w.buffers j).state) rfl fun _ _ => rfl
  have hidle₂ : w₂.Idle i := by
    subst hw₂
    exact ⟨h.error, h.activeBuffer, (hstate i).trans h.filling, fun j hj => (hstate j).trans (h.free j hj),
      h.consumer, h.producerDone⟩
  obtain rfl := hidle₂.perform (by rw [← hw₂]; rfl) rfl hcommit
  have hcommitted : w₂.commit record.length = { w₂ with
      toShared := w₂.toShared.advance i record.length
      metrics := { w₂.metrics with encodedBytes := w₂.metrics.encodedBytes + UInt64.ofNat record.length }
      reservationActive := false
      reservationCapacity := 0 } := by
    subst hw₂
    simp only [commit, AsyncWriter.give, grant, h.opened, h.finishCalled, Shared.fill, Shared.setBuffer,
      h.activeBuffer]
    rw [if_neg (by simp), if_neg (by simpa using hfits)]
  have hresult : w₂.call lz4 (.commit record.length) = _ := congrArg (AsyncWriter.give · .nothing) hcommitted
  have hused : (w.buffers i).used = 0 := h.used
  have hdata : (w₂.buffers i).data = overwrite (w.buffers i).data 0 record ∧ (w₂.buffers i).used = 0 := by
    subst hw₂
    simp [AsyncWriter.give, grant, Shared.fill, Shared.setBuffer, hused]
  have hread : (overwrite (w.buffers i).data 0 record).take record.length = record :=
    read_overwrite (Nat.zero_le _)
  rw [hresult]
  refine ⟨⟨⟨?_, ?_, ?_, ?_, ?_, ?_⟩, rfl, ?_, ?_, rfl, ?_, ?_⟩, ?_⟩
  · exact hidle₂.error
  · exact hidle₂.activeBuffer
  · simpa [AsyncWriter.give, Shared.advance, Shared.setBuffer] using hidle₂.filling
  · intro j hj
    simpa [AsyncWriter.give, Shared.advance, Shared.setBuffer, hj] using hidle₂.free j hj
  · exact hidle₂.consumer
  · exact hidle₂.producerDone
  · rw [← hw₂]
    exact h.opened
  · rw [← hw₂]
    exact h.finishCalled
  · simp [AsyncWriter.give, Shared.advance, Shared.setBuffer, hdata.2]
  · simpa [AsyncWriter.give, Shared.advance, Shared.setBuffer, hdata.1] using hread
  · refine ⟨by rw [← hw₂]; rfl, ?_, by rw [← hw₂]; rfl, by rw [← hw₂]; rfl, by rw [← hw₂]; rfl⟩
    have hcommitted₂ : w₂.committed = w.committed := by rw [← hw₂]; rfl
    simp [AsyncWriter.give, Shared.advance, Shared.setBuffer, hdata.1, hdata.2, hread, hcommitted₂]

/-- `finish` publishes the record, waits until it is written and pads the file. -/
theorem Waiting.perform_finish (h : w.Waiting i record) (hinv : w.Inv) (hne : record ≠ [])
    (ht : Totals lz4 record total w.toShared)
    (hrun : perform lz4 (.finish padding) w turns = some (w', rest))
    (hok : w'.returned = .finished true) :
    w'.Inv ∧ Finished { w with metrics := { w.metrics with bufferSwaps := w.metrics.bufferSwaps + 1 } } w'
      (w.file.length + total) padding := by
  cases turns with
  | nil => simp [AsyncWriter.perform] at hrun
  | cons turn turns =>
    rw [AsyncWriter.perform, h.toIdle.consumeAll, produce, if_pos h.producer] at hrun
    have hused : (w.buffers i).used ≠ 0 := by
      rw [h.used]
      simpa using hne
    have hcall : w.call lz4 (.finish padding) = { w.swap i with
        activeBuffer := none
        producerDone := true
        producer := .joining padding
        returned := .nothing } := by
      simp [call, finish, h.finishCalled, h.opened, h.reservationActive, h.activeBuffer, h.error, handIn, hused]
    have hjoining : Joining lz4 record total (w.file.length + total) padding (w.call lz4 (.finish padding)) := by
      rw [hcall]
      refine ⟨rfl, rfl, .published i h.consumer ?_ ⟨?_, ?_, fun j hj => ?_⟩ rfl, ht.congr rfl⟩
      · simp [swap, Shared.publish, Shared.setBuffer]
      · simpa [swap, Shared.publish, Shared.setBuffer] using h.used
      · simpa [swap, Shared.publish, Shared.setBuffer] using h.data
      · simpa [swap, Shared.publish, Shared.setBuffer, hj] using h.free j hj
    obtain ⟨hinv, hfinished⟩ := settle_joining (hinv.call _) hjoining hrun hok
    rw [hcall] at hfinished
    exact ⟨hinv, hfinished.error, hfinished.committed, hfinished.metrics, hfinished.counted,
      hfinished.length⟩

end AsyncWriter

end QTrace.Async
