import QTrace.Async.Delivery
import QTrace.Async.Writer

/-! Every interleaving of the two threads delivers the committed bytes. The invariant of
the double buffer is carried through the producer's calls and the consumer's steps, as
long as no error is latched; that each buffer has one owner is kept even after one. -/

namespace QTrace.Async

open Lib

variable {Ctx : Type} {lz4 : Lz4 Ctx}

/-- The answer says that everything committed has been written. -/
def Returned.claims : Returned → Bool
  | .drained ok => ok
  | .finished ok => ok
  | _ => false

namespace AsyncWriter

/-- What holds of an error-free writer between two steps. -/
structure Running (w : AsyncWriter Ctx) : Prop where
  good : ∃ queue, w.toShared.Good queue
  reserved : w.reservationActive = true → ∃ i, w.activeBuffer = some i ∧
    (w.buffers i).used + w.reservationCapacity ≤ w.bufferBytes
  result : w.finishResult = true → w.finishCalled = true ∧
    (w.consumer.failing = false → w.handed = w.committed)

/-- A call that answered that everything is written tells the truth. -/
def Reported (w : AsyncWriter Ctx) : Prop :=
  w.returned.claims = true → w.consumer.failing = false → w.handed = w.committed

/-- The producer can take a free buffer: it has none and it is not done. -/
def MayAcquire (w : AsyncWriter Ctx) : Prop :=
  w.activeBuffer = none ∧ w.producerDone = false ∧ w.reservationActive = false

/-- The invariant inside a call: an active buffer is not in the consumer's hands. -/
structure Kept (w : AsyncWriter Ctx) : Prop where
  exclusive : ∀ i, w.activeBuffer = some i → w.consumer.held ≠ some i
  running : w.error = 0 → w.Running

/-- The invariant between two steps. -/
structure Inv (w : AsyncWriter Ctx) : Prop extends Kept w where
  waiting : w.error = 0 → (∃ caller, w.producer = .acquiring caller) ∨ w.producer = .draining →
    w.MayAcquire
  reported : w.error = 0 → w.Reported

variable {w w' : AsyncWriter Ctx} {i : BufferIndex} {r : Returned} {capacity : ℕ} {queue : List BufferIndex}

theorem Kept.of_same (h : w.Kept) (hactive : w'.activeBuffer = w.activeBuffer ∨ w'.activeBuffer = none)
    (hconsumer : w'.consumer = w.consumer) (hrunning : w'.error = 0 → w'.Running) : w'.Kept := by
  refine ⟨?_, hrunning⟩
  intro i hi
  rcases hactive with hactive | hactive
  · rw [hconsumer]
    exact h.exclusive i (hactive ▸ hi)
  · simp [hactive] at hi

/-- An error-free state is exclusive because the state of a buffer names its owner. -/
theorem Running.kept (h : w.Running) : w.Kept := by
  obtain ⟨queue, hgood⟩ := h.good
  exact ⟨fun _ ha => hgood.active_ne_held ha, fun _ => h⟩

section

variable (h : w.Kept)
include h

/-- After an error only the ownership matters. -/
theorem Kept.of_error (hactive : w'.activeBuffer = w.activeBuffer ∨ w'.activeBuffer = none)
    (hconsumer : w'.consumer = w.consumer) (herror : w'.error ≠ 0) : w'.Kept :=
  h.of_same hactive hconsumer fun he => absurd he herror

theorem Kept.latchFailure (code : ℕ) : (w.latchFailure code).Kept :=
  h.of_error (Or.inl (w.toShared.activeBuffer_latchFailure code))
    (w.toShared.consumer_latchFailure code) (w.toShared.error_latchFailure_ne code)

theorem Kept.setFailure (code : ℕ) : (w.setFailure code).Kept :=
  h.of_error (Or.inl (w.toShared.activeBuffer_latchFailure code))
    (w.toShared.consumer_latchFailure code) (w.toShared.error_latchFailure_ne code)

/-- The producer's place in its call, its answer and the wait metrics are outside the invariant. -/
theorem Kept.elsewhere {producer : Producer} {returned : Returned} {metrics : TraceMetrics} :
    { w with producer, returned, metrics }.Kept :=
  ⟨h.exclusive, fun he => ⟨(h.running he).good, (h.running he).reserved, (h.running he).result⟩⟩

/-- A call returns, and what its answer claims is true. -/
theorem Kept.answer (hr : w.error = 0 → r.claims = true → w.consumer.failing = false → w.handed = w.committed) :
    (w.give r).Inv :=
  ⟨h.elsewhere, fun _ hwait => by simp [AsyncWriter.give] at hwait, hr⟩

theorem Kept.give (hr : r.claims = false) : (w.give r).Inv :=
  h.answer fun _ hclaims => by simp [hr] at hclaims

theorem Kept.refuse (caller : Caller) : (w.refuse caller).Inv := by
  cases caller <;> exact h.give rfl

theorem Kept.fill (bytes : List UInt8) : (w.fill bytes).Kept := by
  unfold AsyncWriter.fill
  split
  case h_2 => exact h
  case h_1 i ha =>
    split
    case isFalse => exact h
    case isTrue hspan =>
      refine h.of_same (Or.inl rfl) rfl fun he => ?_
      have hrun : w.Running := h.running he
      obtain ⟨queue, hgood⟩ := hrun.good
      simp only [Bool.and_eq_true, decide_eq_true_eq] at hspan
      obtain ⟨j, hj, hroom⟩ := hrun.reserved hspan.1
      obtain rfl : i = j := Option.some.inj (ha.symm.trans hj)
      refine ⟨⟨queue, hgood.fill ha (by omega)⟩, ?_, hrun.result⟩
      intro _
      exact ⟨i, ha, by simpa [Shared.fill, Shared.setBuffer] using hroom⟩

theorem Kept.commit (bytes : ℕ) : (w.commit bytes).Kept := by
  unfold AsyncWriter.commit
  split
  case isTrue => exact h
  case isFalse hopen =>
    split
    case isTrue => exact h.setFailure einval
    case isFalse hspan =>
      split
      case h_1 => exact h.setFailure einval
      case h_2 i ha =>
        refine h.of_same (Or.inl rfl) rfl fun he => ?_
        have hrun : w.Running := h.running he
        obtain ⟨queue, hgood⟩ := hrun.good
        simp only [Bool.or_eq_true, Bool.not_eq_true', decide_eq_true_eq, not_or, Bool.not_eq_false,
          Bool.not_eq_true, not_lt] at hopen hspan
        obtain ⟨j, hj, hroom⟩ := hrun.reserved hspan.1
        obtain rfl : i = j := Option.some.inj (ha.symm.trans hj)
        refine ⟨⟨queue, hgood.advance ha (by omega)⟩, by simp, ?_⟩
        intro hresult
        exact absurd (hrun.result hresult).1 (by simp [hopen.2])

theorem Kept.grant (ha : w.activeBuffer = some i)
    (hroom : w.error = 0 → (w.buffers i).used + capacity ≤ w.bufferBytes) : (w.grant capacity).Kept := by
  refine h.of_same (Or.inl rfl) rfl fun he => ?_
  have hrun : w.Running := h.running he
  exact ⟨hrun.good, fun _ => ⟨i, ha, hroom he⟩, hrun.result⟩

theorem Kept.appendChunk (rest : List UInt8) : (w.appendChunk rest).Inv := by
  have hcommit := (h.fill (rest.take (min w.reservationCapacity rest.length))).commit
    (min w.reservationCapacity rest.length)
  unfold AsyncWriter.appendChunk
  simp only
  split_ifs with herror
  · exact hcommit.give rfl
  · exact ⟨hcommit.elsewhere, by simp, fun _ hclaims => by simp [Returned.claims] at hclaims⟩

theorem Kept.grantTo (ha : w.activeBuffer = some i)
    (hroom : w.error = 0 → (w.buffers i).used + capacity ≤ w.bufferBytes) (caller : Caller) :
    (w.grantTo capacity caller).Inv := by
  cases caller with
  | reserve => exact (h.grant ha hroom).give rfl
  | append rest => exact (h.grant ha hroom).appendChunk rest

theorem Kept.enterWait (hmay : w.error = 0 → w.MayAcquire) (waited : Option UInt64) (state : Producer) :
    (w.enterWait waited state).Inv :=
  ⟨h.elsewhere, fun he _ => hmay he, fun _ hclaims => by simp [AsyncWriter.enterWait, Returned.claims] at hclaims⟩

end

theorem Running.acquire (h : w.Running) (hmay : w.MayAcquire) (hfree : (w.buffers i).state = .free) :
    { w with toShared := w.toShared.acquire i }.Running := by
  obtain ⟨queue, hgood⟩ := h.good
  refine ⟨⟨queue, hgood.acquire hmay.1 hfree hmay.2.1⟩, ?_, h.result⟩
  intro hactive
  exact absurd hactive (by simp [hmay.2.2])

theorem freeBuffer_state (hfree : w.freeBuffer = some i) : (w.buffers i).state = .free := by
  simpa using List.find?_some hfree

theorem Kept.awaitFree (h : w.Kept) (hmay : w.error = 0 → w.MayAcquire) (caller : Caller)
    (waited : Option UInt64) : (w.awaitFree caller waited).Inv := by
  unfold AsyncWriter.awaitFree
  split
  case isTrue => exact h.elsewhere.refuse caller
  case isFalse herror =>
    have he : w.error = 0 := by simpa using herror
    split
    case h_1 i hfree =>
      have hacquired := ((h.running he).acquire (hmay he) (freeBuffer_state hfree)).kept
      refine hacquired.elsewhere.grantTo (i := i) rfl (fun _ => ?_) caller
      simp [Shared.acquire, Shared.setBuffer]
    case h_2 => exact h.enterWait hmay waited _

theorem Running.swap (h : w.Running) (ha : w.activeBuffer = some i) (hspan : w.reservationActive = false)
    (hused : (w.buffers i).used ≠ 0) : (w.swap i).Running ∧ (w.swap i).MayAcquire := by
  obtain ⟨queue, hgood⟩ := h.good
  exact ⟨⟨⟨_, hgood.publish ha (Nat.pos_of_ne_zero hused)⟩, by simp [AsyncWriter.swap, hspan], h.result⟩,
    rfl, hgood.running_of_active ha, hspan⟩

theorem Running.handIn (h : w.Running) (ha : w.activeBuffer = some i) (hspan : w.reservationActive = false) :
    (w.handIn i).Running ∧ (w.handIn i).MayAcquire := by
  unfold AsyncWriter.handIn
  split
  case isTrue hused => exact h.swap ha hspan hused
  case isFalse hused =>
    obtain ⟨queue, hgood⟩ := h.good
    exact ⟨⟨⟨_, hgood.retire ha (by simpa using hused)⟩, by simp [hspan], h.result⟩, rfl,
      hgood.running_of_active ha, hspan⟩

theorem Kept.reserveFor (h : w.Kept) (minimum : ℕ) (caller : Caller) :
    (w.reserveFor minimum caller).Inv := by
  unfold AsyncWriter.reserveFor
  split
  case isTrue => exact h.refuse caller
  case isFalse hguard =>
    simp only [Bool.or_eq_true, Bool.not_eq_true', decide_eq_true_eq, not_or, Bool.not_eq_true,
      not_lt, ne_eq, not_not] at hguard
    obtain ⟨⟨⟨-, hspan⟩, he⟩, hfits⟩ := hguard
    have hrun := h.running he
    split
    case h_1 => exact h.refuse caller
    case h_2 i ha =>
      obtain ⟨queue, hgood⟩ := hrun.good
      have hsized := hgood.sized i
      simp only
      split
      case isTrue hfull =>
        have hswap := hrun.swap ha hspan (by omega)
        exact hswap.1.kept.awaitFree (fun _ => hswap.2) caller none
      case isFalse => exact h.grantTo ha (fun _ => by omega) caller

theorem Kept.append (h : w.Kept) (bytes : List UInt8) : (w.append bytes).Inv := by
  unfold AsyncWriter.append
  split
  case isTrue => exact h.give rfl
  case isFalse => exact ⟨h.elsewhere, by simp, fun _ hclaims => by simp [Returned.claims] at hclaims⟩

theorem Kept.appendRound (h : w.Kept) (rest : List UInt8) : (w.appendRound rest).Inv := by
  unfold AsyncWriter.appendRound
  split
  case isTrue => exact h.give rfl
  case isFalse => exact h.reserveFor 1 _

/-- Both buffers are free: everything committed has been handed over. -/
theorem handed_of_free {s : Shared Ctx} (h : s.Good queue) (hactive : s.activeBuffer = none)
    (hfree : ∀ i, (s.buffers i).state = .free) : s.handed = s.committed := by
  have hheld : s.consumer.held = none := by
    rw [Option.eq_none_iff_forall_ne_some]
    intro i hi
    have := (h.writing i).mpr hi
    simp [hfree i] at this
  have hqueue : queue = [] := h.queued.eq_nil fun i hi => by simp [hfree i] at hi
  have hfailing : s.consumer.failing = false := by
    cases hc : s.consumer <;> simp_all [Consumer.held, Consumer.failing]
  have hremaining : s.consumer.remaining s.buffers = [] := by
    cases hc : s.consumer <;> simp_all [Consumer.held, Consumer.remaining]
  have hdelivered := h.delivered hfailing
  simp only [hremaining, hqueue, Shared.queuedBytes, Shared.filled, hactive, List.flatMap_nil,
    Option.elim_none, List.append_nil] at hdelivered
  exact hdelivered.symm

section

variable (h : w.Kept)
include h

theorem Kept.awaitDrained (hmay : w.error = 0 → w.MayAcquire) (waited : Option UInt64) :
    (w.awaitDrained waited).Inv := by
  unfold AsyncWriter.awaitDrained
  split
  case isTrue => exact h.elsewhere.give rfl
  case isFalse herror =>
    have he : w.error = 0 := by simpa using herror
    split
    case isFalse => exact h.enterWait hmay waited _
    case isTrue hfree =>
      obtain ⟨queue, hgood⟩ := (h.running he).good
      have hquiet := handed_of_free hgood (hmay he).1 fun i => by cases i; exacts [hfree.1, hfree.2]
      have hacquired := ((h.running he).acquire (hmay he) hfree.1).kept
      exact hacquired.elsewhere.answer fun _ _ _ => hquiet

theorem Kept.drain : w.drain.Inv := by
  unfold AsyncWriter.drain
  split
  case isTrue => exact h.give rfl
  case isFalse hguard =>
    simp only [Bool.or_eq_true, Bool.not_eq_true', decide_eq_true_eq, not_or, Bool.not_eq_true,
      ne_eq, not_not] at hguard
    split
    case h_1 => exact h.give rfl
    case h_2 i ha =>
      have hin := (h.running hguard.2).handIn ha hguard.1.2
      exact hin.1.kept.awaitDrained (fun _ => hin.2) none

theorem Kept.finalFileTarget (recordBytes : ℕ) : (w.finalFileTarget lz4 recordBytes).Inv := by
  unfold AsyncWriter.finalFileTarget
  split
  case isTrue => exact h.give rfl
  case isFalse =>
    split
    case h_1 => exact (h.latchFailure eoverflow).give rfl
    case h_2 =>
      split
      case isTrue => exact (h.latchFailure eoverflow).give rfl
      case isFalse => exact h.give rfl

theorem Kept.setContext (context : Ctx) : { w with context }.Kept := by
  refine h.of_same (Or.inl rfl) rfl fun he => ?_
  obtain ⟨queue, hgood⟩ := (h.running he).good
  exact ⟨⟨queue, hgood.filling, hgood.writing, hgood.reading, hgood.sized, hgood.stopped, hgood.exited,
    hgood.queued, hgood.nonempty, hgood.numbered, hgood.bounded, hgood.delivered⟩,
    (h.running he).reserved, (h.running he).result⟩

theorem Kept.finalFramePadding (record : List UInt8) : (w.finalFramePadding lz4 record).Inv := by
  unfold AsyncWriter.finalFramePadding
  split
  case isTrue => exact h.give rfl
  case isFalse =>
    split
    case isTrue => exact h.give rfl
    case isFalse =>
      split
      case h_1 => exact (h.latchFailure eio).give rfl
      case h_2 context measured _ =>
        simp only
        split
        case h_1 => exact ((h.setContext context).latchFailure eoverflow).give rfl
        case h_2 =>
          split
          case isTrue => exact ((h.setContext context).latchFailure eoverflow).give rfl
          case isFalse => exact (h.setContext context).give rfl

/-- The producer stops: it has no buffer any more. -/
theorem Kept.stop (hspan : w.error = 0 → w.reservationActive = false)
    (hactive : w.error = 0 → w.activeBuffer = none) (skippableFrameBytes : ℕ) :
    { w with activeBuffer := none, producerDone := true, producer := .joining skippableFrameBytes,
             returned := .nothing }.Inv := by
  refine ⟨h.of_same (Or.inr rfl) rfl fun he => ?_, by simp, fun _ hclaims => by simp [Returned.claims] at hclaims⟩
  have hrun := h.running he
  obtain ⟨queue, hgood⟩ := hrun.good
  refine ⟨⟨queue, ?_, hgood.writing, hgood.reading, hgood.sized, fun _ => rfl,
    fun hc => ⟨rfl, (hgood.exited hc).2⟩, hgood.queued, hgood.nonempty, hgood.numbered, hgood.bounded, ?_⟩,
    ?_, hrun.result⟩
  · intro i
    rw [hgood.filling i, hactive he]
  · intro hfail
    rw [hgood.delivered hfail]
    simp [Shared.filled, hactive he, Shared.queuedBytes]
  · intro hspan'
    exact absurd hspan' (by simp [hspan he])

theorem Kept.finish (skippableFrameBytes : ℕ) : (w.finish skippableFrameBytes).Inv := by
  unfold AsyncWriter.finish
  split
  case isTrue =>
    exact h.answer fun he hclaims hfail => ((h.running he).result hclaims).2 hfail
  case isFalse =>
    split
    case isTrue => exact h.give rfl
    case isFalse =>
      by_cases hspan : w.reservationActive = true
      · have hfailed := h.setFailure einval
        have herror : (w.setFailure einval).error ≠ 0 := w.toShared.error_latchFailure_ne einval
        have hstop := hfailed.stop (fun he => absurd he herror) (fun he => absurd he herror)
          skippableFrameBytes
        simp only [hspan, if_true]
        split
        case h_1 => simpa only [if_neg herror] using hstop
        case h_2 => exact hstop
      · have hidle : w.reservationActive = false := by simpa using hspan
        simp only [hidle, Bool.false_eq_true, if_false]
        split
        case h_2 ha => exact h.stop (fun _ => hidle) (fun _ => ha) skippableFrameBytes
        case h_1 i ha =>
          split
          case isTrue he =>
            have hin := (h.running he).handIn ha hidle
            exact hin.1.kept.stop (fun _ => hin.2.2.2) (fun _ => hin.2.1) skippableFrameBytes
          case isFalse herror =>
            exact h.stop (fun _ => hidle) (fun he => absurd he herror) skippableFrameBytes

end

/-- The consumer has left without an error: everything committed has been handed over. -/
theorem handed_of_exited {s : Shared Ctx} (h : s.Good queue) (hc : s.consumer = .exited) :
    s.handed = s.committed := by
  obtain ⟨hdone, rfl⟩ := h.exited hc
  have hdelivered := h.delivered (by rw [hc]; rfl)
  simp only [hc, Consumer.remaining, Shared.queuedBytes, Shared.filled, h.stopped hdone, List.flatMap_nil,
    Option.elim_none, List.append_nil] at hdelivered
  exact hdelivered.symm

/-- The producer writes the padding frame after the consumer has left. -/
theorem Running.writeSkippableFrame (h : w.Running) (frameBytes : ℕ) (outcome : WriteOutcome) :
    (w.writeSkippableFrame frameBytes outcome).Kept ∧
      (w.writeSkippableFrame frameBytes outcome).consumer = w.consumer := by
  obtain ⟨queue, hgood⟩ := h.good
  unfold AsyncWriter.writeSkippableFrame
  split
  case isTrue =>
    exact ⟨h.kept.latchFailure einval, w.toShared.consumer_latchFailure einval⟩
  case isFalse =>
    obtain ⟨written, n, result, hwrite, hlimit, -⟩ :=
      Shared.Good.writeAll_spec hgood.bounded (skippableFrame frameBytes) outcome
    have hnumbered := hgood.numbered
    have hgrown : { w with file := w.file ++ written, compressedBytes := n }.Running :=
      ⟨⟨queue, hgood.filling, hgood.writing, hgood.reading, hgood.sized, hgood.stopped, hgood.exited,
        hgood.queued, hgood.nonempty, by simp only [List.length_append]; omega, hlimit, hgood.delivered⟩,
        h.reserved, h.result⟩
    rw [hwrite]
    cases result with
    | none => exact ⟨hgrown.kept, rfl⟩
    | some code => exact ⟨hgrown.kept.latchFailure code, Shared.consumer_latchFailure _ code⟩

theorem Kept.releaseConsumerResources (h : w.Kept) (hc : w.consumer = .exited) (closeError : ℕ) :
    (w.releaseConsumerResources closeError).Kept := by
  have hreleased : { w with
      bufferBytes := 0
      buffers := fun i => { w.buffers i with data := [], used := 0, state := .free } }.Kept := by
    refine h.of_same (Or.inl rfl) rfl fun he => ?_
    have hrun := h.running he
    obtain ⟨queue, hgood⟩ := hrun.good
    obtain ⟨hdone, rfl⟩ := hgood.exited hc
    have hstopped := hgood.stopped hdone
    have hnumbered := hgood.numbered
    refine ⟨⟨[], by simp [hstopped], by simp [hc, Consumer.held], by simp [hc], by simp, hgood.stopped,
      hgood.exited, Stamped.empty (by simp), by simp, hnumbered, hgood.bounded, ?_⟩, ?_, hrun.result⟩
    · intro _
      simp [hc, Consumer.remaining, Shared.queuedBytes, Shared.filled, hstopped, handed_of_exited hgood hc]
    · intro hspan
      obtain ⟨i, hi, -⟩ := hrun.reserved hspan
      simp [hstopped] at hi
  unfold AsyncWriter.releaseConsumerResources
  simp only
  split
  case isTrue => exact hreleased.latchFailure closeError
  case isFalse => exact hreleased

theorem consumer_releaseConsumerResources (w : AsyncWriter Ctx) (closeError : ℕ) :
    (w.releaseConsumerResources closeError).consumer = w.consumer := by
  unfold AsyncWriter.releaseConsumerResources
  simp only
  split
  case isTrue => exact Shared.consumer_latchFailure _ closeError
  case isFalse => rfl

/-- The producer closes the writer after the consumer has left. -/
theorem Kept.close (h : w.Kept) (hc : w.consumer = .exited) (metrics : TraceMetrics) :
    ({ w with metrics, opened := false, finishCalled := true, finishResult := w.error = 0 }.give
      (.finished (w.error = 0))).Inv := by
  have hhanded : w.error = 0 → w.handed = w.committed := by
    intro he
    obtain ⟨queue, hgood⟩ := (h.running he).good
    exact handed_of_exited hgood hc
  refine Kept.answer ?_ fun he _ _ => hhanded he
  exact h.of_same (Or.inl rfl) rfl fun he =>
    ⟨(h.running he).good, (h.running he).reserved, fun _ => ⟨rfl, fun _ => hhanded he⟩⟩

theorem Kept.joined (h : w.Kept) (hc : w.consumer = .exited) (skippableFrameBytes : ℕ)
    (outcome : WriteOutcome) (closeError : ℕ) : (w.joined skippableFrameBytes outcome closeError).Inv := by
  have hpadded := fun (w' : AsyncWriter Ctx) (hkept : w'.Kept) (hexited : w'.consumer = .exited) =>
    (hkept.releaseConsumerResources hexited closeError).close
      ((w'.consumer_releaseConsumerResources closeError).trans hexited)
  unfold AsyncWriter.joined
  by_cases hpad : w.error = 0 ∧ skippableFrameBytes ≠ 0
  · have hwritten := (h.running hpad.1).writeSkippableFrame skippableFrameBytes outcome
    simp only [if_pos hpad]
    exact hpadded _ hwritten.1 (hwritten.2.trans hc) _
  · simp only [if_neg hpad]
    exact hpadded w h hc _

theorem Kept.joinFailed (h : w.Kept) (code : ℕ) : (w.joinFailed code).Inv := by
  refine Kept.give ?_ rfl
  exact (h.latchFailure code).of_error (Or.inl rfl) rfl (w.toShared.error_latchFailure_ne code)

/-- The byte counter agrees with the file. -/
def Counted (s : Shared Ctx) : Prop := s.compressedBytes = UInt64.ofNat s.file.length

/-- What a step of the consumer leaves alone. -/
structure Consumed (s s' : Shared Ctx) : Prop where
  activeBuffer : s'.activeBuffer = s.activeBuffer
  producerDone : s'.producerDone = s.producerDone
  bufferBytes : s'.bufferBytes = s.bufferBytes
  compressionEnabled : s'.compressionEnabled = s.compressionEnabled
  committed : s'.committed = s.committed
  data : ∀ i, (s'.buffers i).data = (s.buffers i).data
  used : ∀ i, (s'.buffers i).used = (s.buffers i).used ∨
    s.consumer.held = some i ∧ (s'.buffers i).used = 0
  handed : s.handed <+: s'.handed
  error : s.error ≠ 0 → s'.error ≠ 0
  held : s'.error ≠ 0 → s'.consumer.held = s.consumer.held ∨ s'.consumer.held = none
  failing : s'.error = 0 → s'.consumer.failing = false → s.consumer.failing = false
  counted : Counted s → Counted s'

theorem Consumed.refl (s : Shared Ctx) : Consumed s s :=
  ⟨rfl, rfl, rfl, rfl, rfl, fun _ => rfl, fun _ => Or.inl rfl, List.prefix_rfl, id, fun _ => Or.inl rfl,
    fun _ hf => hf, id⟩

theorem Consumed.used_le {s s' : Shared Ctx} (h : Consumed s s') (i : BufferIndex) :
    (s'.buffers i).used ≤ (s.buffers i).used := by
  rcases h.used i with hused | ⟨_, hused⟩ <;> omega

theorem consumed_take (s : Shared Ctx) : Consumed s s.take := by
  unfold Shared.take
  split
  case h_2 => exact Consumed.refl s
  case h_1 hc =>
    have hfailing : s.consumer.failing = false := by
      rw [hc]
      rfl
    split
    case isTrue he =>
      exact ⟨rfl, rfl, rfl, rfl, rfl, fun _ => rfl, fun _ => Or.inl rfl, List.prefix_rfl, id,
        fun _ => Or.inr rfl, fun _ _ => hfailing, id⟩
    case isFalse he =>
      have he : s.error = 0 := by simpa using he
      split
      case h_1 i hi =>
        refine ⟨rfl, rfl, rfl, rfl, rfl, ?_, ?_, List.prefix_rfl, id, fun hne => absurd he hne,
          fun _ _ => hfailing, id⟩
        · exact Shared.Good.forall_setBuffer (P := fun j b => b.data = (s.buffers j).data) rfl
            fun _ _ => rfl
        · exact Shared.Good.forall_setBuffer (P := fun j b => b.used = (s.buffers j).used ∨
            s.consumer.held = some j ∧ b.used = 0) (Or.inl rfl) fun _ _ => Or.inl rfl
      case h_2 =>
        split
        case isTrue =>
          exact ⟨rfl, rfl, rfl, rfl, rfl, fun _ => rfl, fun _ => Or.inl rfl, List.prefix_rfl, id,
            fun hne => absurd he hne, fun _ _ => hfailing, id⟩
        case isFalse => exact Consumed.refl s

section

variable {s : Shared Ctx} {size offset : ℕ} {stage : FrameStage} {context : Ctx} {handed : List UInt8}
  {c : Consumer}

theorem Counted.put (h : Counted s) (bytes : List UInt8) : Counted (s.put bytes) := by
  have h : s.compressedBytes = UInt64.ofNat s.file.length := h
  simp [Counted, Shared.put, h]

section

variable (hc : s.consumer = .writing i size offset stage)
include hc

/-- A round of the write, whether it succeeds or not, keeps the buffer in the consumer's hands. -/
theorem consumed_round (hhanded : s.handed <+: handed) {file : List UInt8} {n : UInt64}
    (hcounted : Counted s → n = UInt64.ofNat file.length) (hnext : c.held = some i) :
    Consumed s { s with context, handed, file, compressedBytes := n, consumer := c } :=
  ⟨rfl, rfl, rfl, rfl, rfl, fun _ => rfl, fun _ => Or.inl rfl, hhanded, id,
    fun _ => Or.inl (by rw [hc]; exact hnext), fun _ _ => by rw [hc]; rfl, hcounted⟩

theorem consumed_emit (hhanded : s.handed <+: handed) (produced : List UInt8) (outcome : WriteOutcome)
    (hnext : c.held = some i) :
    Consumed s ({ s with context, handed }.emit i produced outcome c) := by
  unfold Shared.emit
  cases outcome with
  | all =>
    unfold Shared.writeAll
    split_ifs
    · exact consumed_round hc hhanded (fun h => Counted.put h _) hnext
    · exact consumed_round hc hhanded (fun h => Counted.put h _) rfl
  | failed kept code => exact consumed_round hc hhanded (fun h => Counted.put h _) rfl

theorem consumed_writeFrame (outcome : WriteOutcome) :
    Consumed s (s.writeFrame lz4 i size offset stage outcome) := by
  have hfailed : Consumed s { s with consumer := .releasing i (some eio) } :=
    consumed_round hc List.prefix_rfl id rfl
  unfold Shared.writeFrame
  cases stage with
  | opening =>
    simp only
    split
    · exact hfailed
    · exact consumed_emit hc List.prefix_rfl _ _ rfl
  | body =>
    simp only
    split
    · split
      · exact hfailed
      · exact consumed_emit hc (List.prefix_append _ _) _ _ rfl
    · split
      · exact hfailed
      · exact consumed_emit hc List.prefix_rfl _ _ rfl

end

theorem consumed_write (s : Shared Ctx) (count : ℕ) (outcome : WriteOutcome) :
    Consumed s (s.write lz4 count outcome) := by
  unfold Shared.write
  split
  case h_2 => exact Consumed.refl s
  case h_1 i size offset stage hc =>
    split
    case isTrue => exact consumed_writeFrame hc outcome
    case isFalse =>
      unfold Shared.writeRaw
      simp only
      split
      · exact consumed_emit hc (List.prefix_append _ _) _ _ rfl
      · exact consumed_round hc List.prefix_rfl id rfl

theorem consumed_release (s : Shared Ctx) : Consumed s s.release := by
  unfold Shared.release
  split
  case h_2 => exact Consumed.refl s
  case h_1 i outcome hc =>
    have hdata := Shared.Good.forall_setBuffer (s := s) (i := i) (b := { s.buffers i with used := 0, state := .free })
      (P := fun j b => b.data = (s.buffers j).data) rfl fun _ _ => rfl
    have hused := Shared.Good.forall_setBuffer (s := s) (i := i) (b := { s.buffers i with used := 0, state := .free })
      (P := fun j b => b.used = (s.buffers j).used ∨ s.consumer.held = some j ∧ b.used = 0)
      (Or.inr ⟨by rw [hc]; rfl, rfl⟩) fun _ _ => Or.inl rfl
    cases outcome with
    | none =>
      exact ⟨rfl, rfl, rfl, rfl, rfl, hdata, hused, List.prefix_rfl, id, fun _ => Or.inr rfl,
        fun _ _ => by rw [hc]; rfl, id⟩
    | some code =>
      have herror := Shared.error_latchFailure_ne
        (s.setBuffer i { s.buffers i with used := 0, state := .free }) code
      refine ⟨?_, ?_, ?_, ?_, ?_, hdata, hused, ?_, fun _ => herror, fun _ => Or.inr rfl,
        fun he => absurd he herror, ?_⟩
      all_goals
        simp only [Shared.setFailure, Shared.latchFailure]
        split_ifs
        all_goals first | rfl | exact id

end

/-- A consumer step that keeps the double buffer good keeps the writer's invariant. -/
theorem Inv.consumed (h : w.Inv) {s' : Shared Ctx} (hs : Consumed w.toShared s')
    (hgood : w.error = 0 → s'.error = 0 → ∃ queue, s'.Good queue) : { w with toShared := s' }.Inv := by
  have hstays : s'.error = 0 → w.error = 0 := fun he => by
    by_contra hne
    exact hs.error hne he
  -- A handed list that was complete stays complete: it only grows, within what is committed.
  have hcomplete : s'.error = 0 → s'.consumer.failing = false → (w.consumer.failing = false →
      w.handed = w.committed) → s'.handed = s'.committed := by
    intro he hfail hbefore
    obtain ⟨queue, hqueue⟩ := hgood (hstays he) he
    have hold : w.handed = w.committed := hbefore (hs.failing he hfail)
    have hwithin : s'.handed <+: s'.committed := by
      rw [hqueue.delivered hfail, List.append_assoc, List.append_assoc]
      exact List.prefix_append _ _
    refine hwithin.eq_of_length_le ?_
    rw [hs.committed, ← hold]
    exact hs.handed.length_le
  refine ⟨⟨?_, ?_⟩, ?_, ?_⟩
  · intro i hi
    by_cases he : s'.error = 0
    · obtain ⟨queue, hqueue⟩ := hgood (hstays he) he
      exact hqueue.active_ne_held hi
    · rcases hs.held he with hheld | hheld
      · rw [hheld]
        exact h.exclusive i (hs.activeBuffer ▸ hi)
      · simp [hheld]
  · intro he
    have hrun := h.running (hstays he)
    refine ⟨hgood (hstays he) he, ?_, ?_⟩
    · intro hspan
      obtain ⟨i, hi, hroom⟩ := hrun.reserved hspan
      exact ⟨i, hs.activeBuffer.trans hi,
        (Nat.add_le_add_right (hs.used_le i) _).trans (hroom.trans_eq hs.bufferBytes.symm)⟩
    · intro hresult
      exact ⟨(hrun.result hresult).1, fun hfail => hcomplete he hfail (hrun.result hresult).2⟩
  · intro he hwait
    have hmay := h.waiting (hstays he) hwait
    exact ⟨hs.activeBuffer.trans hmay.1, hs.producerDone.trans hmay.2.1, hmay.2.2⟩
  · intro he hclaims hfail
    exact hcomplete he hfail (h.reported (hstays he) hclaims)

theorem Inv.consume (h : w.Inv) (step : ConsumerStep) : (w.consume lz4 step).Inv := by
  cases step with
  | take =>
    refine h.consumed (consumed_take _) fun he _ => ?_
    obtain ⟨queue, hgood⟩ := (h.running he).good
    exact hgood.take he
  | write count outcome =>
    refine h.consumed (consumed_write _ count outcome) fun he _ => ?_
    obtain ⟨queue, hgood⟩ := (h.running he).good
    exact ⟨queue, hgood.write count outcome⟩
  | release =>
    refine h.consumed (consumed_release _) fun he herror => ?_
    obtain ⟨queue, hgood⟩ := (h.running he).good
    unfold Shared.release at herror ⊢
    split
    case h_2 => exact ⟨queue, hgood⟩
    case h_1 i outcome hc =>
      cases outcome with
      | none => exact ⟨queue, hgood.giveBack hc⟩
      | some code =>
        simp only [hc] at herror
        exact absurd herror (Shared.error_latchFailure_ne _ code)

theorem Inv.call (h : w.Inv) (step : ProducerStep) : (w.call lz4 step).Inv := by
  have hkept := h.toKept
  cases step with
  | reserve minimum => exact hkept.reserveFor minimum .reserve
  | fill bytes => exact (hkept.fill bytes).give rfl
  | commit bytes => exact (hkept.commit bytes).give rfl
  | append bytes => exact hkept.append bytes
  | drain => exact hkept.drain
  | finalFileTarget recordBytes => exact hkept.finalFileTarget recordBytes
  | finalFramePadding record => exact hkept.finalFramePadding record
  | finish skippableFrameBytes => exact hkept.finish skippableFrameBytes
  | resume | join | joinFailed => exact h

theorem Inv.proceed (h : w.Inv) (step : ProducerStep) : (w.proceed step).Inv := by
  have hkept := h.toKept
  unfold AsyncWriter.proceed
  split
  case h_1 waited =>
    split
    case h_1 rest _ => exact hkept.appendRound rest
    case h_2 caller hp => exact hkept.awaitFree (fun he => h.waiting he (Or.inl ⟨caller, hp⟩)) caller _
    case h_3 hp => exact hkept.awaitDrained (fun he => h.waiting he (Or.inr hp)) _
    case h_4 => exact h
  case h_2 outcome closeError =>
    split
    case h_1 skippableFrameBytes _ hc => exact hkept.joined hc skippableFrameBytes outcome closeError
    case h_2 => exact h
  case h_3 code =>
    split
    case h_1 => exact hkept.joinFailed code
    case h_2 => exact h
  case h_4 => exact h

theorem Inv.step (h : w.Inv) (step : Step) : (w.step lz4 step).Inv := by
  cases step with
  | consumer step => exact h.consume step
  | producer step =>
    show (w.produce lz4 step).Inv
    unfold AsyncWriter.produce
    split_ifs
    · exact h.call step
    · exact h.proceed step

theorem inv_create (bufferBytes : ℕ) (compressionEnabled : Bool) (context : Ctx) (metrics : TraceMetrics) :
    (create bufferBytes compressionEnabled context metrics).Inv := by
  have hgood : (create bufferBytes compressionEnabled context metrics).toShared.Good [] := by
    refine ⟨?_, ?_, by simp [create], by simp [create], by simp [create], by simp [create],
      Stamped.empty ?_, by simp, by simp [create], by simp [create], by
        simp [create, Consumer.remaining, Shared.queuedBytes, Shared.filled, Buffer.contents]⟩
    · intro i
      cases i <;> simp [create]
    · intro i
      cases i <;> simp [create, Consumer.held]
    · intro i
      cases i <;> simp [create]
  have hrunning : (create bufferBytes compressionEnabled context metrics).Running :=
    ⟨⟨[], hgood⟩, by simp [create], by simp [create]⟩
  exact ⟨hrunning.kept, by simp [create], fun _ hclaims => by simp [create, Returned.claims] at hclaims⟩

theorem inv_run (h : w.Inv) (steps : List Step) : (w.run lz4 steps).Inv :=
  List.foldlRecOn steps _ h fun _ hw step _ => Inv.step hw step

/-- Delivery, in every interleaving of the producer's critical sections with the consumer's. The
consumer never holds the buffer the producer is filling. As long as no operation has reported an
error, the state of a buffer names its owner, the committed bytes are those handed over followed by
those still in a buffer, in commit order, and after a `drain` or a `finish` that answered `true`
every committed byte has been handed over. -/
theorem run_delivers (lz4 : Lz4 Ctx) (bufferBytes : ℕ) (compressionEnabled : Bool)
    (context : Ctx) (metrics : TraceMetrics) (steps : List Step) {w : AsyncWriter Ctx}
    (hw : w = (create bufferBytes compressionEnabled context metrics).run lz4 steps) :
    (∀ i, ¬ (w.activeBuffer = some i ∧ w.consumer.held = some i)) ∧
      (w.error = 0 → w.consumer.failing = false →
        (∀ i, (w.buffers i).state = .filling ↔ w.activeBuffer = some i) ∧
        (∀ i, (w.buffers i).state = .writing ↔ w.consumer.held = some i) ∧
        (∃ queue, Stamped (fun i => (w.buffers i).state = .ready)
            (fun i => (w.buffers i).publicationSequence) w.nextPublicationSequence queue ∧
          w.committed = w.handed ++ w.consumer.remaining w.buffers ++ w.queuedBytes queue ++ w.filled) ∧
        (w.returned = .drained true → w.handed = w.committed) ∧
        (w.returned = .finished true → w.handed = w.committed)) := by
  have hinv : w.Inv := by
    rw [hw]
    exact inv_run (inv_create bufferBytes compressionEnabled context metrics) steps
  refine ⟨fun i hi => hinv.exclusive i hi.1 hi.2, fun he hfail => ?_⟩
  obtain ⟨queue, hgood⟩ := (hinv.running he).good
  refine ⟨hgood.filling, hgood.writing, ⟨queue, hgood.queued, hgood.delivered hfail⟩, ?_, ?_⟩
  · intro hdrained
    exact hinv.reported he (by rw [hdrained]; rfl) hfail
  · intro hfinished
    exact hinv.reported he (by rw [hfinished]; rfl) hfail

/-- A compressor that stores its input behind a one-byte header. -/
def storedFrames : Lz4 Unit where
  compressBegin _ _ := some ((), [4])
  compressUpdate _ input := some ((), input)
  compressEnd _ := some ((), [])
  compressFrameBound size := some (size + 1)
  header_ne_nil := by
    intro context size context' header hbegin
    cases hbegin
    simp

/-- Two buffers of two bytes: the second commit has to wait, and the drain sees all four bytes out. -/
def twoBufferRun : List Step :=
  [.producer (.reserve 2), .producer (.fill [1, 2]), .producer (.commit 2), .producer (.reserve 1),
    .producer (.fill [3, 4]), .producer (.commit 2), .producer .drain, .consumer .take,
    .consumer (.write 0 .all), .consumer (.write 0 .all), .consumer (.write 0 .all), .consumer .release,
    .producer (.resume 7), .consumer .take, .consumer (.write 0 .all), .consumer (.write 0 .all),
    .consumer (.write 0 .all), .consumer .release, .producer (.resume 9)]

theorem run_delivers_drained : ∃ w : AsyncWriter Unit,
    w = (create 2 true () {}).run storedFrames twoBufferRun ∧ w.returned = .drained true ∧
      w.committed = [1, 2, 3, 4] ∧ w.handed = w.committed := by
  have herror : ((create 2 true () {}).run storedFrames twoBufferRun).error = 0 := by decide +kernel
  have hfail : ((create 2 true () {}).run storedFrames twoBufferRun).consumer.failing = false := by
    decide +kernel
  have hdrained : ((create 2 true () {}).run storedFrames twoBufferRun).returned = .drained true := by
    decide +kernel
  obtain ⟨-, hok⟩ := run_delivers storedFrames 2 true () {} twoBufferRun rfl
  exact ⟨_, rfl, hdrained, by decide +kernel, (hok herror hfail).2.2.2.1 hdrained⟩

end AsyncWriter

end QTrace.Async
