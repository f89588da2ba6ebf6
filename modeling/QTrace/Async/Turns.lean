import QTrace.Async.DeliveryRuns

/-! The producer's calls as its own thread sees them: each call returns after some turns,
in which the consumer makes any number of steps and the producer one. A call that waits
takes as many turns as it needs. -/

namespace QTrace.Async

open Lib

variable {Ctx : Type} (lz4 : Lz4 Ctx)

/-- What happens around one step of the producer: the consumer's steps before it, and the
way a call in progress is resumed if it is waiting then. -/
structure Turn where
  consumer : List ConsumerStep
  wake : ProducerStep
  deriving DecidableEq

namespace AsyncWriter

def consumeAll (w : AsyncWriter Ctx) (steps : List ConsumerStep) : AsyncWriter Ctx :=
  steps.foldl (consume lz4) w

/-- The call in progress runs to its end; it does not return when the turns end before it. -/
def settle : List Turn → AsyncWriter Ctx → Option (AsyncWriter Ctx × List Turn)
  | [], w => if w.producer = .running then some (w, []) else none
  | turn :: turns, w =>
    if w.producer = .running then some (w, turn :: turns)
    else settle turns ((w.consumeAll lz4 turn.consumer).produce lz4 turn.wake)

/-- A call of the producer, with the turns that are left when it returns. -/
def perform (step : ProducerStep) (w : AsyncWriter Ctx) : List Turn → Option (AsyncWriter Ctx × List Turn)
  | [] => none
  | turn :: turns => settle lz4 turns ((w.consumeAll lz4 turn.consumer).produce lz4 step)

variable {lz4} {w w' w'' : AsyncWriter Ctx} {turns rest : List Turn}

/-- What every turn of a waiting call keeps holds when the call returns. -/
theorem settle_rule {P : AsyncWriter Ctx → Prop}
    (hturn : ∀ w steps wake, P w → w.producer ≠ .running → P ((w.consumeAll lz4 steps).produce lz4 wake)) :
    ∀ {turns : List Turn} {w : AsyncWriter Ctx}, P w → settle lz4 turns w = some (w', rest) →
      P w' ∧ w'.producer = .running
  | [], w, hw, h => by
    unfold settle at h
    split at h
    case isTrue hp =>
      simp only [Option.some.injEq, Prod.mk.injEq] at h
      exact h.1 ▸ ⟨hw, hp⟩
    case isFalse => cases h
  | turn :: turns, w, hw, h => by
    unfold settle at h
    split at h
    case isTrue hp =>
      simp only [Option.some.injEq, Prod.mk.injEq] at h
      exact h.1 ▸ ⟨hw, hp⟩
    case isFalse hp => exact settle_rule hturn (hturn w _ _ hw hp) h

/-- What only `commit` and the end of `finish` change. -/
structure Books where
  committed : List UInt8
  counters : TraceMetrics
  bufferBytes : ℕ
  compressionEnabled : Bool
  opened : Bool
  finishCalled : Bool

/-- The counters are all but those of swaps and waits. -/
def books (w : AsyncWriter Ctx) : Books where
  committed := w.committed
  counters := { w.metrics with bufferSwaps := 0, producerWaits := 0, producerWaitNs := 0 }
  bufferBytes := w.bufferBytes
  compressionEnabled := w.compressionEnabled
  opened := w.opened
  finishCalled := w.finishCalled

/-- From `w` to `w'` the books are kept, errors stay and the file is counted. -/
structure Ledger (w w' : AsyncWriter Ctx) : Prop where
  books : w'.books = w.books
  error : w.error ≠ 0 → w'.error ≠ 0
  counted : Counted w.toShared → Counted w'.toShared

theorem Ledger.refl (w : AsyncWriter Ctx) : Ledger w w := ⟨rfl, id, id⟩

theorem Ledger.trans (h : Ledger w w') (h' : Ledger w' w'') : Ledger w w'' :=
  ⟨h'.books.trans h.books, h'.error ∘ h.error, h'.counted ∘ h.counted⟩

/-- Time passes for the producer: the consumer does not touch what the producer owns. -/
structure Elapsed (w w' : AsyncWriter Ctx) : Prop extends Ledger w w' where
  producer : w'.producer = w.producer
  returned : w'.returned = w.returned
  metrics : w'.metrics = w.metrics
  reservationActive : w'.reservationActive = w.reservationActive
  reservationCapacity : w'.reservationCapacity = w.reservationCapacity
  activeBuffer : w'.activeBuffer = w.activeBuffer
  active : ∀ i, w.activeBuffer = some i →
    (w'.buffers i).data = (w.buffers i).data ∧ (w'.buffers i).used = (w.buffers i).used

theorem Elapsed.refl (w : AsyncWriter Ctx) : Elapsed w w :=
  ⟨Ledger.refl w, rfl, rfl, rfl, rfl, rfl, rfl, fun _ _ => ⟨rfl, rfl⟩⟩

theorem Elapsed.trans (h : Elapsed w w') (h' : Elapsed w' w'') : Elapsed w w'' := by
  refine ⟨h.toLedger.trans h'.toLedger, h'.producer.trans h.producer, h'.returned.trans h.returned,
    h'.metrics.trans h.metrics, h'.reservationActive.trans h.reservationActive,
    h'.reservationCapacity.trans h.reservationCapacity, h'.activeBuffer.trans h.activeBuffer, fun i hi => ?_⟩
  obtain ⟨hdata, hused⟩ := h.active i hi
  obtain ⟨hdata', hused'⟩ := h'.active i (h.activeBuffer.trans hi)
  exact ⟨hdata'.trans hdata, hused'.trans hused⟩

theorem elapsed_of_consumed (h : w.Inv) {s' : Shared Ctx} (hs : Consumed w.toShared s') :
    Elapsed w { w with toShared := s' } := by
  refine ⟨⟨?_, hs.error, hs.counted⟩, rfl, rfl, rfl, rfl, rfl, hs.activeBuffer, fun i hi => ?_⟩
  · simp only [AsyncWriter.books, hs.committed, hs.bufferBytes, hs.compressionEnabled]
  · refine ⟨hs.data i, ?_⟩
    rcases hs.used i with hused | ⟨hheld, _⟩
    · exact hused
    · exact absurd hheld (h.exclusive i hi)

theorem elapsed_consume (h : w.Inv) (step : ConsumerStep) : Elapsed w (w.consume lz4 step) := by
  cases step with
  | take => exact elapsed_of_consumed h (consumed_take _)
  | write count outcome => exact elapsed_of_consumed h (consumed_write _ count outcome)
  | release => exact elapsed_of_consumed h (consumed_release _)

theorem elapsed_consumeAll : ∀ (steps : List ConsumerStep) {w : AsyncWriter Ctx}, w.Inv →
    (w.consumeAll lz4 steps).Inv ∧ Elapsed w (w.consumeAll lz4 steps)
  | [], w, h => ⟨h, Elapsed.refl w⟩
  | step :: steps, w, h => by
    have hinv : (w.consume lz4 step).Inv := h.consume step
    obtain ⟨hinv, helapsed⟩ := elapsed_consumeAll steps hinv
    exact ⟨hinv, (elapsed_consume h step).trans helapsed⟩

/-- The counters may be changed between two calls. -/
theorem Inv.setMetrics (h : w.Inv) (metrics : TraceMetrics) : { w with metrics }.Inv :=
  ⟨⟨h.exclusive, fun he => ⟨(h.running he).good, (h.running he).reserved, (h.running he).result⟩⟩,
    h.waiting, h.reported⟩

theorem Inv.produce (h : w.Inv) (step : ProducerStep) : (w.produce lz4 step).Inv := h.step (.producer step)

/-- A call has returned and kept the books. -/
structure Settled (w w' : AsyncWriter Ctx) : Prop extends Ledger w w' where
  inv : w'.Inv
  running : w'.producer = .running

variable {step : ProducerStep}

/-- A call of the producer starts: the consumer's steps first, then its first step. -/
theorem perform_cases (h : w.Inv) (hp : w.producer = .running)
    (hrun : perform lz4 step w turns = some (w', rest)) : ∃ w₀ turns', w₀.Inv ∧ Elapsed w w₀ ∧
      settle lz4 turns' (w₀.call lz4 step) = some (w', rest) := by
  cases turns with
  | nil => simp [perform] at hrun
  | cons turn turns =>
    obtain ⟨hinv, helapsed⟩ := elapsed_consumeAll  turn.consumer h
    refine ⟨_, turns, hinv, helapsed, ?_⟩
    rwa [perform, produce, if_pos (helapsed.producer.trans hp)] at hrun

/-- A call that only waits keeps the books and what its resumptions keep. -/
theorem settle_waiting {Q : AsyncWriter Ctx → Prop}
    (hpass : ∀ {v v'}, Elapsed v v' → v.producer ≠ .running → Q v → Q v')
    (hproceed : ∀ {v} wake, v.Inv → v.producer ≠ .running → Q v →
      Ledger v (v.proceed wake) ∧ Q (v.proceed wake))
    (hinv : w'.Inv) (hledger : Ledger w w') (hq : Q w')
    (hsettle : settle lz4 turns w' = some (w'', rest)) : Settled w w'' ∧ Q w'' := by
  have hsettled := settle_rule (P := fun v => v.Inv ∧ Ledger w v ∧ Q v) ?_ ⟨hinv, hledger, hq⟩ hsettle
  · obtain ⟨⟨hinv, hledger, hq⟩, hrunning⟩ := hsettled
    exact ⟨⟨hledger, hinv, hrunning⟩, hq⟩
  · rintro v steps wake ⟨hinv, hledger, hq⟩ hp
    obtain ⟨hinv, helapsed⟩ := elapsed_consumeAll steps hinv
    have hp' : (v.consumeAll lz4 steps).producer ≠ .running := by rwa [helapsed.producer]
    obtain ⟨hbooks, hq⟩ := hproceed wake hinv hp' (hpass helapsed hp hq)
    rw [produce, if_neg hp']
    exact ⟨hinv.proceed wake, (hledger.trans helapsed.toLedger).trans hbooks, hq⟩

theorem perform_inv (h : w.Inv) (hp : w.producer = .running) (hrun : perform lz4 step w turns = some (w', rest)) :
    w'.Inv ∧ w'.producer = .running := by
  obtain ⟨w₀, turns', hinv, -, hsettle⟩ := perform_cases h hp hrun
  exact settle_rule (fun v steps wake hv _ => (elapsed_consumeAll steps hv).1.produce wake) (hinv.call step) hsettle

/-- The producer holds a span of `capacity` bytes. -/
structure Granted (w : AsyncWriter Ctx) (capacity : ℕ) : Prop where
  error : w.error = 0
  opened : w.opened = true
  finishCalled : w.finishCalled = false
  reservationActive : w.reservationActive = true
  reservationCapacity : w.reservationCapacity = capacity

/-- Inside `reserve`, or just after it. -/
def Reserving (w : AsyncWriter Ctx) : Prop :=
  (w.producer = .acquiring .reserve ∧ w.opened = true ∧ w.finishCalled = false) ∨
    (w.producer = .running ∧ ∀ capacity, w.returned = .span (some capacity) → w.Granted capacity)

theorem Reserving.refused (w : AsyncWriter Ctx) : (w.refuse .reserve).Reserving :=
  Or.inr ⟨rfl, fun _ h => by simp [refuse, give] at h⟩

theorem Reserving.grantTo (he : w.error = 0) (hopened : w.opened = true)
    (hfinish : w.finishCalled = false) (capacity : ℕ) : (w.grantTo capacity .reserve).Reserving := by
  refine Or.inr ⟨rfl, fun c hc => ?_⟩
  have hcapacity : capacity = c := by simpa [AsyncWriter.grantTo, give] using hc
  exact ⟨he, hopened, hfinish, rfl, hcapacity⟩

theorem reserving_awaitFree (hopened : w.opened = true) (hfinish : w.finishCalled = false)
    (waited : Option UInt64) :
    Ledger w (w.awaitFree .reserve waited) ∧ (w.awaitFree .reserve waited).Reserving := by
  unfold awaitFree
  split
  case isTrue => exact ⟨⟨rfl, id, id⟩, Reserving.refused _⟩
  case isFalse he =>
    split
    case h_1 i hi =>
      have he : w.error = 0 := by simpa using he
      exact ⟨⟨rfl, id, id⟩, Reserving.grantTo
        (w := { w.countWait waited with toShared := w.toShared.acquire i }) he hopened hfinish _⟩
    case h_2 => exact ⟨⟨rfl, id, id⟩, Or.inl ⟨rfl, hopened, hfinish⟩⟩

theorem reserving_reserveFor (w : AsyncWriter Ctx) (minimum : ℕ) :
    Ledger w (w.reserveFor minimum .reserve) ∧ (w.reserveFor minimum .reserve).Reserving := by
  unfold reserveFor
  split
  case isTrue => exact ⟨⟨rfl, id, id⟩, Reserving.refused _⟩
  case isFalse hguard =>
    simp only [Bool.or_eq_true, not_or, Bool.not_eq_true', decide_eq_true_eq, Bool.not_eq_true] at hguard
    obtain ⟨⟨⟨⟨⟨hopened, hfinish⟩, -⟩, -⟩, he⟩, -⟩ := hguard
    have hopened : w.opened = true := by simpa using hopened
    split
    case h_1 => exact ⟨⟨rfl, id, id⟩, Reserving.refused _⟩
    case h_2 i hi =>
      dsimp only
      split
      case isTrue =>
        obtain ⟨hledger, hreserving⟩ :=
          reserving_awaitFree (w := w.swap i) hopened hfinish none
        exact ⟨(Ledger.mk rfl id id : Ledger w (w.swap i)).trans hledger, hreserving⟩
      case isFalse =>
        exact ⟨⟨rfl, id, id⟩, Reserving.grantTo (by simpa using he) hopened hfinish _⟩

theorem reserving_proceed (h : w.Reserving) (hp : w.producer ≠ .running) (wake : ProducerStep) :
    Ledger w (w.proceed wake) ∧ (w.proceed wake).Reserving := by
  obtain ⟨hacquiring, hopened, hfinish⟩ | ⟨hrunning, -⟩ := h
  · have hsame : Ledger w w ∧ w.Reserving := ⟨Ledger.refl w, Or.inl ⟨hacquiring, hopened, hfinish⟩⟩
    cases wake with
    | resume waited =>
      simp only [proceed, hacquiring]
      exact reserving_awaitFree hopened hfinish _
    | join | joinFailed => simpa only [proceed, hacquiring] using hsame
    | _ => exact hsame
  · exact absurd hrunning hp

theorem Reserving.pass (h : w.Reserving) (he : Elapsed w w') (hp : w.producer ≠ .running) :
    w'.Reserving := by
  obtain ⟨hacquiring, hopened, hfinish⟩ | ⟨hrunning, -⟩ := h
  · have hbooks := he.books
    refine Or.inl ⟨he.producer.trans hacquiring, ?_, ?_⟩
    · exact (congrArg Books.opened hbooks).trans hopened
    · exact (congrArg Books.finishCalled hbooks).trans hfinish
  · exact absurd hrunning hp

theorem perform_reserve {minimum : ℕ} (h : w.Inv) (hp : w.producer = .running)
    (hrun : perform lz4 (.reserve minimum) w turns = some (w', rest)) :
    Settled w w' ∧ ∀ capacity, w'.returned = .span (some capacity) → w'.Granted capacity := by
  obtain ⟨w₀, turns', hinv, helapsed, hsettle⟩ := perform_cases h hp hrun
  obtain ⟨hledger, hreserving⟩ := reserving_reserveFor w₀ minimum
  obtain ⟨hsettled, hreserved⟩ := settle_waiting (Q := Reserving)
    (fun he hp hq => hq.pass he hp) (fun wake _ hp hq => reserving_proceed hq hp wake)
    (hinv.call (.reserve minimum)) (helapsed.toLedger.trans hledger) hreserving hsettle
  refine ⟨hsettled, ?_⟩
  obtain ⟨hacquiring, -⟩ | ⟨-, hgranted⟩ := hreserved
  · rw [hsettled.running] at hacquiring
    cases hacquiring
  · exact hgranted

/-- Inside `drain`, or just after it. -/
def Draining (w : AsyncWriter Ctx) : Prop := w.producer = .draining ∨ w.producer = .running

theorem draining_awaitDrained (w : AsyncWriter Ctx) (waited : Option UInt64) :
    Ledger w (w.awaitDrained waited) ∧ (w.awaitDrained waited).Draining := by
  unfold awaitDrained
  split_ifs
  · exact ⟨⟨rfl, id, id⟩, Or.inr rfl⟩
  · exact ⟨⟨rfl, id, id⟩, Or.inr rfl⟩
  · exact ⟨⟨rfl, id, id⟩, Or.inl rfl⟩

theorem draining_drain (w : AsyncWriter Ctx) : Ledger w w.drain ∧ w.drain.Draining := by
  unfold drain
  split
  case isTrue => exact ⟨⟨rfl, id, id⟩, Or.inr rfl⟩
  case isFalse =>
    split
    case h_1 => exact ⟨⟨rfl, id, id⟩, Or.inr rfl⟩
    case h_2 i _ =>
      have hhanded : Ledger w (w.handIn i) := by
        unfold handIn
        split_ifs <;> exact ⟨rfl, id, id⟩
      obtain ⟨hledger, hdraining⟩ := draining_awaitDrained (w.handIn i) none
      exact ⟨hhanded.trans hledger, hdraining⟩

theorem draining_proceed (h : w.Draining) (hp : w.producer ≠ .running) (wake : ProducerStep) :
    Ledger w (w.proceed wake) ∧ (w.proceed wake).Draining := by
  have hdraining : w.producer = .draining := h.resolve_right hp
  have hsame : Ledger w w ∧ w.Draining := ⟨Ledger.refl w, h⟩
  cases wake with
  | resume waited =>
    simp only [proceed, hdraining]
    exact draining_awaitDrained w _
  | join | joinFailed => simpa only [proceed, hdraining] using hsame
  | _ => exact hsame

theorem perform_drain (h : w.Inv) (hp : w.producer = .running)
    (hrun : perform lz4 .drain w turns = some (w', rest)) : Settled w w' := by
  obtain ⟨w₀, turns', hinv, helapsed, hsettle⟩ := perform_cases h hp hrun
  obtain ⟨hledger, hdraining⟩ := draining_drain w₀
  exact (settle_waiting (Q := Draining) (fun he _ hq => by rwa [Draining, he.producer])
    (fun wake _ hp hq => draining_proceed hq hp wake) (hinv.call .drain)
    (helapsed.toLedger.trans hledger) hdraining hsettle).1

theorem settle_running (hp : w.producer = .running) (turns : List Turn) :
    settle lz4 turns w = some (w, turns) := by
  cases turns <;> simp [settle, hp]

/-- A call that never waits returns what its one step does. -/
theorem perform_at_once (h : w.Inv) (hp : w.producer = .running)
    (honce : ∀ v : AsyncWriter Ctx, (v.call lz4 step).producer = .running)
    (hrun : perform lz4 step w turns = some (w', rest)) :
    ∃ w₀, w₀.Inv ∧ Elapsed w w₀ ∧ w' = w₀.call lz4 step := by
  obtain ⟨w₀, turns', hinv, helapsed, hsettle⟩ := perform_cases h hp hrun
  rw [settle_running (honce w₀)] at hsettle
  simp only [Option.some.injEq, Prod.mk.injEq] at hsettle
  exact ⟨w₀, hinv, helapsed, hsettle.1.symm⟩

/-- The books after `bytes` were committed. -/
def Books.record (b : Books) (bytes : List UInt8) : Books :=
  { b with
    committed := b.committed ++ bytes
    counters := { b.counters with
      encodedBytes := b.counters.encodedBytes + UInt64.ofNat bytes.length } }

variable {i : BufferIndex}

theorem commit_eq {count : ℕ} (hopened : w.opened = true) (hfinish : w.finishCalled = false)
    (hactive : w.reservationActive = true) (hi : w.activeBuffer = some i) (herror : (w.commit count).error = 0) :
    count ≤ w.reservationCapacity ∧ w.commit count = { w with
      toShared := w.toShared.advance i count
      metrics := { w.metrics with encodedBytes := w.metrics.encodedBytes + UInt64.ofNat count }
      reservationActive := false
      reservationCapacity := 0 } := by
  unfold commit at herror ⊢
  simp only [hopened, hfinish, hactive, hi, Bool.not_true, Bool.or_self, Bool.false_or,
    decide_eq_true_eq, Bool.false_eq_true, if_false] at herror ⊢
  split at herror
  case isTrue => exact absurd herror (Shared.error_latchFailure_ne _ _)
  case isFalse hfits => exact ⟨by omega, if_neg hfits⟩

variable {bytes : List UInt8}

theorem fill_eq (hactive : w.reservationActive = true) (hi : w.activeBuffer = some i)
    (hfits : bytes.length ≤ w.reservationCapacity) :
    w.fill bytes = { w with toShared := w.toShared.fill i bytes } := by
  simp [fill, hi, hactive, hfits]

/-- Filling a span changes no more than the bytes in it. -/
theorem fill_frame (w : AsyncWriter Ctx) (bytes : List UInt8) : Ledger w (w.fill bytes) ∧
    (w.fill bytes).reservationActive = w.reservationActive ∧
    (w.fill bytes).reservationCapacity = w.reservationCapacity ∧
    (w.fill bytes).activeBuffer = w.activeBuffer := by
  unfold fill
  split
  · split_ifs <;> exact ⟨⟨rfl, id, id⟩, rfl, rfl, rfl⟩
  · exact ⟨⟨rfl, id, id⟩, rfl, rfl, rfl⟩

/-- Bytes written into a span and committed are at the end of the committed ones. -/
theorem perform_fill_commit {capacity : ℕ} {turns' : List Turn} (h : w.Inv) (hp : w.producer = .running)
    (hgranted : w.Granted capacity) (hfill : perform lz4 (.fill bytes) w turns = some (w', turns'))
    (hcommit : perform lz4 (.commit bytes.length) w' turns' = some (w'', rest)) (herror : w''.error = 0) :
    w''.Inv ∧ w''.producer = .running ∧ w''.books = w.books.record bytes ∧
      (Counted w.toShared → Counted w''.toShared) ∧ w''.reservationActive = false := by
  obtain ⟨v, hv, hpass, rfl⟩ := perform_at_once h hp (fun _ => rfl) hfill
  have hv' : (v.call lz4 (.fill bytes)).Inv := hv.call _
  obtain ⟨u, hu, hpass', rfl⟩ := perform_at_once hv' rfl (fun _ => rfl) hcommit
  obtain ⟨hledger, hactive, hcapacity, hbuffer⟩ := fill_frame v bytes
  obtain ⟨i, hi, hroom⟩ := (h.running hgranted.error).reserved hgranted.reservationActive
  have hbooks : u.books = w.books := (hpass'.books.trans hledger.books).trans hpass.books
  have hvi : v.activeBuffer = some i := hpass.activeBuffer.trans hi
  have hui : u.activeBuffer = some i := hpass'.activeBuffer.trans (hbuffer.trans hvi)
  have hva : v.reservationActive = true := hpass.reservationActive.trans hgranted.reservationActive
  have hua : u.reservationActive = true := hpass'.reservationActive.trans (hactive.trans hva)
  obtain ⟨hfits, hcommitted⟩ := commit_eq (i := i) ((congrArg Books.opened hbooks).trans hgranted.opened)
    ((congrArg Books.finishCalled hbooks).trans hgranted.finishCalled) hua hui herror
  have hfilled := fill_eq hva hvi ((hfits.trans_eq hpass'.reservationCapacity).trans_eq hcapacity)
  -- The consumer leaves the filled bytes alone until they are committed.
  have hslice : ((u.buffers i).data.drop (u.buffers i).used).take bytes.length = bytes := by
    obtain ⟨hdata, hused⟩ := hpass'.active i (hbuffer.trans hvi)
    obtain ⟨hdata', hused'⟩ := hpass.active i hi
    obtain ⟨queue, hgood⟩ := (h.running hgranted.error).good
    have hdata : (u.buffers i).data = overwrite (v.buffers i).data (v.buffers i).used bytes := by
      rw [hdata]
      show ((v.fill bytes).buffers i).data = _
      simp [hfilled, Shared.fill, Shared.setBuffer]
    have hused : (u.buffers i).used = (v.buffers i).used := by
      rw [hused]
      show ((v.fill bytes).buffers i).used = _
      simp [hfilled, Shared.fill, Shared.setBuffer]
    rw [hdata, hused]
    refine read_overwrite ?_
    rw [hdata', hused', (hgood.sized i).1]
    exact (hgood.sized i).2
  have hinv : (u.call lz4 (.commit bytes.length)).Inv := hu.call _
  have hresult : u.call lz4 (.commit bytes.length) = (u.commit bytes.length).give .nothing := rfl
  rw [hcommitted] at hresult
  rw [hresult] at hinv ⊢
  refine ⟨hinv, rfl, ?_, fun hcounted => hpass'.counted (hledger.counted (hpass.counted hcounted)), rfl⟩
  rw [← hbooks]
  simp only [books, give, Shared.advance, Shared.setBuffer, hslice, Books.record]

end AsyncWriter

end QTrace.Async
