import QTrace.Async.Finish
import QTrace.Events.Emission

/-! The footer describes its own file. The terminal record announces the size of the file,
the encoded bytes and the buffer swaps as they will be once the record itself has been
written, and `close` makes them so. -/

namespace QTrace.Events

open Lib Async

variable {Ctx : Type} {lz4 : Lz4 Ctx}

namespace BinaryTraceWriter

variable {b b' : BinaryTraceWriter Ctx} {opcodes : List UInt32} {i : BufferIndex} {terminal : List UInt8}
  {termination : TraceTermination} {terminalBytes : ℕ} {encode : UInt64 → TraceMetrics → Option (List UInt8)}
  {elapsedMs : Int64}

theorem putTerminal_spec (h : b.Sound opcodes) (hwaiting : b.writer.Waiting i [])
    (hput : Call.Succeeds (putTerminal lz4 terminal) b () b') :
    b'.Sound opcodes ∧ b'.writer.books = b.writer.books.record terminal ∧ b'.writer.Waiting i terminal ∧
      AsyncWriter.Appended b.writer b'.writer terminal ∧
      AsyncWriter.Padded lz4 b.writer terminal b'.finalPaddingBytes ∧
      b' = { b with writer := b'.writer, turns := b'.turns, finalPaddingBytes := b'.finalPaddingBytes } := by
  rw [putTerminal, Call.succeeds_bind] at hput
  obtain ⟨_, b₁, hissue, hput⟩ := hput
  obtain ⟨hpadding, rfl, hb₁⟩ := succeeds_issue hissue
  split at hput
  case h_2 => exact absurd hput Call.not_succeeds_failing
  case h_1 padding hret =>
    have hinv₁ := AsyncWriter.perform_inv h.inv h.running hpadding
    obtain ⟨hwaiting₁, ⟨context, hw₁⟩, hpadded⟩ := hwaiting.perform_finalFramePadding hpadding hret
    simp only [Call.succeeds_bind, Call.succeeds_update] at hput
    obtain ⟨_, b₂, rfl, _, b₃, hissue, hput⟩ := hput
    obtain ⟨hreserve, rfl, hb₃⟩ := succeeds_issue hissue
    split at hput
    case h_2 => exact absurd hput Call.not_succeeds_failing
    case h_1 capacity hspan =>
      simp only [Call.succeeds_bind, Call.succeeds_demand, decide_eq_true_eq] at hput
      obtain ⟨_, b₄, hfill, _, b₅, hcommit, herror, rfl⟩ := hput
      obtain ⟨hfill, -, hb₄⟩ := succeeds_issue hfill
      obtain ⟨hcommit, -, hb₅⟩ := succeeds_issue hcommit
      obtain ⟨hsettled, hgranted⟩ := AsyncWriter.perform_reserve hinv₁.1 hinv₁.2 hreserve
      obtain ⟨hinv₅, hrunning₅, hbooks, -, -⟩ := AsyncWriter.perform_fill_commit hsettled.inv
        hsettled.running (hgranted capacity hspan) hfill hcommit herror
      have hbooks₁ : b₁.writer.books = b.writer.books := by
        rw [hw₁]
        rfl
      obtain ⟨hwaiting₅, happended⟩ := hwaiting₁.perform_write hreserve hspan hfill hcommit
      -- Measuring the frame only changed the compression context.
      have happended : AsyncWriter.Appended b.writer b₅.writer terminal := by
        rw [hw₁] at happended
        exact ⟨happended.metrics, happended.committed, happended.file, happended.compressedBytes,
          happended.compressionEnabled⟩
      have hb' : b₅ = { b with writer := b₅.writer, turns := b₅.turns, finalPaddingBytes := padding } := by
        rw [hb₅, hb₄, hb₃, hb₁]
      refine ⟨⟨hinv₅, hrunning₅, ?_, ?_⟩, ?_, hwaiting₅, happended, ?_, ?_⟩
      · rw [AsyncWriter.Counted, happended.file, happended.compressedBytes]
        exact h.counted
      · rw [hb']
        exact h.known
      · rw [hbooks, hsettled.books, hbooks₁]
      · rw [hb']
        exact hpadded
      · rw [hb']

/-- The terminal is committed and announces what closing the file will make true. -/
structure Ended (lz4 : Lz4 Ctx) (b : BinaryTraceWriter Ctx) (terminal : List UInt8) (footer : TraceMetrics) :
    Prop where
  waiting : ∃ i, b.writer.Waiting i terminal
  instructions : footer.instructions = b.writer.metrics.instructions
  encodedBytes : footer.encodedBytes = b.writer.metrics.encodedBytes
  bufferSwaps : footer.bufferSwaps = b.writer.metrics.bufferSwaps + 1
  effectiveBufferBytes : footer.effectiveBufferBytes = b.writer.metrics.effectiveBufferBytes
  raw : b.writer.compressionEnabled = false → footer.compressedBytes.toNat =
    b.writer.file.length + terminal.length + b.finalPaddingBytes
  framed : b.writer.compressionEnabled = true → ∃ context context' bytes,
    lz4.frame context terminal = some (context', bytes) ∧
      footer.compressedBytes.toNat = b.writer.file.length + bytes.length + b.finalPaddingBytes

theorem Sound.compressedBytes_toNat (h : b.Sound opcodes) (he : b.writer.error = 0) :
    b.writer.compressedBytes.toNat = b.writer.file.length := by
  obtain ⟨queue, hgood⟩ := (h.inv.running he).good
  have hbounded := hgood.bounded
  have hcounted : b.writer.compressedBytes = UInt64.ofNat b.writer.file.length := h.counted
  rw [hcounted, UInt64.toNat_ofNat', Nat.mod_eq_of_lt]
  simp only [maxFileBytes] at hbounded
  omega

theorem ended_of_appended {target : ℕ} (h : b.Sound opcodes) (hwaiting : b.writer.Waiting i [])
    (hwaiting' : b'.writer.Waiting i terminal)
    (htargeted : AsyncWriter.Targeted lz4 b.writer terminal.length target)
    (happended : AsyncWriter.Appended b.writer b'.writer terminal)
    (hpadded : AsyncWriter.Padded lz4 b.writer terminal b'.finalPaddingBytes) :
    Ended lz4 b' terminal { footerMetrics b.writer.metrics terminal.length with
      compressedBytes := UInt64.ofNat target } := by
  have hcounted := h.compressedBytes_toNat hwaiting.error
  have hfits := htargeted.fits
  have htarget : (UInt64.ofNat target).toNat = target := by
    rw [UInt64.toNat_ofNat', Nat.mod_eq_of_lt]
    simp only [uint64Max] at hfits
    omega
  have hmetrics := happended.metrics
  refine ⟨⟨i, hwaiting'⟩, ?_, ?_, ?_, ?_, fun hraw => ?_, fun hframed => ?_⟩
  iterate 4
    rw [hmetrics]
    rfl
  · rw [happended.compressionEnabled] at hraw
    have hpadding := hpadded.raw hraw
    have hlength := htargeted.raw hraw
    rw [htarget, happended.file]
    omega
  · rw [happended.compressionEnabled] at hframed
    obtain ⟨bound, hbound, hlength⟩ := htargeted.framed hframed
    obtain ⟨bound', context', bytes, hbound', hframe, hle, hpadding⟩ := hpadded.framed hframed
    refine ⟨_, context', bytes, hframe, ?_⟩
    have hsame : bound = bound' := Option.some.inj (hbound.symm.trans hbound')
    rw [htarget, happended.file]
    omega

theorem finalizeTerminal_spec (h : b.Sound opcodes)
    (hfinalize : Call.Succeeds (finalizeTerminal lz4 termination terminalBytes encode elapsedMs) b () b') :
    ∃ terminal footer elapsed, encode elapsed footer = some terminal ∧ terminal.length = terminalBytes ∧
      b'.Sound opcodes ∧ b'.writer.books = b.writer.books.record terminal ∧ Ended lz4 b' terminal footer ∧
      b' = { b with writer := b'.writer, turns := b'.turns, elapsedMs := b'.elapsedMs, termination,
                    finalPaddingBytes := b'.finalPaddingBytes } := by
  simp only [finalizeTerminal, Call.succeeds_bind, Call.succeeds_update, Call.succeeds_demand] at hfinalize
  obtain ⟨_, b₀, rfl, _, _, ⟨-, rfl⟩, _, b₁, hissue, hfinalize⟩ := hfinalize
  obtain ⟨hdrain, rfl, hb₁⟩ := succeeds_issue hissue
  split at hfinalize
  case h_2 => exact absurd hfinalize Call.not_succeeds_failing
  case h_1 hdrained =>
    have hsettled := AsyncWriter.perform_drain h.inv h.running hdrain
    simp only [Call.succeeds_bind, Call.succeeds_read] at hfinalize
    obtain ⟨_, _, ⟨rfl, rfl⟩, _, b₂, hissue, hfinalize⟩ := hfinalize
    obtain ⟨htarget, rfl, hb₂⟩ := succeeds_issue hissue
    split at hfinalize
    case h_2 => exact absurd hfinalize Call.not_succeeds_failing
    case h_1 target hret =>
      obtain ⟨hinv₂, hledger, hmetrics, ⟨i, hwaiting⟩, htargeted⟩ :=
        AsyncWriter.perform_finalFileTarget hsettled.inv hsettled.running htarget hret
      split at hfinalize
      case h_2 => exact absurd hfinalize Call.not_succeeds_failing
      case h_1 terminal hencode =>
        split at hfinalize
        case isFalse => exact absurd hfinalize Call.not_succeeds_failing
        case isTrue hlength =>
          simp only [Call.succeeds_bind, Call.succeeds_update] at hfinalize
          obtain ⟨_, b₃, hput, rfl⟩ := hfinalize
          have hsound₂ : b₂.Sound opcodes := by
            refine ⟨hinv₂, hwaiting.producer, hledger.counted (hsettled.counted h.counted), ?_⟩
            rw [hb₂, hb₁]
            exact h.known
          obtain ⟨hsound₃, hbooks, hwaiting₃, happended, hpadded, hb₃⟩ := putTerminal_spec hsound₂ hwaiting hput
          refine ⟨terminal, _, _, hencode, hlength,
            ⟨hsound₃.inv, hsound₃.running, hsound₃.counted, hsound₃.known⟩, ?_, ?_, ?_⟩
          · rw [← hsettled.books, ← hledger.books]
            exact hbooks
          · subst hlength
            rw [← hmetrics]
            have hended := ended_of_appended hsound₂ hwaiting hwaiting₃ htargeted happended hpadded
            exact ⟨hended.waiting, hended.instructions, hended.encodedBytes, hended.bufferSwaps,
              hended.effectiveBufferBytes, hended.raw, hended.framed⟩
          · rw [hb₃, hb₂, hb₁]

/-- `terminal` is the record that ends a trace with the metrics `footer`. -/
def IsTerminal (terminal : List UInt8) (footer : TraceMetrics) : Prop :=
  (∃ retval elapsed, encodeEnd traceEndRecordBytes true retval elapsed footer = some terminal) ∨
    ∃ reason elapsed, encodeStop traceEndRecordBytes reason elapsed footer = some terminal

/-- The terminal stands last among the committed bytes. -/
def Terminated (lz4 : Lz4 Ctx) (b : BinaryTraceWriter Ctx) : Prop :=
  ∃ before terminal footer, IsTerminal terminal footer ∧ b.writer.committed = before ++ terminal ∧
    Ended lz4 b terminal footer

/-- What holds of a writer between two successful calls. -/
structure Staged (lz4 : Lz4 Ctx) (b : BinaryTraceWriter Ctx) (opcodes : List UInt32) : Prop where
  sound : b.Sound opcodes
  closeCalled : b.closeCalled = false
  terminated : b.termination ≠ .none → Terminated lz4 b

theorem termination_of_writable {x : Unit → Call (BinaryTraceWriter Ctx) Unit}
    (h : Call.Succeeds (Call.demand writableEventState id >>= x) b () b') : b.termination = .none := by
  have hwritable := (Call.succeeds_demand_bind.mp h).1
  simp only [writableEventState, Bool.and_eq_true, decide_eq_true_eq] at hwritable
  exact hwritable.1.1.2

section

variable (h : Staged lz4 b opcodes)
include h

theorem Staged.emits {items : List Item} {opcodes' : List UInt32} (hemits : Emits b b' opcodes' items)
    (hnone : b.termination = .none) : Staged lz4 b' opcodes' := by
  have hframe := hemits.frame
  refine ⟨hemits.sound, ?_, fun hne => absurd ?_ hne⟩
  · rw [hframe]
    exact h.closeCalled
  · rw [hframe]
    exact hnone

theorem Staged.begin {context : TraceContext} (hbegin : Call.Succeeds (begin lz4 context) b () b') :
    Staged lz4 b' opcodes := by
  obtain ⟨_, b₁, -, -, hb₁, hemits⟩ := begin_spec h.sound hbegin
  have hnone : b.termination = .none := by
    have hguard := (Call.succeeds_demand_bind.mp hbegin).1
    simp only [Bool.and_eq_true, decide_eq_true_eq] at hguard
    exact hguard.1.1.2
  have hframe := hemits.frame
  refine ⟨hemits.sound, ?_, fun hne => absurd ?_ hne⟩
  · rw [hframe, hb₁]
    exact h.closeCalled
  · rw [hframe, hb₁]
    exact hnone

theorem Staged.finalize
    (hencode : ∀ {elapsed footer terminal}, encode elapsed footer = some terminal → IsTerminal terminal footer)
    (hfinalize : Call.Succeeds (finalizeTerminal lz4 termination terminalBytes encode elapsedMs) b () b') :
    Staged lz4 b' opcodes := by
  obtain ⟨terminal, footer, elapsed, hterminal, -, hsound, hbooks, hended, hb'⟩ :=
    finalizeTerminal_spec h.sound hfinalize
  refine ⟨hsound, ?_, fun _ => ⟨b.writer.committed, terminal, footer, hencode hterminal, ?_, hended⟩⟩
  · rw [hb']
    exact h.closeCalled
  · exact congrArg AsyncWriter.Books.committed hbooks

/-- The counters of the cache are not those the footer predicts. -/
theorem Staged.cacheStats {hits misses collisions : UInt64} :
    Staged lz4 { b with writer := { b.writer with metrics := { b.writer.metrics with
      cacheHits := hits, cacheMisses := misses, cacheCollisions := collisions } } } opcodes := by
  have hsound := h.sound
  refine ⟨⟨hsound.inv.setMetrics _, hsound.running, hsound.counted, hsound.known⟩, h.closeCalled, fun hne => ?_⟩
  obtain ⟨before, terminal, footer, hterminal, hcommitted, hended⟩ := h.terminated hne
  obtain ⟨i, hw⟩ := hended.waiting
  refine ⟨before, terminal, footer, hterminal, hcommitted, ⟨i, ?_⟩, hended.instructions, hended.encodedBytes,
    hended.bufferSwaps, hended.effectiveBufferBytes, hended.raw, hended.framed⟩
  exact ⟨⟨hw.error, hw.activeBuffer, hw.filling, hw.free, hw.consumer, hw.producerDone⟩, hw.producer, hw.opened,
    hw.finishCalled, hw.reservationActive, hw.used, hw.data⟩

theorem Staged.act {op : Op} (hact : Call.Succeeds (act lz4 op) b () b') : ∃ opcodes', Staged lz4 b' opcodes' := by
  cases op with
  | begin context => exact ⟨opcodes, h.begin hact⟩
  | instruction context record =>
    obtain ⟨decoded, -, -, hemits⟩ := instruction_spec h.sound hact
    exact ⟨_, h.emits hemits (termination_of_writable hact)⟩
  | memory context pc record => exact ⟨_, h.emits (memory_spec h.sound hact) (termination_of_writable hact)⟩
  | call category name detail =>
    obtain ⟨-, _, -, hemits⟩ := call_spec h.sound hact
    exact ⟨_, h.emits hemits (termination_of_writable hact)⟩
  | rule name detail | error message =>
    obtain ⟨-, _, -, hemits⟩ := appendEvent_spec h.sound hact
    exact ⟨_, h.emits hemits (termination_of_writable hact)⟩
  | cacheStats hits misses collisions =>
    obtain rfl := Call.succeeds_update.mp hact
    exact ⟨_, h.cacheStats⟩
  | endTrace retval ok elapsedMs =>
    obtain ⟨-, hfinalize⟩ := Call.succeeds_demand_bind.mp hact
    cases ok with
    | false => exact absurd hfinalize Call.not_succeeds_failing
    | true => exact ⟨_, h.finalize (fun hencode => Or.inl ⟨retval, _, hencode⟩) hfinalize⟩
  | stop reason elapsedMs =>
    obtain ⟨_, _, hread, hstop⟩ := Call.succeeds_bind.mp hact
    obtain ⟨rfl, rfl⟩ := Call.succeeds_read.mp hread
    split at hstop
    case isTrue =>
      obtain ⟨-, rfl⟩ := Call.succeeds_pure.mp hstop
      exact ⟨opcodes, h⟩
    case isFalse =>
      obtain ⟨-, hfinalize⟩ := Call.succeeds_demand_bind.mp hstop
      exact ⟨_, h.finalize (fun hencode => Or.inr ⟨reason, _, hencode⟩) hfinalize⟩

end

theorem Staged.run : ∀ {ops : List Op} {b : BinaryTraceWriter Ctx} {opcodes : List UInt32},
    Staged lz4 b opcodes → Call.Succeeds (run lz4 ops) b () b' → ∃ opcodes', Staged lz4 b' opcodes'
  | [], b, opcodes, h, hrun => by
    obtain ⟨-, rfl⟩ := Call.succeeds_pure.mp hrun
    exact ⟨opcodes, h⟩
  | op :: ops, b, opcodes, h, hrun => by
    obtain ⟨_, b₁, hact, hrun⟩ := Call.succeeds_bind.mp hrun
    obtain ⟨opcodes₁, h₁⟩ := h.act hact
    exact Staged.run h₁ hrun

theorem staged_create (lz4 : Lz4 Ctx) (options : TraceOptions) (runId : UInt64) (bufferBytes : ℕ)
    (context : Ctx) (refused : ℕ) (turns : List Turn) :
    Staged lz4 (create options runId bufferBytes context refused turns) [] :=
  ⟨⟨AsyncWriter.inv_create _ _ _ _, rfl, rfl, TraceDictionary.knows_create refused⟩, rfl,
    fun hne => absurd rfl hne⟩

variable {footer : TraceMetrics}

theorem IsTerminal.ne_nil (h : IsTerminal terminal footer) : terminal ≠ [] := by
  rintro rfl
  obtain ⟨retval, elapsed, hencode⟩ | ⟨reason, elapsed, hencode⟩ := h
  · simp [encodeEnd, emitRecord, recordHeader, traceEndRecordBytes, recordHeaderBytes,
      traceEndPayloadBytes, leBytes] at hencode
  · simp [encodeStop, emitRecord, recordHeader, traceEndRecordBytes, recordHeaderBytes,
      traceStopPayloadBytes, leBytes] at hencode

theorem Ended.totals (hsame : lz4.SameSize) (h : Ended lz4 b terminal footer) :
    ∃ total, Totals lz4 terminal total b.writer.toShared ∧
      footer.compressedBytes.toNat = b.writer.file.length + total + b.finalPaddingBytes := by
  cases henabled : b.writer.compressionEnabled with
  | false =>
    exact ⟨terminal.length, ⟨fun _ => rfl, fun hframed => by simp [henabled] at hframed⟩, h.raw henabled⟩
  | true =>
    obtain ⟨context, context', bytes, hframe, hlength⟩ := h.framed henabled
    refine ⟨bytes.length, ⟨fun hraw => by simp [henabled] at hraw, fun _ => ?_⟩, hlength⟩
    exact fun hother => hsame hother hframe

theorem closed_frame (traceOk : Bool) (sidecarError : ℕ) (b : BinaryTraceWriter Ctx) :
    (closed traceOk sidecarError b).writer = b.writer ∧ (closed traceOk sidecarError b).turns = b.turns := by
  unfold closed
  dsimp only
  split_ifs <;> exact ⟨rfl, rfl⟩

variable {sidecarError : ℕ}

theorem of_closeResult {traceOk : Bool} (h : (closed traceOk sidecarError b).closeResult = true) :
    traceOk = true ∧ b.termination ≠ .none := by
  have htermination : ∀ code, (fail code b).termination = b.termination := fun _ => rfl
  unfold closed at h
  cases traceOk with
  | false => simp at h
  | true =>
    refine ⟨rfl, ?_⟩
    simp only [Bool.true_and, if_true, Bool.and_eq_true, decide_eq_true_eq] at h
    obtain ⟨⟨hne, -⟩, -⟩ := h
    split_ifs at hne <;> exact hne

theorem close_spec (hopen : b.closeCalled = false) (hclose : Call.Succeeds (close lz4 sidecarError) b () b') :
    b.termination ≠ .none ∧
      b'.writer.returned = .finished true ∧
      AsyncWriter.perform lz4 (.finish b.finalPaddingBytes) b.writer b.turns = some (b'.writer, b'.turns) := by
  obtain ⟨_, _, hread, hclose⟩ := Call.succeeds_bind.mp hclose
  obtain ⟨rfl, rfl⟩ := Call.succeeds_read.mp hread
  simp only [hopen, Bool.false_eq_true, if_false, Call.succeeds_bind, Call.succeeds_update,
    Call.succeeds_demand] at hclose
  obtain ⟨_, b₁, rfl, _, _, ⟨-, rfl⟩, _, b₂, hissue, _, b₃, rfl, hresult, rfl⟩ := hclose
  obtain ⟨hfinish, rfl, hb₂⟩ := succeeds_issue hissue
  obtain ⟨hok, hne⟩ := of_closeResult hresult
  obtain ⟨hwriter, hturns⟩ := closed_frame (decide (b₂.writer.returned = .finished true)) sidecarError b₂
  rw [hwriter, hturns]
  refine ⟨?_, by simpa using hok, hfinish⟩
  rw [hb₂] at hne
  exact hne

/-- The consumer writes one buffer while the producer waits. -/
def oneBufferRounds : List ConsumerStep :=
  [.take, .write 0 .all, .write 0 .all, .write 0 .all, .release]

/-- The turns of a trace that begins, stops and closes. -/
def stoppedTurns : List Turn :=
  List.replicate 10 ⟨[], .resume 0⟩ ++ [⟨oneBufferRounds, .resume 5⟩] ++ List.replicate 6 ⟨[], .resume 0⟩ ++
    [⟨oneBufferRounds ++ [.take], .join .all 0⟩]

theorem updates_storedFrames : ∀ {rounds : ℕ} {input : List UInt8}, input.length ≤ rounds →
    AsyncWriter.storedFrames.updates rounds () input = some ((), input)
  | 0, input, h => by
    obtain rfl : input = [] := List.length_eq_zero_iff.mp (by omega)
    rfl
  | rounds + 1, input, h => by
    by_cases hinput : input = []
    · simp [Lz4.updates, hinput]
    · have hdrop : (input.drop compressionChunkBytes).length ≤ rounds := by
        have hpos := List.length_pos_iff.mpr hinput
        simp only [List.length_drop, compressionChunkBytes]
        omega
      have hround : AsyncWriter.storedFrames.compressUpdate () (input.take compressionChunkBytes) =
          some ((), input.take compressionChunkBytes) := rfl
      simp [Lz4.updates, hinput, hround, updates_storedFrames hdrop]

theorem storedFrames_sameSize : AsyncWriter.storedFrames.SameSize := by
  have hframe : ∀ input, AsyncWriter.storedFrames.frame () input = some ((), 4 :: input) := by
    intro input
    have hbegin : AsyncWriter.storedFrames.compressBegin () input.length = some ((), [4]) := rfl
    have hend : AsyncWriter.storedFrames.compressEnd () = some ((), []) := rfl
    simp [Lz4.frame, hbegin, hend, updates_storedFrames le_rfl]
  intro input c₁ c₂ c₁' c₂' bytes₁ bytes₂ h₁ h₂
  rw [hframe] at h₁ h₂
  simp only [Option.some.injEq, Prod.mk.injEq] at h₁ h₂
  rw [← h₁.2, ← h₂.2]

end BinaryTraceWriter

end QTrace.Events
