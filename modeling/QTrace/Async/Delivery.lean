import QTrace.Async.DoubleBuffer

/-! What the two threads keep true of the double buffer. A buffer has one owner: the
producer while it is filling, the consumer while it is being written. The ready
buffers form a queue ordered by publication number, and the committed bytes are the
bytes handed over, the rest of the buffer in the consumer's hands, the queue and the
active buffer, in that order. Publication numbers do not wrap because each published
buffer has put at least one byte into a file of bounded size. -/

namespace QTrace.Async

open Lib

variable {Ctx : Type} {lz4 : Lz4 Ctx} {c : Consumer}

/-- The bytes of its buffer the consumer has still to read. -/
def Consumer.remaining (buffers : BufferIndex → Buffer) : Consumer → List UInt8
  | .writing i size offset _ => ((buffers i).data.take size).drop offset
  | _ => []

/-- Whether the buffer in the consumer's hands has put no byte into the file yet, as a number. -/
def Consumer.unwritten (compressionEnabled : Bool) : Consumer → ℕ
  | .writing _ _ offset stage =>
    if (if compressionEnabled then stage = .opening else offset = 0) then 1 else 0
  | .releasing _ (some _) => 1
  | _ => 0

/-- The write in the consumer's hands has failed and the failure is not latched yet. -/
def Consumer.failing : Consumer → Bool
  | .releasing _ (some _) => true
  | _ => false

namespace Shared

/-- The bytes in the active buffer. -/
def filled (s : Shared Ctx) : List UInt8 := s.activeBuffer.elim [] fun i => (s.buffers i).contents

/-- The bytes in the ready buffers, oldest first. -/
def queuedBytes (s : Shared Ctx) (queue : List BufferIndex) : List UInt8 :=
  queue.flatMap fun i => (s.buffers i).contents

/-- The invariant of an error-free state, with the ready buffers listed oldest first. -/
structure Good (s : Shared Ctx) (queue : List BufferIndex) : Prop where
  filling : ∀ i, (s.buffers i).state = .filling ↔ s.activeBuffer = some i
  writing : ∀ i, (s.buffers i).state = .writing ↔ s.consumer.held = some i
  reading : ∀ {i size offset stage}, s.consumer = .writing i size offset stage →
    size = (s.buffers i).used ∧ offset ≤ size ∧ 0 < size
  sized : ∀ i, (s.buffers i).data.length = s.bufferBytes ∧ (s.buffers i).used ≤ s.bufferBytes
  stopped : s.producerDone = true → s.activeBuffer = none
  exited : s.consumer = .exited → s.producerDone = true ∧ queue = []
  queued : Stamped (fun i => (s.buffers i).state = .ready)
    (fun i => (s.buffers i).publicationSequence) s.nextPublicationSequence queue
  nonempty : ∀ i ∈ queue, 0 < (s.buffers i).used
  numbered : s.nextPublicationSequence ≤
    1 + s.file.length + queue.length + s.consumer.unwritten s.compressionEnabled
  bounded : s.file.length ≤ maxFileBytes
  delivered : s.consumer.failing = false →
    s.committed = s.handed ++ s.consumer.remaining s.buffers ++ s.queuedBytes queue ++ s.filled

end Shared

theorem Consumer.remaining_update {i : BufferIndex} (h : c.held ≠ some i) (buffers : BufferIndex → Buffer)
    (b : Buffer) :
    c.remaining (Function.update buffers i b) = c.remaining buffers := by
  cases c with
  | writing k size offset stage =>
    have hne : k ≠ i := fun hk => h (by rw [hk]; rfl)
    simp [remaining, Function.update_of_ne hne]
  | _ => rfl

theorem Consumer.unwritten_le (c : Consumer) (compressionEnabled : Bool) :
    c.unwritten compressionEnabled ≤ 1 := by
  cases c with
  | writing k size offset stage =>
    simp only [unwritten]
    split_ifs <;> omega
  | releasing k outcome => cases outcome <;> simp [unwritten]
  | _ => simp [unwritten]

namespace Shared.Good

variable {s : Shared Ctx} {queue : List BufferIndex} {i : BufferIndex} {b : Buffer}

theorem buffers_setBuffer (hi : i ∉ queue) {j : BufferIndex} (hj : j ∈ queue) :
    (s.setBuffer i b).buffers j = s.buffers j := Function.update_of_ne (ne_of_mem_of_not_mem hj hi) ..

theorem queuedBytes_setBuffer (hi : i ∉ queue) : (s.setBuffer i b).queuedBytes queue = s.queuedBytes queue :=
  List.flatMap_congr fun _ hj => congrArg Buffer.contents (buffers_setBuffer hi hj)

/-- A property of every buffer is checked at the changed one and kept at the others. -/
theorem forall_setBuffer {P : BufferIndex → Buffer → Prop} (hi : P i b) (hother : ∀ j, j ≠ i → P j (s.buffers j))
    (j : BufferIndex) : P j ((s.setBuffer i b).buffers j) :=
  (Function.forall_update_iff s.buffers P).mpr ⟨hi, hother⟩ j

theorem filled_setBuffer (hactive : s.activeBuffer ≠ some i) : (s.setBuffer i b).filled = s.filled := by
  cases ha : s.activeBuffer with
  | none => simp [filled, setBuffer, ha]
  | some j =>
    have hj : j ≠ i := fun heq => hactive (by rw [ha, heq])
    simp [filled, setBuffer, ha, hj]

section

variable (h : s.Good queue)
include h

theorem mem_queue : i ∈ queue ↔ (s.buffers i).state = .ready := h.queued.mem_iff i

theorem not_mem_of_state (hi : (s.buffers i).state ≠ .ready) : i ∉ queue :=
  fun hmem => hi (h.mem_queue.mp hmem)

theorem active_state (ha : s.activeBuffer = some i) : (s.buffers i).state = .filling := (h.filling i).mpr ha

theorem held_ne (hi : (s.buffers i).state ≠ .writing) : s.consumer.held ≠ some i := fun hheld => hi ((h.writing i).mpr hheld)

theorem active_ne_held (ha : s.activeBuffer = some i) : s.consumer.held ≠ some i := h.held_ne (by rw [h.active_state ha]; decide)

end

variable {size offset count : ℕ} {stage : FrameStage} {context : Ctx}

section

variable (h : s.Good queue)
include h

theorem reading_ne (hi : (s.buffers i).state ≠ .writing) {k : BufferIndex}
    (hc : s.consumer = .writing k size offset stage) : k ≠ i := by
  rintro rfl
  exact h.held_ne hi (by rw [hc]; rfl)

/-- At most two buffers are published and not yet written. -/
theorem length_queue_le : queue.length ≤ 2 := by
  have hnodup : queue.Nodup :=
    h.queued.sorted.imp fun {a b} (hab : _ < _) (heq : a = b) => by
      rw [heq] at hab
      exact lt_irrefl _ hab
  exact (hnodup.subperm fun i _ => i.mem_all).length_le

theorem next_lt : s.nextPublicationSequence + 1 < 2 ^ 64 := by
  have hnumbered := h.numbered
  have hbounded := h.bounded
  have hqueue := h.length_queue_le
  have hone := s.consumer.unwritten_le s.compressionEnabled
  unfold maxFileBytes at hbounded
  omega

theorem publish (ha : s.activeBuffer = some i) (hused : 0 < (s.buffers i).used) :
    (s.publish i).Good (queue ++ [i]) := by
  have hstate := h.active_state ha
  have hmem : i ∉ queue := h.not_mem_of_state (by rw [hstate]; decide)
  have hheld := h.active_ne_held ha
  have hnext : (s.publish i).nextPublicationSequence = s.nextPublicationSequence + 1 :=
    Nat.mod_eq_of_lt h.next_lt
  have hself : (s.publish i).buffers i =
      { s.buffers i with publicationSequence := s.nextPublicationSequence, state := .ready } :=
    Function.update_self ..
  have hother : ∀ {j}, j ≠ i → (s.publish i).buffers j = s.buffers j := fun hne =>
    Function.update_of_ne hne ..
  refine ⟨?_, ?_, ?_, ?_, fun _ => rfl, ?_, ?_, ?_, ?_, h.bounded, ?_⟩
  · refine forall_setBuffer (P := fun j b => b.state = .filling ↔ none = some j) (by simp) ?_
    intro j hj
    rw [h.filling j, ha]
    exact iff_of_false (fun heq => hj (Option.some.inj heq).symm) (by simp)
  · exact forall_setBuffer (P := fun j b => b.state = .writing ↔ s.consumer.held = some j)
      (iff_of_false (by simp) hheld) fun j _ => h.writing j
  · intro k size offset stage hc
    rw [hother (h.reading_ne (by rw [hstate]; decide) hc)]
    exact h.reading hc
  · exact forall_setBuffer (P := fun _ b => b.data.length = s.bufferBytes ∧ b.used ≤ s.bufferBytes)
      (h.sized i) fun j _ => h.sized j
  · intro hc
    exact absurd (h.stopped (h.exited hc).1) (by simp [ha])
  · rw [hnext]
    refine (h.queued.enqueue (i := i) (by rw [hstate]; decide)).congr ?_ ?_
    · exact forall_setBuffer (P := fun j b => b.state = .ready ↔ j = i ∨ (s.buffers j).state = .ready)
        (by simp) fun j hj => by simp [hj]
    · intro j _
      exact forall_setBuffer (P := fun j b => b.publicationSequence =
          Function.update (fun j => (s.buffers j).publicationSequence) i s.nextPublicationSequence j)
        (by simp) (fun j hj => by simp [hj]) j
  · intro j hj
    rcases List.mem_append.mp hj with hj | hj
    · rw [hother (fun heq => hmem (heq ▸ hj))]
      exact h.nonempty j hj
    · rw [List.mem_singleton.mp hj, hself]
      exact hused
  · have hnumbered := h.numbered
    rw [hnext, List.length_append, List.length_singleton]
    simp only [Shared.publish, Shared.setBuffer]
    omega
  · intro hfail
    have hremaining : s.consumer.remaining (s.publish i).buffers = s.consumer.remaining s.buffers :=
      Consumer.remaining_update hheld ..
    have hqueue : (s.publish i).queuedBytes queue = s.queuedBytes queue := queuedBytes_setBuffer hmem
    have hlast : (s.publish i).queuedBytes [i] = s.filled := by
      simp [queuedBytes, hself, filled, ha, Buffer.contents]
    show s.committed = s.handed ++ s.consumer.remaining (s.publish i).buffers ++
      (queue ++ [i]).flatMap (fun j => ((s.publish i).buffers j).contents) ++ []
    rw [hremaining, List.flatMap_append]
    rw [h.delivered hfail, ← hqueue, ← hlast]
    simp [queuedBytes]

/-- The producer changes a buffer that is neither ready nor being written: it may
take the buffer, give it back, or add to what it holds. -/
theorem replace (hready : (s.buffers i).state ≠ .ready) (hwriting : (s.buffers i).state ≠ .writing)
    (hactive : ∀ j, s.activeBuffer = some j → j = i) {a : Option BufferIndex} {c : List UInt8}
    (hstate : b.state = .filling ∧ a = some i ∨ b.state = .free ∧ a = none)
    (hsized : b.data.length = s.bufferBytes ∧ b.used ≤ s.bufferBytes) (hstopped : s.producerDone = true → a = none)
    (hcommitted : ∀ front, s.committed = front ++ s.filled → c = front ++ a.elim [] fun _ => b.contents) :
    { s.setBuffer i b with activeBuffer := a, committed := c }.Good queue := by
  have hmem := h.not_mem_of_state hready
  have hheld := h.held_ne hwriting
  refine ⟨?_, ?_, ?_, ?_, hstopped, h.exited, ?_, ?_, h.numbered, h.bounded, ?_⟩
  · refine forall_setBuffer (P := fun j b => b.state = .filling ↔ a = some j) ?_ ?_
    · rcases hstate with ⟨hb, rfl⟩ | ⟨hb, rfl⟩ <;> simp [hb]
    · intro j hj
      have hnew : a ≠ some j := by
        rcases hstate with ⟨-, rfl⟩ | ⟨-, rfl⟩
        · exact fun heq => hj (Option.some.inj heq).symm
        · simp
      rw [h.filling j]
      exact iff_of_false (fun heq => hj (hactive j heq)) hnew
  · refine forall_setBuffer (P := fun j b => b.state = .writing ↔ s.consumer.held = some j)
      (iff_of_false ?_ hheld) fun j _ => h.writing j
    rcases hstate with ⟨hb, -⟩ | ⟨hb, -⟩ <;> simp [hb]
  · intro k size offset stage hc
    show size = (Function.update s.buffers i b k).used ∧ _
    rw [Function.update_of_ne (h.reading_ne hwriting hc)]
    exact h.reading hc
  · exact forall_setBuffer (P := fun _ b => b.data.length = s.bufferBytes ∧ b.used ≤ s.bufferBytes)
      hsized fun j _ => h.sized j
  · refine h.queued.congr ?_ ?_
    · refine forall_setBuffer (P := fun j b => b.state = .ready ↔ (s.buffers j).state = .ready)
        (iff_of_false ?_ hready) fun j _ => Iff.rfl
      rcases hstate with ⟨hb, -⟩ | ⟨hb, -⟩ <;> simp [hb]
    · exact fun j hj => congrArg Buffer.publicationSequence (buffers_setBuffer hmem (h.mem_queue.mpr hj))
  · exact fun j hj => (congrArg (0 < Buffer.used ·) (buffers_setBuffer hmem hj)).mpr (h.nonempty j hj)
  · intro hfail
    have hfilled : (a.elim [] fun j => (Function.update s.buffers i b j).contents) =
        a.elim [] fun _ => b.contents := by
      rcases hstate with ⟨-, rfl⟩ | ⟨-, rfl⟩
      · simp
      · rfl
    show c = s.handed ++ s.consumer.remaining (Function.update s.buffers i b) ++
      (s.setBuffer i b).queuedBytes queue ++ a.elim [] fun j => (Function.update s.buffers i b j).contents
    rw [Consumer.remaining_update hheld, queuedBytes_setBuffer hmem, hfilled]
    exact hcommitted _ (h.delivered hfail)

theorem retire (ha : s.activeBuffer = some i) (hused : (s.buffers i).used = 0) : (s.retire i).Good queue := by
  have hstate := h.active_state ha
  refine h.replace (by rw [hstate]; decide) (by rw [hstate]; decide) ?_ (Or.inr ⟨rfl, rfl⟩)
    (h.sized i) (fun _ => rfl) ?_
  · intro j hj
    exact Option.some.inj (hj.symm.trans ha)
  · intro front hfront
    simpa [Shared.setBuffer, filled, ha, Buffer.contents, hused] using hfront

theorem acquire (ha : s.activeBuffer = none) (hfree : (s.buffers i).state = .free)
    (hrunning : s.producerDone = false) : (s.acquire i).Good queue := by
  refine h.replace (by rw [hfree]; decide) (by rw [hfree]; decide) (by simp [ha]) (Or.inl ⟨rfl, rfl⟩)
    ⟨(h.sized i).1, Nat.zero_le _⟩ (by simp [hrunning]) ?_
  intro front hfront
  simpa [Shared.setBuffer, filled, ha, Buffer.contents] using hfront

theorem running_of_active (ha : s.activeBuffer = some i) : s.producerDone = false := by
  cases hdone : s.producerDone with
  | false => rfl
  | true => simp [h.stopped hdone] at ha

theorem fill (ha : s.activeBuffer = some i) {bytes : List UInt8}
    (hroom : (s.buffers i).used + bytes.length ≤ s.bufferBytes) : (s.fill i bytes).Good queue := by
  have hstate := h.active_state ha
  have hsized := h.sized i
  have hcontents : (overwrite (s.buffers i).data (s.buffers i).used bytes).take (s.buffers i).used =
      (s.buffers i).data.take (s.buffers i).used := by
    have hlen : ((s.buffers i).data.take (s.buffers i).used).length = (s.buffers i).used := by
      rw [List.length_take]
      omega
    rw [overwrite, List.append_assoc, List.take_append_of_le_length hlen.ge,
      List.take_of_length_le hlen.le]
  have hkeep := h.replace (i := i) (c := s.committed) (a := s.activeBuffer)
    (b := { s.buffers i with data := overwrite (s.buffers i).data (s.buffers i).used bytes })
    (by rw [hstate]; decide) (by rw [hstate]; decide)
    (fun j hj => Option.some.inj (hj.symm.trans ha)) (Or.inl ⟨hstate, ha⟩)
    ⟨by rw [length_overwrite (by omega)]; exact hsized.1, hsized.2⟩
    (fun hdone => by rw [h.stopped hdone])
    (fun front hfront => by simpa [filled, ha, Buffer.contents, hcontents] using hfront)
  exact hkeep

theorem advance (ha : s.activeBuffer = some i) (hroom : (s.buffers i).used + count ≤ s.bufferBytes) :
    (s.advance i count).Good queue := by
  have hstate := h.active_state ha
  have hkeep := h.replace (i := i) (a := s.activeBuffer)
    (c := s.committed ++ ((s.buffers i).data.drop (s.buffers i).used).take count)
    (b := { s.buffers i with used := (s.buffers i).used + count })
    (by rw [hstate]; decide) (by rw [hstate]; decide)
    (fun j hj => Option.some.inj (hj.symm.trans ha)) (Or.inl ⟨hstate, ha⟩) ⟨(h.sized i).1, hroom⟩
    (fun hdone => by rw [h.stopped hdone])
    (fun front hfront => by
      rw [hfront]
      simp [filled, ha, Buffer.contents, List.take_add])
  exact hkeep

end

theorem hold (h : s.Good (i :: queue)) (hc : s.consumer = .scanning) :
    { s.setBuffer i { s.buffers i with state := .writing } with
      consumer := .writing i (s.buffers i).used 0 .opening }.Good queue := by
  have hready : (s.buffers i).state = .ready := h.mem_queue.mp (by simp)
  have hmem : i ∉ queue := h.queued.not_mem_tail
  have hactive : s.activeBuffer ≠ some i := by
    intro ha
    simp [h.active_state ha] at hready
  have hscanning : ∀ j, (s.buffers j).state ≠ .writing := by
    intro j hj
    simpa [hc, Consumer.held] using (h.writing j).mp hj
  refine ⟨?_, ?_, ?_, ?_, h.stopped, by simp, ?_, ?_, ?_, h.bounded, ?_⟩
  · exact forall_setBuffer (P := fun j b => b.state = .filling ↔ s.activeBuffer = some j)
      (iff_of_false (by simp) hactive) fun j _ => h.filling j
  · refine forall_setBuffer (P := fun j b => b.state = .writing ↔ some i = some j) (by simp) ?_
    intro j hj
    exact iff_of_false (hscanning j) (fun heq => hj (Option.some.inj heq).symm)
  · intro k size offset stage hk
    cases hk
    exact ⟨by simp [Shared.setBuffer], Nat.zero_le _, h.nonempty i (by simp)⟩
  · exact forall_setBuffer (P := fun _ b => b.data.length = s.bufferBytes ∧ b.used ≤ s.bufferBytes)
      (h.sized i) fun j _ => h.sized j
  · refine h.queued.dequeue.congr ?_ ?_
    · exact forall_setBuffer (P := fun j b => b.state = .ready ↔ (s.buffers j).state = .ready ∧ j ≠ i)
        (by simp) fun j hj => by simp [hj]
    · exact fun j hj => congrArg Buffer.publicationSequence (Function.update_of_ne hj.2 ..)
  · exact fun j hj => (congrArg (0 < Buffer.used ·) (buffers_setBuffer hmem hj)).mpr
      (h.nonempty j (List.mem_cons_of_mem _ hj))
  · have hnumbered := h.numbered
    simp only [hc, Consumer.unwritten, List.length_cons] at hnumbered
    simp only [Shared.setBuffer, Consumer.unwritten, if_true, ite_self]
    omega
  · intro _
    show s.committed = s.handed ++ ((Function.update s.buffers i _ i).data.take _).drop 0 ++
      (s.setBuffer i _).queuedBytes queue ++ (s.setBuffer i _).filled
    rw [Function.update_self, queuedBytes_setBuffer hmem, filled_setBuffer hactive,
      h.delivered (by simp [hc, Consumer.failing])]
    simp [hc, Consumer.remaining, queuedBytes, Buffer.contents]

theorem take (h : s.Good queue) (herror : s.error = 0) : ∃ queue', s.take.Good queue' := by
  unfold Shared.take
  split
  case h_2 => exact ⟨queue, h⟩
  case h_1 hc =>
    rw [if_neg (by simp [herror]), (h.queued.congr (fun j => decide_eq_true_iff) fun _ _ => rfl).oldest_eq_head
      BufferIndex.mem_all]
    cases queue with
    | cons i queue => exact ⟨queue, h.hold hc⟩
    | nil =>
      simp only [List.head?_nil]
      split
      case isFalse => exact ⟨[], h⟩
      case isTrue hdone =>
        refine ⟨[], h.filling, ?_, by simp, h.sized, h.stopped, fun _ => ⟨hdone, rfl⟩, h.queued, h.nonempty,
          ?_, h.bounded, ?_⟩
        · simpa [hc, Consumer.held] using h.writing
        · simpa [hc, Consumer.unwritten] using h.numbered
        · intro _
          have hdelivered := h.delivered (by rw [hc]; rfl)
          rw [hc] at hdelivered
          exact hdelivered

/-- A round of the consumer's write: it reads `input` of its buffer, the file grows to
`f`, and the consumer goes on at `c`, where it still holds the buffer. -/
theorem round (h : s.Good queue) (hc : s.consumer = .writing i size offset stage) {d f input : List UInt8}
    {n : UInt64} (hhanded : d = s.handed ++ input) (hheld : c.held = some i)
    (hreading : ∀ {j size' offset' stage'}, c = .writing j size' offset' stage' →
      j = i ∧ size' = size ∧ offset' ≤ size)
    (hinput : c.failing = false → ((s.buffers i).data.take size).drop offset = input ++ c.remaining s.buffers)
    (hbounded : f.length ≤ maxFileBytes)
    (hnumbered : s.file.length + s.consumer.unwritten s.compressionEnabled ≤
      f.length + c.unwritten s.compressionEnabled) :
    { s with context, handed := d, file := f, compressedBytes := n, consumer := c }.Good queue := by
  have hread := h.reading hc
  refine ⟨h.filling, ?_, ?_, h.sized, h.stopped, ?_, h.queued, h.nonempty, ?_, hbounded, ?_⟩
  · intro j
    show (s.buffers j).state = .writing ↔ c.held = some j
    rw [h.writing j, hc, hheld]
    rfl
  · intro j size' offset' stage' hj
    obtain ⟨rfl, rfl, hle⟩ := hreading hj
    exact ⟨hread.1, hle, hread.2.2⟩
  · intro hexited
    rw [show c = .exited from hexited] at hheld
    exact absurd hheld (by simp [Consumer.held])
  · have hold := h.numbered
    show s.nextPublicationSequence ≤ 1 + f.length + queue.length + c.unwritten s.compressionEnabled
    omega
  · intro hfail
    have hdelivered := h.delivered (by rw [hc]; rfl)
    rw [hc, Consumer.remaining, hinput hfail] at hdelivered
    show s.committed = d ++ c.remaining s.buffers ++ s.queuedBytes queue ++ s.filled
    rw [hdelivered, hhanded]
    simp

/-- `write_all` adds to the file: all of its bytes when it succeeds, and within the size limit. -/
theorem writeAll_spec (hbounded : s.file.length ≤ maxFileBytes) (bytes : List UInt8)
    (outcome : WriteOutcome) : ∃ written n result,
    s.writeAll bytes outcome = ({ s with file := s.file ++ written, compressedBytes := n }, result) ∧
      (s.file ++ written).length ≤ maxFileBytes ∧ (result = none → written = bytes) := by
  cases outcome with
  | all =>
    by_cases hfits : s.file.length + bytes.length ≤ maxFileBytes
    · refine ⟨bytes, _, none, by rw [writeAll, if_pos hfits]; rfl, by simpa using hfits, fun _ => rfl⟩
    · refine ⟨_, _, some efbig, by rw [writeAll, if_neg hfits]; rfl, ?_, by simp⟩
      rw [List.length_append, List.length_take]
      omega
  | failed kept code =>
    refine ⟨_, _, _, rfl, ?_, by simp⟩
    rw [List.length_append, List.length_take]
    omega

/-- A round that writes what it produced, or fails. -/
theorem emit (h : s.Good queue) (hc : s.consumer = .writing i size offset stage) {d input produced : List UInt8}
    (hhanded : d = s.handed ++ input) (hheld : c.held = some i)
    (hreading : ∀ {j size' offset' stage'}, c = .writing j size' offset' stage' →
      j = i ∧ size' = size ∧ offset' ≤ size)
    (hinput : ((s.buffers i).data.take size).drop offset = input ++ c.remaining s.buffers)
    (hnumbered : s.consumer.unwritten s.compressionEnabled ≤ produced.length + c.unwritten s.compressionEnabled)
    (outcome : WriteOutcome) :
    ({ s with context, handed := d }.emit i produced outcome c).Good queue := by
  obtain ⟨written, n, result, hwrite, hlimit, hall⟩ :=
    writeAll_spec (s := { s with context, handed := d }) h.bounded produced outcome
  unfold Shared.emit
  rw [hwrite]
  cases result with
  | none =>
    refine h.round hc hhanded hheld hreading (fun _ => hinput) hlimit ?_
    have hlen : (s.file ++ written).length = s.file.length + produced.length := by
      rw [hall rfl, List.length_append]
    show _ ≤ (s.file ++ written).length + c.unwritten s.compressionEnabled
    omega
  | some code =>
    refine h.round hc hhanded rfl (by simp) (by simp [Consumer.failing]) hlimit ?_
    have hone := s.consumer.unwritten_le s.compressionEnabled
    have hlen : (s.file ++ written).length = s.file.length + written.length := List.length_append
    show _ ≤ (s.file ++ written).length + 1
    omega

theorem remaining_split (buffers : BufferIndex → Buffer) (i : BufferIndex) (stage : FrameStage)
    (h : offset + count ≤ size) :
    ((buffers i).data.take size).drop offset =
      ((buffers i).data.drop offset).take count ++
        Consumer.remaining buffers (.writing i size (offset + count) stage) := by
  have hsplit := List.take_append_drop count (((buffers i).data.take size).drop offset)
  rw [List.drop_drop, List.drop_take, List.take_take, min_eq_left (by omega)] at hsplit
  rw [Consumer.remaining, List.drop_take]
  exact hsplit.symm

theorem writeFrame (h : s.Good queue) (hmode : s.compressionEnabled = true)
    (hc : s.consumer = .writing i size offset stage) (outcome : WriteOutcome) :
    (s.writeFrame lz4 i size offset stage outcome).Good queue := by
  have hread := h.reading hc
  have hlength : (s.buffers i).data.length = s.bufferBytes := (h.sized i).1
  -- The compressor failed: nothing was written and the buffer is still held.
  have hfailed : ∀ code, { s with consumer := .releasing i (some code) }.Good queue := fun code =>
    h.round hc (List.append_nil _).symm rfl (by simp) (by simp [Consumer.failing]) h.bounded (by
      have hone := s.consumer.unwritten_le s.compressionEnabled
      simpa [Consumer.unwritten] using hone)
  cases stage with
  | opening =>
    simp only [Shared.writeFrame]
    split
    case h_1 => exact hfailed _
    case h_2 context produced hbegin =>
      have hproduced := List.length_pos_of_ne_nil (lz4.header_ne_nil hbegin)
      refine h.emit hc (List.append_nil _).symm rfl ?_ rfl ?_ outcome
      · intro j size' offset' stage' heq
        cases heq
        exact ⟨rfl, rfl, hread.2.1⟩
      · have hone := s.consumer.unwritten_le s.compressionEnabled
        omega
  | body =>
    simp only [Shared.writeFrame]
    have hwritten : s.consumer.unwritten s.compressionEnabled = 0 := by
      simp [hc, Consumer.unwritten, hmode]
    split
    case isTrue hlt =>
      split
      case h_1 => exact hfailed _
      case h_2 context produced hupdate =>
        refine h.emit hc rfl rfl ?_ (remaining_split s.buffers i .body (by omega)) (by omega) _
        intro j size' offset' stage' heq
        cases heq
        exact ⟨rfl, rfl, by omega⟩
    case isFalse hge =>
      split
      case h_1 => exact hfailed _
      case h_2 context produced hend =>
        refine h.emit hc (List.append_nil _).symm rfl (by simp) ?_ (by omega) outcome
        simpa [Consumer.remaining] using Or.inl (not_lt.mp hge)

theorem writeRaw (h : s.Good queue) (hmode : s.compressionEnabled = false)
    (hc : s.consumer = .writing i size offset stage) (count : ℕ) (outcome : WriteOutcome) :
    (s.writeRaw i size offset count outcome).Good queue := by
  have hread := h.reading hc
  have hsized := h.sized i
  unfold Shared.writeRaw
  split
  case isTrue hlt =>
    refine h.emit hc rfl rfl ?_ (remaining_split s.buffers i .body (by omega)) ?_ outcome
    · intro j size' offset' stage' heq
      cases heq
      exact ⟨rfl, rfl, by omega⟩
    · simp only [hc, Consumer.unwritten, hmode, List.length_take, List.length_drop]
      split_ifs <;> simp_all
      omega
  case isFalse hge =>
    refine h.round hc (List.append_nil _).symm rfl (by simp) ?_ h.bounded ?_
    · intro _
      simpa [Consumer.remaining] using Or.inl (not_lt.mp hge)
    · have hoffset : offset ≠ 0 := by omega
      simp [hc, Consumer.unwritten, hmode, hoffset]

theorem write (h : s.Good queue) (count : ℕ) (outcome : WriteOutcome) :
    (s.write lz4 count outcome).Good queue := by
  unfold Shared.write
  split
  case h_1 i size offset stage hc =>
    split
    case isTrue hmode => exact h.writeFrame hmode hc outcome
    case isFalse hmode => exact h.writeRaw (by simpa using hmode) hc count outcome
  case h_2 => exact h

theorem giveBack (h : s.Good queue) (hc : s.consumer = .releasing i none) :
    { s.setBuffer i { s.buffers i with used := 0, state := .free } with consumer := .scanning }.Good
      queue := by
  have hwriting : (s.buffers i).state = .writing := (h.writing i).mpr (by rw [hc]; rfl)
  have hmem : i ∉ queue := h.not_mem_of_state (by rw [hwriting]; decide)
  have hactive : s.activeBuffer ≠ some i := by
    intro ha
    simp [h.active_state ha] at hwriting
  refine ⟨?_, ?_, by simp, ?_, h.stopped, by simp, ?_, ?_, ?_, h.bounded, ?_⟩
  · exact forall_setBuffer (P := fun j b => b.state = .filling ↔ s.activeBuffer = some j)
      (iff_of_false (by simp) hactive) fun j _ => h.filling j
  · refine forall_setBuffer (P := fun j b => b.state = .writing ↔ none = some j) (by simp) ?_
    intro j hj
    rw [h.writing j, hc]
    exact iff_of_false (fun heq => hj (Option.some.inj heq).symm) (by simp)
  · exact forall_setBuffer (P := fun _ b => b.data.length = s.bufferBytes ∧ b.used ≤ s.bufferBytes)
      ⟨(h.sized i).1, Nat.zero_le _⟩ fun j _ => h.sized j
  · refine h.queued.congr ?_ ?_
    · exact forall_setBuffer (P := fun j b => b.state = .ready ↔ (s.buffers j).state = .ready)
        (by simp [hwriting]) fun j _ => Iff.rfl
    · exact fun j hj => congrArg Buffer.publicationSequence (buffers_setBuffer hmem (h.mem_queue.mpr hj))
  · exact fun j hj => (congrArg (0 < Buffer.used ·) (buffers_setBuffer hmem hj)).mpr (h.nonempty j hj)
  · have hnumbered := h.numbered
    rw [hc] at hnumbered
    exact hnumbered
  · intro _
    have hdelivered := h.delivered (by rw [hc]; rfl)
    rw [hc] at hdelivered
    show s.committed = s.handed ++ [] ++ (s.setBuffer i _).queuedBytes queue ++ (s.setBuffer i _).filled
    rw [queuedBytes_setBuffer hmem, filled_setBuffer hactive]
    exact hdelivered

end Shared.Good

end QTrace.Async
