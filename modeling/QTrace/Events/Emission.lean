import QTrace.Events.BinaryWriter

/-! What a successful call of the binary trace writer leaves behind: the records it
committed, in order, and nothing else. -/

namespace QTrace.Events

open Lib Async

variable {Ctx : Type} {lz4 : Lz4 Ctx}

/-- A record between the module definition and the terminal. -/
inductive Item
  | definition (metadataId : UInt32) (decoded : CachedInstruction)
  | instruction (metadataId : UInt32) (record : InstructionRecord)
  | memory (relativePc : UInt64) (record : MemoryRecord)
  | call (category name detail : List UInt8)
  | callChunk (info : ChunkInfo) (category name detail : List UInt8)
  | event (type : BinaryRecordType) (name detail : List UInt8)
  | eventChunk (type : BinaryRecordType) (info : ChunkInfo) (name detail : List UInt8)
  deriving DecidableEq

def Item.encode (capacity : ℕ) : Item → Option (List UInt8)
  | .definition metadataId decoded => encodeInstructionDefinition capacity metadataId decoded
  | .instruction metadataId record => encodeInstruction capacity targetModuleId metadataId record
  | .memory relativePc record => encodeMemory capacity targetModuleId relativePc record
  | .call category name detail => encodeCall capacity category name detail
  | .callChunk info category name detail => encodeCallChunk capacity info category name detail
  | .event type name detail => encodeEvent capacity type name detail
  | .eventChunk type info name detail => encodeEventChunk capacity type info name detail

/-- How many instructions a record counts for. -/
def Item.instructions : Item → ℕ
  | .instruction _ _ => 1
  | _ => 0

/-- `bytes` is the records one after the other. -/
inductive Encoded : List Item → List UInt8 → Prop
  | nil : Encoded [] []
  | cons {item : Item} {items : List Item} {capacity : ℕ} {bytes rest : List UInt8}
      (hitem : item.encode capacity = some bytes) (hitems : Encoded items rest) :
      Encoded (item :: items) (bytes ++ rest)

variable {item : Item} {capacity : ℕ} {bytes : List UInt8}

theorem Encoded.single (h : item.encode capacity = some bytes) : Encoded [item] bytes := by
  simpa using Encoded.cons h .nil

theorem Encoded.append {items items' : List Item} {bytes' : List UInt8} (h : Encoded items bytes)
    (h' : Encoded items' bytes') : Encoded (items ++ items') (bytes ++ bytes') := by
  induction h with
  | nil => exact h'
  | cons hitem _ ih =>
    rw [List.cons_append, List.append_assoc]
    exact .cons hitem ih

/-- The books after `bytes` with `instructions` instructions in them were committed. -/
def grown (books : AsyncWriter.Books) (bytes : List UInt8) (instructions : ℕ) : AsyncWriter.Books :=
  { books.record bytes with counters := { (books.record bytes).counters with
      instructions := books.counters.instructions + UInt64.ofNat instructions } }

theorem grown_zero (books : AsyncWriter.Books) (bytes : List UInt8) : grown books bytes 0 = books.record bytes := by
  simp [grown, AsyncWriter.Books.record]

theorem grown_nil (books : AsyncWriter.Books) : grown books [] 0 = books := by
  simp [grown, AsyncWriter.Books.record]

theorem grown_grown (books : AsyncWriter.Books) (bytes bytes' : List UInt8) (n n' : ℕ) :
    grown (grown books bytes n) bytes' n' = grown books (bytes ++ bytes') (n + n') := by
  simp [grown, AsyncWriter.Books.record, add_assoc]

namespace BinaryTraceWriter

variable {b b' b'' : BinaryTraceWriter Ctx} {opcodes opcodes' : List UInt32}

/-- The asynchronous writer is between two calls, its file is counted and `opcodes` have
their definitions. -/
structure Sound (b : BinaryTraceWriter Ctx) (opcodes : List UInt32) : Prop where
  inv : b.writer.Inv
  running : b.writer.producer = .running
  counted : AsyncWriter.Counted b.writer.toShared
  known : b.dictionary.Knows opcodes

/-- Only what the records of events touch changed. -/
def SameFrame (b b' : BinaryTraceWriter Ctx) : Prop :=
  b' = { b with writer := b'.writer, turns := b'.turns, dictionary := b'.dictionary,
                nextCallEventId := b'.nextCallEventId }

theorem SameFrame.trans (h : SameFrame b b') (h' : SameFrame b' b'') : SameFrame b b'' := by
  unfold SameFrame at h h' ⊢
  rw [h'] at *
  rw [h]

/-- The records `items` were committed, and now `opcodes` have their definitions. -/
structure Emits (b b' : BinaryTraceWriter Ctx) (opcodes : List UInt32) (items : List Item) : Prop where
  frame : SameFrame b b'
  sound : b'.Sound opcodes
  books : ∃ bytes, Encoded items bytes ∧
    b'.writer.books = grown b.writer.books bytes (items.map Item.instructions).sum

theorem Emits.refl (h : b.Sound opcodes) : Emits b b opcodes [] :=
  ⟨rfl, h, [], .nil, (grown_nil _).symm⟩

theorem Emits.trans {items items' : List Item} (h : Emits b b' opcodes items)
    (h' : Emits b' b'' opcodes' items') : Emits b b'' opcodes' (items ++ items') := by
  obtain ⟨bytes, hbytes, hbooks⟩ := h.books
  obtain ⟨bytes', hbytes', hbooks'⟩ := h'.books
  refine ⟨h.frame.trans h'.frame, h'.sound, bytes ++ bytes', hbytes.append hbytes', ?_⟩
  rw [hbooks', hbooks, grown_grown, List.map_append, List.sum_append]

theorem succeeds_issue {step : ProducerStep} {result : Returned}
    (h : Call.Succeeds (issue lz4 step) b result b') :
    AsyncWriter.perform lz4 step b.writer b.turns = some (b'.writer, b'.turns) ∧
      result = b'.writer.returned ∧ b' = { b with writer := b'.writer, turns := b'.turns } := by
  simp only [issue, Call.succeeds_perform, Option.map_eq_some_iff, Prod.exists, Prod.mk.injEq] at h
  obtain ⟨writer, turns, hperform, hresult, rfl⟩ := h
  exact ⟨hperform, hresult.symm, rfl⟩

theorem fill_commit_spec (h : b.Sound opcodes) (hgranted : b.writer.Granted capacity)
    (hwrite : Call.Succeeds (do
      let _ ← issue lz4 (.fill bytes)
      let _ ← issue lz4 (.commit bytes.length)
      Call.demand (fun b => b.writer.error = 0) (fail 0)) b () b') :
    b'.Sound opcodes ∧ b'.writer.books = b.writer.books.record bytes ∧
      b' = { b with writer := b'.writer, turns := b'.turns } := by
  simp only [Call.succeeds_bind, Call.succeeds_demand, decide_eq_true_eq] at hwrite
  obtain ⟨r₁, b₁, hfill, r₂, b₂, hcommit, herror, rfl⟩ := hwrite
  obtain ⟨hfill, -, hb₁⟩ := succeeds_issue hfill
  obtain ⟨hcommit, -, hb₂⟩ := succeeds_issue hcommit
  obtain ⟨hinv, hrunning, hbooks, hcounted, -⟩ :=
    AsyncWriter.perform_fill_commit h.inv h.running hgranted hfill hcommit herror
  refine ⟨⟨hinv, hrunning, hcounted h.counted, by rw [hb₂, hb₁]; exact h.known⟩, hbooks, ?_⟩
  rw [hb₂, hb₁]

theorem put_spec {minimum code : ℕ} {encode : ℕ → Option (List UInt8)} (h : b.Sound opcodes)
    (hput : Call.Succeeds (put lz4 minimum code encode) b () b') :
    ∃ capacity bytes, encode capacity = some bytes ∧ b'.Sound opcodes ∧
      b'.writer.books = b.writer.books.record bytes ∧
      b' = { b with writer := b'.writer, turns := b'.turns } := by
  rw [put, Call.succeeds_bind] at hput
  obtain ⟨result, b₁, hissue, hput⟩ := hput
  obtain ⟨hreserve, rfl, hb₁⟩ := succeeds_issue hissue
  obtain ⟨hsettled, hgranted⟩ := AsyncWriter.perform_reserve h.inv h.running hreserve
  split at hput
  case h_1 capacity hspan =>
    split at hput
    case h_1 bytes hencode =>
      have hsound : b₁.Sound opcodes :=
        ⟨hsettled.inv, hsettled.running, hsettled.counted h.counted, by rw [hb₁]; exact h.known⟩
      obtain ⟨hsound, hbooks, hb'⟩ := fill_commit_spec hsound (hgranted capacity hspan) hput
      refine ⟨capacity, bytes, hencode, hsound, hbooks.trans (by rw [hsettled.books]), ?_⟩
      rw [hb', hb₁]
    case h_2 =>
      rw [Call.succeeds_bind] at hput
      obtain ⟨_, _, _, hfailing⟩ := hput
      exact absurd hfailing Call.not_succeeds_failing
  case h_2 => exact absurd hput Call.not_succeeds_failing

theorem put_item {minimum code : ℕ} (h : b.Sound opcodes) (hitem : item.instructions = 0)
    (hput : Call.Succeeds (put lz4 minimum code fun capacity => item.encode capacity) b () b') :
    Emits b b' opcodes [item] := by
  obtain ⟨capacity, bytes, hencode, hsound, hbooks, hb'⟩ := put_spec h hput
  refine ⟨?_, hsound, bytes, .single hencode, ?_⟩
  · rw [SameFrame, hb']
  · simp [hbooks, hitem, grown_zero]

/-- The records of the fragments of a detail, from the one with index `chunkIndex` on. -/
def chunkItems (item : ChunkInfo → List UInt8 → Item) (eventId : UInt64) (totalDetailBytes chunkCount : ℕ) :
    ℕ → List (List UInt8) → List Item
  | _, [] => []
  | chunkIndex, chunk :: chunks =>
    item { eventId, totalDetailBytes, chunkIndex, chunkCount } chunk ::
      chunkItems item eventId totalDetailBytes chunkCount (chunkIndex + 1) chunks

variable {eventId : UInt64}

theorem putChunks_spec {record : ChunkInfo → List UInt8 → Call (BinaryTraceWriter Ctx) Unit}
    {item : ChunkInfo → List UInt8 → Item} {totalDetailBytes chunkCount : ℕ}
    (hrecord : ∀ {info chunk b b'}, b.Sound opcodes → Call.Succeeds (record info chunk) b () b' →
      Emits b b' opcodes [item info chunk]) :
    ∀ {chunks : List (List UInt8)} {chunkIndex : ℕ} {b : BinaryTraceWriter Ctx}, b.Sound opcodes →
      Call.Succeeds (putChunks record eventId totalDetailBytes chunkCount chunkIndex chunks) b () b' →
      Emits b b' opcodes (chunkItems item eventId totalDetailBytes chunkCount chunkIndex chunks)
  | [], _, b, h, hput => by
    obtain ⟨-, rfl⟩ := Call.succeeds_pure.mp hput
    exact Emits.refl h
  | chunk :: chunks, chunkIndex, b, h, hput => by
    rw [putChunks, Call.succeeds_bind] at hput
    obtain ⟨_, b₁, hfirst, hrest⟩ := hput
    have hfirst := hrecord h hfirst
    exact hfirst.trans (putChunks_spec hrecord hfirst.sound hrest)

theorem takeEventId_spec (h : b.Sound opcodes)
    (htake : Call.Succeeds (takeEventId : Call (BinaryTraceWriter Ctx) UInt64) b eventId b') :
    eventId ≠ 0 ∧ Emits b b' opcodes [] := by
  simp only [takeEventId, Call.succeeds_perform, Option.some.injEq, Prod.mk.injEq] at htake
  obtain ⟨rfl, rfl⟩ := htake
  refine ⟨?_, rfl, ⟨h.inv, h.running, h.counted, h.known⟩, [], .nil, (grown_nil _).symm⟩
  split_ifs with hzero
  · decide
  · exact hzero

/-- The records of a logical call. -/
def callItems (eventId : UInt64) (category name detail : List UInt8) : List Item :=
  if detail.length ≤ maxCallChunkDetailBytes then [.call category name detail]
  else
    chunkItems (fun info chunk => .callChunk info category name chunk) eventId detail.length
      (detailChunks detail).length 0 (detailChunks detail)

/-- The records of a logical rule or error. -/
def eventItems (eventId : UInt64) (type : BinaryRecordType) (name detail : List UInt8) : List Item :=
  if detail.length ≤ maxEventChunkDetailBytes then [.event type name detail]
  else
    chunkItems (fun info chunk => .eventChunk type info name chunk) eventId detail.length
      (detailChunks detail).length 0 (detailChunks detail)

/-- A chunked detail has as many fragments as a fragment number can count. -/
def Countable (detail : List UInt8) : Prop :=
  maxCallChunkDetailBytes < detail.length → (detailChunks detail).length ≤ 65535

theorem appendEvent_spec {type : BinaryRecordType} {name detail : List UInt8} (h : b.Sound opcodes)
    (happend : Call.Succeeds (appendEvent lz4 type name detail) b () b') :
    Countable detail ∧ ∃ eventId ≠ 0, Emits b b' opcodes (eventItems eventId type name detail) := by
  obtain ⟨-, happend⟩ := Call.succeeds_demand_bind.mp happend
  obtain ⟨-, happend⟩ := Call.succeeds_unless.mp happend
  unfold eventItems
  split at happend
  case isTrue hlong =>
    simp only [if_neg (Nat.not_le.mpr hlong)]
    obtain ⟨hcount, happend⟩ := Call.succeeds_unless.mp happend
    simp only [Bool.or_eq_true, decide_eq_true_eq, not_or, Nat.not_lt] at hcount
    obtain ⟨eventId, b₁, htake, hput⟩ := Call.succeeds_bind.mp happend
    obtain ⟨hne, htaken⟩ := takeEventId_spec h htake
    refine ⟨fun _ => hcount.2, eventId, hne, ?_⟩
    exact htaken.trans (putChunks_spec (fun h hput => put_item h rfl hput) htaken.sound hput)
  case isFalse hshort =>
    simp only [if_pos (Nat.not_lt.mp hshort)]
    have hcount : Countable detail := fun hlong => by
      simp only [maxCallChunkDetailBytes, maxEventChunkDetailBytes] at hlong hshort
      omega
    exact ⟨hcount, 1, by decide, put_item h rfl happend⟩

theorem appendCall_spec {category name detail : List UInt8} (h : b.Sound opcodes)
    (happend : Call.Succeeds (appendCall lz4 category name detail) b () b') :
    Emits b b' opcodes [.call category name detail] := by
  obtain ⟨-, happend⟩ := Call.succeeds_demand_bind.mp happend
  obtain ⟨-, happend⟩ := Call.succeeds_unless.mp happend
  exact put_item h rfl happend

theorem call_spec {category : Option (List UInt8)} {name detail : List UInt8} (h : b.Sound opcodes)
    (hcall : Call.Succeeds (call lz4 category name detail) b () b') :
    Countable detail ∧ ∃ eventId ≠ 0, Emits b b' opcodes (callItems eventId (category.getD []) name detail) := by
  obtain ⟨-, hcall⟩ := Call.succeeds_demand_bind.mp hcall
  obtain ⟨-, hcall⟩ := Call.succeeds_unless.mp hcall
  unfold callItems
  generalize category.getD [] = category at hcall ⊢
  split at hcall
  case isTrue hshort =>
    simp only [if_pos hshort]
    exact ⟨fun hlong => by omega, 1, by decide, appendCall_spec h hcall⟩
  case isFalse hlong =>
    simp only [if_neg hlong]
    obtain ⟨hcount, hcall⟩ := Call.succeeds_unless.mp hcall
    obtain ⟨eventId, b₁, htake, hput⟩ := Call.succeeds_bind.mp hcall
    obtain ⟨hne, htaken⟩ := takeEventId_spec h htake
    refine ⟨fun _ => by omega, eventId, hne, ?_⟩
    exact htaken.trans (putChunks_spec (fun h hput => put_item h rfl hput) htaken.sound hput)

/-- The record of a memory access at `pc`. -/
def memoryItem (context : TraceContext) (pc : UInt64) (record : MemoryRecord) : Item :=
  .memory (if context.moduleBase ≤ pc then pc - context.moduleBase else 0) record

variable {context : TraceContext} {pc : UInt64}

theorem memory_spec {record : MemoryRecord} (h : b.Sound opcodes)
    (hmemory : Call.Succeeds (memory lz4 context pc record) b () b') :
    Emits b b' opcodes [memoryItem context pc record] := by
  exact put_item h rfl (Call.succeeds_demand_bind.mp hmemory).2

theorem memoryAll_spec :
    ∀ {records : List MemoryRecord} {b : BinaryTraceWriter Ctx}, b.Sound opcodes →
      Call.Succeeds (memoryAll lz4 context pc records) b () b' →
      Emits b b' opcodes (records.map (memoryItem context pc))
  | [], b, h, hmemory => by
    obtain ⟨-, rfl⟩ := Call.succeeds_pure.mp hmemory
    exact Emits.refl h
  | record :: records, b, h, hmemory => by
    rw [memoryAll, Call.succeeds_bind] at hmemory
    obtain ⟨_, b₁, hfirst, hrest⟩ := hmemory
    have hfirst := memory_spec h hfirst
    exact hfirst.trans (memoryAll_spec hfirst.sound hrest)

/-- The opcodes known after `opcode` was seen. -/
def learn (opcodes : List UInt32) (opcode : UInt32) : List UInt32 :=
  if opcode ∈ opcodes then opcodes else opcodes ++ [opcode]

/-- The number of an opcode, new or known. -/
def metadataIdOf (opcodes : List UInt32) (opcode : UInt32) : UInt32 := UInt32.ofNat (opcodes.idxOf opcode)

/-- The records of an instruction: its definition when the opcode is new, itself, its accesses. -/
def instructionItems (opcodes : List UInt32) (context : TraceContext) (record : InstructionRecord)
    (decoded : CachedInstruction) : List Item :=
  (if decoded.opcode ∈ opcodes then [] else [.definition (metadataIdOf opcodes decoded.opcode) decoded]) ++
    [.instruction (metadataIdOf opcodes decoded.opcode) record] ++
    (record.memory.toList.take record.memoryCount.toNat).map (memoryItem context record.pc)

theorem define_spec {decoded : CachedInstruction} {metadataId : UInt32} {needsDefinition : Bool}
    (h : b.Sound opcodes) (hresolve : b.dictionary.resolve decoded.opcode = some (metadataId, needsDefinition))
    (hdefine : Call.Succeeds (define lz4 metadataId needsDefinition decoded) b () b') :
    metadataId = metadataIdOf opcodes decoded.opcode ∧ Emits b b' (learn opcodes decoded.opcode)
      (if decoded.opcode ∈ opcodes then [] else [.definition (metadataIdOf opcodes decoded.opcode) decoded]) := by
  by_cases hknown : decoded.opcode ∈ opcodes
  · rw [h.known.resolve_known hknown] at hresolve
    simp only [Option.some.injEq, Prod.mk.injEq] at hresolve
    obtain ⟨rfl, rfl⟩ := hresolve
    obtain ⟨-, rfl⟩ := Call.succeeds_pure.mp hdefine
    simp only [learn, hknown, if_true]
    exact ⟨rfl, Emits.refl h⟩
  · obtain ⟨rfl, rfl, hroom⟩ := h.known.resolve_new hknown hresolve
    have hid : metadataIdOf opcodes decoded.opcode = UInt32.ofNat opcodes.length := by
      rw [metadataIdOf, List.idxOf_eq_length hknown]
    simp only [define, if_true, Call.succeeds_bind, Call.succeeds_read] at hdefine
    obtain ⟨_, b₁, hput, _, _, ⟨rfl, rfl⟩, hdefine⟩ := hdefine
    obtain ⟨-, -, -, -, -, hb₁⟩ := put_spec h hput
    have hput : Emits b b₁ opcodes [.definition (UInt32.ofNat opcodes.length) decoded] := put_item h rfl hput
    obtain ⟨dictionary, hcommit, hknows⟩ := hput.sound.known.commit_new hknown (by rwa [hb₁])
    simp only [hcommit, Call.succeeds_update] at hdefine
    subst hdefine
    simp only [learn, hknown, if_false, hid]
    exact ⟨trivial, ⟨hput.frame.trans rfl, ⟨hput.sound.inv, hput.sound.running, hput.sound.counted, hknows⟩,
      hput.books⟩⟩

theorem instruction_spec {record : InstructionRecord} (h : b.Sound opcodes)
    (hinstruction : Call.Succeeds (instruction lz4 context record) b () b') :
    ∃ decoded, record.decoded = some decoded ∧ record.memoryCount.toNat ≤ 8 ∧
      Emits b b' (learn opcodes decoded.opcode) (instructionItems opcodes context record decoded) := by
  obtain ⟨-, hinstruction⟩ := Call.succeeds_demand_bind.mp hinstruction
  split at hinstruction
  case h_1 => exact absurd hinstruction Call.not_succeeds_failing
  case h_2 decoded hdecoded =>
    obtain ⟨hcount, hinstruction⟩ := Call.succeeds_unless.mp hinstruction
    refine ⟨decoded, hdecoded, by omega, ?_⟩
    simp only [Call.succeeds_bind, Call.succeeds_read] at hinstruction
    obtain ⟨_, _, ⟨rfl, rfl⟩, hinstruction⟩ := hinstruction
    split at hinstruction
    case h_1 => exact absurd hinstruction Call.not_succeeds_failing
    case h_2 metadataId needsDefinition hresolve =>
      simp only [Call.succeeds_bind, Call.succeeds_update] at hinstruction
      obtain ⟨_, b₁, hdefine, _, b₂, hput, _, b₃, rfl, hmemory⟩ := hinstruction
      obtain ⟨rfl, hdefined⟩ := define_spec h hresolve hdefine
      obtain ⟨capacity, bytes, hencode, hsound, hbooks, hb₂⟩ := put_spec hdefined.sound hput
      have hput : Emits b₁ { b₂ with writer := { b₂.writer with
          metrics := { b₂.writer.metrics with instructions := b₂.writer.metrics.instructions + 1 } } }
          (learn opcodes decoded.opcode) [.instruction (metadataIdOf opcodes decoded.opcode) record] := by
        refine ⟨by rw [SameFrame, hb₂],
          ⟨hsound.inv.setMetrics _, hsound.running, hsound.counted, hsound.known⟩, bytes, .single hencode, ?_⟩
        have hcounted : AsyncWriter.books { b₂.writer with
            metrics := { b₂.writer.metrics with instructions := b₂.writer.metrics.instructions + 1 } } =
            { b₂.writer.books with counters := { b₂.writer.books.counters with
                instructions := b₂.writer.books.counters.instructions + 1 } } := rfl
        rw [hcounted, hbooks]
        rfl
      exact (hdefined.trans hput).trans (memoryAll_spec hput.sound hmemory)

/-- What `begin` announces about the trace. -/
def beginInfo (b : BinaryTraceWriter Ctx) : TraceBeginInfo where
  profile := b.options.profile
  compressionEnabled := b.options.compressionEnabled
  runId := b.runId
  effectiveBufferBytes := UInt64.ofNat b.writer.bufferBytes

/-- The records of the rule that announces a trace of calls only. -/
def captureItems (options : TraceOptions) : List Item :=
  if options.callsOnly then [.event .rule captureName captureDetail] else []

/-- The header, the begin record and the module definition. -/
def Preamble (b : BinaryTraceWriter Ctx) (context : TraceContext) (bytes : List UInt8) : Prop :=
  ∃ c₁ c₂ c₃ header start definition,
    encodeStreamHeader c₁ pointerWidth b.options.profile = some header ∧
      encodeBegin c₂ context b.beginInfo = some start ∧
      encodeModuleDefinition c₃ targetModuleId context.targetSo context.moduleBase = some definition ∧
      bytes = header ++ start ++ definition

theorem record_record (books : AsyncWriter.Books) (bytes bytes' : List UInt8) :
    (books.record bytes).record bytes' = books.record (bytes ++ bytes') := by
  simp [AsyncWriter.Books.record, add_assoc]

theorem captureItems_eq (options : TraceOptions) (hcalls : options.callsOnly = true) (eventId : UInt64) :
    eventItems eventId .rule captureName captureDetail = captureItems options := by
  have hshort : captureDetail.length ≤ maxEventChunkDetailBytes := by decide +kernel
  simp [eventItems, captureItems, hcalls, hshort]

theorem begin_spec (h : b.Sound opcodes) (hbegin : Call.Succeeds (begin lz4 context) b () b') :
    ∃ preamble b₁, Preamble b context preamble ∧ b₁.writer.books = b.writer.books.record preamble ∧
      b₁ = { b with writer := b₁.writer, turns := b₁.turns, began := true } ∧
      Emits b₁ b' opcodes (captureItems b.options) := by
  simp only [begin, Call.succeeds_bind, Call.succeeds_demand, Call.succeeds_read, Call.succeeds_update] at hbegin
  obtain ⟨_, _, ⟨-, rfl⟩, _, _, ⟨rfl, rfl⟩, _, b₁, hheader, _, b₂, hstart, _, b₃, hdefinition, _, b₄, rfl,
    hcapture⟩ := hbegin
  obtain ⟨c₁, header, hheader, hsound₁, hbooks₁, hb₁⟩ := put_spec h hheader
  obtain ⟨c₂, start, hstart, hsound₂, hbooks₂, hb₂⟩ := put_spec hsound₁ hstart
  obtain ⟨c₃, definition, hdefinition, hsound₃, hbooks₃, hb₃⟩ := put_spec hsound₂ hdefinition
  refine ⟨header ++ start ++ definition, { b₃ with began := true },
    ⟨c₁, c₂, c₃, header, start, definition, hheader, hstart, hdefinition, rfl⟩, ?_, ?_, ?_⟩
  · show b₃.writer.books = _
    rw [hbooks₃, hbooks₂, hbooks₁, record_record, record_record, List.append_assoc]
  · rw [hb₃, hb₂, hb₁]
  · have hsound : Sound { b₃ with began := true } opcodes :=
      ⟨hsound₃.inv, hsound₃.running, hsound₃.counted, hsound₃.known⟩
    split at hcapture
    case isTrue hcalls =>
      obtain ⟨-, eventId, -, hemits⟩ := appendEvent_spec hsound hcapture
      rwa [captureItems_eq b.options hcalls] at hemits
    case isFalse hcalls =>
      obtain ⟨-, rfl⟩ := Call.succeeds_pure.mp hcapture
      rw [captureItems, if_neg hcalls]
      exact Emits.refl hsound

end BinaryTraceWriter

end QTrace.Events
