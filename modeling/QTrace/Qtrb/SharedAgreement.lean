import QTrace.Qtrb.Shared

/-! The stream's decoders and the shared ones accept the same payloads. -/

namespace QTrace.Qtrb

open Lib Lib.Parser Provider

variable {c c' : PayloadCursor} {field : String} {code : UInt8} {coordinate : SourceCoordinate}

theorem mirrors_u8 : MirrorsAll id c.u8 c'.u8 := mirrors_map mirrors_take

theorem mirrors_u16Le : MirrorsAll id c.u16Le c'.u16Le := mirrors_map mirrors_take

theorem mirrors_u32Le : MirrorsAll id c.u32Le c'.u32Le := mirrors_map mirrors_take

theorem mirrors_u64Le : MirrorsAll id c.u64Le c'.u64Le := mirrors_map mirrors_take

theorem mirrors_i64Le : MirrorsAll id c.i64Le c'.i64Le := mirrors_map mirrors_u64Le

theorem mirrors_text {bytes : List UInt8} {e e' : ProviderError} :
    MirrorsAll id (liftM (PayloadCursor.text bytes e) : Parser ProviderError Text)
      (liftM (PayloadCursor.text bytes e') : Parser ProviderError Text) := by
  refine mirrors_lift fun a => ?_
  unfold PayloadCursor.text
  split_ifs <;> simp

theorem mirrors_boundedUtf8 {maximum : ℕ} :
    MirrorsAll id (c.boundedUtf8 maximum field) (c'.boundedUtf8 maximum field) := by
  have hraw : MirrorsAll id (c.boundedRaw maximum field) (c'.boundedRaw maximum field) :=
    mirrors_bind mirrors_u16Le fun size => mirrors_failIf rfl fun _ => mirrors_take
  exact mirrors_bind hraw fun bytes => mirrors_text

theorem mirrors_registers {mask : UInt64} :
    MirrorsAll (List.map typedRegister) (Shared.sharedRegisters c mask field) (decodeRegisters c' mask field) := by
  unfold Shared.sharedRegisters decodeRegisters
  have hslots : Events.slots mask = (Events.slots mask).map id := (List.map_id _).symm
  nth_rw 1 [hslots]
  refine mirrors_mapM fun slot => ?_
  refine mirrors_bind mirrors_u8 fun width => ?_
  refine mirrors_bind mirrors_boundedUtf8 fun name => ?_
  refine mirrors_failIf rfl fun _ => ?_
  exact mirrors_pure (h := typedRegister) (c := ⟨UInt8.ofNat slot, width, name⟩) trivial

theorem decodeDirection_of_valid (hlow : ¬code < 1) (hhigh : ¬3 < code) :
    Shared.decodeDirection code coordinate =
      .ok (if code = 1 then .read else if code = 2 then .write else .readWrite) := by
  have hcode : code = 1 ∨ code = 2 ∨ code = 3 := by
    simp only [UInt8.lt_iff_toNat_lt, ← UInt8.toNat_inj, UInt8.reduceToNat] at hlow hhigh ⊢
    omega
  rcases hcode with rfl | rfl | rfl <;> rfl

theorem mirrors_memoryOperand :
    MirrorsAll typedMemoryOperand (Shared.memoryOperand c) (memoryOperandWire c') := by
  refine mirrors_bind mirrors_u8 fun base => ?_
  refine mirrors_bind mirrors_u8 fun index => ?_
  refine mirrors_bind mirrors_u8 fun extend => ?_
  refine mirrors_bind mirrors_u8 fun mode => ?_
  refine mirrors_bind mirrors_u8 fun shift => ?_
  refine mirrors_bind mirrors_u8 fun kind => ?_
  refine mirrors_bind mirrors_u8 fun writeback => ?_
  refine mirrors_bind mirrors_u32Le fun size => ?_
  refine mirrors_bind mirrors_i64Le fun displacement => ?_
  refine mirrors_failIf rfl fun hvalid => ?_
  simp only [id, Bool.or_eq_false_iff, decide_eq_false_iff_not] at hvalid
  obtain ⟨⟨⟨-, hlow⟩, hhigh⟩, -⟩ := hvalid
  refine mirrors_lift_left (decodeDirection_of_valid hlow hhigh) ?_
  exact mirrors_pure (h := typedMemoryOperand)
    (c := ⟨base, index, extend, mode, shift, kind, writeback, size, displacement⟩) trivial

/-- The shared decoder accepts the definitions of the stream whose id is not zero. -/
theorem mirrors_definition :
    Mirrors (fun r => r.1 ≠ 0) (fun r => typedDefinition r.1 r.2) (Shared.definitionFields c)
      (definitionFields c') := by
  refine mirrors_bind mirrors_u32Le fun definitionId => ?_
  refine mirrors_bind mirrors_u32Le fun opcode => ?_
  refine mirrors_bind mirrors_u64Le fun readMask => ?_
  refine mirrors_bind mirrors_u64Le fun writeMask => ?_
  refine mirrors_bind mirrors_i64Le fun displacement => ?_
  refine mirrors_bind mirrors_u32Le fun flags => ?_
  refine mirrors_bind mirrors_u8 fun pcKind => ?_
  refine mirrors_bind mirrors_u8 fun condition => ?_
  refine mirrors_bind mirrors_u8 fun memoryCount => ?_
  refine mirrors_bind mirrors_u8 fun slowMemoryPath => ?_
  by_cases hid : definitionId = 0
  · refine mirrors_of_fails (fails_bind_left (fails_failIf (by simp [hid]))) ?_
    repeat refine yields_bind fun _ => ?_
    exact yields_pure (by simp [hid])
  · refine mirrors_failIf (by simp [hid]) fun _ => ?_
    refine mirrors_bind mirrors_boundedUtf8 fun mnemonic => ?_
    refine mirrors_bind mirrors_boundedUtf8 fun operands => ?_
    refine mirrors_bind mirrors_boundedUtf8 fun disassembly => ?_
    refine mirrors_bind mirrors_registers fun reads => ?_
    refine mirrors_bind mirrors_registers fun writes => ?_
    refine mirrors_bind (mirrors_times mirrors_memoryOperand _) fun memoryOperands => ?_
    refine mirrors_bind mirrors_finish fun _ => ?_
    exact mirrors_pure (h := fun r : UInt32 × InstructionDefinitionWire => typedDefinition r.1 r.2)
      (c := (definitionId, ⟨opcode, readMask, writeMask, displacement, flags, pcKind, condition, slowMemoryPath,
        mnemonic, operands, disassembly, reads, writes, memoryOperands⟩)) hid

variable {q : QtrbEventCursor} {record : PhysicalRecord} {moduleId definitionId : UInt32}
  {definition : InstructionDefinitionWire}

theorem mirrors_observations {registers : List RegisterWire} :
    MirrorsAll id ((registers.map typedRegister).mapM (Shared.observation c)) (registers.mapM (observation c')) := by
  have hmap : MirrorsAll (List.map id) ((registers.map typedRegister).mapM (Shared.observation c))
      (registers.mapM (observation c')) := by
    refine mirrors_mapM fun register => mirrors_bind mirrors_u64Le fun value => ?_
    exact mirrors_pure (h := id) (c := RegisterObservation.mk register.slot register.width register.name value) trivial
  rwa [List.map_id_fun] at hmap

theorem reference_ok (hmodule : (q.modules.lookup moduleId).isSome = true)
    (hdefinition : q.definitions.lookup definitionId = some definition) :
    q.reference record moduleId definitionId = .ok definition := by
  obtain ⟨wire, hwire⟩ := Option.isSome_iff_exists.mp hmodule
  simp only [QtrbEventCursor.reference, hwire, hdefinition]

/-- Against one definition and one module, the shared decoder accepts the instructions of the stream that
refer to them. -/
theorem mirrors_instruction (hmodule : (q.modules.lookup moduleId).isSome = true)
    (hdefinition : q.definitions.lookup definitionId = some definition) :
    Mirrors (fun r => r.2.moduleId = moduleId ∧ r.2.definitionId = definitionId)
      (fun r => Shared.DecodedInstruction.mk r.1 r.2)
      (Shared.instructionFields c (typedDefinition definitionId definition) (some moduleId))
      (q.instructionFields record c') := by
  refine mirrors_bind mirrors_u64Le fun sequence => ?_
  refine mirrors_bind mirrors_u32Le fun foundModule => ?_
  refine mirrors_bind mirrors_u64Le fun relativePc => ?_
  refine mirrors_bind mirrors_u32Le fun foundDefinition => ?_
  refine mirrors_bind mirrors_u8 fun readCount => ?_
  refine mirrors_bind mirrors_u8 fun writeCount => ?_
  by_cases hfound : foundModule = moduleId ∧ foundDefinition = definitionId
  · obtain ⟨rfl, rfl⟩ := hfound
    refine mirrors_lift_right (reference_ok hmodule hdefinition) ?_
    refine mirrors_failIf (by simp [Shared.unexpected, typedDefinition]) fun _ => ?_
    refine mirrors_bind mirrors_observations fun readBefore => ?_
    refine mirrors_bind mirrors_observations fun writeAfter => ?_
    refine mirrors_bind mirrors_finish fun _ => ?_
    exact mirrors_pure (h := fun r : UInt64 × Instruction => Shared.DecodedInstruction.mk r.1 r.2)
      (c := (sequence, ⟨foundDefinition, foundModule, relativePc, readBefore, writeAfter⟩)) ⟨rfl, rfl⟩
  · refine mirrors_of_fails (fails_bind_left (fails_failIf ?_)) ?_
    · rcases not_and_or.mp hfound with hne | hne <;> simp [Shared.unexpected, typedDefinition, hne]
    · repeat refine yields_bind fun _ => ?_
      exact yields_pure hfound

theorem mirrors_direction :
    MirrorsAll id (liftM (Shared.decodeDirection code coordinate) : Parser ProviderError MemoryDirection)
      (liftM (QtrbEventCursor.direction record code) : Parser ProviderError MemoryDirection) := by
  refine mirrors_lift fun a => ?_
  unfold Shared.decodeDirection QtrbEventCursor.direction
  split_ifs <;> simp

theorem throw_ok {α : Type} {e : ProviderError} {s t : List UInt8} {a : α} :
    (throw e : Parser ProviderError α) s = .ok (a, t) ↔ False := by
  simp [throw, throwThe, MonadExceptOf.throw, StateT.lift, bind, Except.bind]

theorem mirrors_memoryState : MirrorsAll id (Shared.sharedMemoryState c field) (memoryState c' field) := by
  refine mirrors_bind mirrors_u8 fun state => ?_
  refine mirrors_bind mirrors_u8 fun count => ?_
  refine mirrors_failIf rfl fun _ => ?_
  refine mirrors_bind mirrors_take fun bytes => ?_
  -- the stream checks state and count first, the shared decoder while it matches them
  intro s a t
  simp only [id, bind_ok, failIf_ok]
  by_cases h0 : state = 0
  · subst h0
    by_cases hcount : count = 0 <;> simp [hcount, pure_ok, throw_ok]
  · by_cases h1 : state = 1
    · subst h1
      simp [pure_ok]
    · by_cases h2 : state = 2
      · subst h2
        by_cases hcount : count = 0 <;> simp [hcount, pure_ok, throw_ok]
      · simp [h0, h1, h2, throw_ok]

/-- With one module, the shared decoder accepts the memory records of the stream that name it. -/
theorem mirrors_memory (hmodule : (q.modules.lookup moduleId).isSome = true) :
    Mirrors (fun r => r.moduleId = moduleId) id (Shared.memoryFields c (some moduleId)) (q.memoryFields record c') := by
  refine mirrors_bind mirrors_u32Le fun foundModule => ?_
  refine mirrors_bind mirrors_u64Le fun relativePc => ?_
  refine mirrors_bind mirrors_u8 fun code => ?_
  refine mirrors_bind mirrors_direction fun direction => ?_
  refine mirrors_bind mirrors_u8 fun metadataAvailable => ?_
  refine mirrors_bind mirrors_u16Le fun flags => ?_
  refine mirrors_bind mirrors_u64Le fun address => ?_
  refine mirrors_bind mirrors_u32Le fun size => ?_
  refine mirrors_bind mirrors_u64Le fun value => ?_
  by_cases hfound : foundModule = moduleId
  · subst hfound
    refine mirrors_failIf_right (by simpa using Option.isSome_iff_ne_none.mp hmodule) ?_
    refine mirrors_failIf (by simp [Shared.unexpected]) fun _ => ?_
    refine mirrors_bind mirrors_memoryState fun before => ?_
    refine mirrors_bind mirrors_memoryState fun after => ?_
    refine mirrors_bind mirrors_finish fun _ => ?_
    exact mirrors_pure (G := fun r : Memory => r.moduleId = foundModule) (h := id) rfl
  · refine mirrors_of_fails (fails_bind_left (fails_failIf (by simp [Shared.unexpected, hfound]))) ?_
    repeat refine yields_bind fun _ => ?_
    exact yields_pure hfound

/-- The shared decoders accept exactly the payloads that the stream's decoders accept, with the same
definition, observations and memory, for definition ids other than zero and for records that refer to
the definition and the module the caller expects. -/
theorem shared_decoders_agree (hmodule : (q.modules.lookup moduleId).isSome = true)
    (hdefinition : q.definitions.lookup definitionId = some definition) (record : PhysicalRecord)
    (payload : List UInt8) (coordinate : SourceCoordinate) :
    (∀ result, Shared.decodeInstructionDefinitionPayload payload coordinate = .ok result ↔
      ∃ id wire, (definitionFields (record.cursor "INSTRUCTION_DEF")).parse payload = .ok (id, wire) ∧ id ≠ 0 ∧
        typedDefinition id wire = result) ∧
    (∀ result, Shared.decodeInstructionPayload payload (typedDefinition definitionId definition) (some moduleId)
        coordinate = .ok result ↔
      (q.instructionFields record (record.cursor "INSTRUCTION")).parse payload =
          .ok (result.localSequence, result.instruction) ∧
        result.instruction.moduleId = moduleId ∧ result.instruction.definitionId = definitionId) ∧
    ∀ result, Shared.decodeMemoryPayloadForModule payload (some moduleId) coordinate = .ok result ↔
      (q.memoryFields record (record.cursor "MEMORY")).parse payload = .ok result ∧ result.moduleId = moduleId := by
  have hdefinitions : Mirrors _ _ (Shared.definitionFields ⟨"INSTRUCTION_DEF", coordinate⟩)
      (definitionFields (record.cursor "INSTRUCTION_DEF")) := mirrors_definition
  have hinstructions : Mirrors _ _ (Shared.instructionFields ⟨"INSTRUCTION", coordinate⟩
      (typedDefinition definitionId definition) (some moduleId))
      (q.instructionFields record (record.cursor "INSTRUCTION")) := mirrors_instruction hmodule hdefinition
  have hmemory : Mirrors _ _ (Shared.memoryFields ⟨"MEMORY", coordinate⟩ (some moduleId))
      (q.memoryFields record (record.cursor "MEMORY")) := mirrors_memory hmodule
  refine ⟨fun result => hdefinitions.parse.trans Prod.exists, fun result => hinstructions.parse.trans ?_,
    fun result => hmemory.parse.trans ?_⟩
  all_goals
    constructor
    · rintro ⟨r, hparse, hfound, rfl⟩
      exact ⟨hparse, hfound⟩
    · rintro ⟨hparse, hfound⟩
      exact ⟨_, hparse, hfound, rfl⟩

/-- An instruction without registers. -/
def plainDefinition : InstructionDefinitionWire :=
  ⟨0xd503201f, 0, 0, 0, 0, 0, 0, 0, ⟨[], rfl⟩, ⟨[], rfl⟩, ⟨[], rfl⟩, [], [], []⟩

/-- Its sequence number is 5, its module 1, its definition 7. -/
def plainInstruction : List UInt8 :=
  leBytes 8 5 ++ leBytes 4 1 ++ leBytes 8 0x10 ++ leBytes 4 7 ++ [0, 0]

/-- A cursor that knows one module and one definition. -/
def plainCursor : QtrbEventCursor where
  artifact := []
  header := ⟨0, 0, 0⟩
  modules := [(1, ⟨0, ⟨[], rfl⟩⟩)]
  definitions := [(7, plainDefinition)]

theorem shared_decoders_agree_plainInstruction :
    ∃ result, Shared.decodeInstructionPayload plainInstruction (typedDefinition 7 plainDefinition) (some 1) ⟨0, none⟩ =
      .ok result ∧ result.localSequence = 5 := by
  have hmodule : (plainCursor.modules.lookup 1).isSome = true := rfl
  have hdefinition : plainCursor.definitions.lookup 7 = some plainDefinition := rfl
  have hagree := (shared_decoders_agree hmodule hdefinition ⟨some .instruction, 4, 0, plainInstruction, 0, 0⟩
    plainInstruction ⟨0, none⟩).2.1
  exact ⟨⟨5, ⟨7, 1, 0x10, [], []⟩⟩, (hagree _).mpr ⟨rfl, rfl, rfl⟩, rfl⟩

end QTrace.Qtrb
