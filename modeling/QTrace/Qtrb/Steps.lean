import QTrace.Qtrb.Cursor

/-! What one record does to the cursor. A record is read if it lies completely in the
source under its limit; decoding it then depends on the source only where a terminal
compares the offset with the end. -/

namespace QTrace.Qtrb

open Lib Provider

variable {coordinate : SourceCoordinate}

theorem readExactAt_ok {source bytes : List UInt8} {offset size : ℕ} {stage : String} :
    readExactAt source offset size coordinate stage = .ok bytes ↔
      offset + size ≤ source.length ∧ (source.drop offset).take size = bytes := by
  unfold readExactAt
  split_ifs with h <;> simp [h]

theorem checkedAdd_ok {a b n : ℕ} {error : ProviderError} :
    checkedAdd a b error = .ok n ↔ a + b < 2 ^ 64 ∧ a + b = n := by
  unfold checkedAdd
  split_ifs with h
  · simp only [Except.ok.injEq, h, true_and]
  · simp only [h, false_and]

variable {cursor : PayloadCursor}

theorem PayloadCursor.u16Le_ok {s t : List UInt8} {value : UInt16} :
    cursor.u16Le s = .ok (value, t) ↔
      2 ≤ s.length ∧ value = UInt16.ofNat (leNat (s.take 2)) ∧ t = s.drop 2 := by
  simp only [u16Le, Parser.map_ok, PayloadCursor.take, Parser.take_ok]
  constructor
  · rintro ⟨_, ⟨hlen, rfl, rfl⟩, rfl⟩
    exact ⟨hlen, rfl, rfl⟩
  · rintro ⟨hlen, rfl, rfl⟩
    exact ⟨_, ⟨hlen, rfl, rfl⟩, rfl⟩

theorem PayloadCursor.u32Le_rest {s t : List UInt8} {value : UInt32} (h : cursor.u32Le s = .ok (value, t)) :
    t = s.drop 4 := by
  simp only [u32Le, Parser.map_ok, PayloadCursor.take, Parser.take_ok] at h
  obtain ⟨_, ⟨-, -, rfl⟩, -⟩ := h
  rfl

theorem PayloadCursor.u64Le_rest {s t : List UInt8} {value : UInt64} (h : cursor.u64Le s = .ok (value, t)) :
    t = s.drop 8 := by
  simp only [u64Le, Parser.map_ok, PayloadCursor.take, Parser.take_ok] at h
  obtain ⟨_, ⟨-, -, rfl⟩, -⟩ := h
  rfl

theorem toNat_ofNat_leNat {bytes : List UInt8} (h : bytes.length ≤ 2) :
    (UInt16.ofNat (leNat bytes)).toNat = leNat bytes := by
  have hlt : leNat bytes < 256 ^ 2 :=
    (leNat_lt bytes).trans_le (Nat.pow_le_pow_right (by decide) h)
  simp only [UInt16.toNat_ofNat']
  omega

/-- The index of a fragment and the number of fragments of its event. -/
def chunkIndexOf (payload : List UInt8) : ℕ := leNat ((payload.drop 12).take 2)

def chunkCountOf (payload : List UInt8) : ℕ := leNat ((payload.drop 14).take 2)

theorem fragmentFields_chunk {kind : FragmentKind} {payload : List UInt8} {fragment : Fragment}
    (h : (fragmentFields kind cursor).parse payload = .ok fragment) :
    fragment.chunkIndex.toNat = chunkIndexOf payload ∧ fragment.chunkCount.toNat = chunkCountOf payload := by
  simp only [Parser.parse_ok, fragmentFields, Parser.bind_ok, Parser.pure_ok, PayloadCursor.u16Le_ok] at h
  obtain ⟨_, eventId, s1, h1, total, s2, h2, index, s3, ⟨-, rfl, rfl⟩, count, s4, ⟨-, rfl, rfl⟩, _, _, _, _, _, _,
    _, _, _, _, _, _, rfl, -⟩ := h
  obtain rfl := PayloadCursor.u64Le_rest h1
  obtain rfl := PayloadCursor.u32Le_rest h2
  rw [toNat_ofNat_leNat (by simp), toNat_ofNat_leNat (by simp)]
  simp [chunkIndexOf, chunkCountOf]

/-- A record as it lies in the source. -/
structure Frame where
  rawType : ℕ
  flags : ℕ
  payload : List UInt8
  stop : ℕ
  deriving DecidableEq

/-- The frame whose header stands at `offset`. -/
def frameAt (source : List UInt8) (offset : ℕ) : Frame :=
  let size := leNat ((source.drop (offset + 4)).take 4)
  ⟨leNat ((source.drop offset).take 2), leNat ((source.drop (offset + 2)).take 2),
    (source.drop (offset + 8)).take size, offset + 8 + size⟩

theorem frameAt_stop (source : List UInt8) (offset : ℕ) : offset + 8 ≤ (frameAt source offset).stop := by
  simp [frameAt]

theorem drop_take_take {source : List UInt8} {offset size cut : ℕ} (h : offset + size ≤ cut) :
    ((source.take cut).drop offset).take size = (source.drop offset).take size := by
  rw [List.drop_take, List.take_take, min_eq_left (by omega)]

theorem frameAt_take {source : List UInt8} {offset cut : ℕ} (h : (frameAt source offset).stop ≤ cut) :
    frameAt (source.take cut) offset = frameAt source offset := by
  have hstop := frameAt_stop source offset
  simp only [frameAt] at h ⊢
  rw [@drop_take_take source (offset + 4) 4 cut (by omega), @drop_take_take source offset 2 cut (by omega),
    @drop_take_take source (offset + 2) 2 cut (by omega), drop_take_take h]

theorem frameAt_take_stop {source : List UInt8} {offset cut : ℕ} (h : offset + 8 ≤ cut) :
    (frameAt (source.take cut) offset).stop = (frameAt source offset).stop := by
  simp only [frameAt]
  rw [drop_take_take (by omega)]

/-- The record of a frame. -/
def Frame.record (frame : Frame) (c : QtrbEventCursor) : PhysicalRecord :=
  ⟨RecordType.fromRaw frame.rawType, frame.rawType, frame.flags, frame.payload, c.offset, c.nextOrdinal⟩

namespace QtrbEventCursor

variable {c c' : QtrbEventCursor} {record : PhysicalRecord} {source : List UInt8}

/-- The reader takes this frame: its header is supported and its size within the limit. -/
def Admits (c : QtrbEventCursor) (frame : Frame) : Prop :=
  ∃ limit, c.payloadLimit ⟨c.offset, some c.nextOrdinal⟩ frame.rawType frame.flags = .ok limit ∧
    frame.stop ≤ c.offset + 8 + limit

theorem readRecord_ok : c.readRecord source = .ok (c', record) ↔
    (frameAt source c.offset).stop ≤ source.length ∧ c.Admits (frameAt source c.offset) ∧
    (frameAt source c.offset).stop < 2 ^ 64 ∧ c.nextOrdinal + 1 < 2 ^ 64 ∧
    c' = { c with offset := (frameAt source c.offset).stop, nextOrdinal := c.nextOrdinal + 1 } ∧
    record = (frameAt source c.offset).record c := by
  have hsize : (((source.drop c.offset).take 8).drop 4).take 4 = (source.drop (c.offset + 4)).take 4 := by
    simp [List.drop_take, List.take_take]
  have htype : ((source.drop c.offset).take 8).take 2 = (source.drop c.offset).take 2 := by
    simp [List.take_take]
  have hflags : (((source.drop c.offset).take 8).drop 2).take 2 = (source.drop (c.offset + 2)).take 2 := by
    simp [List.drop_take, List.take_take]
  simp only [readRecord, bind_eq_ok, readExactAt_ok, checkedAdd_ok, failIf_eq_ok, pure_eq_ok, recordHeaderBytes,
    decide_eq_false_iff_not, not_lt, Prod.mk.injEq]
  constructor
  · rintro ⟨_, ⟨-, rfl⟩, _, ⟨-, rfl⟩, limit, hlimit, _, hle, payload, ⟨hlen, rfl⟩, _, ⟨hadd, rfl⟩, _,
      ⟨hord, rfl⟩, rfl, rfl⟩
    rw [hsize] at hle hlen hadd ⊢
    rw [htype, hflags] at hlimit ⊢
    refine ⟨hlen, ⟨limit, hlimit, ?_⟩, hadd, hord, rfl, rfl⟩
    simp only [frameAt]
    omega
  · rintro ⟨hlen, ⟨limit, hlimit, hle⟩, hadd, hord, rfl, rfl⟩
    have hstop := frameAt_stop source c.offset
    refine ⟨_, ⟨by omega, rfl⟩, _, ⟨by omega, rfl⟩, limit, ?_, (), ?_, _, ⟨?_, rfl⟩, _, ⟨?_, rfl⟩, _,
      ⟨hord, rfl⟩, ?_, ?_⟩
    · rwa [htype, hflags]
    · rw [hsize]
      simp only [frameAt] at hle
      omega
    · rw [hsize]
      exact hlen
    · rw [hsize]
      exact hadd
    · rw [hsize]
      rfl
    · rw [hsize, htype, hflags]
      rfl

variable {event : EventRecord} {result : Option EventRecord} {sourceBytes : ℕ} {kind : FragmentKind}

theorem acceptTerminal_ok {termination : Termination}
    (h : c.acceptTerminal sourceBytes record termination = .ok (c', event)) :
    c.offset = sourceBytes ∧ c' = { c with terminalSeen := true } := by
  simp only [acceptTerminal, bind_eq_ok, failIf_eq_ok, pure_eq_ok, Prod.mk.injEq, decide_eq_false_iff_not, not_not] at h
  obtain ⟨_, hoffset, _, -, rfl, -⟩ := h
  exact ⟨hoffset, rfl⟩

/-- Both terminals are taken at the end of the source only. -/
theorem decodeTerminal_ok (h : c.decodeTraceEnd sourceBytes record = .ok (c', event) ∨
    c.decodeTraceStop sourceBytes record = .ok (c', event)) :
    c.offset = sourceBytes ∧ c' = { c with terminalSeen := true } := by
  rcases h with h | h
  · simp only [decodeTraceEnd, bind_eq_ok, Prod.exists] at h
    obtain ⟨_, -, _, _, -, _, -, haccept⟩ := h
    exact acceptTerminal_ok haccept
  · simp only [decodeTraceStop, bind_eq_ok, Prod.exists] at h
    obtain ⟨_, -, _, -, _, _, _, -, _, -, haccept⟩ := h
    exact acceptTerminal_ok haccept

theorem advance_ok {pending : PendingFragment} (h : c.advance record kind pending = .ok (c', result)) :
    pending.nextIndex < pending.chunkCount.toNat ∧ c' = { c with pending := some pending } ∧ result = none ∨
      pending.chunkCount.toNat ≤ pending.nextIndex ∧ ∃ event, c' = { c with pending := none } ∧ result = some event := by
  obtain ⟨_, -, h⟩ := bind_eq_ok.mp h
  split_ifs at h with hnext
  · obtain ⟨rfl, rfl⟩ := Prod.mk.inj (pure_eq_ok.mp h)
    exact .inl ⟨hnext, rfl, rfl⟩
  · obtain ⟨event, -, h⟩ := bind_eq_ok.mp h
    obtain ⟨rfl, rfl⟩ := Prod.mk.inj (pure_eq_ok.mp h)
    exact .inr ⟨not_lt.mp hnext, event, rfl, rfl⟩

theorem decodeFragment_pending (h : c.decodeFragment record kind = .ok (c', result)) :
    ∃ pending, c' = { c with pending := pending } ∧
      (pending.isSome ↔ chunkIndexOf record.payload + 1 < chunkCountOf record.payload) ∧
      (result.isNone ↔ pending.isSome) := by
  simp only [decodeFragment, bind_eq_ok, failIf_eq_ok, decide_eq_false_iff_not, not_not] at h
  obtain ⟨fragment, hparse, _, hwell, pending, -, _, hforeign, _, hindex, hadvance⟩ := h
  obtain ⟨hci, hcc⟩ := fragmentFields_chunk hparse
  have hcount : pending.chunkCount = fragment.chunkCount := by
    simp only [PendingFragment.foreign, Bool.or_eq_false_iff, decide_eq_false_iff_not, not_not] at hforeign
    exact hforeign.1.1.2
  have hlt : fragment.chunkIndex < fragment.chunkCount := by
    simp only [Fragment.malformed, Bool.or_eq_false_iff, decide_eq_false_iff_not, UInt16.not_le] at hwell
    exact hwell.1.1.1.1.2
  have hmax := fragment.chunkCount.toNat_lt
  have hnext : (pending.push fragment record).nextIndex = chunkIndexOf record.payload + 1 := by
    rw [UInt16.lt_iff_toNat_lt] at hlt
    simp only [PendingFragment.push, ← hindex, ← hci]
    omega
  have hchunks : (pending.push fragment record).chunkCount.toNat = chunkCountOf record.payload := by
    rw [← hcc, ← hcount]
    rfl
  obtain ⟨hmore, rfl, rfl⟩ | ⟨hlast, event, rfl, rfl⟩ := advance_ok hadvance
  · rw [hnext, hchunks] at hmore
    exact ⟨_, rfl, by simpa using hmore, by simp⟩
  · rw [hnext, hchunks] at hlast
    exact ⟨none, rfl, by simpa using hlast, by simp⟩

end QtrbEventCursor

/-- What decoding a record can do to the cursor, and whether it yields an event. -/
inductive Effect (sourceBytes : ℕ) (c : QtrbEventCursor) (record : PhysicalRecord) :
    QtrbEventCursor → Option EventRecord → Prop
  | begin (tid : Option UInt32) (effectiveBufferBytes : UInt64) (event : EventRecord)
      (type : record.recordType = some .traceBegin) :
      Effect sourceBytes c record
        { c with began := true, tid := tid, effectiveBufferBytes := effectiveBufferBytes } (some event)
  | plain (modules : List (UInt32 × ModuleWire)) (definitions : List (UInt32 × InstructionDefinitionWire))
      (nextSequence instructionCount : ℕ) (event : EventRecord) (type : record.recordType ≠ some .traceBegin)
      (whole : record.flags = 0 ∨ ∀ kind : FragmentKind, record.recordType ≠ some kind.recordType) :
      Effect sourceBytes c record
        { c with
          modules := modules
          definitions := definitions
          nextSequence := nextSequence
          instructionCount := instructionCount } (some event)
  | fragment (kind : FragmentKind) (pending : Option PendingFragment) (result : Option EventRecord)
      (type : record.recordType = some kind.recordType) (flags : record.flags ≠ 0)
      (more : pending.isSome ↔ chunkIndexOf record.payload + 1 < chunkCountOf record.payload)
      (yields : result.isNone ↔ pending.isSome) :
      Effect sourceBytes c record { c with pending := pending } result
  | terminal (event : EventRecord) (type : record.recordType = some .traceEnd ∨ record.recordType = some .traceStop)
      (last : c.offset = sourceBytes) :
      Effect sourceBytes c record { c with terminalSeen := true } (some event)

namespace Effect

variable {c c' : QtrbEventCursor} {record : PhysicalRecord} {result : Option EventRecord} {sourceBytes : ℕ}
  (h : Effect sourceBytes c record c' result)

include h

theorem offset : c'.offset = c.offset := by cases h <;> rfl

theorem began (hbegin : c.began = true ∨ record.recordType = some .traceBegin) : c'.began = true := by
  cases h with
  | begin => rfl
  | plain _ _ _ _ _ type => exact hbegin.resolve_right type
  | fragment kind _ _ type => exact hbegin.resolve_right (by rw [type]; cases kind <;> decide)
  | terminal _ type => exact hbegin.resolve_right (by rcases type with type | type <;> simp [type])

theorem terminal_last (hseen : c'.terminalSeen = true) : c.terminalSeen = true ∨ c.offset = sourceBytes := by
  cases h with
  | terminal _ _ last => exact .inr last
  | _ => exact .inl hseen

theorem pending_whole (hflags : record.flags = 0) : c'.pending = c.pending := by
  cases h with
  | fragment _ _ _ _ flags => exact absurd hflags flags
  | _ => rfl

theorem pending_fragment {kind : FragmentKind} (hflags : record.flags ≠ 0)
    (htype : record.recordType = some kind.recordType) :
    c'.pending.isSome ↔ chunkIndexOf record.payload + 1 < chunkCountOf record.payload := by
  cases h with
  | begin _ _ _ type => cases kind <;> simp [type, FragmentKind.recordType] at htype
  | plain _ _ _ _ _ _ whole => exact absurd htype (whole.resolve_left hflags kind)
  | fragment _ _ _ _ _ more => exact more
  | terminal _ type => cases kind <;> simp [htype, FragmentKind.recordType] at type

end Effect

namespace QtrbEventCursor

variable {c c' : QtrbEventCursor} {record : PhysicalRecord} {result : Option EventRecord} {sourceBytes : ℕ}
  {kind : FragmentKind}

theorem map_some_ok {x : Except ProviderError (QtrbEventCursor × EventRecord)}
    (h : Prod.map id some <$> x = .ok (c', result)) : ∃ event, x = .ok (c', event) ∧ result = some event := by
  cases x with
  | error e => cases h
  | ok r =>
    cases h
    exact ⟨r.2, rfl, rfl⟩

theorem decodeSemantic_effect (h : c.decodeSemantic record kind = .ok (c', result))
    (htype : record.recordType = some kind.recordType) : Effect sourceBytes c record c' result := by
  have hbegin : record.recordType ≠ some .traceBegin := by
    rw [htype]
    cases kind <;> decide
  unfold decodeSemantic at h
  split_ifs at h with hflags
  · obtain ⟨_, -, h⟩ := bind_eq_ok.mp h
    obtain ⟨rfl, rfl⟩ := Prod.mk.inj (pure_eq_ok.mp h)
    exact .plain _ _ _ _ _ hbegin (.inl hflags)
  · obtain ⟨_, -, hfragment⟩ := bind_eq_ok.mp h
    obtain ⟨pending, rfl, hmore, hyields⟩ := decodeFragment_pending hfragment
    exact .fragment kind pending result htype hflags hmore hyields

section

variable (h : c.decodeRecord sourceBytes record = .ok (c', result))
include h

theorem decodeRecord_effect : Effect sourceBytes c record c' result := by
  cases htype : record.recordType with
  | none =>
    simp only [decodeRecord, htype] at h
    cases h
    exact .plain _ _ _ _ _ (by simp [htype]) (.inr fun kind => by simp [htype])
  | some type =>
    cases type <;> simp only [decodeRecord, htype] at h
    case traceBegin =>
      obtain ⟨event, hok, rfl⟩ := map_some_ok h
      simp only [decodeBegin, bind_eq_ok, pure_eq_ok, Prod.mk.injEq] at hok
      obtain ⟨_, -, _, -, _, -, rfl, -⟩ := hok
      exact .begin _ _ _ htype
    case moduleDefinition =>
      obtain ⟨event, hok, rfl⟩ := map_some_ok h
      simp only [decodeModule, bind_eq_ok, pure_eq_ok, Prod.mk.injEq] at hok
      obtain ⟨_, -, _, -, rfl, -⟩ := hok
      exact .plain _ _ _ _ _ (by simp [htype]) (.inr fun kind => by rw [htype]; cases kind <;> decide)
    case instructionDefinition =>
      obtain ⟨event, hok, rfl⟩ := map_some_ok h
      simp only [decodeInstructionDefinition, bind_eq_ok, pure_eq_ok, Prod.mk.injEq] at hok
      obtain ⟨_, -, _, -, rfl, -⟩ := hok
      exact .plain _ _ _ _ _ (by simp [htype]) (.inr fun kind => by rw [htype]; cases kind <;> decide)
    case instruction =>
      obtain ⟨event, hok, rfl⟩ := map_some_ok h
      simp only [decodeInstruction, bind_eq_ok, pure_eq_ok, Prod.mk.injEq] at hok
      obtain ⟨_, -, _, -, _, -, _, -, rfl, -⟩ := hok
      exact .plain _ _ _ _ _ (by simp [htype]) (.inr fun kind => by rw [htype]; cases kind <;> decide)
    case memory =>
      obtain ⟨event, hok, rfl⟩ := map_some_ok h
      obtain ⟨_, -, hok⟩ := bind_eq_ok.mp hok
      obtain ⟨rfl, -⟩ := Prod.mk.inj (pure_eq_ok.mp hok)
      exact .plain _ _ _ _ _ (by simp [htype]) (.inr fun kind => by rw [htype]; cases kind <;> decide)
    case call => exact decodeSemantic_effect h htype
    case rule => exact decodeSemantic_effect h htype
    case error => exact decodeSemantic_effect h htype
    case traceEnd =>
      obtain ⟨event, hok, rfl⟩ := map_some_ok h
      obtain ⟨hlast, rfl⟩ := decodeTerminal_ok (.inl hok)
      exact .terminal _ (.inl htype) hlast
    case traceStop =>
      obtain ⟨event, hok, rfl⟩ := map_some_ok h
      obtain ⟨hlast, rfl⟩ := decodeTerminal_ok (.inr hok)
      exact .terminal _ (.inr htype) hlast

theorem decodeRecord_terminal (htype : record.recordType = some .traceEnd ∨ record.recordType = some .traceStop) :
    c'.terminalSeen = true := by
  rcases htype with htype | htype <;> simp only [decodeRecord, htype] at h <;>
    obtain ⟨event, hok, -⟩ := map_some_ok h
  · rw [(decodeTerminal_ok (.inl hok)).2]
  · rw [(decodeTerminal_ok (.inr hok)).2]

/-- Only a terminal looks at the length of the source. -/
theorem decodeRecord_resize {otherBytes : ℕ} (hsame : c'.terminalSeen = true → otherBytes = sourceBytes) :
    c.decodeRecord otherBytes record = .ok (c', result) := by
  cases htype : record.recordType with
  | none => simpa only [decodeRecord, htype] using h
  | some type =>
    cases type with
    | traceEnd => rwa [hsame (decodeRecord_terminal h (.inl htype))]
    | traceStop => rwa [hsame (decodeRecord_terminal h (.inr htype))]
    | _ => simpa only [decodeRecord, htype] using h

end

theorem payloadLimit_flags {rawType flags limit : ℕ} (h : c.payloadLimit coordinate rawType flags = .ok limit) :
    flags = 0 ∨ flags = chunkFlag ∧ ∃ kind : FragmentKind, RecordType.fromRaw rawType = some kind.recordType := by
  unfold payloadLimit at h
  cases htype : RecordType.fromRaw rawType with
  | none =>
    simp only [htype, Bool.and_eq_true, decide_eq_true_eq] at h
    split_ifs at h with hoptional
    exact .inl hoptional.2
  | some type =>
    rcases flags with _ | _ | flags
    · exact .inl rfl
    · refine .inr ⟨rfl, ?_⟩
      cases type with
      | call => exact ⟨.call, rfl⟩
      | rule => exact ⟨.rule, rfl⟩
      | error => exact ⟨.error, rfl⟩
      | _ => simp [htype, RecordType.payloadLimit] at h
    · cases type <;> simp [htype, RecordType.payloadLimit] at h

theorem nextRecord_ok {source : List UInt8} : c.nextRecord source = .ok (c', result) ↔
    ∃ c₁ record, c.readRecord source = .ok (c₁, record) ∧
      (c.began = true ∨ record.recordType = some .traceBegin) ∧ c₁.interrupted record = false ∧
      c₁.decodeRecord source.length record = .ok (c', result) := by
  simp only [nextRecord, bind_eq_ok, failIf_eq_ok, Prod.exists, Bool.and_eq_false_iff, Bool.not_eq_false',
    decide_eq_false_iff_not, not_not]
  constructor
  · rintro ⟨c₁, record, hread, _, hbegin, _, hfree, hdecode⟩
    obtain ⟨-, -, -, -, rfl, -⟩ := readRecord_ok.mp hread
    exact ⟨_, record, hread, hbegin, hfree, hdecode⟩
  · rintro ⟨c₁, record, hread, hbegin, hfree, hdecode⟩
    obtain ⟨-, -, -, -, rfl, -⟩ := readRecord_ok.mp hread
    exact ⟨_, record, hread, (), hbegin, (), hfree, hdecode⟩

end QtrbEventCursor

/-- A fragment behind which its event goes on. -/
def Frame.unfinished (frame : Frame) : Bool :=
  frame.flags = chunkFlag && chunkIndexOf frame.payload + 1 < chunkCountOf frame.payload

/-- Where the cursor stands behind a record. -/
structure Stands (source : List UInt8) (c c' : QtrbEventCursor) : Prop where
  offset : c'.offset = (frameAt source c.offset).stop
  inside : c'.offset ≤ source.length
  began : c'.began = true
  first : c.began = false → RecordType.fromRaw (frameAt source c.offset).rawType = some .traceBegin
  terminal : c'.terminalSeen = true → c.terminalSeen = true ∨ c'.offset = source.length
  pending : c'.pending.isSome = (frameAt source c.offset).unfinished

namespace QtrbEventCursor

variable {c c' : QtrbEventCursor} {record : PhysicalRecord} {result : Option EventRecord} {source : List UInt8}

/-- A record that is no fragment is only taken while no group is pending. -/
theorem pending_of_flags (hfree : c.interrupted record = false) (hflags : record.flags = 0) : c.pending = none := by
  cases hpending : c.pending with
  | none => rfl
  | some pending => simp [interrupted, hpending, hflags, chunkFlag] at hfree

theorem nextRecord_stands (h : c.nextRecord source = .ok (c', result)) : Stands source c c' := by
  obtain ⟨c₁, record, hread, hbegin, hfree, hdecode⟩ := nextRecord_ok.mp h
  obtain ⟨hlen, ⟨limit, hlimit, -⟩, -, -, rfl, rfl⟩ := readRecord_ok.mp hread
  have heffect := decodeRecord_effect hdecode
  refine ⟨heffect.offset, heffect.offset.trans_le hlen, heffect.began hbegin,
    fun hbegan => hbegin.resolve_left (by simp [hbegan]), ?_, ?_⟩
  · intro hseen
    rw [heffect.offset]
    exact heffect.terminal_last hseen
  · obtain hflags | ⟨hflags, kind, hkind⟩ := payloadLimit_flags hlimit
    · rw [heffect.pending_whole hflags, pending_of_flags hfree hflags]
      simp [Frame.unfinished, hflags, chunkFlag]
    · have hmore := heffect.pending_fragment (by simp [Frame.record, hflags, chunkFlag]) hkind
      rw [Bool.eq_iff_iff, hmore]
      simp [Frame.unfinished, hflags, Frame.record]

end QtrbEventCursor

end QTrace.Qtrb
