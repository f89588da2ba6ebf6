import QTrace.Cache.Faults
import QTrace.Lib.Align
import QTrace.Lib.Chunks
import QTrace.Store.Wire

/-! The pieces of a cache file: the header, the manifest, and the rows of event keys and event
kinds. -/

namespace QTrace.Cache

open Lib
open Analysis (EventKey EventKind)
open Store (SectionName)

def headerBytes : ℕ := 64
def eventKeyBytes : ℕ := 40
def maxManifestBytes : ℕ := 1024 * 1024
def maxSections : ℕ := 64
def maxSectionNameBytes : ℕ := 128
def maxIdentityTextBytes : ℕ := 128
def chunkBytes : ℕ := 64000
def uint64Max : ℕ := 2 ^ 64 - 1

structure CacheIdentity where
  analyzerVersion : String
  artifactDigest : List UInt8
  buildOptionDigest : List UInt8
  cacheSchema : UInt32
  endian : String
  layoutVersion : UInt32
  sourceFeatures : UInt64
  sourceFormat : String
  sourceMajor : UInt16
  sourceMinor : UInt16
  deriving DecidableEq

namespace CacheIdentity

def validate (identity : CacheIdentity) : Except CacheError Unit := do
  failIf (identity.cacheSchema == 0 || identity.layoutVersion == 0)
    (.invalid "cache schema and layout version must be non-zero")
  failIf (identity.endian ≠ "little") (.invalid "only explicit little-endian cache layout is supported")
  failIf (decide (identity.analyzerVersion.utf8ByteSize = 0 ∨
      maxIdentityTextBytes < identity.analyzerVersion.utf8ByteSize ∨ identity.sourceFormat.utf8ByteSize = 0 ∨
      maxIdentityTextBytes < identity.sourceFormat.utf8ByteSize)) (.invalid "cache identity text is empty or too long")

def mismatch (identity expected : CacheIdentity) : Option CacheIdentityField :=
  if identity.analyzerVersion ≠ expected.analyzerVersion then some .analyzerVersion
  else if identity.artifactDigest ≠ expected.artifactDigest then some .artifactDigest
  else if identity.buildOptionDigest ≠ expected.buildOptionDigest then some .buildOptionDigest
  else if identity.cacheSchema ≠ expected.cacheSchema then some .cacheSchema
  else if identity.endian ≠ expected.endian then some .endian
  else if identity.layoutVersion ≠ expected.layoutVersion then some .layoutVersion
  else if identity.sourceFeatures ≠ expected.sourceFeatures then some .sourceFeatures
  else if identity.sourceFormat ≠ expected.sourceFormat then some .sourceFormat
  else if identity.sourceMajor ≠ expected.sourceMajor then some .sourceMajor
  else if identity.sourceMinor ≠ expected.sourceMinor then some .sourceMinor
  else none

/-- Schema two with layout three or four: the file holds a normalized catalog. -/
def catalogued (identity : CacheIdentity) : Bool :=
  identity.cacheSchema == 2 && (identity.layoutVersion == 3 || identity.layoutVersion == 4)

end CacheIdentity

structure SectionDescriptor where
  alignment : ℕ
  checksum : List UInt8
  elementSize : ℕ
  length : ℕ
  name : String
  offset : ℕ
  deriving DecidableEq

structure CacheManifest where
  identity : CacheIdentity
  sections : List SectionDescriptor
  deriving DecidableEq

def CacheManifest.validateShape (manifest : CacheManifest) : Except RebuildReason Unit := do
  failIf (decide (manifest.sections = [] ∨ maxSections < manifest.sections.length)) (.manifest "section count")
  manifest.sections.forM fun s =>
    failIf (decide (s.name.utf8ByteSize = 0 ∨ maxSectionNameBytes < s.name.utf8ByteSize)) (.section "name")

/-- What the cache takes from elsewhere: the digest, the text form of the manifest, and the
decoders of the catalog. -/
structure Codec where
  sha256 : List UInt8 → List UInt8
  length_sha256 : ∀ bytes, (sha256 bytes).length = 32
  encodeManifest : CacheManifest → List UInt8
  decodeManifest : List UInt8 → Option CacheManifest
  decodeManifest_encodeManifest : ∀ manifest, decodeManifest (encodeManifest manifest) = some manifest
  /-- An empty text is no JSON value. -/
  decodeManifest_nil : decodeManifest [] = none
  Event : Type
  Catalog : Type
  decodeEvents : List UInt8 → ℕ → Except Store.IndexError (List Event)
  validateBinarySections : List (SectionName × List UInt8) → List Event → List EventKey → List EventKind → String →
    Except Store.IndexError Catalog

theorem Codec.encodeManifest_ne_nil (codec : Codec) (manifest : CacheManifest) : codec.encodeManifest manifest ≠ [] := by
  intro hnil
  have hdecode := codec.decodeManifest_encodeManifest manifest
  rw [hnil, codec.decodeManifest_nil] at hdecode
  cases hdecode

def eventKeysSection : String := "event_keys.v1"
def eventKindsSection : String := "event_kinds.v1"

/-- The names of the binary sections. -/
def sectionText : SectionName → String
  | .capabilities => "capabilities.v2"
  | .eventMeta => "event_meta.v2"
  | .payloadSpans => "payload_spans.v2"
  | .payloadArena => "payload_arena.v2"
  | .stringSpans => "string_spans.v2"
  | .stringArena => "string_arena.v2"
  | .blobSpans => "blob_spans.v2"
  | .blobArena => "blob_arena.v2"
  | .modules => "modules.v2"
  | .definitions => "definitions.v2"
  | .instructions => "instructions.v2"
  | .memories => "memories.v2"
  | .semantics => "semantics.v2"
  | .sourceCompleteness => "source_completeness.v2"
  | .completeness => "completeness.v2"
  | .registerObservations => "register_observations.v2"
  | .indexMeta => "index_meta.v2"
  | .timelinePostings => "timeline_postings.v2"
  | .tidPostings => "tid_postings.v2"
  | .kindPostings => "kind_postings.v2"
  | .modulePostings => "module_postings.v2"
  | .definitionPostings => "definition_postings.v2"
  | .registerPostings => "register_postings.v2"
  | .semanticCategoryPostings => "semantic_category_postings.v2"
  | .semanticNamePostings => "semantic_name_postings.v2"
  | .callPostings => "call_postings.v2"
  | .returnPostings => "return_postings.v2"
  | .checkpointPostings => "checkpoint_postings.v2"
  | .sequenceIndex => "sequence_index.v2"
  | .modulePcIndex => "module_pc_index.v2"
  | .memoryIntervals => "memory_intervals.v2"
  | .memoryBlockMax => "memory_block_max.v2"
  | .sourceRows => "source_rows.v2"

/-- `EXACT_SECTIONS`, in the order of the file. -/
def exactSections : List SectionName :=
  [.capabilities, .eventMeta, .payloadSpans, .payloadArena, .stringSpans, .stringArena, .blobSpans, .blobArena,
    .modules, .definitions, .instructions, .memories, .semantics, .sourceCompleteness, .completeness,
    .registerObservations, .indexMeta, .timelinePostings, .tidPostings, .kindPostings, .modulePostings,
    .definitionPostings, .registerPostings, .semanticCategoryPostings, .semanticNamePostings, .callPostings,
    .returnPostings, .checkpointPostings, .sequenceIndex, .modulePcIndex, .memoryIntervals, .memoryBlockMax,
    .sourceRows]

/-- `known_section_contract`: alignment and element size. -/
def knownSectionContract (name : String) : Option (ℕ × ℕ) :=
  if name = eventKindsSection then some (1, 1)
  else if name = eventKeysSection then some (8, eventKeyBytes)
  else (exactSections.find? (sectionText · = name)).map SectionName.contract

structure CacheHeader where
  schema : ℕ
  manifestOffset : ℕ
  manifestLength : ℕ
  manifestChecksum : List UInt8
  deriving DecidableEq

namespace CacheHeader

/-- `QTCACHE\0`. -/
def magic : List UInt8 := [0x51, 0x54, 0x43, 0x41, 0x43, 0x48, 0x45, 0x00]

def fields (header : CacheHeader) : List Field :=
  [.u32 header.schema, .u16 headerBytes, .zero 2, .u64 header.manifestOffset, .u64 header.manifestLength]

def encode (header : CacheHeader) : List UInt8 := magic ++ (encodeFields header.fields ++ header.manifestChecksum)

def decode (input : List UInt8) : Except RebuildReason CacheHeader := do
  failIf (window input 0 8 ≠ magic) (.header "magic")
  failIf (leNat (window input 12 2) ≠ headerBytes) (.header "size")
  failIf (window input 14 2 ≠ [0, 0]) (.header "reserved")
  return ⟨leNat (window input 8 4), leNat (window input 16 8), leNat (window input 24 8), window input 32 32⟩

end CacheHeader

/-- Whether the optional fields are there. -/
def keyFlags (key : EventKey) : ℕ := (if key.sequence.isSome then 1 else 0) ||| (if key.tid.isSome then 2 else 0)

def eventKeyFields (key : EventKey) : List Field :=
  [.u64 key.timeline.toNat, .u64 key.recordOrdinal.toNat, .u64 key.sourceOffset.toNat,
    .u64 (key.sequence.getD 0).toNat, .u32 (key.tid.getD 0).toNat, .u8 (keyFlags key), .zero 3]

def encodeEventKey (key : EventKey) : List UInt8 := encodeFields (eventKeyFields key)

def decodeEventKey (input artifact : List UInt8) : Except CacheError EventKey := do
  let flags := leNat (window input 36 1)
  failIf ((input.drop 37).any (· ≠ 0) || decide (flags &&& 252 ≠ 0)) (.access "event key has non-zero reserved bytes")
  let sequence := leNat (window input 24 8)
  let tid := leNat (window input 32 4)
  failIf (decide ((flags &&& 1 = 0 ∧ sequence ≠ 0) ∨ (flags &&& 2 = 0 ∧ tid ≠ 0)))
    (.access "absent optional event-key fields must have zero wire values")
  return ⟨artifact, .ofNat (leNat (window input 0 8)), .ofNat (leNat (window input 8 8)),
    .ofNat (leNat (window input 16 8)), if flags &&& 1 ≠ 0 then some (.ofNat sequence) else none,
    if flags &&& 2 ≠ 0 then some (.ofNat tid) else none⟩

def eventKinds : List EventKind :=
  [.begin, .moduleDefinition, .instructionDefinition, .instruction, .memory, .semanticCall, .semanticRule,
    .semanticError, .threadLifecycle, .syscall, .signal, .signalHandlerBoundary, .termination, .registerCheckpoint,
    .registerDelta, .stringDefinition, .coverageGap, .discontinuity, .opaqueOptional]

/-- The place of a kind in the table of kinds. -/
def encodeEventKind (kind : EventKind) : UInt8 := .ofNat (eventKinds.idxOf kind)

def decodeEventKind (value : UInt8) : Except CacheError EventKind :=
  match eventKinds[value.toNat]? with
  | some kind => .ok kind
  | none => .error (.access "event kind is outside the wire contract")

@[simp] theorem length_encodeEventKey (key : EventKey) : (encodeEventKey key).length = eventKeyBytes := by
  simp [encodeEventKey, eventKeyFields, eventKeyBytes]

theorem keyFlags_lt (key : EventKey) : keyFlags key < 4 := by
  unfold keyFlags
  split_ifs <;> decide

theorem eventKeyFields_fit (key : EventKey) : ∀ field ∈ eventKeyFields key, field.Fits := by
  have htimeline := key.timeline.toNat_lt
  have hordinal := key.recordOrdinal.toNat_lt
  have hoffset := key.sourceOffset.toNat_lt
  have hsequence := (key.sequence.getD 0).toNat_lt
  have htid := (key.tid.getD 0).toNat_lt
  have hflags := keyFlags_lt key
  simp only [eventKeyFields, List.forall_mem_cons, Field.Fits, Field.u8, Field.u32, Field.u64, Field.zero]
  refine ⟨?_, ?_, ?_, ?_, ?_, ?_, ?_, by simp⟩ <;> omega

theorem leNat_window_encodeEventKey (key : EventKey) {offset width value : ℕ}
    (h : fieldAt (eventKeyFields key) offset width = some value) :
    leNat (window (encodeEventKey key) offset width) = value := readField_encodeFields (eventKeyFields_fit key) h

theorem decodeEventKey_encodeEventKey (key : EventKey) :
    decodeEventKey (encodeEventKey key) key.artifact = .ok key := by
  have hflags : leNat (window (encodeEventKey key) 36 1) = keyFlags key :=
    leNat_window_encodeEventKey key rfl
  have hsequence : leNat (window (encodeEventKey key) 24 8) = (key.sequence.getD 0).toNat :=
    leNat_window_encodeEventKey key rfl
  have htid : leNat (window (encodeEventKey key) 32 4) = (key.tid.getD 0).toNat :=
    leNat_window_encodeEventKey key rfl
  have htimeline : leNat (window (encodeEventKey key) 0 8) = key.timeline.toNat :=
    leNat_window_encodeEventKey key rfl
  have hordinal : leNat (window (encodeEventKey key) 8 8) = key.recordOrdinal.toNat :=
    leNat_window_encodeEventKey key rfl
  have hoffset : leNat (window (encodeEventKey key) 16 8) = key.sourceOffset.toNat :=
    leNat_window_encodeEventKey key rfl
  have hreserved : (encodeEventKey key).drop 37 = [0, 0, 0] := rfl
  obtain ⟨artifact, timeline, ordinal, offset, sequence, tid⟩ := key
  simp only [decodeEventKey, hflags, hsequence, htid, htimeline, hordinal, hoffset, hreserved]
  cases sequence <;> cases tid <;> simp [keyFlags, failIf, bind, Except.bind, pure, Except.pure]

theorem decodeEventKind_encodeEventKind (kind : EventKind) : decodeEventKind (encodeEventKind kind) = .ok kind := by
  cases kind <;> rfl

namespace CacheHeader

@[simp] theorem length_encode {header : CacheHeader} (h : header.manifestChecksum.length = 32) :
    header.encode.length = headerBytes := by
  simp [encode, fields, magic, headerBytes, h]

theorem decode_encode {header : CacheHeader} (hchecksum : header.manifestChecksum.length = 32)
    (hschema : header.schema < 2 ^ 32) (hoffset : header.manifestOffset < 2 ^ 64)
    (hlength : header.manifestLength < 2 ^ 64) : decode header.encode = .ok header := by
  have hfits : ∀ field ∈ header.fields, field.Fits := by
    simp only [fields, List.forall_mem_cons, Field.Fits, Field.u16, Field.u32, Field.u64, Field.zero, headerBytes]
    refine ⟨?_, ?_, ?_, ?_, ?_, by simp⟩ <;> omega
  have hfield : ∀ offset width value : ℕ, fieldAt header.fields offset width = some value → offset + width ≤ 24 →
      leNat (window header.encode (8 + offset) width) = value := by
    intro offset width value hat hle
    rw [encode, show 8 + offset = magic.length + offset from rfl, window_append_right, window_append_left]
    · exact readField_encodeFields hfits hat
    · simpa [fields] using hle
  have hmagic : window header.encode 0 8 = magic := rfl
  have hreserved : window header.encode 14 2 = [0, 0] := rfl
  have hsum : window header.encode 32 32 = header.manifestChecksum := by
    rw [encode, show 32 = magic.length + 24 from rfl, window_append_right,
      show 24 = (encodeFields header.fields).length + 0 by simp [fields], window_append_right, window, List.drop_zero]
    exact List.take_of_length_le hchecksum.le
  have hschemaField := hfield 0 4 header.schema rfl (by decide)
  have hsizeField := hfield 4 2 headerBytes rfl (by decide)
  have hoffsetField := hfield 8 8 header.manifestOffset rfl (by decide)
  have hlengthField := hfield 16 8 header.manifestLength rfl (by decide)
  simp only [decode, hmagic, hreserved, hsum, hschemaField, hsizeField, hoffsetField, hlengthField]
  simp [failIf, bind, Except.bind, pure, Except.pure]

end CacheHeader

end QTrace.Cache
