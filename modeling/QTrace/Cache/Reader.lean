import QTrace.Cache.Format

/-! Validation of a cache file, `validate_file`. With two workers the source reads keys beside
metadata and checksums beside the catalog and still looks at the results in the order below. -/

namespace QTrace.Cache

open Lib
open Analysis (EventKey EventKind)
open Store (SectionName)

/-- An error that is no verdict on the file. -/
def fatal {α : Type} (x : Except CacheError α) : Except ValidationFailure α := x.mapError .fatal

/-- A file that has to be built again. -/
def rebuild {α : Type} (x : Except RebuildReason α) : Except ValidationFailure α := x.mapError .rebuild

/-- Any error of a decoder, as a file that has to be built again. -/
def orRebuild {α : Type} (x : Except CacheError α) (detail : String) : Except ValidationFailure α :=
  x.mapError fun _ => .rebuild (.section detail)

/-- `IndexError`, as far as the reader looks at it. -/
inductive IndexFailure
  | index (error : Store.IndexError)
  | cache (error : CacheError)

namespace IndexFailure

def code : IndexFailure → String
  | index error => error.code
  | cache error => error.code

def operationAbort : IndexFailure → Option OperationAbort
  | index _ => none
  | cache error => error.operationAbort

def display : IndexFailure → String
  | index error =>
    let code := error.code
    let detail := error.detail
    s!"{code}: {detail}"
  | cache error => error.display

end IndexFailure

/-- The code of an error of control, not of content. -/
def isControl (code : String) : Bool := "control.".toList.isPrefixOf code.toList

def normalizedValidationFailure (e : IndexFailure) : ValidationFailure :=
  match e.operationAbort with
  | some abort => .fatal (.ofAbort abort)
  | none => if isControl e.code then .fatal (.resource e.display) else .rebuild (.section "normalized payload")

/-- `read_exact_at`. Nothing is read where nothing is asked for. -/
def readExactAt (faults : Faults) (site : Site) (file : List UInt8) (offset count : ℕ) :
    Except CacheError (List UInt8) := do
  work faults site
  if count ≠ 0 then
    system faults site "cannot read cache bytes"
    failIf (decide (file.length < offset + count)) (.access "cache became shorter during read")
  return window file offset count

/-- The manifest that a header points to. -/
def readManifest (faults : Faults) (codec : Codec) (sites : Site × Site × Site) (file : List UInt8)
    (header : CacheHeader) : Except ValidationFailure (List UInt8 × CacheManifest) := do
  fatal (work faults sites.1)
  let bytes ← fatal (readExactAt faults sites.2.1 file header.manifestOffset header.manifestLength)
  failIf (codec.sha256 bytes ≠ header.manifestChecksum) (.rebuild (.manifest "checksum"))
  fatal (work faults sites.2.2)
  match codec.decodeManifest bytes with
  | none => throw (.rebuild (.manifest "json"))
  | some manifest => return (bytes, manifest)

def canonicalManifestJson (faults : Faults) (codec : Codec) (site : Site) (manifest : CacheManifest) :
    Except CacheError (List UInt8) := do
  failIf (decide (maxManifestBytes < (codec.encodeManifest manifest).length))
    (.invalid "cache manifest exceeds its byte limit")
  work faults site
  return codec.encodeManifest manifest

/-- The alignment and the element size of a section that has them fixed. -/
def checkKnownSection (s : SectionDescriptor) : Except RebuildReason Unit :=
  let isEvents := s.name = eventKeysSection ∨ s.name = eventKindsSection
  match knownSectionContract s.name with
  | none => .ok ()
  | some (alignment, elementSize) => do
    failIf (decide (s.alignment ≠ alignment))
      (.section (if isEvents then "known alignment" else "known section contract"))
    failIf (decide (s.elementSize ≠ elementSize))
      (.section (if isEvents then "known element size" else "known section contract"))

/-- What a section must be, given the sections before it. The result is its end. -/
def checkSection (before : List SectionDescriptor) (s : SectionDescriptor) (previousEnd manifestOffset : ℕ) :
    Except RebuildReason ℕ := do
  failIf (before.any (·.name = s.name)) (.section "duplicate name")
  failIf (decide (isPowerOfTwo s.alignment = false ∨ 4096 < s.alignment)) (.section "alignment")
  failIf (decide (s.offset % s.alignment ≠ 0)) (.section "misaligned offset")
  failIf (decide (s.elementSize = 0 ∨ s.length % s.elementSize ≠ 0)) (.section "element size")
  checkKnownSection s
  failIf (decide (uint64Max < s.offset + s.length)) (.section "range overflow")
  failIf (decide (s.offset < previousEnd ∨ manifestOffset < s.offset + s.length)) (.section "range")
  return s.offset + s.length

/-- The loop of `validate_section_layout`. -/
def validateSectionLayout (manifestOffset : ℕ) (before : List SectionDescriptor) (previousEnd : ℕ) :
    List SectionDescriptor → Except RebuildReason Unit
  | [] => return
  | s :: rest => do
    let next ← checkSection before s previousEnd manifestOffset
    validateSectionLayout manifestOffset (before ++ [s]) next rest

def validateZeroPadding (faults : Faults) (file : List UInt8) (ordinal start stop : ℕ) :
    Except ValidationFailure Unit := do
  failIf (decide (stop < start)) (.rebuild (.section "range"))
  (spans chunkBytes (stop - start)).forM fun span => do
    let bytes ← fatal (readExactAt faults (.padding ordinal span.index) file (start + span.start) span.count)
    failIf (bytes.any (· ≠ 0)) (.rebuild (.section "padding"))

def validateKnownPayload (name : String) (bytes : List UInt8) (identity : CacheIdentity) :
    Except ValidationFailure Unit :=
  if name = eventKindsSection then
    bytes.forM fun value => discard (orRebuild (decodeEventKind value) "payload")
  else if name = eventKeysSection then do
    (List.range (bytes.length / eventKeyBytes)).forM fun row =>
      discard (orRebuild (decodeEventKey (window bytes (row * eventKeyBytes) eventKeyBytes) identity.artifactDigest)
        "payload")
    failIf (decide (bytes.length % eventKeyBytes ≠ 0)) (.rebuild (.section "payload"))
  else .ok ()

def checksumSection (faults : Faults) (codec : Codec) (file : List UInt8) (ordinal : ℕ) (s : SectionDescriptor)
    (identity : CacheIdentity) : Except ValidationFailure Unit := do
  let read ← (spans chunkBytes s.length).foldlM (fun (read : List UInt8) span => do
    let bytes ← fatal (readExactAt faults (.payload ordinal span.index) file (s.offset + span.start) span.count)
    validateKnownPayload s.name bytes identity
    return read ++ bytes) []
  failIf (codec.sha256 read ≠ s.checksum) (.rebuild (.section "checksum"))

/-- The loop of `validate_sections`. -/
def validateSections (faults : Faults) (codec : Codec) (file : List UInt8) (identity : CacheIdentity)
    (manifestOffset : ℕ) (before : List SectionDescriptor) (previousEnd : ℕ) :
    List SectionDescriptor → Except ValidationFailure Unit
  | [] => validateZeroPadding faults file before.length previousEnd manifestOffset
  | s :: rest => do
    fatal (work faults (.sectionWork before.length))
    let next ← rebuild (checkSection before s previousEnd manifestOffset)
    validateZeroPadding faults file before.length previousEnd s.offset
    checksumSection faults codec file before.length s identity
    validateSections faults codec file identity manifestOffset (before ++ [s]) next rest

structure EventRows where
  eventCount : ℕ
  eventKeysOffset : ℕ
  eventKindsOffset : ℕ
  deriving DecidableEq

/-- The first half of `prepare_sections`: where the event rows are. -/
def prepareRows (manifest : CacheManifest) : Except RebuildReason EventRows := do
  match manifest.sections.find? (·.name = eventKeysSection), manifest.sections.find? (·.name = eventKindsSection) with
  | none, _ => throw (.section "missing event keys")
  | some _, none => throw (.section "missing event kinds")
  | some keys, some kinds =>
    failIf (decide (keys.elementSize ≠ eventKeyBytes ∨ kinds.elementSize ≠ 1)) (.section "known element size")
    failIf (decide (keys.alignment ≠ 8 ∨ kinds.alignment ≠ 1)) (.section "known alignment")
    failIf (decide (keys.length / keys.elementSize ≠ kinds.length)) (.section "event count")
    return ⟨keys.length / keys.elementSize, keys.offset, kinds.offset⟩

def rowsPerRead : ℕ := 4096

/-- One piece of `read_event_rows`. -/
def readRowsPiece (faults : Faults) (file : List UInt8) (rows : EventRows) (identity : CacheIdentity) (span : Span) :
    Except ValidationFailure (List EventKey × List EventKind) := do
  fatal (work faults (.rowsPiece span.index))
  let keyBytes ← fatal (readExactAt faults (.keys span.index) file
    (rows.eventKeysOffset + span.start * eventKeyBytes) (span.count * eventKeyBytes))
  let kindBytes ← fatal (readExactAt faults (.kinds span.index) file (rows.eventKindsOffset + span.start) span.count)
  let keys ← (List.range span.count).mapM fun row =>
    orRebuild (decodeEventKey (window keyBytes (row * eventKeyBytes) eventKeyBytes) identity.artifactDigest) "payload"
  let kinds ← kindBytes.mapM fun value => orRebuild (decodeEventKind value) "payload"
  return (keys, kinds)

def readEventRows (faults : Faults) (file : List UInt8) (rows : EventRows) (identity : CacheIdentity) :
    Except ValidationFailure (List EventKey × List EventKind) := do
  fatal (work faults .rowsWork)
  let pieces ← (spans rowsPerRead rows.eventCount).mapM (readRowsPiece faults file rows identity)
  return (pieces.flatMap Prod.fst, pieces.flatMap Prod.snd)

def eventMetaRowBytes : ℕ := 24

def streamEventMeta (faults : Faults) (codec : Codec) (file : List UInt8) (offset eventCount : ℕ) :
    Except IndexFailure (List codec.Event) := do
  (work faults .metaWork).mapError .cache
  let pieces ← (spans rowsPerRead eventCount).mapM fun span => do
    let bytes ← (readExactAt faults (.metaRead span.index) file (offset + span.start * eventMetaRowBytes)
      (span.count * eventMetaRowBytes)).mapError .cache
    (work faults (.metaDecode span.index)).mapError .cache
    (codec.decodeEvents bytes span.count).mapError .index
  return pieces.flatten

structure PreparedCatalog (codec : Codec) where
  keys : List EventKey
  kinds : List EventKind
  events : List codec.Event

/-- The second half of `prepare_sections`, for a file with a catalog. -/
def prepareCatalog (faults : Faults) (codec : Codec) (file : List UInt8) (manifest : CacheManifest)
    (expected : CacheIdentity) (rows : EventRows) : Except ValidationFailure (PreparedCatalog codec) := do
  fatal (work faults .namesWork)
  failIf (manifest.sections.map SectionDescriptor.name ≠
    eventKindsSection :: eventKeysSection :: exactSections.map sectionText)
    (.rebuild (.section "schema-two exact section set"))
  match manifest.sections.find? (·.name = sectionText .eventMeta) with
  | none => throw (.rebuild (.section "missing event metadata"))
  | some eventMeta =>
    failIf (decide (uint64Max < rows.eventCount * eventMetaRowBytes))
      (.rebuild (.section "event metadata length overflow"))
    failIf (decide (eventMeta.length ≠ rows.eventCount * eventMetaRowBytes))
      (.rebuild (.section "event metadata length"))
    let (keys, kinds) ← readEventRows faults file rows expected
    let events ← (streamEventMeta faults codec file eventMeta.offset rows.eventCount).mapError
      normalizedValidationFailure
    return ⟨keys, kinds, events⟩

/-- One binary section of `decode_sections`. -/
def readBinarySection (faults : Faults) (file : List UInt8) (manifest : CacheManifest) (eventCount : ℕ)
    (name : SectionName) : Except ValidationFailure (SectionName × List UInt8) := do
  let ordinal := exactSections.idxOf name
  fatal (work faults (.binaryWork ordinal))
  match manifest.sections.find? (·.name = sectionText name) with
  | none => throw (.rebuild (.section "schema-two exact section set"))
  | some s =>
    let maximum ← (Store.maxLength name eventCount).mapError fun e => normalizedValidationFailure (.index e)
    failIf (decide (maximum < s.length)) (.rebuild (.section "binary section length bound"))
    let bytes ← fatal (readExactAt faults (.binary ordinal) file s.offset s.length)
    return (name, bytes)

/-- `decode_sections`, for a file with a catalog. -/
def decodeCatalog (faults : Faults) (codec : Codec) (file : List UInt8) (manifest : CacheManifest)
    (expected : CacheIdentity) (eventCount : ℕ) (prepared : PreparedCatalog codec) :
    Except ValidationFailure codec.Catalog := do
  let binary ← (exactSections.filter (· ≠ .eventMeta)).mapM (readBinarySection faults file manifest eventCount)
  (work faults .catalogWork).mapError fun e => normalizedValidationFailure (.cache e)
  (codec.validateBinarySections binary prepared.events prepared.keys prepared.kinds expected.sourceFormat).mapError
    fun e => normalizedValidationFailure (.index e)

/-- The catalog of a file that has one. -/
def readCatalog (faults : Faults) (codec : Codec) (file : List UInt8) (manifest : CacheManifest)
    (expected : CacheIdentity) (rows : EventRows) : Except ValidationFailure (Option codec.Catalog) :=
  if expected.catalogued then do
    let prepared ← prepareCatalog faults codec file manifest expected rows
    let catalog ← decodeCatalog faults codec file manifest expected rows.eventCount prepared
    return some catalog
  else return none

/-- The header of a file, read at the given sites. -/
def readHeader (faults : Faults) (sites : Site × Site) (file : List UInt8) (context : String) :
    Except ValidationFailure CacheHeader := do
  fatal (system faults sites.1 context)
  failIf (decide (file.length < headerBytes)) (.rebuild (.header "truncated"))
  let bytes ← fatal (readExactAt faults sites.2 file 0 headerBytes)
  rebuild (CacheHeader.decode bytes)

/-- The first part of `validate_file`: header, manifest and the layout of the sections. -/
def validateContainer (faults : Faults) (codec : Codec) (file : List UInt8) (expected : CacheIdentity) :
    Except ValidationFailure (CacheHeader × CacheManifest) := do
  let header ← readHeader faults (.stat, .header) file "cannot stat cache"
  failIf (decide (header.schema ≠ expected.cacheSchema.toNat)) (.rebuild (.header "schema"))
  failIf (decide (uint64Max < header.manifestOffset + header.manifestLength))
    (.rebuild (.manifest "range overflow"))
  failIf (decide (header.manifestOffset < headerBytes ∨ header.manifestLength = 0 ∨
      maxManifestBytes < header.manifestLength ∨ header.manifestOffset + header.manifestLength ≠ file.length))
    (.rebuild (.manifest "range"))
  let (bytes, manifest) ← readManifest faults codec (.manifestWork, .manifest, .manifestDecode) file header
  let canonical ← fatal (canonicalManifestJson faults codec .canonicalWork manifest)
  failIf (canonical ≠ bytes) (.rebuild (.manifest "canonical JSON"))
  match manifest.identity.mismatch expected with
  | some field => throw (.rebuild (.identityMismatch field))
  | none =>
    rebuild manifest.validateShape
    rebuild (validateSectionLayout header.manifestOffset [] headerBytes manifest.sections)
    return (header, manifest)

structure MappedStoreView (codec : Codec) where
  file : List UInt8
  rows : EventRows
  artifactDigest : List UInt8
  validatedCatalog : Option codec.Catalog

def validateFile (faults : Faults) (codec : Codec) (file : List UInt8) (expected : CacheIdentity) :
    Except ValidationFailure (MappedStoreView codec) := do
  let (header, manifest) ← validateContainer faults codec file expected
  validateSections faults codec file manifest.identity header.manifestOffset [] headerBytes manifest.sections
  let rows ← rebuild (prepareRows manifest)
  let catalog ← readCatalog faults codec file manifest expected rows
  fatal (system faults .verifyDirectory "cache directory binding changed")
  fatal (system faults .restat "cannot restat cache")
  fatal (work faults .viewWork)
  return ⟨file, rows, expected.artifactDigest, catalog⟩

namespace MappedStoreView

variable {codec : Codec} (view : MappedStoreView codec)

def checkedRead (offset count : ℕ) : Except CacheError (List UInt8) := readExactAt noFaults .stat view.file offset count

def eventKey (row : ℕ) : Except CacheError EventKey := do
  failIf (decide (view.rows.eventCount ≤ row)) (.access "event row is out of range")
  failIf (decide (uint64Max < row * eventKeyBytes ∨ uint64Max < view.rows.eventKeysOffset + row * eventKeyBytes))
    (.access "event key offset overflow")
  let bytes ← view.checkedRead (view.rows.eventKeysOffset + row * eventKeyBytes) eventKeyBytes
  decodeEventKey bytes view.artifactDigest

def eventKind (row : ℕ) : Except CacheError EventKind := do
  failIf (decide (view.rows.eventCount ≤ row)) (.access "event row is out of range")
  failIf (decide (uint64Max < view.rows.eventKindsOffset + row)) (.access "event kind offset overflow")
  let bytes ← view.checkedRead (view.rows.eventKindsOffset + row) 1
  match bytes with
  | value :: _ => decodeEventKind value
  | [] => .error (.access "cache became shorter during read")

end MappedStoreView

end QTrace.Cache
