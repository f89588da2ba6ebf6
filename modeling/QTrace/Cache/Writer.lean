import QTrace.Cache.Reader

/-! The bytes of a new cache file: a blank header, the sections with zeros between them, the
manifest, and the header in the place of the blank one. The writer is a fold over the bytes
written so far; a file cannot grow beyond the largest offset. -/

namespace QTrace.Cache

open Lib
open Analysis (EventKey EventKind)

structure OwnedSection where
  name : String
  alignment : ℕ
  elementSize : ℕ
  data : List UInt8
  deriving DecidableEq

/-- `OwnedStoreView`: keys and kinds in equal number, and further sections. -/
structure OwnedStoreView where
  keys : List EventKey
  kinds : List EventKind
  extraSections : List OwnedSection
  same_length : keys.length = kinds.length

/-- The largest size of a file. -/
def maxFileBytes : ℕ := 2 ^ 63 - 1

/-- `EFBIG`. -/
def fileTooLarge : Errno := ⟨27, "File too large (os error 27)"⟩

/-- `write_part`, at the end of what is written. -/
def writePart (faults : Faults) (site : Site) (written bytes : List UInt8) : Except CacheError (List UInt8) := do
  work faults site
  system faults site "cannot write cache temp"
  failIf (decide (maxFileBytes < written.length + bytes.length)) (mapErrno "cannot write cache temp" fileTooLarge)
  return written ++ bytes

def checkedAdd (left right : ℕ) (detail : String) : Except CacheError ℕ :=
  if uint64Max < left + right then .error (.invalid detail) else .ok (left + right)

/-- `align_up`. -/
def alignUp64 (value alignment : ℕ) : Except CacheError ℕ :=
  if alignment = 0 then .error (.invalid "zero cache alignment")
  else
    let mask := alignment - 1
    if uint64Max < value + mask then .error (.invalid "cache alignment overflow")
    else .ok ((value + mask) &&& (uint64Max - mask))

/-- The pieces of a section, one after the other. -/
def writeChunks (faults : Faults) (site : ℕ → Site) (written bytes : List UInt8) : Except CacheError (List UInt8) :=
  (spans chunkBytes bytes.length).foldlM
    (fun written span => writePart faults (site span.index) written (window bytes span.start span.count)) written

/-- The rows of a piece of keys, if they belong to the artifact. -/
def encodeKeys (identity : CacheIdentity) (keys : List EventKey) : Except CacheError (List UInt8) := do
  failIf (keys.any (·.artifact ≠ identity.artifactDigest))
    (.invalid "event key artifact digest differs from cache identity")
  return keys.flatMap encodeEventKey

def writeKeys (faults : Faults) (identity : CacheIdentity) (written : List UInt8) (keys : List EventKey) :
    Except CacheError (List UInt8) :=
  (spans (chunkBytes / eventKeyBytes) keys.length).foldlM (fun written span => do
    work faults (.writeKeys span.index)
    let bytes ← encodeKeys identity (window keys span.start span.count)
    writePart faults (.writeKeys span.index) written bytes) written

/-- The zeros in front of an extra section, if there are any. -/
def writePadding (faults : Faults) (ordinal : ℕ) (written : List UInt8) (count : ℕ) : Except CacheError (List UInt8) :=
  if count = 0 then .ok written else writePart faults (.writePadding ordinal) written (List.replicate count 0)

/-- One extra section: padding, data and descriptor. -/
def writeExtra (faults : Faults) (codec : Codec) (state : List UInt8 × List SectionDescriptor × ℕ)
    (s : OwnedSection) : Except CacheError (List UInt8 × List SectionDescriptor × ℕ) := do
  let (written, sections, nextOffset) := state
  work faults (.descriptorWork sections.length)
  let offset ← alignUp64 nextOffset s.alignment
  let written ← writePadding faults sections.length written (offset - nextOffset)
  let written ← writeChunks faults (.writeSection sections.length) written s.data
  let nextOffset ← checkedAdd offset s.data.length "extra-section range overflow"
  return (written, sections ++ [⟨s.alignment, codec.sha256 s.data, s.elementSize, s.data.length, s.name, offset⟩],
    nextOffset)

/-- `write_sections`: the bytes written, the descriptors and the offset behind the sections. -/
def writeSections (faults : Faults) (codec : Codec) (identity : CacheIdentity) (store : OwnedStoreView)
    (written : List UInt8) : Except CacheError (List UInt8 × List SectionDescriptor × ℕ) := do
  let kinds := store.kinds.map encodeEventKind
  let written ← writeChunks faults .writeKinds written kinds
  let kindsEnd ← checkedAdd headerBytes kinds.length "event-kind section range overflow"
  let keysOffset ← alignUp64 kindsEnd 8
  let written ← writePart faults (.writePadding 1) written (List.replicate (keysOffset - kindsEnd) 0)
  let written ← writeKeys faults identity written store.keys
  failIf (decide (uint64Max < store.keys.length * eventKeyBytes)) (.invalid "event-key section length overflow")
  let nextOffset ← checkedAdd keysOffset (store.keys.length * eventKeyBytes) "manifest offset overflow"
  let sections : List SectionDescriptor :=
    [⟨1, codec.sha256 kinds, 1, kinds.length, eventKindsSection, headerBytes⟩,
      ⟨8, codec.sha256 (store.keys.flatMap encodeEventKey), eventKeyBytes, store.keys.length * eventKeyBytes,
        eventKeysSection, keysOffset⟩]
  store.extraSections.foldlM (writeExtra faults codec) (written, sections, nextOffset)

/-- The file that `publish_locked` writes before it looks at the directory. -/
def writeFile (faults : Faults) (codec : Codec) (identity : CacheIdentity) (store : OwnedStoreView) :
    Except CacheError (List UInt8) := do
  let written ← writePart faults .writeHeader [] (List.replicate headerBytes 0)
  let (written, sections, manifestOffset) ← writeSections faults codec identity store written
  let manifestBytes ← canonicalManifestJson faults codec .writeManifestWork ⟨identity, sections⟩
  let written ← writePart faults .writeManifest written manifestBytes
  let header : CacheHeader :=
    ⟨identity.cacheSchema.toNat, manifestOffset, manifestBytes.length, codec.sha256 manifestBytes⟩
  work faults .rewriteWork
  system faults .seek "cannot seek cache temp"
  work faults .rewriteHeader
  system faults .rewriteHeader "cannot write cache temp"
  let written := overwrite written 0 header.encode
  work faults .syncWork
  system faults .syncTemporary "cannot fsync cache temp"
  return written

end QTrace.Cache
