import QTrace.Flight.Format
import QTrace.Lib.Bytes

/-! Records of a Flight chunk: the bytes `FlightChunkWriter` puts down for one record,
and `scan_records`, the loop that reads a chunk's extent back. -/

namespace QTrace.Flight

open Lib

/-- `kFlightRecordCommit`. -/
def recordCommit : ℕ := 0x51434d54

/-- `FlightRecordView`. -/
structure RecordView where
  type : RecordType
  flags : UInt16
  payload : List UInt8
  deriving DecidableEq

/-- A record with the sequence number it was given. -/
structure SequencedRecord extends RecordView where
  sequence : ℕ
  deriving DecidableEq

/-- `checked_record_sizes`: the exact and the aligned size of a record. -/
def checkedRecordSizes (payloadSize : ℕ) : Option (ℕ × ℕ) :=
  if payloadSize > uint32Max - recordHeaderBytes then none
  else if recordHeaderBytes + payloadSize > uint32Max - 7 then none
  else some (recordHeaderBytes + payloadSize, (recordHeaderBytes + payloadSize + 7) / 8 * 8)

def RecordView.totalBytes (r : RecordView) : ℕ := recordHeaderBytes + r.payload.length

def RecordView.storageBytes (r : RecordView) : ℕ := (r.totalBytes + 7) / 8 * 8

/-- The word that publishes a record. -/
def commitWord (totalBytes generation : ℕ) : ℕ := recordCommit ^^^ totalBytes ^^^ generation

/-- The first sixteen header bytes, those under the checksum. -/
def SequencedRecord.prefixBytes (r : SequencedRecord) : List UInt8 :=
  leBytes 2 r.type.code ++ leBytes 2 r.flags.toNat ++ leBytes 4 r.totalBytes ++ leBytes 8 r.sequence

/-- `record_checksum`. -/
def SequencedRecord.checksum (r : SequencedRecord) : ℕ := (fnv1a (r.prefixBytes ++ r.payload)).toNat

/-- The stored bytes of a committed record. -/
def SequencedRecord.encode (generation : ℕ) (r : SequencedRecord) : List UInt8 :=
  r.prefixBytes ++ leBytes 4 r.checksum ++ leBytes 4 (commitWord r.totalBytes generation) ++
    r.payload ++ List.replicate (r.storageBytes - r.totalBytes) 0

structure RecordHeader where
  kind : ℕ
  flags : ℕ
  totalBytes : ℕ
  sequence : ℕ
  checksum : ℕ
  commit : ℕ
  deriving DecidableEq

def parseRecordHeader (bytes : List UInt8) : RecordHeader where
  kind := leNat (bytes.take 2)
  flags := leNat ((bytes.drop 2).take 2)
  totalBytes := leNat ((bytes.drop 4).take 4)
  sequence := leNat ((bytes.drop 8).take 8)
  checksum := leNat ((bytes.drop 16).take 4)
  commit := leNat ((bytes.drop 20).take 4)

def validRecordFlags (kind flags : ℕ) : Bool :=
  match kind with
  | 4 => flags = 0 ∨ flags = 1
  | 6 => flags = 0 ∨ flags = 3 ∨ flags = 4
  | 7 => flags = 0 ∨ flags = 4
  | 8 => flags = 0 ∨ flags = 4
  | 9 => flags = 0 ∨ flags = 1
  | _ => 1 ≤ kind ∧ kind ≤ 15 ∧ flags = 0

inductive ScanError where
  | truncatedHeader | commitMismatch | invalidLength | storageOverflow | invalidExtent
  | unknownTypeOrFlags | sequenceOrder | checksumMismatch | nonzeroPadding
  deriving DecidableEq

def ScanError.code : ScanError → String
  | .checksumMismatch => "source.flight.record_checksum"
  | _ => "source.flight.record"

def ScanError.detail : ScanError → String
  | .truncatedHeader => "truncated sealed record header"
  | .commitMismatch => "sealed record commit mismatch"
  | .invalidLength => "invalid committed record length"
  | .storageOverflow => "record storage overflow"
  | .invalidExtent => "invalid committed record extent"
  | .unknownTypeOrFlags => "unknown committed record type or flags"
  | .sequenceOrder => "invalid chunk sequence order"
  | .checksumMismatch => "committed record checksum mismatch"
  | .nonzeroPadding => "nonzero record alignment padding"

/-- A failed scan and the offset it names, relative to the extent. -/
structure ScanFailure where
  error : ScanError
  offset : ℕ
  deriving DecidableEq

/-- One record of a scan, with its offset in the extent. -/
structure ScannedRecord where
  offset : ℕ
  kind : ℕ
  flags : ℕ
  sequence : ℕ
  payload : List UInt8
  deriving DecidableEq

/-- The header at the front of `bytes` carries the commit word of `generation`. -/
def looksCommitted (generation : ℕ) (bytes : List UInt8) : Bool :=
  recordHeaderBytes ≤ bytes.length ∧
    (parseRecordHeader bytes).commit = commitWord (parseRecordHeader bytes).totalBytes generation

/-- The checks on one committed record, in the order of the source. -/
def readRecord (bytes : List UInt8) (offset : ℕ) (last : Option ℕ) :
    Except ScanFailure (ScannedRecord × ℕ) :=
  let record := parseRecordHeader bytes
  let storage := (record.totalBytes + 7) / 8 * 8
  let payload := (bytes.drop recordHeaderBytes).take (record.totalBytes - recordHeaderBytes)
  let padding := (bytes.drop record.totalBytes).take (storage - record.totalBytes)
  if record.totalBytes < recordHeaderBytes then .error ⟨.invalidLength, offset⟩
  else if uint32Max < record.totalBytes + 7 then .error ⟨.storageOverflow, offset⟩
  else if bytes.length < storage then .error ⟨.invalidExtent, offset⟩
  else if validRecordFlags record.kind record.flags = false then .error ⟨.unknownTypeOrFlags, offset⟩
  else if record.sequence = 0 ∨ (∃ s ∈ last, record.sequence ≤ s) then .error ⟨.sequenceOrder, offset⟩
  else if (fnv1a (bytes.take 16 ++ payload)).toNat ≠ record.checksum then
    .error ⟨.checksumMismatch, offset⟩
  else if padding.any (· ≠ 0) then .error ⟨.nonzeroPadding, offset⟩
  else .ok (⟨offset, record.kind, record.flags, record.sequence, payload⟩, storage)

/-- The loop of `scan_records` over what remains of the extent; `active` chunks end at
the first record that is not committed. Every round consumes a whole record, so `fuel`
at the extent's length never runs out, and a loop that ends has read the whole extent:
the source's check for an invalid suffix behind the loop cannot fire. -/
def scanFrom (active : Bool) (generation : ℕ) :
    ℕ → List UInt8 → ℕ → Option ℕ → Except ScanFailure (List ScannedRecord)
  | 0, _, _, _ => .ok []
  | fuel + 1, bytes, offset, last =>
    if bytes = [] then .ok []
    else if bytes.length < recordHeaderBytes then
      if active then .ok [] else .error ⟨.truncatedHeader, offset⟩
    else if looksCommitted generation bytes = false then
      if active then .ok [] else .error ⟨.commitMismatch, offset⟩
    else do
      let (record, storage) ← readRecord bytes offset last
      let rest ← scanFrom active generation fuel (bytes.drop storage) (offset + storage)
        (some record.sequence)
      .ok (record :: rest)

/-- `scan_records` over an extent. -/
def scanRecords (active : Bool) (generation : ℕ) (extent : List UInt8) :
    Except ScanFailure (List ScannedRecord) :=
  scanFrom active generation extent.length extent 0 none

end QTrace.Flight
