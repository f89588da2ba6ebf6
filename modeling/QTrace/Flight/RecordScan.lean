import QTrace.Flight.Record

/-! Scanning what the writer stored. A stored record reads back as itself, so a scan
of committed records followed by anything else is the records and then the scan of
what follows. For an active chunk the scan is exact just when the bytes behind the
last record do not look committed. -/

namespace QTrace.Flight

open Lib

/-- The sizes and the sequence number the writer's checks let through. -/
structure SequencedRecord.Fits (r : SequencedRecord) : Prop where
  total_le : r.totalBytes + 7 ≤ uint32Max
  sequence_pos : 0 < r.sequence
  sequence_lt : r.sequence < 2 ^ 64

/-- The record as a scan reports it. -/
def SequencedRecord.scanned (r : SequencedRecord) (offset : ℕ) : ScannedRecord :=
  ⟨offset, r.type.code, r.flags.toNat, r.sequence, r.payload⟩

/-- The reader knows this combination of type and flags. -/
def RecordView.flagsKnown (r : RecordView) : Bool := validRecordFlags r.type.code r.flags.toNat

variable {r : SequencedRecord} {generation : ℕ} {last : Option ℕ}

theorem RecordType.code_lt (t : RecordType) : t.code < 256 ^ 2 := by cases t <;> decide

theorem RecordView.totalBytes_le_storageBytes (r : RecordView) : r.totalBytes ≤ r.storageBytes := by
  unfold RecordView.storageBytes; omega

theorem RecordView.headerBytes_le_totalBytes (r : RecordView) : recordHeaderBytes ≤ r.totalBytes := by
  unfold RecordView.totalBytes; omega

theorem length_prefixBytes (r : SequencedRecord) : r.prefixBytes.length = 16 := by
  simp [SequencedRecord.prefixBytes]

theorem length_encode (r : SequencedRecord) (generation : ℕ) :
    (r.encode generation).length = r.storageBytes := by
  have := r.totalBytes_le_storageBytes
  simp only [SequencedRecord.encode, List.length_append, length_prefixBytes, length_leBytes,
    List.length_replicate, RecordView.totalBytes, recordHeaderBytes] at this ⊢
  omega

theorem commitWord_lt {totalBytes : ℕ} (ht : totalBytes < 2 ^ 32) (hg : generation < 2 ^ 32) :
    commitWord totalBytes generation < 256 ^ 4 :=
  Nat.xor_lt_two_pow (n := 32) (Nat.xor_lt_two_pow (n := 32) (by decide) ht) hg

section

variable (h : r.Fits) (hg : generation < 2 ^ 32) (rest : List UInt8)
include h hg

theorem parseRecordHeader_encode :
    parseRecordHeader (r.encode generation ++ rest) =
      ⟨r.type.code, r.flags.toNat, r.totalBytes, r.sequence, r.checksum,
        commitWord r.totalBytes generation⟩ := by
  have ht : r.totalBytes < 2 ^ 32 := by have := h.total_le; unfold uint32Max at this; omega
  have hsum : r.checksum < 256 ^ 4 := (fnv1a (r.prefixBytes ++ r.payload)).toNat_lt
  simp only [parseRecordHeader, SequencedRecord.encode, SequencedRecord.prefixBytes]
  simp only [List.append_assoc, List.drop_append, List.take_append, length_leBytes]
  simp [leNat_leBytes_of_lt r.type.code_lt, leNat_leBytes_of_lt (w := 2) r.flags.toNat_lt,
    leNat_leBytes_of_lt (w := 4) ht, leNat_leBytes_of_lt (w := 8) h.sequence_lt,
    leNat_leBytes_of_lt hsum, leNat_leBytes_of_lt (commitWord_lt ht hg)]

theorem looksCommitted_encode : looksCommitted generation (r.encode generation ++ rest) = true := by
  have hlen := r.headerBytes_le_totalBytes
  have hle := r.totalBytes_le_storageBytes
  simp only [looksCommitted, parseRecordHeader_encode h hg, List.length_append, length_encode,
    and_true, decide_eq_true_eq]
  omega

/-- A stored record with known flags reads back; one with unknown flags is refused. -/
theorem readRecord_encode (offset : ℕ) (hlast : ∀ s ∈ last, s < r.sequence) :
    readRecord (r.encode generation ++ rest) offset last =
      if r.flagsKnown then .ok (r.scanned offset, r.storageBytes)
      else .error ⟨.unknownTypeOrFlags, offset⟩ := by
  have hlen := r.headerBytes_le_totalBytes
  have hle := r.totalBytes_le_storageBytes
  have ht := h.total_le
  have hs := h.sequence_pos
  have hstorage : (r.totalBytes + 7) / 8 * 8 = r.storageBytes := rfl
  have hpayload : ((r.encode generation ++ rest).drop recordHeaderBytes).take
      (r.totalBytes - recordHeaderBytes) = r.payload := by
    simp only [SequencedRecord.encode, SequencedRecord.prefixBytes, recordHeaderBytes,
      RecordView.totalBytes, List.append_assoc, List.drop_append, List.take_append, length_leBytes]
    simp
  have hhead : (r.encode generation ++ rest).take 16 = r.prefixBytes := by
    simp only [SequencedRecord.encode, List.append_assoc, List.take_append, length_prefixBytes]
    simp [List.take_of_length_le, length_prefixBytes]
  have hpadding : ((r.encode generation ++ rest).drop r.totalBytes).take (r.storageBytes - r.totalBytes) =
      List.replicate (r.storageBytes - r.totalBytes) 0 := by
    have hsplit : r.encode generation ++ rest = (r.prefixBytes ++ leBytes 4 r.checksum ++
        leBytes 4 (commitWord r.totalBytes generation) ++ r.payload) ++
          (List.replicate (r.storageBytes - r.totalBytes) 0 ++ rest) := by
      simp [SequencedRecord.encode]
    have hl : (r.prefixBytes ++ leBytes 4 r.checksum ++ leBytes 4 (commitWord r.totalBytes generation) ++
        r.payload).length = r.totalBytes := by
      simp only [List.length_append, length_prefixBytes, length_leBytes, RecordView.totalBytes,
        recordHeaderBytes]
    rw [hsplit, List.drop_left' hl, List.take_left' (by simp)]
  unfold readRecord
  simp only [parseRecordHeader_encode h hg, hstorage, hpayload, hhead, hpadding]
  rw [if_neg (by omega), if_neg (by omega), if_neg (by simp [length_encode])]
  by_cases hflags : r.flagsKnown = true
  · have hknown : validRecordFlags r.type.code r.flags.toNat = true := hflags
    rw [if_neg (by simp [hknown]), if_neg, if_neg, if_neg, if_pos hflags]
    · rfl
    · simp
    · simp [SequencedRecord.checksum]
    · rintro (h0 | ⟨s, hs', hle'⟩)
      · omega
      · exact absurd (hlast s hs') (by omega)
  · have hunknown : validRecordFlags r.type.code r.flags.toNat = false := by
      simpa [RecordView.flagsKnown] using hflags
    rw [if_pos hunknown, if_neg hflags]

end

/-- The stored bytes of consecutive records. -/
def encodeAll (generation : ℕ) (records : List SequencedRecord) : List UInt8 :=
  records.flatMap (SequencedRecord.encode generation)

/-- What a scan reports for consecutive records from `offset` on. -/
def scannedFrom : ℕ → List SequencedRecord → List ScannedRecord
  | _, [] => []
  | offset, r :: records => r.scanned offset :: scannedFrom (offset + r.storageBytes) records

/-- The records fit and their sequence numbers rise, from above `last`. -/
def Ascending : Option ℕ → List SequencedRecord → Prop
  | _, [] => True
  | last, r :: records => r.Fits ∧ (∀ s ∈ last, s < r.sequence) ∧ Ascending (some r.sequence) records

theorem encode_ne_nil (r : SequencedRecord) (generation : ℕ) (rest : List UInt8) :
    r.encode generation ++ rest ≠ [] := by
  intro h
  have hlen := congrArg List.length h
  have := r.headerBytes_le_totalBytes
  have := r.totalBytes_le_storageBytes
  simp only [List.length_append, length_encode, List.length_nil, recordHeaderBytes] at *
  omega

theorem scanFrom_encode (active : Bool) (h : r.Fits) (hg : generation < 2 ^ 32) (fuel : ℕ) (rest : List UInt8)
    (offset : ℕ) (hlast : ∀ s ∈ last, s < r.sequence) :
    scanFrom active generation (fuel + 1) (r.encode generation ++ rest) offset last =
      if r.flagsKnown then
        (scanFrom active generation fuel rest (offset + r.storageBytes) (some r.sequence)).map
          (r.scanned offset :: ·)
      else .error ⟨.unknownTypeOrFlags, offset⟩ := by
  have hlooks := looksCommitted_encode h hg rest
  have hlen : ¬ (r.encode generation ++ rest).length < recordHeaderBytes := by
    simp only [looksCommitted, decide_eq_true_eq] at hlooks
    omega
  rw [scanFrom, if_neg (encode_ne_nil r generation rest), if_neg hlen,
    if_neg (by simp [hlooks]), readRecord_encode h hg rest offset hlast]
  by_cases hflags : r.flagsKnown = true
  · rw [if_pos hflags, if_pos hflags]
    show (do
      let rest ← scanFrom active generation fuel
        ((r.encode generation ++ rest).drop r.storageBytes) (offset + r.storageBytes) (some r.sequence)
      Except.ok (r.scanned offset :: rest)) = _
    rw [List.drop_left' (length_encode r generation)]
    cases scanFrom active generation fuel rest (offset + r.storageBytes) (some r.sequence) <;> rfl
  · rw [if_neg hflags, if_neg hflags]; rfl

theorem map_cons_eq_ok {x : Except ScanFailure (List ScannedRecord)} {a : ScannedRecord} {out : List ScannedRecord} :
    x.map (a :: ·) = .ok out ↔ ∃ tail, x = .ok tail ∧ out = a :: tail := by
  cases x <;> simp [Except.map, eq_comm]

/-- An active scan reports nothing exactly when nothing at the front looks committed. -/
theorem scanFrom_active_eq_nil {fuel : ℕ} {bytes : List UInt8} (hfuel : bytes.length ≤ fuel) (offset : ℕ)
    (last : Option ℕ) : scanFrom true generation fuel bytes offset last = .ok [] ↔
      looksCommitted generation bytes = false := by
  cases fuel with
  | zero =>
    obtain rfl := List.length_eq_zero_iff.1 (Nat.le_zero.1 hfuel)
    simp [scanFrom, looksCommitted, recordHeaderBytes]
  | succ fuel =>
    rw [scanFrom]
    by_cases hlen : bytes.length < recordHeaderBytes
    · have hlooks : looksCommitted generation bytes = false := by
        simp only [looksCommitted, decide_eq_false_iff_not]
        omega
      simp [hlen, hlooks]
    · have hne : bytes ≠ [] := by
        rintro rfl
        simp [recordHeaderBytes] at hlen
      rw [if_neg hne, if_neg hlen]
      by_cases hlooks : looksCommitted generation bytes = false
      · simp [hlooks]
      · rw [if_neg hlooks]
        refine iff_of_false ?_ hlooks
        -- a committed-looking record is either refused or reported
        cases readRecord bytes offset last with
        | error e => intro hok; cases hok
        | ok p =>
          show (do
            let rest ← scanFrom true generation fuel (bytes.drop p.2) (offset + p.2) (some p.1.sequence)
            Except.ok (p.1 :: rest)) ≠ _
          cases scanFrom true generation fuel (bytes.drop p.2) (offset + p.2) (some p.1.sequence) with
          | error e => intro hok; cases hok
          | ok rest => intro hok; cases hok

/-- A scan over committed records finds them where the reader knows their flags, and goes on behind them. -/
theorem scanFrom_append (hg : generation < 2 ^ 32) (active : Bool) (rest : List UInt8) :
    ∀ (records : List SequencedRecord) (fuel offset : ℕ) (last : Option ℕ), Ascending last records →
      records.length ≤ fuel → ∃ offset' last', ∀ out,
        scanFrom active generation fuel (encodeAll generation records ++ rest) offset last = .ok out ↔
          (∀ r ∈ records, r.flagsKnown = true) ∧ ∃ tail, out = scannedFrom offset records ++ tail ∧
            scanFrom active generation (fuel - records.length) rest offset' last' = .ok tail
  | [], _, offset, last, _, _ => ⟨offset, last, by simp [encodeAll, scannedFrom]⟩
  | r :: records, fuel, offset, last, hasc, hfuel => by
    obtain ⟨fuel, rfl⟩ : ∃ n, fuel = n + 1 := ⟨fuel - 1, by rw [List.length_cons] at hfuel; omega⟩
    obtain ⟨hfits, hlast, hrest⟩ := hasc
    obtain ⟨offset', last', ih⟩ := scanFrom_append hg active rest records fuel (offset + r.storageBytes)
      (some r.sequence) hrest (Nat.le_of_succ_le_succ hfuel)
    refine ⟨offset', last', fun out => ?_⟩
    have hsplit : encodeAll generation (r :: records) ++ rest =
        r.encode generation ++ (encodeAll generation records ++ rest) := by
      simp [encodeAll]
    rw [hsplit, scanFrom_encode active hfits hg _ _ _ hlast, List.length_cons, Nat.add_sub_add_right]
    by_cases hflags : r.flagsKnown = true
    · simp only [if_pos hflags, map_cons_eq_ok, ih]
      constructor
      · rintro ⟨_, ⟨hknown, tail, rfl, htail⟩, rfl⟩
        exact ⟨List.forall_mem_cons.2 ⟨hflags, hknown⟩, tail, rfl, htail⟩
      · rintro ⟨hknown, tail, rfl, htail⟩
        exact ⟨_, ⟨(List.forall_mem_cons.1 hknown).2, tail, rfl, htail⟩, rfl⟩
    · simp [hflags]

theorem length_encodeAll_ge (generation : ℕ) : ∀ records : List SequencedRecord,
    recordHeaderBytes * records.length ≤ (encodeAll generation records).length
  | [] => by simp [encodeAll]
  | r :: records => by
    have ih := length_encodeAll_ge generation records
    have h1 := r.headerBytes_le_totalBytes
    have h2 := r.totalBytes_le_storageBytes
    simp only [encodeAll, List.flatMap_cons, List.length_append, length_encode, List.length_cons] at ih ⊢
    rw [Nat.mul_succ]
    omega

theorem scanRecords_append (hg : generation < 2 ^ 32) (active : Bool) {records : List SequencedRecord}
    (hasc : Ascending none records) (rest : List UInt8) : ∃ fuel offset last, rest.length ≤ fuel ∧ ∀ out,
      scanRecords active generation (encodeAll generation records ++ rest) = .ok out ↔
        (∀ r ∈ records, r.flagsKnown = true) ∧ ∃ tail, out = scannedFrom 0 records ++ tail ∧
          scanFrom active generation fuel rest offset last = .ok tail := by
  have hlen := length_encodeAll_ge generation records
  unfold recordHeaderBytes at hlen
  obtain ⟨offset, last, hscan⟩ := scanFrom_append hg active rest records
    (encodeAll generation records ++ rest).length 0 none hasc (by rw [List.length_append]; omega)
  exact ⟨_, offset, last, by rw [List.length_append]; omega, hscan⟩

/-- An active scan over committed records is exact just when the reader knows their
flags and the bytes behind them do not look committed. -/
theorem scanRecords_active_encodeAll (hg : generation < 2 ^ 32) {records : List SequencedRecord}
    (hasc : Ascending none records) (rest : List UInt8) :
    scanRecords true generation (encodeAll generation records ++ rest) = .ok (scannedFrom 0 records) ↔
      (∀ r ∈ records, r.flagsKnown = true) ∧ looksCommitted generation rest = false := by
  obtain ⟨fuel, offset, last, hfuel, hscan⟩ := scanRecords_append hg true hasc rest
  rw [hscan, ← scanFrom_active_eq_nil hfuel offset last]
  simp

end QTrace.Flight
