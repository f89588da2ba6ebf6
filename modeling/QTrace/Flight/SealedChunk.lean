import QTrace.Flight.ActiveChunk
import QTrace.Flight.LayoutAgreement
import QTrace.Flight.Ring

/-! A chunk from its acquisition to its recovery once it is sealed. The writer keeps its
counters step by step and puts them into the header at the end; recovery reads the header
back and checks every one of them against its own scan of the committed bytes. -/

namespace QTrace.Flight

open Lib Provider

/-- A `FlightChunkWriter` on its chunk. -/
structure ChunkSession where
  writer : ChunkWriter
  recordCount : ℕ
  firstSequence : ℕ
  lastSequence : ℕ

namespace ChunkSession

/-- `reset_chunk_state`. -/
def start (writer : ChunkWriter) : ChunkSession := ⟨writer, 0, 0, 0⟩

/-- One committed record. -/
def note (s : ChunkSession) (r : SequencedRecord) : ChunkSession :=
  { s with
    recordCount := (s.recordCount + 1) % 2 ^ 32
    firstSequence := if s.firstSequence = 0 then r.sequence else s.firstSequence
    lastSequence := r.sequence }

def onto (s : ChunkSession) (writer : ChunkWriter) : ChunkSession := { s with writer := writer }

def step (s : ChunkSession) (op : ChunkOp) : ChunkSession :=
  ((op.call s.writer).records.foldl note s).onto (s.writer.step op)

def run (s : ChunkSession) (ops : List ChunkOp) : ChunkSession := ops.foldl step s

/-- `FlightChunkWriter::seal`. -/
def sealChunk (g : Geometry) (r : Ring) (lease : ChunkLease) (s : ChunkSession) : Option Ring :=
  r.sealChunk g lease s.firstSequence s.lastSequence s.writer.committedExtent s.recordCount
    (fnv1a (s.writer.data.take s.writer.committedExtent)).toNat

end ChunkSession

/-- `FlightChunkState` as stored. -/
def ChunkState.code : ChunkState → ℕ
  | .free => 0
  | .active => 1
  | .sealed => 2

/-- The fields of a chunk header, in the order of their offsets. -/
def ChunkHeader.fields (h : ChunkHeader) : List Field :=
  [.u32 h.magic, .u16 h.version, .u16 h.headerBytes, .u32 h.chunkIndex, .u32 h.state.code, .u32 h.tid,
    .u32 h.generation, .u64 h.firstSequence, .u64 h.lastSequence, .u32 h.committedBytes, .u32 h.recordCount,
    .u32 h.checksum, .zero 12]

/-- What the reader keeps of a header. -/
def ChunkHeader.wire (h : ChunkHeader) : Wire.ChunkHeader :=
  ⟨h.state.code, h.tid, h.generation, h.firstSequence, h.lastSequence, h.committedBytes, h.recordCount, h.checksum⟩

variable {h : ChunkHeader}

theorem chunkFields_run {cursor : Wire.Cursor} (hfits : ∀ field ∈ h.fields, field.Fits) :
    (Wire.chunkFields cursor).parse (encodeFields h.fields) =
      .ok ((h.magic, h.version, h.headerBytes, h.chunkIndex), h.wire) := by
  refine Parser.parse_ok.mpr ⟨leBytes 12 0 ++ [], ?_⟩
  simp only [ChunkHeader.fields, List.forall_mem_cons, Field.Fits, Field.u16, Field.u32, Field.u64,
    Field.zero] at hfits
  simp only [ChunkHeader.fields, encodeFields_cons, Field.u16, Field.u32, Field.u64, Field.zero]
  simp (disch := simp only [hfits]) only [Wire.chunkFields, Wire.Cursor.u16Le, Wire.Cursor.u32Le,
    Wire.Cursor.u64Le, Wire.uint_bind]
  rfl

theorem parseChunkHeader_sealed (hfits : ∀ field ∈ h.fields, field.Fits) (hstate : h.state = .sealed)
    (hmagic : h.magic = flightMagic) (hversion : h.version = flightVersion)
    (hbytes : h.headerBytes = chunkHeaderBytes) (htid : h.tid ≠ 0) (hgeneration : h.generation ≠ 0) (offset : ℕ) :
    Wire.parseChunkHeader (encodeFields h.fields) h.chunkIndex offset = .ok (some h.wire) := by
  have hcode : h.wire.state = 2 := by rw [ChunkHeader.wire, hstate]; rfl
  have hreserved : Wire.requireZero (encodeFields (h.fields.take 12 ++ [.zero 12]) ++ []) 52 chunkHeaderBytes
      "chunk reserved bytes" ⟨offset, none⟩ = .ok () :=
    Wire.requireZero_fields (h.fields.take 12) [] 12 (by simp [ChunkHeader.fields]) rfl
  unfold Wire.parseChunkHeader
  refine (bind_of_ok (chunkFields_run hfits) _).trans ?_
  simp only [hcode]
  refine (failIf_bind (decide_eq_false (by simp)) _).trans ?_
  refine (failIf_bind (decide_eq_false (by simp [hmagic, hversion, hbytes])) _).trans ?_
  refine (bind_of_ok (by simpa [ChunkHeader.fields] using hreserved) _).trans ?_
  exact (failIf_bind (decide_eq_false (by simp [ChunkHeader.wire, htid, hgeneration])) _)

/-- The end sequence numbers of a scan, zero where it found no record. -/
def endSequences (records : List ScannedRecord) : ℕ × ℕ :=
  ((records.head?.map (·.sequence)).getD 0, (records.getLast?.map (·.sequence)).getD 0)

/-- What `recover` makes of a sealed chunk: its records, or the cause under which the
whole chunk counts as damaged. -/
def recoverSealed (header : Wire.ChunkHeader) (data : List UInt8) :
    Except CompletenessCause (List ScannedRecord) :=
  let committed := data.take header.committedBytes
  if data.length < header.committedBytes ∨ header.committedBytes % 8 ≠ 0 then .error .incomplete
  else if (fnv1a committed).toNat ≠ header.checksum then .error .checksum
  else match scanRecords false header.generation committed with
    | .error failure =>
      .error (if failure.error.code = "source.flight.record_checksum" then .checksum else .incomplete)
    | .ok records =>
      if records = [] ∨ records.length ≠ header.recordCount ∨
          endSequences records ≠ (header.firstSequence, header.lastSequence) then .error .incomplete
      else .ok records

theorem recoverSealed_of_scan {header : Wire.ChunkHeader} {data : List UInt8} {records : List ScannedRecord}
    (hle : header.committedBytes ≤ data.length) (height : header.committedBytes % 8 = 0)
    (hsum : (fnv1a (data.take header.committedBytes)).toNat = header.checksum)
    (hscan : scanRecords false header.generation (data.take header.committedBytes) = .ok records)
    (hne : records ≠ []) (hcount : records.length = header.recordCount)
    (hends : endSequences records = (header.firstSequence, header.lastSequence)) :
    recoverSealed header data = .ok records := by
  unfold recoverSealed
  dsimp only
  rw [if_neg (by omega), if_neg (by simp [hsum]), hscan]
  dsimp only
  rw [if_neg (by simp [hne, hcount, hends])]

variable {records : List SequencedRecord}

/-- A scan of committed records alone is exact where the reader knows their flags. -/
theorem scanRecords_encodeAll {generation : ℕ} (hg : generation < 2 ^ 32) (active : Bool)
    (hasc : Ascending none records) (hknown : ∀ r ∈ records, r.flagsKnown = true) :
    scanRecords active generation (encodeAll generation records) = .ok (scannedFrom 0 records) := by
  obtain ⟨fuel, offset, last, -, hscan⟩ := scanRecords_append hg active hasc []
  rw [List.append_nil] at hscan
  exact (hscan _).2 ⟨hknown, [], by simp, by cases fuel <;> simp [scanFrom]⟩

@[simp] theorem length_scannedFrom : ∀ (records : List SequencedRecord) (offset : ℕ),
    (scannedFrom offset records).length = records.length
  | [], _ => rfl
  | r :: records, offset => by rw [scannedFrom, List.length_cons, length_scannedFrom, List.length_cons]

theorem map_sequence_scannedFrom : ∀ (records : List SequencedRecord) (offset : ℕ),
    (scannedFrom offset records).map (·.sequence) = records.map (·.sequence)
  | [], _ => rfl
  | r :: records, offset => by
    rw [scannedFrom, List.map_cons, map_sequence_scannedFrom, List.map_cons]
    rfl

theorem byteStores_end : ∀ (bytes : List UInt8) (offset : ℕ), ∀ s ∈ byteStores offset bytes,
    s.offset + s.bytes.length ≤ offset + bytes.length
  | [], _, s, hs => by simp [byteStores] at hs
  | b :: bytes, offset, s, hs => by
    rcases List.mem_cons.1 hs with rfl | hs
    · simp
    · have := byteStores_end bytes (offset + 1) s hs
      rw [List.length_cons]
      omega

theorem encodeStores_end (r : SequencedRecord) (destination : ℕ) :
    ∀ s ∈ r.encodeStores destination, s.offset + s.bytes.length ≤ destination + r.storageBytes := by
  intro s hs
  have hle := r.totalBytes_le_storageBytes
  simp only [RecordView.totalBytes, recordHeaderBytes] at hle
  have hbytes : ∀ {offset : ℕ} {bytes : List UInt8}, s ∈ byteStores offset bytes →
      offset + bytes.length ≤ destination + r.storageBytes → s.offset + s.bytes.length ≤ destination + r.storageBytes :=
    fun h hend => (byteStores_end _ _ s h).trans hend
  simp only [SequencedRecord.encodeStores, List.mem_append, List.mem_singleton] at hs
  rcases hs with ((((((hs | hs) | hs) | hs) | hs) | rfl) | hs) | hs
  · exact hbytes hs (by rw [List.length_replicate])
  · exact hbytes hs (by rw [length_leBytes]; omega)
  · exact hbytes hs (by rw [length_leBytes]; omega)
  · exact hbytes hs (by rw [length_leBytes]; omega)
  · exact hbytes hs (by rw [length_leBytes]; omega)
  · simp only [length_leBytes]
    omega
  · exact hbytes hs (by rw [recordHeaderBytes]; omega)
  · exact hbytes hs (by rw [length_leBytes]; omega)

theorem commitStore_end (r : SequencedRecord) (generation destination : ℕ) :
    (r.commitStore generation destination).offset + (r.commitStore generation destination).bytes.length ≤
      destination + r.storageBytes := by
  have hle := r.totalBytes_le_storageBytes
  simp only [RecordView.totalBytes, recordHeaderBytes] at hle
  simp only [SequencedRecord.commitStore, length_leBytes]
  omega

theorem length_storeData : ∀ (stores : List DataStore) (data : List UInt8),
    (∀ s ∈ stores, s.offset + s.bytes.length ≤ data.length) → (storeData data stores).length = data.length
  | [], _, _ => rfl
  | s :: stores, data, h => by
    have hfirst := length_overwrite (h s (by simp))
    rw [storeData, List.foldl_cons, ← storeData, length_storeData stores _, hfirst]
    intro x hx
    rw [hfirst]
    exact h x (by simp [hx])

variable {w : ChunkWriter}

theorem ChunkWriter.Sound.stores_end (hw : w.Sound) (op : ChunkOp) :
    ∀ s ∈ (op.call w).stores, s.offset + s.bytes.length ≤ w.data.length := by
  have hextent : w.committedExtent ≤ w.data.length := by
    obtain ⟨rest, hrest⟩ := hw.layout
    rw [hw.extent, hrest, List.length_append]
    omega
  cases op with
  | append view =>
    simp only [ChunkOp.call, ChunkWriter.append]
    split
    · simp
    next total storage hsizes =>
      obtain ⟨rfl, -⟩ := checkedRecordSizes_eq hsizes
      split_ifs with hspace hsequence
      · simp
      · simp
      · intro s hs
        set r : SequencedRecord := ⟨view, (allocateSequence w.nextSequence).1⟩
        have hstorage : r.storageBytes = view.storageBytes := rfl
        rcases List.mem_append.1 hs with hs | hs
        · have := encodeStores_end r _ s hs
          omega
        · rw [List.mem_singleton.1 hs]
          have := commitStore_end r w.generation w.committedExtent
          omega
  | appendPair first second =>
    simp only [ChunkOp.call, ChunkWriter.appendPair]
    split
    next _ _ firstTotal firstStorage secondTotal secondStorage hfirst hsecond =>
      obtain ⟨rfl, -⟩ := checkedRecordSizes_eq hfirst
      obtain ⟨rfl, -⟩ := checkedRecordSizes_eq hsecond
      split_ifs with hspace hsequence
      · simp
      · simp
      · intro s hs
        set a : SequencedRecord := ⟨first, (allocateSequence w.nextSequence).1⟩
        set c : SequencedRecord := ⟨second, (allocateSequence (allocateSequence w.nextSequence).2).1⟩
        have ha : a.storageBytes = first.storageBytes := rfl
        have hc : c.storageBytes = second.storageBytes := rfl
        simp only [List.mem_append, List.mem_cons, List.not_mem_nil, or_false] at hs
        rcases hs with (hs | hs) | rfl | rfl
        · have := encodeStores_end a _ s hs
          omega
        · have := encodeStores_end c _ s hs
          omega
        · have := commitStore_end c w.generation (w.committedExtent + first.storageBytes)
          omega
        · have := commitStore_end a w.generation w.committedExtent
          omega
    · simp
  | takeSequence => simp [ChunkOp.call]

theorem ChunkWriter.length_stop (hw : w.Sound) (op : ChunkOp) (n : ℕ) :
    (w.stop op n).data.length = w.data.length := by
  have hlength : (storeData w.data ((op.call w).stores.take n)).length = w.data.length :=
    length_storeData _ _ fun s hs => hw.stores_end op s (List.mem_of_mem_take hs)
  unfold ChunkWriter.stop
  dsimp only
  split_ifs <;> exact hlength

theorem ChunkWriter.length_run (hw : w.Sound) (ops : List ChunkOp) : (w.run ops).data.length = w.data.length := by
  induction ops generalizing w with
  | nil => rfl
  | cons op ops ih =>
    rw [ChunkWriter.run, List.foldl_cons, ← ChunkWriter.run, ih (hw.step op)]
    exact ChunkWriter.length_stop hw op _

theorem ChunkWriter.length_acquiredAfter (g : Geometry) (past : List (List ChunkOp)) :
    (ChunkWriter.acquiredAfter g past).data.length = g.chunkDataCapacity := by
  have hpast : ∀ w : ChunkWriter, w.Sound →
      (past.foldl (fun w ops => w.reuse.run ops) w).data.length = w.data.length := by
    induction past with
    | nil => exact fun _ _ => rfl
    | cons ops past ih =>
      intro w hw
      rw [List.foldl_cons, ih _ (hw.reuse.run ops), ChunkWriter.length_run hw.reuse]
      rfl
  show (past.foldl (fun w ops => w.reuse.run ops) (ChunkWriter.fresh g)).data.length = _
  rw [hpast _ (ChunkWriter.sound_fresh g)]
  simp [ChunkWriter.fresh]

theorem storageBytes_dvd (records : List SequencedRecord) : 8 ∣ (records.map (·.storageBytes)).sum :=
  List.dvd_sum (by
    intro x hx
    obtain ⟨r, -, rfl⟩ := List.mem_map.1 hx
    exact Dvd.intro_left _ rfl)

/-- The records a call is asked to append. -/
def ChunkOp.views : ChunkOp → List RecordView
  | .append view => [view]
  | .appendPair first second => [first, second]
  | .takeSequence => []

/-- The records of the calls of a run that report success. -/
def ChunkWriter.written : ChunkWriter → List ChunkOp → List RecordView
  | _, [] => []
  | w, op :: ops => (if (op.call w).result = .written then op.views else []) ++ (w.step op).written ops

theorem call_views (w : ChunkWriter) (op : ChunkOp) :
    (op.call w).records.map (·.toRecordView) = if (op.call w).result = .written then op.views else [] := by
  cases op with
  | append view =>
    simp only [ChunkOp.call, ChunkWriter.append]
    split
    · rfl
    · split_ifs <;> first | rfl | contradiction
  | appendPair first second =>
    simp only [ChunkOp.call, ChunkWriter.appendPair]
    split
    · split_ifs <;> first | rfl | contradiction
    · rfl
  | takeSequence => rfl

theorem ChunkWriter.committed_step (w : ChunkWriter) (op : ChunkOp) :
    (w.step op).committed = w.committed ++ (op.call w).records := by
  simp [ChunkWriter.step, ChunkWriter.stop]

theorem ChunkWriter.committed_run (w : ChunkWriter) (ops : List ChunkOp) :
    (w.run ops).committed.map (·.toRecordView) = w.committed.map (·.toRecordView) ++ w.written ops := by
  induction ops generalizing w with
  | nil => simp [ChunkWriter.run, ChunkWriter.written]
  | cons op ops ih =>
    rw [ChunkWriter.run, List.foldl_cons, ← ChunkWriter.run, ih, ChunkWriter.committed_step, List.map_append,
      call_views, ChunkWriter.written, List.append_assoc]

theorem ChunkWriter.mem_written {ops : List ChunkOp} {view : RecordView} (h : view ∈ w.written ops) :
    ∃ op ∈ ops, view ∈ op.views := by
  induction ops generalizing w with
  | nil => cases h
  | cons op ops ih =>
    rw [ChunkWriter.written, List.mem_append] at h
    rcases h with h | h
    · split_ifs at h
      · exact ⟨op, by simp, h⟩
      · cases h
    · obtain ⟨op', hop', hview⟩ := ih h
      exact ⟨op', by simp [hop'], hview⟩

theorem ChunkWriter.step_of_noSpace {op : ChunkOp} (h : (op.call w).result = .noSpace) :
    op.call w = ⟨[], [], w.nextSequence, .noSpace⟩ ∧ w.step op = w := by
  have hcall : op.call w = ⟨[], [], w.nextSequence, .noSpace⟩ := by
    cases op with
    | append view =>
      simp only [ChunkOp.call, ChunkWriter.append] at h ⊢
      split at h
      · cases h
      · split_ifs at h ⊢
        rfl
    | appendPair first second =>
      simp only [ChunkOp.call, ChunkWriter.appendPair] at h ⊢
      split at h
      · split_ifs at h ⊢
        rfl
      · cases h
    | takeSequence => cases h
  refine ⟨hcall, ?_⟩
  simp [ChunkWriter.step, ChunkWriter.stop, hcall, storeData]

namespace ChunkSession

theorem foldl_note_writer (records : List SequencedRecord) (s : ChunkSession) (w : ChunkWriter) :
    records.foldl note (s.onto w) = (records.foldl note s).onto w := by
  induction records generalizing s with
  | nil => rfl
  | cons r records ih => exact ih (s.note r)

/-- The counters are those of the committed records. -/
def Counted (s : ChunkSession) : Prop := s.writer.committed.foldl note (start s.writer) = s

variable {s : ChunkSession}

theorem Counted.step (hs : s.Counted) (op : ChunkOp) : (s.step op).Counted := by
  have hstart : start (s.writer.step op) = (start s.writer).onto (s.writer.step op) := rfl
  show (s.writer.step op).committed.foldl note (start (s.writer.step op)) = s.step op
  rw [ChunkWriter.committed_step, List.foldl_append, hstart, foldl_note_writer, hs, foldl_note_writer]
  rfl

theorem writer_run (s : ChunkSession) (ops : List ChunkOp) : (s.run ops).writer = s.writer.run ops := by
  induction ops generalizing s with
  | nil => rfl
  | cons op ops ih => exact ih (s.step op)

theorem counted_run (hs : s.Counted) (ops : List ChunkOp) : (s.run ops).Counted :=
  List.foldlRecOn ops _ hs fun _ h op _ => h.step op

theorem foldl_note (records : List SequencedRecord) (s : ChunkSession) (hlt : s.recordCount < 2 ^ 32)
    (hpos : ∀ r ∈ records, 0 < r.sequence) :
    let counted := records.foldl note s
    counted.recordCount = (s.recordCount + records.length) % 2 ^ 32 ∧
      counted.firstSequence = (if s.firstSequence = 0 then (records.head?.map (·.sequence)).getD 0
        else s.firstSequence) ∧
      counted.lastSequence = (records.getLast?.map (·.sequence)).getD s.lastSequence := by
  induction records generalizing s with
  | nil =>
    refine ⟨(Nat.mod_eq_of_lt hlt).symm, ?_, rfl⟩
    show s.firstSequence = _
    split_ifs with h
    · simpa using h
    · rfl
  | cons r records ih =>
    obtain ⟨hcount, hfirst, hlast⟩ := ih (s.note r) (Nat.mod_lt _ (by decide)) fun x hx => hpos x (by simp [hx])
    have hr := hpos r (by simp)
    rw [List.foldl_cons]
    refine ⟨?_, ?_, ?_⟩
    · rw [hcount, List.length_cons]
      simp only [note]
      omega
    · rw [hfirst]
      simp only [note]
      split_ifs <;> first | omega | rfl
    · rw [hlast, List.getLast?_cons]
      cases hrecords : records.getLast? <;> rfl

end ChunkSession

theorem Ascending.sequence_pos : ∀ {records : List SequencedRecord} {last : Option ℕ}, Ascending last records →
    ∀ r ∈ records, 0 < r.sequence ∧ r.sequence < 2 ^ 64
  | [], _, _, r, hr => by cases hr
  | x :: records, _, h, r, hr => by
    rcases List.mem_cons.1 hr with rfl | hr
    · exact ⟨h.1.sequence_pos, h.1.sequence_lt⟩
    · exact h.2.2.sequence_pos r hr

theorem Ascending.pairwise : ∀ {records : List SequencedRecord} {last : Option ℕ}, Ascending last records →
    (records.map (·.sequence)).Pairwise (· < ·) ∧ ∀ s ∈ last, ∀ r ∈ records, s < r.sequence
  | [], _, _ => ⟨List.Pairwise.nil, by simp⟩
  | x :: records, last, h => by
    obtain ⟨hrest, habove⟩ := h.2.2.pairwise
    refine ⟨List.pairwise_cons.mpr ⟨?_, hrest⟩, fun s hs r hr => ?_⟩
    · intro n hn
      obtain ⟨r, hr, rfl⟩ := List.mem_map.1 hn
      exact habove x.sequence rfl r hr
    · rcases List.mem_cons.1 hr with rfl | hr
      · exact h.2.1 s hs
      · exact (h.2.1 s hs).trans (habove x.sequence rfl r hr)

/-- The counters of a writer are what a scan of its committed records finds. -/
theorem ChunkSession.Counted.eq {s : ChunkSession} (hs : s.Counted) (hasc : Ascending none s.writer.committed)
    (hlt : s.writer.committed.length < 2 ^ 32) :
    s.recordCount = s.writer.committed.length ∧
      endSequences (scannedFrom 0 s.writer.committed) = (s.firstSequence, s.lastSequence) := by
  obtain ⟨hcount, hfirst, hlast⟩ := ChunkSession.foldl_note s.writer.committed (.start s.writer) (by simp [ChunkSession.start])
    fun r hr => (hasc.sequence_pos r hr).1
  rw [hs] at hcount hfirst hlast
  have hmap := map_sequence_scannedFrom s.writer.committed 0
  refine ⟨?_, ?_⟩
  · rw [hcount]
    show (0 + _) % 2 ^ 32 = _
    rw [Nat.zero_add, Nat.mod_eq_of_lt hlt]
  · rw [endSequences, ← List.head?_map, ← List.getLast?_map, hmap, List.head?_map, List.getLast?_map, hfirst, hlast]
    rfl

theorem endSequences_lt (h : ∀ r ∈ records, r.sequence < 2 ^ 64) (offset : ℕ) :
    (endSequences (scannedFrom offset records)).1 < 2 ^ 64 ∧ (endSequences (scannedFrom offset records)).2 < 2 ^ 64 := by
  have hmem : ∀ n ∈ (scannedFrom offset records).map (·.sequence), n < 2 ^ 64 := by
    intro n hn
    rw [map_sequence_scannedFrom] at hn
    obtain ⟨r, hr, rfl⟩ := List.mem_map.1 hn
    exact h r hr
  rw [endSequences, ← List.head?_map, ← List.getLast?_map]
  generalize (scannedFrom offset records).map (·.sequence) = numbers at hmem
  constructor
  · cases hhead : numbers.head? with
    | none => exact Nat.two_pow_pos 64
    | some n => exact hmem n (List.mem_of_head? hhead)
  · cases hlast : numbers.getLast? with
    | none => exact Nat.two_pow_pos 64
    | some n => exact hmem n (List.mem_of_getLast? hlast)

/-- The chunk a lease names has just been acquired for it. -/
structure FreshLease (g : Geometry) (r : Ring) (lease : ChunkLease) : Prop where
  index_lt : lease.chunkIndex < g.chunkCount
  tid_pos : 0 < lease.tid
  tid_lt : lease.tid < 2 ^ 32
  generation_pos : 0 < lease.generation
  generation_lt : lease.generation < 2 ^ 32
  header : r.chunk lease.chunkIndex = acquiredHeader lease.chunkIndex lease.tid lease.generation 0

/-- The header `seal_chunk` leaves behind. -/
def sealedHeader (lease : ChunkLease) (s : ChunkSession) : ChunkHeader :=
  { acquiredHeader lease.chunkIndex lease.tid lease.generation 0 with
    firstSequence := s.firstSequence
    lastSequence := s.lastSequence
    committedBytes := s.writer.committedExtent
    recordCount := s.recordCount
    checksum := (fnv1a (s.writer.data.take s.writer.committedExtent)).toNat
    state := .sealed }

variable {g : Geometry} {r : Ring} {lease : ChunkLease}

theorem FreshLease.sealChunk (h : FreshLease g r lease) {s : ChunkSession}
    (hextent : s.writer.committedExtent ≤ g.chunkDataCapacity) :
    ∃ r', s.sealChunk g r lease = some r' ∧ r'.chunk lease.chunkIndex = sealedHeader lease s := by
  have hindex : lease.chunkIndex ≠ invalidIndex := by
    have := h.index_lt
    have := g.chunkCount_le
    unfold invalidIndex
    omega
  have hholds : r.holds g lease = true := by
    have hgeneration := h.generation_pos
    simp only [Ring.holds, h.header, acquiredHeader, decide_eq_true_eq]
    exact ⟨hindex, by omega, h.index_lt, trivial, trivial⟩
  unfold ChunkSession.sealChunk Ring.sealChunk
  rw [if_pos ⟨hholds, hextent, by rw [h.header]; rfl⟩]
  exact ⟨_, rfl, by simp only [Function.update_self, h.header]; rfl⟩

theorem Geometry.chunkDataCapacity_lt (g : Geometry) : g.chunkDataCapacity < 2 ^ 32 := by
  obtain ⟨k, hk, hbytes⟩ := g.chunkBytes_pow
  have := Nat.pow_lt_pow_right (a := 2) (by decide) hk
  unfold Geometry.chunkDataCapacity
  omega

theorem sealedHeader_fits (h : FreshLease g r lease) {s : ChunkSession}
    (hextent : s.writer.committedExtent ≤ g.chunkDataCapacity) (hfirst : s.firstSequence < 2 ^ 64)
    (hlast : s.lastSequence < 2 ^ 64) (hcount : s.recordCount < 2 ^ 32) :
    ∀ field ∈ (sealedHeader lease s).fields, field.Fits := by
  have hindex := h.index_lt
  have hchunks := g.chunkCount_le
  have htid := h.tid_lt
  have hgeneration := h.generation_lt
  have hcapacity := g.chunkDataCapacity_lt
  have hsum := (fnv1a (s.writer.data.take s.writer.committedExtent)).toNat_lt
  unfold uint32Max at hchunks
  simp only [ChunkHeader.fields, sealedHeader, acquiredHeader, List.forall_mem_cons, Field.Fits, Field.u16, Field.u32,
    Field.u64, Field.zero, ChunkState.code, flightMagic, flightVersion, chunkHeaderBytes]
  refine ⟨?_, ?_, ?_, ?_, ?_, ?_, ?_, ?_, ?_, ?_, ?_, ?_, ?_, by simp⟩ <;> omega

/-- What a scan of a sealed chunk owes its writer. -/
structure SealedScan (w : ChunkWriter) (written : List RecordView) (header : Wire.ChunkHeader) : Prop where
  state : header.state = 2
  generation : header.generation = w.generation
  scan : scanRecords false header.generation (w.data.take header.committedBytes) = .ok (scannedFrom 0 w.committed)
  views : w.committed.map (·.toRecordView) = written
  sequences : (w.committed.map (·.sequence)).Pairwise (· < ·)
  committedBytes : header.committedBytes = (w.committed.map (·.storageBytes)).sum
  checksum : (fnv1a (w.data.take header.committedBytes)).toNat = header.checksum
  recordCount : (scannedFrom 0 w.committed).length = header.recordCount
  ends : endSequences (scannedFrom 0 w.committed) = (header.firstSequence, header.lastSequence)
  recovered : w.committed ≠ [] → recoverSealed header w.data = .ok (scannedFrom 0 w.committed)

/-- Sealing a chunk and reading it back, over every history of its slot and every run of
appends with flags the reader knows: the reader accepts the header, its scan returns
exactly the records of the calls that reported success, and every number of the header
is the one the scan finds. A call without space changes nothing. -/
theorem sealed_chunk_round_trip (g : Geometry) (past : List (List ChunkOp)) (ops : List ChunkOp)
    (hknown : ∀ op ∈ ops, ∀ view ∈ op.views, view.flagsKnown = true) (r : Ring) (lease : ChunkLease)
    (hlease : FreshLease g r lease) (hgeneration : lease.generation = past.length + 1) (offset : ℕ) :
    let s := (ChunkSession.start (ChunkWriter.acquiredAfter g past)).run ops
    (∃ sealed header, s.sealChunk g r lease = some sealed ∧
      Wire.parseChunkHeader (encodeFields (sealed.chunk lease.chunkIndex).fields) lease.chunkIndex offset =
        .ok (some header) ∧
      SealedScan s.writer ((ChunkWriter.acquiredAfter g past).written ops) header) ∧
    ∀ op, (op.call s.writer).result = .noSpace → s.step op = s := by
  intro s
  have hwriter : s.writer = (ChunkWriter.acquiredAfter g past).run ops := ChunkSession.writer_run _ _
  have hsound : s.writer.Sound := hwriter ▸ (ChunkWriter.sound_acquiredAfter g past).run ops
  have hcounted : s.Counted := ChunkSession.counted_run (by rfl) ops
  have hgen : s.writer.generation = lease.generation := by
    rw [hwriter, ChunkWriter.generation_run, ChunkWriter.generation_acquiredAfter, hgeneration]
  have hlength : s.writer.data.length = g.chunkDataCapacity := by
    rw [hwriter, ChunkWriter.length_run (ChunkWriter.sound_acquiredAfter g past), ChunkWriter.length_acquiredAfter]
  have hviews : s.writer.committed.map (·.toRecordView) = (ChunkWriter.acquiredAfter g past).written ops := by
    rw [hwriter, ChunkWriter.committed_run]
    rfl
  have hflags : ∀ x ∈ s.writer.committed, x.flagsKnown = true := by
    intro x hx
    have hwritten : x.toRecordView ∈ (ChunkWriter.acquiredAfter g past).written ops :=
      hviews ▸ List.mem_map_of_mem hx
    obtain ⟨op, hop, hview⟩ := ChunkWriter.mem_written hwritten
    exact hknown op hop _ hview
  obtain ⟨rest, hrest⟩ := hsound.layout
  have htake : s.writer.data.take s.writer.committedExtent = encodeAll s.writer.generation s.writer.committed := by
    rw [hsound.extent, hrest, List.take_left]
  have hextent : s.writer.committedExtent ≤ g.chunkDataCapacity := by
    rw [← hlength, hsound.extent, hrest, List.length_append]
    omega
  have hmany : s.writer.committed.length < 2 ^ 32 := by
    have hbytes := length_encodeAll_ge s.writer.generation s.writer.committed
    have hcapacity := g.chunkDataCapacity_lt
    rw [← hsound.extent, recordHeaderBytes] at hbytes
    omega
  obtain ⟨hcount, hends⟩ := hcounted.eq hsound.ascending hmany
  obtain ⟨hfirst, hlast⟩ := endSequences_lt (fun x hx => (hsound.ascending.sequence_pos x hx).2) 0
  rw [hends] at hfirst hlast
  obtain ⟨sealed, hsealed, hchunk⟩ := hlease.sealChunk hextent
  have hscan : scanRecords false lease.generation (s.writer.data.take s.writer.committedExtent) =
      .ok (scannedFrom 0 s.writer.committed) := by
    rw [htake, hgen]
    exact scanRecords_encodeAll hlease.generation_lt false hsound.ascending hflags
  have hsum : s.writer.committedExtent = (s.writer.committed.map (·.storageBytes)).sum := by
    rw [hsound.extent, length_encodeAll]
  have hheader := parseChunkHeader_sealed (sealedHeader_fits hlease hextent hfirst hlast (hcount ▸ hmany)) rfl rfl rfl rfl
    hlease.tid_pos.ne' hlease.generation_pos.ne' offset
  refine ⟨⟨sealed, (sealedHeader lease s).wire, hsealed, by rw [hchunk]; exact hheader, ?_⟩, fun op hop => ?_⟩
  · refine ⟨rfl, hgen.symm, hscan, hviews, hsound.ascending.pairwise.1, hsum, rfl, ?_, hends, fun hne => ?_⟩
    · rw [length_scannedFrom]
      exact hcount.symm
    · have hscanned : scannedFrom 0 s.writer.committed ≠ [] := by
        rw [← List.length_pos_iff, length_scannedFrom]
        exact List.length_pos_iff.mpr hne
      have height : s.writer.committedExtent % 8 = 0 := Nat.mod_eq_zero_of_dvd (hsum ▸ storageBytes_dvd _)
      exact recoverSealed_of_scan (hlength ▸ hextent) height rfl hscan hscanned
        ((length_scannedFrom _ _).trans hcount.symm) hends
  · obtain ⟨hcall, hstep⟩ := ChunkWriter.step_of_noSpace hop
    show ((op.call s.writer).records.foldl ChunkSession.note s).onto (s.writer.step op) = s
    rw [hstep, hcall]
    rfl

/-- A ring whose only chunk was just acquired by thread 7. -/
def oneChunkRing : Ring := { Ring.create with chunk := fun _ => acquiredHeader 0 7 1 0 }

/-- An append, and a pair that finds no space. -/
def tightOps : List ChunkOp :=
  [.append ⟨.threadEnd, 0, [7]⟩, .appendPair ⟨.syscall, 0, List.replicate 8 1⟩ ⟨.signal, 0, []⟩]

theorem sealed_chunk_round_trip_tightOps :
    (ChunkWriter.acquiredAfter smallGeometry []).written tightOps = [⟨.threadEnd, 0, [7]⟩] ∧
      let s := (ChunkSession.start (ChunkWriter.acquiredAfter smallGeometry [])).run tightOps
      (∃ sealed header, s.sealChunk smallGeometry oneChunkRing ⟨0, 1, 7, 64⟩ = some sealed ∧
        Wire.parseChunkHeader (encodeFields (sealed.chunk 0).fields) 0 4096 = .ok (some header) ∧
        SealedScan s.writer ((ChunkWriter.acquiredAfter smallGeometry []).written tightOps) header) ∧
      ∀ op, (op.call s.writer).result = .noSpace → s.step op = s :=
  ⟨by decide +kernel, sealed_chunk_round_trip smallGeometry [] tightOps (by decide) oneChunkRing ⟨0, 1, 7, 64⟩
    ⟨by decide, by decide, by decide, by decide, by decide, rfl⟩ rfl 4096⟩

end QTrace.Flight
