import QTrace.Flight.Superblock

/-! Writer and reader agree on the layout of a new artifact. -/

namespace QTrace.Flight

open Lib Provider

/-- The regions follow the superblock and each other, are aligned, and end inside the file. -/
structure Regular (options : FlightOptions) (artifact : FlightArtifact) : Prop where
  length_image : artifact.image.length = options.capacityBytes.toNat
  capacity_le : options.capacityBytes.toNat ≤ uint64Max
  directory_before : superblockBytes + options.maxThreads.toNat * directoryEntryBytes ≤ artifact.layout.emergencyOffset
  emergencies_before : artifact.layout.emergencyOffset + artifact.layout.emergencyRecordCount * emergencySlotBytes ≤
    artifact.layout.chunkOffset
  chunks_inside : artifact.layout.chunkOffset + artifact.layout.chunkCount * options.chunkBytes.toNat ≤
    options.capacityBytes.toNat
  emergencies_aligned : emergencySlotBytes ∣ artifact.layout.emergencyOffset
  chunks_aligned : options.chunkBytes.toNat ∣ artifact.layout.chunkOffset

namespace Laid

variable {options : FlightOptions} {l : Layout}

section

variable (h : Laid options l)
include h

theorem directory_before :
    superblockBytes + options.maxThreads.toNat * directoryEntryBytes ≤ l.emergencyOffset := by
  rw [h.emergencyOffset_eq]
  exact le_alignUp (by decide) _

theorem emergencies_before : l.emergencyOffset + l.emergencyRecordCount * emergencySlotBytes ≤ l.chunkOffset := by
  rw [h.chunkOffset_eq, h.emergencyRecordCount_eq]
  exact le_alignUp (Nat.zero_lt_of_lt h.chunkBytes_gt) _

theorem chunks_inside : l.chunkOffset + l.chunkCount * options.chunkBytes.toNat ≤ options.capacityBytes.toNat := by
  have hmul := Nat.div_mul_le_self (options.capacityBytes.toNat - l.chunkOffset) options.chunkBytes.toNat
  have hlt := h.chunkOffset_lt
  rw [← h.chunkCount_eq] at hmul
  omega

theorem emergencies_aligned : emergencySlotBytes ∣ l.emergencyOffset := by
  rw [h.emergencyOffset_eq]
  exact dvd_alignUp ..

theorem chunks_aligned : options.chunkBytes.toNat ∣ l.chunkOffset := by
  rw [h.chunkOffset_eq]
  exact dvd_alignUp ..

end

end Laid

variable {p : Platform} {options : FlightOptions} {identity : FlightArtifactIdentity} {l : Layout}

/-- The superblock as it stands in the file. -/
def storedSuperblock (p : Platform) (options : FlightOptions) (identity : FlightArtifactIdentity) (l : Layout) :
    FlightSuperblock := { newSuperblock p options identity l with magic := flightMagic }

/-- The bytes of the stored superblock. -/
def superblockImage (p : Platform) (options : FlightOptions) (identity : FlightArtifactIdentity) (l : Layout) :
    List UInt8 :=
  encodeFields (storedSuperblock p options identity l).fields ++
    (identity.targetName ++ List.replicate (targetNameBytes - identity.targetName.length) 0 ++
      List.replicate (superblockBytes - 226) 0)

theorem FlightArtifactIdentity.length_le (h : identity.valid = true) :
    identity.targetName.length ≤ targetNameBytes := by
  simp only [FlightArtifactIdentity.valid, Bool.and_eq_true, decide_eq_true_eq] at h
  exact h.1.2

theorem fieldsWidth_superblock (s : FlightSuperblock) : fieldsWidth s.fields = 98 := by
  simp [FlightSuperblock.fields]

theorem length_superblockImage (hidentity : identity.valid = true) :
    (superblockImage p options identity l).length = superblockBytes := by
  have hlength := FlightArtifactIdentity.length_le hidentity
  simp only [superblockImage, List.length_append, length_encodeFields, fieldsWidth_superblock, List.length_replicate]
  unfold targetNameBytes superblockBytes at *
  omega

theorem encode_newSuperblock (hidentity : identity.valid = true) :
    (newSuperblock p options identity l).encode = some (encodeFields (newSuperblock p options identity l).fields ++
      (newSuperblock p options identity l).targetName ++ List.replicate (superblockBytes - 226) 0) := by
  have hwidth : p.pointerWidth = 4 ∨ p.pointerWidth = 8 := by
    unfold Platform.pointerWidth
    split_ifs <;> simp
  have hvalid : (newSuperblock p options identity l).identityValid = true := by
    simp only [FlightArtifactIdentity.valid, Bool.and_eq_true, decide_eq_true_eq] at hidentity
    obtain ⟨⟨⟨⟨hrun, hpid⟩, hname⟩, hlength⟩, hzero⟩ := hidentity
    have hrun : identity.runId.toNat ≠ 0 := fun heq => hrun (UInt64.toNat_inj.mp heq)
    have hpid : identity.pid.toNat ≠ 0 := fun heq => hpid (UInt32.toNat_inj.mp heq)
    have hname : identity.targetName.length ≠ 0 := by simpa using hname
    simp only [FlightSuperblock.identityValid, newSuperblock, Bool.and_eq_true, List.take_left, List.drop_left]
    exact ⟨⟨⟨⟨⟨decide_eq_true hrun, decide_eq_true hpid⟩, decide_eq_true hname⟩, decide_eq_true hlength⟩, hzero⟩,
      by simp⟩
  unfold FlightSuperblock.encode
  rw [if_neg]
  rw [not_or, not_or, hvalid]
  refine ⟨by simp [newSuperblock], ?_, by simp⟩
  rcases hwidth with hwidth | hwidth <;> simp [newSuperblock, hwidth]

theorem create_ok {path : List UInt8} {artifact : FlightArtifact} (h : create p path options identity = .ok artifact) :
    Laid options artifact.layout ∧ identity.valid = true ∧
      artifact.image = superblockImage p options identity artifact.layout ++
        List.replicate (options.capacityBytes.toNat - superblockBytes) 0 := by
  unfold create at h
  cases hlayout : layout p path options identity with
  | error e => simp [hlayout, bind, Except.bind] at h
  | ok l =>
    obtain ⟨hlaid, hidentity⟩ := layout_ok hlayout
    simp only [hlayout, encode_newSuperblock hidentity, bind, Except.bind, pure, Except.pure, Except.ok.injEq] at h
    subst h
    refine ⟨hlaid, hidentity, ?_⟩
    simp [overwrite, superblockImage, storedSuperblock, FlightSuperblock.fields, newSuperblock]
    rfl

namespace Wire

variable {cursor : Cursor} {rest : List UInt8} {value count : ℕ} {label : String} {coordinate : SourceCoordinate}

theorem uint_append {size : ℕ} (h : value < 256 ^ size) :
    cursor.uint size (leBytes size value ++ rest) = .ok (value, rest) := by
  refine Parser.map_ok.mpr ⟨leBytes size value, Parser.take_ok.mpr ⟨by simp, ?_, ?_⟩, leNat_leBytes_of_lt h⟩
  · exact (List.take_left' (length_leBytes size value)).symm
  · exact (List.drop_left' (length_leBytes size value)).symm

theorem skip_append : cursor.skip count (leBytes count value ++ rest) = .ok ((), rest) := by
  refine Parser.map_ok.mpr ⟨leBytes count value, Parser.take_ok.mpr ⟨by simp, ?_, ?_⟩, rfl⟩
  · exact (List.take_left' (length_leBytes count value)).symm
  · exact (List.drop_left' (length_leBytes count value)).symm

theorem bind_run {ε α β : Type} {q : Parser ε α} {k : α → Parser ε β} {s t : List UInt8} {a : α}
    (h : q s = .ok (a, t)) : (q >>= k) s = k a t := by
  change (q s >>= fun r => k r.1 r.2) = k a t
  rw [h]
  rfl

theorem uint_bind {β : Type} {k : ℕ → Parser ProviderError β} {size : ℕ} (h : value < 256 ^ size) :
    (cursor.uint size >>= k) (leBytes size value ++ rest) = k value rest := bind_run (uint_append h)

theorem skip_bind {β : Type} {k : Unit → Parser ProviderError β} :
    (cursor.skip count >>= k) (leBytes count value ++ rest) = k () rest := bind_run skip_append

theorem superblockFields_run {s : FlightSuperblock} (hfits : ∀ field ∈ s.fields, field.Fits) :
    (superblockFields cursor).parse (encodeFields s.fields ++ rest) = .ok { s with targetName := [] } := by
  refine Parser.parse_ok.mpr ⟨rest, ?_⟩
  simp only [FlightSuperblock.fields, List.forall_mem_cons, Field.Fits, Field.u8, Field.u16, Field.u32, Field.u64,
    Field.zero] at hfits
  simp only [FlightSuperblock.fields, encodeFields_cons, List.append_assoc, Field.u8, Field.u16, Field.u32, Field.u64,
    Field.zero]
  simp (disch := simp only [hfits]) only [superblockFields, Cursor.u8, Cursor.u16Le, Cursor.u32Le, Cursor.u64Le,
    uint_bind, skip_bind]
  rfl

theorem slice_append {bytes a b c : List UInt8} {start stop : ℕ} (hbytes : bytes = a ++ (b ++ c))
    (ha : a.length = start) (hb : start + b.length = stop) : slice bytes start stop = b := by
  rw [slice, hbytes, List.drop_left' ha, List.take_left' (by omega)]

theorem requireZero_append {bytes a b c : List UInt8} {start stop : ℕ} (hbytes : bytes = a ++ (b ++ c))
    (ha : a.length = start) (hb : start + b.length = stop) (hzero : ∀ x ∈ b, x = 0) :
    requireZero bytes start stop label coordinate = .ok () := by
  have hlength : start + b.length + c.length = bytes.length := by
    rw [hbytes, ← ha]
    simp [Nat.add_assoc]
  unfold requireZero
  rw [if_neg (by omega), slice_append hbytes ha hb, if_neg]
  simpa using hzero

theorem mem_leBytes_zero {x : UInt8} (h : x ∈ leBytes count 0) : x = 0 := by
  induction count with
  | zero => cases h
  | succ count ih =>
    rcases List.mem_cons.mp h with rfl | h
    · rfl
    · exact ih h

theorem requireZero_fields (before after : List Field) (count : ℕ) {tail : List UInt8} {start stop : ℕ}
    (hstart : fieldsWidth before = start) (hstop : start + count = stop) :
    requireZero (encodeFields (before ++ .zero count :: after) ++ tail) start stop label coordinate = .ok () := by
  refine requireZero_append (a := encodeFields before) (b := leBytes count 0) (c := encodeFields after ++ tail)
    ?_ (by rw [length_encodeFields, hstart]) (by rw [length_leBytes, hstop]) (fun x => mem_leBytes_zero)
  simp [encodeFields, List.flatMap_append, Field.zero]

theorem checkedRegion_ok {offset size artifactSize : ℕ} (hsize : artifactSize ≤ uint64Max)
    (h : offset + count * size ≤ artifactSize) :
    checkedRegion offset count size artifactSize label = .ok ⟨offset, offset + count * size⟩ := by
  unfold checkedRegion
  rw [if_neg (by omega), if_neg (by omega), if_neg (by omega)]

end Wire

/-- What the reader must find. -/
def expectedSuperblock (p : Platform) (options : FlightOptions) (identity : FlightArtifactIdentity) (l : Layout) :
    Wire.Superblock where
  pointerWidth := p.pointerWidth
  runId := identity.runId.toNat
  pid := identity.pid.toNat
  moduleGeneration := identity.moduleGeneration.toNat
  target := identity.targetName ++ List.replicate (targetNameBytes - identity.targetName.length) 0
  targetLen := identity.targetName.length
  artifactBytes := options.capacityBytes.toNat
  directory := ⟨superblockBytes, superblockBytes + options.maxThreads.toNat * directoryEntryBytes⟩
  directoryEntries := options.maxThreads.toNat
  chunks := ⟨l.chunkOffset, l.chunkOffset + l.chunkCount * options.chunkBytes.toNat⟩
  chunkBytes := options.chunkBytes.toNat
  chunkCount := l.chunkCount
  emergencies := ⟨l.emergencyOffset, l.emergencyOffset + l.emergencyRecordCount * emergencySlotBytes⟩
  emergencyCount := l.emergencyRecordCount
  flags := 0

theorem Laid.superblock_le (h : Laid options l) : superblockBytes < options.capacityBytes.toNat := by
  have h1 := h.directory_before
  have h2 := h.emergencies_before
  have h3 := h.chunkOffset_lt
  omega

section

variable (h : Laid options l) (hidentity : identity.valid = true)
include h hidentity

theorem Laid.fits : ∀ field ∈ (storedSuperblock p options identity l).fields, field.Fits := by
  have h1 := h.directory_before
  have h2 := h.emergencies_before
  have h3 := h.chunkOffset_lt
  have h4 := h.chunkCount_le
  have h5 := h.threads_lt
  have h6 := h.emergencyRecordCount_eq
  have hlength := FlightArtifactIdentity.length_le hidentity
  have hcapacity := options.capacityBytes.toNat_lt
  have hchunk := options.chunkBytes.toNat_lt
  have hrun := identity.runId.toNat_lt
  have hpid := identity.pid.toNat_lt
  have hgeneration := identity.moduleGeneration.toNat_lt
  have hwidth : p.pointerWidth ≤ 8 := by
    unfold Platform.pointerWidth
    split_ifs <;> decide
  unfold uint32Max at h4 h5
  unfold targetNameBytes at hlength
  simp only [FlightSuperblock.fields, storedSuperblock, newSuperblock, List.forall_mem_cons, Field.Fits, Field.u8,
    Field.u16, Field.u32, Field.u64, Field.zero, flightMagic, flightVersion, superblockBytes, directoryEntryBytes,
    emergencySlotBytes]
  refine ⟨?_, ?_, ?_, ?_, ?_, ?_, ?_, ?_, ?_, ?_, ?_, ?_, ?_, ?_, ?_, ?_, ?_, ?_, ?_, ?_, ?_, ?_, by simp⟩ <;> omega

theorem checkNumbers_ok :
    Wire.checkNumbers { storedSuperblock p options identity l with targetName := [] } options.capacityBytes.toNat =
      .ok () := by
  have hsize := h.superblock_le
  have hthreads := h.threads_pos
  have hthreadsMax := h.threads_lt
  have hbytes := h.chunkBytes_gt
  have hcount := h.chunkCount_pos
  have hrecords := h.emergencyRecordCount_eq
  have hpow : isPowerOfTwo options.chunkBytes.toNat = true := isPowerOfTwo_iff.mpr h.chunkBytes_pow
  have hlength := FlightArtifactIdentity.length_le hidentity
  simp only [FlightArtifactIdentity.valid, Bool.and_eq_true, decide_eq_true_eq] at hidentity
  obtain ⟨⟨⟨⟨hrun, hpid⟩, hname⟩, -⟩, -⟩ := hidentity
  have hrun : identity.runId.toNat ≠ 0 := fun heq => hrun (UInt64.toNat_inj.mp heq)
  have hpid : identity.pid.toNat ≠ 0 := fun heq => hpid (UInt32.toNat_inj.mp heq)
  have hname : identity.targetName.length ≠ 0 := by simpa using hname
  have hwidth : p.pointerWidth = 4 ∨ p.pointerWidth = 8 := by
    unfold Platform.pointerWidth
    split_ifs <;> simp
  simp only [Wire.checkNumbers, storedSuperblock, newSuperblock, bind_eq_ok, failIf_eq_ok]
  refine ⟨(), decide_eq_false ?_, (), decide_eq_false ?_, (), decide_eq_false ?_, (), decide_eq_false ?_, (),
    decide_eq_false ?_, (), decide_eq_false ?_, (), decide_eq_false ?_, decide_eq_false ?_⟩
  · rcases hwidth with hwidth | hwidth <;> simp [hwidth]
  · omega
  · omega
  · omega
  · omega
  · rw [hpow]
    simp only [Bool.true_eq_false, false_or]
    omega
  · simp
  · omega

/-- The reader accepts the superblock of a new artifact and finds what the writer computed. -/
theorem parseSuperblock_ok (hutf8 : utf8Valid identity.targetName = true) :
    Wire.parseSuperblock (superblockImage p options identity l) options.capacityBytes.toNat =
      .ok (expectedSuperblock p options identity l) := by
  have hlength := FlightArtifactIdentity.length_le hidentity
  have hblock : (superblockImage p options identity l).length = superblockBytes := length_superblockImage hidentity
  have hzero : identity.targetName.contains 0 = false := by
    simp only [FlightArtifactIdentity.valid, Bool.and_eq_true, List.all_eq_true, decide_eq_true_eq] at hidentity
    simpa using fun hmem => hidentity.2 0 hmem rfl
  have hwidth : (encodeFields (storedSuperblock p options identity l).fields).length = 98 := by
    rw [length_encodeFields, fieldsWidth_superblock]
  have hpadded : (identity.targetName ++
      List.replicate (targetNameBytes - identity.targetName.length) (0 : UInt8)).length = 128 := by
    rw [List.length_append, List.length_replicate, Nat.add_sub_cancel' hlength, targetNameBytes]
  have hcapacity := toNat_le_uint64Max options.capacityBytes
  have htarget : Wire.slice (superblockImage p options identity l) 98 (98 + identity.targetName.length) =
      identity.targetName :=
    Wire.slice_append (by rw [superblockImage, List.append_assoc]) hwidth rfl
  have hdirectory := h.directory_before
  have hemergencies := h.emergencies_before
  have hchunks := h.chunkOffset_lt
  have h64 : l.emergencyOffset % 64 = 0 :=
    Nat.mod_eq_zero_of_dvd (dvd_trans (by decide) h.emergencies_aligned)
  simp only [Wire.parseSuperblock, bind_eq_ok, failIf_eq_ok]
  refine ⟨(), ?_, (), ?_, (), ?_, _, Wire.superblockFields_run (h.fits hidentity), (),
    checkNumbers_ok h hidentity, (), decide_eq_false ?_, (), ?_, (), ?_, _,
    Wire.checkedRegion_ok hcapacity ?_, _, Wire.checkedRegion_ok hcapacity ?_, _,
    Wire.checkedRegion_ok hcapacity ?_, (), decide_eq_false ?_, (), decide_eq_false ?_, ?_⟩
  · exact Wire.requireZero_fields ((storedSuperblock p options identity l).fields.take 5)
      ((storedSuperblock p options identity l).fields.drop 6) 6 (by simp [FlightSuperblock.fields]) rfl
  · exact Wire.requireZero_fields ((storedSuperblock p options identity l).fields.take 17)
      ((storedSuperblock p options identity l).fields.drop 18) 4 (by simp [FlightSuperblock.fields]) rfl
  · exact Wire.requireZero_append (b := List.replicate (superblockBytes - 226) 0) (c := [])
      (a := encodeFields (storedSuperblock p options identity l).fields ++
        (identity.targetName ++ List.replicate (targetNameBytes - identity.targetName.length) 0))
      (by simp [superblockImage]) (by rw [List.length_append, hwidth, hpadded]) (by rw [List.length_replicate]; rfl)
      (fun x hx => List.eq_of_mem_replicate hx)
  · rw [hblock]
    simp only [storedSuperblock, newSuperblock]
    unfold targetNameBytes at hlength
    unfold superblockBytes
    omega
  · simp only [storedSuperblock, newSuperblock, htarget, hzero, hutf8]
    rfl
  · exact Wire.requireZero_append (b := List.replicate (targetNameBytes - identity.targetName.length) 0)
      (c := List.replicate (superblockBytes - 226) 0)
      (a := encodeFields (storedSuperblock p options identity l).fields ++ identity.targetName)
      (by simp only [superblockImage, List.append_assoc]) (by rw [List.length_append, hwidth]; rfl)
      (by rw [Nat.add_assoc]; exact congrArg (98 + ·) (List.length_append.symm.trans hpadded)) (fun x hx => List.eq_of_mem_replicate hx)
  · simp only [storedSuperblock, newSuperblock]
    omega
  · simp only [storedSuperblock, newSuperblock]
    omega
  · exact h.chunks_inside
  · simp only [storedSuperblock, newSuperblock]
    omega
  · simp only [storedSuperblock, newSuperblock, h64, Nat.mod_eq_zero_of_dvd h.chunks_aligned]
    decide
  · simp only [storedSuperblock, newSuperblock, htarget]
    rfl

end

theorem slice_zeros {block : List UInt8} {count start size : ℕ} (hstart : block.length ≤ start)
    (hstop : start + size ≤ block.length + count) :
    Wire.slice (block ++ List.replicate count 0) start (start + size) = List.replicate size 0 := by
  rw [Wire.slice, List.drop_append, List.drop_eq_nil_of_le hstart, List.nil_append, List.drop_replicate,
    List.take_replicate]
  congr 1
  omega

theorem parseDirectory_zeros (index chunkCount offset : ℕ) :
    Wire.parseDirectory (List.replicate directoryEntryBytes 0) index chunkCount offset = .ok none := rfl

theorem parseChunkHeader_zeros (index offset : ℕ) :
    Wire.parseChunkHeader (List.replicate chunkHeaderBytes 0) index offset = .ok none := rfl

theorem Laid.chunk_inside (h : Laid options l) {index : ℕ} (hindex : index < l.chunkCount) :
    l.chunkOffset + index * options.chunkBytes.toNat + chunkHeaderBytes ≤ options.capacityBytes.toNat := by
  have hmul : (index + 1) * options.chunkBytes.toNat ≤ l.chunkCount * options.chunkBytes.toNat :=
    Nat.mul_le_mul_right _ hindex
  have hinside := h.chunks_inside
  have hheader := h.chunkBytes_gt
  rw [Nat.succ_mul] at hmul
  omega

/-- The regions of a new artifact are in order, aligned and inside the file, the reader accepts its
superblock and finds the layout of the writer, and it accepts every directory entry and every chunk
header as unused. -/
theorem create_layout_agrees {path : List UInt8} {artifact : FlightArtifact}
    (hcreate : create p path options identity = .ok artifact) (hutf8 : utf8Valid identity.targetName = true) :
    Regular options artifact ∧
      ∃ block, Wire.parseSuperblock (artifact.image.take superblockBytes) artifact.image.length = .ok block ∧
        block = expectedSuperblock p options identity artifact.layout ∧
        (∀ index < block.directoryEntries,
          let offset := block.directory.offset + index * directoryEntryBytes
          Wire.parseDirectory (Wire.slice artifact.image offset (offset + directoryEntryBytes)) index block.chunkCount
            offset = .ok none) ∧
        ∀ index < block.chunkCount,
          let offset := block.chunks.offset + index * block.chunkBytes
          Wire.parseChunkHeader (Wire.slice artifact.image offset (offset + chunkHeaderBytes)) index offset =
            .ok none := by
  obtain ⟨hlaid, hidentity, himage⟩ := create_ok hcreate
  have hblock : (superblockImage p options identity artifact.layout).length = superblockBytes :=
    length_superblockImage hidentity
  have hsuperblock := hlaid.superblock_le
  have hlength : artifact.image.length = options.capacityBytes.toNat := by
    rw [himage, List.length_append, hblock, List.length_replicate]
    omega
  have hcapacity := toNat_le_uint64Max options.capacityBytes
  have hdirectory := hlaid.directory_before
  have hemergencies := hlaid.emergencies_before
  have hchunks := hlaid.chunkOffset_lt
  refine ⟨⟨hlength, hcapacity, hdirectory, hemergencies, hlaid.chunks_inside, hlaid.emergencies_aligned,
    hlaid.chunks_aligned⟩, expectedSuperblock p options identity artifact.layout, ?_, rfl, ?_, ?_⟩
  · rw [hlength, himage, List.take_left' hblock]
    exact parseSuperblock_ok hlaid hidentity hutf8
  · intro index hindex offset
    have hmul : (index + 1) * directoryEntryBytes ≤ options.maxThreads.toNat * directoryEntryBytes :=
      Nat.mul_le_mul_right _ hindex
    rw [Nat.succ_mul] at hmul
    have hoffset : offset = superblockBytes + index * directoryEntryBytes := rfl
    rw [himage, slice_zeros (by omega) (by omega)]
    exact parseDirectory_zeros ..
  · intro index hindex offset
    have hinside := hlaid.chunk_inside hindex
    have hoffset : offset = artifact.layout.chunkOffset + index * options.chunkBytes.toNat := rfl
    rw [himage, slice_zeros (by omega) (by omega)]
    exact parseChunkHeader_zeros ..

/-- One thread and one chunk of 128 bytes. -/
theorem create_layout_agrees_oneChunk :
    ∃ artifact, create ⟨true, 2 ^ 63 - 1⟩ [0x74] ⟨4608, 128, 1, 1⟩ ⟨1, 1, 0, [0x61]⟩ = .ok artifact ∧
      Regular ⟨4608, 128, 1, 1⟩ artifact ∧
      ∃ block, Wire.parseSuperblock (artifact.image.take superblockBytes) artifact.image.length = .ok block := by
  have hlayout : layout ⟨true, 2 ^ 63 - 1⟩ [0x74] ⟨4608, 128, 1, 1⟩ ⟨1, 1, 0, [0x61]⟩ = .ok ⟨4224, 2, 4480, 1⟩ := by
    decide +kernel
  cases hcreate : create ⟨true, 2 ^ 63 - 1⟩ [0x74] ⟨4608, 128, 1, 1⟩ ⟨1, 1, 0, [0x61]⟩ with
  | error e =>
    rw [create, hlayout] at hcreate
    simp only [bind, Except.bind] at hcreate
    rw [encode_newSuperblock (by decide)] at hcreate
    cases hcreate
  | ok artifact =>
    obtain ⟨hregular, block, hblock, -⟩ := create_layout_agrees hcreate (by decide)
    exact ⟨artifact, rfl, hregular, block, hblock⟩

end QTrace.Flight
