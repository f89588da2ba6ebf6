import QTrace.Cache.Writer

/-! Where the sections of a cache file lie, as a function of the sections alone, and that the
writer puts them there: it returns a file exactly if the sizes are within the limits, and then
this one. -/

namespace QTrace.Cache

open Lib
open Analysis (EventKey EventKind)

/-- The descriptors of sections that follow each other from an offset on. -/
def place (codec : Codec) : ℕ → List OwnedSection → List SectionDescriptor
  | _, [] => []
  | offset, s :: rest =>
    ⟨s.alignment, codec.sha256 s.data, s.elementSize, s.data.length, s.name, alignUp offset s.alignment⟩ ::
      place codec (alignUp offset s.alignment + s.data.length) rest

/-- Their bytes, with the zeros in front of each. -/
def bodyBytes : ℕ → List OwnedSection → List UInt8
  | _, [] => []
  | offset, s :: rest =>
    List.replicate (alignUp offset s.alignment - offset) 0 ++
      (s.data ++ bodyBytes (alignUp offset s.alignment + s.data.length) rest)

/-- The event kinds and event keys as sections. -/
def eventSections (store : OwnedStoreView) : List OwnedSection :=
  [⟨eventKindsSection, 1, 1, store.kinds.map encodeEventKind⟩,
    ⟨eventKeysSection, 8, eventKeyBytes, store.keys.flatMap encodeEventKey⟩]

def allSections (store : OwnedStoreView) : List OwnedSection := eventSections store ++ store.extraSections

/-- What `with_section` and the file format ask of the sections, and what the keys must carry. -/
structure Contract (identity : CacheIdentity) (store : OwnedStoreView) : Prop where
  identity_valid : identity.validate = .ok ()
  names_nodup : ((allSections store).map OwnedSection.name).Nodup
  aligned : ∀ s ∈ store.extraSections, isPowerOfTwo s.alignment = true ∧ s.alignment ≤ 4096
  elements : ∀ s ∈ store.extraSections, s.elementSize ≠ 0 ∧ s.elementSize ∣ s.data.length
  known : ∀ s ∈ store.extraSections, ∀ contract, knownSectionContract s.name = some contract →
    contract = (s.alignment, s.elementSize)
  count_le : (allSections store).length ≤ maxSections
  artifacts : ∀ key ∈ store.keys, key.artifact = identity.artifactDigest

def manifestOf (codec : Codec) (identity : CacheIdentity) (store : OwnedStoreView) : CacheManifest :=
  ⟨identity, place codec headerBytes (allSections store)⟩

def headerOf (codec : Codec) (identity : CacheIdentity) (store : OwnedStoreView) : CacheHeader :=
  let manifest := codec.encodeManifest (manifestOf codec identity store)
  ⟨identity.cacheSchema.toNat, headerBytes + (bodyBytes headerBytes (allSections store)).length, manifest.length,
    codec.sha256 manifest⟩

/-- The whole file. -/
def fileImage (codec : Codec) (identity : CacheIdentity) (store : OwnedStoreView) : List UInt8 :=
  (headerOf codec identity store).encode ++
    (bodyBytes headerBytes (allSections store) ++ codec.encodeManifest (manifestOf codec identity store))

/-- The limits on the file and on the manifest. -/
structure Fits (codec : Codec) (identity : CacheIdentity) (store : OwnedStoreView) : Prop where
  file_le : (fileImage codec identity store).length ≤ maxFileBytes
  manifest_le : (codec.encodeManifest (manifestOf codec identity store)).length ≤ maxManifestBytes

variable {codec : Codec} {identity : CacheIdentity} {store : OwnedStoreView}

theorem length_headerOf : (headerOf codec identity store).encode.length = headerBytes :=
  CacheHeader.length_encode (codec.length_sha256 _)

theorem length_keyBytes (keys : List EventKey) : (keys.flatMap encodeEventKey).length = keys.length * eventKeyBytes := by
  induction keys with
  | nil => simp
  | cons key keys ih => rw [List.flatMap_cons, List.length_append, ih, length_encodeEventKey, List.length_cons, Nat.succ_mul,
      Nat.add_comm]

theorem alignment_pos {n : ℕ} (h : isPowerOfTwo n = true) : 0 < n := by
  obtain ⟨k, rfl⟩ := isPowerOfTwo_iff.mp h
  exact Nat.two_pow_pos k

theorem writePart_ok {site : Site} {written bytes file : List UInt8} :
    writePart noFaults site written bytes = .ok file ↔
      written.length + bytes.length ≤ maxFileBytes ∧ file = written ++ bytes := by
  simp only [writePart, work_noFaults, system_noFaults, bind_eq_ok, failIf_eq_ok, pure_eq_ok, decide_eq_false_iff_not,
    not_lt]
  constructor
  · rintro ⟨-, -, -, -, -, hle, rfl⟩
    exact ⟨hle, rfl⟩
  · rintro ⟨hle, rfl⟩
    exact ⟨(), trivial, (), trivial, (), hle, rfl⟩

variable {written file : List UInt8} {sections : List SectionDescriptor}
  {result : List UInt8 × List SectionDescriptor × ℕ}

theorem foldlM_writePart_ok {β : Type} {l : List β} {part : β → List UInt8}
    {step : List UInt8 → β → Except CacheError (List UInt8)}
    (hstep : ∀ written file, ∀ b ∈ l, step written b = .ok file ↔
      written.length + (part b).length ≤ maxFileBytes ∧ file = written ++ part b)
    (hwritten : written.length ≤ maxFileBytes) :
    l.foldlM step written = .ok file ↔
      written.length + (l.flatMap part).length ≤ maxFileBytes ∧ file = written ++ l.flatMap part := by
  induction l generalizing written with
  | nil =>
    simp only [List.foldlM_nil, pure_eq_ok, List.flatMap_nil, List.length_nil, Nat.add_zero, List.append_nil]
    exact ⟨fun h => ⟨hwritten, h.symm⟩, fun h => h.2.symm⟩
  | cons b l ih =>
    have hrest := fun written (hw : List.length written ≤ maxFileBytes) =>
      ih (fun written file c hc => hstep written file c (List.mem_cons_of_mem _ hc)) hw
    rw [List.foldlM_cons, bind_eq_ok, List.flatMap_cons, List.length_append, ← List.append_assoc]
    constructor
    · rintro ⟨next, hnext, hfile⟩
      obtain ⟨hle, rfl⟩ := (hstep written next b List.mem_cons_self).mp hnext
      rw [← List.length_append] at hle
      obtain ⟨htotal, rfl⟩ := (hrest _ hle).mp hfile
      rw [List.length_append] at htotal
      exact ⟨by omega, rfl⟩
    · rintro ⟨htotal, rfl⟩
      refine ⟨written ++ part b, (hstep _ _ b List.mem_cons_self).mpr ⟨by omega, rfl⟩, ?_⟩
      refine (hrest _ ?_).mpr ⟨?_, rfl⟩ <;> rw [List.length_append] <;> omega

theorem writeChunks_ok {site : ℕ → Site} {bytes : List UInt8} (hwritten : written.length ≤ maxFileBytes) :
    writeChunks noFaults site written bytes = .ok file ↔
      written.length + bytes.length ≤ maxFileBytes ∧ file = written ++ bytes := by
  have hall := flatMap_spans bytes (show 0 < chunkBytes by decide) bytes.length
  rw [List.take_length] at hall
  have hstep : ∀ written file, ∀ span ∈ spans chunkBytes bytes.length,
      writePart noFaults (site span.index) written (window bytes span.start span.count) = .ok file ↔
        written.length + (window bytes span.start span.count).length ≤ maxFileBytes ∧
          file = written ++ window bytes span.start span.count := fun _ _ _ _ => writePart_ok
  rw [writeChunks, foldlM_writePart_ok hstep hwritten, hall]

theorem writeKeys_ok {keys : List EventKey} (hwritten : written.length ≤ maxFileBytes)
    (hkeys : ∀ key ∈ keys, key.artifact = identity.artifactDigest) :
    writeKeys noFaults identity written keys = .ok file ↔
      written.length + keys.length * eventKeyBytes ≤ maxFileBytes ∧ file = written ++ keys.flatMap encodeEventKey := by
  have hall := flatMap_spans keys (show 0 < chunkBytes / eventKeyBytes by decide) keys.length
  rw [List.take_length] at hall
  have hbytes : (spans (chunkBytes / eventKeyBytes) keys.length).flatMap
      (fun span => (window keys span.start span.count).flatMap encodeEventKey) = keys.flatMap encodeEventKey := by
    conv_rhs => rw [← hall]
    rw [List.flatMap_assoc]
  have hstep : ∀ written file, ∀ span ∈ spans (chunkBytes / eventKeyBytes) keys.length,
      (do
        work noFaults (.writeKeys span.index)
        let bytes ← encodeKeys identity (window keys span.start span.count)
        writePart noFaults (.writeKeys span.index) written bytes) = .ok file ↔
        written.length + ((window keys span.start span.count).flatMap encodeEventKey).length ≤ maxFileBytes ∧
          file = written ++ (window keys span.start span.count).flatMap encodeEventKey := by
    intro written file span _
    have hencode : encodeKeys identity (window keys span.start span.count) =
        .ok ((window keys span.start span.count).flatMap encodeEventKey) := by
      have hsame : (window keys span.start span.count).any (·.artifact ≠ identity.artifactDigest) = false := by
        simp only [List.any_eq_false, decide_eq_true_eq, not_not]
        exact fun key hkey => hkeys key (List.mem_of_mem_drop (List.mem_of_mem_take hkey))
      rw [encodeKeys, hsame]
      rfl
    rw [work_noFaults, hencode]
    exact @writePart_ok (.writeKeys span.index) ..
  rw [writeKeys, foldlM_writePart_ok hstep hwritten, hbytes, length_keyBytes]

theorem checkedAdd_ok {left right sum : ℕ} {detail : String} :
    checkedAdd left right detail = .ok sum ↔ left + right ≤ uint64Max ∧ sum = left + right := by
  unfold checkedAdd
  split_ifs with h
  · simp only [false_iff, not_and]
    omega
  · simp only [Except.ok.injEq]
    omega

theorem alignUp64_of_le {value alignment : ℕ} (hpow : isPowerOfTwo alignment = true)
    (halignment : alignment ≤ 4096) (hvalue : value ≤ maxFileBytes) :
    alignUp64 value alignment = .ok (alignUp value alignment) := by
  obtain ⟨k, rfl⟩ := isPowerOfTwo_iff.mp hpow
  have hk : k ≤ 64 := by
    by_contra hk
    have : 2 ^ 64 ≤ 2 ^ k := Nat.pow_le_pow_right (by omega) (by omega)
    omega
  have hpos := Nat.two_pow_pos k
  unfold maxFileBytes at hvalue
  have hover : ¬uint64Max < value + (2 ^ k - 1) := by
    unfold uint64Max
    omega
  unfold alignUp64
  rw [if_neg hpos.ne', if_neg hover]
  exact congrArg Except.ok (and_clear_low (by omega) hk)

/-- A section and the zeros in front of it. -/
def placedBytes (offset : ℕ) (s : OwnedSection) : List UInt8 :=
  List.replicate (alignUp offset s.alignment - offset) 0 ++ s.data

variable {s : OwnedSection}

theorem length_placedBytes (h : isPowerOfTwo s.alignment = true) (offset : ℕ) :
    offset + (placedBytes offset s).length = alignUp offset s.alignment + s.data.length := by
  have hle := le_alignUp (alignment_pos h) offset
  rw [placedBytes, List.length_append, List.length_replicate]
  omega

theorem bodyBytes_cons (offset : ℕ) (s : OwnedSection) (rest : List OwnedSection) :
    bodyBytes offset (s :: rest) =
      placedBytes offset s ++ bodyBytes (alignUp offset s.alignment + s.data.length) rest := by
  rw [bodyBytes, placedBytes, List.append_assoc]

theorem writePadding_ok {ordinal count : ℕ} (hwritten : written.length ≤ maxFileBytes) :
    writePadding noFaults ordinal written count = .ok file ↔
      written.length + count ≤ maxFileBytes ∧ file = written ++ List.replicate count 0 := by
  unfold writePadding
  split_ifs with hzero
  · rw [hzero, Nat.add_zero, List.replicate_zero, List.append_nil, Except.ok.injEq]
    exact ⟨fun h => ⟨hwritten, h.symm⟩, fun h => h.2.symm⟩
  · rw [writePart_ok, List.length_replicate]

theorem writeExtra_ok (hs : isPowerOfTwo s.alignment = true ∧ s.alignment ≤ 4096)
    (hwritten : written.length ≤ maxFileBytes) :
    writeExtra noFaults codec (written, sections, written.length) s = .ok result ↔
      written.length + (placedBytes written.length s).length ≤ maxFileBytes ∧
        result = (written ++ placedBytes written.length s,
          sections ++ [⟨s.alignment, codec.sha256 s.data, s.elementSize, s.data.length, s.name,
            alignUp written.length s.alignment⟩],
          (written ++ placedBytes written.length s).length) := by
  have hlength := length_placedBytes hs.1 written.length
  have halign := le_alignUp (alignment_pos hs.1) written.length
  have hmax : maxFileBytes ≤ uint64Max := by decide
  have hpadded : (written ++ List.replicate (alignUp written.length s.alignment - written.length) (0 : UInt8)).length =
      alignUp written.length s.alignment := by
    rw [List.length_append, List.length_replicate, Nat.add_sub_cancel' halign]
  simp only [writeExtra, work_noFaults, alignUp64_of_le hs.1 hs.2 hwritten, bind_eq_ok, pure_eq_ok,
    writePadding_ok hwritten, checkedAdd_ok, Except.ok.injEq]
  constructor
  · rintro ⟨-, -, offset, rfl, padded, ⟨hle, rfl⟩, file, hfile, next, ⟨-, rfl⟩, rfl⟩
    obtain ⟨htotal, rfl⟩ := (writeChunks_ok (by rw [hpadded]; omega)).mp hfile
    rw [hpadded] at htotal
    refine ⟨by omega, ?_⟩
    rw [placedBytes, List.append_assoc, ← placedBytes, List.length_append, hlength]
  · rintro ⟨htotal, rfl⟩
    refine ⟨(), trivial, _, rfl, _, ⟨by omega, rfl⟩, _, (writeChunks_ok (by rw [hpadded]; omega)).mpr ⟨?_, rfl⟩, _,
      ⟨by omega, rfl⟩, ?_⟩
    · rw [hpadded]
      omega
    · rw [placedBytes, List.append_assoc, ← placedBytes, List.length_append, hlength]

theorem writeExtras_ok {extras : List OwnedSection}
    (hextras : ∀ s ∈ extras, isPowerOfTwo s.alignment = true ∧ s.alignment ≤ 4096)
    (hwritten : written.length ≤ maxFileBytes) :
    extras.foldlM (writeExtra noFaults codec) (written, sections, written.length) = .ok result ↔
      written.length + (bodyBytes written.length extras).length ≤ maxFileBytes ∧
        result = (written ++ bodyBytes written.length extras, sections ++ place codec written.length extras,
          written.length + (bodyBytes written.length extras).length) := by
  induction extras generalizing written sections with
  | nil =>
    simp only [List.foldlM_nil, pure_eq_ok, bodyBytes, place, List.append_nil, List.length_nil, Nat.add_zero]
    exact ⟨fun h => ⟨hwritten, h.symm⟩, fun h => h.2.symm⟩
  | cons s extras ih =>
    have hs := hextras s List.mem_cons_self
    have hlength := length_placedBytes hs.1 written.length
    have hnext : (written ++ placedBytes written.length s).length = alignUp written.length s.alignment + s.data.length := by
      rw [List.length_append, hlength]
    have hrest := fun {next} h => @ih (written ++ placedBytes written.length s) next
      (fun t ht => hextras t (List.mem_cons_of_mem _ ht)) h
    rw [List.foldlM_cons, bind_eq_ok, bodyBytes_cons, place, List.length_append]
    constructor
    · rintro ⟨next, hstep, hfold⟩
      obtain ⟨hle, rfl⟩ := (writeExtra_ok hs hwritten).mp hstep
      obtain ⟨htotal, rfl⟩ := (hrest (by rw [List.length_append]; omega)).mp hfold
      rw [hnext] at htotal ⊢
      refine ⟨by omega, ?_⟩
      rw [← hlength]
      simp only [List.append_assoc, List.cons_append, List.nil_append, Nat.add_assoc]
    · rintro ⟨htotal, rfl⟩
      refine ⟨_, (writeExtra_ok hs hwritten).mpr ⟨by omega, rfl⟩, ?_⟩
      refine (hrest (by rw [hnext]; omega)).mpr ⟨by rw [hnext]; omega, ?_⟩
      rw [hnext, ← hlength]
      simp only [List.append_assoc, List.cons_append, List.nil_append, Nat.add_assoc]

theorem alignUp_one (n : ℕ) : alignUp n 1 = n := alignUp_of_dvd Nat.one_pos (one_dvd n)

/-- The two event sections in front of the others. -/
theorem bodyBytes_allSections (offset : ℕ) :
    bodyBytes offset (allSections store) = store.kinds.map encodeEventKind ++
      (List.replicate (alignUp (offset + store.kinds.length) 8 - (offset + store.kinds.length)) 0 ++
        (store.keys.flatMap encodeEventKey ++
          bodyBytes (alignUp (offset + store.kinds.length) 8 + store.keys.length * eventKeyBytes)
            store.extraSections)) := by
  simp only [allSections, eventSections, List.cons_append, List.nil_append, bodyBytes, alignUp_one, Nat.sub_self,
    List.replicate_zero, List.length_map, length_keyBytes]

theorem place_allSections (offset : ℕ) :
    place codec offset (allSections store) =
      [⟨1, codec.sha256 (store.kinds.map encodeEventKind), 1, store.kinds.length, eventKindsSection, offset⟩,
        ⟨8, codec.sha256 (store.keys.flatMap encodeEventKey), eventKeyBytes, store.keys.length * eventKeyBytes,
          eventKeysSection, alignUp (offset + store.kinds.length) 8⟩] ++
        place codec (alignUp (offset + store.kinds.length) 8 + store.keys.length * eventKeyBytes)
          store.extraSections := by
  simp only [allSections, eventSections, List.cons_append, List.nil_append, place, alignUp_one, List.length_map,
    length_keyBytes]

theorem writeSections_ok (h : Contract identity store) (hwritten : written.length = headerBytes) :
    writeSections noFaults codec identity store written = .ok result ↔
      headerBytes + (bodyBytes headerBytes (allSections store)).length ≤ maxFileBytes ∧
        result = (written ++ bodyBytes headerBytes (allSections store), place codec headerBytes (allSections store),
          headerBytes + (bodyBytes headerBytes (allSections store)).length) := by
  have hmax : headerBytes ≤ maxFileBytes := by decide
  have hmax64 : maxFileBytes ≤ uint64Max := by decide
  have halign := le_alignUp (show 0 < 8 by decide) (headerBytes + store.kinds.length)
  have haligned : headerBytes + store.kinds.length ≤ maxFileBytes → alignUp64 (headerBytes + store.kinds.length) 8 =
      .ok (alignUp (headerBytes + store.kinds.length) 8) := alignUp64_of_le (by decide) (by decide)
  -- the file behind the kinds, behind the zeros and behind the keys
  have h1 : (written ++ store.kinds.map encodeEventKind).length = headerBytes + store.kinds.length := by
    rw [List.length_append, hwritten, List.length_map]
  set zeros := List.replicate (alignUp (headerBytes + store.kinds.length) 8 - (headerBytes + store.kinds.length))
    (0 : UInt8) with hzeros
  have h2 : (written ++ store.kinds.map encodeEventKind ++ zeros).length = alignUp (headerBytes + store.kinds.length) 8 := by
    rw [List.length_append, h1, hzeros, List.length_replicate, Nat.add_sub_cancel' halign]
  have h3 : (written ++ store.kinds.map encodeEventKind ++ zeros ++ store.keys.flatMap encodeEventKey).length =
      alignUp (headerBytes + store.kinds.length) 8 + store.keys.length * eventKeyBytes := by
    rw [List.length_append, h2, length_keyBytes]
  have hbody : ∀ rest : List UInt8, headerBytes + (store.kinds.map encodeEventKind ++ (zeros ++
      (store.keys.flatMap encodeEventKey ++ rest))).length =
      alignUp (headerBytes + store.kinds.length) 8 + store.keys.length * eventKeyBytes + rest.length := by
    intro rest
    rw [← h3, ← hwritten]
    simp only [List.length_append]
    omega
  rw [bodyBytes_allSections, place_allSections, ← hzeros, hbody]
  simp only [writeSections, bind_eq_ok, checkedAdd_ok, failIf_eq_ok, List.length_map, decide_eq_false_iff_not, not_lt,
    writePart_ok, List.length_replicate]
  constructor
  · rintro ⟨file1, hkinds, kindsEnd, ⟨-, rfl⟩, keysOffset, hoffset, file2, ⟨hzeros, rfl⟩, file3, hkeys, -, -, next,
      ⟨-, rfl⟩, hextras⟩
    obtain ⟨hle, rfl⟩ := (writeChunks_ok (hwritten ▸ hmax)).mp hkinds
    rw [List.length_map, hwritten] at hle
    rw [haligned hle, Except.ok.injEq] at hoffset
    subst hoffset
    rw [h1, Nat.add_sub_cancel' halign] at hzeros
    obtain ⟨hle, rfl⟩ := (writeKeys_ok (h2.le.trans hzeros) h.artifacts).mp hkeys
    rw [h2] at hle
    rw [← h3] at hextras
    obtain ⟨hle, rfl⟩ := (writeExtras_ok h.aligned (h3.le.trans hle)).mp hextras
    rw [h3] at hle ⊢
    exact ⟨hle, by simp only [List.append_assoc]⟩
  · rintro ⟨hle, rfl⟩
    refine ⟨_, (writeChunks_ok (hwritten ▸ hmax)).mpr ⟨by rw [List.length_map, hwritten]; omega, rfl⟩, _,
      ⟨by omega, rfl⟩, _, haligned (by omega), _, ⟨by rw [h1]; omega, rfl⟩, _,
      (writeKeys_ok (by rw [h2]; omega) h.artifacts).mpr ⟨by rw [h2]; omega, rfl⟩, (), by omega, _, ⟨by omega, rfl⟩, ?_⟩
    have hextras := fun sections =>
      (@writeExtras_ok codec _ sections _ _ h.aligned (h3.le.trans (by omega))).mpr ⟨by rw [h3]; omega, rfl⟩
    simp only [h3] at hextras
    rw [hextras]
    simp only [List.append_assoc]

theorem length_fileImage :
    (fileImage codec identity store).length = headerBytes + (bodyBytes headerBytes (allSections store)).length +
      (codec.encodeManifest (manifestOf codec identity store)).length := by
  rw [fileImage, List.length_append, List.length_append, length_headerOf, Nat.add_assoc]

/-- The writer returns a file exactly if the sizes are within the limits, and then the image. -/
theorem writeFile_ok (h : Contract identity store) :
    writeFile noFaults codec identity store = .ok file ↔
      Fits codec identity store ∧ file = fileImage codec identity store := by
  have hblank : ([] ++ List.replicate headerBytes (0 : UInt8)).length = headerBytes := by simp
  have hmax : headerBytes ≤ maxFileBytes := by decide
  have hencode := @length_headerOf codec identity store
  have hlength := @length_fileImage codec identity store
  -- the header takes the place of the blank one
  have hover : ∀ rest : List UInt8, overwrite ([] ++ List.replicate headerBytes 0 ++ rest) 0
      (headerOf codec identity store).encode = (headerOf codec identity store).encode ++ rest := by
    intro rest
    rw [overwrite, List.take_zero, List.nil_append, Nat.zero_add, hencode, List.drop_left' hblank]
  simp only [writeFile, bind_eq_ok, writePart_ok, work_noFaults, system_noFaults, pure_eq_ok, canonicalManifestJson,
    failIf_eq_ok, decide_eq_false_iff_not, not_lt, exists_const, true_and]
  constructor
  · rintro ⟨blank, ⟨-, rfl⟩, result, hsections, manifest, ⟨hmanifest, rfl⟩, file2, ⟨hle, rfl⟩, rfl⟩
    obtain ⟨-, rfl⟩ := (writeSections_ok h hblank).mp hsections
    dsimp only at hle hmanifest ⊢
    rw [List.length_append, hblank] at hle
    refine ⟨⟨?_, hmanifest⟩, ?_⟩
    · rw [hlength]
      exact hle
    · rw [List.append_assoc _ _ (codec.encodeManifest _)]
      exact hover _
  · rintro ⟨hfits, rfl⟩
    have hfile := hfits.file_le
    rw [hlength] at hfile
    refine ⟨_, ⟨by simpa using hmax, rfl⟩, _, (writeSections_ok h hblank).mpr ⟨by omega, rfl⟩, _,
      ⟨hfits.manifest_le, rfl⟩, _, ⟨?_, rfl⟩, ?_⟩
    · rw [List.length_append, hblank]
      exact hfile
    · rw [List.append_assoc _ _ (codec.encodeManifest _)]
      exact hover _

end QTrace.Cache
