import QTrace.Cache.Placement

/-! The reader accepts what the writer wrote, finds every section where it was put, and decodes
every row to the key and kind it was written from. -/

namespace QTrace.Cache

open Lib
open Analysis (EventKey EventKind)

variable {codec : Codec} {identity : CacheIdentity} {store : OwnedStoreView} {file : List UInt8}
  {keys : List EventKey} {row : ℕ}

theorem readExactAt_noFaults {site : Site} {offset count : ℕ} (h : offset + count ≤ file.length) :
    readExactAt noFaults site file offset count = .ok (window file offset count) := by
  unfold readExactAt
  by_cases hcount : count = 0
  · simp [hcount, bind, Except.bind, pure, Except.pure]
  · have hfits : decide (file.length < offset + count) = false := decide_eq_false (by omega)
    simp [hcount, hfits, failIf, bind, Except.bind, pure, Except.pure]

@[simp] theorem fatal_eq_ok {α : Type} {x : Except CacheError α} {a : α} : fatal x = .ok a ↔ x = .ok a := by
  cases x <;> simp [fatal, Except.mapError]

@[simp] theorem rebuild_eq_ok {α : Type} {x : Except RebuildReason α} {a : α} : rebuild x = .ok a ↔ x = .ok a := by
  cases x <;> simp [rebuild, Except.mapError]

@[simp] theorem orRebuild_eq_ok {α : Type} {x : Except CacheError α} {detail : String} {a : α} :
    orRebuild x detail = .ok a ↔ x = .ok a := by
  cases x <;> simp [orRebuild, Except.mapError]

theorem discard_eq_ok {η α : Type} {x : Except η α} {a : α} (h : x = .ok a) : discard x = .ok () := by
  rw [h]
  rfl

theorem validateZeroPadding_ok {ordinal start stop : ℕ} (hle : start ≤ stop) (hstop : stop ≤ file.length)
    (hzero : ∀ x ∈ window file start (stop - start), x = 0) :
    validateZeroPadding noFaults file ordinal start stop = .ok () := by
  refine ok_check (not_lt.mpr hle) (forM_eq_ok.mpr fun span hspan => ?_)
  have hspanLe := span_le hspan
  have hbytes : (window file (start + span.start) span.count).any (· ≠ 0) = false := by
    rw [List.any_eq_false]
    intro x hx
    rw [← window_window hspanLe] at hx
    simpa using hzero x (List.mem_of_mem_drop (List.mem_of_mem_take hx))
  exact ok_bind (fatal_eq_ok.mpr (readExactAt_noFaults (by omega))) (failIf_eq_ok.mpr hbytes)

/-- Every piece of a section passes the check of its rows. -/
def PayloadOk (identity : CacheIdentity) (name : String) (data : List UInt8) : Prop :=
  ∀ span ∈ spans chunkBytes data.length,
    validateKnownPayload name (window data span.start span.count) identity = .ok ()

theorem payloadOk_kinds (kinds : List EventKind) :
    PayloadOk identity eventKindsSection (kinds.map encodeEventKind) := by
  intro span _
  rw [validateKnownPayload, if_pos rfl, forM_eq_ok]
  intro value hvalue
  obtain ⟨kind, -, rfl⟩ := List.mem_map.mp (List.mem_of_mem_drop (List.mem_of_mem_take hvalue))
  exact discard_eq_ok (orRebuild_eq_ok.mpr (decodeEventKind_encodeEventKind kind))

theorem window_keyBytes (hrow : row < keys.length) :
    window (keys.flatMap encodeEventKey) (row * eventKeyBytes) eventKeyBytes = encodeEventKey (keys.get ⟨row, hrow⟩) := by
  induction keys generalizing row with
  | nil => simp at hrow
  | cons key keys ih =>
    rw [List.flatMap_cons]
    cases row with
    | zero =>
      rw [Nat.zero_mul, window, List.drop_zero]
      exact List.take_left' (length_encodeEventKey key)
    | succ row =>
      rw [Nat.succ_mul, Nat.add_comm, ← length_encodeEventKey key, window_append_right, length_encodeEventKey]
      exact ih (Nat.lt_of_succ_lt_succ hrow)

theorem payloadOk_keys (hkeys : ∀ key ∈ keys, key.artifact = identity.artifactDigest) :
    PayloadOk identity eventKeysSection (keys.flatMap encodeEventKey) := by
  intro span hspan
  have hlength := length_keyBytes keys
  obtain ⟨⟨first, hfirst⟩, ⟨count, hcount⟩⟩ := span_dvd hspan (show eventKeyBytes ∣ chunkBytes by decide)
    (Dvd.intro_left _ hlength.symm)
  have hle := span_le hspan
  have hwindow := length_window hle
  rw [validateKnownPayload, if_neg (by decide), if_pos rfl, hwindow]
  have hmod : decide (span.count % eventKeyBytes ≠ 0) = false := decide_eq_false (by rw [hcount]; simp)
  refine ok_bind (forM_eq_ok.mpr fun row hrow => ?_) (by rw [hmod]; rfl)
  rw [List.mem_range, hcount, Nat.mul_div_cancel_left _ (by decide)] at hrow
  rw [hlength, hfirst, hcount] at hle
  unfold eventKeyBytes at hfirst hcount hle
  have hindex : first + row < keys.length := by omega
  have hrowWindow : window (window (keys.flatMap encodeEventKey) span.start span.count) (row * eventKeyBytes)
      eventKeyBytes = encodeEventKey (keys.get ⟨first + row, hindex⟩) := by
    rw [window_window (by unfold eventKeyBytes; omega), ← window_keyBytes hindex]
    congr 1
    unfold eventKeyBytes
    omega
  rw [hrowWindow, ← hkeys _ (List.get_mem keys ⟨first + row, hindex⟩)]
  exact discard_eq_ok (orRebuild_eq_ok.mpr (decodeEventKey_encodeEventKey _))

/-- What the reader asks of one section, wherever it lies. -/
structure Sound (identity : CacheIdentity) (s : OwnedSection) : Prop where
  power : isPowerOfTwo s.alignment = true
  alignment_le : s.alignment ≤ 4096
  element_ne : s.elementSize ≠ 0
  element_dvd : s.elementSize ∣ s.data.length
  known : ∀ contract, knownSectionContract s.name = some contract → contract = (s.alignment, s.elementSize)
  payload : PayloadOk identity s.name s.data

/-- The descriptor of a section that starts at an offset. -/
def descriptorAt (codec : Codec) (s : OwnedSection) (offset : ℕ) : SectionDescriptor :=
  ⟨s.alignment, codec.sha256 s.data, s.elementSize, s.data.length, s.name, offset⟩

variable {s : OwnedSection}

theorem checkSection_ok (h : Sound identity s) {before : List SectionDescriptor} {sections : List OwnedSection}
    {offset previousEnd manifestOffset : ℕ}
    (hnames : (before.map SectionDescriptor.name ++ (s :: sections).map OwnedSection.name).Nodup)
    (haligned : s.alignment ∣ offset) (hprevious : previousEnd ≤ offset)
    (hend : offset + s.data.length ≤ manifestOffset) (hmax : manifestOffset ≤ uint64Max) :
    checkSection before (descriptorAt codec s offset) previousEnd manifestOffset = .ok (offset + s.data.length) := by
  have hname : ∀ d ∈ before, d.name ≠ s.name := fun d hd heq =>
    List.disjoint_of_nodup_append hnames (List.mem_map_of_mem hd) (heq ▸ List.mem_cons_self)
  have hany : before.any (·.name = s.name) = false := by simpa [List.any_eq_false] using hname
  have hmod := Nat.mod_eq_zero_of_dvd haligned
  have helement := Nat.mod_eq_zero_of_dvd h.element_dvd
  have halignment := h.alignment_le
  have hpower := h.power
  have hne := h.element_ne
  have hknown : checkKnownSection (descriptorAt codec s offset) = .ok () := by
    unfold checkKnownSection
    cases hcontract : knownSectionContract s.name with
    | none => simp only [descriptorAt, hcontract]
    | some contract =>
      simp only [descriptorAt, hcontract, h.known contract hcontract]
      simp [failIf, bind, Except.bind, pure, Except.pure]
  simp only [checkSection, bind_eq_ok, failIf_eq_ok, pure_eq_ok]
  exact ⟨(), hany, (), decide_eq_false (by simp [descriptorAt, hpower, halignment]), (),
    decide_eq_false (by simp [descriptorAt, hmod]), (), decide_eq_false (by simp [descriptorAt, hne, helement]), (),
    hknown, (), decide_eq_false (show ¬uint64Max < offset + s.data.length by omega), (), decide_eq_false
    (show ¬(offset < previousEnd ∨ manifestOffset < offset + s.data.length) by omega), rfl⟩

theorem checksumSection_ok (h : Sound identity s) {ordinal offset : ℕ} (hle : offset + s.data.length ≤ file.length)
    (hdata : window file offset s.data.length = s.data) :
    checksumSection noFaults codec file ordinal (descriptorAt codec s offset) identity = .ok () := by
  have hall := flatMap_spans s.data (show 0 < chunkBytes by decide) s.data.length
  rw [List.take_length] at hall
  refine ok_bind (foldlM_collect (f := fun span => window s.data span.start span.count)
    (fun read span hspan => ?_) []) (failIf_eq_ok.mpr (decide_eq_false ?_))
  · have hspanLe : _ ≤ s.data.length := span_le hspan
    have hpiece : window file (offset + span.start) span.count = window s.data span.start span.count := by
      rw [← window_window hspanLe, hdata]
    simp only [descriptorAt]
    rw [readExactAt_noFaults (by omega), hpiece]
    exact ok_bind rfl (ok_bind (h.payload span hspan) rfl)
  · simp only [descriptorAt, List.nil_append, hall, not_not]

section

variable (h : isPowerOfTwo s.alignment = true)
include h

theorem length_front (front : List UInt8) :
    (front ++ placedBytes front.length s).length = alignUp front.length s.alignment + s.data.length := by
  rw [List.length_append, length_placedBytes h]

theorem file_behind (sections : List OwnedSection) (front tail : List UInt8) :
    front ++ (bodyBytes front.length (s :: sections) ++ tail) = front ++ placedBytes front.length s ++
      (bodyBytes (front ++ placedBytes front.length s).length sections ++ tail) := by
  rw [length_front h, bodyBytes_cons]
  simp only [List.append_assoc]

theorem window_first (sections : List OwnedSection) (front tail : List UInt8) :
    window (front ++ (bodyBytes front.length (s :: sections) ++ tail)) (alignUp front.length s.alignment)
      s.data.length = s.data ∧
    window (front ++ (bodyBytes front.length (s :: sections) ++ tail)) front.length
      (alignUp front.length s.alignment - front.length) =
        List.replicate (alignUp front.length s.alignment - front.length) 0 := by
  have halign := le_alignUp (alignment_pos h) front.length
  have hpiece : front ++ (bodyBytes front.length (s :: sections) ++ tail) = front ++
      (List.replicate (alignUp front.length s.alignment - front.length) 0 ++ (s.data ++
        (bodyBytes (alignUp front.length s.alignment + s.data.length) sections ++ tail))) := by
    rw [bodyBytes]
    simp only [List.append_assoc]
  rw [hpiece]
  refine ⟨?_, window_append rfl (List.length_replicate ..)⟩
  rw [← List.append_assoc]
  refine window_append ?_ rfl
  rw [List.length_append, List.length_replicate, Nat.add_sub_cancel' halign]

end

theorem validateSections_place {sections : List OwnedSection} (hsound : ∀ s ∈ sections, Sound identity s)
    {before : List SectionDescriptor}
    (hnames : (before.map SectionDescriptor.name ++ sections.map OwnedSection.name).Nodup) {front tail : List UInt8}
    (hmax : front.length + (bodyBytes front.length sections).length ≤ uint64Max) :
    validateSections noFaults codec (front ++ (bodyBytes front.length sections ++ tail)) identity
      (front.length + (bodyBytes front.length sections).length) before front.length
      (place codec front.length sections) = .ok () := by
  induction sections generalizing before front with
  | nil =>
    refine validateZeroPadding_ok (by simp) (by simp) ?_
    simp [bodyBytes, window]
  | cons s sections ih =>
    have hs := hsound s List.mem_cons_self
    have halign := le_alignUp (alignment_pos hs.power) front.length
    have hfront := length_front hs.power front
    have hfile := file_behind hs.power sections front tail
    have hbody : front.length + (bodyBytes front.length (s :: sections)).length =
        (front ++ placedBytes front.length s).length +
          (bodyBytes (front ++ placedBytes front.length s).length sections).length := by
      rw [hfront, bodyBytes_cons, List.length_append, ← length_placedBytes hs.power, Nat.add_assoc]
    obtain ⟨hdata, hzeros⟩ := window_first hs.power sections front tail
    rw [hbody] at hmax ⊢
    have htotal : alignUp front.length s.alignment + s.data.length ≤
        (front ++ (bodyBytes front.length (s :: sections) ++ tail)).length := by
      rw [hfile, List.length_append, hfront]
      exact Nat.le_add_right _ _
    have hcheck := @checkSection_ok codec identity s hs before _ _ _ _ hnames (dvd_alignUp front.length s.alignment) halign
      (hfront ▸ Nat.le_add_right _ _) hmax
    rw [place, validateSections, work_noFaults]
    refine ok_bind rfl (ok_bind (rebuild_eq_ok.mpr hcheck) (ok_bind (validateZeroPadding_ok halign
      (le_trans (Nat.le_add_right _ _) htotal) ?_) (ok_bind (checksumSection_ok hs htotal hdata) ?_)))
    · rw [hzeros]
      exact fun x hx => List.eq_of_mem_replicate hx
    · rw [hfile, ← hfront]
      refine ih (fun t ht => hsound t (List.mem_cons_of_mem _ ht)) ?_ hmax
      simpa [List.append_assoc] using hnames

theorem validateSectionLayout_place {sections : List OwnedSection} (hsound : ∀ s ∈ sections, Sound identity s)
    {before : List SectionDescriptor}
    (hnames : (before.map SectionDescriptor.name ++ sections.map OwnedSection.name).Nodup) {offset manifestOffset : ℕ}
    (hend : offset + (bodyBytes offset sections).length ≤ manifestOffset) (hmax : manifestOffset ≤ uint64Max) :
    validateSectionLayout manifestOffset before offset (place codec offset sections) = .ok () := by
  induction sections generalizing before offset with
  | nil => rfl
  | cons s sections ih =>
    have hs := hsound s List.mem_cons_self
    have hlength := length_placedBytes hs.power offset
    rw [bodyBytes_cons, List.length_append, ← Nat.add_assoc, hlength] at hend
    have hcheck := @checkSection_ok codec identity s hs before _ _ _ _ hnames (dvd_alignUp offset s.alignment)
      (le_alignUp (alignment_pos hs.power) offset) (by omega) hmax
    refine ok_bind hcheck (ih (fun t ht => hsound t (List.mem_cons_of_mem _ ht)) ?_ hend)
    simpa [List.append_assoc] using hnames

theorem window_place {sections : List OwnedSection} (hpower : ∀ s ∈ sections, isPowerOfTwo s.alignment = true)
    {front tail : List UInt8} :
    List.Forall₂ (fun (s : OwnedSection) (d : SectionDescriptor) => d.name = s.name ∧
      window (front ++ (bodyBytes front.length sections ++ tail)) d.offset d.length = s.data)
      sections (place codec front.length sections) := by
  induction sections generalizing front with
  | nil => exact .nil
  | cons s sections ih =>
    have hs := hpower s List.mem_cons_self
    have hrest := @ih (fun t ht => hpower t (List.mem_cons_of_mem _ ht)) (front ++ placedBytes front.length s)
    rw [← file_behind hs sections front tail, length_front hs front] at hrest
    exact .cons ⟨rfl, (window_first hs sections front tail).1⟩ hrest

/-- Where the rows of a written file are. -/
def rowsOf (store : OwnedStoreView) : EventRows :=
  ⟨store.keys.length, alignUp (headerBytes + store.kinds.length) 8, headerBytes⟩

theorem prepareRows_ok : prepareRows (manifestOf codec identity store) = .ok (rowsOf store) := by
  have hne : eventKindsSection ≠ eventKeysSection := by decide
  have hkeys : (manifestOf codec identity store).sections.find? (·.name = eventKeysSection) =
      some ⟨8, codec.sha256 (store.keys.flatMap encodeEventKey), eventKeyBytes, store.keys.length * eventKeyBytes,
        eventKeysSection, alignUp (headerBytes + store.kinds.length) 8⟩ := by
    simp [manifestOf, place_allSections, hne]
  have hkinds : (manifestOf codec identity store).sections.find? (·.name = eventKindsSection) =
      some ⟨1, codec.sha256 (store.kinds.map encodeEventKind), 1, store.kinds.length, eventKindsSection, headerBytes⟩ := by
    simp [manifestOf, place_allSections]
  have hcount : store.keys.length * eventKeyBytes / eventKeyBytes = store.keys.length :=
    Nat.mul_div_cancel _ (by decide)
  unfold prepareRows
  rw [hkeys, hkinds]
  refine ok_check (by simp) (ok_check (by simp) (ok_check ?_ ?_))
  · rw [not_not, hcount]
    exact store.same_length
  · simp only [hcount]
    rfl

/-- The windows of the file that hold keys and kinds. -/
theorem window_rows (codec : Codec) (identity : CacheIdentity) (store : OwnedStoreView) :
    let file := fileImage codec identity store
    window file (rowsOf store).eventKeysOffset (store.keys.length * eventKeyBytes) = store.keys.flatMap encodeEventKey ∧
      window file (rowsOf store).eventKindsOffset store.kinds.length = store.kinds.map encodeEventKind ∧
      (rowsOf store).eventKeysOffset + store.keys.length * eventKeyBytes ≤ file.length ∧
      (rowsOf store).eventKindsOffset + store.kinds.length ≤ file.length := by
  intro file
  have halign := le_alignUp (show 0 < 8 by decide) (headerBytes + store.kinds.length)
  have hlength := @length_fileImage codec identity store
  rw [bodyBytes_allSections] at hlength
  simp only [List.length_append, List.length_map, List.length_replicate, length_keyBytes] at hlength
  have hfile : file.length = (fileImage codec identity store).length := rfl
  refine ⟨?_, ?_, by simp only [rowsOf]; omega, by simp only [rowsOf]; omega⟩
  · simp only [file, fileImage, bodyBytes_allSections, List.append_assoc]
    rw [← List.append_assoc, ← List.append_assoc]
    refine window_append ?_ (length_keyBytes _)
    simp only [List.length_append, length_headerOf, List.length_map, List.length_replicate, rowsOf]
    omega
  · simp only [file, fileImage, bodyBytes_allSections, List.append_assoc]
    exact window_append length_headerOf (List.length_map ..)

theorem readRowsPiece_ok (hkeys : ∀ key ∈ store.keys, key.artifact = identity.artifactDigest) {span : Span}
    (hspan : span.start + span.count ≤ store.keys.length) :
    readRowsPiece noFaults (fileImage codec identity store) (rowsOf store) identity span =
      .ok (window store.keys span.start span.count, window store.kinds span.start span.count) := by
  obtain ⟨hkeyWindow, hkindWindow, hkeysLe, hkindsLe⟩ := window_rows codec identity store
  have hsame := store.same_length
  have hkeyBytes : window (fileImage codec identity store)
      ((rowsOf store).eventKeysOffset + span.start * eventKeyBytes) (span.count * eventKeyBytes) =
      window (store.keys.flatMap encodeEventKey) (span.start * eventKeyBytes) (span.count * eventKeyBytes) := by
    rw [← hkeyWindow, window_window (by unfold eventKeyBytes; omega)]
  have hkindBytes : window (fileImage codec identity store) ((rowsOf store).eventKindsOffset + span.start) span.count =
      (window store.kinds span.start span.count).map encodeEventKind := by
    rw [← window_window (show span.start + span.count ≤ store.kinds.length by omega), hkindWindow, window, window,
      List.map_take, List.map_drop]
  rw [readRowsPiece, readExactAt_noFaults (by unfold eventKeyBytes at *; omega), readExactAt_noFaults (by omega),
    hkeyBytes, hkindBytes]
  refine ok_bind rfl (ok_bind rfl (ok_bind rfl (bind_eq_ok.mpr ⟨window store.keys span.start span.count,
    mapM_eq_ok.mpr ?_, bind_eq_ok.mpr ⟨window store.kinds span.start span.count, mapM_eq_ok.mpr ?_, rfl⟩⟩)))
  · rw [List.forall₂_iff_get]
    refine ⟨by rw [List.length_range, length_window hspan], fun row hrow hlt => orRebuild_eq_ok.mpr ?_⟩
    rw [List.length_range] at hrow
    have hindex : span.start + row < store.keys.length := by omega
    have hnumber : (List.range span.count).get ⟨row, by rwa [List.length_range]⟩ = row := by simp
    rw [hnumber, window_window (by unfold eventKeyBytes; omega), ← Nat.add_mul, window_keyBytes hindex,
      ← hkeys _ (List.get_mem store.keys ⟨_, hindex⟩), decodeEventKey_encodeEventKey]
    simp [window]
  · rw [List.forall₂_map_left_iff, List.forall₂_same]
    exact fun kind _ => orRebuild_eq_ok.mpr (decodeEventKind_encodeEventKind kind)

/-- The reader decodes the rows to the keys and kinds they were written from. -/
theorem readEventRows_ok (hkeys : ∀ key ∈ store.keys, key.artifact = identity.artifactDigest) :
    readEventRows noFaults (fileImage codec identity store) (rowsOf store) identity = .ok (store.keys, store.kinds) := by
  have hsize : 0 < rowsPerRead := by decide
  have hkeyRows := flatMap_spans store.keys hsize store.keys.length
  have hkindRows := flatMap_spans store.kinds hsize store.keys.length
  rw [List.take_length] at hkeyRows
  rw [store.same_length, List.take_length, ← store.same_length] at hkindRows
  refine ok_bind rfl (ok_bind (mapM_eq_ok.mpr (List.forall₂_map_right_iff.mpr
    (List.forall₂_same.mpr fun span hspan => readRowsPiece_ok hkeys (span_le hspan)))) ?_)
  simp only [rowsOf, List.flatMap_map, hkeyRows, hkindRows]
  rfl

theorem mismatch_self (identity : CacheIdentity) : identity.mismatch identity = none := by
  simp [CacheIdentity.mismatch]

theorem names_place (sections : List OwnedSection) (offset : ℕ) :
    (place codec offset sections).map SectionDescriptor.name = sections.map OwnedSection.name := by
  induction sections generalizing offset with
  | nil => rfl
  | cons s sections ih => rw [place, List.map_cons, ih, List.map_cons]

/-- The further clause of the section contract: a name of 1 to 128 bytes. -/
def Named (store : OwnedStoreView) : Prop :=
  ∀ s ∈ store.extraSections, s.name.utf8ByteSize ≠ 0 ∧ s.name.utf8ByteSize ≤ maxSectionNameBytes

theorem Contract.sound (h : Contract identity store) : ∀ s ∈ allSections store, Sound identity s := by
  intro s hs
  rcases List.mem_append.mp hs with hs | hs
  · simp only [eventSections, List.mem_cons, List.not_mem_nil, or_false] at hs
    rcases hs with rfl | rfl
    · exact ⟨(by decide : isPowerOfTwo 1 = true), (by decide : 1 ≤ 4096), Nat.one_ne_zero, one_dvd _,
        fun contract hc => (Option.some.inj hc).symm, payloadOk_kinds _⟩
    · exact ⟨(by decide : isPowerOfTwo 8 = true), (by decide : 8 ≤ 4096), (by decide : eventKeyBytes ≠ 0),
        Dvd.intro_left _ (length_keyBytes _).symm, fun contract hc => (Option.some.inj hc).symm,
        payloadOk_keys h.artifacts⟩
  · obtain ⟨hpower, halignment⟩ := h.aligned s hs
    obtain ⟨hne, hdvd⟩ := h.elements s hs
    -- the name is neither of the two event sections, whose rows alone are checked
    have hnames := h.names_nodup
    simp only [allSections, eventSections, List.cons_append, List.nil_append, List.map_cons, List.nodup_cons,
      List.mem_cons, not_or] at hnames
    have hkinds : s.name ≠ eventKindsSection := fun heq => hnames.1.2 (heq ▸ List.mem_map_of_mem hs)
    have hkeys : s.name ≠ eventKeysSection := fun heq => hnames.2.1 (heq ▸ List.mem_map_of_mem hs)
    refine ⟨hpower, halignment, hne, hdvd, h.known s hs, fun span _ => ?_⟩
    rw [validateKnownPayload, if_neg hkinds, if_neg hkeys]

theorem validateShape_ok (h : Contract identity store) (hnamed : Named store) :
    (manifestOf codec identity store).validateShape = .ok () := by
  have hcount := h.count_le
  have hnames := @names_place codec (allSections store) headerBytes
  refine ok_check ?_ (forM_eq_ok.mpr fun d hd => failIf_eq_ok.mpr (decide_eq_false ?_))
  · rw [not_or, not_lt, ← List.length_eq_zero_iff]
    simp only [manifestOf, ← List.length_map SectionDescriptor.name, hnames, List.length_map]
    exact ⟨by simp [allSections, eventSections], hcount⟩
  · obtain ⟨s, hs, hname⟩ := List.mem_map.mp (hnames ▸ List.mem_map_of_mem hd)
    rw [← hname, not_or, not_lt]
    rcases List.mem_append.mp hs with hs | hs
    · simp only [eventSections, List.mem_cons, List.not_mem_nil, or_false] at hs
      rcases hs with rfl | rfl
      · exact (by decide : eventKindsSection.utf8ByteSize ≠ 0 ∧ eventKindsSection.utf8ByteSize ≤ maxSectionNameBytes)
      · exact (by decide : eventKeysSection.utf8ByteSize ≠ 0 ∧ eventKeysSection.utf8ByteSize ≤ maxSectionNameBytes)
    · exact hnamed s hs

theorem headerOf_manifestOffset : (headerOf codec identity store).manifestOffset =
    headerBytes + (bodyBytes headerBytes (allSections store)).length := rfl

theorem headerOf_manifestLength : (headerOf codec identity store).manifestLength =
    (codec.encodeManifest (manifestOf codec identity store)).length := rfl

theorem readHeader_ok (hfits : Fits codec identity store) {sites : Site × Site} {context : String} :
    readHeader noFaults sites (fileImage codec identity store) context = .ok (headerOf codec identity store) := by
  have hlength := @length_fileImage codec identity store
  have hfile := hfits.file_le
  have hmanifest := hfits.manifest_le
  have hwindow : window (fileImage codec identity store) 0 headerBytes = (headerOf codec identity store).encode :=
    List.take_left' length_headerOf
  refine ok_bind rfl (ok_check (by omega) (ok_bind (fatal_eq_ok.mpr (readExactAt_noFaults (by omega))) ?_))
  unfold maxFileBytes at hfile
  unfold maxManifestBytes at hmanifest
  rw [hwindow]
  refine rebuild_eq_ok.mpr (CacheHeader.decode_encode (codec.length_sha256 _) identity.cacheSchema.toNat_lt ?_ ?_)
  · rw [headerOf_manifestOffset]
    omega
  · rw [headerOf_manifestLength]
    omega

theorem window_manifest : window (fileImage codec identity store) (headerOf codec identity store).manifestOffset
    (headerOf codec identity store).manifestLength = codec.encodeManifest (manifestOf codec identity store) := by
  rw [fileImage, ← List.append_assoc, ← List.append_nil (_ ++ codec.encodeManifest _), List.append_assoc]
  refine window_append ?_ rfl
  rw [List.length_append, length_headerOf, headerOf]

/-- Header and manifest of a written file pass; what is left is the shape of the manifest and the
layout of the sections. -/
theorem validateContainer_shape (hfits : Fits codec identity store) :
    validateContainer noFaults codec (fileImage codec identity store) identity = (do
      rebuild (manifestOf codec identity store).validateShape
      rebuild (validateSectionLayout (headerOf codec identity store).manifestOffset [] headerBytes
        (manifestOf codec identity store).sections)
      return (headerOf codec identity store, manifestOf codec identity store)) := by
  have hlength := @length_fileImage codec identity store
  have hfile := hfits.file_le
  have hmanifest := hfits.manifest_le
  have hmax : maxFileBytes ≤ uint64Max := by decide
  have hpos : 0 < (codec.encodeManifest (manifestOf codec identity store)).length :=
    List.length_pos_iff.mpr (codec.encodeManifest_ne_nil _)
  have hoffset := @headerOf_manifestOffset codec identity store
  have hmanifestLength := @headerOf_manifestLength codec identity store
  have hsum : (headerOf codec identity store).manifestChecksum =
      codec.sha256 (codec.encodeManifest (manifestOf codec identity store)) := rfl
  have hcanonical : canonicalManifestJson noFaults codec .canonicalWork (manifestOf codec identity store) =
      .ok (codec.encodeManifest (manifestOf codec identity store)) :=
    ok_check (not_lt.mpr hmanifest) rfl
  have hsame : (manifestOf codec identity store).identity.mismatch identity = none := mismatch_self identity
  refine (bind_of_ok (readHeader_ok hfits) _).trans ((failIf_bind (decide_eq_false (not_not.mpr rfl)) _).trans
    ((failIf_bind (decide_eq_false (by omega)) _).trans ((failIf_bind (decide_eq_false (by omega)) _).trans
    ((bind_of_ok (a := (codec.encodeManifest (manifestOf codec identity store), manifestOf codec identity store)) ?_ _).trans
    ((bind_of_ok (fatal_eq_ok.mpr hcanonical) _).trans ((failIf_bind (decide_eq_false (by simp)) _).trans ?_))))))
  · rw [readManifest, readExactAt_noFaults (by omega), window_manifest]
    refine ok_bind rfl (ok_bind rfl (ok_check (by rw [hsum]; simp) (ok_bind rfl ?_)))
    rw [codec.decodeManifest_encodeManifest]
    rfl
  · simp only [hsame]

/-- Header, manifest and section layout of a written file pass. -/
theorem validateContainer_ok (h : Contract identity store) (hnamed : Named store) (hfits : Fits codec identity store) :
    validateContainer noFaults codec (fileImage codec identity store) identity =
      .ok (headerOf codec identity store, manifestOf codec identity store) := by
  have hlength := @length_fileImage codec identity store
  have hfile := hfits.file_le
  have hmax : maxFileBytes ≤ uint64Max := by decide
  have hoffset := @headerOf_manifestOffset codec identity store
  rw [validateContainer_shape hfits]
  exact ok_bind (rebuild_eq_ok.mpr (validateShape_ok h hnamed)) (ok_bind (rebuild_eq_ok.mpr
    (@validateSectionLayout_place codec identity _ h.sound [] h.names_nodup _ _ hoffset.ge (by omega))) rfl)

theorem eventKey_ok (h : Contract identity store) (hfits : Fits codec identity store)
    (catalog : Option codec.Catalog) (hrow : row < store.keys.length) :
    MappedStoreView.eventKey ⟨fileImage codec identity store, rowsOf store, identity.artifactDigest, catalog⟩ row =
      .ok (store.keys.get ⟨row, hrow⟩) := by
  obtain ⟨hwindow, -, hle, -⟩ := window_rows codec identity store
  have hfile := hfits.file_le
  have hmax : maxFileBytes ≤ uint64Max := by decide
  unfold eventKeyBytes at hle
  have hread : window (fileImage codec identity store) ((rowsOf store).eventKeysOffset + row * eventKeyBytes)
      eventKeyBytes = encodeEventKey (store.keys.get ⟨row, hrow⟩) := by
    rw [← window_keyBytes hrow, ← hwindow, window_window (by unfold eventKeyBytes; omega)]
  simp only [MappedStoreView.eventKey, MappedStoreView.checkedRead]
  refine ok_check (not_le.mpr hrow) (ok_check (by unfold eventKeyBytes; omega)
    (ok_bind (readExactAt_noFaults (by unfold eventKeyBytes; omega)) ?_))
  rw [hread, ← h.artifacts _ (List.get_mem store.keys ⟨row, hrow⟩)]
  exact decodeEventKey_encodeEventKey _

theorem eventKind_ok (hfits : Fits codec identity store) (catalog : Option codec.Catalog)
    (hrow : row < store.kinds.length) :
    MappedStoreView.eventKind ⟨fileImage codec identity store, rowsOf store, identity.artifactDigest, catalog⟩ row =
      .ok (store.kinds.get ⟨row, hrow⟩) := by
  obtain ⟨-, hwindow, -, hle⟩ := window_rows codec identity store
  have hfile := hfits.file_le
  have hmax : maxFileBytes ≤ uint64Max := by decide
  have hsame := store.same_length
  have hread : window (fileImage codec identity store) ((rowsOf store).eventKindsOffset + row) 1 =
      [encodeEventKind (store.kinds.get ⟨row, hrow⟩)] := by
    rw [← window_window (show row + 1 ≤ store.kinds.length by omega), hwindow, window, ← List.map_drop, ← List.map_take,
      List.drop_eq_getElem_cons hrow]
    rfl
  have hcount : row < (rowsOf store).eventCount := hrow.trans_eq hsame.symm
  simp only [MappedStoreView.eventKind, MappedStoreView.checkedRead]
  refine ok_check (not_le.mpr hcount) (ok_check (by omega) (ok_bind (readExactAt_noFaults (by omega)) ?_))
  rw [hread]
  exact decodeEventKind_encodeEventKind _

/-- What the reader finds in a file: every check of the container passes, the rows decode to the
keys and kinds of the store, every section range holds the bytes of the section, and the view
gives back every row; what is left of `validate_file` is the catalog. -/
structure ReadsBack (codec : Codec) (identity : CacheIdentity) (store : OwnedStoreView) (file : List UInt8)
    (header : CacheHeader) (manifest : CacheManifest) (rows : EventRows) : Prop where
  container : validateContainer noFaults codec file identity = .ok (header, manifest)
  sections : validateSections noFaults codec file manifest.identity header.manifestOffset [] headerBytes
    manifest.sections = .ok ()
  prepared : prepareRows manifest = .ok rows
  decoded : readEventRows noFaults file rows identity = .ok (store.keys, store.kinds)
  ranges : List.Forall₂ (fun (s : OwnedSection) (d : SectionDescriptor) => d.name = s.name ∧
    window file d.offset d.length = s.data) (allSections store) manifest.sections
  keys : ∀ catalog row (hrow : row < store.keys.length),
    (⟨file, rows, identity.artifactDigest, catalog⟩ : MappedStoreView codec).eventKey row =
      .ok (store.keys.get ⟨row, hrow⟩)
  kinds : ∀ catalog row (hrow : row < store.kinds.length),
    (⟨file, rows, identity.artifactDigest, catalog⟩ : MappedStoreView codec).eventKind row =
      .ok (store.kinds.get ⟨row, hrow⟩)
  view : validateFile noFaults codec file identity = (readCatalog noFaults codec file manifest identity rows).map
    fun catalog => ⟨file, rows, identity.artifactDigest, catalog⟩

theorem fileImage_readsBack (hcontract : Contract identity store) (hnamed : Named store)
    (hfits : Fits codec identity store) :
    ∃ header manifest rows, ReadsBack codec identity store (fileImage codec identity store) header manifest rows := by
  have hlength := @length_fileImage codec identity store
  have hle := hfits.file_le
  have hmax : maxFileBytes ≤ uint64Max := by decide
  have hheader := @length_headerOf codec identity store
  have hcontainer := validateContainer_ok hcontract hnamed hfits
  have hranges := @window_place codec _ (fun s hs => (hcontract.sound s hs).power)
    (headerOf codec identity store).encode (codec.encodeManifest (manifestOf codec identity store))
  have hsections := @validateSections_place codec identity _ hcontract.sound [] hcontract.names_nodup
    (headerOf codec identity store).encode (codec.encodeManifest (manifestOf codec identity store))
    (by rw [hheader]; omega)
  rw [hheader] at hranges hsections
  refine ⟨_, _, rowsOf store, hcontainer, hsections, prepareRows_ok, readEventRows_ok hcontract.artifacts, hranges,
    fun catalog row hrow => eventKey_ok hcontract hfits catalog hrow,
    fun catalog row hrow => eventKind_ok hfits catalog hrow, ?_⟩
  -- no check is left but those of the catalog
  refine (bind_of_ok hcontainer _).trans ((bind_of_ok hsections _).trans
    ((bind_of_ok (rebuild_eq_ok.mpr prepareRows_ok) _).trans ?_))
  simp only [work_noFaults, system_noFaults]
  cases readCatalog noFaults codec (fileImage codec identity store) (manifestOf codec identity store) identity
    (rowsOf store) <;> rfl

/-- A store that meets the contract and names its sections in 1 to 128 bytes is written unless the
file or the manifest is too large, and what is written is read back. -/
theorem cache_file_round_trip (hcontract : Contract identity store) (hnamed : Named store) :
    (Fits codec identity store → ∃ file, writeFile noFaults codec identity store = .ok file) ∧
      ∀ file, writeFile noFaults codec identity store = .ok file →
        ∃ header manifest rows, ReadsBack codec identity store file header manifest rows := by
  refine ⟨fun hfits => ⟨_, (writeFile_ok hcontract).mpr ⟨hfits, rfl⟩⟩, fun file hfile => ?_⟩
  obtain ⟨hfits, rfl⟩ := (writeFile_ok hcontract).mp hfile
  exact fileImage_readsBack hcontract hnamed hfits

theorem countable_string : Countable String := by
  have hchar : Function.Injective Char.toNat := fun a b h => Char.toNat_inj.mp h
  exact Function.Injective.countable (f := fun s : String => s.toList.map Char.toNat) fun a b h =>
    String.toList_inj.mp (List.map_injective_iff.mpr hchar h)

theorem exists_numbering : ∃ number : CacheManifest → ℕ, Function.Injective number := by
  have := countable_string
  have hidentity : Countable CacheIdentity := by
    refine Function.Injective.countable (f := fun i : CacheIdentity => (i.analyzerVersion, i.artifactDigest,
      i.buildOptionDigest, i.cacheSchema, i.endian, i.layoutVersion, i.sourceFeatures, i.sourceFormat, i.sourceMajor,
      i.sourceMinor)) ?_
    rintro ⟨⟩ ⟨⟩ h
    simpa using h
  have hdescriptor : Countable SectionDescriptor := by
    refine Function.Injective.countable (f := fun d : SectionDescriptor => (d.alignment, d.checksum, d.elementSize,
      d.length, d.name, d.offset)) ?_
    rintro ⟨⟩ ⟨⟩ h
    simpa using h
  have hmanifest : Countable CacheManifest := by
    refine Function.Injective.countable (f := fun m : CacheManifest => (m.identity, m.sections)) ?_
    rintro ⟨⟩ ⟨⟩ h
    simpa using h
  exact exists_injective_nat CacheManifest

open Classical in
/-- A codec that writes one manifest in one byte, whatever it writes for the others. -/
noncomputable def shortCodec (manifest : CacheManifest) : Codec where
  sha256 _ := List.replicate 32 0
  length_sha256 _ := List.length_replicate ..
  encodeManifest m := if m = manifest then [1] else 2 :: List.replicate (exists_numbering.choose m) 0
  decodeManifest bytes := if bytes = [1] then some manifest
    else if h : ∃ m, m ≠ manifest ∧ bytes = 2 :: List.replicate (exists_numbering.choose m) 0 then some h.choose
    else none
  decodeManifest_encodeManifest m := by
    by_cases hm : m = manifest
    · rw [if_pos hm, if_pos rfl, hm]
    · have hex : ∃ n, n ≠ manifest ∧ (2 :: List.replicate (exists_numbering.choose m) 0 : List UInt8) =
          2 :: List.replicate (exists_numbering.choose n) 0 := ⟨m, hm, rfl⟩
      have hlength := congrArg List.length hex.choose_spec.2
      simp only [List.length_cons, List.length_replicate, Nat.add_right_cancel_iff] at hlength
      rw [if_neg hm, if_neg (by simp), dif_pos hex]
      exact congrArg some (exists_numbering.choose_spec hlength).symm
  decodeManifest_nil := by simp
  Event := Unit
  Catalog := Unit
  decodeEvents _ count := .ok (List.replicate count ())
  validateBinarySections _ _ _ _ _ := .ok ()

def plainIdentity : CacheIdentity :=
  ⟨"1.0", List.replicate 32 0, List.replicate 32 0, 1, "little", 1, 0, "qtrb", 1, 2⟩

/-- A store of one instruction and one further section. -/
def plainStore (name : String) : OwnedStoreView :=
  ⟨[⟨List.replicate 32 0, 0, 0, 1, none, none⟩], [.instruction], [⟨name, 8, 2, [1, 2, 3, 4]⟩], rfl⟩

/-- A codec that is brief about the manifest of that store. -/
noncomputable def plainCodec (name : String) : Codec :=
  shortCodec (manifestOf (shortCodec ⟨plainIdentity, []⟩) plainIdentity (plainStore name))

theorem plainStore_contract {name : String} (hkinds : eventKindsSection ≠ name) (hkeys : eventKeysSection ≠ name)
    (hknown : knownSectionContract name = none) : Contract plainIdentity (plainStore name) := by
  have hevents : eventKindsSection ≠ eventKeysSection := by decide
  refine ⟨by decide +kernel, ?_, ?_, ?_, ?_, (by decide : 3 ≤ maxSections), ?_⟩
  · simp [allSections, eventSections, plainStore, hkinds, hkeys, hevents]
  · simp only [plainStore, List.mem_singleton, forall_eq]
    decide
  · simp only [plainStore, List.mem_singleton, forall_eq]
    decide
  · simp [plainStore, hknown]
  · simp [plainStore, plainIdentity]

theorem plainStore_fits (name : String) : Fits (plainCodec name) plainIdentity (plainStore name) := by
  have hencode : (plainCodec name).encodeManifest (manifestOf (plainCodec name) plainIdentity (plainStore name)) = [1] :=
    if_pos rfl
  have hbody : (bodyBytes headerBytes (allSections (plainStore name))).length = 52 := by
    simp [bodyBytes, allSections, eventSections, plainStore, alignUp, headerBytes, eventKeyBytes]
  refine ⟨?_, ?_⟩
  · rw [length_fileImage, hencode, hbody]
    decide
  · rw [hencode]
    decide

theorem notes_contract : Contract plainIdentity (plainStore "notes.v1") :=
  plainStore_contract (by decide) (by decide) (by decide +kernel)

theorem notes_named : Named (plainStore "notes.v1") := by
  simp only [Named, plainStore, List.mem_singleton, forall_eq]
  decide

theorem cache_file_round_trip_plainStore :
    ∃ file, writeFile noFaults (plainCodec "notes.v1") plainIdentity (plainStore "notes.v1") = .ok file ∧
      ∃ header manifest rows,
        ReadsBack (plainCodec "notes.v1") plainIdentity (plainStore "notes.v1") file header manifest rows := by
  obtain ⟨hwrites, hreads⟩ := @cache_file_round_trip (plainCodec "notes.v1") _ _ notes_contract notes_named
  obtain ⟨file, hfile⟩ := hwrites (plainStore_fits _)
  exact ⟨file, hfile, hreads file hfile⟩

/-- A name of 129 bytes. -/
def longName : String := String.ofList (List.replicate 129 'a')

/-- The writer accepts a section with a long name and the reader does not. -/
theorem longName_written_and_refused :
    ∃ codec identity store, Contract identity store ∧ ∃ file, writeFile noFaults codec identity store = .ok file ∧
      validateFile noFaults codec file identity = .error (.rebuild (.section "name")) := by
  have hcontract : Contract plainIdentity (plainStore longName) :=
    plainStore_contract (by decide +kernel) (by decide +kernel) (by decide +kernel)
  have hfits := plainStore_fits longName
  refine ⟨plainCodec longName, plainIdentity, plainStore longName, hcontract, _,
    (writeFile_ok hcontract).mpr ⟨hfits, rfl⟩, ?_⟩
  have hshape : (manifestOf (plainCodec longName) plainIdentity (plainStore longName)).validateShape =
      .error (.section "name") := by
    have hkinds : eventKindsSection.utf8ByteSize = 14 ∧ eventKindsSection ≠ "" := by decide
    have hkeys : eventKeysSection.utf8ByteSize = 13 ∧ eventKeysSection ≠ "" := by decide
    have hlong : longName.utf8ByteSize = 129 := by decide +kernel
    simp [CacheManifest.validateShape, manifestOf, place, allSections, eventSections, plainStore, failIf, hkinds, hkeys,
      hlong, maxSections, maxSectionNameBytes, bind, Except.bind, pure, Except.pure, throw, throwThe,
      MonadExceptOf.throw]
  rw [validateFile, validateContainer_shape hfits, hshape]
  rfl

end QTrace.Cache
