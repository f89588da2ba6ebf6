import QTrace.Cache.RoundTrip

/-! The header binds the file. Behind the 64 bytes of the header every byte of an accepted file
is padding, which is zero, part of a section, or part of the manifest. The header holds the
digest of the manifest and where it is, and the manifest the same of each section. -/

namespace QTrace.Cache

open Lib

variable {faults faults' : Faults} {codec : Codec} {file file' : List UInt8} {ordinal manifestOffset : ℕ}
  {s : SectionDescriptor} {identity : CacheIdentity}

theorem eq_window_of_readExactAt {site : Site} {offset count : ℕ} {bytes : List UInt8}
    (h : readExactAt faults site file offset count = .ok bytes) : bytes = window file offset count := by
  obtain ⟨_, _, h⟩ := bind_eq_ok.mp h
  split at h
  · obtain ⟨_, _, h⟩ := bind_eq_ok.mp h
    obtain ⟨_, _, h⟩ := bind_eq_ok.mp h
    exact (pure_eq_ok.mp h).symm
  · exact (pure_eq_ok.mp h).symm

theorem flatMap_spans_window (file : List UInt8) (offset length : ℕ) :
    (spans chunkBytes length).flatMap (fun span => window file (offset + span.start) span.count) =
      window file offset length := by
  rw [window, ← flatMap_spans (file.drop offset) (by decide : 0 < chunkBytes)]
  simp only [window, List.drop_drop]

theorem eq_zero_of_validateZeroPadding {start stop : ℕ}
    (h : validateZeroPadding faults file ordinal start stop = .ok ()) :
    start ≤ stop ∧ ∀ x ∈ window file start (stop - start), x = 0 := by
  obtain ⟨_, hle, hspans⟩ := bind_eq_ok.mp h
  refine ⟨not_lt.mp (of_decide_eq_false (failIf_eq_ok.mp hle)), fun x hx => ?_⟩
  rw [← flatMap_spans_window] at hx
  obtain ⟨span, hspan, hx⟩ := List.mem_flatMap.mp hx
  obtain ⟨bytes, hread, hzero⟩ := bind_eq_ok.mp (forM_eq_ok.mp hspans span hspan)
  obtain rfl := eq_window_of_readExactAt (fatal_eq_ok.mp hread)
  simpa using List.any_eq_false.mp (failIf_eq_ok.mp hzero) x hx

theorem sha256_of_checksumSection (h : checksumSection faults codec file ordinal s identity = .ok ()) :
    codec.sha256 (window file s.offset s.length) = s.checksum := by
  obtain ⟨read, hfold, hsum⟩ := bind_eq_ok.mp h
  have hread : read = window file s.offset s.length := by
    rw [← flatMap_spans_window]
    refine foldlM_rule (fun done read => read = done.flatMap _) rfl ?_ hfold
    intro done span rest read read' _ hdone hstep
    obtain ⟨bytes, hbytes, hstep⟩ := bind_eq_ok.mp hstep
    obtain ⟨_, _, hstep⟩ := bind_eq_ok.mp hstep
    obtain rfl := eq_window_of_readExactAt (fatal_eq_ok.mp hbytes)
    rw [List.flatMap_append, List.flatMap_singleton, ← hdone]
    exact (pure_eq_ok.mp hstep).symm
  rw [← hread]
  simpa using failIf_eq_ok.mp hsum

theorem eq_end_of_checkSection {before : List SectionDescriptor} {previousEnd next : ℕ}
    (h : checkSection before s previousEnd manifestOffset = .ok next) :
    next = s.offset + s.length := by
  simp only [checkSection, bind_eq_ok, pure_eq_ok] at h
  obtain ⟨-, -, -, -, -, -, -, -, -, -, -, -, -, -, h⟩ := h
  exact h.symm

/-- What acceptance says about header and manifest. -/
structure Bound (codec : Codec) (file : List UInt8) (header : CacheHeader) (manifest : CacheManifest) : Prop where
  decoded : CacheHeader.decode (window file 0 headerBytes) = .ok header
  behind : headerBytes ≤ header.manifestOffset
  length : header.manifestOffset + header.manifestLength = file.length
  checksum : codec.sha256 (window file header.manifestOffset header.manifestLength) = header.manifestChecksum
  described : codec.decodeManifest (window file header.manifestOffset header.manifestLength) = some manifest

theorem bound_of_validateContainer {expected : CacheIdentity} {header : CacheHeader} {manifest : CacheManifest}
    (h : validateContainer faults codec file expected = .ok (header, manifest)) : Bound codec file header manifest := by
  obtain ⟨header', hheader, h⟩ := bind_eq_ok.mp h
  obtain ⟨_, _, h⟩ := bind_eq_ok.mp h
  obtain ⟨_, _, h⟩ := bind_eq_ok.mp h
  obtain ⟨_, hrange, h⟩ := bind_eq_ok.mp h
  obtain ⟨⟨bytes, manifest'⟩, hmanifest, h⟩ := bind_eq_ok.mp h
  dsimp only at h
  obtain ⟨_, _, h⟩ := bind_eq_ok.mp h
  obtain ⟨_, _, h⟩ := bind_eq_ok.mp h
  split at h
  · cases h
  obtain ⟨_, _, h⟩ := bind_eq_ok.mp h
  obtain ⟨_, _, h⟩ := bind_eq_ok.mp h
  obtain ⟨rfl, rfl⟩ := Prod.mk.inj (pure_eq_ok.mp h)
  obtain ⟨_, _, hheader⟩ := bind_eq_ok.mp hheader
  obtain ⟨_, _, hheader⟩ := bind_eq_ok.mp hheader
  obtain ⟨first, hfirst, hheader⟩ := bind_eq_ok.mp hheader
  obtain rfl := eq_window_of_readExactAt (fatal_eq_ok.mp hfirst)
  obtain ⟨_, _, hmanifest⟩ := bind_eq_ok.mp hmanifest
  obtain ⟨read, hread, hmanifest⟩ := bind_eq_ok.mp hmanifest
  obtain rfl := eq_window_of_readExactAt (fatal_eq_ok.mp hread)
  obtain ⟨_, hsum, hmanifest⟩ := bind_eq_ok.mp hmanifest
  obtain ⟨_, _, hmanifest⟩ := bind_eq_ok.mp hmanifest
  have hrange := of_decide_eq_false (failIf_eq_ok.mp hrange)
  push Not at hrange
  split at hmanifest
  · cases hmanifest
  · next hdecode =>
    obtain ⟨-, rfl⟩ := Prod.mk.inj (pure_eq_ok.mp hmanifest)
    exact ⟨rebuild_eq_ok.mp hheader, hrange.1, hrange.2.2.2, by simpa using failIf_eq_ok.mp hsum, hdecode⟩

/-- No two stretches at one place of the files collide. -/
def NoCollision (codec : Codec) (file file' : List UInt8) : Prop :=
  ∀ start count, codec.sha256 (window file start count) = codec.sha256 (window file' start count) →
    window file start count = window file' start count

theorem take_eq_of_window {start stop : ℕ} (hle : start ≤ stop) (h : file.take start = file'.take start)
    (hwindow : window file start (stop - start) = window file' start (stop - start)) :
    file.take stop = file'.take stop := by
  rw [← Nat.add_sub_cancel' hle, List.take_add, List.take_add, h]
  exact congrArg _ hwindow

theorem take_eq_of_validateZeroPadding {start stop : ℕ} (hlength : file.length = file'.length)
    (h : validateZeroPadding faults file ordinal start stop = .ok ())
    (h' : validateZeroPadding faults' file' ordinal start stop = .ok ())
    (htake : file.take start = file'.take start) :
    file.take stop = file'.take stop := by
  obtain ⟨hle, hzero⟩ := eq_zero_of_validateZeroPadding h
  refine take_eq_of_window hle htake ?_
  rw [List.eq_replicate_of_mem hzero, List.eq_replicate_of_mem (eq_zero_of_validateZeroPadding h').2]
  simp only [window, List.length_take, List.length_drop, hlength]

/-- Up to the manifest, by induction over the sections from the end of the one before. -/
theorem take_eq_of_validateSections {sections : List SectionDescriptor} (hlength : file.length = file'.length)
    (hsha : NoCollision codec file file') :
    ∀ {before previousEnd},
      validateSections faults codec file identity manifestOffset before previousEnd sections = .ok () →
      validateSections faults' codec file' identity manifestOffset before previousEnd sections = .ok () →
      file.take previousEnd = file'.take previousEnd → file.take manifestOffset = file'.take manifestOffset := by
  induction sections with
  | nil => exact take_eq_of_validateZeroPadding hlength
  | cons s rest ih =>
    intro before previousEnd h h' htake
    obtain ⟨_, _, h⟩ := bind_eq_ok.mp h
    obtain ⟨next, hnext, h⟩ := bind_eq_ok.mp h
    obtain ⟨_, hpadding, h⟩ := bind_eq_ok.mp h
    obtain ⟨_, hsum, hrest⟩ := bind_eq_ok.mp h
    obtain ⟨_, _, h'⟩ := bind_eq_ok.mp h'
    obtain ⟨next', hnext', h'⟩ := bind_eq_ok.mp h'
    obtain ⟨_, hpadding', h'⟩ := bind_eq_ok.mp h'
    obtain ⟨_, hsum', hrest'⟩ := bind_eq_ok.mp h'
    obtain rfl := eq_end_of_checkSection (rebuild_eq_ok.mp hnext)
    obtain rfl := eq_end_of_checkSection (rebuild_eq_ok.mp hnext')
    refine ih hrest hrest' (take_eq_of_window (Nat.le_add_right _ _)
      (take_eq_of_validateZeroPadding hlength hpadding hpadding' htake) ?_)
    rw [Nat.add_sub_cancel_left]
    exact hsha _ _ ((sha256_of_checksumSection hsum).trans (sha256_of_checksumSection hsum').symm)

end QTrace.Cache
