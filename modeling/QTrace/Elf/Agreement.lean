import QTrace.Elf.Origin

/-! When the three origins are the same. Each reader's origin is characterised as a least
element; the three sets have one least element exactly when the image is anchored: some load
that occupies memory starts at its file offset behind the least address, and no load starts
before that. -/

namespace QTrace.Elf

open Lib

variable {headers : List ProgramHeader}

/-- The difference that host and tracer minimise. -/
def ProgramHeader.bias (h : ProgramHeader) : ℕ := h.vaddr - h.offset

variable {h : ProgramHeader} {seen : List ProgramHeader} {loadBias base fileLength : ℕ} {ranges : List (ℕ × ℕ)}
  {elf : RawElf}

theorem mem_loads : h ∈ loads headers ↔ h ∈ headers ∧ h.isLoad = true := by
  simp [loads]

theorem readHeader_ok {next : List ProgramHeader} (hread : readHeader seen h = .ok next) :
    h.isLoad = false ∧ next = seen ∨ h.isLoad = true ∧ h.offset ≤ h.vaddr ∧ next = seen ++ [h] := by
  unfold readHeader at hread
  cases hload : h.isLoad with
  | false =>
    simp only [hload, Bool.not_false, if_true] at hread
    exact .inl ⟨rfl, (pure_eq_ok.mp hread).symm⟩
  | true =>
    simp only [hload, Bool.not_true, Bool.false_eq_true, if_false, bind_eq_ok, failIf_eq_ok, pure_eq_ok,
      decide_eq_false_iff_not] at hread
    obtain ⟨-, -, -, -, -, -, -, -, -, -, -, hbias, -, -, rfl⟩ := hread
    exact .inr ⟨rfl, by omega, rfl⟩

theorem readHeaders_ok (hread : headers.foldlM readHeader [] = .ok seen) :
    seen = loads headers ∧ ∀ h ∈ loads headers, h.offset ≤ h.vaddr := by
  refine foldlM_rule (fun before seen => seen = loads before ∧ ∀ h ∈ loads before, h.offset ≤ h.vaddr)
    (by simp [loads]) ?_ hread
  rintro before h after seen next - ⟨rfl, hle⟩ hnext
  rcases readHeader_ok hnext with ⟨hload, rfl⟩ | ⟨hload, hbias, rfl⟩
  · simpa [loads, hload] using hle
  · refine ⟨by simp [loads, hload], ?_⟩
    intro other hother
    rcases List.mem_append.mp (by simpa [loads, hload] using hother : other ∈ loads before ++ [h]) with hother | hother
    · exact hle other hother
    · rwa [List.mem_singleton.mp hother]

theorem programHeaders_ok (hhost : programHeaders headers = .ok (loadBias, ranges)) :
    IsLeast {d | ∃ h ∈ loads headers, d = h.bias} loadBias ∧ ∀ h ∈ loads headers, h.offset ≤ h.vaddr := by
  unfold programHeaders at hhost
  obtain ⟨seen, hread, hhost⟩ := bind_eq_ok.mp hhost
  obtain ⟨rfl, hle⟩ := readHeaders_ok hread
  simp only [bind_eq_ok, failIf_eq_ok, pure_eq_ok, Prod.mk.injEq] at hhost
  obtain ⟨-, hsome, -, -, -, -, -, -, hbias, -⟩ := hhost
  refine ⟨?_, hle⟩
  cases hmin : ((loads headers).map ProgramHeader.bias).min? with
  | none =>
    rw [List.min?_eq_none_iff, List.map_eq_nil_iff] at hmin
    simp [hmin] at hsome
  | some least =>
    have hleast : loadBias = least := by
      rw [← hbias]
      exact congrArg (Option.getD · 0) hmin
    rw [List.min?_eq_some_iff] at hmin
    rw [hleast]
    refine ⟨?_, ?_⟩
    · obtain ⟨h, hh, heq⟩ := List.mem_map.mp hmin.1
      exact ⟨h, hh, heq.symm⟩
    · rintro d ⟨h, hh, rfl⟩
      exact hmin.2 _ (List.mem_map_of_mem hh)

/-- The loads that occupy memory. -/
def mapped (headers : List ProgramHeader) : List ProgramHeader :=
  headers.filter fun h => h.isLoad && decide (h.memSize ≠ 0)

/-- What the scan knows about the headers it has seen. -/
structure Scanned (seen : List ProgramHeader) (scan : LoadScan) : Prop where
  le : ∀ h ∈ mapped seen, scan.imageOrigin ≤ h.bias
  none : scan.haveLoad = false → scan.imageOrigin = maxU64
  some : scan.haveLoad = true → ∃ h ∈ mapped seen, scan.imageOrigin = h.bias

theorem scanHeader_some {scan next : LoadScan} (hnext : scanHeader base scan h = .some next) :
    (h.isLoad = false ∨ h.memSize = 0) ∧ next = scan ∨
      h.isLoad = true ∧ h.memSize ≠ 0 ∧ h.bias ≤ maxU64 ∧ next.imageOrigin = min scan.imageOrigin h.bias ∧
        next.haveLoad = true := by
  unfold scanHeader at hnext
  by_cases hskip : h.isLoad = false ∨ h.memSize = 0
  · rw [if_pos hskip] at hnext
    exact .inl ⟨hskip, (Option.some.inj hnext).symm⟩
  · rw [if_neg hskip] at hnext
    simp only [not_or, Bool.not_eq_false] at hskip
    split_ifs at hnext with hbad hexec hfull hfar
    all_goals
      obtain rfl := Option.some.inj hnext
      exact .inr ⟨hskip.1, hskip.2, by unfold ProgramHeader.bias maxU64 at *; omega, rfl, rfl⟩

/-- A running minimum that starts at the largest address, as long as nothing was found. -/
theorem least_concat {f : ProgramHeader → ℕ} {least : ℕ} {found : Prop} (hle : ∀ a ∈ seen, least ≤ f a)
    (hnone : ¬found → least = maxU64) (hsome : found → ∃ a ∈ seen, least = f a) (hmax : f h ≤ maxU64) :
    (∀ a ∈ seen ++ [h], min least (f h) ≤ f a) ∧ ∃ a ∈ seen ++ [h], min least (f h) = f a := by
  constructor
  · intro a ha
    rcases List.mem_append.mp ha with ha | ha
    · exact (min_le_left _ _).trans (hle a ha)
    · rw [List.mem_singleton.mp ha]
      exact min_le_right _ _
  · rcases le_total least (f h) with hless | hless
    · by_cases hfound : found
      · obtain ⟨a, ha, heq⟩ := hsome hfound
        exact ⟨a, List.mem_append_left _ ha, by rw [min_eq_left hless, heq]⟩
      · exact ⟨h, by simp, by rw [hnone hfound, min_eq_right hmax]⟩
    · exact ⟨h, by simp, by rw [min_eq_right hless]⟩

theorem Scanned.next {scan next : LoadScan} (hs : Scanned seen scan)
    (hnext : scanHeader base scan h = .some next) : Scanned (seen ++ [h]) next := by
  rcases scanHeader_some hnext with ⟨hskip, rfl⟩ | ⟨hload, hsize, hbias, horigin, hhave⟩
  · have hmapped : mapped (seen ++ [h]) = mapped seen := by
      unfold mapped
      rw [List.filter_append]
      rcases hskip with hskip | hskip <;> simp [hskip]
    exact ⟨hmapped ▸ hs.le, hs.none, hmapped ▸ hs.some⟩
  · have hmapped : mapped (seen ++ [h]) = mapped seen ++ [h] := by
      simp [mapped, List.filter_append, hload, hsize]
    obtain ⟨hle, hsome⟩ := least_concat hs.le (fun hnot => hs.none (by simpa using hnot)) hs.some hbias
    rw [← hmapped, ← horigin] at hle hsome
    exact ⟨hle, by simp [hhave], fun _ => hsome⟩

theorem scanned_of_foldlM {scan last : LoadScan} (hs : Scanned seen scan)
    (hfold : headers.foldlM (scanHeader base) scan = .some last) : Scanned (seen ++ headers) last := by
  induction headers generalizing seen scan with
  | nil =>
    obtain rfl := Option.some.inj hfold
    simpa using hs
  | cons h headers ih =>
    rw [List.foldlM_cons] at hfold
    obtain ⟨next, hnext, hfold⟩ := Option.bind_eq_some_iff.mp hfold
    simpa using ih (hs.next hnext) hfold

theorem moduleRangeFromPhdr_some {pageSize : ℕ} {module : ModuleRange}
    (htracer : moduleRangeFromPhdr base pageSize headers = some module) :
    ∃ origin, module.start = base + origin ∧ IsLeast {d | ∃ h ∈ mapped headers, d = h.bias} origin := by
  unfold moduleRangeFromPhdr at htracer
  obtain ⟨scan, hscan, htracer⟩ := Option.bind_eq_some_iff.mp htracer
  have hscanned : Scanned ([] ++ headers) scan :=
    scanned_of_foldlM ⟨by simp [mapped], fun _ => rfl, by simp⟩ hscan
  split_ifs at htracer with hmissing
  obtain ⟨loadEnd, -, htracer⟩ := Option.bind_eq_some_iff.mp htracer
  split_ifs at htracer
  obtain rfl := Option.some.inj htracer
  have hhave : scan.haveLoad = true := by
    simp only [Bool.or_eq_true, not_or, Bool.not_eq_true, Bool.not_eq_false'] at hmissing
    exact hmissing.1
  obtain ⟨h, hh, heq⟩ := hscanned.some hhave
  refine ⟨scan.imageOrigin, rfl, ⟨h, hh, heq⟩, ?_⟩
  rintro d ⟨h, hh, rfl⟩
  exact hscanned.le h hh

/-- What the viewer's scan knows about the headers it has seen. -/
structure Viewed (seen : List ProgramHeader) (scan : ViewerScan) : Prop where
  le : ∀ h ∈ loads seen, scan.imageBase ≤ h.vaddr
  none : scan.loads = [] → scan.imageBase = maxU64
  some : scan.loads ≠ [] → ∃ h ∈ loads seen, scan.imageBase = h.vaddr

theorem viewHeader_ok {scan next : ViewerScan} (hnext : viewHeader fileLength scan h = .ok next) :
    h.isLoad = false ∧ next = scan ∨
      h.isLoad = true ∧ h.vaddr ≤ maxU64 ∧ next.imageBase = min scan.imageBase h.vaddr ∧ next.loads ≠ [] := by
  unfold viewHeader at hnext
  cases hload : h.isLoad with
  | false =>
    simp only [hload, Bool.not_false, if_true] at hnext
    exact .inl ⟨rfl, (pure_eq_ok.mp hnext).symm⟩
  | true =>
    simp only [hload, Bool.not_true, Bool.false_eq_true, if_false, bind_eq_ok, failIf_eq_ok, pure_eq_ok,
      decide_eq_false_iff_not] at hnext
    obtain ⟨-, -, -, hend, rfl⟩ := hnext
    exact .inr ⟨rfl, by omega, rfl, by simp⟩

theorem Viewed.next {scan next : ViewerScan} (hs : Viewed seen scan)
    (hnext : viewHeader fileLength scan h = .ok next) : Viewed (seen ++ [h]) next := by
  rcases viewHeader_ok hnext with ⟨hload, rfl⟩ | ⟨hload, hmax, hbase, hne⟩
  · have hloads : loads (seen ++ [h]) = loads seen := by simp [loads, hload]
    exact ⟨hloads ▸ hs.le, hs.none, hloads ▸ hs.some⟩
  · have hloads : loads (seen ++ [h]) = loads seen ++ [h] := by simp [loads, hload]
    obtain ⟨hle, hsome⟩ := least_concat hs.le (fun hnot => hs.none (not_not.mp hnot)) hs.some hmax
    rw [← hloads, ← hbase] at hle hsome
    exact ⟨hle, by simp [hne], fun _ => hsome⟩

theorem preflight_ok (hviewer : preflight fileLength headers = .ok elf) :
    IsLeast {a | ∃ h ∈ loads headers, a = h.vaddr} elf.imageBase := by
  unfold preflight at hviewer
  obtain ⟨-, -, hviewer⟩ := bind_eq_ok.mp hviewer
  obtain ⟨scan, hscan, hviewer⟩ := bind_eq_ok.mp hviewer
  have hviewed : Viewed headers scan := by
    refine foldlM_rule Viewed ⟨by simp [loads], fun _ => rfl, by simp⟩ ?_ hscan
    intro before h after s s' _ hs hnext
    exact hs.next hnext
  simp only [bind_eq_ok, failIf_eq_ok, pure_eq_ok, Bool.or_eq_false_iff] at hviewer
  obtain ⟨-, hne, -, -, rfl⟩ := hviewer
  obtain ⟨h, hh, heq⟩ := hviewed.some (by simpa using hne.1)
  refine ⟨⟨h, hh, heq⟩, ?_⟩
  rintro a ⟨h, hh, rfl⟩
  exact hviewed.le h hh

/-- Some load that occupies memory lies at its file offset behind the least address, and no
load lies before that. -/
def Anchored (headers : List ProgramHeader) : Prop :=
  ∃ low ∈ loads headers, (∀ h ∈ loads headers, low.vaddr ≤ h.vaddr ∧ low.vaddr + h.offset ≤ h.vaddr) ∧
    ∃ h ∈ mapped headers, h.vaddr = low.vaddr + h.offset

/-- Host, tracer and viewer subtract the same origin, and so give every symbol the same address. -/
def OriginsAgree (base loadBias : ℕ) (ranges : List (ℕ × ℕ)) (module : ModuleRange) (elf : RawElf) : Prop :=
  module.start = base + loadBias ∧ elf.imageBase = loadBias ∧
    ∀ symbol start stop relative, symbolRange loadBias ranges symbol = .ok (start, stop) →
      candidateAddress elf symbol = .ok (some relative) →
      start = relative ∧ base + symbol.value - module.start = start

variable {symbol : Symbol}

theorem symbolRange_ok {start stop : ℕ} (h : symbolRange loadBias ranges symbol = .ok (start, stop)) :
    start = symbol.value - loadBias := by
  unfold symbolRange at h
  simp only [bind_eq_ok, failIf_eq_ok, pure_eq_ok, Prod.mk.injEq] at h
  obtain ⟨-, -, -, -, -, -, -, -, -, -, rfl, -⟩ := h
  rfl

theorem candidateAddress_ok {relative : ℕ} (h : candidateAddress elf symbol = .ok (some relative)) :
    relative = symbol.value - elf.imageBase := by
  unfold candidateAddress at h
  split_ifs at h
  · cases h
  · cases h
    rfl

/-- For headers that all three accept, the origins agree exactly when the image is anchored. -/
theorem origins_agree_iff {base pageSize fileLength loadBias : ℕ} {ranges : List (ℕ × ℕ)} {module : ModuleRange}
    {elf : RawElf} (hhost : programHeaders headers = .ok (loadBias, ranges))
    (htracer : moduleRangeFromPhdr base pageSize headers = some module)
    (hviewer : preflight fileLength headers = .ok elf) :
    OriginsAgree base loadBias ranges module elf ↔ Anchored headers := by
  obtain ⟨hbias, hle⟩ := programHeaders_ok hhost
  obtain ⟨origin, hstart, horigin⟩ := moduleRangeFromPhdr_some htracer
  have hbase := preflight_ok hviewer
  have hmapped {h : ProgramHeader} (hh : h ∈ mapped headers) : h ∈ loads headers := by
    simp only [mapped, List.mem_filter, Bool.and_eq_true] at hh
    exact mem_loads.mpr ⟨hh.1, hh.2.1⟩
  constructor
  · rintro ⟨hmodule, himage, -⟩
    obtain rfl : origin = loadBias := by omega
    obtain ⟨low, hlow, hlowEq⟩ := hbase.1
    refine ⟨low, hlow, ?_, ?_⟩
    · intro h hh
      have h1 := hbase.2 ⟨h, hh, rfl⟩
      have h2 := hbias.2 ⟨h, hh, rfl⟩
      have h3 := hle h hh
      unfold ProgramHeader.bias at h2
      omega
    · obtain ⟨h, hh, heq⟩ := horigin.1
      have h3 := hle h (hmapped hh)
      unfold ProgramHeader.bias at heq
      exact ⟨h, hh, by omega⟩
  · rintro ⟨low, hlow, hall, h, hh, heq⟩
    -- the least address is the least difference, and a load that occupies memory attains it
    have himage : elf.imageBase = low.vaddr :=
      hbase.unique ⟨⟨low, hlow, rfl⟩, by rintro a ⟨h, hh, rfl⟩; exact (hall h hh).1⟩
    have hleast : ∀ h ∈ loads headers, low.vaddr ≤ h.bias := by
      intro h hh
      have := (hall h hh).2
      unfold ProgramHeader.bias
      omega
    have hattained : low.vaddr = h.bias := by unfold ProgramHeader.bias; omega
    have hload : loadBias = low.vaddr :=
      hbias.unique ⟨⟨h, hmapped hh, hattained⟩, by rintro d ⟨h, hh, rfl⟩; exact hleast h hh⟩
    have hmodule : origin = low.vaddr :=
      horigin.unique ⟨⟨h, hh, hattained⟩, by rintro d ⟨h, hh, rfl⟩; exact hleast h (hmapped hh)⟩
    refine ⟨by omega, by omega, ?_⟩
    intro symbol start stop relative hsymbol hcandidate
    have h1 := symbolRange_ok hsymbol
    have h2 := candidateAddress_ok hcandidate
    omega

/-- One executable segment behind its own file offset, as a linker leaves it that does not load
the file header. -/
def unloadedHeader : List ProgramHeader := [⟨true, true, false, true, 0x1000, 0x1000, 0x100, 0x100, 0x1000⟩]

theorem programHeaders_unloadedHeader : programHeaders unloadedHeader = .ok (0, [(0x1000, 0x1100)]) := by
  simp [programHeaders, unloadedHeader, readHeader, failIf, maxU64, overlapping]
  rfl

theorem preflight_unloadedHeader :
    preflight 0x2000 unloadedHeader = .ok ⟨0x1000, [⟨0x1000, 0x1100, true⟩], [(0x1000, 0x1100)]⟩ := by
  simp [preflight, unloadedHeader, viewHeader, failIf, maxU64, overlapping]
  rfl

/-- All three accept the headers, and host and viewer give the function at `0x1010` two addresses. -/
theorem origins_differ_unloadedHeader :
    ∃ ranges module elf, programHeaders unloadedHeader = .ok (0, ranges) ∧
      moduleRangeFromPhdr 0x7000000000 0x1000 unloadedHeader = some module ∧ module.start = 0x7000000000 ∧
      preflight 0x2000 unloadedHeader = .ok elf ∧ elf.imageBase = 0x1000 ∧
      symbolRange 0 ranges ⟨0x1010, 0x10⟩ = .ok (0x1010, 0x1020) ∧
      candidateAddress elf ⟨0x1010, 0x10⟩ = .ok (some 0x10) :=
  ⟨[(0x1000, 0x1100)], ⟨0x7000000000, 0x7000002000, [(0x7000001000, 0x7000001100)]⟩,
    ⟨0x1000, [⟨0x1000, 0x1100, true⟩], [(0x1000, 0x1100)]⟩, programHeaders_unloadedHeader, by rfl, by rfl,
    preflight_unloadedHeader, by rfl, by rfl, by rfl⟩

/-- The usual image, whose first segment starts with the file header. -/
def loadedHeader : List ProgramHeader :=
  [⟨true, true, false, false, 0, 0, 0x800, 0x800, 0x1000⟩, ⟨true, true, false, true, 0x800, 0x1800, 0x100, 0x100, 0x1000⟩]

theorem origins_agree_loadedHeader :
    ∃ ranges module elf, OriginsAgree 0x7000000000 0 ranges module elf := by
  have hhost : programHeaders loadedHeader = .ok (0, [(0x1800, 0x1900)]) := by
    simp [programHeaders, loadedHeader, readHeader, failIf, maxU64, overlapping]
    rfl
  have hviewer : preflight 0x2000 loadedHeader =
      .ok ⟨0, [⟨0, 0x800, false⟩, ⟨0x1800, 0x1900, true⟩], [(0x1800, 0x1900)]⟩ := by
    simp [preflight, loadedHeader, viewHeader, failIf, maxU64, overlapping]
    rfl
  have htracer : moduleRangeFromPhdr 0x7000000000 0x1000 loadedHeader =
      some ⟨0x7000000000, 0x7000002000, [(0x7000001800, 0x7000001900)]⟩ := by rfl
  exact ⟨_, _, _, (origins_agree_iff hhost htracer hviewer).mpr
    ⟨_, List.mem_cons_self, by decide, _, List.mem_cons_self, by decide⟩⟩

end QTrace.Elf
