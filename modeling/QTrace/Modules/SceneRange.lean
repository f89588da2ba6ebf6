import Mathlib

/-! Whether the code of a scene is mapped executable. The check sweeps from the start of the range: it
goes as far as the executable mappings at the reached address lead, and starts over from there.
Addresses are only compared, so that numbers stand for them. -/

namespace QTrace.Modules

structure ModuleRange where
  start : ℕ
  «end» : ℕ
  permissions : String

def ModuleRange.executable (range : ModuleRange) : Bool := range.permissions.contains 'x'

def containsAddress (range : ModuleRange) (address : ℕ) : Bool :=
  range.start < range.end && range.start ≤ address && address < range.end

/-- The inner loop: how far the executable mappings at `covered` lead. -/
def reach (maps : List ModuleRange) (covered next : ℕ) : ℕ :=
  maps.foldl (fun next range =>
    if range.executable && containsAddress range covered then max next range.end else next) next

theorem le_reach (maps : List ModuleRange) (covered next : ℕ) : next ≤ reach maps covered next := by
  refine List.foldlRecOn maps _ (motive := fun last => next ≤ last) le_rfl fun last hlast range _ => ?_
  split_ifs
  · exact hlast.trans (le_max_left _ _)
  · exact hlast

/-- The outer loop. Every round that goes on has moved the reached address forward. -/
def sweep (maps : List ModuleRange) (stop covered : ℕ) : Bool :=
  if covered < stop then
    let next := reach maps covered covered
    if next = covered then false
    else if stop ≤ next then true
    else sweep maps stop next
  else true
termination_by stop - covered
decreasing_by
  have hle : covered ≤ next := le_reach maps covered covered
  omega

def executableSceneRange (maps : List ModuleRange) (start stop : ℕ) : Bool :=
  if start = stop then maps.any fun range => range.executable && containsAddress range start
  else sweep maps stop start

/-- The address lies in an executable mapping. -/
def Executable (maps : List ModuleRange) (address : ℕ) : Prop :=
  ∃ range ∈ maps, range.executable = true ∧ range.start ≤ address ∧ address < range.end

variable {maps : List ModuleRange} {covered stop address : ℕ}

theorem containsAddress_iff {range : ModuleRange} :
    containsAddress range address = true ↔ range.start ≤ address ∧ address < range.end := by
  simp only [containsAddress, Bool.and_eq_true, decide_eq_true_eq]
  constructor
  · exact fun h => ⟨h.1.2, h.2⟩
  · exact fun h => ⟨⟨h.1.trans_lt h.2, h.1⟩, h.2⟩

/-- Everything up to where a round leads is executable. -/
theorem executable_of_lt_reach (hle : covered ≤ address) (hlt : address < reach maps covered covered) :
    Executable maps address := by
  have hround : reach maps covered covered = covered ∨ ∃ range ∈ maps, range.executable = true ∧ range.start ≤ covered ∧
      reach maps covered covered = range.end := by
    refine List.foldlRecOn maps _ (motive := fun next => next = covered ∨ ∃ range ∈ maps,
      range.executable = true ∧ range.start ≤ covered ∧ next = range.end) (.inl rfl) fun next hnext range hrange => ?_
    split_ifs with hcontains
    · rw [Bool.and_eq_true, containsAddress_iff] at hcontains
      rcases max_choice next range.end with hmax | hmax
      · rwa [hmax]
      · exact .inr ⟨range, hrange, hcontains.1, hcontains.2.1, hmax⟩
    · exact hnext
  rcases hround with hstay | ⟨range, hrange, hexecutable, hstart, hend⟩
  · rw [hstay] at hlt
    exact absurd hle hlt.not_ge
  · exact ⟨range, hrange, hexecutable, hstart.trans hle, hend ▸ hlt⟩

/-- A round moves on from every executable address. -/
theorem lt_reach_of_executable (h : Executable maps covered) : covered < reach maps covered covered := by
  obtain ⟨range, hrange, hexecutable, hstart, hend⟩ := h
  have hcontains : containsAddress range covered = true := containsAddress_iff.mpr ⟨hstart, hend⟩
  obtain ⟨front, back, rfl⟩ := List.append_of_mem hrange
  rw [reach, List.foldl_append, List.foldl_cons, hexecutable, hcontains]
  exact hend.trans_le ((le_max_right _ _).trans (le_reach back covered _))

theorem sweep_iff (hlt : covered < stop) :
    sweep maps stop covered = true ↔ ∀ address, covered ≤ address → address < stop → Executable maps address := by
  fun_induction sweep maps stop covered with
  | case1 covered hin next heq =>
    simp only [Bool.false_eq_true, false_iff, not_forall]
    refine ⟨covered, le_rfl, hin, fun h => ?_⟩
    exact (lt_reach_of_executable h).ne' heq
  | case2 covered hin next heq hreached =>
    refine iff_of_true rfl fun address hle hstop => ?_
    exact executable_of_lt_reach hle (hstop.trans_le hreached)
  | case3 covered hin next heq hreached ih =>
    rw [ih (not_le.mp hreached)]
    constructor
    · intro h address hle hstop
      rcases lt_or_ge address next with hbefore | hbehind
      · exact executable_of_lt_reach hle hbefore
      · exact h address hbehind hstop
    · exact fun h address hle hstop => h address ((le_reach maps covered covered).trans hle) hstop
  | case4 covered hout => exact absurd hlt hout

/-- The sweep returns true exactly where every address of the range is mapped executable. -/
theorem executableSceneRange_iff (maps : List ModuleRange) (start stop : ℕ) (hlt : start < stop) :
    executableSceneRange maps start stop = true ↔
      ∀ address, start ≤ address → address < stop → Executable maps address := by
  rw [executableSceneRange, if_neg hlt.ne]
  exact sweep_iff hlt

/-- Two overlapping mappings, the later one first, and an empty one. -/
def unorderedMaps : List ModuleRange :=
  [⟨0x2000, 0x4000, "r-xp"⟩, ⟨0x1000, 0x2800, "r-xp"⟩, ⟨0x9000, 0x9000, "--xp"⟩]

theorem executableSceneRange_unorderedMaps :
    0x1000 < 0x3000 ∧ (executableSceneRange unorderedMaps 0x1000 0x3000 = true ↔
      ∀ address, 0x1000 ≤ address → address < 0x3000 → Executable unorderedMaps address) :=
  ⟨by decide, executableSceneRange_iff unorderedMaps 0x1000 0x3000 (by decide)⟩

end QTrace.Modules
