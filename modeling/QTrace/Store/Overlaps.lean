import QTrace.Lib.Metered
import QTrace.Lib.RadixSort
import QTrace.Store.Catalog

/-! Queries of the interval index. Entries are sorted by their start, so the ones that start
before the end of the query are cut off by a binary search; of these, a prefix is skipped by
the greatest end so far, first block by block and then entry by entry. The bounded query does
the same under a row limit and charges its work. Work is charged in chunks of 4096 rows, which
only matters to a guard that refuses; here each sum is charged at once. -/

namespace QTrace.Store

open Lib Lib.Metered

structure NormalizedPostingEstimate where
  rows : ℕ
  decodeWork : ℕ
  deriving DecidableEq

/-- A sum of work as a `u64`. -/
def checkedWork (work : ℕ) (detail : String) : Metered IndexError ℕ :=
  if work < 2 ^ 64 then pure work else fail (.resource detail)

structure RadixWork where
  rows : ℕ
  passes : ℕ
  dedup : ℕ

namespace RadixWork

def forRows (rows : ℕ) : RadixWork where
  rows := rows
  passes := if 2 ≤ rows then 8 else 0
  dedup := if 2 ≤ rows then rows - 1 else 0

def total (work : RadixWork) : ℕ := (work.rows * 2 + 256) * work.passes + work.dedup

def checkedTotal (work : RadixWork) : Metered IndexError ℕ := checkedWork work.total "radix work overflow"

end RadixWork

/-- `row.to_le_bytes()[pass]`. -/
def rowByte (pass row : ℕ) : ℕ := row / 256 ^ pass % 256

/-- The passes; each reads the rows twice and walks over the buckets once. -/
def radixPasses : ℕ → List ℕ → List ℕ → Metered IndexError (List ℕ × List ℕ)
  | 0, rows, scratch => pure (rows, scratch)
  | pass + 1, rows, scratch => do
    let previous ← radixPasses pass rows scratch
    charge previous.1.length
    charge 256
    charge previous.1.length
    return (RadixSort.pass (rowByte pass) previous.1 previous.2, previous.1)

def radixSortUniqueRows (rows : List ℕ) : Metered IndexError (List ℕ) :=
  let work := RadixWork.forRows rows.length
  if work.passes = 0 then pure rows
  else do
    let sorted ← radixPasses work.passes rows (List.replicate rows.length 0)
    charge (sorted.1.length - 1)
    return sorted.1.destutter (· ≠ ·)

structure LocatedOverlap where
  first : ℕ
  upper : ℕ
  work : ℕ

namespace IntervalIndex

/-- The entries up to here all end before `start`. -/
def skipped (index : IntervalIndex) (start first : ℕ) : Bool := index.prefixMaxEnd[first]?.any (· ≤ start)

/-- The entry-level skip of `overlaps`. -/
def skipFrom (index : IntervalIndex) (start upper : ℕ) : ℕ → ℕ → ℕ
  | 0, first => first
  | fuel + 1, first =>
    if first < upper ∧ index.skipped start first then index.skipFrom start upper fuel (first + 1) else first

/-- Where the block-level skip ends; a product beyond `usize` saturates, which is above `upper`. -/
def firstOfBlocks (index : IntervalIndex) (firstBlock upper : ℕ) : ℕ := min (firstBlock * index.blockRows) upper

def overlaps (index : IntervalIndex) (start stop : ℕ) : Except IndexError (List ℕ) :=
  if stop < start then .error (.invalid "memory query is not a valid half-open range")
  else if start = stop then .ok []
  else
    let upper := partitionPoint index.entries fun entry => decide (entry.start < stop)
    if upper = 0 then .ok []
    else
      let firstBlock := partitionPoint index.blockPrefixMaxEnd fun maximum => decide (maximum ≤ start)
      let first := index.skipFrom start upper upper (index.firstOfBlocks firstBlock upper)
      let rows := (((index.entries.take upper).drop first).filter fun entry =>
        decide (start < entry.endExclusive)).map IntervalEntry.row
      .ok ((rows.mergeSort fun left right => decide (left ≤ right)).destutter (· ≠ ·))

/-- The entry-level skip of `locate_bounded`, which also counts its rounds. -/
def skipPrefix (index : IntervalIndex) (start upper : ℕ) : ℕ → ℕ → ℕ → Metered IndexError (ℕ × ℕ)
  | 0, first, work => pure (first, work)
  | fuel + 1, first, work =>
    if first < upper then do
      charge 1
      if index.skipped start first then index.skipPrefix start upper fuel (first + 1) (work + 1)
      else pure (first, work + 1)
    else pure (first, work)

def locateBounded (index : IntervalIndex) (start stop : ℕ) : Metered IndexError LocatedOverlap := do
  let (upper, upperWork) ← partitionPointWithWork index.entries fun entry => decide (entry.start < stop)
  if upper = 0 then return ⟨0, 0, upperWork⟩
  else
    let (firstBlock, blockWork) ←
      partitionPointWithWork index.blockPrefixMaxEnd fun maximum => decide (maximum ≤ start)
    let (first, prefixWork) ← index.skipPrefix start upper upper (index.firstOfBlocks firstBlock upper) 0
    let work ← checkedWork (upperWork + blockWork + prefixWork) "memory locator work overflow"
    return ⟨first, upper, work⟩

def located (index : IntervalIndex) (place : LocatedOverlap) : List IntervalEntry :=
  (index.entries.take place.upper).drop place.first

def overlapEstimateBounded (index : IntervalIndex) (start stop maxRows : ℕ) :
    Metered IndexError NormalizedPostingEstimate :=
  if stop < start then fail (.invalid "memory query is not a valid half-open range")
  else if start = stop then pure ⟨0, 0⟩
  else do
    let place ← index.locateBounded start stop
    if place.upper = 0 then return ⟨0, place.work⟩
    else
      charge (index.located place).length
      let count := (index.located place).countP fun entry => decide (start < entry.endExclusive)
      if maxRows < count then fail (.resource "bounded memory result exceeds row limit")
      else
        let span := place.upper - place.first
        let decodeWork ← checkedWork (place.work * 2 + span * 2 + (RadixWork.forRows count).total)
          "memory decode work overflow"
        return ⟨count, decodeWork⟩

def overlapCountBounded (index : IntervalIndex) (start stop maxRows : ℕ) : Metered IndexError ℕ := do
  let estimate ← index.overlapEstimateBounded start stop maxRows
  return estimate.rows

/-- One entry of the result, and whether the rows still ascend. -/
def collectRow (start : ℕ) (state : List ℕ × Bool) (entry : IntervalEntry) : List ℕ × Bool :=
  if start < entry.endExclusive then
    (state.1 ++ [entry.row], state.2 && state.1.getLast?.all fun previous => decide (previous < entry.row))
  else state

def overlapsBounded (index : IntervalIndex) (start stop maxRows : ℕ) : Metered IndexError (List ℕ) :=
  if stop < start then fail (.invalid "memory query is not a valid half-open range")
  else if start = stop then pure []
  else do
    let place ← index.locateBounded start stop
    if place.upper = 0 then return []
    else
      let _ ← index.overlapCountBounded start stop maxRows
      charge (index.located place).length
      let (rows, ordered) := (index.located place).foldl (collectRow start) ([], true)
      if ordered then return rows else radixSortUniqueRows rows

end IntervalIndex

theorem returns_checkedWork {work : ℕ} (h : work < 2 ^ 64) (detail : String) :
    Returns (checkedWork work detail) work 0 := by
  rw [checkedWork, if_pos h]
  exact returns_pure work

theorem returns_checkedWork_iff {work result cost : ℕ} {detail : String} :
    Returns (checkedWork work detail) result cost ↔ work < 2 ^ 64 ∧ result = work ∧ cost = 0 := by
  by_cases hwork : work < 2 ^ 64
  · rw [checkedWork, if_pos hwork, returns_pure_iff]
    exact ⟨fun h => ⟨hwork, h.1.symm, h.2⟩, fun h => ⟨h.2.1.symm, h.2.2⟩⟩
  · rw [checkedWork, if_neg hwork]
    exact ⟨fun h => absurd h not_returns_fail, fun h => absurd h.1 hwork⟩

/-- `sorted` has the values of `rows`, in order and each once. -/
structure SortedRows (rows sorted : List ℕ) : Prop where
  ascending : sorted.Pairwise (· < ·)
  mem_iff : ∀ row, row ∈ sorted ↔ row ∈ rows
  length_le : sorted.length ≤ rows.length

theorem SortedRows.self {rows : List ℕ} (h : rows.Pairwise (· < ·)) : SortedRows rows rows :=
  ⟨h, fun _ => Iff.rfl, le_rfl⟩

theorem rowByte_lt (pass row : ℕ) : rowByte pass row < 256 := Nat.mod_lt _ (by decide)

theorem sortedRows_mergeSort (rows : List ℕ) :
    SortedRows rows ((rows.mergeSort fun left right => decide (left ≤ right)).destutter (· ≠ ·)) := by
  have hperm := List.mergeSort_perm rows fun left right => decide (left ≤ right)
  refine ⟨?_, fun row => ?_, ?_⟩
  · exact RadixSort.destutter_pairwise Function.injective_id (List.pairwise_mergeSort' _ rows)
  · rw [RadixSort.mem_destutter_ne, hperm.mem_iff]
  · exact (List.destutter_sublist _ _).length_le.trans hperm.length_eq.le

theorem RadixWork.total_le (rows : ℕ) : (RadixWork.forRows rows).total ≤ (rows * 2 + 256) * 8 + rows := by
  rw [RadixWork.total, RadixWork.forRows]
  split_ifs
  · exact Nat.add_le_add_left (Nat.sub_le _ _) _
  · simp

theorem radixPasses_returns (pass : ℕ) {rows scratch : List ℕ} (h : scratch.length = rows.length) :
    Returns (radixPasses pass rows scratch) (RadixSort.passes rowByte pass rows scratch)
      ((rows.length * 2 + 256) * pass) := by
  induction pass with
  | zero => exact returns_pure _
  | succ pass ih =>
    have hlength : (RadixSort.passes rowByte pass rows scratch).1.length = rows.length := by
      rw [(RadixSort.passes_eq rowByte_lt pass h).1]
      exact (RadixSort.sortPasses_perm rowByte_lt pass rows).length_eq
    have hpure : Returns (pure (RadixSort.passes rowByte (pass + 1) rows scratch) : Metered IndexError _) _ 0 :=
      returns_pure _
    refine (ih.bind (((hpure.charge_bind _).charge_bind _).charge_bind _)).of_eq ?_
    rw [hlength]
    ring

theorem radixSortUniqueRows_returns {rows : List ℕ} (hrows : ∀ row ∈ rows, row < 2 ^ 64) :
    ∃ sorted, Returns (radixSortUniqueRows rows) sorted (RadixWork.forRows rows.length).total ∧
      SortedRows rows sorted := by
  by_cases hshort : 2 ≤ rows.length
  · have hperm := RadixSort.sortPasses_perm rowByte_lt 8 rows
    have hpasses := (RadixSort.passes_eq rowByte_lt 8 (List.length_replicate (n := rows.length) (a := 0))).1
    refine ⟨(RadixSort.sortPasses 256 rowByte 8 rows).destutter (· ≠ ·), ?_, ?_, fun row => ?_, ?_⟩
    · rw [radixSortUniqueRows]
      simp only [RadixWork.forRows, RadixWork.total, if_pos hshort]
      rw [if_neg (by decide)]
      have hpure : Returns (pure ((RadixSort.passes rowByte 8 rows (List.replicate rows.length 0)).1.destutter
        (· ≠ ·)) : Metered IndexError _) _ 0 := returns_pure _
      refine hpasses ▸ ((radixPasses_returns 8 List.length_replicate).bind (hpure.charge_bind _)).of_eq ?_
      rw [hpasses, hperm.length_eq]
      rfl
    · apply RadixSort.destutter_pairwise Function.injective_id
      refine ((RadixSort.sortPasses_pairwise rowByte_lt 8 rows).imp_of_mem ?_)
      intro a b ha hb hab
      have hvalue : ∀ row ∈ rows, RadixSort.keyValue 256 rowByte 8 row = row :=
        fun row hrow => RadixSort.keyValue_eq (hrows row hrow) fun _ _ => rfl
      rwa [hvalue a (hperm.mem_iff.mp ha), hvalue b (hperm.mem_iff.mp hb)] at hab
    · rw [RadixSort.mem_destutter_ne, hperm.mem_iff]
    · exact (List.destutter_sublist _ _).length_le.trans hperm.length_eq.le
  · refine ⟨rows, ?_, SortedRows.self ?_⟩
    · rw [radixSortUniqueRows]
      simp only [RadixWork.forRows, RadixWork.total, if_neg hshort]
      exact returns_pure _
    · rcases rows with _ | ⟨row, _ | ⟨next, rows⟩⟩
      · exact List.Pairwise.nil
      · exact List.pairwise_singleton _ _
      · exact absurd (by simp) hshort

namespace IntervalIndex

theorem entryLe_total (left right : IntervalEntry) : (entryLe left right || entryLe right left) = true := by
  simp only [entryLe, Bool.or_eq_true, Bool.and_eq_true, decide_eq_true_eq, beq_iff_eq]
  omega

theorem entryLe_trans (a b c : IntervalEntry) (hab : entryLe a b = true) (hbc : entryLe b c = true) :
    entryLe a c = true := by
  simp only [entryLe, Bool.or_eq_true, Bool.and_eq_true, decide_eq_true_eq, beq_iff_eq] at hab hbc ⊢
  omega

theorem prefixMaxima_ok {entries : List IntervalEntry} (h : ∀ entry ∈ entries, entry.start < entry.endExclusive)
    (maximum : ℕ) : ∃ maxima, prefixMaxima maximum entries = .ok maxima := by
  induction entries generalizing maximum with
  | nil => exact ⟨[], rfl⟩
  | cons entry entries ih =>
    obtain ⟨hentry, h⟩ := List.forall_mem_cons.mp h
    obtain ⟨rest, hrest⟩ := ih h (max maximum entry.endExclusive)
    refine ⟨max maximum entry.endExclusive :: rest, ?_⟩
    rw [prefixMaxima, if_neg (by omega), hrest]
    rfl

theorem end_le_prefixMaxima {entries : List IntervalEntry} {maximum : ℕ} {maxima : List ℕ}
    (h : prefixMaxima maximum entries = .ok maxima) {i greatest : ℕ} (hi : maxima[i]? = some greatest) :
    maximum ≤ greatest ∧ ∀ entry ∈ entries.take (i + 1), entry.endExclusive ≤ greatest := by
  induction entries generalizing maximum maxima i with
  | nil =>
    obtain rfl := Except.ok.inj h
    simp at hi
  | cons entry entries ih =>
    unfold prefixMaxima at h
    split_ifs at h
    obtain ⟨rest, hrest, h⟩ := bind_eq_ok.mp h
    obtain rfl := pure_eq_ok.mp h
    rw [List.take_succ_cons, List.forall_mem_cons]
    cases i with
    | zero =>
      obtain rfl : max maximum entry.endExclusive = greatest := by simpa using hi
      simp
    | succ i =>
      obtain ⟨hmax, hentries⟩ := ih hrest (by simpa using hi)
      exact ⟨(le_max_left _ _).trans hmax, (le_max_right _ _).trans hmax, hentries⟩

/-- What the searches rely on. -/
structure Valid (index : IntervalIndex) : Prop where
  sorted : index.entries.Pairwise (·.start ≤ ·.start)
  prefixEnd : ∀ i greatest, index.prefixMaxEnd[i]? = some greatest →
    ∀ entry ∈ index.entries.take (i + 1), entry.endExclusive ≤ greatest
  blockEnd : ∀ block greatest, index.blockPrefixMaxEnd[block]? = some greatest →
    ∀ entry ∈ index.entries.take ((block + 1) * index.blockRows), entry.endExclusive ≤ greatest

variable {blockRows : ℕ}

theorem blockRows_pos (h : isPowerOfTwo blockRows) : 0 < blockRows := by
  simp only [isPowerOfTwo, ne_eq, Bool.and_eq_true, decide_eq_true_eq] at h
  omega

theorem map_some_filterMap {α β : Type} {f : α → Option β} {l : List α} (h : ∀ a ∈ l, ∃ b, f a = some b) :
    (l.filterMap f).map some = l.map f := by
  induction l with
  | nil => rfl
  | cons a l ih =>
    obtain ⟨⟨b, hb⟩, h⟩ := List.forall_mem_cons.mp h
    rw [List.filterMap_cons_some hb, List.map_cons, List.map_cons, ih h, hb]

theorem getElem?_filterMap_range {α : Type} {f : ℕ → Option α} {n : ℕ} (h : ∀ i < n, ∃ a, f i = some a) {i : ℕ} {a : α}
    (hi : ((List.range n).filterMap f)[i]? = some a) : i < n ∧ f i = some a := by
  have hget := congrArg (·[i]?) (map_some_filterMap fun i hi => h i (List.mem_range.mp hi))
  simp only [List.getElem?_map, hi, Option.map_some] at hget
  obtain ⟨j, hj, hf⟩ := Option.map_eq_some_iff.mp hget.symm
  obtain ⟨hlt, rfl⟩ := List.getElem?_eq_some_iff.mp hj
  rw [List.length_range] at hlt
  rw [List.getElem_range] at hf
  exact ⟨hlt, hf⟩

theorem blockLast_lt {rows block : ℕ} (hpos : 0 < blockRows) (h : block < (rows + blockRows - 1) / blockRows) :
    min ((block + 1) * blockRows) rows - 1 < rows := by
  have hblock : (block + 1) * blockRows ≤ rows + blockRows - 1 := (Nat.le_div_iff_mul_le hpos).mp h
  rw [Nat.succ_mul] at hblock
  omega

theorem build_ok {entries : List IntervalEntry} (hblock : isPowerOfTwo blockRows)
    (hentries : ∀ entry ∈ entries, entry.start < entry.endExclusive) :
    ∃ index, build entries blockRows = .ok index ∧ index.Valid ∧ index.entries.Perm entries := by
  have hperm := List.mergeSort_perm entries entryLe
  obtain ⟨maxima, hmaxima⟩ := prefixMaxima_ok (fun entry h => hentries entry (hperm.mem_iff.mp h)) 0
  refine ⟨_, by rw [build, if_pos hblock, bind_of_ok hmaxima]; rfl, ⟨?_, ?_, ?_⟩, hperm⟩
  · refine (List.pairwise_mergeSort entryLe_trans entryLe_total entries).imp ?_
    intro a b hab
    simp only [entryLe, Bool.or_eq_true, Bool.and_eq_true, decide_eq_true_eq, beq_iff_eq] at hab
    omega
  · intro i greatest hi
    exact (end_le_prefixMaxima hmaxima hi).2
  · intro block greatest hi entry hentry
    have hpos := blockRows_pos hblock
    have hlength := length_prefixMaxima hmaxima
    obtain ⟨hlt, hgreatest⟩ := getElem?_filterMap_range (fun block hlt =>
      ⟨_, List.getElem?_eq_getElem ((blockLast_lt hpos hlt).trans_eq hlength.symm)⟩) hi
    refine (end_le_prefixMaxima hmaxima hgreatest).2 entry ?_
    have hlast := blockLast_lt hpos hlt
    rw [List.mem_take_iff_getElem] at hentry ⊢
    obtain ⟨j, hj, rfl⟩ := hentry
    have hj : j < min ((block + 1) * blockRows) (entries.mergeSort entryLe).length := hj
    exact ⟨j, by omega, rfl⟩

section Locate

variable (index : IntervalIndex) (start stop : ℕ)

/-- The entries before `first` all end before the query. -/
def Passed (first : ℕ) : Prop := ∀ entry ∈ index.entries.take first, entry.endExclusive ≤ start

def upperOf : ℕ := partitionPoint index.entries fun entry => decide (entry.start < stop)

def firstOf : ℕ :=
  index.skipFrom start (index.upperOf stop) (index.upperOf stop) (index.firstOfBlocks
    (partitionPoint index.blockPrefixMaxEnd fun maximum => decide (maximum ≤ start)) (index.upperOf stop))

variable {index start stop}

/-- A block is only passed when its greatest end is. -/
theorem Valid.passed_blocks (h : index.Valid) (upper : ℕ) : index.Passed start
    (index.firstOfBlocks (partitionPoint index.blockPrefixMaxEnd fun maximum => decide (maximum ≤ start)) upper) := by
  intro entry hentry
  cases hblock : partitionPoint index.blockPrefixMaxEnd fun maximum => decide (maximum ≤ start) with
  | zero => simp [firstOfBlocks, hblock] at hentry
  | succ block =>
    obtain ⟨greatest, hgreatest, hle⟩ := last_of_partitionPoint hblock
    rw [hblock, firstOfBlocks] at hentry
    have hend := h.blockEnd block greatest hgreatest entry (List.take_subset_take_left _ (min_le_left _ _) hentry)
    exact hend.trans (by simpa using hle)

theorem Valid.passed_skipFrom (h : index.Valid) {upper first : ℕ} (fuel : ℕ) (hfirst : index.Passed start first) :
    index.Passed start (index.skipFrom start upper fuel first) := by
  induction fuel generalizing first with
  | zero => exact hfirst
  | succ fuel ih =>
    rw [skipFrom]
    split_ifs with hskip
    · apply ih
      obtain ⟨-, hskip⟩ := hskip
      cases hgreatest : index.prefixMaxEnd[first]? with
      | none => simp [skipped, hgreatest] at hskip
      | some greatest =>
        intro entry hentry
        have hle : greatest ≤ start := by simpa [skipped, hgreatest] using hskip
        exact (h.prefixEnd first greatest hgreatest entry hentry).trans hle
    · exact hfirst

theorem skipFrom_le {upper first : ℕ} (fuel : ℕ) (h : first ≤ upper) : index.skipFrom start upper fuel first ≤ upper := by
  induction fuel generalizing first with
  | zero => exact h
  | succ fuel ih =>
    rw [skipFrom]
    split_ifs with hskip
    · exact ih hskip.1
    · exact h

theorem firstOf_le : index.firstOf start stop ≤ index.upperOf stop := skipFrom_le _ (min_le_right _ _)

theorem Valid.filter_located (h : index.Valid) (start stop work : ℕ) :
    ((index.located ⟨index.firstOf start stop, index.upperOf stop, work⟩).filter fun entry =>
      decide (start < entry.endExclusive)) =
      index.entries.filter fun entry => decide (entry.start < stop) && decide (start < entry.endExclusive) := by
  have hcut : index.entries.take (index.upperOf stop) = index.entries.filter fun entry => decide (entry.start < stop) :=
    (partitionPoint_cut (h.sorted.imp fun hab hb => by
      simp only [decide_eq_true_eq] at hb ⊢
      omega)).1
  have hpassed : index.Passed start (index.firstOf start stop) := h.passed_skipFrom _ (h.passed_blocks _)
  have hnone : ((index.entries.take (index.upperOf stop)).take (index.firstOf start stop)).filter
      (fun entry => decide (start < entry.endExclusive)) = [] := by
    refine List.filter_eq_nil_iff.mpr fun entry hentry => ?_
    rw [List.take_take, min_eq_left firstOf_le] at hentry
    simpa using hpassed entry hentry
  calc ((index.entries.take (index.upperOf stop)).drop (index.firstOf start stop)).filter _
      = (index.entries.take (index.upperOf stop)).filter fun entry => decide (start < entry.endExclusive) := by
        rw [← List.nil_append (List.filter _ (List.drop _ _)), ← hnone, ← List.filter_append, List.take_append_drop]
    _ = _ := by rw [hcut, List.filter_filter]; simp only [Bool.and_comm]

theorem skipPrefix_returns (start upper fuel first : ℕ) :
    ∃ steps ≤ fuel, ∀ work, Returns (index.skipPrefix start upper fuel first work)
      (index.skipFrom start upper fuel first, work + steps) steps := by
  induction fuel generalizing first with
  | zero => exact ⟨0, le_rfl, fun work => returns_pure _⟩
  | succ fuel ih =>
    by_cases hlt : first < upper
    · by_cases hskip : index.skipped start first
      · obtain ⟨steps, hle, h⟩ := ih (first + 1)
        refine ⟨1 + steps, by omega, fun work => ?_⟩
        simp only [skipPrefix, skipFrom, if_pos hskip, hlt, true_and, if_true, ← Nat.add_assoc]
        exact (h (work + 1)).charge_bind 1
      · refine ⟨1, by omega, fun work => ?_⟩
        simp only [skipPrefix, skipFrom, if_neg hskip, hlt, true_and, if_true]
        exact returns_charge_pure 1 _
    · refine ⟨0, Nat.zero_le _, fun work => ?_⟩
      rw [skipPrefix, skipFrom, if_neg hlt, if_neg fun hboth => hlt hboth.1]
      exact returns_pure _

theorem locateBounded_cases (index : IntervalIndex) (start stop : ℕ) :
    ∃ work ≤ 2 * index.entries.length + index.blockPrefixMaxEnd.length,
      Returns (index.locateBounded start stop) ⟨index.firstOf start stop, index.upperOf stop, work⟩ work ∨
        2 ^ 64 ≤ work ∧ index.locateBounded start stop = fail (.resource "memory locator work overflow") := by
  obtain ⟨steps, hsteps, hupper⟩ :=
    partitionPointWithWork_returns IndexError index.entries fun entry => decide (entry.start < stop)
  rw [← upperOf] at hupper
  by_cases hzero : index.upperOf stop = 0
  · refine ⟨steps, by omega, .inl (hupper.bind (?_ : Returns _ _ 0))⟩
    have hfirst : index.firstOf start stop = 0 := Nat.le_zero.mp (hzero ▸ firstOf_le)
    rw [hfirst, hzero]
    exact returns_pure _
  · obtain ⟨blockSteps, hblockSteps, hblock⟩ :=
      partitionPointWithWork_returns IndexError index.blockPrefixMaxEnd fun maximum => decide (maximum ≤ start)
    obtain ⟨rounds, hrounds, hskip⟩ := index.skipPrefix_returns start (index.upperOf stop) (index.upperOf stop)
      (index.firstOfBlocks (partitionPoint index.blockPrefixMaxEnd fun maximum => decide (maximum ≤ start))
        (index.upperOf stop))
    have hle : index.upperOf stop ≤ index.entries.length := partitionPoint_le _ _
    have hskip := hskip 0
    rw [← firstOf, Nat.zero_add] at hskip
    refine ⟨steps + blockSteps + rounds, by omega, ?_⟩
    by_cases hwork : steps + blockSteps + rounds < 2 ^ 64
    · refine .inl ((hupper.bind (?_ : Returns _ _ (blockSteps + (rounds + (0 + 0))))).of_eq (by omega))
      dsimp only
      rw [if_neg hzero]
      exact hblock.bind (hskip.bind ((returns_checkedWork hwork _).bind (returns_pure _)))
    · refine .inr ⟨by omega, hupper.bind_error ?_⟩
      dsimp only
      rw [if_neg hzero]
      refine hblock.bind_error (hskip.bind_error ?_)
      dsimp only
      rw [checkedWork, if_neg hwork]
      rfl

end Locate

/-- The rows of the entries that a query keeps, in the order of the index. -/
def matched (index : IntervalIndex) (start stop : ℕ) : List ℕ :=
  (((index.entries.take (index.upperOf stop)).drop (index.firstOf start stop)).filter fun entry =>
    decide (start < entry.endExclusive)).map IntervalEntry.row

/-- The entries that a query reads. -/
def span (index : IntervalIndex) (start stop : ℕ) : ℕ := index.upperOf stop - index.firstOf start stop

/-- What the estimate promises, for a search that took `work`. -/
def decodeWork (index : IntervalIndex) (start stop work : ℕ) : ℕ :=
  work * 2 + index.span start stop * 2 + (RadixWork.forRows (index.matched start stop).length).total

theorem pairwise_concat {rows : List ℕ} {row : ℕ} (h : rows.Pairwise (· < ·))
    (hlast : (rows.getLast?.all fun previous => decide (previous < row)) = true) :
    (rows ++ [row]).Pairwise (· < ·) := by
  rw [← List.isChain_iff_pairwise] at h ⊢
  refine List.isChain_append.mpr ⟨h, List.isChain_singleton _, ?_⟩
  intro previous hprevious next hnext
  obtain rfl : row = next := by simpa using hnext
  rw [Option.mem_def] at hprevious
  simpa [hprevious] using hlast

theorem foldl_collectRow (start : ℕ) (entries : List IntervalEntry) (state : List ℕ × Bool)
    (h : state.2 = true → state.1.Pairwise (· < ·)) :
    (entries.foldl (collectRow start) state).1 = state.1 ++ (entries.filter fun entry =>
        decide (start < entry.endExclusive)).map IntervalEntry.row ∧
      ((entries.foldl (collectRow start) state).2 = true →
        (entries.foldl (collectRow start) state).1.Pairwise (· < ·)) := by
  induction entries generalizing state with
  | nil => exact ⟨(List.append_nil _).symm, h⟩
  | cons entry entries ih =>
    rw [List.foldl_cons]
    by_cases hend : start < entry.endExclusive
    · have hnext : collectRow start state entry = (state.1 ++ [entry.row],
          state.2 && state.1.getLast?.all fun previous => decide (previous < entry.row)) := if_pos hend
      rw [hnext, List.filter_cons_of_pos (by simpa using hend), List.map_cons]
      obtain ⟨hrows, hordered⟩ := ih (state.1 ++ [entry.row],
        state.2 && state.1.getLast?.all fun previous => decide (previous < entry.row)) (by
          intro hboth
          obtain ⟨hstate, hlast⟩ := Bool.and_eq_true_iff.mp hboth
          exact pairwise_concat (h hstate) hlast)
      exact ⟨by rw [hrows, List.append_assoc]; rfl, hordered⟩
    · have hnext : collectRow start state entry = state := if_neg hend
      rw [hnext, List.filter_cons_of_neg (by simpa using hend)]
      exact ih state h

section Bounded

variable {index : IntervalIndex} {start stop maxRows work : ℕ}

theorem upperOf_le : index.upperOf stop ≤ index.entries.length := partitionPoint_le _ _

theorem length_located (work : ℕ) : (index.located ⟨index.firstOf start stop, index.upperOf stop, work⟩).length =
    index.span start stop := by
  rw [located, List.length_drop, List.length_take, min_eq_left upperOf_le, span]

theorem countP_located (work : ℕ) : ((index.located ⟨index.firstOf start stop, index.upperOf stop, work⟩).countP
    fun entry => decide (start < entry.endExclusive)) = (index.matched start stop).length := by
  rw [matched, List.length_map, List.countP_eq_length_filter, located]

theorem matched_of_upperOf_zero (h : index.upperOf stop = 0) : index.matched start stop = [] := by
  simp [matched, h]

variable (hlt : start < stop)
  (hplace : Returns (index.locateBounded start stop) ⟨index.firstOf start stop, index.upperOf stop, work⟩ work)
  {estimate : NormalizedPostingEstimate}

include hlt hplace

theorem estimate_returns_empty (hupper : index.upperOf stop = 0) :
    Returns (index.overlapEstimateBounded start stop maxRows) ⟨0, work⟩ work := by
  rw [overlapEstimateBounded, if_neg (by omega), if_neg (by omega)]
  refine hplace.bind (?_ : Returns _ _ 0)
  rw [if_pos hupper]
  exact returns_pure _

theorem estimate_returns (hupper : index.upperOf stop ≠ 0) (hlimit : (index.matched start stop).length ≤ maxRows)
    (hwork : index.decodeWork start stop work < 2 ^ 64) :
    Returns (index.overlapEstimateBounded start stop maxRows)
      ⟨(index.matched start stop).length, index.decodeWork start stop work⟩ (work + index.span start stop) := by
  rw [overlapEstimateBounded, if_neg (by omega), if_neg (by omega)]
  refine hplace.bind ?_
  rw [if_neg hupper, length_located]
  refine Returns.charge_bind (n := 0) _ ?_
  simp only [countP_located]
  rw [if_neg (by omega)]
  exact (returns_checkedWork hwork _).bind_pure _

theorem estimate_fits (hupper : index.upperOf stop ≠ 0) {spent : ℕ}
    (h : Returns (index.overlapEstimateBounded start stop maxRows) estimate spent) :
    (index.matched start stop).length ≤ maxRows ∧ index.decodeWork start stop work < 2 ^ 64 := by
  rw [overlapEstimateBounded, if_neg (by omega), if_neg (by omega)] at h
  obtain ⟨place, m, n, hplace', hrest, rfl⟩ := returns_bind_iff.mp h
  obtain ⟨rfl, rfl⟩ := hplace'.unique hplace
  rw [if_neg hupper] at hrest
  obtain ⟨_, m, n, -, hcount, rfl⟩ := returns_bind_iff.mp hrest
  simp only [countP_located] at hcount
  split_ifs at hcount with hlimit
  · exact absurd hcount not_returns_fail
  · obtain ⟨decodeWork, m, n, hwork, -, rfl⟩ := returns_bind_iff.mp hcount
    exact ⟨not_lt.mp hlimit, (returns_checkedWork_iff.mp hwork).1⟩

theorem estimate_refused (hupper : index.upperOf stop ≠ 0) (hlimit : maxRows < (index.matched start stop).length) :
    index.overlapEstimateBounded start stop maxRows = fail (.resource "bounded memory result exceeds row limit") := by
  rw [overlapEstimateBounded, if_neg (by omega), if_neg (by omega)]
  refine hplace.bind_error ?_
  rw [if_neg hupper]
  refine (returns_charge _).bind_error ?_
  simp only [countP_located]
  rw [if_pos hlimit]

theorem overlapsBounded_returns_empty (hupper : index.upperOf stop = 0) :
    Returns (index.overlapsBounded start stop maxRows) [] work := by
  rw [overlapsBounded, if_neg (by omega), if_neg (by omega)]
  refine hplace.bind (?_ : Returns _ _ 0)
  rw [if_pos hupper]
  exact returns_pure _

theorem overlapsBounded_refused (hupper : index.upperOf stop ≠ 0)
    (hlimit : maxRows < (index.matched start stop).length) :
    index.overlapsBounded start stop maxRows = fail (.resource "bounded memory result exceeds row limit") := by
  rw [overlapsBounded, if_neg (by omega), if_neg (by omega)]
  refine hplace.bind_error ?_
  rw [if_neg hupper, overlapCountBounded, estimate_refused hlt hplace hupper hlimit]
  rfl

/-- The result, and what it costs beyond the count. -/
theorem overlapsBounded_returns (hrows : ∀ row ∈ index.matched start stop, row < 2 ^ 64)
    (hupper : index.upperOf stop ≠ 0) {cost : ℕ}
    (hestimate : Returns (index.overlapEstimateBounded start stop maxRows) estimate cost) :
    ∃ rows total, Returns (index.overlapsBounded start stop maxRows) rows total ∧
      total ≤ work + cost + index.span start stop + (RadixWork.forRows (index.matched start stop).length).total ∧
      SortedRows (index.matched start stop) rows := by
  obtain ⟨hcollected, hordered⟩ := foldl_collectRow start
    (index.located ⟨index.firstOf start stop, index.upperOf stop, work⟩) ([], true) fun _ => List.Pairwise.nil
  rw [List.nil_append, located, ← matched] at hcollected
  have hcount : Returns (index.overlapCountBounded start stop maxRows) estimate.rows (cost + 0) :=
    hestimate.bind (returns_pure _)
  have hfront : ∀ {rows : List ℕ} {n : ℕ}, Returns (if (List.foldl (collectRow start) ([], true)
        (index.located ⟨index.firstOf start stop, index.upperOf stop, work⟩)).2 = true then
      pure (index.matched start stop) else radixSortUniqueRows (index.matched start stop)) rows n →
      Returns (index.overlapsBounded start stop maxRows) rows (work + (cost + 0 + (index.span start stop + n))) := by
    intro rows n hrest
    rw [overlapsBounded, if_neg (by omega), if_neg (by omega)]
    refine hplace.bind ?_
    rw [if_neg hupper, length_located]
    refine hcount.bind (Returns.charge_bind _ ?_)
    rw [← hcollected] at hrest
    exact hrest
  split_ifs at hfront with hflag
  · refine ⟨index.matched start stop, _, hfront (returns_pure _), by omega, SortedRows.self ?_⟩
    rw [← hcollected]
    exact hordered hflag
  · obtain ⟨sorted, hsorted, hspec⟩ := radixSortUniqueRows_returns hrows
    exact ⟨sorted, _, hfront hsorted, by omega, hspec⟩

end Bounded

/-- Some point lies in the interval and in the query. -/
def SharesPoint (start stop : ℕ) (entry : IntervalEntry) : Prop :=
  ∃ point, (entry.start ≤ point ∧ point < entry.endExclusive) ∧ start ≤ point ∧ point < stop

theorem sharesPoint_iff {start stop : ℕ} {entry : IntervalEntry} :
    SharesPoint start stop entry ↔ max entry.start start < min entry.endExclusive stop := by
  constructor
  · rintro ⟨point, ⟨hfirst, hlast⟩, hstart, hstop⟩
    omega
  · intro h
    exact ⟨max entry.start start, by omega, by omega⟩

instance (start stop : ℕ) (entry : IntervalEntry) : Decidable (SharesPoint start stop entry) :=
  decidable_of_iff _ sharesPoint_iff.symm

/-- The distinct rows of the intervals that share a point with the query, in ascending order. -/
structure Answers (entries : List IntervalEntry) (start stop : ℕ) (rows : List ℕ) : Prop where
  ascending : rows.Pairwise (· < ·)
  mem_iff : ∀ row, row ∈ rows ↔ ∃ entry ∈ entries, SharesPoint start stop entry ∧ entry.row = row

/-- What the types of the source promise: rows are `usize`, and a vector of entries takes at
most `isize::MAX` bytes, at 24 bytes for each. -/
structure Storable (entries : List IntervalEntry) : Prop where
  rows : ∀ entry ∈ entries, entry.row < 2 ^ 64
  bytes : 24 * entries.length < 2 ^ 63

section BruteForce

variable {index : IntervalIndex} {entries : List IntervalEntry} {start stop : ℕ}

theorem length_matched_le (index : IntervalIndex) (start stop : ℕ) : (index.matched start stop).length ≤ index.span start stop := by
  rw [matched, List.length_map]
  refine (List.length_filter_le _ _).trans ?_
  exact (length_located 0).le

/-- Of nonempty intervals, the index keeps those that share a point with the query. -/
theorem Valid.matched_eq (hvalid : index.Valid) (hentries : ∀ entry ∈ index.entries, entry.start < entry.endExclusive)
    (hlt : start < stop) :
    index.matched start stop = (index.entries.filter fun entry => decide (SharesPoint start stop entry)).map
      IntervalEntry.row := by
  have hfilter := hvalid.filter_located start stop 0
  rw [located] at hfilter
  rw [matched, hfilter]
  congr 1
  refine List.filter_congr fun entry hentry => ?_
  have hne := hentries entry hentry
  rw [← Bool.decide_and, decide_eq_decide, sharesPoint_iff]
  omega

theorem answers_of_sortedRows (hperm : index.entries.Perm entries) {rows : List ℕ}
    (h : SortedRows ((index.entries.filter fun entry => decide (SharesPoint start stop entry)).map IntervalEntry.row) rows) :
    Answers entries start stop rows := by
  refine ⟨h.ascending, fun row => ?_⟩
  rw [h.mem_iff]
  simp only [List.mem_map, List.mem_filter, decide_eq_true_eq, hperm.mem_iff, and_assoc]

theorem answers_nil (h : stop ≤ start) : Answers entries start stop [] := by
  refine ⟨List.Pairwise.nil, fun row => ⟨fun hrow => absurd hrow List.not_mem_nil, ?_⟩⟩
  rintro ⟨entry, -, ⟨point, -, hstart, hstop⟩, -⟩
  omega

/-- Nothing overflows in a query of an index that fits in memory. -/
theorem decodeWork_lt (hbytes : 24 * index.entries.length < 2 ^ 63)
    (hblocks : index.blockPrefixMaxEnd.length ≤ index.entries.length) {work : ℕ}
    (hwork : work ≤ 2 * index.entries.length + index.blockPrefixMaxEnd.length) :
    index.decodeWork start stop work < 2 ^ 64 := by
  have hspan : index.span start stop ≤ index.entries.length := (Nat.sub_le _ _).trans upperOf_le
  have hmatched := length_matched_le index start stop
  have hradix := RadixWork.total_le (index.matched start stop).length
  rw [decodeWork]
  omega

end BruteForce

section Queries

variable {index : IntervalIndex} {start stop : ℕ}

theorem overlaps_eq (hlt : start < stop) : index.overlaps start stop =
    .ok (((index.matched start stop).mergeSort fun left right => decide (left ≤ right)).destutter (· ≠ ·)) := by
  rw [overlaps, if_neg (by omega), if_neg (by omega)]
  dsimp only
  split_ifs with hupper
  · rw [matched_of_upperOf_zero hupper]
    simp
  · rfl

/-- Whenever its rows are within the limit, the bounded query finds what the other finds. -/
theorem overlapsBounded_eq (hlt : start < stop) (hrows : ∀ row ∈ index.matched start stop, row < 2 ^ 64) {maxRows work : ℕ}
    (hplace : Returns (index.locateBounded start stop) ⟨index.firstOf start stop, index.upperOf stop, work⟩ work)
    (hwork : index.decodeWork start stop work < 2 ^ 64) (hlimit : (index.matched start stop).length ≤ maxRows) :
    ∃ total, Returns (index.overlapsBounded start stop maxRows)
      (((index.matched start stop).mergeSort fun left right => decide (left ≤ right)).destutter (· ≠ ·)) total := by
  by_cases hupper : index.upperOf stop = 0
  · rw [matched_of_upperOf_zero hupper]
    exact ⟨work, by simpa using overlapsBounded_returns_empty hlt hplace hupper⟩
  · obtain ⟨rows, total, hreturns, -, hsorted⟩ :=
      overlapsBounded_returns hlt hplace hrows hupper (estimate_returns hlt hplace hupper hlimit hwork)
    have hmerge := sortedRows_mergeSort (index.matched start stop)
    rw [hmerge.ascending.eq_of_mem_iff hsorted.ascending fun row => (hmerge.mem_iff row).trans (hsorted.mem_iff row).symm]
    exact ⟨total, hreturns⟩

end Queries

/-- Both queries of a built index answer by brute force; the bounded one whenever no more
intervals than `maxRows` share a point with the query. -/
theorem overlaps_answer {entries : List IntervalEntry} {blockRows : ℕ} (hblock : isPowerOfTwo blockRows)
    (hentries : ∀ entry ∈ entries, entry.start < entry.endExclusive) (hstorable : Storable entries)
    {start stop : ℕ} (hquery : start ≤ stop) (maxRows : ℕ) :
    ∃ index rows, build entries blockRows = .ok index ∧ Answers entries start stop rows ∧
      index.overlaps start stop = .ok rows ∧
      (entries.countP (fun entry => decide (SharesPoint start stop entry)) ≤ maxRows →
        ∃ work, Returns (index.overlapsBounded start stop maxRows) rows work) ∧
      (maxRows < entries.countP (fun entry => decide (SharesPoint start stop entry)) →
        index.overlapsBounded start stop maxRows = fail (.resource "bounded memory result exceeds row limit")) := by
  obtain ⟨index, hbuild, hvalid, hperm⟩ := build_ok hblock hentries
  obtain ⟨hlength, -, hblocks, -⟩ := build_sizes hbuild
  rcases hquery.eq_or_lt with rfl | hlt
  · -- an empty query range shares no point
    have hnone : entries.countP (fun entry => decide (SharesPoint start start entry)) = 0 := by
      refine List.countP_eq_zero.mpr fun entry _ => ?_
      rw [decide_eq_true_eq, sharesPoint_iff]
      omega
    refine ⟨index, [], hbuild, answers_nil le_rfl, ?_, fun _ => ⟨0, ?_⟩, fun hlimit => absurd hlimit (by omega)⟩
    · rw [overlaps, if_neg (by omega), if_pos rfl]
    · rw [overlapsBounded, if_neg (by omega), if_pos rfl]
      exact returns_pure _
  · have hmatched := hvalid.matched_eq (fun entry h => hentries entry (hperm.mem_iff.mp h)) hlt
    have hcount : (index.matched start stop).length = entries.countP fun entry => decide (SharesPoint start stop entry) := by
      rw [hmatched, List.length_map, ← List.countP_eq_length_filter, hperm.countP_eq]
    have hrows : ∀ row ∈ index.matched start stop, row < 2 ^ 64 := by
      rw [hmatched]
      simp only [List.mem_map, List.mem_filter, forall_exists_index, and_imp]
      rintro row entry hentry - rfl
      exact hstorable.rows entry (hperm.mem_iff.mp hentry)
    obtain ⟨work, hle, hcases⟩ := index.locateBounded_cases start stop
    have hwork : index.decodeWork start stop work < 2 ^ 64 :=
      decodeWork_lt (hlength ▸ hstorable.bytes) (hlength ▸ hblocks) hle
    have hplace := hcases.resolve_right fun herror => by
      have hge : work ≤ index.decodeWork start stop work := by
        rw [decodeWork]
        omega
      omega
    refine ⟨index, _, hbuild, answers_of_sortedRows hperm (hmatched ▸ sortedRows_mergeSort _), overlaps_eq hlt, ?_, ?_⟩
    · rw [← hcount]
      exact overlapsBounded_eq hlt hrows hplace hwork
    · rw [← hcount]
      intro hlimit
      refine overlapsBounded_refused hlt hplace (fun hzero => ?_) hlimit
      rw [matched_of_upperOf_zero hzero] at hlimit
      exact Nat.not_lt_zero _ hlimit

/-- Two intervals of one row and one behind the query. -/
theorem overlaps_answer_shared_row :
    ∃ index rows, build [⟨10, 20, 3⟩, ⟨0, 11, 3⟩, ⟨30, 40, 1⟩] 2 = .ok index ∧
      Answers [⟨10, 20, 3⟩, ⟨0, 11, 3⟩, ⟨30, 40, 1⟩] 10 12 rows ∧ index.overlaps 10 12 = .ok rows ∧
      ∃ work, Returns (index.overlapsBounded 10 12 2) rows work := by
  obtain ⟨index, rows, hbuild, hanswers, hoverlaps, hbounded, -⟩ :=
    overlaps_answer (show isPowerOfTwo 2 = true by decide)
      (show ∀ entry ∈ [⟨10, 20, 3⟩, ⟨0, 11, 3⟩, ⟨30, 40, 1⟩], IntervalEntry.start entry < entry.endExclusive by decide)
      ⟨by decide, by decide⟩ (show 10 ≤ 12 by decide) 2
  exact ⟨index, rows, hbuild, hanswers, hoverlaps, hbounded (by decide)⟩

end IntervalIndex

end QTrace.Store
