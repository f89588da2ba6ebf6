import QTrace.Lib.ResetFold
import QTrace.Lib.RunLength
import QTrace.Lib.SortedMap

/-! Posting lists: the rows that share a key, stored as runs of equal row differences, and the
sorted maps from keys to posting lists. Rows are below the event count, so that no sum of them
overflows; work budgets and allocation failures are left out. -/

namespace QTrace.Store

open Lib

structure IndexError where
  code : String
  detail : String
  deriving DecidableEq

namespace IndexError

def invalid (detail : String) : IndexError := ⟨"index.invalid", detail⟩

def corrupt (detail : String) : IndexError := ⟨"cache.normalized_corrupt", detail⟩

def resource (detail : String) : IndexError := ⟨"control.resource_exhausted", detail⟩

def duplicateKey (detail : String) : IndexError := ⟨"index.duplicate_source_key", detail⟩

end IndexError

/-- `DeltaRun`: the difference between neighbouring rows, and how often it comes in a row. -/
abbrev DeltaRun := Run ℕ

structure PostingList where
  runs : List DeltaRun
  positive : ∀ run ∈ runs, run.value ≠ 0
  canonical : CanonicalRuns runs
  deriving DecidableEq

namespace PostingList

def empty : PostingList := ⟨[], by simp, .nil⟩

def rows (posting : PostingList) : List ℕ := fromDeltas 0 (expandRuns posting.runs)

def rowCount (posting : PostingList) : ℕ := (posting.runs.map Run.count).sum

/-- `from_runs`: what the cache holds is checked to be canonical. -/
def fromRuns (runs : List DeltaRun) : Except IndexError PostingList :=
  if hzero : ∀ run ∈ runs, run.value ≠ 0 ∧ run.count ≠ 0 then
    if hmax : runs.IsChain (·.value ≠ ·.value) then
      if (runs.map Run.count).sum < 2 ^ 64 then
        .ok ⟨runs, fun run h => (hzero run h).1, fun run h => (hzero run h).2, hmax⟩
      else .error (.corrupt "posting row count overflow")
    else .error (.corrupt "posting runs are not canonical")
  else .error (.corrupt "posting run contains zero")

theorem positive_push {runs : List DeltaRun} (h : ∀ run ∈ runs, run.value ≠ 0) {delta : ℕ} (hdelta : delta ≠ 0) :
    ∀ run ∈ pushRun runs delta, run.value ≠ 0 := by
  fun_induction pushRun runs delta with
  | case1 a => simpa using hdelta
  | case2 run => simpa using hdelta
  | case3 run a hne => simpa using ⟨h run List.mem_cons_self, hdelta⟩
  | case4 run next runs a ih =>
    obtain ⟨hrun, hrest⟩ := List.forall_mem_cons.mp h
    exact List.forall_mem_cons.mpr ⟨hrun, ih hrest hdelta⟩

def push (posting : PostingList) (delta : ℕ) (h : delta ≠ 0) : PostingList :=
  ⟨pushRun posting.runs delta, positive_push posting.positive h, posting.canonical.pushRun delta⟩

/-- `push_row`, after the row `previous`. -/
def pushRow (posting : PostingList) (previous : Option ℕ) (row : ℕ) : Except IndexError PostingList :=
  match previous with
  | none => .ok (posting.push (row + 1) (Nat.succ_ne_zero row))
  | some last =>
    if h : last < row then .ok (posting.push (row - last) (Nat.sub_ne_zero_of_lt h))
    else .error (.invalid "posting rows must be strictly increasing")

/-- One round of `from_rows`: the list so far and its last row. -/
def pushNext (state : PostingList × Option ℕ) (row : ℕ) : Except IndexError (PostingList × Option ℕ) := do
  let posting ← state.1.pushRow state.2 row
  return (posting, some row)

def fromRows (rows : List ℕ) : Except IndexError PostingList :=
  Prod.fst <$> rows.foldlM pushNext (empty, none)

variable {posting posting' : PostingList} {rows : List ℕ}

theorem deltas_ne_zero (posting : PostingList) : ∀ delta ∈ expandRuns posting.runs, delta ≠ 0 := by
  intro delta h
  obtain ⟨run, hrun, h⟩ := List.mem_flatMap.mp h
  rw [(List.mem_replicate.mp h).2]
  exact posting.positive run hrun

theorem rows_pairwise (posting : PostingList) : posting.rows.Pairwise (· < ·) :=
  (fromDeltas_sorted posting.deltas_ne_zero).2

theorem rows_inj (h : posting.rows = posting'.rows) : posting = posting' := by
  have hdeltas := fromDeltas_inj posting.deltas_ne_zero posting'.deltas_ne_zero h
  have hruns := expandRuns_inj posting.canonical posting'.canonical hdeltas
  cases posting
  cases posting'
  simpa using hruns

theorem length_rows (posting : PostingList) : posting.rows.length = posting.rowCount := by
  rw [rows, length_fromDeltas, length_expandRuns, rowCount]

theorem length_runs_le (posting : PostingList) : posting.runs.length ≤ posting.rows.length := by
  rw [rows, length_fromDeltas]
  exact posting.canonical.length_le

theorem rows_ne_nil (h : posting.runs ≠ []) : posting.rows ≠ [] := by
  intro hnil
  have hlen := posting.length_runs_le
  rw [hnil, List.length_nil, Nat.le_zero, List.length_eq_zero_iff] at hlen
  exact h hlen

@[simp]
theorem rows_empty : empty.rows = [] := rfl

theorem sum_deltas (posting : PostingList) (row : ℕ) (h : posting.rows.getLast? = some row) :
    (expandRuns posting.runs).sum = row + 1 := by
  have hpos := posting.deltas_ne_zero
  rw [rows] at h
  generalize expandRuns posting.runs = deltas at h hpos
  rcases List.eq_nil_or_concat deltas with rfl | ⟨deltas, delta, rfl⟩
  · simp [fromDeltas] at h
  · rw [List.concat_eq_append] at h hpos ⊢
    have hdelta := hpos delta (by simp)
    rw [fromDeltas_append, List.getLast?_append, List.getLast?_singleton] at h
    simp only [Option.some_or, Option.some.injEq] at h
    rw [List.sum_append, List.sum_singleton]
    omega

variable {row : ℕ}

theorem rows_pushRow (h : posting.pushRow posting.rows.getLast? row = .ok posting') :
    posting'.rows = posting.rows ++ [row] := by
  unfold pushRow at h
  cases hlast : posting.rows.getLast? with
  | none =>
    rw [hlast] at h
    have hnil : posting.rows = [] := List.getLast?_eq_none_iff.mp hlast
    have hdeltas : expandRuns posting.runs = [] := by
      have := congrArg List.length hnil
      rwa [rows, length_fromDeltas, List.length_nil, List.length_eq_zero_iff] at this
    obtain rfl : posting.push (row + 1) _ = posting' := by simpa using h
    rw [rows, push, expandRuns_pushRun, hdeltas, hnil]
    simp [fromDeltas]
  | some last =>
    rw [hlast] at h
    dsimp only at h
    split at h
    · rename_i hlt
      obtain rfl : posting.push (row - last) _ = posting' := by simpa using h
      rw [rows, push, expandRuns_pushRun, fromDeltas_append, posting.sum_deltas last hlast]
      congr 2
      omega
    · cases h

theorem pushRow_ok (h : ∀ last ∈ posting.rows.getLast?, last < row) :
    ∃ posting', posting.pushRow posting.rows.getLast? row = .ok posting' := by
  unfold pushRow
  cases hlast : posting.rows.getLast? with
  | none => exact ⟨_, rfl⟩
  | some last =>
    have hlt := h last (by simp [hlast])
    simp [hlt]

theorem fold_rows {state : PostingList × Option ℕ} (hstate : state.2 = state.1.rows.getLast?)
    (h : (state.1.rows ++ rows).Pairwise (· < ·)) :
    ∃ posting, Prod.fst <$> rows.foldlM pushNext state = .ok posting ∧
      posting.rows = state.1.rows ++ rows := by
  induction rows generalizing state with
  | nil => exact ⟨state.1, rfl, by simp⟩
  | cons row rows ih =>
    have hlast : ∀ last ∈ state.1.rows.getLast?, last < row := fun last hlast =>
      (List.pairwise_append.mp h).2.2 last (List.mem_of_getLast? hlast) row List.mem_cons_self
    obtain ⟨posting, hpush⟩ := pushRow_ok hlast
    have hrows := rows_pushRow hpush
    have hnext : (posting, some row).2 = (posting, some row).1.rows.getLast? := by simp [hrows]
    obtain ⟨result, hresult, heq⟩ := ih hnext (by simpa [hrows] using h)
    refine ⟨result, ?_, by simpa [hrows] using heq⟩
    rw [List.foldlM_cons, pushNext, hstate, hpush]
    exact hresult

theorem fromRows_ok (h : rows.Pairwise (· < ·)) :
    ∃ posting, fromRows rows = .ok posting ∧ posting.rows = rows := by
  simpa [fromRows] using @fold_rows rows (empty, none) rfl (by simpa using h)

theorem rows_of_fromRows (h : fromRows rows = .ok posting) : posting.rows = rows := by
  obtain ⟨state, hstate, rfl⟩ : ∃ state, rows.foldlM pushNext (empty, none) = .ok state ∧ state.1 = posting := by
    unfold fromRows at h
    cases hfold : rows.foldlM pushNext (empty, none) with
    | error e => simp [hfold] at h
    | ok state => exact ⟨state, rfl, by simpa [hfold] using h⟩
  refine (foldlM_rule (fun before state => state.1.rows = before ∧ state.2 = before.getLast?) ⟨rfl, rfl⟩ ?_ hstate).1
  rintro before row after ⟨list, last⟩ next - ⟨hrows, hlast⟩ hnext
  dsimp only at hrows hlast
  obtain ⟨list', hpush, hnext⟩ := bind_eq_ok.mp hnext
  obtain rfl := pure_eq_ok.mp hnext
  subst hrows hlast
  exact ⟨rows_pushRow hpush, by simp⟩

end PostingList

def fromSorted {V : Type} (entries : List (ℕ × V)) : Except IndexError (SortedMap ℕ V) :=
  if h : entries.Pairwise (·.1 < ·.1) then .ok ⟨entries, h⟩
  else .error (.corrupt "sorted map keys are not strictly increasing")

theorem fromSorted_ok {V : Type} {entries : List (ℕ × V)} {m : SortedMap ℕ V} :
    fromSorted entries = .ok m ↔ m.entries = entries := by
  unfold fromSorted
  split
  · rename_i h
    rw [Except.ok.injEq]
    constructor
    · rintro rfl
      rfl
    · rintro rfl
      rfl
  · rename_i h
    constructor
    · intro herr
      cases herr
    · rintro rfl
      exact absurd m.sorted h

/-- `cancellable_sort` of pairs: by the first part, then by the second. -/
def sortPairs {V : Type} (le : V → V → Bool) (pairs : List (ℕ × V)) : List (ℕ × V) :=
  pairs.mergeSort fun a b => a.1 < b.1 || a.1 == b.1 && le a.2 b.2

def sortRows (rows : List ℕ) : List ℕ := rows.mergeSort (· ≤ ·)

/-- The posting list of a group, without repetitions. -/
def gatherGroup (group : ℕ × List ℕ) : Except IndexError (ℕ × PostingList) := do
  let posting ← PostingList.fromRows (dropRepeats group.2)
  return (group.1, posting)

def keyedPostings (pairs : List (ℕ × ℕ)) : Except IndexError (SortedMap ℕ PostingList) := do
  let entries ← (groupByKey (sortPairs (· ≤ ·) pairs)).mapM gatherGroup
  fromSorted entries

def keyedValues {V : Type} (le : V → V → Bool) (pairs : List (ℕ × V)) :
    Except IndexError (SortedMap ℕ (List V)) :=
  fromSorted (groupByKey (sortPairs le pairs))

/-- One group of `keyed_posting_partition`: the rows of a key so far, and the last of them. -/
structure PostingGroup where
  key : ℕ
  posting : PostingList
  previous : Option ℕ

/-- A row goes to the group of its key, or to a new one. -/
def addToGroup (key row : ℕ) : List PostingGroup → Except IndexError (List PostingGroup)
  | [] => do
    let posting ← PostingList.empty.pushRow none row
    return [⟨key, posting, some row⟩]
  | group :: groups =>
    if group.key = key then do
      let posting ← group.posting.pushRow group.previous row
      return { group with posting := posting, previous := some row } :: groups
    else do
      let groups ← addToGroup key row groups
      return group :: groups

/-- A row with a key goes to its group. -/
def placeRow (keyForRow : ℕ → Option ℕ) (groups : List PostingGroup) (row : ℕ) :
    Except IndexError (List PostingGroup) :=
  match keyForRow row with
  | none => .ok groups
  | some key => addToGroup key row groups

/-- `keyed_posting_partition`. The order of the hash map is lost in the sort. -/
def keyedPostingPartition (rowCount : ℕ) (keyForRow : ℕ → Option ℕ) :
    Except IndexError (SortedMap ℕ PostingList) := do
  let groups ← (List.range rowCount).foldlM (placeRow keyForRow) []
  fromSorted ((groups.map fun group => (group.key, group.posting)).mergeSort fun a b => a.1 ≤ b.1)

/-- The row that a difference leads to. -/
def rowAfter (previous : Option ℕ) (delta : ℕ) : ℕ :=
  match previous with
  | none => delta - 1
  | some last => last + delta

/-- One step of `visit_deltas` in `validate_posting_partition`: the row before and the rows
counted so far. -/
def visitDelta (rowCount : ℕ) (expected : ℕ → Option ℕ) (key : ℕ) (state : Option ℕ × ℕ) (delta : ℕ) :
    Except IndexError (Option ℕ × ℕ) :=
  if delta = 0 then .error (.corrupt "posting delta is zero")
  else
    let row := rowAfter state.1 delta
    if rowCount ≤ row ∨ expected row ≠ some key then
      .error (.corrupt "posting index differs from normalized facts")
    else .ok (some row, state.2 + 1)

def validatePostingPartition (postings : SortedMap ℕ PostingList) (rowCount : ℕ)
    (expected : ℕ → Option ℕ) : Except IndexError Unit := do
  let expectedCount := ((List.range rowCount).filter fun row => (expected row).isSome).length
  let actualCount ← postings.entries.foldlM (fun count entry =>
    Prod.snd <$> (expandRuns entry.2.runs).foldlM (visitDelta rowCount expected entry.1) (none, count)) 0
  if actualCount ≠ expectedCount then .error (.corrupt "posting index cardinality differs") else .ok ()

end QTrace.Store
