import QTrace.Store.Postings

/-! The codec of posting lists with its checks on 64-bit words: a first row is stored one higher, no
sum may leave the words, and a run list is checked before it is taken. -/

namespace QTrace.Store.PostingList

open Lib

/-- One round of `from_runs`: the run before, and the rows counted so far. -/
def checkRun (state : Option DeltaRun × ℕ) (run : DeltaRun) : Except IndexError (Option DeltaRun × ℕ) :=
  if run.value = 0 ∨ run.count = 0 then .error (.corrupt "posting run contains zero")
  else if state.1.any (·.value = run.value) then .error (.corrupt "posting runs are not canonical")
  else if 2 ^ 64 ≤ state.2 + run.count then .error (.corrupt "posting row count overflow")
  else .ok (some run, state.2 + run.count)

/-- `from_runs` as a loop; what passes it is as `fromRuns` has it. -/
def takeRuns (runs : List DeltaRun) : Except IndexError PostingList := do
  let _ ← runs.foldlM checkRun (none, 0)
  fromRuns runs

/-- `push_row` on words: the list so far and the row before. -/
def pushWord (state : PostingList × Option ℕ) (row : ℕ) : Except IndexError (PostingList × Option ℕ) :=
  if state.2 = none ∧ 2 ^ 64 ≤ row + 1 then .error (.invalid "first posting delta overflow")
  else do
    let posting ← state.1.pushRow state.2 row
    if 2 ^ 64 ≤ state.1.rowCount + 1 then .error (.resource "posting row count overflow")
    else if posting.runs.getLast?.any (2 ^ 64 ≤ ·.count) then .error (.resource "posting run overflow")
    else return (posting, some row)

/-- `from_rows` on words. -/
def encodeRows (rows : List ℕ) : Except IndexError PostingList := do
  let state ← rows.foldlM pushWord (empty, none)
  return state.1

/-- The row that a stored difference leads to. -/
def nextWord (previous : Option ℕ) (delta : ℕ) : Except IndexError ℕ :=
  match previous with
  | none => if delta = 0 then .error (.corrupt "first posting delta underflow") else .ok (delta - 1)
  | some last => if 2 ^ 64 ≤ last + delta then .error (.corrupt "posting delta overflow") else .ok (last + delta)

def visitWord (rows : List ℕ) (delta : ℕ) : Except IndexError (List ℕ) := do
  let row ← nextWord rows.getLast? delta
  return rows ++ [row]

/-- `rows` on words, over the differences in the order of `visit_deltas`. -/
def decodeRows (posting : PostingList) : Except IndexError (List ℕ) :=
  (expandRuns posting.runs).foldlM visitWord []

variable {posting posting' : PostingList} {rows : List ℕ} {runs : List DeltaRun}

theorem fold_checkRun_ok {previous : Option DeltaRun} {count : ℕ}
    (hpos : ∀ run ∈ runs, run.value ≠ 0 ∧ run.count ≠ 0)
    (hchain : (previous.toList ++ runs).IsChain (·.value ≠ ·.value))
    (hcount : count + (runs.map Run.count).sum < 2 ^ 64) :
    ∃ state, runs.foldlM checkRun (previous, count) = .ok state := by
  induction runs generalizing previous count with
  | nil => exact ⟨_, rfl⟩
  | cons run runs ih =>
    obtain ⟨hrun, hpos⟩ := List.forall_mem_cons.mp hpos
    rw [List.map_cons, List.sum_cons] at hcount
    have hother : previous.any (·.value = run.value) = false := by
      cases previous with
      | none => rfl
      | some last => simpa using (List.isChain_cons_cons.mp hchain).1
    have hrest : (run :: runs).IsChain (·.value ≠ ·.value) := hchain.right_of_append
    obtain ⟨state, hstate⟩ := @ih (some run) (count + run.count) hpos hrest (by omega)
    refine ⟨state, ?_⟩
    rw [List.foldlM_cons, checkRun, if_neg (by simpa using hrun), if_neg (by simp [hother]), if_neg (by omega)]
    exact hstate

theorem runs_of_takeRuns (h : takeRuns runs = .ok posting) : posting.runs = runs ∧ posting.rowCount < 2 ^ 64 := by
  obtain ⟨-, -, h⟩ := bind_eq_ok.mp h
  unfold fromRuns at h
  split_ifs at h with hzero hmax hcount
  obtain rfl := Except.ok.inj h
  exact ⟨rfl, hcount⟩

theorem takeRuns_runs (h : posting.rowCount < 2 ^ 64) : takeRuns posting.runs = .ok posting := by
  have hpos : ∀ run ∈ posting.runs, run.value ≠ 0 ∧ run.count ≠ 0 := fun run hrun =>
    ⟨posting.positive run hrun, posting.canonical.1 run hrun⟩
  have hchain := posting.canonical.2
  obtain ⟨state, hstate⟩ := @fold_checkRun_ok posting.runs none 0 hpos hchain (by simpa [rowCount] using h)
  rw [takeRuns, bind_of_ok hstate, fromRuns, dif_pos hpos, dif_pos hchain]
  exact if_pos h

/-- What the next difference is added to, one higher than the last row. -/
def baseAfter (rows : List ℕ) : ℕ := (rows.getLast?.map (· + 1)).getD 0

@[simp]
theorem baseAfter_append (rows : List ℕ) (row : ℕ) : baseAfter (rows ++ [row]) = row + 1 := by
  simp [baseAfter]

theorem nextWord_eq_ok {delta row : ℕ} (h : delta ≠ 0) :
    nextWord rows.getLast? delta = .ok row ↔ row = baseAfter rows + delta - 1 ∧ (rows ≠ [] → row < 2 ^ 64) := by
  rcases List.eq_nil_or_concat rows with rfl | ⟨before, last, rfl⟩
  · simp [nextWord, baseAfter, h, eq_comm]
  · have hbase : last + 1 + delta - 1 = last + delta := by omega
    rw [List.concat_eq_append, List.getLast?_concat, baseAfter_append, hbase, nextWord]
    split_ifs with hover
    · simp only [false_iff]
      rintro ⟨rfl, hlt⟩
      exact absurd (hlt (by simp)) (by omega)
    · constructor
      · intro heq
        obtain rfl := Except.ok.inj heq
        exact ⟨rfl, fun _ => by omega⟩
      · rintro ⟨rfl, -⟩
        rfl

theorem fold_visitWord {deltas before : List ℕ} (hpos : ∀ delta ∈ deltas, delta ≠ 0)
    (h : deltas.foldlM visitWord before = .ok rows) : rows = before ++ fromDeltas (baseAfter before) deltas := by
  induction deltas generalizing before with
  | nil => simpa [fromDeltas] using (pure_eq_ok.mp h).symm
  | cons delta deltas ih =>
    obtain ⟨hdelta, hpos⟩ := List.forall_mem_cons.mp hpos
    rw [List.foldlM_cons] at h
    obtain ⟨next, hnext, h⟩ := bind_eq_ok.mp h
    obtain ⟨row, hrow, hnext⟩ := bind_eq_ok.mp hnext
    obtain rfl := pure_eq_ok.mp hnext
    obtain ⟨hrow, -⟩ := (nextWord_eq_ok hdelta).mp hrow
    have hbase : row + 1 = baseAfter before + delta := by omega
    rw [ih hpos h, baseAfter_append, fromDeltas, hbase, hrow, List.append_assoc, List.singleton_append]

theorem fold_visitWord_ok {deltas before : List ℕ} (hpos : ∀ delta ∈ deltas, delta ≠ 0)
    (h : ∀ row ∈ fromDeltas (baseAfter before) deltas, row < 2 ^ 64) :
    deltas.foldlM visitWord before = .ok (before ++ fromDeltas (baseAfter before) deltas) := by
  induction deltas generalizing before with
  | nil => simp [fromDeltas, pure, Except.pure]
  | cons delta deltas ih =>
    obtain ⟨hdelta, hpos⟩ := List.forall_mem_cons.mp hpos
    rw [fromDeltas] at h ⊢
    obtain ⟨hrow, h⟩ := List.forall_mem_cons.mp h
    have hnext := (@nextWord_eq_ok before _ _ hdelta).mpr ⟨rfl, fun _ => hrow⟩
    have hbase : baseAfter before + delta - 1 + 1 = baseAfter before + delta := by omega
    have hrest := @ih (before ++ [baseAfter before + delta - 1]) hpos (by rwa [baseAfter_append, hbase])
    rw [baseAfter_append, hbase] at hrest
    rw [List.foldlM_cons, visitWord, bind_of_ok hnext]
    simpa using hrest

theorem rows_of_decodeRows (h : posting.decodeRows = .ok rows) : rows = posting.rows := by
  exact fold_visitWord posting.deltas_ne_zero h

theorem decodeRows_ok (h : ∀ row ∈ posting.rows, row < 2 ^ 64) : posting.decodeRows = .ok posting.rows :=
  fold_visitWord_ok posting.deltas_ne_zero h

theorem last_count_le (posting : PostingList) : ∀ run ∈ posting.runs.getLast?, run.count ≤ posting.rowCount :=
  fun _ h => List.le_sum_of_mem (List.mem_map_of_mem (List.mem_of_getLast? h))

theorem pushWord_ok {row : ℕ} (hlast : ∀ last ∈ posting.rows.getLast?, last < row)
    (hhead : posting.rows = [] → row + 1 < 2 ^ 64) (hcount : posting.rows.length + 1 < 2 ^ 64) :
    ∃ posting', pushWord (posting, posting.rows.getLast?) row = .ok (posting', some row) ∧
      posting'.rows = posting.rows ++ [row] := by
  obtain ⟨posting', hpush⟩ := pushRow_ok hlast
  have hrows := rows_pushRow hpush
  have hlength : posting'.rowCount = posting.rows.length + 1 := by
    rw [← length_rows, hrows, List.length_append, List.length_singleton]
  have hrun : posting'.runs.getLast?.any (2 ^ 64 ≤ ·.count) = false := by
    rw [Option.any_eq_false]
    intro run h
    have := posting'.last_count_le run h
    simpa using by omega
  refine ⟨posting', ?_, hrows⟩
  have hfirst : ¬(posting.rows.getLast? = none ∧ 2 ^ 64 ≤ row + 1) := by
    rw [List.getLast?_eq_none_iff]
    rintro ⟨hnil, hover⟩
    exact absurd (hhead hnil) (by omega)
  rw [pushWord, if_neg hfirst, bind_of_ok hpush, hrun]
  dsimp only
  rw [← length_rows, if_neg (by omega)]
  rfl

theorem fold_pushWord (hsorted : (posting.rows ++ rows).Pairwise (· < ·))
    (hhead : ∀ row ∈ (posting.rows ++ rows).head?, row + 1 < 2 ^ 64)
    (hcount : (posting.rows ++ rows).length < 2 ^ 64) :
    ∃ state, rows.foldlM pushWord (posting, posting.rows.getLast?) = .ok state ∧
      state.1.rows = posting.rows ++ rows := by
  induction rows generalizing posting with
  | nil => exact ⟨_, rfl, by simp⟩
  | cons row rows ih =>
    have hlast : ∀ last ∈ posting.rows.getLast?, last < row := fun last hlast =>
      (List.pairwise_append.mp hsorted).2.2 last (List.mem_of_getLast? hlast) row List.mem_cons_self
    have hlength : posting.rows.length + 1 < 2 ^ 64 := by
      rw [List.length_append, List.length_cons] at hcount
      omega
    obtain ⟨next, hnext, hrows⟩ := pushWord_ok hlast (fun hnil => hhead row (by simp [hnil])) hlength
    have hsplit : next.rows ++ rows = posting.rows ++ row :: rows := by simp [hrows]
    obtain ⟨state, hstate, heq⟩ := @ih next (hsplit ▸ hsorted) (hsplit ▸ hhead) (hsplit ▸ hcount)
    refine ⟨state, ?_, heq.trans hsplit⟩
    rw [List.foldlM_cons, bind_of_ok hnext]
    simpa [hrows] using hstate

theorem encodeRows_rows (hhead : ∀ row ∈ posting.rows.head?, row + 1 < 2 ^ 64) (hcount : posting.rowCount < 2 ^ 64) :
    encodeRows posting.rows = .ok posting := by
  obtain ⟨state, hstate, hrows⟩ := @fold_pushWord empty posting.rows posting.rows_pairwise hhead
    (by rwa [← length_rows] at hcount)
  rw [rows_empty, List.getLast?_nil] at hstate
  rw [encodeRows, bind_of_ok hstate, rows_inj hrows]
  rfl

/-- Of increasing rows below `2 ^ 64`, only the list of the last one has no first difference. -/
theorem head_fits (hsorted : rows.Pairwise (· < ·)) (hwords : ∀ row ∈ rows, row < 2 ^ 64)
    (hne : rows ≠ [2 ^ 64 - 1]) : ∀ row ∈ rows.head?, row + 1 < 2 ^ 64 := by
  cases rows with
  | nil => simp
  | cons row rest =>
    intro first hfirst
    obtain rfl := Option.some.inj hfirst
    have hrow := hwords row List.mem_cons_self
    by_contra hmax
    obtain rfl : row = 2 ^ 64 - 1 := by omega
    cases rest with
    | nil => exact hne rfl
    | cons next rest =>
      have hlt := List.rel_of_pairwise_cons hsorted List.mem_cons_self
      have hnext := hwords next (by simp)
      omega

/-- Taken runs of words start below the last word. -/
theorem head_of_words (hwords : ∀ run ∈ posting.runs, run.value < 2 ^ 64) :
    ∀ row ∈ posting.rows.head?, row + 1 < 2 ^ 64 := by
  have hpos := posting.deltas_ne_zero
  have hall : ∀ delta ∈ expandRuns posting.runs, delta < 2 ^ 64 := by
    intro delta h
    obtain ⟨run, hrun, h⟩ := List.mem_flatMap.mp h
    rw [(List.mem_replicate.mp h).2]
    exact hwords run hrun
  rw [rows]
  cases hdeltas : expandRuns posting.runs with
  | nil => simp [fromDeltas]
  | cons delta deltas =>
    have hdelta := hpos delta (by simp [hdeltas])
    have hword := hall delta (by simp [hdeltas])
    intro first hfirst
    obtain rfl := Option.some.inj hfirst
    omega

theorem encodeRows_of_take (hwords : ∀ run ∈ runs, run.value < 2 ^ 64) (htaken : takeRuns runs = .ok posting)
    (hrows : posting.decodeRows = .ok rows) :
    posting.runs = runs ∧ encodeRows rows = .ok posting := by
  obtain ⟨rfl, hcount⟩ := runs_of_takeRuns htaken
  rw [rows_of_decodeRows hrows]
  exact ⟨rfl, encodeRows_rows (head_of_words hwords) hcount⟩

/-- Every increasing list of words but the one with the last word alone is read back from its coding, a
run list that is taken and read is the coding of its rows, and so posting lists that are taken are equal
when their rows are. -/
theorem posting_codec_exact :
    (∀ rows : List ℕ, (∀ row ∈ rows, row < 2 ^ 64) → rows.Pairwise (· < ·) → rows.length < 2 ^ 64 →
      rows ≠ [2 ^ 64 - 1] → ∃ posting, encodeRows rows = .ok posting ∧ posting.decodeRows = .ok rows ∧
        takeRuns posting.runs = .ok posting) ∧
    (∀ (runs : List DeltaRun) posting rows, (∀ run ∈ runs, run.value < 2 ^ 64) → takeRuns runs = .ok posting →
      posting.decodeRows = .ok rows → posting.runs = runs ∧ encodeRows rows = .ok posting) ∧
    ∀ (runs runs' : List DeltaRun) posting posting' rows rows', (∀ run ∈ runs, run.value < 2 ^ 64) →
      (∀ run ∈ runs', run.value < 2 ^ 64) → takeRuns runs = .ok posting → posting.decodeRows = .ok rows →
      takeRuns runs' = .ok posting' → posting'.decodeRows = .ok rows' → (posting = posting' ↔ rows = rows') := by
  refine ⟨?_, ?_, ?_⟩
  · intro rows hwords hsorted hlength hne
    obtain ⟨posting, -, rfl⟩ := fromRows_ok hsorted
    have hcount : posting.rowCount < 2 ^ 64 := by rwa [← length_rows]
    exact ⟨posting, encodeRows_rows (head_fits hsorted hwords hne) hcount, decodeRows_ok hwords, takeRuns_runs hcount⟩
  · intro runs posting rows hwords htaken hrows
    exact encodeRows_of_take hwords htaken hrows
  · intro runs runs' posting posting' rows rows' hwords hwords' htaken hrows htaken' hrows'
    constructor
    · rintro rfl
      exact Except.ok.inj (hrows.symm.trans hrows')
    · rintro rfl
      have hcoded := (encodeRows_of_take hwords htaken hrows).2
      exact Except.ok.inj (hcoded.symm.trans (encodeRows_of_take hwords' htaken' hrows').2)

/-- The first difference is one higher than the first row, so that equal steps from row 0 on are one run. -/
theorem posting_codec_exact_steps :
    ∃ posting, encodeRows [0, 1, 2, 5] = .ok posting ∧ posting.decodeRows = .ok [0, 1, 2, 5] ∧
      takeRuns posting.runs = .ok posting :=
  posting_codec_exact.1 [0, 1, 2, 5] (by decide) (by decide) (by decide) (by decide)

/-- The increasing list of the one row `u64::MAX` has no coding: its first difference overflows. -/
theorem encodeRows_maxRow :
    [2 ^ 64 - 1].Pairwise (· < ·) ∧
      encodeRows [2 ^ 64 - 1] = .error (.invalid "first posting delta overflow") :=
  ⟨by decide, rfl⟩

end QTrace.Store.PostingList
