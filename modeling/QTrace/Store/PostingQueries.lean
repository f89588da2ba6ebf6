import QTrace.Store.EagerCheck
import QTrace.Store.Overlaps

/-! Bounded queries of the posting indexes, and the estimates that are made before them. A
query of any kind charges its lookups, scans and sorts; its estimate charges the lookups only
and says how many rows the query can return and how much work it will charge. Counters of loop
rounds are below `2 ^ 64` and are not checked here; sums of row counts and of work are. -/

namespace QTrace.Store

open Lib Lib.Metered Provider
open Analysis (EventKey EventKind RegisterObservationRow)

inductive NormalizedPostingQuery
  | tids (values : List ℕ)
  | kinds (values : List EventKind)
  | modules (values : List ℕ)
  | sequence (start endExclusive : ℕ)
  | modulePc (module start endExclusive : ℕ)
  | definitions (values : List ℕ)
  | registers (values : List RegisterSlot)
  | semanticCategories (values : List (List UInt8))
  | semanticNames (values : List (List UInt8))
  | memory (start endExclusive : ℕ)

/-- What `bounded_map_estimate` counts. -/
structure MapCount where
  encodedRows : ℕ
  matchedLists : ℕ
  queryTerms : ℕ
  lookupWork : ℕ

/-- The lookup of one key. -/
def countKey (map : SortedMap ℕ PostingList) (maxRows : ℕ) (count : MapCount) (key : ℕ) :
    Metered IndexError MapCount := do
  let (list, comparisons) ← guardedGet map key
  match list with
  | none => return { count with queryTerms := count.queryTerms + 1, lookupWork := count.lookupWork + comparisons }
  | some list =>
    let encodedRows := count.encodedRows + list.rowCount
    if 2 ^ 64 ≤ encodedRows then fail (.resource "bounded posting row count overflow")
    else if maxRows < encodedRows then fail (.resource "bounded posting result exceeds row limit")
    else return ⟨encodedRows, count.matchedLists + 1, count.queryTerms + 1, count.lookupWork + comparisons⟩

def mapDecodeWork (count : MapCount) : Metered IndexError ℕ := do
  let lookupPass ← checkedWork (count.queryTerms + count.lookupWork) "bounded posting lookup pass overflow"
  let radix ← (if 1 < count.matchedLists then (RadixWork.forRows count.encodedRows).checkedTotal else pure 0)
  checkedWork (lookupPass * 2 + count.matchedLists + count.encodedRows + radix) "bounded posting decode work overflow"

def boundedMapEstimate (map : SortedMap ℕ PostingList) (keys : List ℕ) (maxRows : ℕ) :
    Metered IndexError NormalizedPostingEstimate := do
  let count ← keys.foldlM (fun count key => do
    charge 1
    countKey map maxRows count key) ⟨0, 0, 0, 0⟩
  let decodeWork ← mapDecodeWork count
  return ⟨count.encodedRows, decodeWork⟩

def boundedMapCount (map : SortedMap ℕ PostingList) (keys : List ℕ) (maxRows : ℕ) : Metered IndexError ℕ := do
  let estimate ← boundedMapEstimate map keys maxRows
  return estimate.rows

/-- The rows that differences lead to, after the row `previous`. -/
def visitDeltas (previous : Option ℕ) : List ℕ → Except IndexError (List ℕ)
  | [] => .ok []
  | delta :: deltas =>
    if delta = 0 then .error (.corrupt "posting delta is zero")
    else if 2 ^ 64 ≤ rowAfter previous delta then .error (.corrupt "posting delta overflow")
    else do
      let rows ← visitDeltas (some (rowAfter previous delta)) deltas
      return rowAfter previous delta :: rows

def boundedPostingUnion (lists : List PostingList) (maxRows : ℕ) : Metered IndexError (List ℕ) := do
  let _ ← lists.foldlM (fun total list => do
    charge 1
    if total + list.rowCount ≤ maxRows then pure (total + list.rowCount)
    else fail (.resource "bounded posting result exceeds row limit")) 0
  let rows ← lists.foldlM (fun rows list => do
    charge list.rowCount
    let decoded ← lift (visitDeltas none (expandRuns list.runs))
    pure (rows ++ decoded)) []
  if 1 < lists.length then radixSortUniqueRows rows else pure rows

def boundedMapRows (map : SortedMap ℕ PostingList) (keys : List ℕ) (maxRows : ℕ) :
    Metered IndexError (List ℕ) := do
  let _ ← boundedMapCount map keys maxRows
  let lists ← keys.foldlM (fun lists key => do
    charge 1
    let found ← guardedGet map key
    pure (lists ++ found.1.toList)) []
  boundedPostingUnion lists maxRows

def boundedPairEstimate (rows : List (ℕ × ℕ)) (start stop maxRows : ℕ) :
    Metered IndexError NormalizedPostingEstimate :=
  if stop ≤ start then pure ⟨0, 0⟩
  else do
    let (first, firstWork) ← partitionPointWithWork rows fun pair => decide (pair.1 < start)
    let (last, lastWork) ← partitionPointWithWork rows fun pair => decide (pair.1 < stop)
    let count := last - first
    if maxRows < count then fail (.resource "bounded posting result exceeds row limit")
    else
      let decodeWork ← checkedWork (firstWork + lastWork + count + (RadixWork.forRows count).total)
        "bounded pair decode work overflow"
      return ⟨count, decodeWork⟩

def boundedPairRows (rows : List (ℕ × ℕ)) (start stop maxRows : ℕ) : Metered IndexError (List ℕ) :=
  if stop ≤ start then pure []
  else do
    let (first, _) ← partitionPointWithWork rows fun pair => decide (pair.1 < start)
    let (last, _) ← partitionPointWithWork rows fun pair => decide (pair.1 < stop)
    let count := last - first
    if maxRows < count then fail (.resource "bounded posting result exceeds row limit")
    else
      let found := ((rows.take last).drop first).map Prod.snd
      charge found.length
      radixSortUniqueRows found

def consumeDictionaryEntryWork (span : ByteSpan) : Metered IndexError ℕ := do
  charge 1
  charge span.length
  checkedWork (span.length + 1) "semantic dictionary entry work overflow"

section Visit

variable {σ : Type} (strings : ByteArena) (visit : σ → ℕ → Metered IndexError σ)

/-- One value: the spans are visited up to the one that holds it. -/
def visitSpans (value : List UInt8) : List (ByteSpan × ℕ) → ℕ → σ → Metered IndexError (ℕ × σ)
  | [], work, state => pure (work, state)
  | (span, id) :: spans, work, state => do
    let entry ← consumeDictionaryEntryWork span
    let work ← checkedWork (work + entry) "semantic dictionary work overflow"
    let bytes ← lift (strings.get (id % 2 ^ 32))
    if bytes = value then do
      let state ← visit state (id % 2 ^ 32)
      pure (work, state)
    else visitSpans value spans work state

/-- `visit_semantic_dictionary_matches`, with what `visit` keeps. -/
def visitSemanticDictionaryMatches (values : List (List UInt8)) (state : σ) : Metered IndexError (ℕ × σ) :=
  values.foldlM (fun visited value => visitSpans strings visit value strings.spans.zipIdx visited.1 visited.2) (0, state)

end Visit

namespace NormalizedCatalog

variable (catalog : NormalizedCatalog)

def semanticMap (categories : Bool) : SortedMap ℕ PostingList :=
  if categories then catalog.indexes.semanticCategory else catalog.indexes.semanticName

def boundedSemanticEstimate (values : List (List UInt8)) (categories : Bool) (maxRows : ℕ) :
    Metered IndexError NormalizedPostingEstimate := do
  let (dictionaryWork, count) ← visitSemanticDictionaryMatches catalog.strings
    (countKey (catalog.semanticMap categories) maxRows) values ⟨0, 0, 0, 0⟩
  let decodeWork ← mapDecodeWork count
  let work ← checkedWork (dictionaryWork + decodeWork) "semantic decode work overflow"
  return ⟨count.encodedRows, work⟩

def boundedSemanticRows (values : List (List UInt8)) (categories : Bool) (maxRows : ℕ) :
    Metered IndexError (List ℕ) := do
  let (_, ids) ← visitSemanticDictionaryMatches catalog.strings (fun ids id => pure (ids ++ [id])) values []
  boundedMapRows (catalog.semanticMap categories) ids maxRows

def boundedRowEstimate (query : NormalizedPostingQuery) (maxRows : ℕ) :
    Metered IndexError NormalizedPostingEstimate :=
  match query with
  | .tids values => boundedMapEstimate catalog.indexes.tid values maxRows
  | .kinds values => boundedMapEstimate catalog.indexes.kind (values.map encodeEventKind) maxRows
  | .modules values => boundedMapEstimate catalog.indexes.module values maxRows
  | .sequence start stop => boundedPairEstimate catalog.indexes.sequence start stop maxRows
  | .modulePc module start stop =>
    boundedPairEstimate ((catalog.indexes.modulePc.get module).getD []) start stop maxRows
  | .definitions values => boundedMapEstimate catalog.indexes.definition values maxRows
  | .registers values => boundedMapEstimate catalog.indexes.register (values.map Fin.val) maxRows
  | .semanticCategories values => catalog.boundedSemanticEstimate values true maxRows
  | .semanticNames values => catalog.boundedSemanticEstimate values false maxRows
  | .memory start stop => catalog.indexes.memory.overlapEstimateBounded start stop maxRows

def boundedRows (query : NormalizedPostingQuery) (maxRows : ℕ) : Metered IndexError (List ℕ) :=
  match query with
  | .tids values => boundedMapRows catalog.indexes.tid values maxRows
  | .kinds values => boundedMapRows catalog.indexes.kind (values.map encodeEventKind) maxRows
  | .modules values => boundedMapRows catalog.indexes.module values maxRows
  | .sequence start stop => boundedPairRows catalog.indexes.sequence start stop maxRows
  | .modulePc module start stop =>
    boundedPairRows ((catalog.indexes.modulePc.get module).getD []) start stop maxRows
  | .definitions values => boundedMapRows catalog.indexes.definition values maxRows
  | .registers values => boundedMapRows catalog.indexes.register (values.map Fin.val) maxRows
  | .semanticCategories values => catalog.boundedSemanticRows values true maxRows
  | .semanticNames values => catalog.boundedSemanticRows values false maxRows
  | .memory start stop => catalog.indexes.memory.overlapsBounded start stop maxRows

end NormalizedCatalog

/-- The lists found for one key. -/
def found (map : SortedMap ℕ PostingList) (key : ℕ) : List PostingList := (map.get key).toList

def rowsIn (lists : List PostingList) : ℕ := (lists.map PostingList.rowCount).sum

def MapCount.add (count : MapCount) (lists : List PostingList) (steps : ℕ) : MapCount :=
  ⟨count.encodedRows + rowsIn lists, count.matchedLists + lists.length, count.queryTerms + 1, count.lookupWork + steps⟩

section MapQuery

variable {map : SortedMap ℕ PostingList} {maxRows key cost : ℕ} {count count' : MapCount} {keys : List ℕ}

/-- A key that is counted: what the count becomes, and that the limit is kept. -/
theorem countKey_returns (h : Returns (countKey map maxRows count key) count' cost) :
    Returns (guardedGet map key : Metered IndexError _) (map.get key, cost) cost ∧
      count' = count.add (found map key) cost ∧ (count.encodedRows ≤ maxRows → count'.encodedRows ≤ maxRows) := by
  obtain ⟨steps, hget⟩ := guardedGet_returns IndexError map key
  obtain ⟨result, m, n, hresult, hrest, rfl⟩ := returns_bind_iff.mp h
  obtain ⟨rfl, rfl⟩ := hresult.unique hget
  dsimp only at hrest
  cases hfound : map.get key with
  | none =>
    rw [hfound] at hrest hget
    obtain ⟨rfl, rfl⟩ := returns_pure_iff.mp hrest
    exact ⟨hget, by simp [MapCount.add, found, hfound, rowsIn], id⟩
  | some list =>
    rw [hfound] at hrest hget
    dsimp only at hrest
    split_ifs at hrest with hover hlimit
    · exact absurd hrest not_returns_fail
    · exact absurd hrest not_returns_fail
    · obtain ⟨rfl, rfl⟩ := returns_pure_iff.mp hrest
      exact ⟨hget, by simp [MapCount.add, found, hfound, rowsIn], fun _ => by simpa using hlimit⟩

theorem countKeys_returns (h : Returns (keys.foldlM (fun count key => do
      charge 1
      countKey map maxRows count key) count) count' cost) (hlimit : count.encodedRows ≤ maxRows) :
    ∃ lists, (∀ list ∈ lists, ∃ key, (key, list) ∈ map.entries) ∧
      (∀ collected, Returns (keys.foldlM (fun lists key => do
        charge 1
        let found ← guardedGet map key
        pure (lists ++ found.1.toList)) collected : Metered IndexError _) (collected ++ lists) cost) ∧
      count'.queryTerms + count'.lookupWork = count.queryTerms + count.lookupWork + cost ∧
      count'.matchedLists = count.matchedLists + lists.length ∧
      count'.encodedRows = count.encodedRows + rowsIn lists ∧ count'.encodedRows ≤ maxRows := by
  induction keys generalizing count cost with
  | nil =>
    obtain ⟨rfl, rfl⟩ := returns_foldlM_nil_iff.mp h
    exact ⟨[], by simp, fun collected => by simpa using returns_pure _, by simp, by simp, by simp [rowsIn], hlimit⟩
  | cons key keys ih =>
    obtain ⟨next, m, n, hkey, hrest, rfl⟩ := returns_foldlM_cons_iff.mp h
    obtain ⟨_, one, steps, hone, hcount, rfl⟩ := returns_bind_iff.mp hkey
    obtain rfl := returns_charge_iff.mp hone
    obtain ⟨hget, rfl, hkept⟩ := countKey_returns hcount
    obtain ⟨lists, hmem, hcollect, hwork, hlists, hrows, hmax⟩ := ih hrest (hkept hlimit)
    refine ⟨found map key ++ lists, ?_, fun collected => ?_, ?_, ?_, ?_, hmax⟩
    · intro list hlist
      rcases List.mem_append.mp hlist with hlist | hlist
      · exact ⟨key, SortedMap.get_eq_some.mp (by simpa [found] using hlist)⟩
      · exact hmem list hlist
    · rw [← List.append_assoc]
      exact returns_foldlM_cons_iff.mpr ⟨_, _, _, Returns.charge_bind 1 (hget.bind_pure _), hcollect _, rfl⟩
    · rw [hwork]
      simp only [MapCount.add]
      omega
    · rw [hlists, List.length_append]
      simp only [MapCount.add]
      omega
    · rw [hrows]
      simp only [MapCount.add, rowsIn, List.map_append, List.sum_append]
      omega

end MapQuery

theorem visitDeltas_ok {deltas : List ℕ} (hdeltas : ∀ delta ∈ deltas, delta ≠ 0) {previous : Option ℕ}
    {base : ℕ} (hbase : ∀ delta, delta ≠ 0 → rowAfter previous delta = base + delta - 1)
    (hrows : ∀ row ∈ fromDeltas base deltas, row < 2 ^ 64) :
    visitDeltas previous deltas = .ok (fromDeltas base deltas) := by
  induction deltas generalizing previous base with
  | nil => rfl
  | cons delta deltas ih =>
    obtain ⟨hdelta, hdeltas⟩ := List.forall_mem_cons.mp hdeltas
    obtain ⟨hrow, hrows⟩ := List.forall_mem_cons.mp hrows
    have hnext := hbase delta hdelta
    have hafter : ∀ next, next ≠ 0 → rowAfter (some (rowAfter previous delta)) next = base + delta + next - 1 := by
      intro next hne
      show rowAfter previous delta + next = _
      omega
    rw [visitDeltas, if_neg hdelta, if_neg (by omega), ih hdeltas hafter hrows, fromDeltas, hnext]
    rfl

section Union

variable {lists : List PostingList} {maxRows : ℕ}

theorem totalRows_returns (total : ℕ) (hlimit : total + rowsIn lists ≤ maxRows) :
    Returns (lists.foldlM (fun total list => do
      charge 1
      if total + list.rowCount ≤ maxRows then pure (total + list.rowCount)
      else fail (.resource "bounded posting result exceeds row limit")) total : Metered IndexError ℕ)
      (total + rowsIn lists) lists.length := by
  induction lists generalizing total with
  | nil => exact returns_pure _
  | cons list lists ih =>
    have hsum : rowsIn (list :: lists) = list.rowCount + rowsIn lists := by simp [rowsIn]
    rw [hsum] at hlimit ⊢
    have hrest := ih (total + list.rowCount) (by omega)
    rw [Nat.add_assoc] at hrest
    refine returns_foldlM_cons_iff.mpr ⟨_, 1, _, ?_, hrest, by rw [List.length_cons, Nat.add_comm]⟩
    rw [if_pos (by omega)]
    exact returns_charge_pure 1 _

theorem decodedRows_returns (hrows : ∀ list ∈ lists, ∀ row ∈ list.rows, row < 2 ^ 64) (decoded : List ℕ) :
    Returns (lists.foldlM (fun rows list => do
      charge list.rowCount
      let decoded ← lift (visitDeltas none (expandRuns list.runs))
      pure (rows ++ decoded)) decoded : Metered IndexError (List ℕ))
      (decoded ++ lists.flatMap PostingList.rows) (rowsIn lists) := by
  induction lists generalizing decoded with
  | nil =>
    rw [List.flatMap_nil, List.append_nil]
    exact returns_pure _
  | cons list lists ih =>
    obtain ⟨hlist, hrows⟩ := List.forall_mem_cons.mp hrows
    have hvisit : visitDeltas none (expandRuns list.runs) = .ok list.rows :=
      visitDeltas_ok list.deltas_ne_zero (fun delta _ => by simp [rowAfter]) hlist
    refine returns_foldlM_cons_iff.mpr ⟨decoded ++ list.rows, list.rowCount, rowsIn lists, ?_, ?_, by simp [rowsIn]⟩
    · exact Returns.charge_bind (n := 0) _ ((returns_lift_iff.mpr ⟨hvisit, rfl⟩).bind_pure _)
    · rw [List.flatMap_cons, ← List.append_assoc]
      exact ih hrows _

theorem length_flatMap_rows (lists : List PostingList) : (lists.flatMap PostingList.rows).length = rowsIn lists := by
  rw [List.length_flatMap, rowsIn]
  simp only [PostingList.length_rows]

/-- The sort is left out for a single list, whose rows ascend already. -/
def unionWork (lists : List PostingList) : ℕ :=
  lists.length + rowsIn lists + if 1 < lists.length then (RadixWork.forRows (rowsIn lists)).total else 0

theorem boundedPostingUnion_returns (hrows : ∀ list ∈ lists, ∀ row ∈ list.rows, row < 2 ^ 64)
    (hlimit : rowsIn lists ≤ maxRows) :
    ∃ rows, Returns (boundedPostingUnion lists maxRows) rows (unionWork lists) ∧ rows.Pairwise (· < ·) ∧
      rows.length ≤ rowsIn lists := by
  have htotal := totalRows_returns 0 (show 0 + rowsIn lists ≤ maxRows by omega)
  have hdecoded := decodedRows_returns hrows []
  rw [List.nil_append] at hdecoded
  by_cases hmany : 1 < lists.length
  · have hall : ∀ row ∈ lists.flatMap PostingList.rows, row < 2 ^ 64 := by
      intro row hrow
      obtain ⟨list, hlist, hrow⟩ := List.mem_flatMap.mp hrow
      exact hrows list hlist row hrow
    obtain ⟨sorted, hsorted, hspec⟩ := radixSortUniqueRows_returns hall
    rw [length_flatMap_rows] at hsorted
    refine ⟨sorted, (htotal.bind (hdecoded.bind (n := (RadixWork.forRows (rowsIn lists)).total) ?_)).of_eq ?_,
      hspec.ascending, ?_⟩
    · rw [if_pos hmany]
      exact hsorted
    · rw [unionWork, if_pos hmany, Nat.add_assoc]
    · exact hspec.length_le.trans (length_flatMap_rows lists).le
  · refine ⟨lists.flatMap PostingList.rows, (htotal.bind (hdecoded.bind (?_ : Returns _ _ 0))).of_eq ?_, ?_,
      (length_flatMap_rows lists).le⟩
    · rw [if_neg hmany]
      exact returns_pure _
    · rw [unionWork, if_neg hmany, Nat.add_assoc]
    · rcases lists with _ | ⟨list, _ | ⟨next, lists⟩⟩
      · exact List.Pairwise.nil
      · simpa using list.rows_pairwise
      · exact absurd (by simp) hmany

end Union

/-- Where the estimate comes out, the query does: within the rows and the work it was
estimated at. -/
def Bounds (estimate : Metered IndexError NormalizedPostingEstimate) (query : Metered IndexError (List ℕ)) : Prop :=
  ∀ promised spent, Returns estimate promised spent → ∃ rows work, Returns query rows work ∧
    rows.Pairwise (· < ·) ∧ rows.length ≤ promised.rows ∧ work ≤ promised.decodeWork

theorem mapDecodeWork_returns {count : MapCount} {work cost : ℕ} (h : Returns (mapDecodeWork count) work cost) :
    work = (count.queryTerms + count.lookupWork) * 2 + count.matchedLists + count.encodedRows +
      (if 1 < count.matchedLists then (RadixWork.forRows count.encodedRows).total else 0) ∧ cost = 0 := by
  obtain ⟨pass, m, n, hpass, hrest, rfl⟩ := returns_bind_iff.mp h
  obtain ⟨-, rfl, rfl⟩ := returns_checkedWork_iff.mp hpass
  obtain ⟨radix, m, n, hradix, hwork, rfl⟩ := returns_bind_iff.mp hrest
  obtain ⟨-, rfl, rfl⟩ := returns_checkedWork_iff.mp hwork
  split_ifs at hradix ⊢ with hmany
  · obtain ⟨-, rfl, rfl⟩ := returns_checkedWork_iff.mp hradix
    exact ⟨rfl, rfl⟩
  · obtain ⟨rfl, rfl⟩ := returns_pure_iff.mp hradix
    exact ⟨rfl, rfl⟩

/-- The rows of every list are `usize`. -/
def PostingRows (map : SortedMap ℕ PostingList) : Prop := ∀ entry ∈ map.entries, ∀ row ∈ entry.2.rows, row < 2 ^ 64

variable {map : SortedMap ℕ PostingList} {catalog : NormalizedCatalog} {n : ℕ}

/-- After the count of its keys, a map query comes out and charges what follows from the count. -/
theorem boundedMapRows_returns (hmap : PostingRows map) {keys : List ℕ}
    {maxRows spent work cost : ℕ} {count : MapCount}
    (hcount : Returns (keys.foldlM (fun count key => do
      charge 1
      countKey map maxRows count key) ⟨0, 0, 0, 0⟩) count spent)
    (hwork : Returns (mapDecodeWork count) work cost) :
    ∃ rows, Returns (boundedMapRows map keys maxRows) rows work ∧ rows.Pairwise (· < ·) ∧
      rows.length ≤ count.encodedRows := by
  obtain ⟨lists, hmem, hcollect, hpass, hlists, hrows, hlimit⟩ := countKeys_returns hcount (Nat.zero_le _)
  obtain ⟨hwork', rfl⟩ := mapDecodeWork_returns hwork
  simp only [Nat.zero_add] at hpass hlists hrows
  have hbound : ∀ list ∈ lists, ∀ row ∈ list.rows, row < 2 ^ 64 := by
    intro list hlist
    obtain ⟨key, hentry⟩ := hmem list hlist
    exact hmap _ hentry
  obtain ⟨rows, hunion, hsorted, hlength⟩ := boundedPostingUnion_returns hbound (hrows ▸ hlimit)
  have hestimate : Returns (boundedMapEstimate map keys maxRows) ⟨count.encodedRows, work⟩ (spent + (0 + 0)) :=
    hcount.bind (hwork.bind (returns_pure _))
  have hfirst : Returns (boundedMapCount map keys maxRows) count.encodedRows (spent + (0 + 0)) := hestimate.bind_pure _
  refine ⟨rows, (hfirst.bind ((hcollect []).bind hunion)).of_eq ?_, hsorted, hrows ▸ hlength⟩
  rw [hwork', hpass, hlists, hrows, unionWork]
  omega

theorem boundedMap_bounds (hmap : PostingRows map) (keys : List ℕ) (maxRows : ℕ) :
    Bounds (boundedMapEstimate map keys maxRows) (boundedMapRows map keys maxRows) := by
  intro promised spent h
  obtain ⟨count, m, n, hcount, hrest, rfl⟩ := returns_bind_iff.mp h
  obtain ⟨work, m', n', hwork, hpure, rfl⟩ := returns_bind_iff.mp hrest
  obtain ⟨rfl, rfl⟩ := returns_pure_iff.mp hpure
  obtain ⟨rows, hrows, hsorted, hlength⟩ := boundedMapRows_returns hmap hcount hwork
  exact ⟨rows, work, hrows, hsorted, hlength, le_rfl⟩

/-- Pairs in the order of their first part, with rows that are `usize`. -/
structure PairRows (pairs : List (ℕ × ℕ)) : Prop where
  sorted : pairs.Pairwise (·.1 ≤ ·.1)
  rows : ∀ pair ∈ pairs, pair.2 < 2 ^ 64

theorem PairRows.partitionPoint_mono {pairs : List (ℕ × ℕ)} (h : PairRows pairs) {start stop : ℕ}
    (hle : start ≤ stop) :
    partitionPoint pairs (fun pair => decide (pair.1 < start)) ≤ partitionPoint pairs fun pair => decide (pair.1 < stop) := by
  have hcut : ∀ bound, (partitionPoint pairs fun pair => decide (pair.1 < bound)) =
      (pairs.filter fun pair => decide (pair.1 < bound)).length := by
    intro bound
    have htake := (partitionPoint_cut (p := fun pair : ℕ × ℕ => decide (pair.1 < bound)) (h.sorted.imp fun hab hb => by
      simp only [decide_eq_true_eq] at hb ⊢
      omega)).1
    rw [← htake, List.length_take, min_eq_left (partitionPoint_le _ _)]
  rw [hcut, hcut, ← List.countP_eq_length_filter, ← List.countP_eq_length_filter]
  refine List.countP_mono_left fun pair _ hlt => ?_
  simp only [decide_eq_true_eq] at hlt ⊢
  omega

theorem boundedPair_bounds {pairs : List (ℕ × ℕ)} (hpairs : PairRows pairs) (start stop maxRows : ℕ) :
    Bounds (boundedPairEstimate pairs start stop maxRows) (boundedPairRows pairs start stop maxRows) := by
  intro promised spent h
  by_cases hempty : stop ≤ start
  · rw [boundedPairEstimate, if_pos hempty] at h
    obtain ⟨rfl, rfl⟩ := returns_pure_iff.mp h
    rw [boundedPairRows, if_pos hempty]
    exact ⟨[], 0, returns_pure _, List.Pairwise.nil, le_rfl, le_rfl⟩
  · rw [boundedPairEstimate, if_neg hempty] at h
    obtain ⟨firstWork, -, hfirst⟩ := partitionPointWithWork_returns IndexError pairs fun pair => decide (pair.1 < start)
    obtain ⟨lastWork, -, hlast⟩ := partitionPointWithWork_returns IndexError pairs fun pair => decide (pair.1 < stop)
    have hmono := hpairs.partitionPoint_mono (show start ≤ stop by omega)
    have hend := partitionPoint_le pairs fun pair => decide (pair.1 < stop)
    obtain ⟨_, m, n, hfirst', h, rfl⟩ := returns_bind_iff.mp h
    obtain ⟨rfl, rfl⟩ := hfirst'.unique hfirst
    obtain ⟨_, m, n, hlast', h, rfl⟩ := returns_bind_iff.mp h
    obtain ⟨rfl, rfl⟩ := hlast'.unique hlast
    dsimp only at h
    generalize hf : (partitionPoint pairs fun pair => decide (pair.1 < start)) = first at h hfirst hmono
    generalize hl : (partitionPoint pairs fun pair => decide (pair.1 < stop)) = last at h hlast hmono hend
    split_ifs at h with hlimit
    · exact absurd h not_returns_fail
    obtain ⟨work, _, _, hwork, hpure, rfl⟩ := returns_bind_iff.mp h
    obtain ⟨-, rfl, rfl⟩ := returns_checkedWork_iff.mp hwork
    obtain ⟨rfl, rfl⟩ := returns_pure_iff.mp hpure
    have hlength : (((pairs.take last).drop first).map Prod.snd).length = last - first := by
      rw [List.length_map, List.length_drop, List.length_take, min_eq_left hend]
    have hrows : ∀ row ∈ ((pairs.take last).drop first).map Prod.snd, row < 2 ^ 64 := by
      intro row hrow
      obtain ⟨pair, hpair, rfl⟩ := List.mem_map.mp hrow
      exact hpairs.rows pair (List.mem_of_mem_take (List.mem_of_mem_drop hpair))
    obtain ⟨sorted, hsorted, hspec⟩ := radixSortUniqueRows_returns hrows
    rw [hlength] at hsorted
    refine ⟨sorted, _, ?_, hspec.ascending, hspec.length_le.trans hlength.le, le_rfl⟩
    rw [boundedPairRows, if_neg hempty]
    refine (hfirst.bind (hlast.bind (n := (last - first) + (RadixWork.forRows (last - first)).total) ?_)).of_eq ?_
    · dsimp only
      rw [if_neg hlimit, hlength]
      exact hsorted.charge_bind _
    · dsimp only
      omega

section Dictionary

variable {strings : ByteArena} {map : SortedMap ℕ PostingList} {maxRows work cost : ℕ} {count : MapCount}
  {result : ℕ × MapCount}

theorem consumeDictionaryEntryWork_returns {span : ByteSpan} {entry : ℕ}
    (h : Returns (consumeDictionaryEntryWork span) entry cost) : entry = cost := by
  obtain ⟨_, m, n, hone, hrest, rfl⟩ := returns_bind_iff.mp h
  obtain rfl := returns_charge_iff.mp hone
  obtain ⟨_, m, n, hbytes, hlast, rfl⟩ := returns_bind_iff.mp hrest
  obtain rfl := returns_charge_iff.mp hbytes
  obtain ⟨-, rfl, rfl⟩ := returns_checkedWork_iff.mp hlast
  omega

/-- The ids that a visit finds do not depend on what is done with them, and the work that it
reports is what it charges without that. -/
theorem visitSpans_returns {value : List UInt8} {spans : List (ByteSpan × ℕ)}
    (h : Returns (visitSpans strings (countKey map maxRows) value spans work count) result cost) :
    ∃ ids dictionary steps, result.1 = work + dictionary ∧ cost = dictionary + steps ∧
      (∀ seen, Returns (visitSpans strings (fun ids id => pure (ids ++ [id])) value spans work seen)
        (result.1, seen ++ ids) dictionary) ∧
      Returns (ids.foldlM (countKey map maxRows) count) result.2 steps := by
  induction spans generalizing work cost with
  | nil =>
    obtain ⟨rfl, rfl⟩ := returns_pure_iff.mp h
    refine ⟨[], 0, 0, rfl, rfl, fun seen => ?_, returns_pure _⟩
    rw [List.append_nil]
    exact returns_pure _
  | cons head spans ih =>
    obtain ⟨span, id⟩ := head
    obtain ⟨entry, m, n, hentry, hrest, rfl⟩ := returns_bind_iff.mp h
    obtain rfl := consumeDictionaryEntryWork_returns hentry
    obtain ⟨work', m, n, hwork, hnext, rfl⟩ := returns_bind_iff.mp hrest
    obtain ⟨hfits, rfl, rfl⟩ := returns_checkedWork_iff.mp hwork
    obtain ⟨bytes, m, n, hbytes, hvisit, rfl⟩ := returns_bind_iff.mp hnext
    obtain ⟨hget, rfl⟩ := returns_lift_iff.mp hbytes
    by_cases hvalue : bytes = value
    · rw [if_pos hvalue] at hvisit
      obtain ⟨state, steps, n, hstate, hpure, rfl⟩ := returns_bind_iff.mp hvisit
      obtain ⟨rfl, rfl⟩ := returns_pure_iff.mp hpure
      refine ⟨[id % 2 ^ 32], entry, steps, rfl, by omega, fun seen => ?_, ?_⟩
      · refine hentry.bind (n := 0) (hwork.bind (n := 0) (hbytes.bind (n := 0) ?_))
        rw [if_pos hvalue]
        exact returns_pure _
      · exact returns_foldlM_cons_iff.mpr ⟨state, steps, 0, hstate, returns_pure _, rfl⟩
    · rw [if_neg hvalue] at hvisit
      obtain ⟨ids, dictionary, steps, hresult, rfl, hpush, hcount⟩ := ih hvisit
      refine ⟨ids, entry + dictionary, steps, by omega, by omega, fun seen => ?_, hcount⟩
      refine (hentry.bind (n := dictionary) (hwork.bind_of_zero (hbytes.bind_of_zero ?_)))
      rw [if_neg hvalue]
      exact hpush seen

theorem visitSemanticDictionaryMatches_returns {values : List (List UInt8)}
    (h : Returns (values.foldlM (fun visited value => visitSpans strings (countKey map maxRows) value
      strings.spans.zipIdx visited.1 visited.2) (work, count)) result cost) :
    ∃ ids dictionary steps, result.1 = work + dictionary ∧
      (∀ seen, Returns (values.foldlM (fun visited value => visitSpans strings (fun ids id => pure (ids ++ [id])) value
        strings.spans.zipIdx visited.1 visited.2) (work, seen)) (result.1, seen ++ ids) dictionary) ∧
      Returns (ids.foldlM (countKey map maxRows) count) result.2 steps := by
  induction values generalizing work count cost with
  | nil =>
    obtain ⟨rfl, rfl⟩ := returns_foldlM_nil_iff.mp h
    refine ⟨[], 0, 0, rfl, fun seen => ?_, returns_pure _⟩
    rw [List.append_nil]
    exact returns_pure _
  | cons value values ih =>
    obtain ⟨next, m, n, hvalue, hrest, rfl⟩ := returns_foldlM_cons_iff.mp h
    obtain ⟨ids, dictionary, steps, hnext, rfl, hpush, hcount⟩ := visitSpans_returns hvalue
    obtain ⟨later, dictionary', steps', hresult, hpush', hcount'⟩ := ih hrest
    refine ⟨ids ++ later, dictionary + dictionary', steps + steps', by omega, fun seen => ?_,
      hcount.foldlM_append hcount'⟩
    rw [← List.append_assoc]
    exact returns_foldlM_cons_iff.mpr ⟨_, _, _, hpush seen, hpush' _, rfl⟩

end Dictionary

theorem boundedSemantic_bounds {categories : Bool} (hmap : PostingRows (catalog.semanticMap categories))
    (values : List (List UInt8)) (maxRows : ℕ) :
    Bounds (catalog.boundedSemanticEstimate values categories maxRows)
      (catalog.boundedSemanticRows values categories maxRows) := by
  intro promised spent h
  obtain ⟨⟨dictionaryWork, count⟩, m, n, hvisit, hrest, rfl⟩ := returns_bind_iff.mp h
  obtain ⟨decodeWork, m', n', hdecode, hlast, rfl⟩ := returns_bind_iff.mp hrest
  obtain ⟨work, _, _, hwork, hpure, rfl⟩ := returns_bind_iff.mp hlast
  obtain ⟨-, rfl, rfl⟩ := returns_checkedWork_iff.mp hwork
  obtain ⟨rfl, rfl⟩ := returns_pure_iff.mp hpure
  obtain ⟨ids, dictionary, steps, hresult, hpush, hcount⟩ := visitSemanticDictionaryMatches_returns hvisit
  obtain ⟨rows, hrows, hsorted, hlength⟩ := boundedMapRows_returns hmap hcount.foldlM_charge hdecode
  refine ⟨rows, dictionary + decodeWork, (hpush []).bind hrows, hsorted, hlength, ?_⟩
  dsimp only at hresult ⊢
  omega

theorem overlaps_bounds {index : IntervalIndex} (hentries : ∀ entry ∈ index.entries, entry.row < 2 ^ 64)
    (start stop maxRows : ℕ) :
    Bounds (index.overlapEstimateBounded start stop maxRows) (index.overlapsBounded start stop maxRows) := by
  intro promised spent h
  rcases lt_trichotomy start stop with hlt | rfl | hgt
  · have hrows : ∀ row ∈ index.matched start stop, row < 2 ^ 64 := by
      intro row hrow
      obtain ⟨entry, hentry, rfl⟩ := List.mem_map.mp hrow
      exact hentries entry (List.mem_of_mem_take (List.mem_of_mem_drop (List.mem_of_mem_filter hentry)))
    obtain ⟨work, -, hplace | ⟨-, hfail⟩⟩ := index.locateBounded_cases start stop
    · by_cases hupper : index.upperOf stop = 0
      · obtain ⟨rfl, rfl⟩ := h.unique (IntervalIndex.estimate_returns_empty hlt hplace hupper)
        exact ⟨[], _, IntervalIndex.overlapsBounded_returns_empty hlt hplace hupper, List.Pairwise.nil, le_rfl, le_rfl⟩
      · obtain ⟨hlimit, hwork⟩ := IntervalIndex.estimate_fits hlt hplace hupper h
        obtain ⟨rfl, rfl⟩ := h.unique (IntervalIndex.estimate_returns hlt hplace hupper hlimit hwork)
        obtain ⟨rows, total, hreturns, htotal, hsorted⟩ :=
          IntervalIndex.overlapsBounded_returns hlt hplace hrows hupper h
        refine ⟨rows, total, hreturns, hsorted.ascending, hsorted.length_le, htotal.trans ?_⟩
        show _ ≤ index.decodeWork start stop work
        rw [IntervalIndex.decodeWork]
        omega
    · rw [IntervalIndex.overlapEstimateBounded, if_neg (by omega), if_neg (by omega), hfail] at h
      exact absurd h not_returns_fail
  · rw [IntervalIndex.overlapEstimateBounded, if_neg (lt_irrefl _), if_pos rfl] at h
    obtain ⟨rfl, rfl⟩ := returns_pure_iff.mp h
    rw [IntervalIndex.overlapsBounded, if_neg (lt_irrefl _), if_pos rfl]
    exact ⟨[], 0, returns_pure _, List.Pairwise.nil, le_rfl, le_rfl⟩
  · rw [IntervalIndex.overlapEstimateBounded, if_pos hgt] at h
    exact absurd h not_returns_fail

/-- Indexes that a query can rely on: rows are `usize`, and pairs are sorted. -/
structure IndexCatalog.Queryable (indexes : IndexCatalog) : Prop where
  postings : ∀ map ∈ [indexes.tid, indexes.kind, indexes.module, indexes.definition, indexes.register,
    indexes.semanticCategory, indexes.semanticName], PostingRows map
  sequence : PairRows indexes.sequence
  modulePc : ∀ entry ∈ indexes.modulePc.entries, PairRows entry.2
  memory : ∀ entry ∈ indexes.memory.entries, entry.row < 2 ^ 64

theorem PairRows.nil : PairRows [] := ⟨List.Pairwise.nil, by simp⟩

variable {indexes : IndexCatalog}

theorem IndexCatalog.Queryable.pairs (h : indexes.Queryable) (module : ℕ) :
    PairRows ((indexes.modulePc.get module).getD []) := by
  cases hget : indexes.modulePc.get module with
  | none => exact PairRows.nil
  | some pairs => exact h.modulePc (module, pairs) (SortedMap.get_eq_some.mp hget)

theorem Indexes.postingRows {rowsOf : ℕ → List ℕ} (h : Indexes rowsOf map)
    (hrows : ∀ key, ∀ row ∈ rowsOf key, row < 2 ^ 64) : PostingRows map := by
  intro entry hentry row hrow
  rw [((h entry.1 entry.2).mp hentry).1] at hrow
  exact hrows _ row hrow

theorem keyedPostings_postingRows {pairs : List (ℕ × ℕ)} (h : keyedPostings pairs = .ok map)
    (hrows : ∀ pair ∈ pairs, pair.2 < 2 ^ 64) : PostingRows map := by
  obtain ⟨built, hbuilt, hindexes⟩ := keyedPostings_ok pairs
  obtain rfl := Except.ok.inj (h.symm.trans hbuilt)
  exact hindexes.postingRows fun key row hrow => hrows _ (mem_keyRows.mp hrow)

theorem keyedPostingPartition_postingRows {f : ℕ → Option ℕ} (h : keyedPostingPartition n f = .ok map)
    (hn : n < 2 ^ 64) : PostingRows map := by
  obtain ⟨built, hbuilt, hindexes⟩ := keyedPostingPartition_ok n f
  obtain rfl := Except.ok.inj (h.symm.trans hbuilt)
  exact hindexes.postingRows fun key row hrow => (mem_rowsWith.mp hrow).1.trans hn

theorem sortPairs_pcLe (pairs : List (ℕ × ℕ × ℕ)) :
    (sortPairs pcLe pairs).Pairwise fun a b => a.1 < b.1 ∨ a.1 = b.1 ∧ pcLe a.2 b.2 = true := by
  apply sortPairs_pairwise
  · intro a b c hab hbc
    simp only [pcLe, Bool.or_eq_true, decide_eq_true_eq, Bool.and_eq_true, beq_iff_eq] at *
    omega
  · intro a b
    simp only [pcLe, Bool.or_eq_true, decide_eq_true_eq, Bool.and_eq_true, beq_iff_eq]
    omega

theorem keyedValues_pairRows {pairs : List (ℕ × ℕ × ℕ)} {map : SortedMap ℕ (List (ℕ × ℕ))}
    (h : keyedValues pcLe pairs = .ok map) (hrows : ∀ pair ∈ pairs, pair.2.2 < 2 ^ 64) :
    ∀ entry ∈ map.entries, PairRows entry.2 := by
  intro entry hentry
  have hentries := fromSorted_ok.mp h
  rw [hentries] at hentry
  have hvalues := values_of_mem (hentries ▸ map.sorted) hentry
  rw [ungroup_groupByKey] at hvalues
  rw [hvalues]
  refine ⟨List.pairwise_map.mpr ?_, ?_⟩
  · refine ((sortPairs_pcLe pairs).sublist List.filter_sublist).imp_of_mem fun {a b} ha hb hab => ?_
    have ha := (List.mem_filter.mp ha).2
    have hb := (List.mem_filter.mp hb).2
    simp only [decide_eq_true_eq] at ha hb
    simp only [pcLe, Bool.or_eq_true, decide_eq_true_eq, Bool.and_eq_true, beq_iff_eq] at hab
    omega
  · intro pair hpair
    obtain ⟨triple, htriple, rfl⟩ := List.mem_map.mp hpair
    exact hrows triple ((sortPairs_perm pairs).mem_iff.mp (List.mem_of_mem_filter htriple))

theorem sequenceRows_pairRows {keys : List EventKey} (hkeys : keys.length < 2 ^ 64) :
    PairRows (sequenceRows keys) := by
  refine ⟨(sortPairs_lex _).imp fun h => by omega, fun pair hpair => ?_⟩
  have hpair := (sortPairs_perm _).mem_iff.mp hpair
  obtain ⟨⟨key, row⟩, hentry, hmap⟩ := List.mem_filterMap.mp hpair
  obtain ⟨value, -, rfl⟩ := Option.map_eq_some_iff.mp hmap
  have hlt := (List.mem_zipIdx' hentry).1
  exact hlt.trans hkeys

theorem ownerRows_of_validateShape {eventCount : ℕ} (h : catalog.validateShape eventCount = .ok ()) :
    (∀ row ∈ catalog.instructions, row.ownerRow < eventCount) ∧ (∀ row ∈ catalog.memories, row.ownerRow < eventCount) ∧
      (∀ row ∈ catalog.semantics, row.ownerRow < eventCount) ∧ catalog.events.length = eventCount := by
  simp only [NormalizedCatalog.validateShape, seq_eq_ok, failIf_eq_ok] at h
  obtain ⟨hevents, -, -, -, -, -, -, hinstructions, hmemories, hsemantics, -⟩ := h
  simp only [Bool.not_eq_false', List.all_eq_true, Bool.and_eq_true, decide_eq_true_eq] at hinstructions hmemories hsemantics
  exact ⟨fun row hrow => (hinstructions row hrow).1.1, fun row hrow => (hmemories row hrow).1.1.1.1,
    fun row hrow => (hsemantics row hrow).1.1.1, by simpa using hevents⟩

theorem owner_lt_of_filterMap {R K : Type} {rows : List R} {key : R → Option K} {owner : R → ℕ}
    (h : ∀ row ∈ rows, owner row < n) :
    ∀ pair ∈ rows.filterMap fun row => (key row).map (·, owner row), pair.2 < n := by
  intro pair hpair
  obtain ⟨row, hrow, hmap⟩ := List.mem_filterMap.mp hpair
  obtain ⟨value, -, rfl⟩ := Option.map_eq_some_iff.mp hmap
  exact h row hrow

/-- The indexes that are built over a catalog of valid shape can be queried. -/
theorem queryable_of_built {keys : List EventKey} {kinds : List EventKind} {blockRows : ℕ}
    (hbuilt : catalog.builtIndexes keys kinds blockRows = .ok indexes)
    (hshape : catalog.validateShape keys.length = .ok ()) (hkinds : kinds.length = keys.length)
    (hkeys : keys.length < 2 ^ 64) : indexes.Queryable := by
  obtain ⟨hinstructions, hmemories, hsemantics, hevents⟩ := ownerRows_of_validateShape hshape
  have hobservations := observations_of_validateShape hshape
  obtain ⟨-, htid, hkind, hmodule, hdefinition, hregister, hcategory, hname, -, -, -, hsequence, hmodulePc, hmemory, -⟩ :=
    builtIndexes_ok.mp hbuilt
  refine ⟨?_, hsequence ▸ sequenceRows_pairRows hkeys, keyedValues_pairRows hmodulePc ?_, ?_⟩
  · simp only [List.forall_mem_cons, List.not_mem_nil, IsEmpty.forall_iff, implies_true, and_true]
    refine ⟨keyedPostingPartition_postingRows htid (by omega), keyedPostingPartition_postingRows hkind (by omega),
      keyedPostings_postingRows hmodule ?_, keyedPostings_postingRows hdefinition ?_,
      keyedPostings_postingRows hregister ?_, keyedPostings_postingRows hcategory ?_,
      keyedPostings_postingRows hname ?_⟩
    · exact owner_lt_of_filterMap fun row hrow => (hinstructions row hrow).trans hkeys
    · exact owner_lt_of_filterMap fun row hrow => (hinstructions row hrow).trans hkeys
    · intro pair hpair
      obtain ⟨row, hrow, rfl⟩ := List.mem_map.mp hpair
      exact (hobservations row hrow).1.trans hkeys
    · exact owner_lt_of_filterMap fun row hrow => (hsemantics row hrow).trans hkeys
    · intro pair hpair
      obtain ⟨row, hrow, rfl⟩ := List.mem_map.mp hpair
      exact (hsemantics row hrow).trans hkeys
  · intro triple htriple
    obtain ⟨row, hrow, hmap⟩ := List.mem_filterMap.mp htriple
    obtain ⟨key, -, rfl⟩ := Option.map_eq_some_iff.mp hmap
    exact (hinstructions row hrow).trans hkeys
  · intro entry hentry
    have hperm := IntervalIndex.build_perm hmemory
    obtain ⟨row, hrow, rfl⟩ := List.mem_map.mp (hperm.mem_iff.mp hentry)
    exact (hmemories row (List.mem_of_mem_filter hrow)).trans hkeys

/-- The estimate of any query bounds what the query returns and charges. -/
theorem boundedRows_within_estimate {catalog : NormalizedCatalog} (hindexes : catalog.indexes.Queryable)
    (query : NormalizedPostingQuery) (maxRows : ℕ) {estimate : NormalizedPostingEstimate} {spent : ℕ}
    (h : Returns (catalog.boundedRowEstimate query maxRows) estimate spent) :
    ∃ rows work, Returns (catalog.boundedRows query maxRows) rows work ∧ rows.Pairwise (· < ·) ∧
      rows.length ≤ estimate.rows ∧ work ≤ estimate.decodeWork := by
  have hmaps := hindexes.postings
  simp only [List.forall_mem_cons, List.not_mem_nil, IsEmpty.forall_iff, implies_true, and_true] at hmaps
  obtain ⟨htid, hkind, hmodule, hdefinition, hregister, hcategory, hname⟩ := hmaps
  have hbounds : Bounds (catalog.boundedRowEstimate query maxRows) (catalog.boundedRows query maxRows) := by
    cases query with
    | tids values => exact boundedMap_bounds htid _ _
    | kinds values => exact boundedMap_bounds hkind _ _
    | modules values => exact boundedMap_bounds hmodule _ _
    | sequence start stop => exact boundedPair_bounds hindexes.sequence _ _ _
    | modulePc module start stop => exact boundedPair_bounds (hindexes.pairs module) _ _ _
    | definitions values => exact boundedMap_bounds hdefinition _ _
    | registers values => exact boundedMap_bounds hregister _ _
    | semanticCategories values => exact boundedSemantic_bounds (show PostingRows (catalog.semanticMap true) from hcategory) _ _
    | semanticNames values => exact boundedSemantic_bounds (show PostingRows (catalog.semanticMap false) from hname) _ _
    | memory start stop => exact overlaps_bounds hindexes.memory _ _ _
  exact hbounds estimate spent h

/-- A register that is asked for twice: both lists are counted and sorted together. -/
theorem boundedRows_within_estimate_repeated :
    ∃ rows work, Returns (oneRead.boundedRows (.registers [3, 3]) 2) rows work ∧ rows.Pairwise (· < ·) ∧
      rows.length ≤ 2 ∧ work ≤ 2093 := by
  have hbuilt : oneRead.builtIndexes [oneReadKey] [.instruction] 64 = .ok oneRead.indexes := by decide +kernel
  have hshape : oneRead.validateShape [oneReadKey].length = .ok () := by decide +kernel
  have hestimate : Returns (oneRead.boundedRowEstimate (.registers [3, 3]) 2) ⟨2, 2093⟩ 4 := rfl
  exact boundedRows_within_estimate (queryable_of_built hbuilt hshape rfl (by decide)) _ _ hestimate

end QTrace.Store
