import QTrace.Lib.Guarded

/-! The cancellable sort of index rows: chunks are sorted one by one, and sorted runs are then
merged in pairs, each round with runs twice as long. The guard is asked before every chunk and
every pair, and after every 4096 rows of a pair. -/

namespace QTrace.Store

open Lib

variable {σ η α : Type}

section

variable (guard : Guard σ η) (compare : α → α → Ordering)

def sortChunkRows : ℕ := 4096

/-- A row onto the scratch rows, which come with the output since the last checkpoint. -/
def pushRow (scratch : List α × ℕ) (row : α) : Guarded σ η (List α × ℕ) :=
  if scratch.2 + 1 = 4096 then do
    guard.tryConsume
    pure (scratch.1 ++ [row], 0)
  else pure (scratch.1 ++ [row], scratch.2 + 1)

/-- The smaller first row while both runs last, then what is left of either. -/
def mergePair : List α → List α → List α × ℕ → Guarded σ η (List α × ℕ)
  | x :: left, y :: right, scratch =>
    if (compare x y).isLE then do
      let scratch ← pushRow guard scratch x
      mergePair left (y :: right) scratch
    else do
      let scratch ← pushRow guard scratch y
      mergePair (x :: left) right scratch
  | left, right, scratch => do
    let scratch ← left.foldlM (pushRow guard) scratch
    right.foldlM (pushRow guard) scratch
termination_by left right => left.length + right.length

/-- A loop over the next `count` blocks of `size` rows; the last may be short. -/
def forBlocks (size : ℕ) (body : List α → Guarded σ η (List α)) : ℕ → List α → Guarded σ η (List α)
  | 0, _ => pure []
  | count + 1, rows => do
    let out ← body (rows.take size)
    let rest ← forBlocks size body count (rows.drop size)
    pure (out ++ rest)

def blockCount (size length : ℕ) : ℕ := (length + (size - 1)) / size

def mergeRound (width : ℕ) (rows : List α) : Guarded σ η (List α) :=
  forBlocks (width * 2) (fun pair => do
    guard.tryConsume
    let merged ← mergePair guard compare (pair.take width) (pair.drop width) ([], 0)
    pure merged.1) (blockCount (width * 2) rows.length) rows

/-- The rounds. The width stays below twice the length of a vector, so that the saturating
operations of the source are the plain ones; it grows in each round, which bounds their number. -/
def mergeRounds : ℕ → ℕ → List α → Guarded σ η (List α)
  | 0, _, rows => pure rows
  | fuel + 1, width, rows =>
    if width < rows.length then do
      let scratch ← mergeRound guard compare width rows
      mergeRounds fuel (width * 2) scratch
    else pure rows

variable (sortUnstableBy : (α → α → Ordering) → List α → List α)

/-- `sortUnstableBy` is the library's sort of a slice. -/
def sortChunks (rows : List α) : Guarded σ η (List α) :=
  forBlocks sortChunkRows (fun chunk => do
    guard.tryConsume
    pure (sortUnstableBy compare chunk)) (blockCount sortChunkRows rows.length) rows

/-- `rowBytes` is the size of a row in memory. -/
def cancellableSortBy (rowBytes : ℕ) (rows : List α) : Guarded σ η (List α) := do
  let rows ← sortChunks guard compare sortUnstableBy rows
  if rows.length ≤ sortChunkRows then pure rows
  else do
    guard.tryReserve (rows.length * rowBytes) "allocation byte count" "merge-sort scratch allocation"
    mergeRounds guard compare rows.length sortChunkRows rows

end

variable {guard : Guard σ η} {compare : α → α → Ordering}

theorem yields_pushRow (scratch : List α × ℕ) (row : α) :
    Yields guard.Interrupts (pushRow guard scratch row) fun out => out.1 = scratch.1 ++ [row] := by
  unfold pushRow
  split_ifs
  · exact guard.yields_tryConsume.bind fun _ _ => yields_pure rfl
  · exact yields_pure rfl

theorem yields_copyRows (rows : List α) (scratch : List α × ℕ) :
    Yields guard.Interrupts (rows.foldlM (pushRow guard) scratch) fun out => out.1 = scratch.1 ++ rows := by
  refine yields_foldlM (fun copied (out : List α × ℕ) => out.1 = scratch.1 ++ copied) (List.append_nil _).symm ?_ rows
  intro copied row out hout
  rw [← List.append_assoc, ← hout]
  exact yields_pushRow out row

theorem yields_mergePair (left right : List α) (scratch : List α × ℕ) :
    Yields guard.Interrupts (mergePair guard compare left right scratch) fun out =>
      out.1 = scratch.1 ++ left.merge right fun x y => (compare x y).isLE := by
  induction left, right, scratch using mergePair.induct compare with
  | case1 x left y right scratch hle ih =>
    rw [mergePair, if_pos hle, List.cons_merge_cons, if_pos hle]
    refine (yields_pushRow scratch x).bind fun out hout => ?_
    rw [List.append_cons, ← hout]
    exact ih out
  | case2 x left y right scratch hle ih =>
    rw [mergePair, if_neg hle, List.cons_merge_cons, if_neg hle]
    refine (yields_pushRow scratch y).bind fun out hout => ?_
    rw [List.append_cons, ← hout]
    exact ih out
  | case3 left right scratch hend =>
    have hmerge : left.merge right (fun x y => (compare x y).isLE) = left ++ right := by
      match left, right with
      | [], right => exact List.nil_merge right
      | left, [] => rw [List.merge_right, List.append_nil]
      | x :: left, y :: right => exact (hend x left y right rfl rfl).elim
    rw [mergePair.eq_2 _ _ _ _ _ hend, hmerge, ← List.append_assoc]
    refine (yields_copyRows left scratch).bind fun out hout => ?_
    rw [← hout]
    exact yields_copyRows right out

/-- Every block of `size` rows is in order. -/
def BlocksSorted (compare : α → α → Ordering) (size : ℕ) (rows : List α) : Prop :=
  ∀ k, ((rows.drop (k * size)).take size).Pairwise fun x y => (compare x y).isLE

variable {size : ℕ} {rows : List α}

theorem BlocksSorted.pairwise (h : BlocksSorted compare size rows) (hle : rows.length ≤ size) :
    rows.Pairwise fun x y => (compare x y).isLE := by
  have hblock := h 0
  rwa [Nat.zero_mul, List.drop_zero, List.take_of_length_le hle] at hblock

theorem yields_forBlocks {R : Stop η → Prop} {body : List α → Guarded σ η (List α)} (count : ℕ)
    (hcount : rows.length ≤ count * size)
    (hbody : ∀ k, Yields R (body ((rows.drop (k * size)).take size)) fun out =>
      out.Perm ((rows.drop (k * size)).take size) ∧ out.Pairwise fun x y => (compare x y).isLE) :
    Yields R (forBlocks size body count rows) fun out => out.Perm rows ∧ BlocksSorted compare size out := by
  induction count generalizing rows with
  | zero =>
    rw [Nat.zero_mul, Nat.le_zero, List.length_eq_zero_iff] at hcount
    subst hcount
    exact yields_pure ⟨List.Perm.refl _, fun k => by simp⟩
  | succ count ih =>
    have hfirst := hbody 0
    rw [Nat.zero_mul, List.drop_zero] at hfirst
    refine hfirst.bind fun out hout => ?_
    refine (@ih (rows.drop size) ?_ ?_).bind fun rest hrest => yields_pure ⟨?_, fun k => ?_⟩
    · rw [List.length_drop]
      rw [Nat.succ_mul] at hcount
      omega
    · intro k
      have hblock := hbody (k + 1)
      rwa [Nat.succ_mul, Nat.add_comm, ← List.drop_drop] at hblock
    · exact (hout.1.append hrest.1).trans (List.Perm.of_eq (List.take_append_drop size rows))
    · have hlength := hout.1.length_eq
      rw [List.length_take] at hlength
      by_cases hfull : size ≤ rows.length
      · rw [Nat.min_eq_left hfull] at hlength
        cases k with
        | zero =>
          rw [Nat.zero_mul, List.drop_zero, List.take_left' hlength]
          exact hout.2
        | succ k =>
          rw [Nat.succ_mul, Nat.add_comm, ← List.drop_drop, List.drop_left' hlength]
          exact hrest.2 k
      · -- the block is the last one
        have hnil : rest = [] := by
          rw [List.drop_of_length_le (by omega)] at hrest
          exact List.perm_nil.1 hrest.1
        rw [hnil, List.append_nil]
        exact (hout.2.sublist (List.drop_sublist _ _)).sublist (List.take_sublist _ _)

theorem le_blockCount_mul (hsize : 0 < size) (length : ℕ) : length ≤ blockCount size length * size := by
  have hdiv := Nat.div_add_mod (length + (size - 1)) size
  have hmod := Nat.mod_lt (length + (size - 1)) hsize
  rw [blockCount, Nat.mul_comm]
  omega

theorem yields_sortChunks {sortUnstableBy : (α → α → Ordering) → List α → List α}
    (hsort : ∀ chunk, (sortUnstableBy compare chunk).Perm chunk ∧
      (sortUnstableBy compare chunk).Pairwise fun x y => (compare x y).isLE) (rows : List α) :
    Yields guard.Interrupts (sortChunks guard compare sortUnstableBy rows) fun out =>
      out.Perm rows ∧ BlocksSorted compare sortChunkRows out :=
  yields_forBlocks _ (le_blockCount_mul (by decide) _) fun _ =>
    guard.yields_tryConsume.bind fun _ _ => yields_pure (hsort _)

section

variable [Std.TransCmp compare] {width : ℕ}

theorem isLE_total (x y : α) : ((compare x y).isLE || (compare y x).isLE) = true := by
  have hswap : compare y x = (compare x y).swap := Std.OrientedCmp.eq_swap
  rw [hswap]
  cases compare x y <;> rfl

theorem pairwise_merge {left right : List α} (hleft : left.Pairwise fun x y => (compare x y).isLE)
    (hright : right.Pairwise fun x y => (compare x y).isLE) :
    (left.merge right fun x y => (compare x y).isLE).Pairwise fun x y => (compare x y).isLE :=
  List.pairwise_merge (fun _ _ _ => Std.TransCmp.isLE_trans) isLE_total left right hleft hright

/-- A round turns sorted runs into sorted runs of twice the width. -/
theorem yields_mergeRound (hwidth : 0 < width) (hrows : BlocksSorted compare width rows) :
    Yields guard.Interrupts (mergeRound guard compare width rows) fun out =>
      out.Perm rows ∧ BlocksSorted compare (width * 2) out := by
  apply yields_forBlocks _ (le_blockCount_mul (by omega) _)
  intro k
  refine guard.yields_tryConsume.bind fun _ _ => (yields_mergePair _ _ _).bind fun merged hmerged => yields_pure ?_
  have hleft := hrows (k * 2)
  have hright := hrows (k * 2 + 1)
  rw [hmerged]
  refine ⟨(List.merge_perm_append _).trans (List.Perm.of_eq (List.take_append_drop _ _)), pairwise_merge ?_ ?_⟩
  · rwa [List.take_take, Nat.min_eq_left (by omega), Nat.mul_comm width, ← Nat.mul_assoc]
  · rw [List.drop_take, List.drop_drop, Nat.mul_two, Nat.add_sub_cancel, ← Nat.mul_two]
    rwa [Nat.succ_mul, Nat.mul_assoc, Nat.mul_comm 2] at hright

theorem yields_mergeRounds (fuel : ℕ) (hwidth : 0 < width) (hfuel : rows.length ≤ width + fuel)
    (hrows : BlocksSorted compare width rows) :
    Yields guard.Interrupts (mergeRounds guard compare fuel width rows) fun out =>
      out.Perm rows ∧ out.Pairwise fun x y => (compare x y).isLE := by
  induction fuel generalizing width rows with
  | zero => exact yields_pure ⟨List.Perm.refl _, hrows.pairwise hfuel⟩
  | succ fuel ih =>
    unfold mergeRounds
    split_ifs with hlt
    · refine (yields_mergeRound hwidth hrows).bind fun out hout => ?_
      have hlength := hout.1.length_eq
      exact (ih (by omega) (by omega) hout.2).imp fun _ h => ⟨h.1.trans hout.1, h.2⟩
    · exact yields_pure ⟨List.Perm.refl _, hrows.pairwise (not_lt.1 hlt)⟩

/-- The rows come back in order, unless the guard refuses or, beyond one chunk, the scratch
memory is not to be had. -/
theorem cancellableSortBy_sorts (guard : Guard σ η) {sortUnstableBy : (α → α → Ordering) → List α → List α}
    (hsort : ∀ chunk, (sortUnstableBy compare chunk).Perm chunk ∧
      (sortUnstableBy compare chunk).Pairwise fun x y => (compare x y).isLE) (rowBytes : ℕ) (rows : List α) :
    Yields (fun stop => guard.Interrupts stop ∨
        sortChunkRows < rows.length ∧ guard.Refuses (rows.length * rowBytes) stop)
      (cancellableSortBy guard compare sortUnstableBy rowBytes rows) fun sorted =>
        sorted.Perm rows ∧ sorted.Pairwise fun x y => (compare x y).isLE := by
  refine ((yields_sortChunks hsort rows).weaken fun _ => .inl).bind fun chunks hchunks => ?_
  have hlength := hchunks.1.length_eq
  split_ifs with hshort
  · exact yields_pure ⟨hchunks.1, hchunks.2.pairwise hshort⟩
  · rw [hlength] at hshort ⊢
    refine ((guard.yields_tryReserve _ _ _).weaken fun _ h => .inr ⟨not_le.1 hshort, h⟩).bind fun _ _ => ?_
    refine ((yields_mergeRounds _ (by decide) (by omega) hchunks.2).weaken fun _ => .inl).imp fun sorted h => ?_
    exact ⟨h.1.trans hchunks.1, h.2⟩

def mergeSortBy (compare : α → α → Ordering) (rows : List α) : List α := rows.mergeSort fun x y => (compare x y).isLE

theorem mergeSortBy_sorts (chunk : List α) : (mergeSortBy compare chunk).Perm chunk ∧
    (mergeSortBy compare chunk).Pairwise fun x y => (compare x y).isLE :=
  ⟨List.mergeSort_perm _ _, List.pairwise_mergeSort (fun _ _ _ => Std.TransCmp.isLE_trans) isLE_total _⟩

end

theorem cancellableSortBy_pair :
    Yields (fun stop => Guard.idle.Interrupts stop ∨ sortChunkRows < 2 ∧ Guard.idle.Refuses 16 stop)
      (cancellableSortBy .idle Ord.compare mergeSortBy 8 [2, 1]) fun sorted =>
        sorted.Perm [2, 1] ∧ sorted.Pairwise fun x y => (Ord.compare x y).isLE :=
  cancellableSortBy_sorts .idle mergeSortBy_sorts 8 [2, 1]

/-- An allocator without memory behind a guard that never refuses. -/
def starved : Guard Unit Unit := { Guard.idle with allocate := fun _ _ => .error () }

theorem starved_run {rows : List ℕ} (hlong : sortChunkRows < rows.length) (hbytes : rows.length * 8 < 2 ^ 64) :
    cancellableSortBy starved Ord.compare mergeSortBy 8 rows () = .error (.allocation "merge-sort scratch allocation") := by
  have hchunks := @yields_sortChunks Unit Unit ℕ starved Ord.compare mergeSortBy mergeSortBy_sorts rows ()
  show (sortChunks starved Ord.compare mergeSortBy rows () >>= _) = _
  cases hrun : sortChunks starved Ord.compare mergeSortBy rows () with
  | error stop =>
    rw [hrun] at hchunks
    cases stop with
    | abort reason => exact (nomatch hchunks.choose_spec)
    | allocation detail => exact hchunks.elim
  | ok r =>
    rw [hrun] at hchunks
    have hlength := hchunks.1.length_eq
    show (if r.1.length ≤ sortChunkRows then _ else _ : Guarded Unit Unit (List ℕ)) () = _
    rw [if_neg (by omega), Guard.tryReserve, if_neg (by omega)]
    rfl

/-- One row more than a chunk: neither an abort nor sorted rows. -/
theorem cancellableSortBy_starved : cancellableSortBy starved Ord.compare mergeSortBy 8 (List.replicate 4097 0) () =
    .error (.allocation "merge-sort scratch allocation") := by
  apply starved_run <;> rw [List.length_replicate]
  · decide
  · decide

end QTrace.Store
