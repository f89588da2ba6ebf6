import QTrace.Lib.Guarded
import QTrace.Lib.RadixSort

/-! The guarded sort of recovered values. Row numbers are sorted by the key bytes, one pass for
each byte, and the values are then moved in place along the cycles of the row order. The guard is
asked every so many rows, and in the moving every so many steps, counted over all cycles. -/

namespace QTrace.Flight

open Lib
open Lib.RadixSort (bucketStart Settled)

variable {σ η α : Type} {n : ℕ}

def maxUnguardedRecords : ℕ := 4096

section

variable (guard : Guard σ η)

def checkpoint (index : ℕ) : Guarded σ η Unit :=
  if index % maxUnguardedRecords = 0 then guard.tryConsume else pure ()

/-- The in-place reordering between two steps: `order` names the source of each place that is
not yet filled. -/
structure Reordering (n : ℕ) (α : Type) where
  values : Fin n → α
  order : Fin n → Fin n
  reorderWork : ℕ

/-- The inner loop, along the cycle of `start`, which has at most `n` rows. -/
def walkCycle (start : Fin n) : ℕ → Fin n → Reordering n α → Guarded σ η (Reordering n α)
  | 0, _, st => pure st
  | fuel + 1, current, st =>
    let source := st.order current
    let order := Function.update st.order current current
    if source = start then pure { st with order := order }
    else do
      checkpoint guard st.reorderWork
      walkCycle start fuel source ⟨st.values ∘ Equiv.swap current source, order, st.reorderWork + 1⟩

def reorderInPlace (values : Fin n → α) (order : Fin n → Fin n) : Guarded σ η (Reordering n α) :=
  (List.finRange n).foldlM (fun st start => do
    checkpoint guard st.reorderWork
    walkCycle guard start n start { st with reorderWork := st.reorderWork + 1 }) ⟨values, order, 0⟩

variable (keyByte : α → ℕ → Except (Stop η) UInt8)

/-- A loop over the rows of the order with the key byte of each. -/
def forRows {β : Type} (values : Fin n → α) (pass : ℕ) (order : List (Fin n)) (step : β → Fin n → ℕ → β) (init : β) :
    Guarded σ η β :=
  order.zipIdx.foldlM (fun st row => do
    checkpoint guard row.2
    let byte ← keyByte (values row.1) pass
    pure (step st row.1 byte.toNat)) init

/-- One pass: count the bytes, start the buckets, place the rows. -/
def sortPass (values : Fin n → α) (pass : ℕ) (order scratch : List (Fin n)) : Guarded σ η (List (Fin n)) := do
  let counts ← forRows guard keyByte values pass order
    (fun counts _ bucket => Function.update counts bucket (counts bucket + 1)) fun _ => 0
  let placed ← forRows guard keyByte values pass order
    (fun (st : (ℕ → ℕ) × List (Fin n)) source bucket =>
      (Function.update st.1 bucket (st.1 bucket + 1), st.2.set (st.1 bucket) source)) (bucketStart counts, scratch)
  pure placed.2

/-- The passes; the order and the scratch rows are swapped after each. -/
def sortRows (values : Fin n → α) (order scratch : List (Fin n)) : ℕ → Guarded σ η (List (Fin n) × List (Fin n))
  | 0 => pure (order, scratch)
  | pass + 1 => do
    let st ← sortRows values order scratch pass
    let placed ← sortPass guard keyByte values pass st.1 st.2
    pure (placed, st.1)

def guardedRadixSort (passes : ℕ) (values : List α) : Guarded σ η (List α) := do
  checkpoint guard 0
  if h : values.length < 2 then pure values
  else do
    let bytes := values.length * 8
    guard.tryReserve bytes "allocation byte count overflow" "Flight sort order allocation failed"
    guard.tryReserve bytes "allocation byte count overflow" "Flight sort scratch allocation failed"
    (List.finRange values.length).foldlM (fun _ index => checkpoint guard index) ()
    let sorted ← sortRows guard keyByte values.get (List.finRange _)
      (List.replicate values.length ⟨0, by omega⟩) passes
    let st ← reorderInPlace guard values.get fun row => sorted.1.getD row row
    pure (List.ofFn st.values)

end

variable {guard : Guard σ η}

theorem yields_checkpoint (index : ℕ) : Yields guard.Interrupts (checkpoint guard index) fun _ => True := by
  unfold checkpoint
  split_ifs
  · exact guard.yields_tryConsume
  · exact yields_pure trivial

theorem yields_walkCycle (start : Fin n) (fuel : ℕ) (current : Fin n) (st : Reordering n α) :
    Yields guard.Interrupts (walkCycle guard start fuel current st) fun st' =>
      (st'.values, st'.order) = RadixSort.followCycle start fuel current st.values st.order ∧
        st'.reorderWork = st.reorderWork + RadixSort.cycleSteps start fuel current st.order := by
  induction fuel generalizing current st with
  | zero => exact yields_pure ⟨rfl, rfl⟩
  | succ fuel ih =>
    rw [walkCycle, RadixSort.followCycle, RadixSort.cycleSteps]
    split_ifs
    · exact yields_pure ⟨rfl, rfl⟩
    · refine (yields_checkpoint _).bind fun _ _ => (ih _ _).imp fun st' h => ⟨h.1, h.2.trans ?_⟩
      dsimp only
      omega

theorem yields_reorderInPlace (old : Fin n → α) {target : Fin n → Fin n} (hinj : Function.Injective target) :
    Yields guard.Interrupts (reorderInPlace guard old target) fun st =>
      st.values = old ∘ target ∧ st.reorderWork ≤ 2 * n := by
  -- each start costs a step of its own, and a step for each place its walk fills
  apply (yields_foldlM (fun starts st => ∃ done : Finset (Fin n), (∀ x ∈ starts, x ∈ done) ∧
      Settled old target done st.values st.order ∧ st.reorderWork ≤ starts.length + done.card) ?_ ?_ _).imp
  · rintro st ⟨done, hall, hsettled, hwork⟩
    have hcard := card_finset_fin_le done
    rw [List.length_finRange] at hwork
    refine ⟨?_, by omega⟩
    funext x
    exact (congrFun hsettled.values x).trans (congrArg old (if_pos (hall x (List.mem_finRange x))))
  · exact ⟨∅, by simp, ⟨by simp, by simp, by simp⟩, Nat.zero_le _⟩
  · rintro starts start st ⟨done, hall, hsettled, hwork⟩
    obtain ⟨done', hsub, hsteps, hsettled'⟩ := hsettled.followCycle hinj start
    refine (yields_checkpoint _).bind fun _ _ => (yields_walkCycle start n start _).imp fun st' h => ?_
    refine ⟨done', fun x hx => hsub ?_, ?_, ?_⟩
    · rcases List.mem_append.1 hx with hx | hx
      · exact Finset.mem_insert_of_mem (hall x hx)
      · exact List.mem_singleton.1 hx ▸ Finset.mem_insert_self _ _
    · rw [← h.1] at hsettled'
      exact hsettled'
    · rw [h.2, List.length_append, List.length_singleton]
      dsimp only
      omega

section

variable {keyByte : α → ℕ → Except (Stop η) UInt8} {byte : α → ℕ → UInt8}
  (hkey : ∀ x pass, keyByte x pass = .ok (byte x pass))
include hkey

theorem yields_forRows {β : Type} (values : Fin n → α) (pass : ℕ) (order : List (Fin n)) (step : β → Fin n → ℕ → β)
    (init : β) : Yields guard.Interrupts (forRows guard keyByte values pass order step init) fun st =>
      st = order.foldl (fun st row => step st row (byte (values row) pass).toNat) init := by
  apply (yields_foldlM (fun rows st => st = (rows.map Prod.fst).foldl
    (fun st row => step st row (byte (values row) pass).toNat) init) rfl ?_ _).imp
  · intro st hst
    rw [hst, List.zipIdx_map_fst]
  · rintro rows row st rfl
    refine (yields_checkpoint _).bind fun _ _ => ?_
    rw [hkey, List.map_append, List.map_singleton, List.foldl_concat]
    exact yields_pure rfl

theorem yields_sortPass (values : Fin n → α) (pass : ℕ) (order scratch : List (Fin n)) :
    Yields guard.Interrupts (sortPass guard keyByte values pass order scratch) fun placed =>
      placed = RadixSort.pass (fun row => (byte (values row) pass).toNat) order scratch := by
  refine (yields_forRows hkey values pass order _ _).bind fun counts hcounts => ?_
  refine (yields_forRows hkey values pass order _ _).bind fun placed hplaced => yields_pure ?_
  rw [hplaced, hcounts]
  exact RadixSort.foldl_scatter _ order _ scratch

theorem yields_sortRows (values : Fin n → α) (order scratch : List (Fin n)) (count : ℕ) :
    Yields guard.Interrupts (sortRows guard keyByte values order scratch count) fun st =>
      st = RadixSort.passes (fun pass row => (byte (values row) pass).toNat) count order scratch := by
  induction count with
  | zero => exact yields_pure rfl
  | succ pass ih =>
    refine ih.bind fun st hst => (yields_sortPass hkey values pass st.1 st.2).bind fun placed hplaced => yields_pure ?_
    rw [hplaced, hst]
    rfl

theorem yields_guardedRadixSort (passes : ℕ) (values : List α) :
    Yields (guard.Refuses (values.length * 8)) (guardedRadixSort guard keyByte passes values) fun sorted =>
      sorted = RadixSort.sortPasses 256 (fun pass x => (byte x pass).toNat) passes values := by
  have hdigit : ∀ pass x, (byte x pass).toNat < 256 := fun pass x => (byte x pass).toNat_lt
  have hweaken := guard.refuses_of_interrupts (values.length * 8)
  refine ((yields_checkpoint 0).weaken hweaken).bind fun _ _ => ?_
  split_ifs with hshort
  · exact yields_pure (RadixSort.sortPasses_short hdigit passes hshort).symm
  · refine (guard.yields_tryReserve _ _ _).bind fun _ _ => (guard.yields_tryReserve _ _ _).bind fun _ _ => ?_
    refine ((yields_foldlM (fun _ _ => True) trivial (fun _ index _ _ => yields_checkpoint index) _).weaken
      hweaken).bind fun _ _ => ?_
    refine ((yields_sortRows hkey values.get _ _ passes).weaken hweaken).bind fun st hst => ?_
    have horder := congrArg Prod.fst hst
    rw [(RadixSort.passes_eq (fun pass row => hdigit pass (values.get row)) passes (by simp)).1] at horder
    obtain ⟨hinj, hsorted⟩ := RadixSort.sources_sortPasses hdigit passes values horder
    refine ((yields_reorderInPlace values.get hinj).weaken hweaken).bind fun moved hmoved => yields_pure ?_
    rw [hmoved.1, hsorted]

end

/-- Rows by their key bytes, the byte of the last pass first; values with equal bytes stay in
order. The moving puts every value at its place in at most two steps a value. -/
theorem guardedRadixSort_sorts (guard : Guard σ η) {keyByte : α → ℕ → Except (Stop η) UInt8} (byte : α → ℕ → UInt8)
    (hkey : ∀ x pass, keyByte x pass = .ok (byte x pass)) (passes : ℕ) (values : List α) :
    (Yields (guard.Refuses (values.length * 8)) (guardedRadixSort guard keyByte passes values) fun sorted =>
      sorted.Perm values ∧
      sorted.Pairwise (fun x y => RadixSort.keyValue 256 (fun pass x => (byte x pass).toNat) passes x ≤
        RadixSort.keyValue 256 (fun pass x => (byte x pass).toNat) passes y) ∧
      ∀ key : ℕ → UInt8, (sorted.filter fun x => ∀ pass < passes, byte x pass = key pass) =
        values.filter fun x => ∀ pass < passes, byte x pass = key pass) ∧
    ∀ {n : ℕ} (values : Fin n → α) {source : Fin n → Fin n}, Function.Injective source →
      Yields guard.Interrupts (reorderInPlace guard values source) fun st =>
        st.values = values ∘ source ∧ st.reorderWork ≤ 2 * n := by
  have hdigit : ∀ pass x, (byte x pass).toNat < 256 := fun pass x => (byte x pass).toNat_lt
  refine ⟨(yields_guardedRadixSort hkey passes values).imp ?_, fun values _ hinj => yields_reorderInPlace values hinj⟩
  rintro sorted rfl
  refine ⟨RadixSort.sortPasses_perm hdigit passes values, RadixSort.sortPasses_pairwise hdigit passes values, ?_⟩
  intro key
  refine RadixSort.filter_sortPasses (d := fun pass => (key pass).toNat) (fun pass => (key pass).toNat_lt) ?_ values
  intro pass hpass x hx
  exact congrArg UInt8.toNat (of_decide_eq_true hx pass hpass)

def marked : List (UInt8 × Char) := [(2, 'a'), (1, 'b'), (2, 'c')]

theorem guardedRadixSort_marked :
    Yields (Guard.idle.Refuses (marked.length * 8)) (guardedRadixSort .idle (fun x _ => .ok x.1) 1 marked) fun sorted =>
      sorted.Perm marked ∧ (sorted.filter fun x => ∀ pass < 1, x.1 = 2) = [(2, 'a'), (2, 'c')] := by
  have hsorts := guardedRadixSort_sorts .idle (fun x _ => x.1) (fun x _ => (rfl : Except.ok x.1 = _)) 1 marked
  refine hsorts.1.imp fun sorted h => ⟨h.1, ?_⟩
  rw [h.2.2 fun _ => 2]
  decide

end QTrace.Flight
