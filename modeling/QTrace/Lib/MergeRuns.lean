import Mathlib

/-! Merging a sorted list from left to right, each element only with the last one kept. If
merging obeys a few laws about the sort key, the result is a normal form: strictly sorted,
without neighbours that could be merged, the same for all lists with the same elements,
and unchanged when merged again. -/

namespace QTrace.Lib

variable {α κ : Type*} [LinearOrder κ]

/-- One round: the last element takes the new one up, or the new one follows it. -/
def mergeStep (merge : α → α → Option α) (output : List α) (x : α) : List α :=
  match output.getLast? with
  | none => output ++ [x]
  | some previous =>
    match merge previous x with
    | some merged => output.dropLast ++ [merged]
    | none => output ++ [x]

def mergeRuns (merge : α → α → Option α) (l : List α) : List α := l.foldl (mergeStep merge) []

/-- What merging owes the sort key. -/
structure MergeLaws (key : α → κ) (merge : α → α → Option α) : Prop where
  key_injective : Function.Injective key
  self : ∀ x, merge x x = some x
  /-- What has been taken up is taken up again without effect. -/
  absorbs : ∀ {x y m}, merge x y = some m → merge m y = some m
  le_merged : ∀ {x y m}, key x ≤ key y → merge x y = some m → key x ≤ key m
  merged_le : ∀ {x y m}, key x ≤ key y → merge x y = some m → key m ≤ key y
  /-- To the left the merged element looks like its first part. -/
  front : ∀ {p x y m}, merge x y = some m → merge p x = none → merge p m = none

section

variable {merge : α → α → Option α} {x m last : α}

theorem mergeStep_nil (x : α) : mergeStep merge [] x = [x] := rfl

theorem mergeStep_of_some (init : List α) (h : merge last x = some m) :
    mergeStep merge (init ++ [last]) x = init ++ [m] := by
  simp [mergeStep, h]

theorem mergeStep_of_none (init : List α) (h : merge last x = none) :
    mergeStep merge (init ++ [last]) x = init ++ [last] ++ [x] := by
  simp [mergeStep, h]

end

namespace MergeLaws

variable {key : α → κ} {merge : α → α → Option α} (laws : MergeLaws key merge)

/-- A normal form: strictly sorted, and no two neighbours could be merged. -/
structure Normal (key : α → κ) (merge : α → α → Option α) (l : List α) : Prop where
  sorted : l.Pairwise fun a b => key a < key b
  unmergeable : l.IsChain fun a b => merge a b = none

/-- The elements kept are sorted, and the last one is not behind what is still to come. -/
structure Kept (key : α → κ) (merge : α → α → Option α) (output rest : List α) : Prop extends
    Normal key merge output where
  before : ∀ last ∈ output.getLast?, ∀ x ∈ rest, key last ≤ key x

include laws

theorem kept_step {output rest : List α} {x : α} (h : Kept key merge output (x :: rest))
    (hrest : ∀ y ∈ rest, key x ≤ key y) : Kept key merge (mergeStep merge output x) rest := by
  rcases List.eq_nil_or_concat' output with rfl | ⟨init, last, rfl⟩
  · refine ⟨⟨List.pairwise_singleton _ _, List.IsChain.singleton _⟩, fun y hy z hz => ?_⟩
    rw [mergeStep_nil, List.getLast?_singleton, Option.mem_some_iff] at hy
    exact hy ▸ hrest z hz
  · have hlast : key last ≤ key x := h.before last (by simp) x (by simp)
    have hsorted := List.pairwise_append.1 h.sorted
    have hchain := List.isChain_append.1 h.unmergeable
    cases hmerge : merge last x with
    | some m =>
      rw [mergeStep_of_some init hmerge]
      refine ⟨⟨?_, ?_⟩, ?_⟩
      · refine List.pairwise_append.2 ⟨hsorted.1, List.pairwise_singleton _ _, fun a ha b hb => ?_⟩
        rw [List.mem_singleton.1 hb]
        exact (hsorted.2.2 a ha last (by simp)).trans_le (laws.le_merged hlast hmerge)
      · refine List.isChain_append.2 ⟨hchain.1, List.IsChain.singleton _, fun a ha b hb => ?_⟩
        rw [List.head?_cons, Option.mem_some_iff] at hb
        exact hb ▸ laws.front hmerge (hchain.2.2 a ha last (by simp))
      · intro y hy z hz
        rw [List.getLast?_concat, Option.mem_some_iff] at hy
        exact hy ▸ (laws.merged_le hlast hmerge).trans (hrest z hz)
    | none =>
      rw [mergeStep_of_none init hmerge]
      -- an equal element would have been merged
      have hne : key last ≠ key x := by
        intro heq
        rw [laws.key_injective heq, laws.self] at hmerge
        cases hmerge
      refine ⟨⟨?_, ?_⟩, ?_⟩
      · refine List.pairwise_append.2 ⟨h.sorted, List.pairwise_singleton _ _, fun a ha b hb => ?_⟩
        rw [List.mem_singleton.1 hb]
        rcases List.mem_append.1 ha with ha | ha
        · exact (hsorted.2.2 a ha last (by simp)).trans_le hlast
        · rw [List.mem_singleton.1 ha]
          exact lt_of_le_of_ne hlast hne
      · refine List.isChain_append.2 ⟨h.unmergeable, List.IsChain.singleton _, fun a ha b hb => ?_⟩
        rw [List.getLast?_concat, Option.mem_some_iff] at ha
        rw [List.head?_cons, Option.mem_some_iff] at hb
        exact ha ▸ hb ▸ hmerge
      · intro y hy z hz
        rw [List.getLast?_concat, Option.mem_some_iff] at hy
        exact hy ▸ hrest z hz

theorem kept_foldl {rest : List α} : ∀ {output : List α}, Kept key merge output rest →
    rest.Pairwise (fun a b => key a ≤ key b) → Normal key merge (rest.foldl (mergeStep merge) output) := by
  induction rest with
  | nil => exact fun h _ => h.toNormal
  | cons x rest ih =>
    intro output h hsorted
    obtain ⟨hx, hrest⟩ := List.pairwise_cons.1 hsorted
    exact ih (laws.kept_step h hx) hrest

variable {l : List α}

theorem normal_mergeRuns (hl : l.Pairwise fun a b => key a ≤ key b) : Normal key merge (mergeRuns merge l) :=
  laws.kept_foldl ⟨⟨List.Pairwise.nil, List.IsChain.nil⟩, by simp⟩ hl

omit laws in
theorem mergeRuns_of_unmergeable (h : l.IsChain fun a b => merge a b = none) : mergeRuns merge l = l := by
  induction l using List.reverseRecOn with
  | nil => rfl
  | append_singleton output x ih =>
    obtain ⟨houtput, -, hlast⟩ := List.isChain_append.1 h
    rw [mergeRuns, List.foldl_concat, ← mergeRuns, ih houtput]
    rcases List.eq_nil_or_concat' output with rfl | ⟨init, last, rfl⟩
    · rfl
    · exact mergeStep_of_none init (hlast last (by simp) x (by simp))

theorem mergeStep_twice (output : List α) (x : α) :
    mergeStep merge (mergeStep merge output x) x = mergeStep merge output x := by
  rcases List.eq_nil_or_concat' output with rfl | ⟨init, last, rfl⟩
  · exact mergeStep_of_some [] (laws.self x)
  · cases hmerge : merge last x with
    | some m => rw [mergeStep_of_some init hmerge, mergeStep_of_some init (laws.absorbs hmerge)]
    | none => rw [mergeStep_of_none init hmerge, mergeStep_of_some _ (laws.self x)]

/-- In a sorted list duplicates stand together, so they do not matter. -/
theorem foldl_dedup [DecidableEq α] : ∀ {output : List α}, l.Pairwise (fun a b => key a ≤ key b) →
    l.dedup.foldl (mergeStep merge) output = l.foldl (mergeStep merge) output := by
  induction l with
  | nil => exact fun _ => rfl
  | cons x l ih =>
    intro output hsorted
    obtain ⟨hx, hrest⟩ := List.pairwise_cons.1 hsorted
    by_cases hmem : x ∈ l
    · -- the next element is `x` again
      obtain ⟨rest, rfl⟩ : ∃ rest, l = x :: rest := by
        cases l with
        | nil => cases hmem
        | cons y rest =>
          refine ⟨rest, ?_⟩
          have hyx : key y ≤ key x := by
            rcases List.mem_cons.1 hmem with rfl | hmem
            · exact le_rfl
            · exact (List.pairwise_cons.1 hrest).1 x hmem
          rw [laws.key_injective (le_antisymm (hx y (by simp)) hyx)]
      rw [List.dedup_cons_of_mem hmem, ih hrest, List.foldl_cons, List.foldl_cons, List.foldl_cons,
        laws.mergeStep_twice]
    · rw [List.dedup_cons_of_notMem hmem, List.foldl_cons, List.foldl_cons, ih hrest]

theorem mergeRuns_congr [DecidableEq α] {l' : List α} (hl : l.Pairwise fun a b => key a ≤ key b)
    (hl' : l'.Pairwise fun a b => key a ≤ key b) (h : ∀ x, x ∈ l ↔ x ∈ l') :
    mergeRuns merge l = mergeRuns merge l' := by
  have hperm : l.dedup.Perm l'.dedup :=
    (List.perm_ext_iff_of_nodup (List.nodup_dedup l) (List.nodup_dedup l')).2 fun x => by
      rw [List.mem_dedup, List.mem_dedup, h]
  have hdedup : l.dedup = l'.dedup :=
    hperm.eq_of_pairwise (fun a b _ _ hab hba => laws.key_injective (le_antisymm hab hba))
      (hl.sublist (List.dedup_sublist l)) (hl'.sublist (List.dedup_sublist l'))
  rw [mergeRuns, mergeRuns, ← laws.foldl_dedup hl, ← laws.foldl_dedup hl', hdedup]

/-- Merging keeps what the elements cover together, if it does so for sorted pairs. -/
theorem covered_mergeRuns {π : Type*} (covers : α → π → Prop)
    (hcovers : ∀ {x y m}, key x ≤ key y → merge x y = some m → ∀ p, covers m p ↔ covers x p ∨ covers y p)
    (hl : l.Pairwise fun a b => key a ≤ key b) (p : π) :
    (∃ x ∈ mergeRuns merge l, covers x p) ↔ ∃ x ∈ l, covers x p := by
  have hstep : ∀ {output rest : List α} {x : α}, Kept key merge output (x :: rest) →
      ((∃ y ∈ mergeStep merge output x, covers y p) ↔ (∃ y ∈ output, covers y p) ∨ covers x p) := by
    intro output rest x h
    rcases List.eq_nil_or_concat' output with rfl | ⟨init, last, rfl⟩
    · simp [mergeStep_nil]
    · cases hmerge : merge last x with
      | some m =>
        have hlast : key last ≤ key x := h.before last (by simp) x (by simp)
        rw [mergeStep_of_some init hmerge]
        simp [or_and_right, exists_or, hcovers hlast hmerge, or_assoc]
      | none =>
        rw [mergeStep_of_none init hmerge]
        simp [or_and_right, exists_or, or_assoc]
  have hfold : ∀ output : List α, Kept key merge output l →
      ((∃ y ∈ l.foldl (mergeStep merge) output, covers y p) ↔ (∃ y ∈ output, covers y p) ∨ ∃ y ∈ l, covers y p) := by
    induction l with
    | nil => simp
    | cons x l ih =>
      intro output h
      obtain ⟨hx, hrest⟩ := List.pairwise_cons.1 hl
      rw [List.foldl_cons, ih hrest _ (laws.kept_step h hx), hstep h]
      simp [or_and_right, exists_or, or_assoc]
  rw [mergeRuns, hfold [] ⟨⟨List.Pairwise.nil, List.IsChain.nil⟩, by simp⟩]
  simp

end MergeLaws

end QTrace.Lib
