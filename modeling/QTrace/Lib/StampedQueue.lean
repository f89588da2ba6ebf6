import Mathlib

/-! A queue kept in a set of slots by time stamps. Entering the queue stamps a slot
with the next number; the oldest entry is found by scanning every slot for the
smallest stamp. The list a set of stamped slots stands for is carried as a
relation, so that the slots can be of any type. -/

namespace QTrace.Lib

variable {ι : Type*}

/-- `queue` lists the live slots, oldest first, and every stamp is below `next`. -/
structure Stamped (live : ι → Prop) (stamp : ι → ℕ) (next : ℕ) (queue : List ι) : Prop where
  mem_iff : ∀ i, i ∈ queue ↔ live i
  sorted : queue.Pairwise fun i j => stamp i < stamp j
  bounded : ∀ i ∈ queue, stamp i < next

namespace Stamped

variable {live live' : ι → Prop} {stamp stamp' : ι → ℕ} {next : ℕ} {queue : List ι} {i : ι}

theorem empty (h : ∀ i, ¬ live i) : Stamped live stamp next [] :=
  ⟨fun i => by simp [h i], List.Pairwise.nil, by simp⟩

theorem eq_nil (h : Stamped live stamp next queue) (hdead : ∀ i, ¬ live i) : queue = [] :=
  List.eq_nil_iff_forall_not_mem.mpr fun i hi => hdead i ((h.mem_iff i).mp hi)

theorem not_mem_tail (h : Stamped live stamp next (i :: queue)) : i ∉ queue := by
  intro hi
  exact lt_irrefl _ ((List.pairwise_cons.mp h.sorted).1 i hi)

theorem congr (h : Stamped live stamp next queue) (hlive : ∀ j, live' j ↔ live j)
    (hstamp : ∀ j, live j → stamp' j = stamp j) : Stamped live' stamp' next queue := by
  have hmem : ∀ j ∈ queue, stamp' j = stamp j := fun j hj => hstamp j ((h.mem_iff j).mp hj)
  refine ⟨fun j => (h.mem_iff j).trans (hlive j).symm, ?_, ?_⟩
  · refine h.sorted.imp_of_mem ?_
    intro a b ha hb hab
    rwa [hmem a ha, hmem b hb]
  · intro j hj
    rw [hmem j hj]
    exact h.bounded j hj

theorem enqueue [DecidableEq ι] (h : Stamped live stamp next queue) (hi : ¬ live i) :
    Stamped (fun j => j = i ∨ live j) (Function.update stamp i next) (next + 1) (queue ++ [i]) := by
  have hother : ∀ j ∈ queue, Function.update stamp i next j = stamp j := by
    intro j hj
    have hne : j ≠ i := by
      rintro rfl
      exact hi ((h.mem_iff j).mp hj)
    exact Function.update_of_ne hne ..
  refine ⟨?_, ?_, ?_⟩
  · intro j
    rw [List.mem_append, List.mem_singleton, h.mem_iff j, or_comm]
  · refine List.pairwise_append.mpr ⟨?_, List.pairwise_singleton _ _, ?_⟩
    · refine h.sorted.imp_of_mem ?_
      intro a b ha hb hab
      rwa [hother a ha, hother b hb]
    · intro a ha b hb
      rw [List.mem_singleton.mp hb, Function.update_self, hother a ha]
      exact h.bounded a ha
  · intro j hj
    rcases List.mem_append.mp hj with hj | hj
    · rw [hother j hj]
      exact (h.bounded j hj).trans (Nat.lt_succ_self next)
    · rw [List.mem_singleton.mp hj, Function.update_self]
      exact Nat.lt_succ_self next

theorem dequeue (h : Stamped live stamp next (i :: queue)) :
    Stamped (fun j => live j ∧ j ≠ i) stamp next queue := by
  refine ⟨?_, (List.pairwise_cons.mp h.sorted).2, fun j hj => h.bounded j (List.mem_cons_of_mem _ hj)⟩
  intro j
  rw [← h.mem_iff j, List.mem_cons]
  constructor
  · intro hj
    refine ⟨Or.inr hj, ?_⟩
    rintro rfl
    exact h.not_mem_tail hj
  · rintro ⟨rfl | hj, hne⟩
    · exact absurd rfl hne
    · exact hj

end Stamped

/-- One pass over the slots, keeping the live one with the smallest stamp so far. -/
def oldest (live : ι → Bool) (stamp : ι → ℕ) : List ι → Option ι → Option ι
  | [], best => best
  | i :: slots, best =>
    if live i && best.all (fun b => stamp i < stamp b) then oldest live stamp slots (some i)
    else oldest live stamp slots best

theorem oldest_of_none {live : ι → Bool} (stamp : ι → ℕ) :
    ∀ {slots : List ι} (best : Option ι), (∀ i ∈ slots, live i = false) →
      oldest live stamp slots best = best
  | [], _, _ => rfl
  | i :: slots, best, h => by
    have hi : live i = false := h i (by simp)
    simp only [oldest, hi, Bool.false_and, Bool.false_eq_true, if_false]
    exact oldest_of_none stamp best fun j hj => h j (List.mem_cons_of_mem _ hj)

/-- The pass returns the slot whose stamp is below that of every other live slot. -/
theorem oldest_eq_some {live : ι → Bool} {stamp : ι → ℕ} {first : ι}
    (hfirst : live first = true) (hmin : ∀ j, live j = true → j ≠ first → stamp first < stamp j) :
    ∀ {slots : List ι} {best : Option ι}, (first ∈ slots ∨ best = some first) →
      (∀ b, best = some b → live b = true) → oldest live stamp slots best = some first
  | [], best, hin, _ => by simpa [oldest] using hin
  | i :: slots, best, hin, hbest => by
    rw [oldest]
    by_cases hi : i = first
    · subst hi
      by_cases hb : best = some i
      · subst hb
        rw [if_neg (by simp)]
        exact oldest_eq_some hfirst hmin (Or.inr rfl) hbest
      · have hall : best.all (fun b => stamp i < stamp b) = true := by
          cases best with
          | none => rfl
          | some b => simpa using hmin b (hbest b rfl) (fun h => hb (by rw [h]))
        rw [if_pos (by simp [hfirst, hall])]
        exact oldest_eq_some hfirst hmin (Or.inr rfl) (by simp [hfirst])
    · have hrest : first ∈ slots ∨ best = some first := by
        rcases hin with hin | hin
        · exact Or.inl ((List.mem_cons.mp hin).resolve_left fun h => hi h.symm)
        · exact Or.inr hin
      by_cases hlive : live i = true ∧ best.all (fun b => stamp i < stamp b) = true
      · rw [if_pos (by simp [hlive.1, hlive.2])]
        have hlater : first ∈ slots := by
          rcases hrest with hrest | rfl
          · exact hrest
          · have hlt : stamp i < stamp first := by simpa using hlive.2
            exact absurd (hmin i hlive.1 hi) (by omega)
        refine oldest_eq_some hfirst hmin (Or.inl hlater) ?_
        intro b hb
        rw [← Option.some.inj hb]
        exact hlive.1
      · rw [if_neg (by simpa using hlive)]
        exact oldest_eq_some hfirst hmin hrest hbest

/-- Scanning all the slots finds the front of the queue. -/
theorem Stamped.oldest_eq_head {live : ι → Bool} {stamp : ι → ℕ} {next : ℕ} {queue slots : List ι}
    (h : Stamped (fun i => live i = true) stamp next queue) (hall : ∀ i, i ∈ slots) :
    oldest live stamp slots none = queue.head? := by
  cases queue with
  | nil =>
    refine oldest_of_none stamp none fun i _ => ?_
    simpa using (h.mem_iff i).not.mp List.not_mem_nil
  | cons first queue =>
    have hfirst : live first = true := (h.mem_iff first).mp (by simp)
    refine oldest_eq_some hfirst ?_ (Or.inl (hall first)) (by simp)
    intro j hj hne
    have hmem : j ∈ first :: queue := (h.mem_iff j).mpr hj
    exact (List.pairwise_cons.mp h.sorted).1 j ((List.mem_cons.mp hmem).resolve_left hne)

end QTrace.Lib
