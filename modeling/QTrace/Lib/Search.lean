import Mathlib

/-! Binary search for the first index at which a predicate fails, and the pieces of a
list sorted by a key that such an index cuts off. -/

namespace QTrace.Lib

/-- The search over the window from `low` to `high`, for `fuel` halvings. -/
def upperBoundFrom (before : ℕ → Bool) : ℕ → ℕ → ℕ → ℕ
  | 0, low, _ => low
  | fuel + 1, low, high =>
    if low < high then
      let middle := low + (high - low) / 2
      if before middle then upperBoundFrom before fuel (middle + 1) high
      else upperBoundFrom before fuel low middle
    else low

def upperBound (len : ℕ) (before : ℕ → Bool) : ℕ := upperBoundFrom before len 0 len

section Search

variable {before : ℕ → Bool}

/-- The window closes in: the result lies in it, the predicate holds right before the
result unless nothing was tested there, and fails at it likewise. -/
theorem upperBoundFrom_spec (fuel low high : ℕ) (hle : low ≤ high) (hfuel : high - low ≤ fuel) :
    let r := upperBoundFrom before fuel low high
    low ≤ r ∧ r ≤ high ∧ (r = low ∨ ∃ k, r = k + 1 ∧ before k) ∧ (r = high ∨ before r = false) := by
  induction fuel generalizing low high with
  | zero =>
    have heq : low = high := by omega
    simp [upperBoundFrom, heq]
  | succ fuel ih =>
    rw [upperBoundFrom]
    dsimp only
    split
    · rename_i hlt
      split
      · rename_i hmid
        have hle : low ≤ low + (high - low) / 2 + 1 := by omega
        obtain ⟨h1, h2, h3, h4⟩ := ih (low + (high - low) / 2 + 1) high (by omega) (by omega)
        refine ⟨hle.trans h1, h2, .inr ?_, h4⟩
        rcases h3 with h3 | h3
        · exact ⟨_, h3, hmid⟩
        · exact h3
      · rename_i hmid
        have hle : low + (high - low) / 2 ≤ high := by omega
        obtain ⟨h1, h2, h3, h4⟩ := ih low (low + (high - low) / 2) (by omega) (by omega)
        refine ⟨h1, h2.trans hle, h3, .inr ?_⟩
        rcases h4 with h4 | h4
        · rw [h4]
          exact Bool.eq_false_iff.mpr hmid
        · exact h4
    · rename_i hlt
      exact ⟨le_rfl, hle, .inl rfl, .inl (by omega)⟩

theorem upperBound_le (len : ℕ) : upperBound len before ≤ len :=
  (upperBoundFrom_spec len 0 len (Nat.zero_le _) (by omega)).2.1

theorem before_of_upperBound {len k : ℕ} (h : upperBound len before = k + 1) : before k := by
  obtain ⟨-, -, h3, -⟩ := @upperBoundFrom_spec before len 0 len (Nat.zero_le _) (by omega)
  rw [show upperBoundFrom before len 0 len = k + 1 from h] at h3
  rcases h3 with h3 | ⟨k', hk, h3⟩
  · omega
  · rwa [show k = k' by omega]

theorem not_before_upperBound {len : ℕ} (h : upperBound len before < len) :
    before (upperBound len before) = false := by
  obtain ⟨-, -, -, h4⟩ := @upperBoundFrom_spec before len 0 len (Nat.zero_le _) (by omega)
  rcases h4 with h4 | h4
  · exact absurd (show upperBound len before = len from h4) (by omega)
  · exact h4

end Search

section Cut

variable {α : Type} {p : α → Bool} {l : List α}

/-- The elements with `p` come first, and `r` is where they end. -/
theorem take_drop_of_cut (hl : l.Pairwise fun a b => p b → p a) {r : ℕ}
    (hbefore : ∀ k, r = k + 1 → ∃ a, l[k]? = some a ∧ p a) (hafter : ∀ a, l[r]? = some a → p a = false) :
    l.take r = l.filter p ∧ l.drop r = l.filter (!p ·) := by
  induction l generalizing r with
  | nil => simp
  | cons b l ih =>
    obtain ⟨hb, hl⟩ := List.pairwise_cons.mp hl
    cases r with
    | zero =>
      have hall : ∀ c ∈ b :: l, p c = false := by
        intro c hc
        rcases List.mem_cons.mp hc with rfl | hc
        · exact hafter c rfl
        · exact Bool.eq_false_iff.mpr fun hpc => Bool.eq_false_iff.mp (hafter b rfl) (hb c hc hpc)
      constructor
      · exact (List.filter_eq_nil_iff.mpr fun c hc => by simp [hall c hc]).symm
      · exact (List.filter_eq_self.mpr fun c hc => by simp [hall c hc]).symm
    | succ r =>
      obtain ⟨a, ha, hpa⟩ := hbefore r rfl
      have hpb : p b := by
        cases r with
        | zero =>
          obtain rfl : b = a := by simpa using ha
          exact hpa
        | succ r => exact hb a (List.mem_of_getElem? (show l[r]? = some a by simpa using ha)) hpa
      obtain ⟨h1, h2⟩ := ih hl (r := r)
        (fun k hk => by
          subst hk
          exact ⟨a, by simpa using ha, hpa⟩)
        (fun c hc => hafter c (by simpa using hc))
      rw [List.take_succ_cons, List.drop_succ_cons, List.filter_cons_of_pos hpb,
        List.filter_cons_of_neg (by simp [hpb]), h1, h2]
      exact ⟨rfl, rfl⟩

/-- The first place where `p` fails, by binary search. -/
def partitionPoint (l : List α) (p : α → Bool) : ℕ := upperBound l.length fun i => l[i]?.any p

theorem partitionPoint_le (l : List α) (p : α → Bool) : partitionPoint l p ≤ l.length := upperBound_le _

theorem last_of_partitionPoint {k : ℕ} (h : partitionPoint l p = k + 1) : ∃ a, l[k]? = some a ∧ p a := by
  have h := before_of_upperBound h
  cases ha : l[k]? with
  | none => simp [ha] at h
  | some a => exact ⟨a, rfl, by simpa [ha] using h⟩

theorem partitionPoint_cut (hl : l.Pairwise fun a b => p b → p a) :
    l.take (partitionPoint l p) = l.filter p ∧ l.drop (partitionPoint l p) = l.filter (!p ·) := by
  apply take_drop_of_cut hl
  · intro k hk
    exact last_of_partitionPoint hk
  · intro a ha
    have h := not_before_upperBound (List.getElem?_eq_some_iff.mp ha).1
    rw [partitionPoint] at ha
    simpa [ha] using h

end Cut

section Sorted

variable {α : Type} {f : α → ℕ} {l : List α}

theorem filter_lt_eq_nil {a : α} (h : ∀ c ∈ l, f a < f c) {t : ℕ} (ht : t ≤ f a + 1) :
    (l.filter fun c => f c < t) = [] := by
  refine List.filter_eq_nil_iff.mpr fun c hc => ?_
  have := h c hc
  simp only [decide_eq_true_eq]
  omega

theorem filter_lt_succ (hl : l.Pairwise (f · < f ·)) {a : α} (ha : a ∈ l) :
    (l.filter fun b => f b < f a + 1) = (l.filter fun b => f b < f a) ++ [a] := by
  induction l with
  | nil => cases ha
  | cons b l ih =>
    obtain ⟨hb, hl⟩ := List.pairwise_cons.mp hl
    rcases List.mem_cons.mp ha with rfl | ha
    · rw [List.filter_cons_of_pos (by simp), List.filter_cons_of_neg (by simp),
        filter_lt_eq_nil hb le_rfl, filter_lt_eq_nil hb (Nat.le_succ _)]
      rfl
    · have hlt := hb a ha
      rw [List.filter_cons_of_pos (by simpa using Nat.lt_succ_of_lt hlt),
        List.filter_cons_of_pos (by simpa using hlt), ih hl ha, List.cons_append]

theorem length_filter_of_getElem? (hl : l.Pairwise (f · < f ·)) {i : ℕ} {a : α} (ha : l[i]? = some a) :
    (l.filter fun b => f b < f a).length = i ∧ (l.filter fun b => f b < f a + 1).length = i + 1 := by
  rw [filter_lt_succ hl (List.mem_of_getElem? ha), List.length_append, List.length_singleton]
  refine (and_iff_left_of_imp fun h => by rw [h]).mpr ?_
  induction l generalizing i with
  | nil => simp at ha
  | cons b l ih =>
    obtain ⟨hb, hl⟩ := List.pairwise_cons.mp hl
    cases i with
    | zero =>
      obtain rfl : b = a := by simpa using ha
      rw [List.filter_cons_of_neg (by simp), filter_lt_eq_nil hb (Nat.le_succ _)]
      rfl
    | succ i =>
      have ha : l[i]? = some a := by simpa using ha
      rw [List.filter_cons_of_pos (by simpa using hb a (List.mem_of_getElem? ha)), List.length_cons, ih hl ha]

theorem upperBound_cut (hl : l.Pairwise (f · < f ·)) (t : ℕ) :
    let r := upperBound l.length fun i => l[i]?.any fun a => f a ≤ t
    l.take r = l.filter (fun a => f a ≤ t) ∧ l.drop r = l.filter (fun a => t < f a) := by
  have hcut := partitionPoint_cut (p := fun a => decide (f a ≤ t)) (hl.imp fun hab hb => by
    simp only [decide_eq_true_eq] at hb ⊢
    omega)
  simpa only [partitionPoint, ← decide_not, not_le] using hcut

theorem filter_append_filter (hl : l.Pairwise (f · ≤ f ·)) (n : ℕ) :
    l.filter (fun a => f a < n) ++ l.filter (fun a => n ≤ f a) = l := by
  induction l with
  | nil => rfl
  | cons b l ih =>
    obtain ⟨hb, hl⟩ := List.pairwise_cons.mp hl
    by_cases hlt : f b < n
    · rw [List.filter_cons_of_pos (by simpa using hlt), List.filter_cons_of_neg (by simpa using hlt),
        List.cons_append, ih hl]
    · have hall : ∀ c ∈ b :: l, n ≤ f c := by
        intro c hc
        rcases List.mem_cons.mp hc with rfl | hc
        · omega
        · have := hb c hc
          omega
      rw [List.filter_eq_nil_iff.mpr, List.filter_eq_self.mpr, List.nil_append]
      · simpa using hall
      · intro c hc
        simpa using hall c hc

theorem drop_length_filter (hl : l.Pairwise (f · ≤ f ·)) (n : ℕ) :
    l.drop (l.filter fun a => f a < n).length = l.filter fun a => n ≤ f a := by
  have h := congrArg (List.drop (l.filter fun a => f a < n).length) (filter_append_filter hl n)
  rw [← h, List.drop_left]

theorem takeWhile_eq_nil {p : α → Bool} (h : ∀ a ∈ l, p a = false) : l.takeWhile p = [] := by
  cases l with
  | nil => rfl
  | cons b l => rw [List.takeWhile_cons_of_neg (by simp [h b])]

end Sorted

section ThreeWay

variable {α : Type} {probe : ℕ → Option (α × Ordering)}

/-- The search over the window from `left` to `right`, for `fuel` halvings. The probe of a place gives
its entry and how that compares with what is sought. -/
def searchFrom (probe : ℕ → Option (α × Ordering)) : ℕ → ℕ → ℕ → Option α
  | 0, _, _ => none
  | fuel + 1, left, right =>
    if left < right then
      let middle := left + (right - left) / 2
      match probe middle with
      | none => none
      | some (_, .lt) => searchFrom probe fuel (middle + 1) right
      | some (_, .gt) => searchFrom probe fuel left middle
      | some (a, .eq) => some a
    else none

/-- The first `n` places can be probed, and their entries ascend. -/
structure Ascends (probe : ℕ → Option (α × Ordering)) (n : ℕ) : Prop where
  total : ∀ i < n, ∃ a order, probe i = some (a, order)
  below : ∀ i j a b order, i ≤ j → probe i = some (a, order) → probe j = some (b, .lt) → order = .lt
  above : ∀ i j a b order, i ≤ j → probe i = some (a, .gt) → probe j = some (b, order) → order = .gt

theorem searchFrom_sound {fuel left right : ℕ} {a : α} (h : searchFrom probe fuel left right = some a) :
    ∃ i, left ≤ i ∧ i < right ∧ probe i = some (a, .eq) := by
  fun_induction searchFrom probe fuel left right with
  | case1 left right => cases h
  | case2 fuel left right hlt middle hprobe => cases h
  | case3 fuel left right hlt middle b hprobe ih =>
    obtain ⟨i, hleft, hright, hi⟩ := ih h
    have : middle = left + (right - left) / 2 := rfl
    exact ⟨i, by omega, hright, hi⟩
  | case4 fuel left right hlt middle b hprobe ih =>
    obtain ⟨i, hleft, hright, hi⟩ := ih h
    have : middle = left + (right - left) / 2 := rfl
    exact ⟨i, hleft, by omega, hi⟩
  | case5 fuel left right hlt middle b hprobe =>
    have : middle = left + (right - left) / 2 := rfl
    exact ⟨middle, by omega, by omega, Option.some.inj h ▸ hprobe⟩
  | case6 fuel left right hlt => cases h

theorem searchFrom_complete {n : ℕ} (h : Ascends probe n) {fuel left right i : ℕ} {a : α} (hn : right ≤ n)
    (hfuel : right - left ≤ fuel) (hleft : left ≤ i) (hright : i < right) (hi : probe i = some (a, .eq)) :
    (searchFrom probe fuel left right).isSome := by
  fun_induction searchFrom probe fuel left right with
  | case1 left right => omega
  | case2 fuel left right hlt middle hprobe =>
    obtain ⟨b, order, hb⟩ := h.total middle (by omega)
    simp [hb] at hprobe
  | case3 fuel left right hlt middle b hprobe ih =>
    -- an entry below what is sought has only such entries before it
    have hmiddle : middle < i := by
      by_contra hge
      cases h.below i middle a b .eq (by omega) hi hprobe
    exact ih hn (by omega) hmiddle hright
  | case4 fuel left right hlt middle b hprobe ih =>
    have hmiddle : i < middle := by
      by_contra hge
      cases h.above middle i b a .eq (by omega) hprobe hi
    exact ih (by omega) (by omega) hleft hmiddle
  | case5 fuel left right hlt middle b hprobe => rfl
  | case6 fuel left right hlt => omega

end ThreeWay

end QTrace.Lib
