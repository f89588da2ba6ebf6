import QTrace.Lib.ResetFold

/-! Reading a long stretch in pieces of bounded size. The pieces of a stretch, one after the
other, are the stretch. -/

namespace QTrace.Lib

variable {α : Type} {size : ℕ}

/-- `count` items from `start` on. -/
def window (items : List α) (start count : ℕ) : List α := (items.drop start).take count

variable {items : List α}

theorem length_window {start count : ℕ} (h : start + count ≤ items.length) :
    (window items start count).length = count := by
  rw [window, List.length_take, List.length_drop]
  omega

theorem window_append {a b c : List α} {start count : ℕ} (ha : a.length = start) (hb : b.length = count) :
    window (a ++ (b ++ c)) start count = b := by
  rw [window, List.drop_left' ha, List.take_left' hb]

theorem window_append_right (a b : List α) (start count : ℕ) :
    window (a ++ b) (a.length + start) count = window b start count := by
  rw [window, window, List.drop_append, List.drop_of_length_le (by omega), List.nil_append, Nat.add_sub_cancel_left]

theorem window_append_left {a b : List α} {start count : ℕ} (h : start + count ≤ a.length) :
    window (a ++ b) start count = window a start count := by
  rw [window, window, List.drop_append_of_le_length (by omega), List.take_append_of_le_length]
  rw [List.length_drop]
  omega

theorem window_window {start count first : ℕ} (h : first + size ≤ count) :
    window (window items start count) first size = window items (start + first) size := by
  rw [window, window, window, List.drop_take, List.drop_drop, List.take_take, Nat.min_eq_left (by omega)]

/-- A piece of a stretch: its number, where it starts and what it holds. -/
structure Span where
  index : ℕ
  start : ℕ
  count : ℕ
  deriving DecidableEq

/-- The pieces of at most `size` items that make up `length` items. -/
def spans (size length : ℕ) : List Span :=
  (List.range ((length + (size - 1)) / size)).map fun i => ⟨i, i * size, min size (length - i * size)⟩

variable {span : Span}

theorem mem_spans {length : ℕ} (h : span ∈ spans size length) :
    span.start = span.index * size ∧ span.start < length ∧ span.count = min size (length - span.start) := by
  obtain ⟨i, hi, rfl⟩ := List.mem_map.mp h
  rw [List.mem_range] at hi
  rcases Nat.eq_zero_or_pos size with rfl | hsize
  · simp at hi
  · have hmul := (Nat.le_div_iff_mul_le hsize).mp hi
    rw [Nat.succ_mul] at hmul
    exact ⟨rfl, show i * size < length by omega, rfl⟩

theorem span_le {length : ℕ} (h : span ∈ spans size length) : span.start + span.count ≤ length := by
  obtain ⟨-, hstart, hcount⟩ := mem_spans h
  omega

theorem span_dvd {length d : ℕ} (h : span ∈ spans size length) (hsize : d ∣ size) (hlength : d ∣ length) :
    d ∣ span.start ∧ d ∣ span.count := by
  obtain ⟨hstart, -, hcount⟩ := mem_spans h
  have hd : d ∣ span.start := hstart ▸ Dvd.dvd.mul_left hsize _
  refine ⟨hd, ?_⟩
  rw [hcount]
  rcases min_choice size (length - span.start) with heq | heq <;> rw [heq]
  · exact hsize
  · exact Nat.dvd_sub hlength hd

theorem flatMap_range_window (items : List α) (size length k : ℕ) :
    (List.range k).flatMap (fun i => window items (i * size) (min size (length - i * size))) =
      items.take (min (k * size) length) := by
  induction k with
  | zero => simp
  | succ k ih =>
    rw [List.range_succ, List.flatMap_append, ih, List.flatMap_singleton, window]
    rcases Nat.le_total length (k * size) with hle | hle
    · rw [Nat.min_eq_right hle, Nat.sub_eq_zero_of_le hle, Nat.min_zero, List.take_zero, List.append_nil,
        Nat.min_eq_right (hle.trans (Nat.mul_le_mul_right _ (Nat.le_succ k)))]
    · rw [Nat.min_eq_left hle, ← List.take_add, Nat.succ_mul]
      congr 1
      omega

theorem flatMap_spans (items : List α) (hsize : 0 < size) (length : ℕ) :
    (spans size length).flatMap (fun span => window items span.start span.count) = items.take length := by
  rw [spans, List.flatMap_map, flatMap_range_window, Nat.min_eq_right]
  have hdiv := Nat.div_add_mod (length + (size - 1)) size
  have hmod := Nat.mod_lt (length + (size - 1)) hsize
  rw [Nat.mul_comm]
  omega

theorem foldlM_collect {η β : Type} {l : List β} {f : β → List α} {step : List α → β → Except η (List α)}
    (hstep : ∀ done, ∀ b ∈ l, step done b = .ok (done ++ f b)) (done : List α) :
    l.foldlM step done = .ok (done ++ l.flatMap f) := by
  induction l generalizing done with
  | nil => simp [pure, Except.pure]
  | cons b l ih =>
    rw [List.foldlM_cons, hstep done b List.mem_cons_self]
    refine (ih (fun done c hc => hstep done c (List.mem_cons_of_mem _ hc)) (done ++ f b)).trans ?_
    rw [List.flatMap_cons, List.append_assoc]

end QTrace.Lib
