import Mathlib

/-! Stable radix sort, least significant digit first, on row numbers. A pass counts the
digits, turns the counts into bucket starts and scatters the rows into the buckets; at the
end the values are moved into place by following the cycles of the order. A pass is the
concatenation of its buckets, so the whole sort is stable and sorts by the number the
digits spell. -/

namespace QTrace.Lib.RadixSort

variable {α : Type*}

/-- How often each digit occurs. -/
def countDigits (digit : α → ℕ) (order : List α) : ℕ → ℕ :=
  order.foldl (fun counts source => Function.update counts (digit source) (counts (digit source) + 1)) fun _ => 0

/-- Where each bucket starts. -/
def bucketStart (counts : ℕ → ℕ) : ℕ → ℕ
  | 0 => 0
  | b + 1 => bucketStart counts b + counts b

/-- Rows go to the next free place of their bucket. -/
def scatter (digit : α → ℕ) : List α → (ℕ → ℕ) → List α → List α
  | [], _, scratch => scratch
  | source :: order, positions, scratch =>
    scatter digit order (Function.update positions (digit source) (positions (digit source) + 1))
      (scratch.set (positions (digit source)) source)

/-- One pass; the old order serves as the next scratch space. -/
def pass (digit : α → ℕ) (order scratch : List α) : List α :=
  scatter digit order (bucketStart (countDigits digit order)) scratch

/-- The passes over `order`, with the scratch space swapped each time. -/
def passes (digit : ℕ → α → ℕ) : ℕ → List α → List α → List α × List α
  | 0, order, scratch => (order, scratch)
  | k + 1, order, scratch =>
    let previous := passes digit k order scratch
    (pass (digit k) previous.1 previous.2, previous.1)

/-- Follow the cycle of `start` and move its values into place; rows that are done are
marked by the identity. A cycle has at most `n` rows, which bounds the loop. -/
def followCycle {n : ℕ} (start : Fin n) : ℕ → Fin n → (Fin n → α) → (Fin n → Fin n) → (Fin n → α) × (Fin n → Fin n)
  | 0, _, values, order => (values, order)
  | fuel + 1, current, values, order =>
    let source := order current
    let order := Function.update order current current
    if source = start then (values, order)
    else followCycle start fuel source (values ∘ Equiv.swap current source) order

/-- How many values the walk moves. -/
def cycleSteps {n : ℕ} (start : Fin n) : ℕ → Fin n → (Fin n → Fin n) → ℕ
  | 0, _, _ => 0
  | fuel + 1, current, order =>
    if order current = start then 0
    else cycleSteps start fuel (order current) (Function.update order current current) + 1

def reorder {n : ℕ} (values : Fin n → α) (order : Fin n → Fin n) : Fin n → α :=
  ((List.finRange n).foldl (fun st start => followCycle start n start st.1 st.2) (values, order)).1

/-- The sort: `digit k` is the digit of pass `k`. -/
def radixSort (digit : ℕ → α → ℕ) (count : ℕ) (values : List α) : List α :=
  if values.length < 2 then values
  else
    let rows := List.finRange values.length
    let order := (passes (fun k row => digit k (values.get row)) count rows rows).1
    List.ofFn (reorder values.get fun row => order.getD row row)

section

variable {κ : Type*} [DecidableEq κ] {keys : List κ} (hnodup : keys.Nodup)
 {d : κ} {f : α → κ}include hnodup

theorem flatMap_ite_eq (hd : d ∈ keys) (l : List α) : keys.flatMap (fun b => if b = d then l else []) = l := by
  induction keys with
  | nil => cases hd
  | cons b keys ih =>
    obtain ⟨hnew, hnodup⟩ := List.nodup_cons.1 hnodup
    rw [List.flatMap_cons]
    by_cases hb : b = d
    · subst hb
      have hothers : ∀ c ∈ keys, (if c = b then l else []) = [] := fun c hc => if_neg fun h : c = b => hnew (h ▸ hc)
      rw [if_pos rfl, List.flatMap_eq_nil_iff.2 hothers, List.append_nil]
    · rw [if_neg hb, List.nil_append, ih hnodup ((List.mem_cons.1 hd).resolve_left (Ne.symm hb))]

/-- Elements of one group keep their order. -/
theorem filter_groups {p : α → Bool} (hd : d ∈ keys) (hp : ∀ x, p x = true → f x = d) (l : List α) :
    (keys.flatMap fun b => l.filter fun x => f x = b).filter p = l.filter p := by
  have hgroup : ∀ b, (l.filter fun x => f x = b).filter p = if b = d then l.filter p else [] := by
    intro b
    rw [List.filter_filter]
    split_ifs with hb
    · refine List.filter_congr fun x _ => ?_
      cases hx : p x with
      | false => rfl
      | true => simp [hp x hx, hb]
    · refine List.filter_eq_nil_iff.2 fun x _ hx => ?_
      rw [Bool.and_eq_true, decide_eq_true_eq] at hx
      exact hb (hx.2.symm.trans (hp x hx.1))
  rw [List.filter_flatMap, List.flatMap_congr fun b _ => hgroup b, flatMap_ite_eq hnodup hd]

open Classical in
theorem groups_perm {l : List α} (hcovered : ∀ x ∈ l, f x ∈ keys) :
    (keys.flatMap fun b => l.filter fun x => f x = b).Perm l := by
  rw [List.perm_iff_count]
  intro a
  by_cases ha : a ∈ l
  · rw [List.count_eq_length_filter, List.count_eq_length_filter,
      filter_groups hnodup (hcovered a ha) fun x hx => by rw [eq_of_beq hx]]
  · rw [List.count_eq_zero.2 ha, List.count_eq_zero]
    simp [ha]

end

/-- The buckets one after the other, each in the given order. -/
def buckets (base : ℕ) (digit : α → ℕ) (order : List α) : List α :=
  (List.range base).flatMap fun b => order.filter fun x => digit x = b

theorem countDigits_eq (digit : α → ℕ) (order : List α) (b : ℕ) :
    countDigits digit order b = (order.filter fun x => digit x = b).length := by
  unfold countDigits
  induction order using List.reverseRecOn with
  | nil => rfl
  | append_singleton order x ih =>
    rw [List.foldl_concat, List.filter_append, List.length_append, ← ih]
    by_cases hx : digit x = b
    · simp [hx]
    · simp [hx, Function.update_of_ne (Ne.symm hx)]

theorem bucketStart_mono (counts : ℕ → ℕ) : Monotone (bucketStart counts) := by
  apply monotone_nat_of_le_succ
  intro b
  rw [bucketStart]
  omega

theorem bucketStart_eq (pieces : ℕ → List α) (d : ℕ) :
    bucketStart (fun b => (pieces b).length) d = ((List.range d).flatMap pieces).length := by
  induction d with
  | zero => rfl
  | succ d ih => simp [bucketStart, ih, List.range_succ]

theorem flatMap_range_set (pieces : ℕ → List α) {base d i : ℕ} (hd : d < base) (hi : i < (pieces d).length) (x : α) :
    ((List.range base).flatMap pieces).set (bucketStart (fun b => (pieces b).length) d + i) x =
      (List.range base).flatMap (Function.update pieces d ((pieces d).set i x)) := by
  induction base with
  | zero => omega
  | succ base ih =>
    simp only [List.range_succ, List.flatMap_append, List.flatMap_singleton]
    by_cases hlast : d = base
    · subst hlast
      have hfront : (List.range d).flatMap (Function.update pieces d ((pieces d).set i x)) =
          (List.range d).flatMap pieces := by
        apply List.flatMap_congr
        intro b hb
        rw [Function.update_of_ne (List.mem_range.1 hb).ne]
      rw [bucketStart_eq, List.set_append_right _ _ (by omega), Nat.add_sub_cancel_left, hfront, Function.update_self]
    · have hlt : d < base := by omega
      have hin : bucketStart (fun b => (pieces b).length) d + i < ((List.range base).flatMap pieces).length := by
        have hmono := bucketStart_mono (fun b => (pieces b).length) hlt
        rw [bucketStart] at hmono
        rw [← bucketStart_eq]
        omega
      rw [List.set_append_left _ _ hin, ih hlt, Function.update_of_ne (Ne.symm hlast)]

/-- The scatter halfway: every bucket holds the rows placed so far, and room for the rest. -/
theorem scatter_eq (digit : α → ℕ) {base : ℕ} (hdigit : ∀ x, digit x < base) (order : List α) :
    ∀ (placed free : ℕ → List α) (positions : ℕ → ℕ),
      (∀ b < base, (free b).length = (order.filter fun x => digit x = b).length) →
      (∀ b < base, positions b = bucketStart (fun b => (placed b ++ free b).length) b + (placed b).length) →
      scatter digit order positions ((List.range base).flatMap fun b => placed b ++ free b) =
        (List.range base).flatMap fun b => placed b ++ order.filter fun x => digit x = b := by
  induction order with
  | nil =>
    intro placed free positions hfree _
    apply List.flatMap_congr
    intro b hb
    rw [List.length_eq_zero_iff.1 (hfree b (List.mem_range.1 hb)), List.filter_nil]
  | cons x order ih =>
    intro placed free positions hfree hpositions
    -- the bucket of `x` has a free place, which `x` takes
    obtain ⟨gap, rest, hgap⟩ : ∃ gap rest, free (digit x) = gap :: rest := by
      apply List.exists_cons_of_length_pos
      rw [hfree _ (hdigit x), List.filter_cons_of_pos (by simp), List.length_cons]
      omega
    have hset := flatMap_range_set (fun b => placed b ++ free b) (i := (placed (digit x)).length) (hdigit x)
      (by simp [hgap]) x
    have hpieces : Function.update (fun b => placed b ++ free b) (digit x)
        ((placed (digit x) ++ free (digit x)).set (placed (digit x)).length x) =
          fun b => Function.update placed (digit x) (placed (digit x) ++ [x]) b ++ Function.update free (digit x) rest b := by
      funext b
      rcases eq_or_ne b (digit x) with rfl | hb
      · simp [hgap]
      · simp [hb]
    have hlengths : (fun b => (Function.update placed (digit x) (placed (digit x) ++ [x]) b ++
        Function.update free (digit x) rest b).length) = fun b => (placed b ++ free b).length := by
      funext b
      rcases eq_or_ne b (digit x) with rfl | hb
      · simp [hgap]
      · simp [hb]
    rw [scatter, hpositions _ (hdigit x), hset, hpieces, ih]
    · apply List.flatMap_congr
      intro b _
      by_cases hb : b = digit x
      · subst hb
        simp
      · rw [Function.update_of_ne hb, List.filter_cons_of_neg (by simpa using Ne.symm hb)]
    · intro b hbase
      have hlength := hfree b hbase
      by_cases hb : b = digit x
      · subst hb
        rw [hgap, List.filter_cons_of_pos (by simp), List.length_cons, List.length_cons] at hlength
        rw [Function.update_self]
        omega
      · rw [Function.update_of_ne hb, hlength, List.filter_cons_of_neg (by simpa using Ne.symm hb)]
    · intro b hbase
      rw [hlengths]
      by_cases hb : b = digit x
      · subst hb
        rw [Function.update_self, Function.update_self, List.length_append, List.length_singleton, Nat.add_assoc]
      · rw [Function.update_of_ne hb, Function.update_of_ne hb, hpositions b hbase]

theorem foldl_scatter (digit : α → ℕ) (order : List α) (positions : ℕ → ℕ) (scratch : List α) :
    (order.foldl (fun st source => (Function.update st.1 (digit source) (st.1 (digit source) + 1),
      st.2.set (st.1 (digit source)) source)) (positions, scratch)).2 = scatter digit order positions scratch := by
  induction order generalizing positions scratch with
  | nil => rfl
  | cons source order ih => exact ih _ _

theorem exists_pieces (lengths : ℕ → ℕ) (base : ℕ) (l : List α) (h : l.length = bucketStart lengths base) :
    ∃ pieces : ℕ → List α, (∀ b < base, (pieces b).length = lengths b) ∧ l = (List.range base).flatMap pieces := by
  induction base generalizing l with
  | zero => exact ⟨fun _ => [], by simp, List.length_eq_zero_iff.1 h⟩
  | succ base ih =>
    rw [bucketStart] at h
    obtain ⟨pieces, hpieces, hfront⟩ := ih (l.take (bucketStart lengths base)) (by rw [List.length_take]; omega)
    refine ⟨Function.update pieces base (l.drop (bucketStart lengths base)), fun b hb => ?_, ?_⟩
    · by_cases hlast : b = base
      · subst hlast
        rw [Function.update_self, List.length_drop]
        omega
      · rw [Function.update_of_ne hlast]
        exact hpieces b (by omega)
    · have hsame : (List.range base).flatMap (Function.update pieces base (l.drop (bucketStart lengths base))) =
          (List.range base).flatMap pieces := by
        apply List.flatMap_congr
        intro b hb
        rw [Function.update_of_ne (List.mem_range.1 hb).ne]
      rw [List.range_succ, List.flatMap_append, List.flatMap_singleton, hsame, Function.update_self, ← hfront,
        List.take_append_drop]

section

variable {base : ℕ} {digit : α → ℕ}

/-- Elements that agree in a digit keep their order. -/
theorem filter_buckets {p : α → Bool} {d : ℕ} (hd : d < base) (hp : ∀ x, p x = true → digit x = d)
    (order : List α) : (buckets base digit order).filter p = order.filter p :=
  filter_groups List.nodup_range (List.mem_range.2 hd) hp order

theorem buckets_perm (hdigit : ∀ x, digit x < base) (order : List α) : (buckets base digit order).Perm order :=
  groups_perm List.nodup_range fun x _ => List.mem_range.2 (hdigit x)

theorem length_buckets (hdigit : ∀ x, digit x < base) (order : List α) :
    (buckets base digit order).length = order.length := (buckets_perm hdigit order).length_eq

theorem pass_eq (hdigit : ∀ x, digit x < base) (order scratch : List α) (h : scratch.length = order.length) :
    pass digit order scratch = buckets base digit order := by
  have hcounts : countDigits digit order = fun b => (order.filter fun x => digit x = b).length := by
    funext b
    exact countDigits_eq digit order b
  have htotal : bucketStart (countDigits digit order) base = order.length := by
    rw [hcounts, bucketStart_eq]
    exact length_buckets hdigit order
  obtain ⟨free, hfree, rfl⟩ := exists_pieces (countDigits digit order) base scratch (h.trans htotal.symm)
  have hstart : ∀ b ≤ base, bucketStart (countDigits digit order) b = bucketStart (fun b => (free b).length) b := by
    intro b
    induction b with
    | zero => exact fun _ => rfl
    | succ b ih =>
      intro hb
      rw [bucketStart, bucketStart, ih (by omega), hfree b (by omega)]
  have hscatter := scatter_eq digit hdigit order (fun _ => []) free (bucketStart (countDigits digit order))
    (fun b hb => (hfree b hb).trans (countDigits_eq digit order b)) fun b hb => by simpa using hstart b hb.le
  simpa [pass, buckets] using hscatter

end

section

variable {n : ℕ} {old values : Fin n → α} {target order : Fin n → Fin n} {done : Finset (Fin n)}

/-- Between two cycles: the rows that are done are marked and hold their value, the others are
untouched, and the done rows are whole cycles. -/
structure Settled (old : Fin n → α) (target : Fin n → Fin n) (done : Finset (Fin n)) (values : Fin n → α)
    (order : Fin n → Fin n) : Prop where
  marks : order = fun x => if x ∈ done then x else target x
  values : values = fun x => old (if x ∈ done then target x else x)
  whole : ∀ y ∈ done, ∃ x ∈ done, target x = y

/-- Along a cycle: the row `current` holds the value of `start`. -/
structure Following (old : Fin n → α) (target : Fin n → Fin n) (start current : Fin n) (done : Finset (Fin n))
    (values : Fin n → α) (order : Fin n → Fin n) : Prop where
  marks : order = fun x => if x ∈ done then x else target x
  values : values = fun x => old (if x = current then start else if x ∈ done then target x else x)
  open_row : current ∉ done
  begun : start ∈ insert current done
  whole : ∀ y ∈ insert current done, y ≠ start → ∃ x ∈ done, target x = y

theorem Settled.start (h : Settled old target done values order) {start : Fin n} (hstart : start ∉ done) :
    Following old target start start done values order where
  marks := h.marks
  values := by
    rw [h.values]
    funext x
    split_ifs <;> simp_all
  open_row := hstart
  begun := Finset.mem_insert_self _ _
  whole y hy hne := h.whole y ((Finset.mem_insert.1 hy).resolve_left hne)

variable {start current : Fin n}

theorem update_marks (current : Fin n) :
    Function.update (fun x => if x ∈ done then x else target x) current current =
      fun x => if x ∈ insert current done then x else target x := by
  funext x
  by_cases hx : x = current <;> simp [hx]

section

variable (h : Following old target start current done values order)
include h

theorem Following.close (hclose : target current = start) :
    Settled old target (insert current done) values (Function.update order current current) where
  marks := by rw [h.marks, update_marks]
  values := by
    rw [h.values]
    funext x
    by_cases hx : x = current <;> simp [hx, hclose]
  whole y hy := by
    by_cases hy' : y = start
    · exact ⟨current, Finset.mem_insert_self _ _, hclose.trans hy'.symm⟩
    · obtain ⟨x, hx, hxy⟩ := h.whole y hy hy'
      exact ⟨x, Finset.mem_insert_of_mem hx, hxy⟩

/-- The next row of the cycle is fresh, because nothing else leads to it. -/
theorem Following.fresh (hinj : Function.Injective target) (hopen : target current ≠ start) :
    target current ∉ insert current done := by
  intro hmem
  obtain ⟨x, hx, hxy⟩ := h.whole _ hmem hopen
  exact h.open_row (hinj hxy ▸ hx)

theorem Following.step (hinj : Function.Injective target) (hopen : target current ≠ start) :
    Following old target start (target current) (insert current done) (values ∘ Equiv.swap current (target current))
      (Function.update order current current) := by
  have hfresh := h.fresh hinj hopen
  refine ⟨by rw [h.marks, update_marks], ?_, hfresh, Finset.mem_insert_of_mem h.begun, ?_⟩
  · rw [Finset.mem_insert, not_or] at hfresh
    rw [h.values]
    funext x
    rw [Function.comp_apply, Equiv.swap_apply_def]
    split_ifs <;> simp_all
  · intro y hy hstart
    rcases Finset.mem_insert.1 hy with rfl | hy
    · exact ⟨current, Finset.mem_insert_self _ _, rfl⟩
    · obtain ⟨x, hx, hxy⟩ := h.whole y hy hstart
      exact ⟨x, Finset.mem_insert_of_mem hx, hxy⟩

end

/-- The walk closes its cycle within its fuel. -/
theorem followCycle_settled (hinj : Function.Injective target) (fuel : ℕ) :
    ∀ {current : Fin n} {done : Finset (Fin n)} {values : Fin n → α} {order : Fin n → Fin n},
      Following old target start current done values order → n < done.card + fuel + 1 →
      ∃ done' : Finset (Fin n), insert current done ⊆ done' ∧
        cycleSteps start fuel current order + done.card + 1 = done'.card ∧
        Settled old target done' (followCycle start fuel current values order).1
          (followCycle start fuel current values order).2 := by
  induction fuel with
  | zero =>
    intro current done values order h hfuel
    have hcard := Finset.card_le_univ (insert current done)
    rw [Finset.card_insert_of_notMem h.open_row, Fintype.card_fin] at hcard
    omega
  | succ fuel ih =>
    intro current done values order h hfuel
    have hcard := Finset.card_insert_of_notMem h.open_row
    rw [followCycle, cycleSteps, (congrFun h.marks current).trans (if_neg h.open_row)]
    by_cases hclose : target current = start
    · rw [if_pos hclose, if_pos hclose]
      exact ⟨insert current done, subset_rfl, by omega, h.close hclose⟩
    · rw [if_neg hclose, if_neg hclose]
      obtain ⟨done', hsub, hsteps, hsettled⟩ := ih (h.step hinj hclose) (by omega)
      exact ⟨done', (Finset.subset_insert _ _).trans hsub, by omega, hsettled⟩

theorem Settled.followCycle (hinj : Function.Injective target) (h : Settled old target done values order)
    (start : Fin n) : ∃ done' : Finset (Fin n), insert start done ⊆ done' ∧
      cycleSteps start n start order + done.card ≤ done'.card ∧
      Settled old target done' (followCycle start n start values order).1 (followCycle start n start values order).2 := by
  by_cases hstart : start ∈ done
  · -- a marked row is its own source
    have hsource : order start = start := (congrFun h.marks start).trans (if_pos hstart)
    have hupdate : Function.update order start start = order := Function.update_eq_self_iff.mpr hsource.symm
    have hself : ∀ fuel, RadixSort.followCycle start fuel start values order = (values, order) ∧
        cycleSteps start fuel start order = 0 := by
      intro fuel
      cases fuel with
      | zero => exact ⟨rfl, rfl⟩
      | succ fuel => rw [RadixSort.followCycle, cycleSteps, hsource, if_pos rfl, if_pos rfl, hupdate]; exact ⟨rfl, rfl⟩
    rw [(hself n).1, (hself n).2, Finset.insert_eq_of_mem hstart]
    exact ⟨done, subset_rfl, (Nat.zero_add _).le, h⟩
  · obtain ⟨done', hsub, hsteps, hsettled⟩ := followCycle_settled hinj n (h.start hstart) (by omega)
    exact ⟨done', hsub, by omega, hsettled⟩

theorem reorder_eq (hinj : Function.Injective target) : reorder old target = old ∘ target := by
  have hrun : ∀ starts : List (Fin n), ∃ done : Finset (Fin n), (∀ x ∈ starts, x ∈ done) ∧ Settled old target done
      (starts.foldl (fun st start => followCycle start n start st.1 st.2) (old, target)).1
      (starts.foldl (fun st start => followCycle start n start st.1 st.2) (old, target)).2 := by
    intro starts
    induction starts using List.reverseRecOn with
    | nil => exact ⟨∅, by simp, by simp, by simp, by simp⟩
    | append_singleton starts start ih =>
      obtain ⟨done, hall, hsettled⟩ := ih
      obtain ⟨done', hsub, -, hlast⟩ := hsettled.followCycle hinj start
      rw [List.foldl_concat]
      refine ⟨done', fun x hx => hsub ?_, hlast⟩
      rcases List.mem_append.1 hx with hx | hx
      · exact Finset.mem_insert_of_mem (hall x hx)
      · exact List.mem_singleton.1 hx ▸ Finset.mem_insert_self _ _
  obtain ⟨done, hall, hsettled⟩ := hrun (List.finRange n)
  funext x
  exact (congrFun hsettled.values x).trans (congrArg old (if_pos (hall x (List.mem_finRange x))))

end

section

variable {base : ℕ} {digit : ℕ → α → ℕ}

/-- The passes as bucket concatenations. -/
def sortPasses (base : ℕ) (digit : ℕ → α → ℕ) : ℕ → List α → List α
  | 0, order => order
  | k + 1, order => buckets base (digit k) (sortPasses base digit k order)

/-- The number the first `k` digits spell. -/
def keyValue (base : ℕ) (digit : ℕ → α → ℕ) : ℕ → α → ℕ
  | 0, _ => 0
  | k + 1, x => keyValue base digit k x + digit k x * base ^ k

theorem sortPasses_perm (hdigit : ∀ k x, digit k x < base) (k : ℕ) (order : List α) :
    (sortPasses base digit k order).Perm order := by
  induction k with
  | zero => exact List.Perm.refl _
  | succ k ih => exact (buckets_perm (hdigit k) _).trans ih

theorem keyValue_lt (hdigit : ∀ k x, digit k x < base) (k : ℕ) (x : α) : keyValue base digit k x < base ^ k := by
  induction k with
  | zero => exact Nat.one_pos
  | succ k ih =>
    calc keyValue base digit (k + 1) x < base ^ k + digit k x * base ^ k := Nat.add_lt_add_right ih _
      _ = (digit k x + 1) * base ^ k := by ring
      _ ≤ base * base ^ k := Nat.mul_le_mul_right _ (hdigit k x)
      _ = base ^ (k + 1) := (pow_succ' base k).symm

/-- What weighs `weight` outweighs what is smaller. -/
theorem add_mul_lt {weight low low' high high' : ℕ} (h : high < high') (hlow : low < weight) :
    low + weight * high < low' + weight * high' := by
  have hmul := Nat.mul_le_mul_left weight (Nat.succ_le_of_lt h)
  rw [Nat.mul_succ] at hmul
  omega

theorem keyValue_add (j k : ℕ) (x : α) :
    keyValue base digit (j + k) x = keyValue base digit j x + base ^ j * keyValue base (fun i => digit (j + i)) k x := by
  induction k with
  | zero => simp [keyValue]
  | succ k ih =>
    rw [← Nat.add_assoc, keyValue, ih, keyValue, pow_add]
    ring

/-- The digits of a number that is small enough spell it. -/
theorem keyValue_eq {value k : ℕ} {x : α} (hlt : value < base ^ k) (h : ∀ i < k, digit i x = value / base ^ i % base) :
    keyValue base digit k x = value := by
  rw [← Nat.mod_eq_of_lt hlt]
  clear hlt
  induction k with
  | zero => rw [keyValue, pow_zero, Nat.mod_one]
  | succ k ih =>
    rw [keyValue, ih fun i hi => h i (hi.trans k.lt_succ_self), h k k.lt_succ_self, Nat.mod_pow_succ, Nat.mul_comm]

theorem sortPasses_pairwise (hdigit : ∀ k x, digit k x < base) (k : ℕ) (order : List α) :
    (sortPasses base digit k order).Pairwise fun x y => keyValue base digit k x ≤ keyValue base digit k y := by
  induction k with
  | zero => exact List.pairwise_iff_getElem.2 fun _ _ _ _ _ => le_rfl
  | succ k ih =>
    rw [sortPasses, buckets, List.pairwise_flatMap]
    refine ⟨fun b _ => ?_, ?_⟩
    · apply (ih.filter _).imp_of_mem
      intro x y hx hy hxy
      simp only [List.mem_filter, decide_eq_true_eq] at hx hy
      rw [keyValue, keyValue, hx.2, hy.2]
      exact Nat.add_le_add_right hxy _
    · apply List.pairwise_lt_range.imp
      intro b c hbc x hx y hy
      simp only [List.mem_filter, decide_eq_true_eq] at hx hy
      rw [keyValue, keyValue, hx.2, hy.2, Nat.mul_comm b, Nat.mul_comm c]
      exact (add_mul_lt hbc (keyValue_lt hdigit k x)).le

theorem compare_add_mul {weight low low' : ℕ} (hlow : low < weight) (hlow' : low' < weight) (high high' : ℕ) :
    compare (low + weight * high) (low' + weight * high') = (compare high high').then (compare low low') := by
  rcases lt_trichotomy high high' with h | rfl | h
  · rw [Nat.compare_eq_lt.2 h, Nat.compare_eq_lt.2 (add_mul_lt h hlow)]
    rfl
  · rw [Nat.compare_eq_eq.2 rfl, Ordering.eq_then]
    simp [compare, compareOfLessAndEq]
  · rw [Nat.compare_eq_gt.2 h, Nat.compare_eq_gt.2 (add_mul_lt h hlow')]
    rfl

theorem compare_keyValue_add (hdigit : ∀ k x, digit k x < base) (j k : ℕ) (x y : α) :
    compare (keyValue base digit (j + k) x) (keyValue base digit (j + k) y) =
      (compare (keyValue base (fun i => digit (j + i)) k x) (keyValue base (fun i => digit (j + i)) k y)).then
        (compare (keyValue base digit j x) (keyValue base digit j y)) := by
  rw [keyValue_add, keyValue_add, compare_add_mul (keyValue_lt hdigit j x) (keyValue_lt hdigit j y)]

theorem filter_sortPasses {p : α → Bool} {d : ℕ → ℕ} (hd : ∀ k, d k < base) {k : ℕ}
    (hp : ∀ i < k, ∀ x, p x = true → digit i x = d i) (order : List α) :
    (sortPasses base digit k order).filter p = order.filter p := by
  induction k with
  | zero => rfl
  | succ k ih => rw [sortPasses, filter_buckets (hd k) (hp k k.lt_succ_self), ih fun i hi => hp i (hi.trans k.lt_succ_self)]

theorem map_buckets {β : Type*} (f : β → α) (digit : α → ℕ) (order : List β) :
    (buckets base (fun row => digit (f row)) order).map f = buckets base digit (order.map f) := by
  rw [buckets, buckets, List.map_flatMap]
  apply List.flatMap_congr
  intro b _
  rw [List.filter_map]
  rfl

theorem map_sortPasses {β : Type*} (f : β → α) (k : ℕ) (order : List β) :
    (sortPasses base (fun k row => digit k (f row)) k order).map f = sortPasses base digit k (order.map f) := by
  induction k with
  | zero => rfl
  | succ k ih =>
    rw [sortPasses, map_buckets, ih]
    rfl

theorem passes_eq (hdigit : ∀ k x, digit k x < base) (k : ℕ) {order scratch : List α}
    (h : scratch.length = order.length) :
    (passes digit k order scratch).1 = sortPasses base digit k order ∧
      (passes digit k order scratch).2.length = order.length := by
  induction k with
  | zero => exact ⟨rfl, h⟩
  | succ k ih =>
    obtain ⟨hfirst, hsecond⟩ := ih
    have hlength := (sortPasses_perm hdigit k order).length_eq
    refine ⟨?_, ?_⟩
    · show pass (digit k) (passes digit k order scratch).1 (passes digit k order scratch).2 = _
      rw [pass_eq (hdigit k) _ _ (by rw [hfirst, hlength, hsecond]), hfirst]
      rfl
    · show (passes digit k order scratch).1.length = _
      rw [hfirst, hlength]

section

variable (hdigit : ∀ k x, digit k x < base) (count : ℕ)
include hdigit

/-- At most one value: there is only one arrangement. -/
theorem sortPasses_short {values : List α} (hshort : values.length < 2) :
    sortPasses base digit count values = values := by
  have hperm := sortPasses_perm hdigit count values
  match values, hshort with
  | [], _ => exact List.perm_nil.1 hperm
  | [x], _ => exact List.perm_singleton.1 hperm

/-- The sorted rows name a source for every place, each once, and sort the values. -/
theorem sources_sortPasses (values : List α) {order : List (Fin values.length)}
    (horder : order = sortPasses base (fun k row => digit k (values.get row)) count (List.finRange values.length)) :
    Function.Injective (fun row : Fin values.length => order.getD row row) ∧
      List.ofFn (values.get ∘ fun row => order.getD row row) = sortPasses base digit count values := by
  have hpermutes : order.Perm (List.finRange values.length) :=
    horder ▸ sortPasses_perm (fun k row => hdigit k (values.get row)) count _
  have hlength : order.length = values.length := by rw [hpermutes.length_eq, List.length_finRange]
  have hnodup : order.Nodup := hpermutes.nodup_iff.2 (List.nodup_finRange _)
  have hget : ∀ row : Fin values.length, order.getD row row = order.get ⟨row, by rw [hlength]; exact row.isLt⟩ :=
    fun row => List.getD_eq_getElem _ _ _
  have hmap : order.map values.get = sortPasses base digit count values := by
    rw [horder, map_sortPasses, List.map_get_finRange]
  constructor
  · intro a b hab
    simp only [hget] at hab
    have hfin := hnodup.injective_get hab
    exact Fin.ext (by simpa using hfin)
  · rw [← hmap]
    apply List.ext_getElem
    · rw [List.length_ofFn, List.length_map, hlength]
    · intro i h1 h2
      rw [List.getElem_ofFn, List.getElem_map, Function.comp_apply, hget]
      rfl

theorem radixSort_eq (values : List α) : radixSort digit count values = sortPasses base digit count values := by
  unfold radixSort
  split_ifs with hshort
  · exact (sortPasses_short hdigit count hshort).symm
  · obtain ⟨hinj, hsorted⟩ := sources_sortPasses hdigit count values rfl
    dsimp only
    rw [(passes_eq (fun k row => hdigit k (values.get row)) count rfl).1, reorder_eq hinj, hsorted]

theorem radixSort_perm (values : List α) : (radixSort digit count values).Perm values := by
  rw [radixSort_eq hdigit]
  exact sortPasses_perm hdigit count values

theorem radixSort_pairwise (values : List α) :
    (radixSort digit count values).Pairwise fun x y => keyValue base digit count x ≤ keyValue base digit count y := by
  rw [radixSort_eq hdigit]
  exact sortPasses_pairwise hdigit count values

end

end

section Distinct

variable [DecidableEq α]

theorem mem_destutter'_ne (l : List α) (a x : α) : x ∈ l.destutter' (· ≠ ·) a ↔ x = a ∨ x ∈ l := by
  induction l generalizing a with
  | nil => simp
  | cons b l ih =>
    by_cases h : a ≠ b
    · rw [List.destutter'_cons_pos _ h, List.mem_cons, ih, List.mem_cons]
    · rw [List.destutter'_cons_neg _ h, ih, List.mem_cons]
      rw [not_not] at h
      rw [h, ← or_assoc, or_self]

theorem mem_destutter_ne (l : List α) (x : α) : x ∈ l.destutter (· ≠ ·) ↔ x ∈ l := by
  cases l with
  | nil => simp
  | cons a l => rw [List.destutter_cons', mem_destutter'_ne, List.mem_cons]

theorem destutter_pairwise {f : α → ℕ} (hf : Function.Injective f) {l : List α} (h : l.Pairwise (f · ≤ f ·)) :
    (l.destutter (· ≠ ·)).Pairwise (f · < f ·) := by
  have hle := h.sublist (List.destutter_sublist (· ≠ ·) l)
  have hne : (l.destutter (· ≠ ·)).IsChain (· ≠ ·) := List.isChain_destutter _ _
  rw [← List.pairwise_map, ← List.isChain_iff_pairwise, List.isChain_map]
  generalize l.destutter (· ≠ ·) = values at hle hne
  induction values with
  | nil => exact List.isChain_nil
  | cons a values ih =>
    cases values with
    | nil => exact List.isChain_singleton a
    | cons b values =>
      rw [List.isChain_cons_cons] at hne ⊢
      rw [List.pairwise_cons] at hle
      have hab := hle.1 b List.mem_cons_self
      have hne' : f a ≠ f b := fun heq => hne.1 (hf heq)
      exact ⟨by omega, ih hle.2 hne.2⟩

end Distinct

end QTrace.Lib.RadixSort
