import Mathlib

/-! Numbering by first use: a value that was met before keeps its number, a new one gets the
next number, and while there is no room left a new one gets none. -/

namespace QTrace.Lib.FirstUse

variable {α : Type*} [DecidableEq α] {room n : ℕ} {known : List α}

/-- The number of a value and whether it is new, with the values known afterwards. -/
def assign (room : ℕ) (known : List α) (value : α) : Option (ℕ × Bool) × List α :=
  if value ∈ known then (some (known.idxOf value, false), known)
  else if known.length < room then (some (known.length, true), known ++ [value])
  else (none, known)

def assignAll (room : ℕ) : List α → List α → List (Option (ℕ × Bool)) × List α
  | known, [] => ([], known)
  | known, value :: values =>
    let (result, known) := assign room known value
    let (results, known) := assignAll room known values
    (result :: results, known)

theorem assignAll_cons (known : List α) (value : α) (values : List α) :
    assignAll room known (value :: values) =
      ((assign room known value).1 :: (assignAll room (assign room known value).2 values).1,
        (assignAll room (assign room known value).2 values).2) := rfl

theorem assign_cases (room : ℕ) (known : List α) (value : α) :
    (value ∈ known ∧ assign room known value = (some (known.idxOf value, false), known)) ∨
      (value ∉ known ∧ known.length < room ∧
        assign room known value = (some (known.length, true), known ++ [value])) ∨
      (value ∉ known ∧ room ≤ known.length ∧ assign room known value = (none, known)) := by
  unfold assign
  by_cases hmem : value ∈ known
  · exact Or.inl ⟨hmem, if_pos hmem⟩
  · rw [if_neg hmem]
    by_cases hroom : known.length < room
    · exact Or.inr (Or.inl ⟨hmem, hroom, if_pos hroom⟩)
    · exact Or.inr (Or.inr ⟨hmem, Nat.not_lt.1 hroom, if_neg hroom⟩)

theorem prefix_assign (known : List α) (value : α) : known <+: (assign room known value).2 := by
  obtain ⟨-, h⟩ | ⟨-, -, h⟩ | ⟨-, -, h⟩ := assign_cases room known value
  · rw [h]
  · rw [h]
    exact List.prefix_append _ _
  · rw [h]

theorem nodup_assign (h : known.Nodup) (value : α) : (assign room known value).2.Nodup := by
  obtain ⟨-, heq⟩ | ⟨hnew, -, heq⟩ | ⟨-, -, heq⟩ := assign_cases room known value
  · rwa [heq]
  · have hconcat := h.concat hnew
    rw [List.concat_eq_append] at hconcat
    rwa [heq]
  · rwa [heq]

variable {value : α}

theorem getElem?_assign {new : Bool} (h : (assign room known value).1 = some (n, new)) :
    (assign room known value).2[n]? = some value := by
  obtain ⟨hmem, heq⟩ | ⟨-, -, heq⟩ | ⟨-, -, heq⟩ := assign_cases room known value
  · rw [heq, Option.some.injEq, Prod.mk.injEq] at h
    rw [heq, ← h.1, List.getElem?_eq_getElem (List.idxOf_lt_length_of_mem hmem), List.getElem_idxOf]
  · rw [heq, Option.some.injEq, Prod.mk.injEq] at h
    rw [heq, ← h.1, List.getElem?_concat_length]
  · rw [heq] at h
    cases h

theorem getElem?_of_assign {new : Bool} (h : assign room known value = (some (n, new), known)) :
    known[n]? = some value := by
  have hplace := getElem?_assign (congrArg Prod.fst h)
  rwa [h] at hplace

theorem prefix_assignAll (room : ℕ) (known values : List α) : known <+: (assignAll room known values).2 := by
  induction values generalizing known with
  | nil => exact List.prefix_rfl
  | cons value values ih =>
    rw [assignAll_cons]
    exact (prefix_assign known value).trans (ih _)

theorem nodup_assignAll (h : known.Nodup) (values : List α) : (assignAll room known values).2.Nodup := by
  induction values generalizing known with
  | nil => exact h
  | cons value values ih =>
    rw [assignAll_cons]
    exact ih (nodup_assign h value)

theorem length_assignAll (known values : List α) : (assignAll room known values).1.length = values.length := by
  induction values generalizing known with
  | nil => rfl
  | cons value values ih => rw [assignAll_cons, List.length_cons, ih, List.length_cons]

theorem assignAll_append (known values values' : List α) :
    assignAll room known (values ++ values') =
      ((assignAll room known values).1 ++ (assignAll room (assignAll room known values).2 values').1,
        (assignAll room (assignAll room known values).2 values').2) := by
  induction values generalizing known with
  | nil => rfl
  | cons value values ih => rw [List.cons_append, assignAll_cons, assignAll_cons, ih, List.cons_append]

theorem getElem?_assignAll (known values : List α) {i : ℕ} (h : values[i]? = some value) :
    (assignAll room known values).1[i]? = some (assign room (assignAll room known (values.take i)).2 value).1 := by
  induction values generalizing known i with
  | nil => simp at h
  | cons first values ih =>
    rw [assignAll_cons]
    cases i with
    | zero =>
      rw [List.getElem?_cons_zero, Option.some.injEq] at h
      rw [h]
      rfl
    | succ i =>
      rw [List.getElem?_cons_succ] at h ⊢
      rw [ih _ h, List.take_succ_cons, assignAll_cons]

/-- A number, once given, is the place of its value among all that are known in the end. -/
theorem getElem?_known {values : List α} {i : ℕ} {new : Bool} (hvalue : values[i]? = some value)
    (h : (assignAll room known values).1[i]? = some (some (n, new))) :
    (assignAll room known values).2[n]? = some value := by
  rw [getElem?_assignAll known values hvalue, Option.some.injEq] at h
  have hplace := getElem?_assign h
  obtain ⟨hlt, hget⟩ := List.getElem?_eq_some_iff.1 hvalue
  have hsplit : values = values.take i ++ value :: values.drop (i + 1) := by
    rw [← hget, List.getElem_cons_drop, List.take_append_drop]
  have hfront : (assign room (assignAll room known (values.take i)).2 value).2 <+: (assignAll room known values).2 := by
    conv_rhs => rw [hsplit]
    rw [assignAll_append, assignAll_cons]
    exact prefix_assignAll _ _ _
  obtain ⟨after, hafter⟩ := hfront
  rw [← hafter, List.getElem?_append_left (List.getElem?_eq_some_iff.1 hplace).1, hplace]

theorem length_assign_le (h : known.length ≤ room) (value : α) : (assign room known value).2.length ≤ room := by
  obtain ⟨-, heq⟩ | ⟨-, hroom, heq⟩ | ⟨-, -, heq⟩ := assign_cases room known value
  · rwa [heq]
  · rw [heq, List.length_append]
    exact hroom
  · rwa [heq]

theorem length_assignAll_le (h : known.length ≤ room) (values : List α) : (assignAll room known values).2.length ≤ room := by
  induction values generalizing known with
  | nil => exact h
  | cons value values ih =>
    rw [assignAll_cons]
    exact ih (length_assign_le h value)

theorem lt_of_mem_assignAll (h : known.length ≤ room) {values : List α} {new : Bool}
    (hmem : some (n, new) ∈ (assignAll room known values).1) : n < room := by
  obtain ⟨i, hi⟩ := List.getElem?_of_mem hmem
  have hlt : i < values.length := by
    rw [← length_assignAll known values]
    exact (List.getElem?_eq_some_iff.1 hi).1
  have hplace := getElem?_known (List.getElem?_eq_getElem hlt) hi
  exact (List.getElem?_eq_some_iff.1 hplace).1.trans_le (length_assignAll_le h values)

theorem subset_of_assignAll (known values : List α) : (assignAll room known values).2 ⊆ known ++ values := by
  induction values generalizing known with
  | nil => simp [assignAll]
  | cons value values ih =>
    rw [assignAll_cons]
    refine List.Subset.trans (ih _) ?_
    obtain ⟨-, h⟩ | ⟨-, -, h⟩ | ⟨-, -, h⟩ := assign_cases room known value
    · simp [h]
    · simp [h]
    · simp [h]

/-- The new numbers of a run. -/
def newNumbers (results : List (Option (ℕ × Bool))) : List ℕ :=
  results.filterMap fun result => result.bind fun (n, new) => if new then some n else none

theorem newNumbers_assignAll (known values : List α) :
    newNumbers (assignAll room known values).1 =
      List.range' known.length ((assignAll room known values).2.length - known.length) := by
  induction values generalizing known with
  | nil => simp [assignAll, newNumbers]
  | cons value values ih =>
    have hle : (assign room known value).2.length ≤ (assignAll room (assign room known value).2 values).2.length :=
      (prefix_assignAll room _ values).length_le
    have hfirst := ih (assign room known value).2
    unfold newNumbers at hfirst ⊢
    rw [assignAll_cons, List.filterMap_cons, hfirst]
    obtain ⟨-, h⟩ | ⟨-, -, h⟩ | ⟨-, -, h⟩ := assign_cases room known value
    · rw [h]
      rfl
    · rw [h] at hle ⊢
      rw [List.length_append, List.length_singleton] at hle ⊢
      generalize (assignAll room (known ++ [value]) values).2.length = total at hle ⊢
      obtain ⟨more, rfl⟩ := Nat.exists_eq_add_of_le hle
      rw [Nat.add_sub_cancel_left, Nat.add_assoc, Nat.add_sub_cancel_left, Nat.add_comm 1 more, List.range'_succ]
      rfl
    · rw [h]
      rfl

/-- The values of a run and the results it gave. -/
structure Numbers (room : ℕ) (values : List α) (results : List (Option (ℕ × Bool))) : Prop where
  length : results.length = values.length
  /-- The number a value was given first is its number ever after. -/
  stable : ∀ (i j : ℕ) value n new, i < j → values[i]? = some value → values[j]? = some value →
    results[i]? = some (some (n, new)) → results[j]? = some (some (n, false))
  /-- Other values have other numbers. -/
  distinct : ∀ (i j : ℕ) value value' n new new', values[i]? = some value → values[j]? = some value' →
    value ≠ value' → results[i]? = some (some (n, new)) → results[j]? ≠ some (some (n, new'))
  /-- The new numbers count up from zero. -/
  dense : ∃ count, newNumbers results = List.range count
  /-- A value is refused only where others took all the room. -/
  refused : ∀ (i : ℕ) value, values[i]? = some value → results[i]? = some none →
    ∃ others : List α, others.Nodup ∧ others ⊆ values.take i ∧ room ≤ others.length ∧ value ∉ others

theorem numbers_assignAll (room : ℕ) (values : List α) : Numbers room values (assignAll room [] values).1 where
  length := length_assignAll [] values
  stable i j value n new hij hi hj hresult := by
    have hi' : (values.take j)[i]? = some value := by rw [List.getElem?_take_of_lt hij, hi]
    have hresult' : (assignAll room [] (values.take j)).1[i]? = some (some (n, new)) := by
      rw [getElem?_assignAll [] _ hi', List.take_take, Nat.min_eq_left hij.le, ← getElem?_assignAll [] values hi,
        hresult]
    -- the value is known at the later place, under its number
    have hplace := getElem?_known hi' hresult'
    have hnodup : (assignAll room [] (values.take j)).2.Nodup := nodup_assignAll List.nodup_nil _
    rw [getElem?_assignAll [] values hj]
    generalize (assignAll room [] (values.take j)).2 = known at hplace hnodup
    obtain ⟨hlt, hget⟩ := List.getElem?_eq_some_iff.1 hplace
    rw [assign, if_pos (hget ▸ List.getElem_mem hlt), ← hget, hnodup.idxOf_getElem n hlt]
  distinct i j value value' n new new' hi hj hne hresult hresult' := by
    have hplace := getElem?_known hi hresult
    rw [getElem?_known hj hresult', Option.some.injEq] at hplace
    exact hne hplace.symm
  dense := by
    refine ⟨(assignAll room [] values).2.length, ?_⟩
    rw [newNumbers_assignAll, List.range_eq_range']
    rfl
  refused i value hi hresult := by
    rw [getElem?_assignAll [] values hi, Option.some.injEq] at hresult
    obtain ⟨-, h⟩ | ⟨-, -, h⟩ | ⟨hnew, hroom, -⟩ := assign_cases room (assignAll room [] (values.take i)).2 value
    · rw [h] at hresult
      cases hresult
    · rw [h] at hresult
      cases hresult
    · exact ⟨_, nodup_assignAll List.nodup_nil _, subset_of_assignAll _ _, hroom, hnew⟩

/-- The numbers that were given. -/
def numbers (results : List (Option (ℕ × Bool))) : List ℕ := results.filterMap (·.map Prod.fst)

theorem numbers_cons (n : ℕ) (new : Bool) (results : List (Option (ℕ × Bool))) :
    numbers (some (n, new) :: results) = n :: numbers results := by
  simp [numbers]

variable {results : List (Option (ℕ × Bool))}

theorem map_some_numbers (hall : none ∉ results) : (numbers results).map some = results.map (·.map Prod.fst) := by
  induction results with
  | nil => rfl
  | cons result results ih =>
    rw [List.mem_cons, not_or] at hall
    obtain ⟨⟨n, new⟩, rfl⟩ := Option.ne_none_iff_exists'.mp (Ne.symm hall.1)
    rw [numbers_cons, List.map_cons, List.map_cons, ih hall.2]
    rfl

theorem getElem?_of_numbers (hall : none ∉ results) {i : ℕ} (h : (numbers results)[i]? = some n) :
    ∃ new, results[i]? = some (some (n, new)) := by
  have hget := congrArg (·[i]?) (map_some_numbers hall)
  simp only [List.getElem?_map, h, Option.map_some] at hget
  obtain ⟨result, hresult, hm⟩ := Option.map_eq_some_iff.mp hget.symm
  obtain ⟨⟨_, new⟩, rfl, rfl⟩ := Option.map_eq_some_iff.mp hm
  exact ⟨new, hresult⟩

theorem length_numbers (hall : none ∉ results) : (numbers results).length = results.length := by
  have h := congrArg List.length (map_some_numbers hall)
  rwa [List.length_map, List.length_map] at h

section Unrefused

variable {values : List α}

theorem take_assignAll (room : ℕ) (known values : List α) (i : ℕ) :
    (assignAll room known values).1.take i = (assignAll room known (values.take i)).1 := by
  conv_lhs => rw [← List.take_append_drop i values]
  rw [assignAll_append]
  by_cases hi : i ≤ values.length
  · rw [List.take_left' (by rw [length_assignAll, List.length_take, min_eq_left hi])]
  · rw [List.take_of_length_le (by omega : values.length ≤ i), List.drop_eq_nil_of_le (by omega)]
    simp only [assignAll, List.append_nil]
    rw [List.take_of_length_le (by rw [length_assignAll]; omega)]

theorem mem_known_iff (hall : none ∉ (assignAll room known values).1) :
    value ∈ (assignAll room known values).2 ↔ value ∈ known ∨ value ∈ values := by
  constructor
  · intro h
    exact List.mem_append.mp (subset_of_assignAll known values h)
  · rintro (h | h)
    · exact (prefix_assignAll room known values).subset h
    · obtain ⟨i, hi⟩ := List.mem_iff_getElem?.mp h
      have hresult : (assignAll room known values).1[i]? = _ := getElem?_assignAll known values hi
      cases hassign : (assign room (assignAll room known (values.take i)).2 value).1 with
      | none => exact absurd (List.mem_of_getElem? (hresult.trans (congrArg some hassign))) hall
      | some result =>
        rw [hassign] at hresult
        exact List.mem_of_getElem? (getElem?_known hi hresult)

/-- Without room for all, somebody is refused; else nobody is. -/
theorem not_refused_iff (room : ℕ) (values : List α) :
    none ∉ (assignAll room [] values).1 ↔ values.dedup.length ≤ room := by
  constructor
  · intro hall
    have hsub : values.dedup.Subperm (assignAll room [] values).2 := by
      refine (List.nodup_dedup values).subperm fun value hvalue => ?_
      exact (mem_known_iff hall).mpr (.inr (List.mem_dedup.mp hvalue))
    exact hsub.length_le.trans (length_assignAll_le (Nat.zero_le _) values)
  · intro hle hnone
    obtain ⟨i, hi⟩ := List.mem_iff_getElem?.mp hnone
    have hlt : i < values.length := by
      rw [← length_assignAll [] values]
      exact (List.getElem?_eq_some_iff.mp hi).1
    obtain ⟨others, hnodup, hsub, hroom, hnew⟩ :=
      (numbers_assignAll room values).refused i _ (List.getElem?_eq_getElem hlt) hi
    have hall : (values[i] :: others).Subperm values.dedup := by
      refine (List.nodup_cons.mpr ⟨hnew, hnodup⟩).subperm fun value hvalue => List.mem_dedup.mpr ?_
      rcases List.mem_cons.mp hvalue with rfl | hvalue
      · exact List.getElem_mem hlt
      · exact List.mem_of_mem_take (hsub hvalue)
    have hlength := hall.length_le
    rw [List.length_cons] at hlength
    omega

section

variable (hall : none ∉ (assignAll room [] values).1)
include hall

theorem known_perm_dedup : (assignAll room [] values).2.Perm values.dedup := by
  refine (List.perm_ext_iff_of_nodup (nodup_assignAll List.nodup_nil _) (List.nodup_dedup _)).mpr fun value => ?_
  rw [mem_known_iff hall, List.mem_dedup]
  simp

theorem mem_numbers_iff : n ∈ numbers (assignAll room [] values).1 ↔ n < (assignAll room [] values).2.length := by
  constructor
  · intro h
    obtain ⟨i, hi⟩ := List.mem_iff_getElem?.mp h
    obtain ⟨new, hresult⟩ := getElem?_of_numbers hall hi
    have hlt : i < values.length := by
      rw [← length_assignAll [] values]
      exact (List.getElem?_eq_some_iff.mp hresult).1
    exact (List.getElem?_eq_some_iff.mp (getElem?_known (List.getElem?_eq_getElem hlt) hresult)).1
  · intro h
    have hnew : n ∈ newNumbers (assignAll room [] values).1 := by
      rw [newNumbers_assignAll]
      simpa using h
    obtain ⟨result, hresult, hbind⟩ := List.mem_filterMap.mp hnew
    obtain ⟨⟨m, new⟩, rfl, hif⟩ := Option.bind_eq_some_iff.mp hbind
    refine List.mem_filterMap.mpr ⟨_, hresult, ?_⟩
    cases new with
    | false => simp at hif
    | true => simpa using hif

theorem length_dedup_numbers :
    (numbers (assignAll room [] values).1).dedup.length = (assignAll room [] values).2.length := by
  have hperm : (numbers (assignAll room [] values).1).dedup.Perm (List.range (assignAll room [] values).2.length) := by
    refine (List.perm_ext_iff_of_nodup (List.nodup_dedup _) List.nodup_range).mpr fun n => ?_
    rw [List.mem_dedup, mem_numbers_iff hall, List.mem_range]
  rw [hperm.length_eq, List.length_range]

theorem take_numbers (i : ℕ) :
    (numbers (assignAll room [] values).1).take i = numbers (assignAll room [] (values.take i)).1 := by
  have htake : none ∉ (assignAll room [] values).1.take i := fun h => hall (List.mem_of_mem_take h)
  apply List.map_injective_iff.mpr (Option.some_injective ℕ)
  rw [List.map_take, map_some_numbers hall, ← take_assignAll, map_some_numbers htake, List.map_take]

theorem not_refused_take (i : ℕ) : none ∉ (assignAll room [] (values.take i)).1 := by
  rw [← take_assignAll]
  exact fun h => hall (List.mem_of_mem_take h)

end

theorem prefix_known_take (room : ℕ) (values : List α) (i : ℕ) :
    (assignAll room [] (values.take i)).2 <+: (assignAll room [] values).2 := by
  conv_rhs => rw [← List.take_append_drop i values, assignAll_append]
  exact prefix_assignAll _ _ _

theorem numbers_dense (hall : none ∉ (assignAll room [] values).1) {i : ℕ}
    (hn : (numbers (assignAll room [] values).1)[i]? = some n) :
    n ∈ (numbers (assignAll room [] values).1).take i ∨
      n = ((numbers (assignAll room [] values).1).take i).dedup.length := by
  obtain ⟨new, hresult⟩ := getElem?_of_numbers hall hn
  have hlt : i < values.length := by
    rw [← length_assignAll [] values]
    exact (List.getElem?_eq_some_iff.mp hresult).1
  rw [getElem?_assignAll [] values (List.getElem?_eq_getElem hlt), Option.some.injEq] at hresult
  have hbefore := not_refused_take hall i
  rw [take_numbers hall, mem_numbers_iff hbefore, length_dedup_numbers hbefore]
  -- an old value has its place among those known before, a new one comes behind them
  obtain ⟨-, hassign⟩ | ⟨-, -, hassign⟩ | ⟨-, -, hassign⟩ := assign_cases room (assignAll room [] (values.take i)).2 values[i]
  · have hplace := getElem?_assign hresult
    rw [hassign] at hplace
    exact .inl (List.getElem?_eq_some_iff.mp hplace).1
  · rw [hassign, Option.some.injEq, Prod.mk.injEq] at hresult
    exact .inr hresult.1.symm
  · rw [hassign] at hresult
    cases hresult

end Unrefused

end QTrace.Lib.FirstUse
