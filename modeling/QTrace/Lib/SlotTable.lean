import Mathlib

/-! A table of slots that items are put into by their index. An item whose slot is taken or
not there is left out and spoils the table. A table that was not spoilt and has no free
slot holds the items in the order of their indices. -/

namespace QTrace.Lib.SlotTable

variable {α : Type*} {index : α → ℕ} {accept : α → Bool}

/-- Put an item into its slot. The flag falls with an item that is not accepted or has no
free slot, and stays down. -/
def place (index : α → ℕ) (accept : α → Bool) (state : List (Option α) × Bool) (item : α) : List (Option α) × Bool :=
  match state.1[index item]? with
  | some none => (state.1.set (index item) (some item), state.2 && accept item)
  | _ => (state.1, false)

def placeAll (index : α → ℕ) (accept : α → Bool) (slots : ℕ) (items : List α) : List (Option α) × Bool :=
  items.foldl (place index accept) (List.replicate slots none, true)

/-- The table holds the items it was given, each in its own slot. -/
structure Holds (index : α → ℕ) (slots : ℕ) (table : List (Option α)) (items : List α) : Prop where
  length : table.length = slots
  perm : table.reduceOption.Perm items
  own : ∀ i x, table[i]? = some (some x) → index x = i

variable {table : List (Option α)} {slots i : ℕ} {items placed : List α}

theorem reduceOption_set_perm (h : table[i]? = some none) (x : α) :
    (table.set i (some x)).reduceOption.Perm (x :: table.reduceOption) := by
  obtain ⟨hi, hnone⟩ := List.getElem?_eq_some_iff.1 h
  have htable : table = table.take i ++ none :: table.drop (i + 1) := by
    rw [← hnone, List.getElem_cons_drop, List.take_append_drop]
  rw [List.set_eq_take_append_cons_drop, if_pos hi]
  conv_rhs => rw [htable]
  simp only [List.reduceOption_append, List.reduceOption_cons_of_some, List.reduceOption_cons_of_none]
  exact List.perm_middle

theorem holds_nil (slots : ℕ) : Holds index slots (List.replicate slots none) [] where
  length := List.length_replicate
  perm := by rw [List.reduceOption_replicate_none]
  own i x h := by
    rw [List.getElem?_replicate] at h
    split_ifs at h
    simp at h

theorem Holds.set (h : Holds index slots table items) {x : α} (hfree : table[index x]? = some none) :
    Holds index slots (table.set (index x) (some x)) (x :: items) where
  length := by rw [List.length_set, h.length]
  perm := (reduceOption_set_perm hfree x).trans (h.perm.cons x)
  own i y hy := by
    by_cases hi : index x = i
    · subst hi
      rw [List.getElem?_set_self (List.getElem?_eq_some_iff.1 hfree).1, Option.some.injEq, Option.some.injEq] at hy
      rw [hy]
    · rw [List.getElem?_set_ne hi] at hy
      exact h.own i y hy

theorem Holds.free (h : Holds index slots table items) (hi : i < slots) (hnew : ∀ y ∈ items, index y ≠ i) :
    table[i]? = some none := by
  have hi' : i < table.length := h.length ▸ hi
  rw [List.getElem?_eq_getElem hi']
  cases hslot : table.get ⟨i, hi'⟩ with
  | none => exact congrArg some hslot
  | some y =>
    have hsome : table[i]? = some (some y) := by rw [List.getElem?_eq_getElem hi']; exact congrArg some hslot
    have hmem : y ∈ items := by
      rw [← h.perm.mem_iff, List.reduceOption_mem_iff]
      exact List.mem_of_getElem? hsome
    exact absurd (h.own i y hsome) (hnew y hmem)

theorem foldl_place_false (items : List α) (table : List (Option α)) :
    (items.foldl (place index accept) (table, false)).2 = false := by
  induction items generalizing table with
  | nil => rfl
  | cons x items ih =>
    rw [List.foldl_cons, place]
    split
    · simpa using ih _
    · exact ih _

theorem foldl_place_holds (items : List α) (h : Holds index slots table placed)
    (hok : (items.foldl (place index accept) (table, true)).2 = true) :
    Holds index slots (items.foldl (place index accept) (table, true)).1 (items.reverse ++ placed) ∧
      ∀ x ∈ items, accept x = true := by
  induction items generalizing table placed with
  | nil => exact ⟨h, by simp⟩
  | cons x items ih =>
    rw [List.foldl_cons, place] at hok ⊢
    split at hok
    case h_1 hfree =>
      simp only [Bool.true_and] at hok ⊢
      cases haccept : accept x with
      | false =>
        rw [haccept, foldl_place_false] at hok
        cases hok
      | true =>
        rw [haccept] at hok
        obtain ⟨hholds, hall⟩ := ih (h.set hfree) hok
        refine ⟨?_, List.forall_mem_cons.2 ⟨haccept, hall⟩⟩
        simpa using hholds
    case h_2 =>
      rw [foldl_place_false] at hok
      cases hok

theorem foldl_place_ok (items : List α) (h : Holds index slots table placed)
    (haccept : ∀ x ∈ items, accept x = true) (hinside : ∀ x ∈ items, index x < slots)
    (hnodup : ((items.reverse ++ placed).map index).Nodup) :
    (items.foldl (place index accept) (table, true)).2 = true := by
  induction items generalizing table placed with
  | nil => rfl
  | cons x items ih =>
    rw [List.forall_mem_cons] at haccept hinside
    have hnodup' : ((items.reverse ++ (x :: placed)).map index).Nodup := by simpa using hnodup
    have hfree : table[index x]? = some none := by
      apply h.free hinside.1
      intro y hy heq
      rw [List.map_append, List.map_cons] at hnodup'
      have hx := (List.nodup_cons.1 (List.nodup_append.1 hnodup').2.1).1
      exact hx (heq ▸ List.mem_map_of_mem hy)
    rw [List.foldl_cons, place]
    simp only [hfree, Bool.true_and, haccept.1]
    exact ih (h.set hfree) haccept.2 hinside.2 hnodup'

theorem map_some_reduceOption (h : table.all Option.isSome = true) : table.reduceOption.map some = table := by
  induction table with
  | nil => rfl
  | cons slot table ih =>
    rw [List.all_cons, Bool.and_eq_true] at h
    obtain ⟨x, rfl⟩ := Option.isSome_iff_exists.1 h.1
    rw [List.reduceOption_cons_of_some, List.map_cons, ih h.2]

theorem Holds.map_index (h : Holds index slots table items) (hfull : table.all Option.isSome = true) :
    table.reduceOption.map index = List.range slots := by
  have hsome := map_some_reduceOption hfull
  have hown := h.own
  have hlength := h.length
  rw [← hsome] at hown hlength
  rw [List.length_map] at hlength
  generalize table.reduceOption = ordered at hown hlength
  subst hlength
  apply List.ext_getElem (by simp)
  intro i hi hi'
  rw [List.getElem_range, List.getElem_map]
  apply hown
  rw [List.getElem?_map, List.getElem?_eq_getElem (by simpa using hi')]
  rfl

/-- The table is whole if and only if the items are accepted and carry each index once. -/
theorem placeAll_whole_iff (index : α → ℕ) (accept : α → Bool) (slots : ℕ) (items : List α) :
    ((placeAll index accept slots items).2 = true ∧ (placeAll index accept slots items).1.all Option.isSome = true) ↔
      (∀ x ∈ items, accept x = true) ∧ (items.map index).Perm (List.range slots) := by
  constructor
  · rintro ⟨hok, hfull⟩
    obtain ⟨hholds, haccept⟩ := foldl_place_holds items (holds_nil slots) hok
    refine ⟨haccept, ?_⟩
    rw [← hholds.map_index hfull]
    apply List.Perm.map
    exact ((List.reverse_perm items).symm.trans (by simpa using hholds.perm.symm))
  · rintro ⟨haccept, hperm⟩
    have hinside : ∀ x ∈ items, index x < slots := fun x hx =>
      List.mem_range.1 (hperm.mem_iff.1 (List.mem_map_of_mem hx))
    have hnodup : ((items.reverse ++ []).map index).Nodup := by
      rw [List.append_nil, List.map_reverse, List.nodup_reverse]
      exact hperm.nodup_iff.2 List.nodup_range
    have hok := foldl_place_ok items (holds_nil slots) haccept hinside hnodup
    refine ⟨hok, ?_⟩
    -- as many items as slots, so no slot is free
    obtain ⟨hholds, -⟩ := foldl_place_holds items (holds_nil slots) hok
    have hlength := hperm.length_eq
    rw [List.length_map, List.length_range] at hlength
    rw [List.all_eq_true]
    apply List.reduceOption_length_eq_iff.1
    have hcount : (items.reverse ++ []).length = slots := by simp [hlength]
    exact (hholds.perm.length_eq.trans hcount).trans hholds.length.symm

theorem placeAll_ordered (hok : (placeAll index accept slots items).2 = true)
    (hfull : (placeAll index accept slots items).1.all Option.isSome = true) :
    (placeAll index accept slots items).1.reduceOption.Perm items ∧
      (placeAll index accept slots items).1.reduceOption.map index = List.range slots := by
  obtain ⟨hholds, -⟩ := foldl_place_holds items (holds_nil slots) hok
  refine ⟨hholds.perm.trans ?_, hholds.map_index hfull⟩
  rw [List.append_nil]
  exact List.reverse_perm items

/-- The order of the indices determines the list. -/
theorem ordered_unique {l l' : List α} (hperm : l.Perm items) (hperm' : l'.Perm items)
    (hindex : l.map index = List.range slots) (hindex' : l'.map index = List.range slots) : l = l' := by
  have hinj := List.inj_on_of_nodup_map (hindex ▸ List.nodup_range)
  have hlength := hperm.length_eq.trans hperm'.length_eq.symm
  apply List.ext_getElem hlength
  intro i hi hi'
  apply hinj (List.getElem_mem hi) (hperm.mem_iff.2 (hperm'.mem_iff.1 (List.getElem_mem hi')))
  have hsame := congrArg (·[i]?) (hindex.trans hindex'.symm)
  simpa [List.getElem?_eq_getElem hi, List.getElem?_eq_getElem hi'] using hsame

end QTrace.Lib.SlotTable
