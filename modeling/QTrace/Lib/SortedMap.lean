import Mathlib

/-! Maps stored as lists of entries with increasing keys, and the grouping of a list by runs of
equal keys from which such maps are made. -/

namespace QTrace.Lib

variable {K V W : Type}

section Group

variable [DecidableEq K]

/-- The values of each run of equal keys. -/
def groupByKey : List (K × V) → List (K × List V)
  | [] => []
  | (key, value) :: rest =>
    match groupByKey rest with
    | [] => [(key, [value])]
    | (next, values) :: groups =>
      if key = next then (key, value :: values) :: groups else (key, [value]) :: (next, values) :: groups

/-- The entries of the groups, one for each value. -/
def ungroup (groups : List (K × List V)) : List (K × V) :=
  groups.flatMap fun group => group.2.map (group.1, ·)

omit [DecidableEq K] in
@[simp]
theorem ungroup_cons (group : K × List V) (groups : List (K × List V)) :
    ungroup (group :: groups) = group.2.map (group.1, ·) ++ ungroup groups := by
  simp [ungroup]

omit [DecidableEq K] in
@[simp]
theorem ungroup_nil : ungroup ([] : List (K × List V)) = [] := rfl

@[simp]
theorem ungroup_groupByKey (l : List (K × V)) : ungroup (groupByKey l) = l := by
  fun_induction groupByKey l with
  | case1 => rfl
  | case2 key value rest hrest ih => simpa [hrest] using ih
  | case3 key value rest values groups hrest ih =>
    rw [hrest] at ih
    simpa using ih
  | case4 key value rest next values groups hrest hne ih =>
    rw [hrest] at ih
    simpa using ih

theorem groupByKey_ne_nil {l : List (K × V)} {group : K × List V} (h : group ∈ groupByKey l) :
    group.2 ≠ [] := by
  fun_induction groupByKey l generalizing group with
  | case1 => simp at h
  | case2 key value rest hrest ih =>
    rw [List.mem_singleton.mp h]
    simp
  | case3 key value rest values groups hrest ih =>
    rw [hrest] at ih
    rcases List.mem_cons.mp h with rfl | h
    · simp
    · exact ih (List.mem_cons_of_mem _ h)
  | case4 key value rest next values groups hrest hne ih =>
    rw [hrest] at ih
    rcases List.mem_cons.mp h with rfl | h
    · simp
    · exact ih h

omit [DecidableEq K] in
theorem mem_ungroup {groups : List (K × List V)} {group : K × List V} (h : group ∈ groups) {value : V}
    (hv : value ∈ group.2) : (group.1, value) ∈ ungroup groups := by
  refine List.mem_flatMap.mpr ⟨group, h, ?_⟩
  exact List.mem_map.mpr ⟨value, hv, rfl⟩

end Group

section Sorted

variable [LinearOrder K]

theorem groupByKey_pairwise {l : List (K × V)} (h : l.Pairwise (·.1 ≤ ·.1)) :
    (groupByKey l).Pairwise (·.1 < ·.1) := by
  fun_induction groupByKey l with
  | case1 => exact .nil
  | case2 key value rest hrest ih => simp
  | case3 key value rest values groups hrest ih =>
    have hgroups := ih (List.pairwise_cons.mp h).2
    rw [hrest] at hgroups
    exact List.pairwise_cons.mpr ⟨(List.pairwise_cons.mp hgroups).1, (List.pairwise_cons.mp hgroups).2⟩
  | case4 key value rest next values groups hrest hne ih =>
    obtain ⟨hkey, hsorted⟩ := List.pairwise_cons.mp h
    have hgroups := ih hsorted
    rw [hrest] at hgroups
    refine List.pairwise_cons.mpr ⟨fun group hgroup => ?_, hgroups⟩
    have hmem : group ∈ groupByKey rest := hrest ▸ hgroup
    obtain ⟨value', hvalue'⟩ := List.exists_mem_of_ne_nil _ (groupByKey_ne_nil hmem)
    have hle : key ≤ group.1 := hkey _ (ungroup_groupByKey rest ▸ mem_ungroup hmem hvalue')
    rcases List.mem_cons.mp hgroup with rfl | hlater
    · exact lt_of_le_of_ne hle hne
    · have hnext : next < group.1 := (List.pairwise_cons.mp hgroups).1 group hlater
      obtain ⟨first, hfirst⟩ := List.exists_mem_of_ne_nil _
        (groupByKey_ne_nil (hrest ▸ List.mem_cons_self : (next, values) ∈ groupByKey rest))
      have hmem' : (next, values) ∈ groupByKey rest := hrest ▸ List.mem_cons_self
      exact (hkey _ (ungroup_groupByKey rest ▸ mem_ungroup hmem' hfirst)).trans_lt hnext

theorem values_of_mem {groups : List (K × List V)} (h : groups.Pairwise (·.1 < ·.1)) {group : K × List V}
    (hmem : group ∈ groups) :
    group.2 = ((ungroup groups).filter (·.1 = group.1)).map Prod.snd := by
  induction groups with
  | nil => simp at hmem
  | cons first groups ih =>
    obtain ⟨hlt, hrest⟩ := List.pairwise_cons.mp h
    rw [ungroup_cons, List.filter_append, List.map_append]
    rcases List.mem_cons.mp hmem with rfl | hmem
    · have hnone : (ungroup groups).filter (·.1 = group.1) = [] := by
        refine List.filter_eq_nil_iff.mpr fun entry hentry => ?_
        obtain ⟨later, hlater, hentry⟩ := List.mem_flatMap.mp hentry
        obtain ⟨value, -, rfl⟩ := List.mem_map.mp hentry
        simpa using (hlt later hlater).ne'
      rw [hnone, List.filter_eq_self.mpr (by simp)]
      simp [Function.comp_def]
    · have hnone : (first.2.map (first.1, ·)).filter (·.1 = group.1) = [] := by
        refine List.filter_eq_nil_iff.mpr fun entry hentry => ?_
        obtain ⟨value, -, rfl⟩ := List.mem_map.mp hentry
        simpa using (hlt group hmem).ne
      rw [hnone, List.map_nil, List.nil_append]
      exact ih hrest hmem

end Sorted

/-- Entries in increasing order of their keys. -/
structure SortedMap (K V : Type) [LT K] where
  entries : List (K × V)
  sorted : entries.Pairwise (·.1 < ·.1)
  deriving DecidableEq

namespace SortedMap

variable [LinearOrder K]

theorem lt_of_getElem? (m : SortedMap K V) {i j : ℕ} {a b : K × V} (ha : m.entries[i]? = some a)
    (hb : m.entries[j]? = some b) (hij : i < j) : a.1 < b.1 := by
  obtain ⟨hi, rfl⟩ := List.getElem?_eq_some_iff.mp ha
  obtain ⟨hj, rfl⟩ := List.getElem?_eq_some_iff.mp hb
  exact List.pairwise_iff_getElem.mp m.sorted i j hi hj hij

def get (m : SortedMap K V) (key : K) : Option V := (m.entries.find? (·.1 = key)).map Prod.snd

theorem get_eq_some {m : SortedMap K V} {key : K} {value : V} :
    m.get key = some value ↔ (key, value) ∈ m.entries := by
  obtain ⟨entries, hsorted⟩ := m
  simp only [get]
  induction entries with
  | nil => simp
  | cons entry entries ih =>
    obtain ⟨hlt, hrest⟩ := List.pairwise_cons.mp hsorted
    by_cases hkey : entry.1 = key
    · rw [List.find?_cons_of_pos (by simpa using hkey), List.mem_cons]
      constructor
      · rintro ⟨⟩
        exact .inl (by simp [← hkey])
      · rintro (h | h)
        · simp [← h]
        · exact absurd hkey (hlt _ h).ne
    · rw [List.find?_cons_of_neg (by simpa using hkey), ih hrest, List.mem_cons]
      exact ⟨.inr, fun h => h.resolve_left fun h => hkey (by simp [← h])⟩

theorem ext_get {m m' : SortedMap K V} (h : ∀ key, m.get key = m'.get key) : m = m' := by
  have hperm : m.entries.Perm m'.entries := by
    refine (List.perm_ext_iff_of_nodup (m.sorted.imp ?_) (m'.sorted.imp ?_)).mpr fun entry => ?_
    · exact fun h heq => h.ne (congrArg Prod.fst heq)
    · exact fun h heq => h.ne (congrArg Prod.fst heq)
    · rw [← get_eq_some, ← get_eq_some, h]
  have heq : m.entries = m'.entries :=
    hperm.eq_of_pairwise (fun a b _ _ hab hba => absurd hba hab.not_gt) m.sorted m'.sorted
  obtain ⟨entries, hsorted⟩ := m
  obtain ⟨entries', hsorted'⟩ := m'
  simpa using heq

end SortedMap

section Repeats

variable [LinearOrder K]

/-- Of equal neighbours, only the last stays. -/
def dropRepeats : List K → List K
  | first :: second :: rest =>
    if first = second then dropRepeats (second :: rest) else first :: dropRepeats (second :: rest)
  | l => l

theorem mem_dropRepeats {l : List K} {a : K} : a ∈ dropRepeats l ↔ a ∈ l := by
  fun_induction dropRepeats l with
  | case1 first rest ih => simp [ih]
  | case2 first second rest hne ih => simp [ih]
  | case3 l h => rfl

theorem dropRepeats_pairwise {l : List K} (h : l.Pairwise (· ≤ ·)) : (dropRepeats l).Pairwise (· < ·) := by
  fun_induction dropRepeats l with
  | case1 first rest ih => exact ih (List.pairwise_cons.mp h).2
  | case2 first second rest hne ih =>
    obtain ⟨hle, hrest⟩ := List.pairwise_cons.mp h
    refine List.pairwise_cons.mpr ⟨fun b hb => ?_, ih hrest⟩
    rcases List.mem_cons.mp (mem_dropRepeats.mp hb) with rfl | hb
    · exact lt_of_le_of_ne (hle _ List.mem_cons_self) hne
    · exact (lt_of_le_of_ne (hle _ List.mem_cons_self) hne).trans_le ((List.pairwise_cons.mp hrest).1 b hb)
  | case3 l hl =>
    match l, hl with
    | [], _ => exact .nil
    | [a], _ => exact List.pairwise_singleton _ _
    | first :: second :: rest, hl => exact absurd rfl (hl first second rest)

end Repeats

end QTrace.Lib
