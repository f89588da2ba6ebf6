import Mathlib

/-! Linear probing. A table is a row of slots, each vacant or holding a key with its
value; a key is looked for from its home slot on, one slot after the other and around
the end, until it or a vacant slot is met. The table stands for the list of its
entries in the order they were stored. -/

namespace QTrace.Lib

variable {κ ν : Type*}

inductive Probe (ν : Type*)
  | found (value : ν)
  | vacant (slot : ℕ)
  | full

/-- Look at up to `rounds` slots from `slot` on. -/
def probe [DecidableEq κ] (capacity : ℕ) (slots : ℕ → Option (κ × ν)) (key : κ) : ℕ → ℕ → Probe ν
  | 0, _ => .full
  | rounds + 1, slot =>
    match slots slot with
    | none => .vacant slot
    | some entry =>
      if entry.1 = key then .found entry.2 else probe capacity slots key rounds ((slot + 1) % capacity)

/-- The slot met after `distance` steps from the home slot of a key. -/
def probeSlot (capacity home distance : ℕ) : ℕ := (home + distance) % capacity

/-- The table holds exactly `entries`, each where a search for its key meets it. -/
structure Stores (capacity : ℕ) (home : κ → ℕ) (slots : ℕ → Option (κ × ν)) (entries : List (κ × ν)) :
    Prop where
  sound : ∀ i entry, slots i = some entry → entry ∈ entries
  reachable : ∀ entry ∈ entries, ∃ distance < capacity,
    slots (probeSlot capacity (home entry.1) distance) = some entry ∧
      ∀ before < distance, slots (probeSlot capacity (home entry.1) before) ≠ none
  unique : ∀ i j key value value', slots i = some (key, value) → slots j = some (key, value') → i = j
  keys : (entries.map Prod.fst).Nodup

namespace Stores

variable {capacity : ℕ} {home : κ → ℕ} {slots : ℕ → Option (κ × ν)} {entries : List (κ × ν)} {key : κ} {value : ν}

theorem empty (capacity : ℕ) (home : κ → ℕ) : Stores capacity home (fun _ => (none : Option (κ × ν))) [] :=
  ⟨by simp, by simp, by simp, List.nodup_nil⟩

theorem probeSlot_succ (capacity home distance : ℕ) :
    (probeSlot capacity home distance + 1) % capacity = probeSlot capacity home (distance + 1) := by
  simp [probeSlot, Nat.add_assoc]

theorem probeSlot_inj {start a b : ℕ} (ha : a < capacity) (hb : b < capacity)
    (h : probeSlot capacity start a = probeSlot capacity start b) : a = b :=
  Nat.ModEq.eq_of_lt_of_lt (Nat.ModEq.add_left_cancel' start h) ha hb

theorem exists_vacant (h : Stores capacity home slots entries) (hroom : entries.length < capacity)
    (start : ℕ) : ∃ distance < capacity, slots (probeSlot capacity start distance) = none := by
  by_contra hnone
  have hfull : ∀ distance < capacity, ∃ entry, slots (probeSlot capacity start distance) = some entry := by
    intro distance hlt
    exact Option.ne_none_iff_exists'.mp fun hvacant => hnone ⟨distance, hlt, hvacant⟩
  let taken : List (Option (κ × ν)) := (List.range capacity).map fun d => slots (probeSlot capacity start d)
  have hnodup : taken.Nodup := by
    refine List.Nodup.map_on ?_ List.nodup_range
    intro a ha b hb hab
    obtain ⟨entry, hentry⟩ := hfull a (List.mem_range.mp ha)
    have hother : slots (probeSlot capacity start b) = some entry := hab ▸ hentry
    exact probeSlot_inj (List.mem_range.mp ha) (List.mem_range.mp hb)
      (h.unique _ _ entry.1 entry.2 entry.2 hentry hother)
  have hsub : taken ⊆ entries.map some := by
    intro slot hslot
    obtain ⟨d, hd, rfl⟩ := List.mem_map.mp hslot
    obtain ⟨entry, hentry⟩ := hfull d (List.mem_range.mp hd)
    rw [hentry]
    exact List.mem_map.mpr ⟨entry, h.sound _ _ hentry, rfl⟩
  have hle := (hnodup.subperm hsub).length_le
  simp only [taken, List.length_map, List.length_range] at hle
  omega

theorem occupied_of_full (h : Stores capacity home slots entries) (hfull : capacity ≤ entries.length) {slot : ℕ}
    (hslot : slot < capacity) : slots slot ≠ none := by
  classical
  -- the slots of the entries, all below the capacity and all different
  have hplace : ∀ entry ∈ entries, ∃ i < capacity, slots i = some entry := by
    intro entry hentry
    obtain ⟨distance, -, hhit, -⟩ := h.reachable entry hentry
    exact ⟨_, Nat.mod_lt _ (by omega), hhit⟩
  have hnodup : (entries.map some).Nodup := (h.keys.of_map Prod.fst).map (Option.some_injective _)
  intro hvacant
  -- one slot less is left for as many entries
  have hsub : entries.map some ⊆ ((List.range capacity).map slots).erase none := by
    intro stored hstored
    obtain ⟨entry, hentry, rfl⟩ := List.mem_map.mp hstored
    obtain ⟨i, hi, hhit⟩ := hplace entry hentry
    exact (List.mem_erase_of_ne (Option.some_ne_none entry)).mpr (List.mem_map.mpr ⟨i, List.mem_range.mpr hi, hhit⟩)
  have hle := (hnodup.subperm hsub).length_le
  have hmem : none ∈ (List.range capacity).map slots := List.mem_map.mpr ⟨slot, List.mem_range.mpr hslot, hvacant⟩
  rw [List.length_erase_of_mem hmem, List.length_map, List.length_map, List.length_range] at hle
  omega

variable {distance : ℕ}

theorem store (h : Stores capacity home slots entries) (hkey : key ∉ entries.map Prod.fst)
    (hlt : distance < capacity) (hvacant : slots (probeSlot capacity (home key) distance) = none)
    (hbefore : ∀ before < distance, slots (probeSlot capacity (home key) before) ≠ none) :
    Stores capacity home
      (Function.update slots (probeSlot capacity (home key) distance) (some (key, value)))
      (entries ++ [(key, value)]) := by
  have hkept : ∀ {i}, slots i ≠ none → Function.update slots (probeSlot capacity (home key) distance)
      (some (key, value)) i = slots i := by
    intro i hi
    refine Function.update_of_ne ?_ ..
    rintro rfl
    exact hi hvacant
  refine ⟨?_, ?_, ?_, ?_⟩
  · intro i entry hi
    by_cases hslot : i = probeSlot capacity (home key) distance
    · rw [hslot, Function.update_self] at hi
      rw [← Option.some.inj hi]
      simp
    · rw [Function.update_of_ne hslot] at hi
      exact List.mem_append_left _ (h.sound i entry hi)
  · intro entry hentry
    rcases List.mem_append.mp hentry with hentry | hentry
    · obtain ⟨d, hd, hhit, hfirst⟩ := h.reachable entry hentry
      refine ⟨d, hd, by rw [hkept (by simp [hhit]), hhit], ?_⟩
      intro before hb
      rw [hkept (hfirst before hb)]
      exact hfirst before hb
    · rw [List.mem_singleton.mp hentry]
      refine ⟨distance, hlt, Function.update_self .., ?_⟩
      intro before hb
      rw [hkept (hbefore before hb)]
      exact hbefore before hb
  · -- The new key was nowhere in the table, so its slot is the only one that holds it.
    have hfresh : ∀ i value', slots i ≠ some (key, value') := by
      intro i value' hi
      exact hkey (List.mem_map.mpr ⟨_, h.sound i _ hi, rfl⟩)
    intro i j k v v' hi hj
    by_cases hislot : i = probeSlot capacity (home key) distance <;>
      by_cases hjslot : j = probeSlot capacity (home key) distance
    · rw [hislot, hjslot]
    · rw [hislot, Function.update_self] at hi
      rw [Function.update_of_ne hjslot] at hj
      cases hi
      exact absurd hj (hfresh j _)
    · rw [hjslot, Function.update_self] at hj
      rw [Function.update_of_ne hislot] at hi
      cases hj
      exact absurd hi (hfresh i _)
    · rw [Function.update_of_ne hislot] at hi
      rw [Function.update_of_ne hjslot] at hj
      exact h.unique i j k v v' hi hj
  · rw [List.map_append, List.nodup_append]
    refine ⟨h.keys, List.nodup_singleton _, ?_⟩
    rintro k hk _ hk' rfl
    rw [List.map_singleton, List.mem_singleton] at hk'
    rw [show k = key from hk'] at hk
    exact hkey hk

variable [DecidableEq κ]

theorem mem_of_probe (h : Stores capacity home slots entries) :
    ∀ {rounds slot : ℕ}, probe capacity slots key rounds slot = .found value → (key, value) ∈ entries
  | 0, _, hfound => by simp [probe] at hfound
  | rounds + 1, slot, hfound => by
    rw [probe] at hfound
    cases hslot : slots slot with
    | none => simp [hslot] at hfound
    | some entry =>
      by_cases hkey : entry.1 = key
      · simp only [hslot, if_pos hkey, Probe.found.injEq] at hfound
        rw [← hkey, ← hfound]
        exact h.sound slot entry hslot
      · simp only [hslot, if_neg hkey] at hfound
        exact h.mem_of_probe hfound

/-- Slots that other keys have taken are passed. -/
theorem probe_skip {home : ℕ} {rounds : ℕ} (hrounds : distance ≤ rounds)
    (h : ∀ d < distance, ∃ entry, slots (probeSlot capacity home d) = some entry ∧ entry.1 ≠ key) :
    probe capacity slots key rounds (probeSlot capacity home 0) =
      probe capacity slots key (rounds - distance) (probeSlot capacity home distance) := by
  induction distance with
  | zero => rfl
  | succ distance ih =>
    obtain ⟨entry, hentry, hne⟩ := h distance distance.lt_succ_self
    rw [ih (by omega) fun d hd => h d (hd.trans distance.lt_succ_self),
      show rounds - distance = rounds - (distance + 1) + 1 by omega, probe, hentry]
    simp only [if_neg hne, probeSlot_succ]

theorem probe_found (h : Stores capacity home slots entries) (hmem : (key, value) ∈ entries) :
    probe capacity slots key capacity (probeSlot capacity (home key) 0) = .found value := by
  obtain ⟨distance, hlt, hhit, hbefore⟩ := h.reachable _ hmem
  rw [probe_skip hlt.le fun d hd => ?_, show capacity - distance = capacity - distance - 1 + 1 by omega, probe]
  · simp [hhit]
  · obtain ⟨entry, hentry⟩ := Option.ne_none_iff_exists'.mp (hbefore d hd)
    refine ⟨entry, hentry, ?_⟩
    rintro rfl
    exact hd.ne (probeSlot_inj (hd.trans hlt) hlt (h.unique _ _ _ _ _ hentry hhit))

/-- A key that is not stored is looked for until a vacant slot, with only taken slots on the way. -/
theorem probe_vacant (h : Stores capacity home slots entries) (hkey : key ∉ entries.map Prod.fst)
    (hroom : entries.length < capacity) :
    ∃ distance < capacity,
      probe capacity slots key capacity (probeSlot capacity (home key) 0) =
        .vacant (probeSlot capacity (home key) distance) ∧
      slots (probeSlot capacity (home key) distance) = none ∧
      ∀ before < distance, slots (probeSlot capacity (home key) before) ≠ none := by
  classical
  have hexists := h.exists_vacant hroom (home key)
  obtain ⟨hlt, hvacant⟩ := Nat.find_spec hexists
  have hbefore : ∀ before < Nat.find hexists, slots (probeSlot capacity (home key) before) ≠ none := by
    intro before hb hnone
    exact Nat.find_min hexists hb ⟨hb.trans hlt, hnone⟩
  refine ⟨Nat.find hexists, hlt, ?_, hvacant, hbefore⟩
  generalize Nat.find hexists = distance at hlt hvacant hbefore
  rw [probe_skip hlt.le fun d hd => ?_, show capacity - distance = capacity - distance - 1 + 1 by omega, probe]
  · simp only [hvacant]
  · obtain ⟨entry, hentry⟩ := Option.ne_none_iff_exists'.mp (hbefore d hd)
    refine ⟨entry, hentry, ?_⟩
    rintro rfl
    exact hkey (List.mem_map_of_mem (h.sound _ _ hentry))

end Stores

end QTrace.Lib
