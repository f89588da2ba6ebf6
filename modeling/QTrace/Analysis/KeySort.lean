import QTrace.Analysis.Store
import QTrace.Lib.RadixSort

/-! Sorting rows by their event keys. Seventy byte passes, from the last field of a key to the first one, spell
a number for each key, and these numbers compare as the keys do. -/

namespace QTrace.Analysis

open Lib

def compareEventKeys (left right : EventKey) : Ordering :=
  (((((compare left.artifact right.artifact).then (compare left.timeline right.timeline)).then
    (compare left.recordOrdinal right.recordOrdinal)).then (compare left.sourceOffset right.sourceOffset)).then
      (compare left.sequence right.sequence)).then (compare left.tid right.tid)

/-- A byte of a number, the least one first. -/
def leByte (value index : ℕ) : ℕ := value / 256 ^ index % 256

def stableKeyByte (pass : ℕ) (key : EventKey) : ℕ :=
  if pass ≤ 3 then leByte (key.tid.getD 0).toNat pass
  else if pass = 4 then key.tid.isSome.toNat
  else if pass ≤ 12 then leByte (key.sequence.getD 0).toNat (pass - 5)
  else if pass = 13 then key.sequence.isSome.toNat
  else if pass ≤ 21 then leByte key.sourceOffset.toNat (pass - 14)
  else if pass ≤ 29 then leByte key.recordOrdinal.toNat (pass - 22)
  else if pass ≤ 37 then leByte key.timeline.toNat (pass - 30)
  else (key.artifact.getD (69 - pass) 0).toNat

def stableKeyRadixPasses : ℕ := 70

/-- `radix_sort_rows_by_keys_guarded`, under a guard that grants the work. -/
def radixSortRowsByKeys (keys : List EventKey) (rows : List ℕ) : Except AnalysisError (List ℕ) :=
  if rows.length < 2 then .ok rows
  else if rows.any (keys.length ≤ ·) then .error (.store "candidate row is outside the event-key map")
  else .ok (RadixSort.passes (fun pass row => keys[row]?.elim 0 (stableKeyByte pass)) stableKeyRadixPasses rows
    (List.replicate rows.length 0)).1

theorem stableKeyByte_lt (pass : ℕ) (key : EventKey) : stableKeyByte pass key < 256 := by
  unfold stableKeyByte
  split_ifs <;> first | exact Nat.mod_lt _ (by decide) | exact UInt8.toNat_lt _ | skip
  all_goals exact (Bool.toNat_lt _).trans (by decide)

/-- The number that some of the passes spell. -/
abbrev fieldValue (first count : ℕ) (key : EventKey) : ℕ :=
  RadixSort.keyValue 256 (fun i => stableKeyByte (first + i)) count key

theorem compare_sequence (a b : Option UInt64) :
    (compare a.isSome.toNat b.isSome.toNat).then (compare (a.getD 0).toNat (b.getD 0).toNat) = compare a b := by
  rw [← UInt64.compare_eq_toNat_compare_toNat]
  cases a <;> cases b <;> rfl

theorem compare_tid (a b : Option UInt32) :
    (compare a.isSome.toNat b.isSome.toNat).then (compare (a.getD 0).toNat (b.getD 0).toNat) = compare a b := by
  rw [← UInt32.compare_eq_toNat_compare_toNat]
  cases a <;> cases b <;> rfl

/-- The number of a digest, whose first byte weighs most. -/
def bigEndian : List UInt8 → ℕ
  | [] => 0
  | byte :: rest => bigEndian rest + 256 ^ rest.length * byte.toNat

theorem bigEndian_lt (bytes : List UInt8) : bigEndian bytes < 256 ^ bytes.length := by
  induction bytes with
  | nil => decide
  | cons byte rest ih =>
    have hlt : _ < 0 + _ := RadixSort.add_mul_lt byte.toNat_lt ih
    rwa [Nat.zero_add, ← pow_succ] at hlt

theorem compare_bigEndian {bytes bytes' : List UInt8} (h : bytes.length = bytes'.length) :
    compare (bigEndian bytes) (bigEndian bytes') = compare bytes bytes' := by
  induction bytes generalizing bytes' with
  | nil =>
    rw [List.length_eq_zero_iff.mp h.symm]
    rfl
  | cons byte rest ih =>
    cases bytes' with
    | nil => cases h
    | cons byte' rest' =>
      have hrest : rest.length = rest'.length := Nat.succ.inj h
      rw [bigEndian, bigEndian, hrest, RadixSort.compare_add_mul (hrest ▸ bigEndian_lt rest) (bigEndian_lt rest'),
        ih hrest, ← UInt8.compare_eq_toNat_compare_toNat, List.compare_cons_cons]

theorem keyValue_bigEndian {digit : ℕ → EventKey → ℕ} {key : EventKey} {bytes : List UInt8}
    (h : ∀ i < bytes.length, digit i key = (bytes.getD (bytes.length - 1 - i) 0).toNat) :
    RadixSort.keyValue 256 digit bytes.length key = bigEndian bytes := by
  induction bytes with
  | nil => rfl
  | cons byte rest ih =>
    have hrest : ∀ i < rest.length, digit i key = (rest.getD (rest.length - 1 - i) 0).toNat := by
      intro i hi
      rw [h i (by simp; omega), List.length_cons, show rest.length + 1 - 1 - i = rest.length - 1 - i + 1 by omega,
        List.getD_cons_succ]
    rw [List.length_cons, RadixSort.keyValue, ih hrest, h rest.length (by simp), bigEndian, Nat.mul_comm]
    simp

theorem compare_fieldValue_add (first j k : ℕ) (left right : EventKey) :
    compare (fieldValue first (j + k) left) (fieldValue first (j + k) right) =
      (compare (fieldValue (first + j) k left) (fieldValue (first + j) k right)).then
        (compare (fieldValue first j left) (fieldValue first j right)) := by
  rw [fieldValue, RadixSort.compare_keyValue_add fun i => stableKeyByte_lt (first + i)]
  simp only [fieldValue, Nat.add_assoc]

section Fields

variable (key : EventKey)

theorem fieldValue_tid : fieldValue 0 4 key = (key.tid.getD 0).toNat := by
  refine RadixSort.keyValue_eq (UInt32.toNat_lt _) fun i hi => ?_
  rw [Nat.zero_add, stableKeyByte, if_pos (by omega), leByte]

theorem fieldValue_hasTid : fieldValue 4 1 key = key.tid.isSome.toNat := by
  simp [fieldValue, RadixSort.keyValue, stableKeyByte]

theorem fieldValue_sequence : fieldValue 5 8 key = (key.sequence.getD 0).toNat := by
  refine RadixSort.keyValue_eq (UInt64.toNat_lt _) fun i hi => ?_
  rw [stableKeyByte, if_neg (by omega), if_neg (by omega), if_pos (by omega), Nat.add_sub_cancel_left, leByte]

theorem fieldValue_hasSequence : fieldValue 13 1 key = key.sequence.isSome.toNat := by
  simp [fieldValue, RadixSort.keyValue, stableKeyByte]

theorem fieldValue_sourceOffset : fieldValue 14 8 key = key.sourceOffset.toNat := by
  refine RadixSort.keyValue_eq (UInt64.toNat_lt _) fun i hi => ?_
  unfold stableKeyByte
  split_ifs <;> first | omega | rw [Nat.add_sub_cancel_left, leByte]

theorem fieldValue_recordOrdinal : fieldValue 22 8 key = key.recordOrdinal.toNat := by
  refine RadixSort.keyValue_eq (UInt64.toNat_lt _) fun i hi => ?_
  unfold stableKeyByte
  split_ifs <;> first | omega | rw [Nat.add_sub_cancel_left, leByte]

theorem fieldValue_timeline : fieldValue 30 8 key = key.timeline.toNat := by
  refine RadixSort.keyValue_eq (UInt64.toNat_lt _) fun i hi => ?_
  unfold stableKeyByte
  split_ifs <;> first | omega | rw [Nat.add_sub_cancel_left, leByte]

theorem fieldValue_artifact (h : key.artifact.length = 32) : fieldValue 38 32 key = bigEndian key.artifact := by
  rw [fieldValue, ← h]
  refine keyValue_bigEndian fun i hi => ?_
  unfold stableKeyByte
  split_ifs <;> first | omega | rw [show 69 - (38 + i) = key.artifact.length - 1 - i by omega]

end Fields

/-- The passes order the keys as the comparison does. -/
theorem compare_stableKey {left right : EventKey} (hleft : left.artifact.length = 32)
    (hright : right.artifact.length = 32) :
    compare (fieldValue 0 70 left) (fieldValue 0 70 right) = compareEventKeys left right := by
  have hassoc : ∀ a b c : Ordering, a.then (b.then c) = (a.then b).then c := by
    intro a b c
    cases a <;> rfl
  rw [show 70 = 4 + (1 + (8 + (1 + (8 + (8 + (8 + 32)))))) from rfl, compare_fieldValue_add, compare_fieldValue_add,
    compare_fieldValue_add, compare_fieldValue_add, compare_fieldValue_add, compare_fieldValue_add,
    compare_fieldValue_add]
  simp only [Nat.zero_add, Nat.reduceAdd, fieldValue_tid, fieldValue_hasTid, fieldValue_sequence, fieldValue_hasSequence,
    fieldValue_sourceOffset, fieldValue_recordOrdinal, fieldValue_timeline, fieldValue_artifact, hleft, hright]
  rw [compare_bigEndian (hleft.trans hright.symm), ← UInt64.compare_eq_toNat_compare_toNat,
    ← UInt64.compare_eq_toNat_compare_toNat, ← UInt64.compare_eq_toNat_compare_toNat, compareEventKeys,
    ← compare_sequence, ← compare_tid, hassoc, hassoc]

theorem keyValue_row {keys : List EventKey} {row : ℕ} {key : EventKey} (h : keys[row]? = some key) (k : ℕ) :
    RadixSort.keyValue 256 (fun pass row => keys[row]?.elim 0 (stableKeyByte pass)) k row = fieldValue 0 k key := by
  induction k with
  | zero => rfl
  | succ k ih =>
    rw [RadixSort.keyValue, ih, h]
    show _ = fieldValue 0 k key + stableKeyByte (0 + k) key * 256 ^ k
    rw [Nat.zero_add]
    rfl

/-- The rows come back, sorted by their keys, and rows of one key in the order in which they were given. The
digests of the keys have 32 bytes, and the rows are rows of the keys. -/
theorem radixSortRowsByKeys_sorted {keys : List EventKey} (hdigest : ∀ key ∈ keys, key.artifact.length = 32)
    {rows : List ℕ} (hrows : ∀ row ∈ rows, row < keys.length) :
    ∃ sorted, radixSortRowsByKeys keys rows = .ok sorted ∧ sorted.Perm rows ∧
      sorted.Pairwise (fun row row' => ∀ key key', keys[row]? = some key → keys[row']? = some key' →
        (compareEventKeys key key').isLE = true) ∧
      ∀ key, sorted.filter (fun row => keys[row]? = some key) = rows.filter fun row => keys[row]? = some key := by
  unfold radixSortRowsByKeys
  split_ifs with hshort hoff
  · refine ⟨rows, rfl, .refl _, ?_, fun _ => rfl⟩
    match rows, hshort with
    | [], _ => exact .nil
    | [row], _ => exact List.pairwise_singleton _ _
  · obtain ⟨row, hrow, hle⟩ := List.any_eq_true.mp hoff
    exact absurd (hrows row hrow) (by simpa using hle)
  · have hdigit : ∀ k (row : ℕ), keys[row]?.elim 0 (stableKeyByte k) < 256 := by
      intro k row
      cases keys[row]? with
      | none => exact Nat.zero_lt_succ _
      | some key => exact stableKeyByte_lt k key
    rw [(RadixSort.passes_eq hdigit stableKeyRadixPasses List.length_replicate).1]
    refine ⟨_, rfl, RadixSort.sortPasses_perm hdigit _ rows, ?_, fun key => ?_⟩
    · refine (RadixSort.sortPasses_pairwise hdigit _ rows).imp fun hle key key' hkey hkey' => ?_
      rw [keyValue_row hkey, keyValue_row hkey'] at hle
      rw [← compare_stableKey (hdigest key (List.mem_of_getElem? hkey)) (hdigest key' (List.mem_of_getElem? hkey'))]
      exact Nat.isLE_compare.mpr hle
    · refine RadixSort.filter_sortPasses (d := fun k => stableKeyByte k key) (fun k => stableKeyByte_lt k key) ?_ _
      intro k _ row hrow
      rw [of_decide_eq_true hrow]
      rfl

/-- A key without a sequence number, and one with the number zero. -/
def absentAndZero : List EventKey :=
  [⟨List.replicate 32 0, 0, 0, 0, none, none⟩, ⟨List.replicate 32 0, 0, 0, 0, some 0, none⟩]

theorem radixSortRowsByKeys_absentAndZero :
    ∃ sorted, radixSortRowsByKeys absentAndZero [1, 0, 1] = .ok sorted ∧ sorted.Perm [1, 0, 1] := by
  obtain ⟨sorted, hsorted, hperm, -⟩ := @radixSortRowsByKeys_sorted absentAndZero (by decide) [1, 0, 1] (by decide)
  exact ⟨sorted, hsorted, hperm⟩

end QTrace.Analysis
