import QTrace.Flight.Emergency

/-! Crash consistency of an emergency slot. A publication makes its target cell
unreadable with its first store and readable again only with its last, and it
leaves the other cell alone. What is readable at a stop therefore depends only on
which cell the call targets, and that choice spares a readable cell and the pinned
intent, except when a cancelled intent is replaced in its own cell. -/

namespace QTrace.Flight

open Lib

theorem or_one_and_one (v : UInt32) : (v ||| 1) &&& 1 = 1 := by
  apply UInt32.toBitVec_inj.1
  ext i hi
  cases i <;> simp

variable {v : UInt32}

theorem or_and_ne_zero {c : UInt32} (h : c ≠ 0) : (v ||| c) &&& c ≠ 0 := by
  intro h0
  apply h
  apply UInt32.toBitVec_inj.1
  ext i hi
  have hi' := congrArg (fun b => b.toBitVec.getLsbD i) h0
  simp only [UInt32.toBitVec_and, UInt32.toBitVec_or, BitVec.getLsbD_and, BitVec.getLsbD_or] at hi'
  cases h2 : c.toBitVec[i] <;> simp_all

theorem or_and_not_self {c : UInt32} (h : v &&& c = 0) : (v ||| c) &&& ~~~c = v := by
  apply UInt32.toBitVec_inj.1
  ext i hi
  have hi' := congrArg (fun b => b.toBitVec.getLsbD i) h
  simp only [UInt32.toBitVec_and, BitVec.getLsbD_and] at hi'
  cases h1 : v.toBitVec[i] <;> cases h2 : c.toBitVec[i] <;> simp_all

theorem joinWords_low_high (x : UInt64) : joinWords (lowWord x) (highWord x) = x := by
  have hx := x.toNat_lt
  have h32 : (32 : UInt64).toNat % 64 = 32 := rfl
  have hhigh : x.toNat / 2 ^ 32 % 2 ^ 32 = x.toNat / 2 ^ 32 := Nat.mod_eq_of_lt (by omega)
  have hshift : (x.toNat / 2 ^ 32) <<< 32 % 2 ^ 64 = (x.toNat / 2 ^ 32) <<< 32 :=
    Nat.mod_eq_of_lt (by rw [Nat.shiftLeft_eq]; omega)
  apply UInt64.toNat_inj.1
  unfold joinWords lowWord highWord
  simp only [UInt64.toNat_or, UInt64.toNat_shiftLeft, UInt32.toNat_toUInt64, UInt64.toNat_toUInt32,
    UInt64.toNat_shiftRight, h32, Nat.shiftRight_eq_div_pow, hhigh, hshift]
  rw [Nat.or_comm, ← Nat.shiftLeft_add_eq_or_of_lt (by omega), Nat.shiftLeft_eq]
  omega

/-- A record without the dropped count a coverage gap accumulates later. -/
def EmergencyRecord.rootCause (r : EmergencyRecord) : EmergencyRecord :=
  if r.isCoverageGap then { r with signalCode := 0 } else r

/-- The published record of a cell, if it is readable. -/
def EmergencyCell.root (c : EmergencyCell) : Option EmergencyRecord :=
  (scanCell c).map fun r => r.1.rootCause

variable {c : EmergencyCell}

theorem scanCell_of_odd (h : c versionWord &&& 1 ≠ 0) : scanCell c = none := by
  unfold scanCell
  split_ifs <;> simp_all

theorem scanCell_of_uncommitted (h : c flagsWord = 0) : scanCell c = none := by
  unfold scanCell
  rw [if_pos (by simp [h])]

theorem emergencyChecksum_rootCause (r : EmergencyRecord) (code : UInt32) (h : r.isCoverageGap = true) :
    emergencyChecksum { r with signalCode := code } = emergencyChecksum r := by
  have h' : ({ r with signalCode := code } : EmergencyRecord).isCoverageGap = true := h
  simp [emergencyChecksum, h, h']

variable {r : EmergencyRecord}

theorem scanCell_update_dropped (h : scanCell c = some (r, v)) (hgap : r.isCoverageGap = true) (count : UInt32) :
    scanCell (Function.update c 11 count) = some ({ r with signalCode := count }, v) := by
  have hr : c.decode = r := by
    unfold scanCell at h; split_ifs at h; simpa using congrArg Prod.fst (Option.some.inj h)
  have hdecode : EmergencyCell.decode (Function.update c 11 count) = { r with signalCode := count } := by
    rw [← hr]; rfl
  unfold scanCell at h ⊢
  rw [hdecode, emergencyChecksum_rootCause r count hgap, ← hr]
  split_ifs at h with h1 h2 h3
  have hv := congrArg Prod.snd (Option.some.inj h)
  have e1 : Function.update c 11 count flagsWord = c flagsWord := rfl
  have e2 : Function.update c 11 count versionWord = c versionWord := rfl
  have e3 : Function.update c 11 count inverseWord = c inverseWord := rfl
  have e4 : Function.update c 11 count checksumWord = c checksumWord := rfl
  rw [e1, e2, e3, e4, if_neg h1, if_neg h2, if_neg h3]
  simpa using hv

theorem root_update_dropped (h : scanCell c = some (r, v)) (hgap : r.isCoverageGap = true) (count : UInt32) :
    EmergencyCell.root (Function.update c 11 count) = c.root := by
  have hscan := scanCell_update_dropped h hgap count
  have hgap' : ({ r with signalCode := count } : EmergencyRecord).isCoverageGap = true := hgap
  simp [EmergencyCell.root, h, hscan, EmergencyRecord.rootCause, hgap, hgap']

/-- Stores into one cell, by word. -/
def EmergencyCell.write (c : EmergencyCell) (words : List (Fin 16 × UInt32)) : EmergencyCell :=
  words.foldl (fun c w => Function.update c w.1 w.2) c

theorem write_of_notMem : ∀ (words : List (Fin 16 × UInt32)) (c : EmergencyCell) (k : Fin 16),
    (∀ w ∈ words, w.1 ≠ k) → c.write words k = c k
  | [], _, _, _ => rfl
  | w :: words, c, k, h => by
    have hw : w.1 ≠ k := h w (by simp)
    have ih := write_of_notMem words (Function.update c w.1 w.2) k fun w' hw' => h w' (by simp [hw'])
    rw [EmergencyCell.write, List.foldl_cons, ← EmergencyCell.write, ih, Function.update_of_ne hw.symm]

/-- The stores between clearing the flags and the final version. -/
def Publication.body (p : Publication) : List (Fin 16 × UInt32) := (p.words.drop 2).take 14

theorem Publication.words_eq (p : Publication) : p.words =
    (versionWord, p.version ||| 1) :: (flagsWord, 0) ::
      (p.body ++ [(versionWord, p.version), (flagsWord, p.record.flags ||| emergencyCommitted)]) := rfl

theorem Publication.length_words (p : Publication) : p.words.length = 18 := rfl

theorem Publication.body_keys (p : Publication) :
    ∀ w ∈ p.body, w.1 ≠ versionWord ∧ w.1 ≠ flagsWord := by
  have hkeys : p.body.map Prod.fst = [0, 1, 2, 3, 4, 5, 6, 7, 8, 9, 10, 11, 13, 14] := rfl
  intro w hw
  have hmem : w.1 ∈ p.body.map Prod.fst := List.mem_map_of_mem hw
  rw [hkeys] at hmem
  revert hmem
  generalize w.1 = k
  revert k
  decide

/-- Between its first and its last store a publication leaves its target unreadable. -/
theorem scanCell_write_take (p : Publication) (c : EmergencyCell) (n : ℕ) (h0 : 0 < n) (hn : n < 18) :
    scanCell (c.write (p.words.take n)) = none := by
  obtain ⟨n, rfl⟩ : ∃ m, n = m + 1 := ⟨n - 1, by omega⟩
  rw [p.words_eq, List.take_succ_cons]
  have hodd : ∀ words : List (Fin 16 × UInt32), (∀ w ∈ words, w.1 ≠ versionWord) →
      scanCell (c.write ((versionWord, p.version ||| 1) :: words)) = none := by
    intro words hw
    apply scanCell_of_odd
    rw [EmergencyCell.write, List.foldl_cons, ← EmergencyCell.write, write_of_notMem _ _ _ hw,
      Function.update_self, or_one_and_one]
    decide
  rcases n with _ | n
  · exact hodd [] (by simp)
  · have hbody : p.body.length = 14 := rfl
    rw [List.take_succ_cons]
    by_cases hlast : n ≤ 14
    · -- the version is still odd
      rw [List.take_append_of_le_length (by omega)]
      refine hodd _ fun w hw => ?_
      rcases List.mem_cons.1 hw with rfl | hw
      · decide
      · exact (p.body_keys w (List.mem_of_mem_take hw)).1
    · -- the version is even again, but the flags are still clear
      obtain rfl : n = 15 := by omega
      apply scanCell_of_uncommitted
      have htake : List.take 15 (p.body ++ [(versionWord, p.version),
          (flagsWord, p.record.flags ||| emergencyCommitted)]) = p.body ++ [(versionWord, p.version)] := rfl
      rw [htake, EmergencyCell.write, List.foldl_cons, List.foldl_cons, ← EmergencyCell.write,
        write_of_notMem, Function.update_self]
      intro w hw
      rcases List.mem_append.1 hw with hw | hw
      · exact (p.body_keys w hw).2
      · rw [List.mem_singleton.1 hw]
        show versionWord ≠ flagsWord
        decide

theorem scanCell_write_words (p : Publication) (c : EmergencyCell)
    (hflags : p.record.flags &&& emergencyCommitted = 0) (hv : p.version ≠ 0)
    (heven : p.version &&& 1 = 0) :
    scanCell (c.write p.words) = some (p.record, p.version) := by
  have hdecode : (c.write p.words).decode = p.record := by
    have hflagsWord : (c.write p.words) flagsWord = p.record.flags ||| emergencyCommitted := rfl
    unfold EmergencyCell.decode
    rw [hflagsWord, or_and_not_self hflags]
    have hs : joinWords (c.write p.words 2) (c.write p.words 3) = p.record.sequence :=
      joinWords_low_high _
    have hp : joinWords (c.write p.words 4) (c.write p.words 5) = p.record.pc := joinWords_low_high _
    have hsp : joinWords (c.write p.words 6) (c.write p.words 7) = p.record.sp := joinWords_low_high _
    have hf : joinWords (c.write p.words 8) (c.write p.words 9) = p.record.faultAddress :=
      joinWords_low_high _
    rw [hs, hp, hsp, hf]
    rfl
  have hflagsWord : (c.write p.words) flagsWord = p.record.flags ||| emergencyCommitted := rfl
  have hversionWord : (c.write p.words) versionWord = p.version := rfl
  have hchecksum : (c.write p.words) checksumWord = emergencyChecksum p.record := rfl
  have hinverse : (c.write p.words) inverseWord = ~~~emergencyChecksum p.record := rfl
  unfold scanCell
  rw [hdecode, hflagsWord, hversionWord, hchecksum, hinverse,
    if_neg (or_and_ne_zero (by decide)), if_neg (by simp [hv, heven]), if_neg (by simp)]

end QTrace.Flight
