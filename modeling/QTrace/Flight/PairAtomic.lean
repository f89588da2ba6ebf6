import QTrace.Flight.SealedChunk

/-! `append_pair` stopped after any of its stores. Until the last store the commit word of
the first record is zero and its length field holds a prefix of the length, so an active
scan stops in front of the pair. The one exception is a generation whose commit word for
that length is itself zero: there an uncommitted record looks committed. -/

namespace QTrace.Flight

open Lib

/-- The bytes `want` asks for stand where it asks for them. -/
def Matches (data : List UInt8) (want : ℕ → Option UInt8) : Prop := ∀ i b, want i = some b → data[i]? = some b

variable {data bytes : List UInt8} {want : ℕ → Option UInt8} {k : ℕ} {unnumbered : Bool}

theorem getElem?_overwrite {offset : ℕ} (h : offset + bytes.length ≤ data.length) (i : ℕ) :
    (overwrite data offset bytes)[i]? =
      if offset ≤ i ∧ i < offset + bytes.length then bytes[i - offset]? else data[i]? := by
  have hfront : (data.take offset).length = offset := by
    rw [List.length_take]
    omega
  unfold overwrite
  rw [List.append_assoc]
  by_cases hlow : i < offset
  · rw [if_neg (by omega), List.getElem?_append_left (by omega), List.getElem?_take_of_lt hlow]
  · rw [List.getElem?_append_right (by omega), hfront]
    by_cases hhigh : i < offset + bytes.length
    · rw [if_pos ⟨by omega, hhigh⟩, List.getElem?_append_left (by omega)]
    · rw [if_neg (by omega), List.getElem?_append_right (by omega), List.getElem?_drop]
      congr 1
      omega

/-- What a store has to bring about: its own bytes, and the others as they were. -/
def DataStore.Turns (s : DataStore) (want want' : ℕ → Option UInt8) : Prop :=
  ∀ i b, want' i = some b →
    if s.offset ≤ i ∧ i < s.offset + s.bytes.length then s.bytes[i - s.offset]? = some b else want i = some b

variable {s : DataStore}

theorem Matches.store {want' : ℕ → Option UInt8} (h : Matches data want)
    (hin : s.offset + s.bytes.length ≤ data.length) (hs : s.Turns want want') :
    Matches (overwrite data s.offset s.bytes) want' := by
  intro i b hb
  have hi := hs i b hb
  rw [getElem?_overwrite hin]
  split_ifs at hi ⊢ with hcovered
  · exact hi
  · exact h i b hi

theorem Matches.storeAll : ∀ {stores : List DataStore} {data : List UInt8},
    Matches data want → (∀ s ∈ stores, s.offset + s.bytes.length ≤ data.length) →
    (∀ s ∈ stores, s.Turns want want) → Matches (storeData data stores) want
  | [], _, h, _, _ => h
  | s :: stores, data, h, hin, hturns => by
    have hlength := length_overwrite (hin s (by simp))
    rw [storeData, List.foldl_cons, ← storeData]
    refine (h.store (hin s (by simp)) (hturns s (by simp))).storeAll (fun x hx => ?_) fun x hx => hturns x (by simp [hx])
    rw [hlength]
    exact hin x (by simp [hx])

theorem turns_of_disjoint (h : ∀ i, s.offset ≤ i → i < s.offset + s.bytes.length → want i = none) :
    s.Turns want want := by
  intro i b hb
  rw [if_neg]
  · exact hb
  · rintro ⟨hlow, hhigh⟩
    rw [h i hlow hhigh] at hb
    cases hb

theorem turns_of_zero (hzero : ∀ b ∈ s.bytes, b = 0)
    (h : ∀ i b, want i = some b → s.offset ≤ i → i < s.offset + s.bytes.length → b = 0) : s.Turns want want := by
  intro i b hb
  split_ifs with hcovered
  · have hlt : i - s.offset < s.bytes.length := by omega
    rw [List.getElem?_eq_getElem hlt, hzero _ (List.getElem_mem hlt), h i b hb hcovered.1 hcovered.2]
  · exact hb

/-- The first `k` bytes of the length field, and zeros where the rest of the length, the
sequence number (unless it is already being written) and the commit word belong. -/
def underway (destination total k : ℕ) (unnumbered : Bool) (i : ℕ) : Option UInt8 :=
  if destination + 4 ≤ i ∧ i < destination + 8 then
    if i < destination + 4 + k then (leBytes 4 total)[i - (destination + 4)]? else some 0
  else if destination + 8 ≤ i ∧ i < destination + 16 then if unnumbered then some 0 else none
  else if destination + 20 ≤ i ∧ i < destination + 24 then some 0
  else none

variable {destination total i : ℕ}

theorem underway_zero {b : UInt8} (h : underway destination total 0 true i = some b) : b = 0 := by
  unfold underway at h
  split_ifs at h
  · omega
  all_goals exact (Option.some.inj h).symm

theorem underway_outside (h : i < destination + 4 ∨ destination + 24 ≤ i) :
    underway destination total k unnumbered i = none := by
  unfold underway
  rw [if_neg (by omega), if_neg (by omega), if_neg (by omega)]

/-- Once the number is being written, only the length and the commit word are asked for. -/
theorem underway_numbered (h : destination + 8 ≤ i) (h' : i < destination + 20) :
    underway destination total k false i = none := by
  unfold underway
  rw [if_neg (by omega)]
  by_cases hnumber : i < destination + 16
  · rw [if_pos ⟨h, hnumber⟩]
    rfl
  · rw [if_neg (by omega), if_neg (by omega)]

theorem Matches.numbered (h : Matches data (underway destination total k true)) :
    Matches data (underway destination total k false) := by
  intro i b hb
  refine h i b ?_
  by_cases hnumber : destination + 8 ≤ i ∧ i < destination + 16
  · rw [underway_numbered hnumber.1 (by omega)] at hb
    cases hb
  · unfold underway at hb ⊢
    rw [if_neg hnumber] at hb ⊢
    exact hb

theorem byteStores_take : ∀ (bytes : List UInt8) (offset k : ℕ),
    (byteStores offset bytes).take k = byteStores offset (bytes.take k)
  | [], _, _ => by simp [byteStores]
  | _ :: _, _, 0 => rfl
  | b :: bytes, offset, k + 1 => by
    rw [byteStores, List.take_succ_cons, byteStores_take bytes, List.take_succ_cons, byteStores]

theorem byteStores_append : ∀ (bytes more : List UInt8) (offset : ℕ),
    byteStores offset (bytes ++ more) = byteStores offset bytes ++ byteStores (offset + bytes.length) more
  | [], _, _ => rfl
  | b :: bytes, more, offset => by
    rw [List.cons_append, byteStores, byteStores_append bytes, byteStores, List.cons_append, List.length_cons,
      Nat.add_assoc, Nat.add_comm 1]

theorem byteStores_zero : ∀ {n offset : ℕ} {s : DataStore}, s ∈ byteStores offset (List.replicate n 0) →
    ∀ b ∈ s.bytes, b = 0
  | 0, _, s, hs => by simp [byteStores] at hs
  | n + 1, offset, s, hs => by
    rw [List.replicate_succ, byteStores] at hs
    rcases List.mem_cons.1 hs with rfl | hs
    · simp
    · exact byteStores_zero hs

@[simp] theorem length_byteStores : ∀ (bytes : List UInt8) (offset : ℕ), (byteStores offset bytes).length = bytes.length
  | [], _ => rfl
  | b :: bytes, offset => by rw [byteStores, List.length_cons, length_byteStores, List.length_cons]

theorem Matches.lengthBytes (h : Matches data (underway destination total 0 true))
    (hin : destination + 8 ≤ data.length) : ∀ {k : ℕ}, k ≤ 4 →
    Matches (storeData data (byteStores (destination + 4) ((leBytes 4 total).take k)))
      (underway destination total k true)
  | 0, _ => h
  | k + 1, hk => by
    have ih := h.lengthBytes hin (k := k) (by omega)
    have hlt : k < (leBytes 4 total).length := by rw [length_leBytes]; omega
    have htake : ((leBytes 4 total).take k).length = k := by rw [List.length_take]; omega
    have hlength : (storeData data (byteStores (destination + 4) ((leBytes 4 total).take k))).length = data.length := by
      refine length_storeData _ _ fun s hs => ?_
      have := byteStores_end _ _ s hs
      omega
    rw [List.take_succ_eq_append_getElem hlt, byteStores_append, storeData_append, htake]
    refine ih.store (s := ⟨destination + 4 + k, [(leBytes 4 total)[k]]⟩) ?_ fun i b hb => ?_
    · show destination + 4 + k + 1 ≤ _
      omega
    · -- the byte stored now, or one asked for before
      show if destination + 4 + k ≤ i ∧ i < destination + 4 + k + 1 then _ else _
      split_ifs with hi
      · obtain rfl : i = destination + 4 + k := by omega
        rw [underway, if_pos (by omega), if_pos (by omega), Nat.add_sub_cancel_left] at hb
        rw [Nat.sub_self, List.getElem?_cons_zero, ← hb, List.getElem?_eq_getElem hlt]
      · unfold underway at hb ⊢
        split_ifs at hb ⊢ <;> first | exact hb | omega

theorem leBytes_zero : ∀ w : ℕ, leBytes w 0 = List.replicate w 0
  | 0 => rfl
  | w + 1 => by
    rw [leBytes, Nat.zero_div, leBytes_zero w, List.replicate_succ]
    rfl

theorem leNat_zeros (j : ℕ) : leNat (List.replicate j 0) = 0 := by
  induction j with
  | zero => rfl
  | succ j ih =>
    rw [List.replicate_succ, leNat, ih]
    rfl

theorem leNat_leBytes_zeros (j : ℕ) : ∀ k n : ℕ, leNat (leBytes k n ++ List.replicate j 0) = n % 256 ^ k
  | 0, n => by rw [leBytes, List.nil_append, leNat_zeros, pow_zero, Nat.mod_one]
  | k + 1, n => by
    have hbyte : (UInt8.ofNat n).toNat = n % 256 := by simp
    rw [leBytes, List.cons_append, leNat, leNat_leBytes_zeros j k, hbyte, pow_succ', Nat.mod_mul]

theorem take_leBytes_of_le : ∀ {k w : ℕ} (n : ℕ), k ≤ w → (leBytes w n).take k = leBytes k n
  | 0, _, _, _ => rfl
  | k + 1, w, n, h => by
    obtain ⟨w, rfl⟩ : ∃ m, w = m + 1 := ⟨w - 1, by omega⟩
    rw [leBytes, List.take_succ_cons, take_leBytes_of_le (n / 256) (by omega), leBytes]

theorem Matches.slice (h : Matches data want) (offset : ℕ) (bytes : List UInt8)
    (hwant : ∀ j < bytes.length, want (offset + j) = bytes[j]?) :
    (data.drop offset).take bytes.length = bytes := by
  refine List.ext_getElem? fun j => ?_
  by_cases hj : j < bytes.length
  · rw [List.getElem?_take_of_lt hj, List.getElem?_drop, List.getElem?_eq_getElem hj]
    exact h _ _ ((hwant j hj).trans (List.getElem?_eq_getElem hj))
  · rw [List.getElem?_eq_none (by rw [List.length_take]; omega), List.getElem?_eq_none (by omega)]

theorem Matches.leNat_zero (h : Matches data want) {start count : ℕ}
    (hwant : ∀ j < count, want (destination + start + j) = some 0) :
    leNat (((data.drop destination).drop start).take count) = 0 := by
  have hslice := h.slice (destination + start) (List.replicate count 0) fun j hj => by
    rw [List.length_replicate] at hj
    rw [hwant j hj, List.getElem?_replicate, if_pos hj]
  rw [List.length_replicate] at hslice
  rw [List.drop_drop, hslice, leNat_zeros]

theorem Matches.commit (h : Matches data (underway destination total k unnumbered)) :
    (parseRecordHeader (data.drop destination)).commit = 0 :=
  h.leNat_zero fun j hj => by rw [underway, if_neg (by omega), if_neg (by omega), if_pos (by omega)]

theorem Matches.sequence (h : Matches data (underway destination total k true)) :
    (parseRecordHeader (data.drop destination)).sequence = 0 :=
  h.leNat_zero fun j hj => by rw [underway, if_neg (by omega), if_pos (by omega), if_pos rfl]

theorem Matches.totalBytes (hk : k ≤ 4) (h : Matches data (underway destination total k unnumbered)) :
    (parseRecordHeader (data.drop destination)).totalBytes = total % 256 ^ k := by
  show leNat (((data.drop destination).drop 4).take 4) = total % 256 ^ k
  have hlength : (leBytes k total ++ List.replicate (4 - k) 0).length = 4 := by
    rw [List.length_append, length_leBytes, List.length_replicate]
    omega
  have hslice := h.slice (destination + 4) (leBytes k total ++ List.replicate (4 - k) 0)
    fun j hj => by
      rw [hlength] at hj
      rw [underway, if_pos (by omega), Nat.add_sub_cancel_left]
      split_ifs with hlow
      · rw [List.getElem?_append_left (by rw [length_leBytes]; omega), ← take_leBytes_of_le total hk,
          List.getElem?_take_of_lt (by omega)]
      · rw [List.getElem?_append_right (by rw [length_leBytes]; omega), length_leBytes, List.getElem?_replicate,
          if_pos (by omega)]
  rw [hlength] at hslice
  rw [List.drop_drop, hslice, leNat_leBytes_zeros]

/-- A record under construction looks committed exactly when its generation's commit word
for the length written so far is zero. -/
theorem Matches.looksCommitted (hk : k ≤ 4) (h : Matches data (underway destination total k unnumbered))
    (hin : destination + 24 ≤ data.length) (generation : ℕ) :
    looksCommitted generation (data.drop destination) = decide (commitWord (total % 256 ^ k) generation = 0) := by
  unfold Flight.looksCommitted
  rw [h.commit, h.totalBytes hk, List.length_drop]
  refine decide_eq_decide.2 ⟨fun hc => hc.2.symm, fun hc => ⟨?_, hc.symm⟩⟩
  rw [recordHeaderBytes]
  omega

theorem readRecord_unnumbered (h : (parseRecordHeader bytes).sequence = 0) (offset : ℕ) (last : Option ℕ) :
    ∃ e, readRecord bytes offset last = .error e := by
  unfold readRecord
  dsimp only
  split_ifs with h1 h2 h3 h4 h5
  · exact ⟨_, rfl⟩
  · exact ⟨_, rfl⟩
  · exact ⟨_, rfl⟩
  · exact ⟨_, rfl⟩
  · exact ⟨_, rfl⟩
  all_goals exact absurd (Or.inl h) h5

/-- The stores of a pair in front of the first record's length. -/
def SequencedRecord.openStores (a : SequencedRecord) (destination : ℕ) : List DataStore :=
  byteStores destination (List.replicate a.storageBytes 0) ++ byteStores destination (leBytes 2 a.type.code) ++
  byteStores (destination + 2) (leBytes 2 a.flags.toNat)

/-- The stores of a pair behind the first record's length, up to its commit word. -/
def SequencedRecord.closeStores (a c : SequencedRecord) (generation destination : ℕ) : List DataStore :=
  byteStores (destination + 8) (leBytes 8 a.sequence) ++ [⟨destination + 20, leBytes 4 0⟩] ++
  byteStores (destination + recordHeaderBytes) a.payload ++ byteStores (destination + 16) (leBytes 4 a.checksum) ++
  c.encodeStores (destination + a.storageBytes) ++ [c.commitStore generation (destination + a.storageBytes)]

def SequencedRecord.pairStores (a c : SequencedRecord) (generation destination : ℕ) : List DataStore :=
  a.encodeStores destination ++ c.encodeStores (destination + a.storageBytes) ++
    [c.commitStore generation (destination + a.storageBytes), a.commitStore generation destination]

theorem pairStores_eq (a c : SequencedRecord) (generation destination : ℕ) :
    a.pairStores c generation destination = a.openStores destination ++
      (byteStores (destination + 4) (leBytes 4 a.totalBytes) ++
        (a.closeStores c generation destination ++ [a.commitStore generation destination])) := by
  simp [SequencedRecord.pairStores, SequencedRecord.openStores, SequencedRecord.closeStores,
    SequencedRecord.encodeStores]

variable {a c : SequencedRecord} {generation : ℕ} {rest : List UInt8}

theorem openStores_turns : ∀ s ∈ a.openStores destination,
    s.Turns (underway destination total 0 true) (underway destination total 0 true) := by
  intro s hs
  simp only [SequencedRecord.openStores, List.mem_append] at hs
  rcases hs with (hs | hs) | hs
  · exact turns_of_zero (byteStores_zero hs) fun i b hb _ _ => underway_zero hb
  all_goals
    refine turns_of_disjoint fun i hlow hhigh => underway_outside (Or.inl ?_)
    have hend := byteStores_end _ _ s hs
    rw [length_leBytes] at hend
    omega

theorem closeStores_turns (a c : SequencedRecord) (generation : ℕ) : ∀ s ∈ a.closeStores c generation destination,
    s.Turns (underway destination total 4 false) (underway destination total 4 false) := by
  intro s hs
  have hsize : 24 ≤ a.storageBytes := a.headerBytes_le_totalBytes.trans a.totalBytes_le_storageBytes
  have hbehind : destination + 24 ≤ s.offset →
      s.Turns (underway destination total 4 false) (underway destination total 4 false) := fun h =>
    turns_of_disjoint fun i hlow _ => underway_outside (Or.inr (by omega))
  have hnumber : destination + 8 ≤ s.offset → s.offset + s.bytes.length ≤ destination + 20 →
      s.Turns (underway destination total 4 false) (underway destination total 4 false) := fun h h' =>
    turns_of_disjoint fun i hlow hhigh => underway_numbered (by omega) (by omega)
  simp only [SequencedRecord.closeStores, List.mem_append, List.mem_singleton] at hs
  rcases hs with ((((hs | rfl) | hs) | hs) | hs) | rfl
  · exact hnumber (byteStores_offset _ _ s hs) ((byteStores_end _ _ s hs).trans (by rw [length_leBytes]; omega))
  · -- the commit word is cleared again
    refine turns_of_zero (by simp [leBytes_zero]) fun i b hb hlow hhigh => ?_
    simp only [length_leBytes] at hlow hhigh
    rw [underway, if_neg (by omega), if_neg (by omega), if_pos (by omega)] at hb
    exact (Option.some.inj hb).symm
  · exact hbehind (byteStores_offset _ _ s hs)
  · exact hnumber ((Nat.le_add_right _ 8).trans (byteStores_offset _ _ s hs))
      ((byteStores_end _ _ s hs).trans (by rw [length_leBytes]))
  · exact hbehind (by have := encodeStores_offset c _ s hs; omega)
  · exact hbehind (by simp only [SequencedRecord.commitStore]; omega)

theorem Matches.pair_take (h : Matches data (underway destination a.totalBytes 0 true))
    (hin : ∀ s ∈ a.pairStores c generation destination, s.offset + s.bytes.length ≤ data.length)
    (hroom : destination + 8 ≤ data.length) (hk : k ≤ 4) :
    Matches (storeData data ((a.pairStores c generation destination).take ((a.openStores destination).length + k)))
      (underway destination a.totalBytes k true) := by
  rw [pairStores_eq] at hin ⊢
  have hopen : Matches (storeData data (a.openStores destination)) (underway destination a.totalBytes 0 true) :=
    h.storeAll (fun s hs => hin s (List.mem_append_left _ hs)) openStores_turns
  have hlength := length_storeData (a.openStores destination) data fun s hs => hin s (List.mem_append_left _ hs)
  rw [List.take_length_add_append, List.take_append_of_le_length (by simpa using hk), byteStores_take, storeData_append]
  exact hopen.lengthBytes (by rw [hlength]; exact hroom) hk

/-- Before its commit word the first record is under construction at every stop. -/
theorem Matches.pair_underway (h : Matches data (underway destination a.totalBytes 0 true))
    (hin : ∀ s ∈ a.pairStores c generation destination, s.offset + s.bytes.length ≤ data.length)
    (hroom : destination + 8 ≤ data.length) {n : ℕ} (hn : n < (a.pairStores c generation destination).length) :
    ∃ k ≤ 4, ∃ unnumbered, Matches (storeData data ((a.pairStores c generation destination).take n))
      (underway destination a.totalBytes k unnumbered) := by
  by_cases hopen : n ≤ (a.openStores destination).length
  · refine ⟨0, by omega, true, h.storeAll (fun s hs => hin s (List.mem_of_mem_take hs)) fun s hs => ?_⟩
    rw [pairStores_eq, List.take_append_of_le_length hopen] at hs
    exact openStores_turns s (List.mem_of_mem_take hs)
  by_cases hlength : n ≤ (a.openStores destination).length + 4
  · obtain ⟨k, rfl⟩ : ∃ k, n = (a.openStores destination).length + k := ⟨n - (a.openStores destination).length, by omega⟩
    exact ⟨k, by omega, true, h.pair_take hin hroom (by omega)⟩
  -- the whole length stands; nothing but the first commit word touches it or the commit field
  obtain ⟨m, rfl⟩ : ∃ m, n = (a.openStores destination).length + 4 + m :=
    ⟨n - (a.openStores destination).length - 4, by omega⟩
  refine ⟨4, le_rfl, false, ?_⟩
  have hdone := (h.pair_take hin hroom (le_refl 4)).numbered
  have hstored := length_storeData ((a.pairStores c generation destination).take ((a.openStores destination).length + 4))
    data fun s hs => hin s (List.mem_of_mem_take hs)
  rw [List.take_add, storeData_append]
  refine hdone.storeAll (fun s hs => ?_) fun s hs => ?_
  · rw [hstored]
    exact hin s (List.mem_of_mem_drop (List.mem_of_mem_take hs))
  · refine closeStores_turns a c generation s (List.mem_of_mem_take (i := m) ?_)
    have hm : m ≤ (a.closeStores c generation destination).length := by
      rw [pairStores_eq] at hn
      simp only [List.length_append, length_byteStores, length_leBytes, List.length_singleton] at hn
      omega
    have hfour : (byteStores (destination + 4) (leBytes 4 a.totalBytes)).length = 4 := by simp
    rwa [pairStores_eq, List.drop_length_add_append, List.drop_left' hfour, List.take_append_of_le_length hm] at hs

theorem headerBytes_le_of_looksCommitted (h : looksCommitted generation bytes = true) :
    recordHeaderBytes ≤ bytes.length := by
  simp only [looksCommitted, decide_eq_true_eq] at h
  exact h.1

theorem looksCommitted_zeros (h : ∀ b ∈ bytes, b = 0) (generation : ℕ) :
    looksCommitted generation bytes = decide (recordHeaderBytes ≤ bytes.length ∧ commitWord 0 generation = 0) := by
  have hzeros : bytes = List.replicate bytes.length 0 := List.eq_replicate_iff.2 ⟨rfl, h⟩
  rw [hzeros]
  simp only [looksCommitted, parseRecordHeader, List.drop_replicate, List.take_replicate, leNat_zeros,
    List.length_replicate]
  exact decide_eq_decide.2 (and_congr_right fun _ => eq_comm)

theorem Ascending.fits : ∀ {records : List SequencedRecord} {last : Option ℕ}, Ascending last records →
    ∀ r ∈ records, r.Fits
  | [], _, _, _, hr => by cases hr
  | x :: records, _, h, r, hr => by
    rcases List.mem_cons.1 hr with rfl | hr
    · exact h.1
    · exact h.2.2.fits r hr

variable {w : ChunkWriter}

theorem appendPair_cases (w : ChunkWriter) (first second : RecordView) :
    ((w.appendPair first second).stores = [] ∧ (w.appendPair first second).records = []) ∨
    ∃ a c : SequencedRecord, a.toRecordView = first ∧ c.toRecordView = second ∧
      a.storageBytes + c.storageBytes ≤ w.data.length - w.committedExtent ∧
      (w.appendPair first second).stores = a.pairStores c w.generation w.committedExtent ∧
      (w.appendPair first second).records = [a, c] := by
  unfold ChunkWriter.appendPair
  split
  next _ _ _ firstStorage _ secondStorage hfirst hsecond =>
    obtain ⟨rfl, -⟩ := checkedRecordSizes_eq hfirst
    obtain ⟨rfl, -⟩ := checkedRecordSizes_eq hsecond
    dsimp only
    split_ifs with hspace hsequence
    · exact Or.inl ⟨rfl, rfl⟩
    · exact Or.inl ⟨rfl, rfl⟩
    · refine Or.inr ⟨⟨first, _⟩, ⟨second, _⟩, rfl, rfl, ?_, rfl, rfl⟩
      show first.storageBytes + second.storageBytes ≤ _
      omega
  · exact Or.inl ⟨rfl, rfl⟩

/-- An active scan after `n` stores of the call returns the earlier records, alone or
with both records of the pair. -/
def PairAtomic (w : ChunkWriter) (first second : RecordView) (n : ℕ) : Prop :=
  let data := (w.stop (.appendPair first second) n).data
  scanRecords true w.generation data = .ok (scannedFrom 0 w.committed) ∨
    scanRecords true w.generation data = .ok (scannedFrom 0 (w.committed ++ (w.appendPair first second).records))

instance (w : ChunkWriter) (first second : RecordView) (n : ℕ) : Decidable (PairAtomic w first second n) :=
  inferInstanceAs (Decidable (_ ∨ _))

theorem data_stop (w : ChunkWriter) (op : ChunkOp) (n : ℕ) :
    (w.stop op n).data = storeData w.data ((op.call w).stores.take n) := by
  unfold ChunkWriter.stop
  dsimp only
  split_ifs <;> rfl

/-- A committed-looking record that cannot be read ends every scan in an error. -/
theorem scanRecords_unreadable (hg : generation < 2 ^ 32) {records : List SequencedRecord}
    (hasc : Ascending none records) (hlooks : looksCommitted generation rest = true)
    (hread : ∀ offset last, ∃ e, readRecord rest offset last = .error e) (out : List ScannedRecord) :
    scanRecords true generation (encodeAll generation records ++ rest) ≠ .ok out := by
  obtain ⟨fuel, offset, last, hfuel, hscan⟩ := scanRecords_append hg true hasc rest
  intro hok
  obtain ⟨-, tail, -, htail⟩ := (hscan out).1 hok
  obtain ⟨e, he⟩ := hread offset last
  have hlen := headerBytes_le_of_looksCommitted hlooks
  have hne : rest ≠ [] := by
    rintro rfl
    simp [recordHeaderBytes] at hlen
  obtain ⟨fuel, rfl⟩ : ∃ n, fuel = n + 1 := ⟨fuel - 1, by unfold recordHeaderBytes at hlen; omega⟩
  rw [scanFrom, if_neg hne, if_neg (by omega), if_neg (by simp [hlooks]), he] at htail
  cases htail

/-- A call that stores nothing is atomic unless the empty tail looks committed. -/
theorem ChunkWriter.Sound.pairAtomic_unwritten (hw : w.Sound) (hg : w.generation < 2 ^ 32)
    (hzero : ∀ b ∈ w.data.drop w.committedExtent, b = 0) {first second : RecordView}
    (hstores : (w.appendPair first second).stores = []) (hrecords : (w.appendPair first second).records = [])
    (n : ℕ) : PairAtomic w first second n ↔ (∀ r ∈ w.committed, r.flagsKnown = true) ∧
      (recordHeaderBytes ≤ w.data.length - w.committedExtent → commitWord 0 w.generation ≠ 0) := by
  obtain ⟨rest, hrest⟩ := hw.layout
  have hdrop : w.data.drop w.committedExtent = rest := by rw [hrest, hw.extent, List.drop_left]
  have hdata : (w.stop (.appendPair first second) n).data = encodeAll w.generation w.committed ++ rest := by
    rw [data_stop, show (ChunkOp.call w (.appendPair first second)).stores = [] from hstores, List.take_nil, ← hrest]
    rfl
  rw [hdrop] at hzero
  unfold PairAtomic
  dsimp only
  rw [hrecords, List.append_nil, or_self, hdata, scanRecords_active_encodeAll hg hw.ascending,
    looksCommitted_zeros hzero, decide_eq_false_iff_not, not_and, ← hdrop, List.length_drop]

/-- The data at a stop of a pair, behind the earlier records. -/
theorem ChunkWriter.Sound.pair_layout (hw : w.Sound) (first second : RecordView) (n : ℕ) :
    (w.stop (.appendPair first second) n).data =
      encodeAll w.generation w.committed ++ (w.stop (.appendPair first second) n).data.drop w.committedExtent := by
  obtain ⟨rest, hrest⟩ := hw.layout
  obtain ⟨rest', hrest'⟩ := storeData_append_right (encodeAll w.generation w.committed)
    ((ChunkOp.call w (.appendPair first second)).stores.take n) rest fun s hs => by
      rw [← hw.extent]
      exact (hw.call (.appendPair first second)).offsets s (List.mem_of_mem_take hs)
  rw [data_stop, hrest, hrest', hw.extent, List.drop_left]

/-- Before the last store of a pair, the scan returns the earlier records exactly when
they are readable and the record under construction does not look committed. -/
theorem ChunkWriter.Sound.scan_pair_iff (hw : w.Sound) (hg : w.generation < 2 ^ 32) (first second : RecordView)
    (n : ℕ) :
    scanRecords true w.generation (w.stop (.appendPair first second) n).data = .ok (scannedFrom 0 w.committed) ↔
      (∀ r ∈ w.committed, r.flagsKnown = true) ∧
        looksCommitted w.generation ((w.stop (.appendPair first second) n).data.drop w.committedExtent) = false := by
  rw [hw.pair_layout first second n, scanRecords_active_encodeAll hg hw.ascending, hw.extent, List.drop_left]

theorem matches_underway_zero (hzero : ∀ b ∈ data.drop destination, b = 0)
    (hroom : destination + 24 ≤ data.length) : Matches data (underway destination total 0 true) := by
  intro i b hb
  have hrange : destination ≤ i ∧ i < destination + 24 := by
    by_contra hout
    rw [underway_outside (by omega)] at hb
    cases hb
  have hlt : i < data.length := by omega
  have hmem : data[i] ∈ data.drop destination := by
    refine List.mem_iff_getElem?.2 ⟨i - destination, ?_⟩
    rw [List.getElem?_drop, Nat.add_sub_cancel' hrange.1, List.getElem?_eq_getElem hlt]
  rw [List.getElem?_eq_getElem hlt, hzero _ hmem, underway_zero hb]

/-- Once both commit words are stored, the records stand in front of what is left of the tail. -/
theorem ChunkWriter.Sound.pair_done (hw : w.Sound) (hzero : ∀ b ∈ w.data.drop w.committedExtent, b = 0)
    {first second : RecordView} (hroom : a.storageBytes + c.storageBytes ≤ w.data.length - w.committedExtent)
    (hstores : (w.appendPair first second).stores = a.pairStores c w.generation w.committedExtent) :
    ∃ back : List UInt8, (∀ b ∈ back, b = 0) ∧
      ∀ n, (a.pairStores c w.generation w.committedExtent).length ≤ n →
        (w.stop (.appendPair first second) n).data =
          encodeAll w.generation w.committed ++ (a.encode w.generation ++ (c.encode w.generation ++ back)) := by
  obtain ⟨old, back, hsplit, hold⟩ := hw.room (a.storageBytes + c.storageBytes) (by omega)
  have hfront : w.data.drop w.committedExtent = old ++ back := by rw [hsplit, hw.extent, List.drop_left]
  refine ⟨back, fun b hb => hzero b (by rw [hfront]; exact List.mem_append_right _ hb), fun n hn => ?_⟩
  have hcut : old ++ back = old.take a.storageBytes ++ (old.drop a.storageBytes ++ back) := by
    rw [← List.append_assoc, List.take_append_drop]
  rw [data_stop, show (ChunkOp.call w (.appendPair first second)).stores = _ from hstores, List.take_of_length_le hn,
    SequencedRecord.pairStores, hsplit, hcut, hw.extent]
  exact storeData_pair a c w.generation _ _ _ back (by rw [List.length_take, hold]; omega)
    (by rw [List.length_drop, hold]; omega)

theorem ChunkWriter.Sound.pairAtomic_written (hw : w.Sound) (hg : w.generation < 2 ^ 32)
    (hzero : ∀ b ∈ w.data.drop w.committedExtent, b = 0) {first second : RecordView} (ha : a.toRecordView = first)
    (hroom : a.storageBytes + c.storageBytes ≤ w.data.length - w.committedExtent)
    (hstores : (w.appendPair first second).stores = a.pairStores c w.generation w.committedExtent)
    (hrecords : (w.appendPair first second).records = [a, c]) :
    (∀ n, PairAtomic w first second n) ↔ (∀ r ∈ w.committed ++ [a, c], r.flagsKnown = true) ∧
      ∀ k ≤ 4, commitWord (first.totalBytes % 256 ^ k) w.generation ≠ 0 := by
  subst ha
  have hsize : 24 ≤ a.storageBytes := a.headerBytes_le_totalBytes.trans a.totalBytes_le_storageBytes
  have hin : ∀ s ∈ a.pairStores c w.generation w.committedExtent, s.offset + s.bytes.length ≤ w.data.length := by
    rw [← hstores]
    exact hw.stores_end (.appendPair a.toRecordView second)
  have hstart : Matches w.data (underway w.committedExtent a.totalBytes 0 true) :=
    matches_underway_zero hzero (by omega)
  have hdata : ∀ n, (w.stop (.appendPair a.toRecordView second) n).data =
      storeData w.data ((a.pairStores c w.generation w.committedExtent).take n) := by
    intro n
    rw [data_stop, ← hstores]
    rfl
  have hlength : ∀ n, (w.stop (.appendPair a.toRecordView second) n).data.length = w.data.length :=
    fun n => ChunkWriter.length_stop hw _ n
  have hasc : Ascending none (w.committed ++ [a, c]) := by
    rw [← hrecords]
    exact (hw.call (.appendPair a.toRecordView second)).ascending
  obtain ⟨back, hback, hdone⟩ := hw.pair_done hzero hroom hstores
  have hpair : ∀ bytes : List UInt8, encodeAll w.generation w.committed ++
      (a.encode w.generation ++ (c.encode w.generation ++ bytes)) =
        encodeAll w.generation (w.committed ++ [a, c]) ++ bytes := by
    intro bytes
    simp [encodeAll]
  unfold PairAtomic
  dsimp only
  rw [hrecords]
  constructor
  · intro hatomic
    have hflags : ∀ r ∈ w.committed ++ [a, c], r.flagsKnown = true := by
      rcases hatomic (a.pairStores c w.generation w.committedExtent).length with hearly | hboth
      · -- the first record is committed, so a scan cannot stop in front of it
        rw [hdone _ le_rfl, scanRecords_active_encodeAll hg hw.ascending,
          looksCommitted_encode (hasc.fits a (by simp)) hg] at hearly
        exact absurd hearly.2 (by simp)
      · rw [hdone _ le_rfl, hpair, scanRecords_active_encodeAll hg hasc] at hboth
        exact hboth.1
    refine ⟨hflags, fun k hk hword => ?_⟩
    -- with a zero commit word the scan fails on the record, which has no number yet
    have hstage := hstart.pair_take hin (by omega) hk
    rw [← hdata] at hstage
    have hlooks := hstage.looksCommitted hk (by rw [hlength]; omega) w.generation
    rw [decide_eq_true hword] at hlooks
    have hfails := scanRecords_unreadable hg hw.ascending hlooks (readRecord_unnumbered hstage.sequence)
    rw [← hw.pair_layout] at hfails
    rcases hatomic ((a.openStores w.committedExtent).length + k) with h | h
    · exact hfails _ h
    · exact hfails _ h
  · rintro ⟨hflags, hword⟩ n
    by_cases hn : (a.pairStores c w.generation w.committedExtent).length ≤ n
    · right
      rw [hdone n hn, hpair, scanRecords_active_encodeAll hg hasc, looksCommitted_zeros hback]
      exact ⟨hflags, decide_eq_false fun h => hword 0 (by omega) (by rw [pow_zero, Nat.mod_one]; exact h.2)⟩
    · left
      obtain ⟨k, hk, unnumbered, hstage⟩ := hstart.pair_underway hin (by omega) (not_le.1 hn)
      rw [← hdata] at hstage
      rw [hw.scan_pair_iff hg, hstage.looksCommitted hk (by rw [hlength]; omega)]
      exact ⟨fun r hr => hflags r (List.mem_append_left _ hr), decide_eq_false (hword k hk)⟩

theorem acquiredAfter_unused (g : Geometry) (m : ℕ) :
    ChunkWriter.acquiredAfter g (List.replicate m []) = ⟨List.replicate g.chunkDataCapacity 0, m + 1, 0, 1, []⟩ := by
  have hunused : (List.replicate m ([] : List ChunkOp)).foldl (fun w ops => w.reuse.run ops) (ChunkWriter.fresh g) =
      ⟨List.replicate g.chunkDataCapacity 0, m, 0, 1, []⟩ := by
    induction m with
    | zero => rfl
    | succ m ih =>
      rw [List.replicate_succ', List.foldl_append, ih]
      rfl
  rw [ChunkWriter.acquiredAfter, hunused]
  rfl

end QTrace.Flight
