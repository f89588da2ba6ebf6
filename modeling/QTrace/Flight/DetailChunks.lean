import QTrace.Lib.Utf8Cut
import QTrace.Events.BinaryWriter
import QTrace.Qtrb.Cursor
import QTrace.Flight.Fragments

/-! A detail that is too long for one record is cut into chunks. Both writers have their own
copy of the function that finds the next cut: it steps back over UTF-8 continuation bytes,
so that no character is torn, and cuts bytes that are no text at the full length. What is
cut off is then what the two decoders ask of a fragment. -/

namespace QTrace.Flight

open Lib Events

def utf8Continuation (byte : UInt8) : Bool := byte &&& 0xc0 = 0x80

/-- The loop of `detail_chunk_end`. -/
def stepBack (detail : List UInt8) (offset : ℕ) : ℕ → ℕ
  | 0 => 0
  | stop + 1 =>
    if offset < stop + 1 ∧ utf8Continuation (detail.getD (stop + 1) 0) then stepBack detail offset stop else stop + 1

/-- `detail_chunk_end` of the flight encoder. -/
def detailChunkEnd (detail : List UInt8) (offset : ℕ) : ℕ :=
  let remaining := detail.length - offset
  let stop := offset + if remaining < maxCallChunkDetailBytes then remaining else maxCallChunkDetailBytes
  if stop = detail.length then stop
  else
    let stop := stepBack detail offset stop
    if stop = offset then offset + maxCallChunkDetailBytes else stop

/-- The loop of `detail_chunk_count`, in at most `rounds` rounds. -/
def detailChunkCountFrom (detail : List UInt8) : ℕ → ℕ → ℕ
  | 0, _ => 0
  | rounds + 1, offset =>
    if offset < detail.length then detailChunkCountFrom detail rounds (detailChunkEnd detail offset) + 1 else 0

def detailChunkCount (detail : List UInt8) : ℕ := detailChunkCountFrom detail detail.length 0

/-- The loop of `write_chunked_event` over its fragments. -/
def cutFragments (detail : List UInt8) : ℕ → ℕ → List (List UInt8)
  | 0, _ => []
  | count + 1, offset =>
    let stop := detailChunkEnd detail offset
    (detail.drop offset).take (stop - offset) :: cutFragments detail count stop

/-- `write_chunked_event`: the number of the event, the next one, and the fragments, or a failure. -/
def writeChunkedEvent (nextEventId : UInt64) (detail : List UInt8) : Option (UInt64 × UInt64 × List (List UInt8)) :=
  let count := detailChunkCount detail
  if count < 2 || 65535 < count || 2 ^ 32 - 1 < detail.length then none
  else
    let eventId := if nextEventId = 0 then 1 else nextEventId
    some (eventId, eventId + 1, cutFragments detail count 0)

theorem utf8Continuation_eq (byte : UInt8) : utf8Continuation byte = isContinuation byte := by
  have hall : ∀ n < 256, utf8Continuation (UInt8.ofNat n) = isContinuation (UInt8.ofNat n) := by decide +kernel
  simpa using hall byte.toNat byte.toNat_lt

theorem isUtf8Continuation_eq (byte : UInt8) : isUtf8Continuation byte = isContinuation byte :=
  utf8Continuation_eq byte

theorem stepBack_eq (detail : List UInt8) (offset length : ℕ) :
    stepBack detail offset (offset + length) = backOff detail offset length := by
  induction length with
  | zero =>
    cases offset with
    | zero => rfl
    | succ offset => simp [stepBack, backOff]
  | succ length ih =>
    rw [← Nat.add_assoc, stepBack, backOff, ih]
    have hlt : offset < offset + length + 1 := by omega
    simp only [hlt, true_and, utf8Continuation_eq, isUtf8Continuation_eq]

theorem detailChunkEnd_eq (detail : List UInt8) (offset : ℕ) :
    detailChunkEnd detail offset = Events.detailChunkEnd detail offset := by
  have hmin : (if detail.length - offset < maxCallChunkDetailBytes then detail.length - offset
      else maxCallChunkDetailBytes) = min maxCallChunkDetailBytes (detail.length - offset) := by
    split_ifs <;> omega
  simp only [detailChunkEnd, Events.detailChunkEnd, hmin, stepBack_eq]

/-- The loop stops at the last byte that is no continuation byte, or at the start. -/
theorem backOff_spec (l : List UInt8) (length : ℕ) :
    backOff l 0 length ≤ length ∧
      (∀ j, backOff l 0 length < j → j ≤ length → isContinuation (l.getD j 0) = true) ∧
      (backOff l 0 length = 0 ∨ isContinuation (l.getD (backOff l 0 length) 0) = false) := by
  induction length with
  | zero => exact ⟨le_refl _, fun j hj hj' => by omega, Or.inl rfl⟩
  | succ length ih =>
    rw [backOff, isUtf8Continuation_eq, Nat.zero_add]
    split_ifs with hcontinuation
    · refine ⟨by omega, fun j hj hj' => ?_, ih.2.2⟩
      rcases Nat.lt_or_ge length j with hlast | hlast
      · obtain rfl : j = length + 1 := by omega
        exact hcontinuation
      · exact ih.2.1 j hj hlast
    · exact ⟨le_refl _, fun j hj hj' => by omega, Or.inr (Bool.not_eq_true _ ▸ hcontinuation)⟩

theorem backOff_drop (detail : List UInt8) (offset length : ℕ) :
    backOff detail offset length = offset + backOff (detail.drop offset) 0 length := by
  induction length with
  | zero => rfl
  | succ length ih =>
    have hbyte : (detail.drop offset).getD (0 + length + 1) 0 = detail.getD (offset + length + 1) 0 := by
      simp [List.getD_eq_getElem?_getD, List.getElem?_drop, Nat.add_assoc]
    rw [backOff, backOff, hbyte, ih]
    split_ifs <;> omega

/-- The length of the first chunk of what is left. -/
def cutLength (rest : List UInt8) : ℕ := Events.detailChunkEnd rest 0

variable {detail rest : List UInt8}

theorem detailChunkEnd_drop {offset : ℕ} (h : offset ≤ detail.length) :
    Events.detailChunkEnd detail offset = offset + cutLength (detail.drop offset) := by
  simp only [cutLength, Events.detailChunkEnd, backOff_drop detail offset, List.length_drop, Nat.sub_zero, Nat.zero_add]
  split_ifs <;> omega

/-- A cut in the middle: all bytes up to the full length are continuation bytes, and the cut is in
front of a byte that is none unless they all are. -/
structure MiddleCut (rest : List UInt8) (k : ℕ) : Prop where
  pos : 0 < k
  le : k ≤ 3072
  continuation : ∀ j, k < j → j ≤ 3072 → isContinuation (rest.getD j 0) = true
  clean : isContinuation (rest.getD k 0) = false ∨
    (k = 3072 ∧ ∀ j, 0 < j → j ≤ 3072 → isContinuation (rest.getD j 0) = true)

theorem cutLength_of_le (h : rest.length ≤ 3072) : cutLength rest = rest.length := by
  have hmin : min maxCallChunkDetailBytes (rest.length - 0) = rest.length := by
    unfold maxCallChunkDetailBytes
    omega
  simp only [cutLength, Events.detailChunkEnd, hmin, Nat.zero_add, if_true]

theorem cutLength_of_lt (h : 3072 < rest.length) : MiddleCut rest (cutLength rest) := by
  have hmin : min maxCallChunkDetailBytes (rest.length - 0) = 3072 := by
    unfold maxCallChunkDetailBytes
    omega
  simp only [cutLength, Events.detailChunkEnd, hmin, Nat.zero_add]
  rw [if_neg (by omega)]
  obtain ⟨hle, hcontinuation, hclean⟩ := backOff_spec rest 3072
  split_ifs with hzero
  · rw [hzero] at hcontinuation
    exact ⟨by decide, le_refl _, fun j hj hj' => hcontinuation j (by omega) hj', Or.inr ⟨rfl, hcontinuation⟩⟩
  · exact ⟨by omega, hle, hcontinuation, Or.inl (hclean.resolve_left hzero)⟩

theorem cutLength_pos (h : rest ≠ []) : 0 < cutLength rest := by
  rcases Nat.lt_or_ge 3072 rest.length with hlong | hshort
  · exact (cutLength_of_lt hlong).pos
  · rw [cutLength_of_le hshort]
    exact List.length_pos_of_ne_nil h

theorem cutLength_le (rest : List UInt8) : cutLength rest ≤ 3072 ∧ cutLength rest ≤ rest.length := by
  rcases Nat.lt_or_ge 3072 rest.length with hlong | hshort
  · have := (cutLength_of_lt hlong).le
    omega
  · rw [cutLength_of_le hshort]
    omega

/-- Two cuts in the middle are a full length apart: the second cannot end among the continuation
bytes that the first one stepped over. -/
theorem cutLength_add (h : 3072 < rest.length) (h' : 3072 < (rest.drop (cutLength rest)).length) :
    3072 ≤ cutLength rest + cutLength (rest.drop (cutLength rest)) := by
  have hfirst := cutLength_of_lt h
  have hsecond := cutLength_of_lt h'
  by_contra hlt
  obtain hclean | hfull := hsecond.clean
  · have hbyte := hfirst.continuation (cutLength rest + cutLength (rest.drop (cutLength rest)))
      (by have := hsecond.pos; omega) (by omega)
    rw [List.getD_eq_getElem?_getD, ← List.getElem?_drop, ← List.getD_eq_getElem?_getD, hclean] at hbyte
    cases hbyte
  · omega

theorem detailChunksFrom_drop (detail : List UInt8) (rounds offset : ℕ) (h : offset ≤ detail.length) :
    detailChunksFrom detail rounds offset = detailChunksFrom (detail.drop offset) rounds 0 := by
  induction rounds generalizing detail offset with
  | zero => rfl
  | succ rounds ih =>
    have hcut := cutLength_le (detail.drop offset)
    rw [List.length_drop] at hcut
    rw [detailChunksFrom, detailChunksFrom, List.length_drop, detailChunkEnd_drop h]
    by_cases hlt : offset < detail.length
    · rw [if_pos hlt, if_pos (by omega)]
      dsimp only
      rw [← cutLength, Nat.add_sub_cancel_left, Nat.sub_zero, List.drop_zero, ih detail _ (by omega),
        ih (detail.drop offset) _ (by rw [List.length_drop]; exact hcut.2), List.drop_drop]
    · rw [if_neg hlt, if_neg (by omega)]

theorem detailChunksFrom_nil (rounds : ℕ) : detailChunksFrom [] rounds 0 = [] := by
  cases rounds with
  | zero => rfl
  | succ rounds => rfl

theorem detailChunksFrom_cons (h : rest ≠ []) (rounds : ℕ) :
    detailChunksFrom rest (rounds + 1) 0 =
      rest.take (cutLength rest) :: detailChunksFrom (rest.drop (cutLength rest)) rounds 0 := by
  rw [detailChunksFrom, if_pos (List.length_pos_of_ne_nil h)]
  dsimp only
  rw [← cutLength, detailChunksFrom_drop rest rounds _ (cutLength_le rest).2]
  rfl

/-- As many rounds as there are bytes are enough. -/
theorem detailChunksFrom_rounds {rounds rounds' : ℕ} (h : rest.length ≤ rounds) (h' : rest.length ≤ rounds') :
    detailChunksFrom rest rounds 0 = detailChunksFrom rest rounds' 0 := by
  induction rounds generalizing rest rounds' with
  | zero =>
    obtain rfl : rest = [] := List.length_eq_zero_iff.1 (by omega)
    rw [detailChunksFrom_nil, detailChunksFrom_nil]
  | succ rounds ih =>
    by_cases hnil : rest = []
    · rw [hnil, detailChunksFrom_nil, detailChunksFrom_nil]
    · have hpos := cutLength_pos hnil
      have hlength := List.length_pos_of_ne_nil hnil
      obtain ⟨n, rfl⟩ : ∃ n, rounds' = n + 1 := ⟨rounds' - 1, by omega⟩
      have hdrop := List.length_drop (i := cutLength rest) (l := rest)
      rw [detailChunksFrom_cons hnil, detailChunksFrom_cons hnil]
      exact congrArg _ (ih (by omega) (by omega))

theorem detailChunks_nil : detailChunks [] = [] := rfl

theorem detailChunks_cons (h : rest ≠ []) :
    detailChunks rest = rest.take (cutLength rest) :: detailChunks (rest.drop (cutLength rest)) := by
  have hlength := List.length_pos_of_ne_nil h
  have hpos := cutLength_pos h
  have hdrop := List.length_drop (i := cutLength rest) (l := rest)
  obtain ⟨n, hn⟩ : ∃ n, rest.length = n + 1 := ⟨rest.length - 1, by omega⟩
  rw [detailChunks, hn, detailChunksFrom_cons h]
  exact congrArg _ (detailChunksFrom_rounds (by omega) (le_refl _))

/-- What holds of nothing and comes back with each chunk holds of every detail. -/
theorem chunk_induction {P : List UInt8 → Prop} (hnil : P [])
    (hcons : ∀ rest, rest ≠ [] → P (rest.drop (cutLength rest)) → P rest) (detail : List UInt8) : P detail := by
  induction hn : detail.length using Nat.strong_induction_on generalizing detail with
  | _ n ih =>
    by_cases h : detail = []
    · rw [h]
      exact hnil
    · have hpos := cutLength_pos h
      have hlength := List.length_pos_of_ne_nil h
      exact hcons detail h (ih _ (by rw [List.length_drop]; omega) _ rfl)

theorem detailChunks_flatten (detail : List UInt8) : (detailChunks detail).flatten = detail := by
  induction detail using chunk_induction with
  | hnil => rfl
  | hcons rest h ih => rw [detailChunks_cons h, List.flatten_cons, ih, List.take_append_drop]

theorem length_of_mem_detailChunks (detail : List UInt8) :
    ∀ chunk ∈ detailChunks detail, 0 < chunk.length ∧ chunk.length ≤ 3072 := by
  induction detail using chunk_induction with
  | hnil => simp [detailChunks_nil]
  | hcons rest h ih =>
    have hpos := cutLength_pos h
    have hle := cutLength_le rest
    rw [detailChunks_cons h, List.forall_mem_cons, List.length_take]
    exact ⟨by omega, ih⟩

/-- Two chunks take a full length at least, so there are few of them. -/
theorem length_detailChunks_le (detail : List UInt8) :
    3072 * (detailChunks detail).length ≤ 2 * detail.length + 3072 := by
  induction hn : detail.length using Nat.strong_induction_on generalizing detail with
  | _ n ih =>
    subst hn
    by_cases hnil : detail = []
    · rw [hnil]
      decide
    have hlength := List.length_pos_of_ne_nil hnil
    have hpos := cutLength_pos hnil
    have hle := cutLength_le detail
    have hdrop := List.length_drop (i := cutLength detail) (l := detail)
    rw [detailChunks_cons hnil, List.length_cons]
    by_cases hshort : detail.length ≤ 3072
    · -- the only chunk
      rw [cutLength_of_le hshort, List.drop_length, detailChunks_nil, List.length_nil]
      omega
    have hrest : detail.drop (cutLength detail) ≠ [] := List.ne_nil_of_length_pos (by omega)
    by_cases hsecond : (detail.drop (cutLength detail)).length ≤ 3072
    · -- a chunk and the last one
      rw [detailChunks_cons hrest, cutLength_of_le hsecond, List.drop_length, detailChunks_nil, List.length_cons,
        List.length_nil]
      omega
    · -- two chunks of a full length at least, and the rest
      have hadd := cutLength_add (by omega) (by omega : 3072 < (detail.drop (cutLength detail)).length)
      have hle' := cutLength_le (detail.drop (cutLength detail))
      rw [detailChunks_cons hrest, List.length_cons]
      generalize detail.drop (cutLength detail) = rest at hdrop hadd hle' hrest
      have hdrop' := List.length_drop (i := cutLength rest) (l := rest)
      have := ih _ (by have := cutLength_pos hrest; omega) (rest.drop (cutLength rest)) rfl
      omega

theorem two_le_length_detailChunks (h : 3072 < detail.length) : 2 ≤ (detailChunks detail).length := by
  have hnil : detail ≠ [] := List.ne_nil_of_length_pos (by omega)
  have hle := cutLength_le detail
  have hrest : detail.drop (cutLength detail) ≠ [] := List.ne_nil_of_length_pos (by rw [List.length_drop]; omega)
  rw [detailChunks_cons hnil, detailChunks_cons hrest, List.length_cons, List.length_cons]
  omega

theorem utf8Valid_cut (h : utf8Valid rest = true) :
    utf8Valid (rest.take (cutLength rest)) = true ∧ utf8Valid (rest.drop (cutLength rest)) = true := by
  rcases Nat.lt_or_ge 3072 rest.length with hlong | hshort
  · have hcut := cutLength_of_lt hlong
    rw [← List.take_append_drop (cutLength rest) rest] at h
    apply utf8Valid_append h
    intro byte hbyte
    rw [List.head?_drop] at hbyte
    obtain hclean | ⟨-, hall⟩ := hcut.clean
    · rwa [List.getD_eq_getElem?_getD, hbyte] at hclean
    · -- a text has no run of 3072 continuation bytes
      rw [List.take_append_drop] at h
      cases rest with
      | nil => exact absurd hlong (by decide)
      | cons first rest =>
        rw [← List.take_append_drop 3072 rest] at h
        have hrun := length_le_of_utf8Valid h (by
          intro byte hbyte
          obtain ⟨j, hj, hbyte⟩ := List.getElem_of_mem hbyte
          rw [List.length_take] at hj
          have hj' := hall (j + 1) (by omega) (by omega)
          rwa [List.getD_cons_succ, List.getD_eq_getElem _ _ (by omega), ← List.getElem_take (h := by
            rw [List.length_take]; omega), hbyte] at hj')
        rw [List.length_take] at hrun
        rw [List.length_cons] at hlong
        omega
  · rw [cutLength_of_le hshort, List.take_length, List.drop_length]
    exact ⟨h, rfl⟩

theorem utf8Valid_of_mem_detailChunks (detail : List UInt8) (h : utf8Valid detail = true) :
    ∀ chunk ∈ detailChunks detail, utf8Valid chunk = true := by
  induction detail using chunk_induction with
  | hnil => simp [detailChunks_nil]
  | hcons rest hne ih =>
    obtain ⟨hchunk, hrest⟩ := utf8Valid_cut h
    rw [detailChunks_cons hne, List.forall_mem_cons]
    exact ⟨hchunk, ih hrest⟩

theorem detailChunkCountFrom_eq (detail : List UInt8) (rounds offset : ℕ) :
    detailChunkCountFrom detail rounds offset = (detailChunksFrom detail rounds offset).length := by
  induction rounds generalizing offset with
  | zero => rfl
  | succ rounds ih =>
    rw [detailChunkCountFrom, detailChunksFrom]
    split_ifs with h
    · rw [ih, detailChunkEnd_eq, List.length_cons]
    · rfl

theorem cutFragments_eq (detail : List UInt8) (rounds offset : ℕ) :
    cutFragments detail (detailChunksFrom detail rounds offset).length offset =
      detailChunksFrom detail rounds offset := by
  induction rounds generalizing offset with
  | zero => rfl
  | succ rounds ih =>
    rw [detailChunksFrom]
    split_ifs with h
    · rw [List.length_cons, cutFragments, detailChunkEnd_eq]
      dsimp only
      rw [ih]
    · rfl

/-- The flight encoder writes the chunks of the binary writer. -/
theorem writeChunkedEvent_eq (hlong : 3072 < detail.length) (hlimit : detail.length ≤ 1048576)
    (nextEventId : UInt64) :
    ∃ eventId nextEventId', writeChunkedEvent nextEventId detail = some (eventId, nextEventId', detailChunks detail) ∧
      eventId ≠ 0 := by
  have hcount : detailChunkCount detail = (detailChunks detail).length := detailChunkCountFrom_eq _ _ _
  have htwo := two_le_length_detailChunks hlong
  have hfew := length_detailChunks_le detail
  unfold writeChunkedEvent
  rw [hcount]
  dsimp only
  rw [if_neg (by simp only [Bool.or_eq_true, decide_eq_true_eq]; omega)]
  refine ⟨_, _, congrArg some (Prod.ext rfl (Prod.ext rfl (cutFragments_eq detail detail.length 0))), ?_⟩
  split_ifs with hzero
  · decide
  · exact hzero

variable {chunk : List UInt8}

theorem length_add_le_flatten {chunks : List (List UInt8)} (hpos : ∀ chunk ∈ chunks, 0 < chunk.length)
    (h : chunk ∈ chunks) : chunk.length + chunks.length ≤ chunks.flatten.length + 1 := by
  have hcount : ∀ l : List (List UInt8), (∀ chunk ∈ l, 0 < chunk.length) → l.length ≤ l.flatten.length := by
    intro l hl
    induction l with
    | nil => exact le_refl _
    | cons first l ih =>
      rw [List.forall_mem_cons] at hl
      have := ih hl.2
      rw [List.flatten_cons, List.length_append, List.length_cons]
      omega
  obtain ⟨before, after, rfl⟩ := List.append_of_mem h
  have hbefore := hcount before fun c hc => hpos c (by simp [hc])
  have hafter := hcount after fun c hc => hpos c (by simp [hc])
  rw [List.flatten_append, List.flatten_cons, List.length_append, List.length_append, List.length_append,
    List.length_cons]
  omega

/-- A detail that is cut, within the limit of its kind. -/
structure Cuttable (kind : Qtrb.FragmentKind) (detail : List UInt8) : Prop where
  long : 3072 < detail.length
  limit : detail.length ≤ kind.logicalMaximum

theorem Cuttable.le {kind : Qtrb.FragmentKind} (h : Cuttable kind detail) : detail.length ≤ 1048576 := by
  have hlimit := h.limit
  cases kind with
  | call => exact hlimit
  | rule => exact hlimit.trans (by decide)
  | error => exact hlimit.trans (by decide)

theorem Cuttable.count_le {kind : Qtrb.FragmentKind} (h : Cuttable kind detail) :
    (detailChunks detail).length ≤ 65535 := by
  have hfew := length_detailChunks_le detail
  have hle := h.le
  omega

/-- The record of the chunk with an index, as the QTRB decoder reads it. -/
def chunkFragment (eventId : UInt64) (category : Option (List UInt8)) (name detail : List UInt8) (index : ℕ) :
    Qtrb.Fragment where
  eventId := eventId
  totalDetailBytes := UInt32.ofNat detail.length
  chunkIndex := UInt16.ofNat index
  chunkCount := UInt16.ofNat (detailChunks detail).length
  category := category
  name := name
  detail := (detailChunks detail).getD index []

section Decoders

variable {kind : Qtrb.FragmentKind} {detail : List UInt8} {index : ℕ}

section

variable (h : Cuttable kind detail)
include h

theorem Cuttable.numbers (hindex : index < (detailChunks detail).length) :
    (UInt32.ofNat detail.length).toNat = detail.length ∧
      (UInt16.ofNat (detailChunks detail).length).toNat = (detailChunks detail).length ∧
      (UInt16.ofNat index).toNat = index := by
  have hcount := h.count_le
  have hle := h.le
  refine ⟨UInt32.toNat_ofNat_of_lt' ?_, UInt16.toNat_ofNat_of_lt' ?_, UInt16.toNat_ofNat_of_lt' ?_⟩
  · exact lt_of_le_of_lt hle (by decide)
  · exact lt_of_le_of_lt hcount (by decide)
  · exact lt_of_le_of_lt (hindex.le.trans hcount) (by decide)

theorem Cuttable.lengths (hchunk : chunk ∈ detailChunks detail) :
    2 ≤ (detailChunks detail).length ∧ chunk.length + (detailChunks detail).length ≤ detail.length + 1 ∧
      0 < chunk.length ∧ chunk.length ≤ 3072 := by
  have hsizes := length_of_mem_detailChunks detail
  have hadd := length_add_le_flatten (fun chunk hchunk => (hsizes chunk hchunk).1) hchunk
  rw [detailChunks_flatten] at hadd
  exact ⟨two_le_length_detailChunks h.long, hadd, hsizes chunk hchunk⟩

theorem Cuttable.not_malformed (hindex : index < (detailChunks detail).length) {eventId : UInt64}
    (hevent : eventId ≠ 0) (category : Option (List UInt8)) (name : List UInt8) :
    (chunkFragment eventId category name detail index).malformed kind = false := by
  obtain ⟨htotal, hcount, hchunkIndex⟩ := h.numbers hindex
  have hmem : (detailChunks detail).getD index [] ∈ detailChunks detail := by
    rw [List.getD_eq_getElem _ _ hindex]
    exact List.getElem_mem hindex
  obtain ⟨htwo, hadd, hpos, -⟩ := h.lengths hmem
  have hlimit := h.limit
  have hempty : ((detailChunks detail).getD index []).isEmpty = false :=
    List.isEmpty_eq_false_iff.2 (List.ne_nil_of_length_pos hpos)
  simp only [Qtrb.Fragment.malformed, chunkFragment, UInt16.lt_iff_toNat_lt, UInt16.le_iff_toNat_le, htotal, hcount,
    hchunkIndex, UInt16.toNat_ofNat, hempty, Bool.or_eq_false_iff, decide_eq_false_iff_not, hevent, not_false_eq_true,
    true_and, and_true]
  omega

/-- The flight decoder's checks of a fragment that carries a chunk; the texts of the names are not the chunk's. -/
theorem Cuttable.flight_not_malformed {f : Fragment} (hchunk : f.detail ∈ detailChunks detail)
    (htotal : f.total.toNat = detail.length) (hcount : f.count.toNat = (detailChunks detail).length)
    (hkind : Fragment.totalLimit f.kind = kind.logicalMaximum)
    (hfixed : f.fixed.head?.all (255 < ·.length) = false)
    (hname : (f.kind = 6 && f.fixed[1]?.all (255 < ·.length)) = false) : f.malformed = false := by
  obtain ⟨htwo, hadd, hpos, hle⟩ := h.lengths hchunk
  have hlimit := h.limit
  have hempty : f.detail.isEmpty = false := List.isEmpty_eq_false_iff.2 (List.ne_nil_of_length_pos hpos)
  simp only [Fragment.malformed, hfixed, hname, hempty, htotal, hcount, hkind, Bool.or_eq_false_iff,
    decide_eq_false_iff_not, true_and]
  omega

end

end Decoders

section Group

variable (kind : Qtrb.FragmentKind) (fragment : ℕ → Qtrb.Fragment) (records : ℕ → Qtrb.PhysicalRecord)

/-- The pending group after the first fragments. -/
def pendingAfter : ℕ → Qtrb.PendingFragment
  | 0 => (fragment 0).opens kind (records 0)
  | i + 1 => (pendingAfter i).push (fragment i) (records i)

/-- The cursor in front of a fragment. -/
def cursorAt (c : Qtrb.QtrbEventCursor) (i : ℕ) : Qtrb.QtrbEventCursor :=
  { c with pending := if i = 0 then none else some (pendingAfter kind fragment records i) }

variable {kind} {eventId : UInt64} {category : Option (List UInt8)} {name detail : List UInt8} {i : ℕ}

theorem pendingAfter_chunks (eventId : UInt64) (category : Option (List UInt8)) (name : List UInt8)
    (h : Cuttable kind detail) (hi : i ≤ (detailChunks detail).length) :
    let pending := pendingAfter kind (chunkFragment eventId category name detail) records i
    pending.nextIndex = i ∧ pending.detail = ((detailChunks detail).take i).flatten ∧
      pending.fragmentOffsets.length = i ∧ pending.totalDetailBytes = UInt32.ofNat detail.length ∧
      pending.chunkCount = UInt16.ofNat (detailChunks detail).length ∧
      ∀ j, pending.foreign (chunkFragment eventId category name detail j) kind = false := by
  induction i with
  | zero =>
    refine ⟨rfl, rfl, rfl, rfl, rfl, fun j => ?_⟩
    simp [pendingAfter, Qtrb.Fragment.opens, Qtrb.PendingFragment.foreign, chunkFragment]
  | succ i ih =>
    obtain ⟨hnext, hdetail, hoffsets, htotal, hcount, hforeign⟩ := ih (by omega)
    have hle := h.count_le
    refine ⟨?_, ?_, ?_, htotal, hcount, fun j => hforeign j⟩
    · show min (_ + 1) 65535 = i + 1
      rw [hnext]
      omega
    · rw [pendingAfter, Qtrb.PendingFragment.push, hdetail, List.take_succ_eq_append_getElem (by omega),
        List.flatten_concat, chunkFragment, List.getD_eq_getElem _ _ (by omega)]
    · rw [pendingAfter, Qtrb.PendingFragment.push, List.length_append, hoffsets]
      rfl

/-- Chunk after chunk passes every check of `decode_fragment`, and the last one completes the
detail. -/
theorem decodeFragment_chunks (h : Cuttable kind detail) (hevent : eventId ≠ 0) (c : Qtrb.QtrbEventCursor)
    (hparse : ∀ i < (detailChunks detail).length,
      (Qtrb.fragmentFields kind ((records i).cursor "semantic fragment")).parse (records i).payload =
        .ok (chunkFragment eventId category name detail i))
    (hi : i < (detailChunks detail).length) :
    let fragment := chunkFragment eventId category name detail
    (cursorAt kind fragment records c i).decodeFragment (records i) kind =
      if i + 1 < (detailChunks detail).length then .ok (cursorAt kind fragment records c (i + 1), none)
      else do
        let event ← (cursorAt kind fragment records c i).assemble (records i) kind
          (pendingAfter kind fragment records (detailChunks detail).length)
        return ({ c with pending := none }, some event) := by
  intro fragment
  obtain ⟨hnext, hdetail, hoffsets, htotal, hcount, hforeign⟩ :=
    pendingAfter_chunks records eventId category name h hi.le
  obtain ⟨htotalNat, hcountNat, hindexNat⟩ := h.numbers hi
  have hgroup : (cursorAt kind fragment records c i).group (records i) kind (fragment i) =
      .ok (pendingAfter kind fragment records i) := by
    unfold Qtrb.QtrbEventCursor.group cursorAt
    cases i with
    | zero =>
      dsimp only
      rw [if_pos rfl]
      dsimp only
      rw [if_neg (by simp [fragment, chunkFragment])]
      rfl
    | succ i => rfl
  -- the group with this chunk
  obtain ⟨hnext', hdetail', hoffsets', htotal', hcount', -⟩ :=
    pendingAfter_chunks records eventId category name h
      (show i + 1 ≤ (detailChunks detail).length from hi)
  have hfits : ((detailChunks detail).take (i + 1)).flatten.length ≤ detail.length := by
    conv_rhs => rw [← detailChunks_flatten detail]
    exact (List.Sublist.flatten (List.take_sublist _ _)).length_le
  have hindex : decide ((chunkFragment eventId category name detail i).chunkIndex.toNat ≠
      (pendingAfter kind fragment records i).nextIndex) = false :=
    decide_eq_false (not_not.2 (hindexNat.trans hnext.symm))
  have hbelow : decide ((pendingAfter kind fragment records (i + 1)).totalDetailBytes.toNat <
      (pendingAfter kind fragment records (i + 1)).detail.length) = false := by
    rw [hdetail', htotal', htotalNat]
    exact decide_eq_false (Nat.not_lt.2 hfits)
  rw [Qtrb.QtrbEventCursor.decodeFragment, bind_of_ok (hparse i hi),
    failIf_bind (h.not_malformed hi hevent category name), bind_of_ok hgroup, failIf_bind (hforeign i),
    failIf_bind hindex]
  show (cursorAt kind fragment records c i).advance (records i) kind (pendingAfter kind fragment records (i + 1)) = _
  rw [Qtrb.QtrbEventCursor.advance, failIf_bind hbelow, hnext', hcount', hcountNat]
  split_ifs with hmore
  · rfl
  · have hlast : i + 1 = (detailChunks detail).length := by omega
    rw [hlast]
    rfl

end Group

/-- What the decoders rely on, of the chunks of a detail. -/
structure ChunksDecode (kind : Qtrb.FragmentKind) (detail : List UInt8) : Prop where
  progress : ∀ offset < detail.length,
    offset < Events.detailChunkEnd detail offset ∧ Events.detailChunkEnd detail offset ≤ detail.length
  count : 2 ≤ (detailChunks detail).length ∧ (detailChunks detail).length ≤ 65535
  sizes : ∀ chunk ∈ detailChunks detail, 0 < chunk.length ∧ chunk.length ≤ 3072
  whole : (detailChunks detail).flatten = detail
  text : utf8Valid detail = true → ∀ chunk ∈ detailChunks detail, utf8Valid chunk = true
  /-- The QTRB decoder takes chunk after chunk and completes the group with the last one. -/
  qtrb : ∀ (eventId : UInt64) (category : Option (List UInt8)) (name : List UInt8) (c : Qtrb.QtrbEventCursor)
    (records : ℕ → Qtrb.PhysicalRecord), eventId ≠ 0 →
    (∀ i < (detailChunks detail).length,
      (Qtrb.fragmentFields kind ((records i).cursor "semantic fragment")).parse (records i).payload =
        .ok (chunkFragment eventId category name detail i)) →
    ∀ i < (detailChunks detail).length,
      let fragment := chunkFragment eventId category name detail
      (fragment i).malformed kind = false ∧
      (cursorAt kind fragment records c i).decodeFragment (records i) kind =
        if i + 1 < (detailChunks detail).length then .ok (cursorAt kind fragment records c (i + 1), none)
        else do
          let event ← (cursorAt kind fragment records c i).assemble (records i) kind
            (pendingAfter kind fragment records (detailChunks detail).length)
          return ({ c with pending := none }, some event)
  /-- The group it completes has the length and the number of records it announced. -/
  assembled : ∀ (eventId : UInt64) (category : Option (List UInt8)) (name : List UInt8)
    (records : ℕ → Qtrb.PhysicalRecord),
    let pending := pendingAfter kind (chunkFragment eventId category name detail) records (detailChunks detail).length
    pending.detail = detail ∧ pending.detail.length = pending.totalDetailBytes.toNat ∧
      pending.fragmentOffsets.length = pending.chunkCount.toNat
  /-- The flight decoder refuses no fragment for the chunk it carries. -/
  flight : ∀ f : Fragment, f.detail ∈ detailChunks detail → f.total.toNat = detail.length →
    f.count.toNat = (detailChunks detail).length → Fragment.totalLimit f.kind = kind.logicalMaximum →
    f.fixed.head?.all (255 < ·.length) = false → (f.kind = 6 && f.fixed[1]?.all (255 < ·.length)) = false →
    f.malformed = false
  copies : (∀ offset, detailChunkEnd detail offset = Events.detailChunkEnd detail offset) ∧
    ∀ nextEventId, ∃ eventId nextEventId',
      writeChunkedEvent nextEventId detail = some (eventId, nextEventId', detailChunks detail) ∧ eventId ≠ 0

/-- Every detail that is cut satisfies the decoders, whatever its bytes. -/
theorem chunksDecode_of_cuttable (kind : Qtrb.FragmentKind) (detail : List UInt8) (h : Cuttable kind detail) :
    ChunksDecode kind detail where
  progress offset hoffset := by
    have hne : detail.drop offset ≠ [] := List.ne_nil_of_length_pos (by rw [List.length_drop]; omega)
    have hpos := cutLength_pos hne
    have hle := (cutLength_le (detail.drop offset)).2
    rw [List.length_drop] at hle
    rw [detailChunkEnd_drop hoffset.le]
    omega
  count := ⟨two_le_length_detailChunks h.long, h.count_le⟩
  sizes := length_of_mem_detailChunks detail
  whole := detailChunks_flatten detail
  text := utf8Valid_of_mem_detailChunks detail
  qtrb eventId category name c records hevent hparse i hi :=
    ⟨h.not_malformed hi hevent category name, decodeFragment_chunks records h hevent c hparse hi⟩
  assembled eventId category name records := by
    obtain ⟨-, hdetail, hoffsets, htotal, hcount, -⟩ :=
      pendingAfter_chunks records eventId category name h (le_refl _)
    have hpos : 0 < (detailChunks detail).length := by
      have := two_le_length_detailChunks h.long
      omega
    obtain ⟨htotalNat, hcountNat, -⟩ := h.numbers hpos
    rw [List.take_length, detailChunks_flatten] at hdetail
    exact ⟨hdetail, by rw [hdetail, htotal, htotalNat], by rw [hoffsets, hcount, hcountNat]⟩
  flight f hchunk htotal hcount hkind hfixed hname := h.flight_not_malformed hchunk htotal hcount hkind hfixed hname
  copies := ⟨detailChunkEnd_eq detail, writeChunkedEvent_eq h.long h.le⟩

/-- A detail of 4000 bytes, none of them a text. -/
theorem chunksDecode_continuation : ChunksDecode .error (List.replicate 4000 0x80) := by
  apply chunksDecode_of_cuttable
  constructor
  · rw [List.length_replicate]
    decide
  · rw [List.length_replicate]
    decide

end QTrace.Flight
