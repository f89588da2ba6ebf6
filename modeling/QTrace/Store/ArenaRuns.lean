import QTrace.Lib.FirstUse
import QTrace.Store.Builder

/-! The byte arena with its hash map, over runs of interned values. A value is looked for among
the ids that its hash leads to, and is compared byte by byte there, so nothing is asked of the
hash. A run numbers the values by first use; replaying it in validation mode over the finished
arena gives the same ids, unless the last id is the greatest `u32`. -/

namespace QTrace.Store

open Lib

inductive HashCandidates
  | one (id : ℕ)
  | collisions (ids : List ℕ)

/-- `HashCandidates::iter`. -/
def HashCandidates.ids : HashCandidates → List ℕ
  | one id => [id]
  | collisions ids => ids

/-- An arena and the ids under each hash. -/
structure HashedArena (H : Type) where
  arena : ByteArena
  byHash : H → Option HashCandidates

namespace HashedArena

variable {H : Type}

def new (maxBytes : ℕ) : HashedArena H := ⟨.new maxBytes, fun _ => none⟩

def validation (source : HashedArena H) : HashedArena H := ⟨source.arena.validation, fun _ => none⟩

def candidates (self : HashedArena H) (key : H) : List ℕ := (self.byHash key).elim [] HashCandidates.ids

/-- The first candidate that holds the value. -/
def findCandidate (arena : ByteArena) (value : List UInt8) : List ℕ → Except IndexError (Option ℕ)
  | [] => .ok none
  | id :: ids => do
    let stored ← arena.get id
    if stored = value then .ok (some id) else findCandidate arena value ids

variable [DecidableEq H]

def insertHashCandidate (self : HashedArena H) (key : H) (id : ℕ) : HashedArena H :=
  let candidates := match self.byHash key with
    | none => .one id
    | some (.one first) => .collisions [first, id]
    | some (.collisions ids) => .collisions (ids ++ [id])
  { self with byHash := Function.update self.byHash key (some candidates) }

variable (hash : List UInt8 → H)

def intern (self : HashedArena H) (value : List UInt8) : Except IndexError (HashedArena H × ℕ) := do
  match ← findCandidate self.arena value (self.candidates (hash value)) with
  | some id => .ok (self, id)
  | none => match self.arena.validationNextId with
    | some next => do
      let stored ← self.arena.get next
      if stored ≠ value then .error (.corrupt "arena dictionary order disagrees with canonical payload facts")
      else if 2 ^ 32 ≤ next + 1 then .error (.corrupt "arena validation ID overflow")
      else
        let arena := { self.arena with validationNextId := some (next + 1) }
        .ok (insertHashCandidate { self with arena := arena } (hash value) next, next)
    | none =>
      if self.arena.maxBytes < self.arena.bytes.length + value.length then
        .error ⟨"control.budget_exceeded", "bounded arena byte limit exceeded"⟩
      else if 2 ^ 32 ≤ self.arena.spans.length then .error (.resource "bounded arena has too many spans")
      else
        let arena := { self.arena with
          bytes := self.arena.bytes ++ value
          spans := self.arena.spans ++ [⟨self.arena.bytes.length, value.length⟩] }
        .ok (insertHashCandidate { self with arena := arena } (hash value) self.arena.spans.length,
          self.arena.spans.length)

/-- A run of calls, up to the first that fails. -/
def internAll (self : HashedArena H) : List (List UInt8) → Except IndexError (HashedArena H × List ℕ)
  | [] => .ok (self, [])
  | value :: values => do
    let (self, id) ← intern hash self value
    let (self, ids) ← internAll self values
    .ok (self, id :: ids)

/-- The spans of values that lie one behind the other. -/
def layout : ℕ → List (List UInt8) → List ByteSpan
  | _, [] => []
  | offset, value :: values => ⟨offset, value.length⟩ :: layout (offset + value.length) values

/-- The arena that holds the values. -/
def holding (stored : List (List UInt8)) (maxBytes : ℕ) (mode : Option ℕ) : ByteArena :=
  ⟨stored.flatten, layout 0 stored, maxBytes, mode⟩

theorem length_layout (offset : ℕ) (values : List (List UInt8)) : (layout offset values).length = values.length := by
  induction values generalizing offset with
  | nil => rfl
  | cons value values ih => rw [layout, List.length_cons, ih, List.length_cons]

theorem layout_append (offset : ℕ) (values values' : List (List UInt8)) :
    layout offset (values ++ values') = layout offset values ++ layout (offset + values.flatten.length) values' := by
  induction values generalizing offset with
  | nil => simp [layout]
  | cons value values ih =>
    simp only [List.cons_append, layout, ih, List.flatten_cons, List.length_append, Nat.add_assoc]

theorem getElem?_layout (values : List (List UInt8)) (offset id : ℕ) :
    (layout offset values)[id]? =
      values[id]?.map fun value => ⟨offset + (values.take id).flatten.length, value.length⟩ := by
  induction values generalizing offset id with
  | nil => simp [layout]
  | cons value values ih =>
    cases id with
    | zero => simp [layout]
    | succ id => simp [layout, ih, Nat.add_assoc]

theorem get_holding {stored : List (List UInt8)} (maxBytes : ℕ) (mode : Option ℕ) {id : ℕ} {value : List UInt8}
    (h : stored[id]? = some value) : (holding stored maxBytes mode).get id = .ok value := by
  obtain ⟨hlt, rfl⟩ := List.getElem?_eq_some_iff.mp h
  have hsplit : stored.flatten = (stored.take id).flatten ++ (stored[id] ++ (stored.drop (id + 1)).flatten) := by
    rw [← List.flatten_cons, List.getElem_cons_drop, ← List.flatten_append, List.take_append_drop]
  rw [ByteArena.get, holding]
  simp only [getElem?_layout, h, Option.map_some, Nat.zero_add]
  rw [hsplit, if_pos (by simp only [List.length_append]; omega), List.drop_left, List.take_left]

/-- The arena holds `stored`, of which `known` were interned in this run. -/
structure Represents (stored known : List (List UInt8)) (maxBytes : ℕ) (mode : Option ℕ) (state : HashedArena H) : Prop where
  arena : state.arena = holding stored maxBytes mode
  known_stored : known <+: stored
  nodup : known.Nodup
  candidates : ∀ key, state.candidates key = (List.range known.length).filter fun id => known[id]?.map hash = some key

section Step

variable {hash} {stored known : List (List UInt8)} {maxBytes : ℕ} {mode : Option ℕ} {self : HashedArena H}
  {value : List UInt8}

omit [DecidableEq H] in
theorem findCandidate_holding {ids : List ℕ} (h : ∀ id ∈ ids, id < stored.length) :
    findCandidate (holding stored maxBytes mode) value ids = .ok (ids.find? fun id => stored[id]? = some value) := by
  induction ids with
  | nil => rfl
  | cons id ids ih =>
    obtain ⟨hid, h⟩ := List.forall_mem_cons.mp h
    have hget := List.getElem?_eq_getElem hid
    rw [findCandidate, bind_of_ok (get_holding maxBytes mode hget), ih h, List.find?_cons, hget]
    by_cases hvalue : stored[id] = value <;> simp [hvalue]

section

variable (h : Represents hash stored known maxBytes mode self)
include h

theorem Represents.findCandidate_eq :
    findCandidate self.arena value (self.candidates (hash value)) =
      .ok ((List.range known.length).find? fun id => known[id]? = some value) := by
  obtain ⟨later, rfl⟩ := h.known_stored
  rw [h.arena, findCandidate_holding, h.candidates, List.find?_filter]
  · congr 1
    refine List.find?_congr fun id hid => ?_
    rw [List.getElem?_append_left (List.mem_range.mp hid), decide_eq_decide, decide_eq_true_eq, decide_eq_true_eq]
    refine ⟨And.right, fun hget => ⟨?_, hget⟩⟩
    rw [hget, Option.map_some]
  · rw [h.candidates]
    intro id hid
    rw [List.length_append]
    exact (List.mem_range.mp (List.mem_filter.mp hid).1).trans_le (Nat.le_add_right _ _)

theorem Represents.findCandidate_known {id : ℕ} (hid : known[id]? = some value) :
    findCandidate self.arena value (self.candidates (hash value)) = .ok (some id) := by
  rw [h.findCandidate_eq]
  congr 1
  obtain ⟨hlt, hget⟩ := List.getElem?_eq_some_iff.mp hid
  cases hfind : (List.range known.length).find? fun id => decide (known[id]? = some value) with
  | none => exact absurd hid (by simpa using List.find?_eq_none.mp hfind id (List.mem_range.mpr hlt))
  | some found =>
    have hfound : known[found]? = some value := by simpa using List.find?_some hfind
    obtain ⟨hlt', hget'⟩ := List.getElem?_eq_some_iff.mp hfound
    rw [h.nodup.getElem_inj_iff.mp (hget'.trans hget.symm)]

theorem Represents.findCandidate_new (hnew : value ∉ known) :
    findCandidate self.arena value (self.candidates (hash value)) = .ok none := by
  rw [h.findCandidate_eq]
  congr 1
  refine List.find?_eq_none.mpr fun id _ hid => hnew ?_
  exact List.mem_of_getElem? (by simpa using hid)

end

theorem candidates_insertHashCandidate (self : HashedArena H) (key : H) (id : ℕ) (key' : H) :
    (self.insertHashCandidate key id).candidates key' = self.candidates key' ++ if key' = key then [id] else [] := by
  rw [HashedArena.candidates, HashedArena.candidates, insertHashCandidate]
  by_cases hkey : key' = key
  · subst hkey
    simp only [Function.update_self, if_true]
    cases self.byHash key' with
    | none => rfl
    | some found => cases found <;> rfl
  · simp [hkey]

theorem Represents.insert (h : Represents hash stored known maxBytes mode self) (hnew : value ∉ known)
    {stored' : List (List UInt8)} {mode' : Option ℕ} (hfront : known ++ [value] <+: stored') :
    Represents hash stored' (known ++ [value]) maxBytes mode'
      (insertHashCandidate { self with arena := holding stored' maxBytes mode' } (hash value) known.length) := by
  refine ⟨rfl, hfront, ?_, fun key => ?_⟩
  · have hconcat := h.nodup.concat hnew
    rwa [List.concat_eq_append] at hconcat
  · have hcandidates : HashedArena.candidates { self with arena := holding stored' maxBytes mode' } key =
        self.candidates key := rfl
    rw [candidates_insertHashCandidate, hcandidates, h.candidates, List.length_append, List.length_singleton, List.range_succ,
      List.filter_append]
    congr 1
    · refine List.filter_congr fun id hid => ?_
      rw [List.getElem?_append_left (List.mem_range.mp hid)]
    · rw [List.filter_singleton, List.getElem?_concat_length, Option.map_some]
      by_cases hkey : hash value = key
      · simp [hkey]
      · simp [hkey, Ne.symm hkey]

theorem Represents.intern_known (h : Represents hash stored known maxBytes mode self) {id : ℕ}
    (hid : known[id]? = some value) : intern hash self value = .ok (self, id) := by
  rw [intern, bind_of_ok (h.findCandidate_known hid)]

section

variable (h : Represents hash known known maxBytes none self) (hnew : value ∉ known)
include h hnew

theorem Represents.intern_new (hbytes : (known ++ [value]).flatten.length ≤ maxBytes)
    (hroom : known.length < 2 ^ 32) :
    ∃ self', intern hash self value = .ok (self', known.length) ∧
      Represents hash (known ++ [value]) (known ++ [value]) maxBytes none self' := by
  refine ⟨_, ?_, h.insert hnew List.prefix_rfl⟩
  rw [intern, bind_of_ok (h.findCandidate_new hnew)]
  have harena : holding (known ++ [value]) maxBytes none = { self.arena with
      bytes := self.arena.bytes ++ value
      spans := self.arena.spans ++ [⟨self.arena.bytes.length, value.length⟩] } := by
    simp [h.arena, holding, layout_append, layout]
  rw [harena]
  have hlength : self.arena.spans.length = known.length := by rw [h.arena, holding, length_layout]
  simp only [List.flatten_append, List.flatten_singleton, List.length_append] at hbytes
  have hmode : self.arena.validationNextId = none := by rw [h.arena, holding]
  have hmax : ¬self.arena.maxBytes < self.arena.bytes.length + value.length := by
    rw [h.arena]
    show ¬maxBytes < known.flatten.length + value.length
    omega
  simp only [hmode, hlength, if_neg hmax, if_neg (show ¬2 ^ 32 ≤ known.length by omega)]

theorem Represents.intern_refused (hroom : 2 ^ 32 ≤ known.length) : ∃ e, intern hash self value = .error e := by
  rw [intern, bind_of_ok (h.findCandidate_new hnew)]
  simp only [h.arena, holding, length_layout, if_pos hroom]
  split_ifs <;> exact ⟨_, rfl⟩

theorem Represents.intern_beyond (hbytes : maxBytes < (known ++ [value]).flatten.length) :
    ∃ e, intern hash self value = .error e := by
  rw [List.flatten_append, List.flatten_singleton, List.length_append] at hbytes
  rw [intern, bind_of_ok (h.findCandidate_new hnew)]
  simp only [h.arena, holding, if_pos hbytes]
  exact ⟨_, rfl⟩

end

/-- In a validation run the next value has to be the next one stored. -/
theorem Represents.intern_replay (h : Represents hash stored known maxBytes (some known.length) self) (hnew : value ∉ known)
    (hnext : known ++ [value] <+: stored) :
    if known.length + 1 < 2 ^ 32 then ∃ self', intern hash self value = .ok (self', known.length) ∧
      Represents hash stored (known ++ [value]) maxBytes (some (known ++ [value]).length) self'
    else intern hash self value = .error (.corrupt "arena validation ID overflow") := by
  have hget : self.arena.get known.length = .ok value := by
    obtain ⟨later, rfl⟩ := hnext
    rw [h.arena]
    refine get_holding _ _ ?_
    rw [List.getElem?_append_left (by simp), List.getElem?_concat_length]
  have hmode : self.arena.validationNextId = some known.length := by rw [h.arena, holding]
  have hintern : intern hash self value = if 2 ^ 32 ≤ known.length + 1 then
      .error (.corrupt "arena validation ID overflow")
      else .ok (insertHashCandidate { self with arena := { self.arena with validationNextId := some (known.length + 1) } }
        (hash value) known.length, known.length) := by
    rw [intern, bind_of_ok (h.findCandidate_new hnew)]
    simp only [hmode]
    rw [bind_of_ok hget, if_neg (by simp)]
  split_ifs with hroom
  · refine ⟨_, hintern.trans (if_neg (by omega)), ?_⟩
    have harena : { self.arena with validationNextId := some (known.length + 1) } =
        holding stored maxBytes (some (known ++ [value]).length) := by
      simp [h.arena, holding]
    rw [harena]
    exact h.insert hnew hnext
  · exact hintern.trans (if_pos (by omega))

end Step

section Runs

open FirstUse

variable {hash} {stored known values : List (List UInt8)} {maxBytes : ℕ} {self : HashedArena H}

section Cons

variable {value : List UInt8} {next last : HashedArena H} {id : ℕ} {ids : List ℕ} {e : IndexError}

theorem internAll_cons (h : intern hash self value = .ok (next, id)) (hrest : internAll hash next values = .ok (last, ids)) :
    internAll hash self (value :: values) = .ok (last, id :: ids) := by
  rw [internAll, bind_of_ok h]
  dsimp only
  rw [bind_of_ok hrest]

theorem internAll_cons_error (h : intern hash self value = .ok (next, id)) (hrest : internAll hash next values = .error e) :
    internAll hash self (value :: values) = .error e := by
  rw [internAll, bind_of_ok h]
  dsimp only
  rw [hrest]
  rfl

theorem internAll_error (h : intern hash self value = .error e) : internAll hash self (value :: values) = .error e := by
  rw [internAll, h]
  rfl

end Cons

theorem internAll_build (h : Represents hash known known maxBytes none self)
    (hbytes : (assignAll (2 ^ 32) known values).2.flatten.length ≤ maxBytes)
    (hall : none ∉ (assignAll (2 ^ 32) known values).1) :
    ∃ self', internAll hash self values = .ok (self', numbers (assignAll (2 ^ 32) known values).1) ∧
      Represents hash (assignAll (2 ^ 32) known values).2 (assignAll (2 ^ 32) known values).2 maxBytes none self' := by
  induction values generalizing known self with
  | nil => exact ⟨self, rfl, h⟩
  | cons value values ih =>
    rw [assignAll_cons] at hbytes hall ⊢
    rw [List.mem_cons, not_or] at hall
    obtain ⟨hmem, hassign⟩ | ⟨hnew, hroom, hassign⟩ | ⟨-, -, hassign⟩ := assign_cases (2 ^ 32) known value
    · rw [hassign] at hbytes hall ⊢
      obtain ⟨self', hrun, hrep⟩ := ih h hbytes hall.2
      rw [numbers_cons]
      exact ⟨self', internAll_cons (h.intern_known (getElem?_of_assign hassign)) hrun, hrep⟩
    · rw [hassign] at hbytes hall ⊢
      have hfits : (known ++ [value]).flatten.length ≤ maxBytes := by
        obtain ⟨later, hlater⟩ := prefix_assignAll (2 ^ 32) (known ++ [value]) values
        rw [← hlater, List.flatten_append, List.length_append] at hbytes
        omega
      obtain ⟨next, hintern, hnext⟩ := h.intern_new hnew hfits hroom
      obtain ⟨self', hrun, hrep⟩ := ih hnext hbytes hall.2
      rw [numbers_cons]
      exact ⟨self', internAll_cons hintern hrun, hrep⟩
    · rw [hassign] at hall
      exact absurd rfl hall.1

theorem internAll_refused (h : Represents hash known known maxBytes none self)
    (hnone : none ∈ (assignAll (2 ^ 32) known values).1) : ∃ e, internAll hash self values = .error e := by
  induction values generalizing known self with
  | nil => simp [assignAll] at hnone
  | cons value values ih =>
    rw [assignAll_cons, List.mem_cons] at hnone
    obtain ⟨hmem, hassign⟩ | ⟨hnew, hroom, hassign⟩ | ⟨hnew, hroom, -⟩ := assign_cases (2 ^ 32) known value
    · rw [hassign] at hnone
      obtain ⟨e, he⟩ := ih h (hnone.resolve_left (by simp))
      exact ⟨e, internAll_cons_error (h.intern_known (getElem?_of_assign hassign)) he⟩
    · rw [hassign] at hnone
      by_cases hfits : (known ++ [value]).flatten.length ≤ maxBytes
      · obtain ⟨next, hintern, hnext⟩ := h.intern_new hnew hfits hroom
        obtain ⟨e, he⟩ := ih hnext (hnone.resolve_left (by simp))
        exact ⟨e, internAll_cons_error hintern he⟩
      · obtain ⟨e, he⟩ := h.intern_beyond hnew (by omega)
        exact ⟨e, internAll_error he⟩
    · obtain ⟨e, he⟩ := h.intern_refused hnew hroom
      exact ⟨e, internAll_error he⟩

/-- The same run in validation mode, over an arena that holds what the run interns, stops at the last
id of all. -/
theorem internAll_replay (h : Represents hash stored known maxBytes (some known.length) self)
    (hstored : (assignAll (2 ^ 32) known values).2 <+: stored) (hall : none ∉ (assignAll (2 ^ 32) known values).1)
    (hknown : known.length < 2 ^ 32) :
    if (assignAll (2 ^ 32) known values).2.length < 2 ^ 32 then
      ∃ self', internAll hash self values = .ok (self', numbers (assignAll (2 ^ 32) known values).1)
    else internAll hash self values = .error (.corrupt "arena validation ID overflow") := by
  induction values generalizing known self with
  | nil => exact (if_pos hknown).mpr ⟨self, rfl⟩
  | cons value values ih =>
    rw [assignAll_cons] at hstored hall ⊢
    rw [List.mem_cons, not_or] at hall
    obtain ⟨hmem, hassign⟩ | ⟨hnew, -, hassign⟩ | ⟨-, -, hassign⟩ := assign_cases (2 ^ 32) known value
    · rw [hassign] at hstored hall ⊢
      have hrest := ih h hstored hall.2 hknown
      have hintern := h.intern_known (getElem?_of_assign hassign)
      rw [numbers_cons]
      split_ifs at hrest ⊢
      · exact hrest.imp fun _ => internAll_cons hintern
      · exact internAll_cons_error hintern hrest
    · rw [hassign] at hstored hall ⊢
      have hfront := prefix_assignAll (2 ^ 32) (known ++ [value]) values
      have hnext := h.intern_replay hnew (hfront.trans hstored)
      split_ifs at hnext with hlast
      · obtain ⟨next, hintern, hrep⟩ := hnext
        have hrest := ih hrep hstored hall.2 (by simpa using hlast)
        rw [numbers_cons]
        split_ifs at hrest ⊢
        · exact hrest.imp fun _ => internAll_cons hintern
        · exact internAll_cons_error hintern hrest
      · have hlength := hfront.length_le
        rw [List.length_append, List.length_singleton] at hlength
        rw [if_neg (by dsimp only; omega)]
        exact internAll_error hnext
    · rw [hassign] at hall
      exact absurd rfl hall.1

theorem represents_new (hash : List UInt8 → H) (maxBytes : ℕ) : Represents hash [] [] maxBytes none (new maxBytes) :=
  ⟨rfl, List.prefix_rfl, List.nodup_nil, fun _ => rfl⟩

theorem Represents.validation (h : Represents hash stored stored maxBytes none self) :
    Represents hash stored [] maxBytes (some 0) self.validation := by
  refine ⟨?_, List.nil_prefix, List.nodup_nil, fun _ => rfl⟩
  rw [HashedArena.validation, h.arena]
  rfl

theorem length_flatten_known (hall : none ∉ (assignAll (2 ^ 32) [] values).1) :
    (assignAll (2 ^ 32) [] values).2.flatten.length = (values.dedup.map List.length).sum := by
  rw [List.length_flatten]
  exact ((known_perm_dedup hall).map List.length).sum_eq

theorem internAll_new (hash : List UInt8 → H) (hbytes : (values.dedup.map List.length).sum ≤ maxBytes)
    (hall : none ∉ (assignAll (2 ^ 32) [] values).1) :
    ∃ arena, internAll hash (new maxBytes) values = .ok (arena, numbers (assignAll (2 ^ 32) [] values).1) ∧
      Represents hash (assignAll (2 ^ 32) [] values).2 (assignAll (2 ^ 32) [] values).2 maxBytes none arena :=
  internAll_build (represents_new hash maxBytes) ((length_flatten_known hall).trans_le hbytes) hall

theorem prefix_layout {known' : List (List UInt8)} (h : known <+: known') :
    layout 0 known <+: layout 0 known' := by
  obtain ⟨later, rfl⟩ := h
  rw [layout_append]
  exact List.prefix_append _ _

theorem prefix_flatten {known' : List (List UInt8)} (h : known <+: known') : known.flatten <+: known'.flatten := by
  obtain ⟨later, rfl⟩ := h
  rw [List.flatten_append]
  exact List.prefix_append _ _

/-- What a run of `intern` calls is to give: an id for each value, the same for equal values and
only for these, that leads to the bytes; ids that count up by first use; spans that stay; and
the same ids when the run is replayed over the finished arena. -/
structure Interning (hash : List UInt8 → H) (maxBytes : ℕ) (values : List (List UInt8)) (arena : HashedArena H)
    (ids : List ℕ) : Prop where
  run : internAll hash (new maxBytes) values = .ok (arena, ids)
  length : ids.length = values.length
  id_eq_iff : ∀ (i j : ℕ) value value' id id', values[i]? = some value → values[j]? = some value' →
    ids[i]? = some id → ids[j]? = some id' → (id = id' ↔ value = value')
  get : ∀ (i : ℕ) value id, values[i]? = some value → ids[i]? = some id → arena.arena.get id = .ok value
  dense : ∀ (i : ℕ) id, ids[i]? = some id → id ∈ ids.take i ∨ id = (ids.take i).dedup.length
  kept : ∀ n, ∃ before, internAll hash (new maxBytes) (values.take n) = .ok (before, ids.take n) ∧
    before.arena.spans <+: arena.arena.spans ∧ before.arena.bytes <+: arena.arena.bytes
  replay : ∃ final, internAll hash arena.validation values = .ok (final, ids)

end Runs

section Exact

open FirstUse

variable {hash : List UInt8 → H} {values : List (List UInt8)} {maxBytes : ℕ}

theorem known_of_id (hall : none ∉ (assignAll (2 ^ 32) [] values).1) {i id : ℕ} {value : List UInt8}
    (hvalue : values[i]? = some value) (hid : (numbers (assignAll (2 ^ 32) [] values).1)[i]? = some id) :
    (assignAll (2 ^ 32) [] values).2[id]? = some value := by
  obtain ⟨new, hresult⟩ := getElem?_of_numbers hall hid
  exact getElem?_known hvalue hresult

theorem interning_of_lt (hash : List UInt8 → H) (hbytes : (values.dedup.map List.length).sum ≤ maxBytes)
    (hroom : values.dedup.length < 2 ^ 32) : ∃ arena ids, Interning hash maxBytes values arena ids := by
  have hall := (not_refused_iff (2 ^ 32) values).mpr hroom.le
  have hlength := (known_perm_dedup hall).length_eq
  obtain ⟨arena, hrun, hrep⟩ := internAll_new hash hbytes hall
  refine ⟨arena, _, hrun, (length_numbers hall).trans (length_assignAll [] values), ?_, ?_, fun i id => numbers_dense hall,
    fun n => ?_, ?_⟩
  · intro i j value value' id id' hi hj hid hid'
    have hplace := known_of_id hall hi hid
    have hplace' := known_of_id hall hj hid'
    constructor
    · rintro rfl
      exact Option.some.inj (hplace.symm.trans hplace')
    · rintro rfl
      obtain ⟨hlt, hget⟩ := List.getElem?_eq_some_iff.mp hplace
      obtain ⟨hlt', hget'⟩ := List.getElem?_eq_some_iff.mp hplace'
      exact hrep.nodup.getElem_inj_iff.mp (hget.trans hget'.symm)
  · intro i value id hi hid
    rw [hrep.arena]
    exact get_holding _ _ (known_of_id hall hi hid)
  · have hfront := prefix_known_take (2 ^ 32) values n
    have hfits : (assignAll (2 ^ 32) [] (values.take n)).2.flatten.length ≤ maxBytes :=
      ((prefix_flatten hfront).length_le.trans (length_flatten_known hall).le).trans hbytes
    obtain ⟨before, hbefore, hrep'⟩ := internAll_build (represents_new hash maxBytes) hfits (not_refused_take hall n)
    refine ⟨before, ?_, ?_, ?_⟩
    · rw [take_numbers hall, hbefore]
    · rw [hrep.arena, hrep'.arena]
      exact prefix_layout hfront
    · rw [hrep.arena, hrep'.arena]
      exact prefix_flatten hfront
  · have hreplay := internAll_replay hrep.validation List.prefix_rfl hall (by decide)
    rwa [if_pos (hlength.trans_lt hroom)] at hreplay

/-- With a value for every id, the run comes out and its replay does not. -/
theorem internAll_last_id (hash : List UInt8 → H) (hbytes : (values.dedup.map List.length).sum ≤ maxBytes)
    (hfull : values.dedup.length = 2 ^ 32) :
    ∃ arena ids, internAll hash (new maxBytes) values = .ok (arena, ids) ∧
      internAll hash arena.validation values = .error (.corrupt "arena validation ID overflow") := by
  have hall := (not_refused_iff (2 ^ 32) values).mpr hfull.le
  obtain ⟨arena, hrun, hrep⟩ := internAll_new hash hbytes hall
  have hreplay := internAll_replay hrep.validation List.prefix_rfl hall (by decide)
  rw [(known_perm_dedup hall).length_eq, hfull, if_neg (lt_irrefl _)] at hreplay
  exact ⟨arena, _, hrun, hreplay⟩

/-- The first `n` words of four bytes. -/
def words (n : ℕ) : List (List UInt8) := (List.range n).map (leBytes 4)

theorem nodup_words {n : ℕ} (h : n ≤ 2 ^ 32) : (words n).Nodup := by
  refine List.nodup_range.map_on fun a ha b hb hab => ?_
  rw [List.mem_range] at ha hb
  have hnat := congrArg leNat hab
  rwa [leNat_leBytes_of_lt (show a < 256 ^ 4 by omega), leNat_leBytes_of_lt (show b < 256 ^ 4 by omega)] at hnat

theorem sum_length_words (n : ℕ) : ((words n).map List.length).sum = n * 4 := by
  rw [words, List.map_map]
  simp only [Function.comp_def, length_leBytes, List.map_const', List.length_range, List.sum_replicate, smul_eq_mul]

theorem short_inj {value value' : List UInt8} (h : value.length ≤ 3) (h' : value'.length ≤ 3)
    (heq : value.length * 2 ^ 24 + leNat value = value'.length * 2 ^ 24 + leNat value') : value = value' := by
  have hlt : leNat value < 2 ^ 24 := (leNat_lt value).trans_le (Nat.pow_le_pow_right (n := 256) (by decide) h)
  have hlt' : leNat value' < 2 ^ 24 := (leNat_lt value').trans_le (Nat.pow_le_pow_right (n := 256) (by decide) h')
  have hlength : value.length = value'.length := by omega
  have hnat : leNat value = leNat value' := by omega
  rw [← leBytes_leNat value, ← leBytes_leNat value', hlength, hnat]

theorem length_short_le (hnodup : values.Nodup) (hshort : ∀ value ∈ values, value.length ≤ 3) :
    values.length ≤ 2 ^ 26 := by
  have hcodes : (values.map fun value => value.length * 2 ^ 24 + leNat value).Nodup :=
    hnodup.map_on fun value hvalue value' hvalue' => short_inj (hshort value hvalue) (hshort value' hvalue')
  have hsub : (values.map fun value => value.length * 2 ^ 24 + leNat value).Subperm (List.range (2 ^ 26)) := by
    refine hcodes.subperm fun code hcode => ?_
    obtain ⟨value, hvalue, rfl⟩ := List.mem_map.mp hcode
    have hlength := hshort value hvalue
    have hlt : leNat value < 2 ^ 24 := (leNat_lt value).trans_le (Nat.pow_le_pow_right (n := 256) (by decide) hlength)
    rw [List.mem_range]
    omega
  have hle := hsub.length_le
  rwa [List.length_map, List.length_range] at hle

theorem four_mul_length_le (values : List (List UInt8)) :
    4 * values.length ≤ (values.map List.length).sum + 4 * (values.filter fun value => value.length ≤ 3).length := by
  induction values with
  | nil => rfl
  | cons value values ih =>
    rw [List.length_cons, List.map_cons, List.sum_cons, List.filter_cons]
    split_ifs with hshort
    · rw [List.length_cons]
      omega
    · rw [decide_eq_true_eq] at hshort
      omega

/-- Within the limits that a build has by default, no run comes to the last id. -/
theorem interning_of_default (hash : List UInt8 → H) (hlimit : maxBytes ≤ BuildOptions.default.maxPayloadBytes)
    (hbytes : (values.dedup.map List.length).sum ≤ maxBytes) : ∃ arena ids, Interning hash maxBytes values arena ids := by
  refine interning_of_lt hash hbytes ?_
  have hshort := length_short_le ((List.nodup_dedup values).filter fun value => decide (value.length ≤ 3)) fun value hvalue => by
    simpa using (List.mem_filter.mp hvalue).2
  have hcount := four_mul_length_le values.dedup
  have hdefault : BuildOptions.default.maxPayloadBytes = 2 ^ 33 := rfl
  omega

/-- A hash under which all strings collide. -/
theorem interning_of_default_colliding :
    ∃ arena ids, Interning (fun _ => ()) 2 [[1], [1], [2]] arena ids :=
  interning_of_default _ (by decide) (by decide)

end Exact

end HashedArena

end QTrace.Store
