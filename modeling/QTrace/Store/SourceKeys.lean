import QTrace.Lib.Search
import QTrace.Store.Catalog

/-! Looking up events by their source key. The index holds the rows in the order of their keys,
as a permutation or, where the events already ascend, as a count alone; a three-way search compares
the keys that the rows lead to. -/

namespace QTrace.Store

open Lib
open Analysis (EventKey)

namespace SourceKeyIndex

def row : SourceKeyIndex → ℕ → Option ℕ
  | identity count, position => if position < count then some position else none
  | permutation rows, position => rows[position]?

/-- One round of `find`: the row at a place, and how its key compares with the one sought. -/
def probe (index : SourceKeyIndex) (key : EventKey) (keyAt : ℕ → Except IndexError EventKey) (middle : ℕ) :
    Option (ℕ × Ordering) := do
  let row ← index.row middle
  let found ← (keyAt row).toOption
  return (row, compareEventKeys found key)

/-- `SourceKeyIndex::find`. Every round shortens the window, so that the length is fuel enough. -/
def find (index : SourceKeyIndex) (key : EventKey) (keyAt : ℕ → Except IndexError EventKey) : Option ℕ :=
  searchFrom (index.probe key keyAt) index.len 0 index.len

end SourceKeyIndex

instance : Std.TransCmp compareEventKeys := by
  unfold compareEventKeys
  infer_instance

theorem compareEventKeys_eq_iff {left right : EventKey} : compareEventKeys left right = .eq ↔ left = right := by
  unfold compareEventKeys
  simp only [compareLex_eq_eq, compareOn, Std.LawfulEqCmp.compare_eq_iff_eq]
  constructor
  · intro h
    cases left
    cases right
    simp_all
  · rintro rfl
    simp

def KeyBefore (left right : EventKey) : Prop := compareEventKeys left right = .lt

theorem KeyBefore.trans {a b c : EventKey} (hab : KeyBefore a b) (hbc : KeyBefore b c) : KeyBefore a c :=
  Std.TransCmp.lt_trans hab hbc

instance : Trans KeyBefore KeyBefore KeyBefore := ⟨KeyBefore.trans⟩

theorem KeyBefore.ne {a b : EventKey} (h : KeyBefore a b) : a ≠ b := by
  intro heq
  rw [KeyBefore, compareEventKeys_eq_iff.mpr heq] at h
  cases h

namespace SourceKeyIndex

theorem someAdjacent_eq_false {order : Ordering} {keys : List EventKey} :
    someAdjacent order keys = false ↔ keys.IsChain fun a b => compareEventKeys a b ≠ order := by
  fun_induction someAdjacent order keys with
  | case1 first second rest ih => simp [ih, List.isChain_cons_cons]
  | case2 keys h =>
    match keys, h with
    | [], _ => simp
    | [key], _ => simp
    | first :: second :: rest, h => exact absurd rfl (h first second rest)

theorem pairwise_keyBefore {keys : List EventKey} :
    keys.Pairwise KeyBefore ↔ someAdjacent .eq keys = false ∧ someAdjacent .gt keys = false := by
  rw [someAdjacent_eq_false, someAdjacent_eq_false, ← List.isChain_iff_pairwise]
  constructor
  · intro h
    constructor
    · exact h.imp fun a b hlt heq => by cases hlt.symm.trans heq
    · exact h.imp fun a b hlt hgt => by cases hlt.symm.trans hgt
  · rintro ⟨hne, hle⟩
    induction keys with
    | nil => simp
    | cons key keys ih =>
      cases keys with
      | nil => simp
      | cons next keys =>
        obtain ⟨hne, hne'⟩ := List.isChain_cons_cons.mp hne
        obtain ⟨hle, hle'⟩ := List.isChain_cons_cons.mp hle
        refine List.isChain_cons_cons.mpr ⟨?_, ih hne' hle'⟩
        unfold KeyBefore
        cases hcmp : compareEventKeys key next with
        | lt => rfl
        | eq => exact absurd hcmp hne
        | gt => exact absurd hcmp hle

theorem ascending_of_sorted {keys : List EventKey}
    (hsorted : keys.Pairwise fun a b => (compareEventKeys a b).isLE = true) (hne : someAdjacent .eq keys = false) :
    keys.Pairwise KeyBefore := by
  refine pairwise_keyBefore.mpr ⟨hne, someAdjacent_eq_false.mpr ?_⟩
  refine hsorted.isChain.imp fun a b hle hgt => ?_
  rw [hgt] at hle
  cases hle

theorem someAdjacent_eq_of_nodup {keys : List EventKey} (h : keys.Nodup) : someAdjacent .eq keys = false := by
  refine someAdjacent_eq_false.mpr ?_
  exact h.isChain.imp fun a b hne heq => hne (compareEventKeys_eq_iff.mp heq)

/-- The index lists every row once, in ascending order of the keys, and as a permutation only where
that is not the order of the rows. -/
structure Orders (index : SourceKeyIndex) (keys : List EventKey) : Prop where
  perm : index.rows.Perm (List.range keys.length)
  ascending : ∃ sorted : List EventKey, index.rows.map (keys[·]?) = sorted.map some ∧ sorted.Pairwise KeyBefore
  form : index = identity keys.length ∨ ∃ rows, index = permutation rows ∧ rows ≠ List.range keys.length

variable {keys : List EventKey} {index : SourceKeyIndex}

theorem map_getElem?_range (keys : List EventKey) : (List.range keys.length).map (keys[·]?) = keys.map some := by
  apply List.ext_getElem
  · simp
  · intro i hi hi'
    simp

/-- The keys with their rows, as `build` sorts them. -/
def sortedPairs (keys : List EventKey) : List (EventKey × ℕ) :=
  keys.zipIdx.mergeSort fun left right => (compareEventKeys left.1 right.1).isLE

section

variable (keys : List EventKey)

theorem sortedPairs_perm : (sortedPairs keys).Perm keys.zipIdx := List.mergeSort_perm _ _

theorem keys_perm : ((sortedPairs keys).map Prod.fst).Perm keys := by
  simpa using (sortedPairs_perm keys).map Prod.fst

theorem rows_perm : ((sortedPairs keys).map Prod.snd).Perm (List.range keys.length) := by
  simpa [List.range_eq_range'] using (sortedPairs_perm keys).map Prod.snd

theorem keys_sorted :
    ((sortedPairs keys).map Prod.fst).Pairwise fun a b => (compareEventKeys a b).isLE = true := by
  rw [List.pairwise_map]
  apply List.pairwise_mergeSort
  · intro a b c hab hbc
    exact Std.TransCmp.isLE_trans hab hbc
  · intro a b
    rw [← @Std.OrientedCmp.isGE_eq_isLE _ compareEventKeys _ a.1 b.1]
    cases compareEventKeys a.1 b.1 <;> rfl

theorem map_rows_sortedPairs :
    ((sortedPairs keys).map Prod.snd).map (keys[·]?) = ((sortedPairs keys).map Prod.fst).map some := by
  rw [List.map_map, List.map_map]
  apply List.map_congr_left
  intro pair hpair
  exact List.mem_zipIdx_iff_getElem?.mp ((sortedPairs_perm keys).mem_iff.mp hpair)

end

theorem build_orders (h : build keys = .ok index) : index.Orders keys := by
  unfold build at h
  split_ifs at h with hsame hmonotonic
  · -- the keys ascend as they are
    obtain rfl := Except.ok.inj h
    have hkeys := pairwise_keyBefore.mpr ⟨by simpa using hsame, by simpa using hmonotonic⟩
    exact ⟨.refl _, ⟨keys, map_getElem?_range keys, hkeys⟩, .inl rfl⟩
  · change (if someAdjacent .eq ((sortedPairs keys).map Prod.fst) then _ else _) = _ at h
    split_ifs at h with hsame'
    obtain rfl := Except.ok.inj h
    have hsorted := ascending_of_sorted (keys_sorted keys) (by simpa using hsame')
    refine ⟨rows_perm keys, ⟨_, map_rows_sortedPairs keys, hsorted⟩, .inr ⟨_, rfl, ?_⟩⟩
    intro (hrange : (sortedPairs keys).map Prod.snd = List.range keys.length)
    have hmap := map_rows_sortedPairs keys
    rw [hrange, map_getElem?_range] at hmap
    have hkeys : keys = (sortedPairs keys).map Prod.fst := (Option.some_injective _).list_map hmap
    rw [← hkeys] at hsorted
    exact hmonotonic (by simpa using (pairwise_keyBefore.mp hsorted).2)

theorem build_ok_iff : (∃ index, build keys = .ok index) ↔ keys.Nodup := by
  constructor
  · rintro ⟨index, h⟩
    obtain ⟨hperm, ⟨sorted, hsorted, hascending⟩, -⟩ := build_orders h
    have hkeys : (keys.map some).Perm (sorted.map some) := by
      rw [← map_getElem?_range, ← hsorted]
      exact (hperm.map _).symm
    have hnodup : sorted.Nodup := hascending.imp KeyBefore.ne
    exact (hkeys.nodup_iff.mpr (hnodup.map (Option.some_injective _))).of_map
  · intro h
    unfold build
    have hsorted : ((sortedPairs keys).map Prod.fst).Nodup := (keys_perm keys).nodup_iff.mpr h
    rw [if_neg (by simp [someAdjacent_eq_of_nodup h])]
    split_ifs with hmonotonic
    · exact ⟨_, rfl⟩
    · exact ⟨.permutation ((sortedPairs keys).map Prod.snd), if_neg (by
        change ¬someAdjacent .eq ((sortedPairs keys).map Prod.fst) = true
        simp [someAdjacent_eq_of_nodup hsorted])⟩

theorem row_eq (index : SourceKeyIndex) (position : ℕ) : index.row position = index.rows[position]? := by
  cases index with
  | identity count =>
    simp only [row, rows]
    split_ifs with h
    · simp [h]
    · simp [Nat.le_of_not_lt h]
  | permutation rows => rfl

theorem len_eq (index : SourceKeyIndex) : index.len = index.rows.length := by
  cases index <;> simp [len, rows]

/-- A row reads the key that the events have there. -/
def Reads (keyAt : ℕ → Except IndexError EventKey) (keys : List EventKey) : Prop :=
  ∀ row key, keys[row]? = some key → keyAt row = .ok key

theorem Orders.row_key (h : index.Orders keys) {position row : ℕ} (hrow : index.rows[position]? = some row) :
    ∃ key, keys[row]? = some key := by
  have hlt := List.mem_range.mp (h.perm.mem_iff.mp (List.mem_of_getElem? hrow))
  exact ⟨keys[row], List.getElem?_eq_getElem hlt⟩

theorem Orders.keyBefore (h : index.Orders keys) {i j row row' : ℕ} {key key' : EventKey} (hlt : i < j)
    (hi : index.rows[i]? = some row) (hj : index.rows[j]? = some row') (hkey : keys[row]? = some key)
    (hkey' : keys[row']? = some key') : KeyBefore key key' := by
  obtain ⟨sorted, hsorted, hascending⟩ := h.ascending
  have hat : ∀ {k r : ℕ} {e : EventKey}, index.rows[k]? = some r → keys[r]? = some e → sorted[k]? = some e := by
    intro k r e hr he
    have hmap := congrArg (·[k]?) hsorted
    simpa [hr, he, eq_comm] using hmap
  obtain ⟨hi', hi⟩ := List.getElem?_eq_some_iff.mp (hat hi hkey)
  obtain ⟨hj', hj⟩ := List.getElem?_eq_some_iff.mp (hat hj hkey')
  exact hi ▸ hj ▸ List.pairwise_iff_getElem.mp hascending i j hi' hj' hlt

variable {keyAt : ℕ → Except IndexError EventKey} {sought : EventKey}

section

variable (h : index.Orders keys) (hreads : Reads keyAt keys)
include h hreads

theorem Orders.probe_eq {i row : ℕ} {order : Ordering} :
    index.probe sought keyAt i = some (row, order) ↔
      ∃ key, index.rows[i]? = some row ∧ keys[row]? = some key ∧ compareEventKeys key sought = order := by
  unfold probe
  rw [row_eq]
  cases hrow : index.rows[i]? with
  | none => simp
  | some first =>
    obtain ⟨key, hkey⟩ := h.row_key hrow
    rw [Option.bind_eq_bind, Option.bind_some, hreads first key hkey]
    constructor
    · intro heq
      obtain ⟨rfl, rfl⟩ := Prod.mk.inj (Option.some.inj heq)
      exact ⟨key, rfl, hkey, rfl⟩
    · rintro ⟨key', hfirst, hkey', rfl⟩
      obtain rfl := Option.some.inj hfirst
      obtain rfl := Option.some.inj (hkey.symm.trans hkey')
      rfl

theorem Orders.ascends : Ascends (index.probe sought keyAt) index.len := by
  have hbefore : ∀ {i j row row' : ℕ} {key key' : EventKey}, i ≤ j → index.rows[i]? = some row →
      index.rows[j]? = some row' → keys[row]? = some key → keys[row']? = some key' →
      key = key' ∨ KeyBefore key key' := by
    intro i j row row' key key' hle hi hj hkey hkey'
    rcases Nat.eq_or_lt_of_le hle with rfl | hlt
    · obtain rfl := Option.some.inj (hi.symm.trans hj)
      exact .inl (Option.some.inj (hkey.symm.trans hkey'))
    · exact .inr (h.keyBefore hlt hi hj hkey hkey')
  refine ⟨?_, ?_, ?_⟩
  · intro i hi
    rw [len_eq] at hi
    obtain ⟨key, hkey⟩ := h.row_key (List.getElem?_eq_getElem hi)
    exact ⟨_, _, (h.probe_eq hreads).mpr ⟨key, List.getElem?_eq_getElem hi, hkey, rfl⟩⟩
  · intro i j row row' order hle hi hj
    obtain ⟨key, hrow, hkey, rfl⟩ := (h.probe_eq hreads).mp hi
    obtain ⟨key', hrow', hkey', hlt⟩ := (h.probe_eq hreads).mp hj
    rcases hbefore hle hrow hrow' hkey hkey' with rfl | hlt'
    · exact hlt
    · exact Std.TransCmp.lt_trans hlt' hlt
  · intro i j row row' order hle hi hj
    obtain ⟨key, hrow, hkey, hgt⟩ := (h.probe_eq hreads).mp hi
    obtain ⟨key', hrow', hkey', rfl⟩ := (h.probe_eq hreads).mp hj
    rcases hbefore hle hrow hrow' hkey hkey' with rfl | hlt'
    · exact hgt
    · exact Std.OrientedCmp.gt_iff_lt.mpr (Std.TransCmp.lt_trans (Std.OrientedCmp.gt_iff_lt.mp hgt) hlt')

theorem Orders.find_eq_some {row : ℕ} : index.find sought keyAt = some row ↔ keys[row]? = some sought := by
  have hsound : ∀ {row : ℕ}, index.find sought keyAt = some row → keys[row]? = some sought := by
    intro row hfind
    obtain ⟨i, -, -, hprobe⟩ := searchFrom_sound hfind
    obtain ⟨key, -, hkey, heq⟩ := (h.probe_eq hreads).mp hprobe
    rwa [← compareEventKeys_eq_iff.mp heq]
  refine ⟨hsound, fun hkey => ?_⟩
  have hlt : row < keys.length := (List.getElem?_eq_some_iff.mp hkey).1
  obtain ⟨i, hi⟩ := List.mem_iff_getElem?.mp (h.perm.mem_iff.mpr (List.mem_range.mpr hlt))
  have hprobe : index.probe sought keyAt i = some (row, .eq) :=
    (h.probe_eq hreads).mpr ⟨sought, hi, hkey, compareEventKeys_eq_iff.mpr rfl⟩
  have hlen : i < index.len := len_eq index ▸ (List.getElem?_eq_some_iff.mp hi).1
  obtain ⟨found, hfound⟩ := Option.isSome_iff_exists.mp
    (searchFrom_complete (h.ascends hreads) le_rfl (Nat.sub_le _ _) (Nat.zero_le i) hlen hprobe)
  -- the keys are distinct, so that the row found is this one
  obtain ⟨j, -, -, hprobe'⟩ := searchFrom_sound hfound
  obtain ⟨key, hj, hkey', heq⟩ := (h.probe_eq hreads).mp hprobe'
  obtain rfl := compareEventKeys_eq_iff.mp heq
  rcases Nat.lt_trichotomy i j with hij | rfl | hij
  · exact absurd rfl (h.keyBefore hij hi hj hkey hkey').ne
  · exact hfound.trans (hj.symm.trans hi)
  · exact absurd rfl (h.keyBefore hij hj hi hkey' hkey).ne

end

theorem Orders.read_rows (h : index.Orders keys) : read index.len index.rows = .ok index := by
  have hlen : index.len = keys.length := by
    rw [len_eq, h.perm.length_eq, List.length_range]
  have hinside : index.rows.any (index.len ≤ ·) = false := by
    simp only [List.any_eq_false, decide_eq_true_eq, not_le, hlen]
    exact fun row hrow => List.mem_range.mp (h.perm.mem_iff.mp hrow)
  unfold read
  rw [if_neg (by simp [hinside]), hlen]
  rcases h.form with rfl | ⟨rows, rfl, hne⟩
  · exact if_pos rfl
  · exact if_neg hne

/-- An index is built exactly from distinct keys; a search for any key then finds the row that holds it,
and only such a row; and the rows written out are read back as the same index. -/
theorem source_keys_exact (keys : List EventKey) :
    ((∃ index, build keys = .ok index) ↔ keys.Nodup) ∧
    ∀ index, build keys = .ok index →
      (∀ keyAt, Reads keyAt keys → ∀ key row, index.find key keyAt = some row ↔ keys[row]? = some key) ∧
      read index.len index.rows = .ok index := by
  refine ⟨build_ok_iff, fun index h => ?_⟩
  have horders := build_orders h
  exact ⟨fun keyAt hreads key row => horders.find_eq_some hreads, horders.read_rows⟩

/-- Two events against the order of their keys: the thread of the first sorts it behind the second. -/
def crossedKeys : List EventKey := [⟨[], 0, 0, 0, some 1, some 7⟩, ⟨[], 0, 0, 0, some 1, none⟩]

theorem source_keys_exact_crossed :
    ∃ index, build crossedKeys = .ok index ∧ read index.len index.rows = .ok index ∧
      index.find ⟨[], 0, 0, 0, some 1, none⟩ (fun row => .ok (crossedKeys.getD row ⟨[], 0, 0, 0, none, none⟩)) = some 1 := by
  obtain ⟨index, hbuild⟩ := (source_keys_exact crossedKeys).1.mpr (by decide)
  obtain ⟨hfind, hread⟩ := (source_keys_exact crossedKeys).2 index hbuild
  refine ⟨index, hbuild, hread, (hfind _ ?_ _ 1).mpr rfl⟩
  intro row key hkey
  simp [List.getD, hkey]

end SourceKeyIndex

end QTrace.Store
