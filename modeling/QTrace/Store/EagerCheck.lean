import QTrace.Store.Families

/-! The eager check of a decoded catalog against what its rows say. Every family is checked
exactly, but for the register family: its slots are checked one by one, and nothing looks at a
key that is no slot. -/

namespace QTrace.Store

open Lib Provider
open Analysis (EventKey EventKind RegisterObservationRow)

variable {keys : List EventKey} {kinds : List EventKind} {catalog : NormalizedCatalog} {blockRows : ℕ}
  {label : String}

theorem requireEqual_ok {α : Type} [DecidableEq α] {actual expected : α} :
    requireEqual actual expected label = .ok () ↔ actual = expected := by
  rw [requireEqual, failIf_eq_ok]
  simp

theorem requireBuilt_ok {α : Type} [DecidableEq α] {built : Except IndexError α} {expected : α}
    {rest : Except IndexError Unit} :
    (built >>= fun actual => requireEqual actual expected label >>= fun _ => rest) = .ok () ↔
      built = .ok expected ∧ rest = .ok () := by
  rw [bind_eq_ok]
  simp only [seq_eq_ok, requireEqual_ok]
  exact ⟨fun ⟨actual, hbuilt, heq, hrest⟩ => ⟨heq ▸ hbuilt, hrest⟩, fun ⟨hbuilt, hrest⟩ => ⟨_, hbuilt, rfl, hrest⟩⟩

theorem requireLast_ok {α : Type} [DecidableEq α] {built : Except IndexError α} {expected : α} :
    (built >>= fun actual => requireEqual actual expected label) = .ok () ↔ built = .ok expected := by
  simp only [bind_eq_ok, requireEqual_ok]
  exact ⟨fun ⟨actual, hbuilt, heq⟩ => heq ▸ hbuilt, fun hbuilt => ⟨_, hbuilt, rfl⟩⟩

theorem slotRows_eq (observations : List RegisterObservationRow) (slot : ℕ) :
    slotRows observations slot = keyRows (registerPairs observations) slot := by
  simp [slotRows, keyRows, registerPairs, List.filter_map, Function.comp_def]

theorem validateSlot_ok {observations : List RegisterObservationRow} {register : SortedMap ℕ PostingList}
    {slot : ℕ} : validateSlot observations register slot = .ok () ↔
      ∀ posting, (slot, posting) ∈ register.entries ↔
        posting.rows = keyRows (registerPairs observations) slot ∧ keyRows (registerPairs observations) slot ≠ [] := by
  obtain ⟨expected, hexpected, hrows⟩ := PostingList.fromRows_ok (keyRows_pairwise (registerPairs observations) slot)
  have hcheck : validateSlot observations register slot = .ok () ↔
      ¬(keyRows (registerPairs observations) slot ≠ [] ∧ register.get slot ≠ some expected ∨
        keyRows (registerPairs observations) slot = [] ∧ register.get slot ≠ none) := by
    unfold validateSlot
    simp only [slotRows_eq, hexpected]
    change failIf _ _ = _ ↔ _
    rw [failIf_eq_ok, decide_eq_false_iff_not]
  have hposting : ∀ posting : PostingList, posting.rows = keyRows (registerPairs observations) slot ↔
      posting = expected := fun posting =>
    ⟨fun h => PostingList.rows_inj (h.trans hrows.symm), fun h => h ▸ hrows⟩
  simp only [hcheck, hposting, ← SortedMap.get_eq_some]
  by_cases hnil : keyRows (registerPairs observations) slot = []
  · simp only [hnil, ne_eq, not_true, false_and, true_and, false_or, and_false, not_not, iff_false]
    exact ⟨fun h posting => by simp [h], fun h => Option.eq_none_iff_forall_ne_some.mpr h⟩
  · simp only [hnil, ne_eq, not_false_eq_true, true_and, false_and, or_false, not_not, and_true]
    exact ⟨fun h posting => by rw [h, Option.some.injEq, eq_comm], fun h => (h expected).mpr rfl⟩

theorem builtIndexes_ok {indexes : IndexCatalog} :
    catalog.builtIndexes keys kinds blockRows = .ok indexes ↔
      keyedPostingPartition catalog.events.length (timelineOf keys) = .ok indexes.timeline ∧
      keyedPostingPartition catalog.events.length (tidOf keys) = .ok indexes.tid ∧
      keyedPostingPartition kinds.length (kindOf kinds) = .ok indexes.kind ∧
      keyedPostings (modulePairs catalog.instructions) = .ok indexes.module ∧
      keyedPostings (definitionPairs catalog.instructions) = .ok indexes.definition ∧
      keyedPostings (registerPairs catalog.observations) = .ok indexes.register ∧
      keyedPostings (categoryPairs catalog.semantics) = .ok indexes.semanticCategory ∧
      keyedPostings (namePairs catalog.semantics) = .ok indexes.semanticName ∧
      PostingList.fromRows (callRows catalog.definitions catalog.instructions) = .ok indexes.call ∧
      PostingList.fromRows (returnedRows catalog.definitions catalog.instructions) = .ok indexes.returnRows ∧
      PostingList.fromRows (checkpointRows catalog.observations) = .ok indexes.checkpoint ∧
      sequenceRows keys = indexes.sequence ∧
      keyedValues pcLe (pcPairs catalog.instructions) = .ok indexes.modulePc ∧
      IntervalIndex.build (intervalEntries catalog.memories) blockRows = .ok indexes.memory ∧
      SourceKeyIndex.build keys = .ok indexes.sourceKeys := by
  simp only [NormalizedCatalog.builtIndexes, buildIndexes, bind_eq_ok, pure_eq_ok]
  constructor
  · rintro ⟨timeline, h1, tid, h2, kind, h3, module, h4, definition, h5, call, h6, returnRows, h7, modulePc, h8,
      register, h9, checkpoint, h10, category, h11, name, h12, memory, h13, sourceKeys, h14, rfl⟩
    exact ⟨h1, h2, h3, h4, h5, h9, h11, h12, h6, h7, h10, rfl, h8, h13, h14⟩
  · rintro ⟨h1, h2, h3, h4, h5, h9, h11, h12, h6, h7, h10, hsequence, h8, h13, h14⟩
    exact ⟨_, h1, _, h2, _, h3, _, h4, _, h5, _, h6, _, h7, _, h8, _, h9, _, h10, _, h11, _, h12, _, h13, _, h14,
      by rw [hsequence]⟩

theorem decodeMap_ne_nil {bound : ℕ} {message : String} {rows : List (ℕ × DeltaRun)} {m : SortedMap ℕ PostingList}
    (h : decodeMap bound message rows = .ok m) : ∀ entry ∈ m.entries, entry.2.runs ≠ [] := by
  obtain ⟨entries, hentries, h⟩ := bind_eq_ok.mp h
  rw [fromSorted_ok.mp h]
  intro entry hentry
  obtain ⟨group, hgroup, h⟩ := mem_of_mapM_ok hentries hentry
  obtain ⟨-, -, h⟩ := bind_eq_ok.mp h
  obtain ⟨posting, hposting, h⟩ := bind_eq_ok.mp h
  obtain rfl := pure_eq_ok.mp h
  have hruns : posting.runs = group.2 := by
    unfold PostingList.fromRuns at hposting
    split_ifs at hposting
    rw [← Except.ok.inj hposting]
  rw [hruns]
  exact groupByKey_ne_nil hgroup

/-- The eager check accepts a decoded catalog where every family but the register family is as
built, and that one is under the slots. -/
theorem validateIndexFamilies_iff (hdecoded : catalog.indexes.Decoded) :
    validateIndexFamilies keys kinds catalog blockRows = .ok () ↔
      ∃ register, catalog.builtIndexes keys kinds blockRows = .ok { catalog.indexes with register := register } ∧
        ∀ slot < 34, ∀ posting, (slot, posting) ∈ catalog.indexes.register.entries ↔ (slot, posting) ∈ register.entries := by
  obtain ⟨_, htimeline⟩ := hdecoded.timeline
  obtain ⟨_, htid⟩ := hdecoded.tid
  obtain ⟨_, hkind⟩ := hdecoded.kind
  obtain ⟨register, hregister, hindexes⟩ := keyedPostings_ok (registerPairs catalog.observations)
  simp only [validateIndexFamilies, seq_eq_ok, requireBuilt_ok, requireLast_ok, requireEqual_ok, forM_eq_ok,
    List.mem_range, validateSlot_ok, ← hindexes _ _,
    partition_iff (decodeMap_ne_nil htimeline), partition_iff (decodeMap_ne_nil htid),
    partition_iff (decodeMap_ne_nil hkind), builtIndexes_ok, hregister, Except.ok.injEq]
  constructor
  · rintro ⟨h1, h2, h3, h4, h5, h6, h7, h8, h9, h10, h11, h12, h13, h14, h15⟩
    exact ⟨register, ⟨h1, h2, h3, h4, h5, rfl, h7, h8, h9, h10, h11, h12, h13, h14, h15⟩, h6⟩
  · rintro ⟨_, ⟨h1, h2, h3, h4, h5, rfl, h7, h8, h9, h10, h11, h12, h13, h14, h15⟩, h6⟩
    exact ⟨h1, h2, h3, h4, h5, h6, h7, h8, h9, h10, h11, h12, h13, h14, h15⟩

theorem observations_of_validateShape {eventCount : ℕ} (h : catalog.validateShape eventCount = .ok ()) :
    ∀ row ∈ catalog.observations, row.ownerRow < eventCount ∧ row.slot.toNat < 34 ∧ row.capturedWidth ≠ 0 := by
  simp only [NormalizedCatalog.validateShape, seq_eq_ok, failIf_eq_ok] at h
  obtain ⟨-, -, -, -, -, -, -, -, -, -, hobservations, -⟩ := h
  intro row hrow
  simp only [Bool.not_eq_false', List.all_eq_true, Bool.and_eq_true, decide_eq_true_eq, bne_iff_ne] at hobservations
  obtain ⟨⟨howner, hslot⟩, hwidth⟩ := hobservations row hrow
  exact ⟨howner, hslot, hwidth⟩

/-- The posting list of the first row. -/
def firstRow : PostingList := ⟨[⟨1, 1⟩], by simp, ⟨by simp, by simp⟩⟩

def oneReadKey : EventKey := ⟨[], 1, 0, 0, none, none⟩

/-- A catalog of one instruction that reads one register. -/
def oneRead : NormalizedCatalog where
  capabilities := .qtrbRegisterObservations
  events := [⟨.artifact, .captured, 0⟩]
  payloads := ⟨[0], [⟨0, 1⟩], 2 ^ 33, none⟩
  strings := .new (2 ^ 24)
  blobs := .new (2 ^ 26)
  modules := []
  definitions := []
  instructions := [⟨0, none, 0, none⟩]
  memories := []
  semantics := []
  observations := [⟨0, 3, 8, .read, 7, .captured⟩]
  completeness := []
  indexes :=
    { timeline := ⟨[(1, firstRow)], by simp⟩, tid := ⟨[], .nil⟩, kind := ⟨[(3, firstRow)], by simp⟩,
      module := ⟨[], .nil⟩, definition := ⟨[], .nil⟩, register := ⟨[(3, firstRow)], by simp⟩,
      semanticCategory := ⟨[], .nil⟩, semanticName := ⟨[], .nil⟩, call := .empty, returnRows := .empty,
      checkpoint := .empty, sequence := [], modulePc := ⟨[], .nil⟩, memory := ⟨[], [], [], 64⟩,
      sourceKeys := .identity 1 }

theorem oneRead_decoded : oneRead.indexes.Decoded where
  timeline := ⟨[(1, ⟨1, 1⟩)], by decide +kernel⟩
  tid := ⟨[], rfl⟩
  kind := ⟨[(3, ⟨1, 1⟩)], by decide +kernel⟩
  module := ⟨[], rfl⟩
  definition := ⟨[], rfl⟩
  register := ⟨[(3, ⟨1, 1⟩)], by decide +kernel⟩
  semanticCategory := ⟨[], rfl⟩
  semanticName := ⟨[], rfl⟩
  call := ⟨[], rfl⟩
  returnRows := ⟨[], rfl⟩
  checkpoint := ⟨[], rfl⟩
  modulePc := ⟨[], rfl⟩
  sourceKeys := ⟨1, [0], by decide⟩

/-- The same catalog, where the register section of the cache has one more run, under key 200. -/
def strayRegister : NormalizedCatalog :=
  { oneRead with
    indexes := { oneRead.indexes with register := ⟨[(3, firstRow), (200, firstRow)], by simp⟩ } }

end QTrace.Store
