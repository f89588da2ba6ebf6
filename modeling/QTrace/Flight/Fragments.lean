import QTrace.Lib.RadixSort
import QTrace.Lib.SlotTable
import QTrace.Flight.Superblock

/-! Events whose detail was cut into several records. Each record is decoded into a fragment
on its own; at the end `finish` collects the fragments of one event, puts them into a table
by their index, and either emits the event or reports every one of them as damaged. The
groups come in the order of a hash map, which is any order. -/

namespace QTrace.Flight

open Lib Provider
open Analysis (EventKey Provenance)
open Wire (Superblock)

structure Fragment where
  key : EventKey
  provenance : Provenance
  kind : UInt16
  eventId : UInt64
  total : UInt32
  index : UInt16
  count : UInt16
  fixed : List (List UInt8)
  detail : List UInt8
  chunkIndex : UInt32
  generation : UInt32
  deriving DecidableEq

def fragmentPayloadError : ProviderError :=
  ⟨"source.flight.payload", "flight.fragment", none, false, "invalid Flight fragment payload"⟩

def fragmentAllocationError : ProviderError :=
  ⟨"source.flight.allocation", "flight.fragment", none, false, "Flight fragment allocation failed"⟩

/-- The string fields of a fragment; a call has a category. -/
def fieldCount (kind : UInt16) : ℕ := if kind = 6 then 3 else 2

namespace Fragment

/-- The longest detail an event of the kind may have. -/
def totalLimit (kind : UInt16) : ℕ := if kind = 6 then 1048576 else 4096

/-- The texts and lengths `decode` refuses. The sums saturate at `usize`, far away. -/
def malformed (f : Fragment) : Bool :=
  f.fixed.head?.all (255 < ·.length) || (f.kind = 6 && f.fixed[1]?.all (255 < ·.length)) ||
    f.detail.isEmpty || 3072 < f.detail.length || totalLimit f.kind < f.total.toNat ||
    f.total.toNat ≤ f.detail.length || f.total.toNat < f.count.toNat ||
    f.total.toNat < f.detail.length + f.count.toNat - 1

def decode (kind : UInt16) (bytes : List UInt8) (strings : UInt32 → Option (List UInt8)) (key : EventKey)
    (provenance : Provenance) (chunkIndex generation : UInt32) : Except ProviderError Fragment := do
  failIf (bytes.length ≠ 16 + fieldCount kind * 4) fragmentPayloadError
  let eventId := UInt64.ofNat (leNat (bytes.take 8))
  let total := UInt32.ofNat (leNat ((bytes.drop 8).take 4))
  let index := UInt16.ofNat (leNat ((bytes.drop 12).take 2))
  let count := UInt16.ofNat (leNat ((bytes.drop 14).take 2))
  failIf (eventId = 0 || total = 0 || count < 2 || count ≤ index) fragmentPayloadError
  let rawFields ← (List.range (fieldCount kind)).mapM fun field =>
    match strings (UInt32.ofNat (leNat ((bytes.drop (16 + field * 4)).take 4))) with
    | some raw => .ok raw
    | none => .error fragmentPayloadError
  let fragment : Fragment := { key, provenance, kind, eventId, total, index, count, chunkIndex, generation
                               fixed := rawFields.dropLast
                               detail := rawFields.getLastD [] }
  failIf fragment.malformed fragmentPayloadError
  return fragment

/-- Some record of the artifact decodes to the fragment. -/
def IsDecoded (f : Fragment) : Prop :=
  ∃ bytes strings, decode f.kind bytes strings f.key f.provenance f.chunkIndex f.generation = .ok f

/-- What the fragments of one event have in common. -/
structure GroupKey where
  tid : UInt32
  eventId : UInt64
  kind : UInt16
  deriving DecidableEq

def groupKey (f : Fragment) : GroupKey := ⟨f.key.tid.getD 0, f.eventId, f.kind⟩

end Fragment

open Fragment (GroupKey)

structure ChunkIdentity where
  tid : UInt32
  generation : UInt32
  state : UInt32
  deriving DecidableEq

def contributorMatches (item : Fragment) (tid : UInt32) (superblock : Superblock)
    (chunks : List (Option ChunkIdentity)) : Bool :=
  match chunks[item.chunkIndex.toNat]? with
  | some (some identity) =>
    let chunkStart := superblock.chunks.offset + item.chunkIndex.toNat * superblock.chunkBytes
    if uint64Max < chunkStart || uint64Max < chunkStart + chunkHeaderBytes ||
        uint64Max < chunkStart + superblock.chunkBytes then false
    else
      identity.tid = tid && identity.generation = item.generation && item.key.tid = some tid &&
        chunkStart + chunkHeaderBytes ≤ item.key.sourceOffset.toNat &&
        item.key.sourceOffset.toNat < chunkStart + superblock.chunkBytes
  | _ => false

/-- What `finish` pushed to its outputs. -/
structure Finished where
  events : List EventRecord
  damaged : List UInt64
  damagedOffsets : List UInt64
  deriving DecidableEq

def Finished.append (done more : Finished) : Finished :=
  ⟨done.events ++ more.events, done.damaged ++ more.damaged, done.damagedOffsets ++ more.damagedOffsets⟩

theorem Finished.append_assoc (a b c : Finished) : (a.append b).append c = a.append (b.append c) := by
  simp [Finished.append]

/-- `mark_damaged`. A fragment without a number leaves its place only. -/
def markDamaged (evidence : List Fragment) : Finished :=
  ⟨[], evidence.filterMap (·.key.sequence), evidence.map (·.key.sourceOffset)⟩

/-- The loop over the sequence numbers. -/
def increasing : Option UInt64 → List Fragment → Bool
  | _, [] => true
  | previous, item :: rest =>
    let current := item.key.sequence.getD 0
    !previous.any (current ≤ ·) && increasing (some current) rest

/-- The loop that joins the details; it stops where they exceed the total. -/
def joinDetail (total : ℕ) : List UInt8 → List Fragment → Option (List UInt8)
  | detail, [] => some detail
  | detail, item :: rest =>
    if total < detail.length + item.detail.length then none else joinDetail total (detail ++ item.detail) rest

/-- A text of the event, if it is one. -/
def textOf (raw : List UInt8) : Option Text := if h : utf8Valid raw = true then some ⟨raw, h⟩ else none

/-- The first offset among the fragments and the ordinal that comes with it. -/
def firstPlace (first : UInt64 × UInt64) (values : List Fragment) : UInt64 × UInt64 :=
  values.foldl (fun place item =>
    if item.key.sourceOffset < place.2 then (item.key.recordOrdinal, item.key.sourceOffset) else place) first

/-- The largest number among the fragments. -/
def lastSequence (values : List Fragment) : UInt64 :=
  values.foldl (fun sequence item => item.key.sequence.elim sequence (max sequence)) 0

/-- `guarded_sort_u64`: sorted, and every value once. -/
def sortOffsets (values : List UInt64) : List UInt64 :=
  (RadixSort.radixSort (fun pass (value : UInt64) => value.toNat / 256 ^ pass % 256) 8 values).destutter (· ≠ ·)

def semanticPayload (kind : UInt16) (semantic : SemanticEvent) : EventPayload :=
  match kind with
  | 6 => .semanticCall semantic
  | 7 => .semanticRule semantic
  | _ => .semanticError semantic

/-- The category and the name among the fixed fields. -/
def semanticFields (kind : UInt16) (fixed : List Text) : Except ProviderError (Option Text × Text) :=
  if kind = 6 then
    match fixed with
    | category :: name :: _ => .ok (some category, name)
    | _ => .error fragmentAllocationError
  else
    match fixed with
    | name :: _ => .ok (none, name)
    | [] => .error fragmentAllocationError

/-- The event of a group whose texts are good. -/
def semanticEvent (artifact : List UInt8) (key : GroupKey) (first : Fragment) (values : List Fragment)
    (fixed : List Text) (detail : Text) : Except ProviderError (Option EventRecord) := do
  let (category, name) ← semanticFields key.kind fixed
  let place := firstPlace (first.key.recordOrdinal, first.key.sourceOffset) values
  return EventRecord.withFragmentSourceOffsets
    ⟨artifact, 0, place.1, place.2, some (lastSequence values), some key.tid⟩
    (if values.all (·.provenance = .captured) then .captured else .derived)
    (semanticPayload key.kind ⟨category, name, detail, values.filterMap (·.key.sequence)⟩)
    ((sortOffsets (values.map (·.key.sourceOffset))).map UInt64.toNat)

/-- The texts of a complete table, or nothing if one of them is none. -/
def groupTexts (first : Fragment) (values : List Fragment) : Option (List Text × Text) := do
  let fixed ← first.fixed.mapM textOf
  let detail ← joinDetail first.total.toNat [] values
  if detail.length ≠ first.total.toNat then none
  else do
    let detail ← textOf detail
    return (fixed, detail)

/-- What `finish` compares a fragment with. -/
def agrees (superblock : Superblock) (chunks : List (Option ChunkIdentity)) (tid : UInt32) (first item : Fragment) :
    Bool :=
  item.total = first.total && item.count = first.count && item.fixed = first.fixed &&
    contributorMatches item tid superblock chunks

/-- The table of a group and whether it was spoilt. -/
def groupTable (superblock : Superblock) (chunks : List (Option ChunkIdentity)) (tid : UInt32) (first : Fragment)
    (values : List Fragment) : List (Option Fragment) × Bool :=
  SlotTable.placeAll (·.index.toNat) (agrees superblock chunks tid first) first.count.toNat values

/-- The fragments are as many as announced, fill the table and come in order. -/
def stableGroup (values : List Fragment) (count : ℕ) (table : List (Option Fragment) × Bool) : Bool :=
  values.length = count && table.2 && table.1.all Option.isSome && increasing none table.1.reduceOption

/-- One round of the loop over the groups. -/
def finishGroup (artifact : List UInt8) (superblock : Superblock) (chunks : List (Option ChunkIdentity))
    (key : GroupKey) (values : List Fragment) : Except ProviderError Finished :=
  match values with
  | [] => .ok ⟨[], [], []⟩
  | first :: _ =>
    let table := groupTable superblock chunks key.tid first values
    if !stableGroup values first.count.toNat table then .ok (markDamaged values)
    else
      match table.1.reduceOption with
      | [] => .ok (markDamaged values)
      | first :: rest =>
        match groupTexts first (first :: rest) with
        | none => .ok (markDamaged values)
        | some (fixed, detail) => do
          let event ← semanticEvent artifact key first (first :: rest) fixed detail
          -- an event that its constructor refused would be lost
          return ⟨event.toList, [], []⟩

/-- The fragments of a group, in the order in which they came. -/
def groupOf (fragments : List Fragment) (key : GroupKey) : List Fragment := fragments.filter (·.groupKey = key)

/-- `finish`, for the order in which the hash map yields its groups. -/
def finish (artifact : List UInt8) (superblock : Superblock) (chunks : List (Option ChunkIdentity))
    (fragments : List Fragment) (order : List GroupKey) : Except ProviderError Finished :=
  order.foldlM (fun done key => do
    let more ← finishGroup artifact superblock chunks key (groupOf fragments key)
    return done.append more) ⟨[], [], []⟩

theorem byte_lt (pass : ℕ) (value : UInt64) : value.toNat / 256 ^ pass % 256 < 256 := Nat.mod_lt _ (by decide)

theorem mem_sortOffsets {values : List UInt64} {x : UInt64} : x ∈ sortOffsets values ↔ x ∈ values := by
  rw [sortOffsets, RadixSort.mem_destutter_ne, (RadixSort.radixSort_perm byte_lt 8 values).mem_iff]

theorem length_sortOffsets_le (values : List UInt64) : (sortOffsets values).length ≤ values.length := by
  have hsub := (List.destutter_sublist (· ≠ ·) (RadixSort.radixSort
    (fun pass (value : UInt64) => value.toNat / 256 ^ pass % 256) 8 values)).length_le
  rwa [(RadixSort.radixSort_perm byte_lt 8 values).length_eq] at hsub

/-- No offset twice: this is why the constructor never refuses. -/
theorem sortOffsets_pairwise (values : List UInt64) : ((sortOffsets values).map UInt64.toNat).Pairwise (· < ·) := by
  rw [List.pairwise_map]
  refine RadixSort.destutter_pairwise (fun a b h => UInt64.toNat_inj.1 h) ?_
  refine (RadixSort.radixSort_pairwise byte_lt 8 values).imp ?_
  intro a b h
  have hvalue : ∀ x : UInt64, RadixSort.keyValue 256 (fun pass x => x.toNat / 256 ^ pass % 256) 8 x = x.toNat :=
    fun x => RadixSort.keyValue_eq x.toNat_lt fun _ _ => rfl
  rwa [hvalue, hvalue] at h

theorem firstPlace_spec (values : List Fragment) (first : UInt64 × UInt64) :
    ((firstPlace first values).2 = first.2 ∨ ∃ f ∈ values, (firstPlace first values).2 = f.key.sourceOffset) ∧
      (firstPlace first values).2.toNat ≤ first.2.toNat ∧
      ∀ f ∈ values, (firstPlace first values).2.toNat ≤ f.key.sourceOffset.toNat := by
  induction values generalizing first with
  | nil => exact ⟨Or.inl rfl, le_refl _, by simp⟩
  | cons item values ih =>
    rw [firstPlace, List.foldl_cons, ← firstPlace, List.forall_mem_cons]
    split_ifs with hlt
    · obtain ⟨hmem, hle, hall⟩ := ih (item.key.recordOrdinal, item.key.sourceOffset)
      rw [UInt64.lt_iff_toNat_lt] at hlt
      dsimp only at hle hmem
      refine ⟨Or.inr ?_, by omega, hle, hall⟩
      obtain hitem | ⟨f, hf, hplace⟩ := hmem
      · exact ⟨item, List.mem_cons_self, hitem⟩
      · exact ⟨f, List.mem_cons_of_mem _ hf, hplace⟩
    · obtain ⟨hmem, hle, hall⟩ := ih first
      rw [UInt64.lt_iff_toNat_lt] at hlt
      refine ⟨?_, hle, by omega, hall⟩
      obtain hfirst | ⟨f, hf, hplace⟩ := hmem
      · exact Or.inl hfirst
      · exact Or.inr ⟨f, List.mem_cons_of_mem _ hf, hplace⟩

theorem withFragmentSourceOffsets_eq_some {key : EventKey} {offsets : List ℕ}
    (hbounded : offsets.length ≤ maxFragmentSourceOffsets) (hincreasing : offsets.IsChain (· < ·))
    (hhead : ∀ offset ∈ offsets.head?, offset = key.sourceOffset.toNat) (provenance : Provenance)
    (payload : EventPayload) :
    EventRecord.withFragmentSourceOffsets key provenance payload offsets =
      some ⟨key, provenance, payload, .artifact, ⟨offsets, hbounded, hincreasing⟩⟩ := by
  unfold EventRecord.withFragmentSourceOffsets FragmentSourceOffsets.new
  rw [dif_pos ⟨hbounded, hincreasing⟩]
  dsimp only
  rw [if_neg]
  rw [Option.any_eq_true]
  rintro ⟨offset, hoffset, hne⟩
  exact of_decide_eq_true hne (hhead offset hoffset)

theorem head_sortOffsets {first : Fragment} {rest : List Fragment} {offset : ℕ}
    (h : offset ∈ ((sortOffsets ((first :: rest).map (·.key.sourceOffset))).map UInt64.toNat).head?) :
    offset = (firstPlace (first.key.recordOrdinal, first.key.sourceOffset) (first :: rest)).2.toNat := by
  obtain ⟨hplace, -, hleast⟩ := firstPlace_spec (first :: rest) (first.key.recordOrdinal, first.key.sourceOffset)
  obtain ⟨f, hf, hplace⟩ : ∃ f ∈ first :: rest,
      (firstPlace (first.key.recordOrdinal, first.key.sourceOffset) (first :: rest)).2 = f.key.sourceOffset := by
    obtain hplace | hplace := hplace
    · exact ⟨first, List.mem_cons_self, hplace⟩
    · exact hplace
  have hpairwise := sortOffsets_pairwise ((first :: rest).map (·.key.sourceOffset))
  have hmem : ∀ x, x ∈ sortOffsets ((first :: rest).map (·.key.sourceOffset)) ↔
      ∃ f ∈ first :: rest, f.key.sourceOffset = x := fun x => by rw [mem_sortOffsets, List.mem_map]
  cases hsorted : sortOffsets ((first :: rest).map (·.key.sourceOffset)) with
  | nil =>
    rw [hsorted] at hmem
    exact absurd ((hmem _).2 ⟨f, hf, rfl⟩) List.not_mem_nil
  | cons head tail =>
    rw [hsorted] at hmem hpairwise h
    rw [List.map_cons, List.head?_cons, Option.mem_some_iff] at h
    obtain ⟨g, hg, hhead⟩ := (hmem head).1 List.mem_cons_self
    have hle := hleast g hg
    rw [hhead, h] at hle
    rw [hplace] at hle ⊢
    -- the place is one of the offsets, and the head is before all others
    rcases List.mem_cons.1 ((hmem _).2 ⟨f, hf, rfl⟩) with heq | htail
    · rw [heq, h]
    · rw [List.map_cons, List.pairwise_cons] at hpairwise
      have := hpairwise.1 _ (List.mem_map_of_mem htail)
      omega

theorem textOf_eq_some {raw : List UInt8} {text : Text} : textOf raw = some text ↔ text.bytes = raw := by
  unfold textOf
  split_ifs with h
  · rw [Option.some.injEq]
    constructor
    · rintro rfl
      rfl
    · rintro rfl
      rfl
  · refine ⟨by simp, ?_⟩
    rintro rfl
    exact absurd text.valid h

variable {raws : List (List UInt8)}

theorem mapM_textOf_eq_some {texts : List Text} : raws.mapM textOf = some texts ↔ texts.map Text.bytes = raws := by
  induction raws generalizing texts with
  | nil =>
    rw [List.mapM_nil, Option.pure_def, Option.some.injEq, List.map_eq_nil_iff]
    exact eq_comm
  | cons raw raws ih =>
    simp only [List.mapM_cons, Option.bind_eq_bind, Option.bind_eq_some_iff, textOf_eq_some, ih, Option.pure_def,
      Option.some.injEq]
    constructor
    · rintro ⟨text, rfl, rest, rfl, rfl⟩
      rfl
    · intro h
      obtain ⟨text, rest, rfl, hbytes, hrest⟩ := List.map_eq_cons_iff.1 h
      exact ⟨text, hbytes, rest, hrest, rfl⟩

variable {values : List Fragment}

theorem joinDetail_eq_some {total : ℕ} {detail joined : List UInt8}
    (h : joinDetail total detail values = some joined) : joined = detail ++ values.flatMap (·.detail) := by
  induction values generalizing detail with
  | nil => simpa [joinDetail, eq_comm] using h
  | cons item values ih =>
    rw [joinDetail] at h
    split_ifs at h
    rw [ih h, List.flatMap_cons, List.append_assoc]

theorem joinDetail_of_le {total : ℕ} {detail : List UInt8}
    (h : (detail ++ values.flatMap (·.detail)).length ≤ total) :
    joinDetail total detail values = some (detail ++ values.flatMap (·.detail)) := by
  induction values generalizing detail with
  | nil => simp [joinDetail]
  | cons item values ih =>
    rw [List.flatMap_cons, ← List.append_assoc] at h ⊢
    rw [joinDetail, if_neg, ih h]
    rw [List.length_append, List.length_append] at h
    omega

variable {texts : List Text × Text}

/-- The texts of a table are good if and only if its fixed fields are, its details are as
long as announced, and they join to a text. -/
theorem groupTexts_eq_some {first : Fragment} :
    groupTexts first values = some texts ↔ texts.1.map Text.bytes = first.fixed ∧
      (values.flatMap (·.detail)).length = first.total.toNat ∧ texts.2.bytes = values.flatMap (·.detail) := by
  obtain ⟨fixed, detail⟩ := texts
  unfold groupTexts
  simp only [Option.bind_eq_bind, Option.bind_eq_some_iff, mapM_textOf_eq_some]
  constructor
  · rintro ⟨fixed', hfixed, joined, hjoined, h⟩
    have hjoined := joinDetail_eq_some hjoined
    rw [List.nil_append] at hjoined
    split_ifs at h with hlength
    simp only [Option.bind_eq_some_iff, textOf_eq_some, Option.pure_def, Option.some.injEq, Prod.mk.injEq] at h
    obtain ⟨detail', hdetail, rfl, rfl⟩ := h
    rw [hjoined] at hlength hdetail
    exact ⟨hfixed, not_not.1 hlength, hdetail⟩
  · rintro ⟨hfixed, hlength, hdetail⟩
    refine ⟨fixed, hfixed, values.flatMap (·.detail), joinDetail_of_le (by simp [hlength]), ?_⟩
    rw [if_neg (not_not.2 hlength)]
    simp only [Option.bind_eq_some_iff, textOf_eq_some, Option.pure_def, Option.some.injEq, Prod.mk.injEq]
    exact ⟨detail, hdetail, trivial, rfl⟩

/-- The number a fragment is ordered by. -/
def Fragment.number (f : Fragment) : ℕ := (f.key.sequence.getD 0).toNat

theorem increasing_some (previous : UInt64) (values : List Fragment) :
    increasing (some previous) values = true ↔ (previous.toNat :: values.map Fragment.number).IsChain (· < ·) := by
  induction values generalizing previous with
  | nil => simp [increasing]
  | cons item values ih =>
    rw [increasing, Bool.and_eq_true, ih, List.map_cons, List.isChain_cons_cons]
    simp only [Option.any_some, Bool.not_eq_true', decide_eq_false_iff_not, UInt64.le_iff_toNat_le, Nat.not_le,
      Fragment.number]

theorem increasing_none (values : List Fragment) :
    increasing none values = true ↔ values.Pairwise fun f f' => f.number < f'.number := by
  rw [← List.pairwise_map (f := Fragment.number) (R := (· < ·)), ← List.isChain_iff_pairwise]
  cases values with
  | nil => simp [increasing]
  | cons item values => simp [increasing, increasing_some, Fragment.number]

/-- The fragment lies behind the header of its chunk, and the chunk is its thread's. -/
structure InChunk (superblock : Superblock) (chunks : List (Option ChunkIdentity)) (tid : UInt32) (f : Fragment) :
    Prop where
  identity : ∃ identity, chunks[f.chunkIndex.toNat]? = some (some identity) ∧ identity.tid = tid ∧
    identity.generation = f.generation
  tid : f.key.tid = some tid
  behind : superblock.chunks.offset + f.chunkIndex.toNat * superblock.chunkBytes + chunkHeaderBytes ≤
    f.key.sourceOffset.toNat
  before : f.key.sourceOffset.toNat <
    superblock.chunks.offset + f.chunkIndex.toNat * superblock.chunkBytes + superblock.chunkBytes
  bounded : superblock.chunks.offset + f.chunkIndex.toNat * superblock.chunkBytes + superblock.chunkBytes ≤ uint64Max

variable {f : Fragment}

theorem contributorMatches_iff {tid : UInt32} {superblock : Superblock} {chunks : List (Option ChunkIdentity)} :
    contributorMatches f tid superblock chunks = true ↔ InChunk superblock chunks tid f := by
  have hoffset := toNat_le_uint64Max f.key.sourceOffset
  unfold contributorMatches
  constructor
  · intro h
    split at h
    case h_1 identity hidentity =>
      dsimp only at h
      split_ifs at h with hwide
      simp only [Bool.or_eq_true, decide_eq_true_eq, not_or, not_lt, Bool.and_eq_true] at h hwide
      exact ⟨⟨identity, hidentity, h.1.1.1.1, h.1.1.1.2⟩, h.1.1.2, h.1.2, h.2, hwide.2⟩
    case h_2 => cases h
  · rintro ⟨⟨identity, hidentity, hown, hgeneration⟩, htid, hbehind, hbefore, hbounded⟩
    rw [hidentity]
    dsimp only
    rw [if_neg (by simp only [Bool.or_eq_true, decide_eq_true_eq]; omega)]
    simp [hown, hgeneration, htid, hbehind, hbefore]

/-- `ordered` are the fragments of a whole event in the order of their indices. -/
structure Complete (superblock : Superblock) (chunks : List (Option ChunkIdentity)) (tid : UInt32)
    (group ordered : List Fragment) : Prop where
  perm : ordered.Perm group
  total : ∀ f ∈ group, f.total.toNat = (ordered.flatMap (·.detail)).length
  count : ∀ f ∈ group, f.count.toNat = group.length
  fixed : ∀ f ∈ group, ∀ f' ∈ group, f.fixed = f'.fixed
  contributors : ∀ f ∈ group, InChunk superblock chunks tid f
  indices : ordered.map (·.index.toNat) = List.range group.length
  numbers : ordered.Pairwise fun f f' => f.number < f'.number
  fixedTexts : ∀ f ∈ group, ∀ raw ∈ f.fixed, utf8Valid raw = true
  text : utf8Valid (ordered.flatMap (·.detail)) = true

section Group

variable {superblock : Superblock} {chunks : List (Option ChunkIdentity)} {tid : UInt32} {first : Fragment}
  {rest : List Fragment}

theorem agrees_iff {item : Fragment} : agrees superblock chunks tid first item = true ↔
    item.total = first.total ∧ item.count = first.count ∧ item.fixed = first.fixed ∧
      InChunk superblock chunks tid item := by
  simp only [agrees, Bool.and_eq_true, decide_eq_true_eq, contributorMatches_iff, and_assoc]

theorem stableGroup_iff : stableGroup (first :: rest) first.count.toNat
      (groupTable superblock chunks tid first (first :: rest)) = true ↔
    (first :: rest).length = first.count.toNat ∧
      (∀ item ∈ first :: rest, agrees superblock chunks tid first item = true) ∧
      ((first :: rest).map (·.index.toNat)).Perm (List.range first.count.toNat) ∧
      (groupTable superblock chunks tid first (first :: rest)).1.reduceOption.Pairwise
        fun f f' => f.number < f'.number := by
  have hwhole := SlotTable.placeAll_whole_iff (fun f : Fragment => f.index.toNat)
    (agrees superblock chunks tid first) first.count.toNat (first :: rest)
  rw [← groupTable] at hwhole
  simp only [stableGroup, Bool.and_eq_true, decide_eq_true_eq, increasing_none]
  rw [← and_assoc (a := ∀ item ∈ first :: rest, _), ← hwhole]
  simp only [and_assoc]

theorem groupTable_ordered (hagree : ∀ item ∈ first :: rest, agrees superblock chunks tid first item = true)
    (hindices : ((first :: rest).map (·.index.toNat)).Perm (List.range first.count.toNat)) :
    (groupTable superblock chunks tid first (first :: rest)).1.reduceOption.Perm (first :: rest) ∧
      (groupTable superblock chunks tid first (first :: rest)).1.reduceOption.map (·.index.toNat) =
        List.range first.count.toNat := by
  obtain ⟨hok, hfull⟩ := (SlotTable.placeAll_whole_iff (fun f : Fragment => f.index.toNat)
    (agrees superblock chunks tid first) first.count.toNat (first :: rest)).2 ⟨hagree, hindices⟩
  exact SlotTable.placeAll_ordered hok hfull

/-- What passes the checks of the table and has good texts is complete. -/
theorem complete_of_stable
    (hstable : stableGroup (first :: rest) first.count.toNat
      (groupTable superblock chunks tid first (first :: rest)) = true)
    {head : Fragment} {tail : List Fragment}
    (hordered : (groupTable superblock chunks tid first (first :: rest)).1.reduceOption = head :: tail)
    (htexts : groupTexts head (head :: tail) = some texts) :
    Complete superblock chunks tid (first :: rest) (head :: tail) := by
  obtain ⟨hlength, hagree, hindices, hnumbers⟩ := stableGroup_iff.1 hstable
  obtain ⟨hperm, hmap⟩ := groupTable_ordered hagree hindices
  rw [hordered] at hperm hmap hnumbers
  obtain ⟨hfixed, htotal, hdetail⟩ := groupTexts_eq_some.1 htexts
  simp only [agrees_iff] at hagree
  have hhead := hagree head (hperm.mem_iff.1 List.mem_cons_self)
  refine ⟨hperm, fun f hf => ?_, fun f hf => ?_, fun f hf f' hf' => ?_, fun f hf => (hagree f hf).2.2.2,
    hlength ▸ hmap, hnumbers, fun f hf raw hraw => ?_, ?_⟩
  · rw [(hagree f hf).1, ← hhead.1, htotal]
  · rw [(hagree f hf).2.1, hlength]
  · rw [(hagree f hf).2.2.1, (hagree f' hf').2.2.1]
  · rw [(hagree f hf).2.2.1, ← hhead.2.2.1, ← hfixed] at hraw
    obtain ⟨text, -, rfl⟩ := List.mem_map.1 hraw
    exact text.valid
  · rw [← hdetail]
    exact texts.2.valid

/-- A complete group passes the checks, and the table lists it in the order of its indices. -/
theorem Complete.stable {ordered : List Fragment} (h : Complete superblock chunks tid (first :: rest) ordered) :
    stableGroup (first :: rest) first.count.toNat (groupTable superblock chunks tid first (first :: rest)) = true ∧
      (groupTable superblock chunks tid first (first :: rest)).1.reduceOption = ordered := by
  have hcount := h.count first List.mem_cons_self
  have hagree : ∀ item ∈ first :: rest, agrees superblock chunks tid first item = true := by
    intro item hitem
    refine agrees_iff.2 ⟨UInt32.toNat_inj.1 ?_, UInt16.toNat_inj.1 ?_, h.fixed item hitem first List.mem_cons_self,
      h.contributors item hitem⟩
    · rw [h.total item hitem, h.total first List.mem_cons_self]
    · rw [h.count item hitem, hcount]
  have hindices : ((first :: rest).map (·.index.toNat)).Perm (List.range first.count.toNat) := by
    rw [hcount, ← h.indices]
    exact (h.perm.map _).symm
  obtain ⟨hperm, hmap⟩ := groupTable_ordered hagree hindices
  have hordered := SlotTable.ordered_unique hperm h.perm hmap (hcount ▸ h.indices)
  refine ⟨stableGroup_iff.2 ⟨hcount.symm, hagree, hindices, ?_⟩, hordered⟩
  rw [hordered]
  exact h.numbers

end Group

theorem Fragment.IsDecoded.length_fixed (h : f.IsDecoded) : f.fixed.length + 1 = fieldCount f.kind := by
  obtain ⟨bytes, strings, h⟩ := h
  unfold decode at h
  obtain ⟨-, -, h⟩ := bind_eq_ok.1 h
  obtain ⟨-, -, h⟩ := bind_eq_ok.1 h
  obtain ⟨rawFields, hraw, h⟩ := bind_eq_ok.1 h
  obtain ⟨-, -, h⟩ := bind_eq_ok.1 h
  have hlength := (mapM_eq_ok.1 hraw).length_eq
  rw [List.length_range] at hlength
  have hfixed := congrArg Fragment.fixed (pure_eq_ok.1 h)
  dsimp only at hfixed
  have hfields : 0 < fieldCount f.kind := by
    unfold fieldCount
    split_ifs <;> decide
  rw [← hfixed, List.length_dropLast]
  omega

/-- What is known of the event that a complete group becomes. -/
structure EventOf (artifact : List UInt8) (key : GroupKey) (ordered : List Fragment) (event : EventRecord) : Prop where
  payload : ∃ category name detail,
    event.payload = semanticPayload key.kind ⟨category, name, detail, ordered.filterMap (·.key.sequence)⟩ ∧
      detail.bytes = ordered.flatMap (·.detail) ∧
      ∀ f ∈ ordered, (category.toList ++ [name]).map Text.bytes = f.fixed
  artifact : event.key.artifact = artifact
  tid : event.key.tid = some key.tid
  offsets : ∀ offset, offset ∈ event.fragmentSourceOffsets.offsets ↔
    ∃ f ∈ ordered, f.key.sourceOffset.toNat = offset

theorem exists_semanticFields {kind : UInt16} {fixed : List Text} (h : fixed.length + 1 = fieldCount kind) :
    ∃ category name, semanticFields kind fixed = .ok (category, name) ∧ category.toList ++ [name] = fixed := by
  unfold fieldCount at h
  unfold semanticFields
  split_ifs at h ⊢ with hcall
  · match fixed, h with
    | [category, name], _ => exact ⟨some category, name, rfl, rfl⟩
  · match fixed, h with
    | [name], _ => exact ⟨none, name, rfl, rfl⟩

theorem exists_texts (h : ∀ raw ∈ raws, utf8Valid raw = true) :
    ∃ texts : List Text, texts.map Text.bytes = raws := by
  refine ⟨raws.pmap Text.mk h, ?_⟩
  rw [List.map_pmap]
  exact (List.pmap_eq_map (f := id) h).trans (List.map_id _)

section Finish

variable {superblock : Superblock} {chunks : List (Option ChunkIdentity)} {artifact : List UInt8} {key : GroupKey}
  {group : List Fragment}

/-- The event of a complete table is never refused. -/
theorem semanticEvent_spec (artifact : List UInt8) (key : GroupKey) {first : Fragment} {rest : List Fragment}
    {fixed : List Text} (detail : Text)
    (hlength : (first :: rest).length ≤ maxFragmentSourceOffsets) (hfixed : fixed.length + 1 = fieldCount key.kind) :
    ∃ event, semanticEvent artifact key first (first :: rest) fixed detail = .ok (some event) ∧
      (∃ category name, event.payload =
          semanticPayload key.kind ⟨category, name, detail, (first :: rest).filterMap (·.key.sequence)⟩ ∧
        category.toList ++ [name] = fixed) ∧
      event.key.artifact = artifact ∧ event.key.tid = some key.tid ∧
      event.fragmentSourceOffsets.offsets =
        (sortOffsets ((first :: rest).map (·.key.sourceOffset))).map UInt64.toNat := by
  obtain ⟨category, name, hfields, hnames⟩ := exists_semanticFields hfixed
  have hbounded : ((sortOffsets ((first :: rest).map (·.key.sourceOffset))).map UInt64.toNat).length ≤
      maxFragmentSourceOffsets := by
    rw [List.length_map]
    exact (length_sortOffsets_le _).trans (by rwa [List.length_map])
  unfold semanticEvent
  rw [bind_of_ok hfields]
  dsimp only
  rw [withFragmentSourceOffsets_eq_some hbounded (sortOffsets_pairwise _).isChain fun offset h => head_sortOffsets h]
  exact ⟨_, rfl, ⟨category, name, rfl, hnames⟩, rfl, rfl, rfl⟩

theorem finishGroup_of_complete {ordered : List Fragment} (hne : group ≠ [])
    (hcomplete : Complete superblock chunks key.tid group ordered)
    (hlength : ∀ f ∈ group, f.fixed.length + 1 = fieldCount key.kind) :
    ∃ event, finishGroup artifact superblock chunks key group = .ok ⟨[event], [], []⟩ ∧
      EventOf artifact key ordered event := by
  obtain ⟨first, rest, rfl⟩ := List.exists_cons_of_ne_nil hne
  obtain ⟨hstable, htable⟩ := hcomplete.stable
  cases ordered with
  | nil => exact absurd hcomplete.perm.symm.eq_nil (List.cons_ne_nil _ _)
  | cons head tail =>
    have hhead : head ∈ first :: rest := hcomplete.perm.mem_iff.1 List.mem_cons_self
    obtain ⟨fixed, hfixed⟩ := exists_texts (hcomplete.fixedTexts head hhead)
    have htexts : groupTexts head (head :: tail) = some (fixed, ⟨_, hcomplete.text⟩) :=
      groupTexts_eq_some.2 ⟨hfixed, (hcomplete.total head hhead).symm, rfl⟩
    have hbounded : (head :: tail).length ≤ maxFragmentSourceOffsets := by
      rw [hcomplete.perm.length_eq, ← hcomplete.count first List.mem_cons_self]
      exact Nat.le_of_lt_succ first.count.toNat_lt
    obtain ⟨event, hevent, ⟨category, name, hpayload, hnames⟩, hartifact, htid, hoffsets⟩ :=
      semanticEvent_spec artifact key ⟨_, hcomplete.text⟩ hbounded
        (show fixed.length + 1 = _ by rw [← hlength head hhead, ← hfixed, List.length_map])
    refine ⟨event, ?_, ⟨category, name, ⟨_, hcomplete.text⟩, hpayload, rfl, fun f hf => ?_⟩, hartifact, htid,
      fun offset => ?_⟩
    · unfold finishGroup
      dsimp only
      rw [if_neg (by rw [hstable]; decide), htable]
      dsimp only
      rw [htexts]
      exact bind_of_ok hevent _
    · rw [hnames, hfixed, hcomplete.fixed f (hcomplete.perm.mem_iff.1 hf) head hhead]
    · rw [hoffsets]
      simp only [List.mem_map, mem_sortOffsets, exists_exists_and_eq_and]

theorem finishGroup_of_incomplete (hne : group ≠ [])
    (hincomplete : ¬ ∃ ordered, Complete superblock chunks key.tid group ordered) :
    finishGroup artifact superblock chunks key group = .ok (markDamaged group) := by
  obtain ⟨first, rest, rfl⟩ := List.exists_cons_of_ne_nil hne
  unfold finishGroup
  dsimp only
  split_ifs with hstable
  · rfl
  · simp only [Bool.not_eq_true', Bool.not_eq_false] at hstable
    split
    · rfl
    case h_2 head tail hordered =>
      cases htexts : groupTexts head (head :: tail) with
      | none => rfl
      | some texts => exact absurd ⟨_, complete_of_stable hstable hordered htexts⟩ hincomplete

end Finish

/-- An order in which a hash map may yield the groups: each of them once. -/
structure Visits (fragments : List Fragment) (order : List GroupKey) : Prop where
  nodup : order.Nodup
  mem_iff : ∀ key, key ∈ order ↔ ∃ f ∈ fragments, f.groupKey = key

/-- The fragments of the group make a whole event. -/
def IsComplete (superblock : Superblock) (chunks : List (Option ChunkIdentity)) (fragments : List Fragment)
    (key : GroupKey) : Prop :=
  ∃ ordered, Complete superblock chunks key.tid (groupOf fragments key) ordered

open Classical in
/-- One event for every complete group, damage for the others, and no fragment in both or in none. -/
structure Reassembled (artifact : List UInt8) (superblock : Superblock) (chunks : List (Option ChunkIdentity))
    (fragments : List Fragment) (order : List GroupKey) (done : Finished) : Prop where
  emitted : List.Forall₂ (fun key event => ∃ ordered,
      Complete superblock chunks key.tid (groupOf fragments key) ordered ∧ EventOf artifact key ordered event)
    (order.filter (IsComplete superblock chunks fragments)) done.events
  damaged : done.damaged = (order.filter (¬ IsComplete superblock chunks fragments ·)).flatMap fun key =>
    (groupOf fragments key).filterMap (·.key.sequence)
  damagedOffsets : done.damagedOffsets = (order.filter (¬ IsComplete superblock chunks fragments ·)).flatMap fun key =>
    (groupOf fragments key).map (·.key.sourceOffset)

theorem Reassembled.append {artifact : List UInt8} {superblock : Superblock} {chunks : List (Option ChunkIdentity)}
    {fragments : List Fragment} {order order' : List GroupKey} {done more : Finished}
    (h : Reassembled artifact superblock chunks fragments order done)
    (h' : Reassembled artifact superblock chunks fragments order' more) :
    Reassembled artifact superblock chunks fragments (order ++ order') (done.append more) :=
  ⟨by rw [List.filter_append]; exact List.rel_append h.emitted h'.emitted,
    by simp [Finished.append, h.damaged, h'.damaged],
    by simp [Finished.append, h.damagedOffsets, h'.damagedOffsets]⟩

section Finish

variable (artifact : List UInt8) (superblock : Superblock) (chunks : List (Option ChunkIdentity))
  {fragments : List Fragment}

theorem finishGroup_outcome (hdecoded : ∀ f ∈ fragments, f.IsDecoded) {key : GroupKey}
    (hkey : ∃ f ∈ fragments, f.groupKey = key) :
    (IsComplete superblock chunks fragments key ∧ ∃ event,
      finishGroup artifact superblock chunks key (groupOf fragments key) = .ok ⟨[event], [], []⟩ ∧
        ∃ ordered, Complete superblock chunks key.tid (groupOf fragments key) ordered ∧
          EventOf artifact key ordered event) ∨
    (¬ IsComplete superblock chunks fragments key ∧
      finishGroup artifact superblock chunks key (groupOf fragments key) =
        .ok (markDamaged (groupOf fragments key))) := by
  have hmem : ∀ f ∈ groupOf fragments key, f ∈ fragments ∧ f.groupKey = key := fun f hf => by
    simpa [groupOf] using hf
  have hne : groupOf fragments key ≠ [] := by
    obtain ⟨f, hf, hgroup⟩ := hkey
    exact List.ne_nil_of_mem (a := f) (by simp [groupOf, hf, hgroup])
  by_cases hcomplete : IsComplete superblock chunks fragments key
  · obtain ⟨ordered, hordered⟩ := id hcomplete
    have hlength : ∀ f ∈ groupOf fragments key, f.fixed.length + 1 = fieldCount key.kind := by
      intro f hf
      obtain ⟨hf, hgroup⟩ := hmem f hf
      rw [← hgroup]
      exact (hdecoded f hf).length_fixed
    obtain ⟨event, hfinish, hevent⟩ := finishGroup_of_complete hne hordered hlength
    exact Or.inl ⟨hcomplete, event, hfinish, ordered, hordered, hevent⟩
  · exact Or.inr ⟨hcomplete, finishGroup_of_incomplete hne hcomplete⟩

open Classical in
theorem finish_loop (hdecoded : ∀ f ∈ fragments, f.IsDecoded) {order : List GroupKey}
    (horder : ∀ key ∈ order, ∃ f ∈ fragments, f.groupKey = key) (start : Finished) :
    ∃ done, Reassembled artifact superblock chunks fragments order done ∧
      order.foldlM (fun done key => do
        let more ← finishGroup artifact superblock chunks key (groupOf fragments key)
        return done.append more) start = .ok (start.append done) := by
  induction order generalizing start with
  | nil => exact ⟨⟨[], [], []⟩, ⟨List.Forall₂.nil, rfl, rfl⟩, by simp [Finished.append, pure, Except.pure]⟩
  | cons key order ih =>
    rw [List.forall_mem_cons] at horder
    obtain ⟨more, hfinish, hmore⟩ : ∃ more, finishGroup artifact superblock chunks key (groupOf fragments key) = .ok more ∧
        Reassembled artifact superblock chunks fragments [key] more := by
      obtain ⟨hcomplete, event, hfinish, hevent⟩ | ⟨hincomplete, hfinish⟩ :=
        finishGroup_outcome artifact superblock chunks hdecoded horder.1
      · exact ⟨_, hfinish, by simpa [hcomplete] using hevent, by simp [hcomplete], by simp [hcomplete]⟩
      · exact ⟨_, hfinish, by simp [hincomplete, markDamaged], by simp [hincomplete, markDamaged],
          by simp [hincomplete, markDamaged]⟩
    obtain ⟨done, hdone, hloop⟩ := ih horder.2 (start.append more)
    refine ⟨more.append done, hmore.append hdone, ?_⟩
    rw [List.foldlM_cons, hfinish, ← Finished.append_assoc]
    exact hloop

end Finish

open Classical in
/-- Whatever the fragments and whatever the order of the groups, each complete group becomes
one event, every other fragment is damaged, and together these are all fragments. -/
theorem finish_reassembles (artifact : List UInt8) (superblock : Superblock) (chunks : List (Option ChunkIdentity))
    (fragments : List Fragment) (hdecoded : ∀ f ∈ fragments, f.IsDecoded) (order : List GroupKey)
    (hvisits : Visits fragments order) :
    ∃ done, finish artifact superblock chunks fragments order = .ok done ∧
      Reassembled artifact superblock chunks fragments order done ∧
      ((order.filter (IsComplete superblock chunks fragments)).flatMap (groupOf fragments) ++
        (order.filter (¬ IsComplete superblock chunks fragments ·)).flatMap (groupOf fragments)).Perm fragments := by
  obtain ⟨done, hdone, hloop⟩ := finish_loop artifact superblock chunks hdecoded
    (fun key hkey => (hvisits.mem_iff key).1 hkey) ⟨[], [], []⟩
  refine ⟨done, hloop, hdone, ?_⟩
  refine List.Perm.trans ?_ (RadixSort.groups_perm hvisits.nodup fun f hf => (hvisits.mem_iff f.groupKey).2 ⟨f, hf, rfl⟩)
  rw [← List.flatMap_append]
  apply List.Perm.flatMap_right
  simpa using List.filter_append_perm (fun key => decide (IsComplete superblock chunks fragments key)) order

/-- The texts of the samples: a name and two pieces of a detail. -/
def sampleStrings (id : UInt32) : Option (List UInt8) := [none, some [110], some [97, 98], some [99]].getD id.toNat none

/-- A fragment of a rule of three bytes, in the chunk of thread 7. -/
def sampleFragment (eventId : UInt64) (index : UInt16) (sequence offset : UInt64) : Fragment where
  key := ⟨[], 0, sequence, offset, some sequence, some 7⟩
  provenance := .captured
  kind := 7
  eventId := eventId
  total := 3
  index := index
  count := 2
  fixed := [[110]]
  detail := if index = 0 then [97, 98] else [99]
  chunkIndex := 0
  generation := 1

def sampleSuperblock : Superblock :=
  ⟨8, 1, 1, 1, [], 0, 12288, ⟨4096, 4160⟩, 1, ⟨8192, 12288⟩, 4096, 1, ⟨4160, 4160⟩, 0, 0⟩

theorem sampleFragment_isDecoded {eventId : UInt64} {index : UInt16} (sequence offset : UInt64)
    (h : (eventId = 5 ∨ eventId = 6) ∧ (index = 0 ∨ index = 1)) :
    (sampleFragment eventId index sequence offset).IsDecoded := by
  obtain ⟨rfl | rfl, rfl | rfl⟩ := h
  · exact ⟨[5, 0, 0, 0, 0, 0, 0, 0, 3, 0, 0, 0, 0, 0, 2, 0, 1, 0, 0, 0, 2, 0, 0, 0], sampleStrings, rfl⟩
  · exact ⟨[5, 0, 0, 0, 0, 0, 0, 0, 3, 0, 0, 0, 1, 0, 2, 0, 1, 0, 0, 0, 3, 0, 0, 0], sampleStrings, rfl⟩
  · exact ⟨[6, 0, 0, 0, 0, 0, 0, 0, 3, 0, 0, 0, 0, 0, 2, 0, 1, 0, 0, 0, 2, 0, 0, 0], sampleStrings, rfl⟩
  · exact ⟨[6, 0, 0, 0, 0, 0, 0, 0, 3, 0, 0, 0, 1, 0, 2, 0, 1, 0, 0, 0, 3, 0, 0, 0], sampleStrings, rfl⟩

open Classical in
/-- Two fragments in the wrong order of arrival and a third whose partner is missing. -/
theorem finish_reassembles_rule :
    let fragments := [sampleFragment 5 1 12 8300, sampleFragment 6 0 13 8400, sampleFragment 5 0 11 8256]
    let order : List GroupKey := [⟨7, 6, 7⟩, ⟨7, 5, 7⟩]
    ∃ done, finish [] sampleSuperblock [some ⟨7, 1, 2⟩] fragments order = .ok done ∧
      Reassembled [] sampleSuperblock [some ⟨7, 1, 2⟩] fragments order done ∧
      ((order.filter (IsComplete sampleSuperblock [some ⟨7, 1, 2⟩] fragments)).flatMap (groupOf fragments) ++
        (order.filter (¬ IsComplete sampleSuperblock [some ⟨7, 1, 2⟩] fragments ·)).flatMap
          (groupOf fragments)).Perm fragments := by
  refine finish_reassembles _ _ _ _ ?_ _ ⟨by decide, fun key => ?_⟩
  · simp only [List.forall_mem_cons]
    refine ⟨sampleFragment_isDecoded _ _ (by decide), sampleFragment_isDecoded _ _ (by decide),
      sampleFragment_isDecoded _ _ (by decide), by simp⟩
  · simp only [List.mem_cons, List.not_mem_nil, or_false, exists_eq_or_imp, exists_eq_left, Fragment.groupKey,
      sampleFragment, Option.getD_some]
    constructor
    · rintro (rfl | rfl)
      · exact Or.inr (Or.inl rfl)
      · exact Or.inl rfl
    · rintro (rfl | rfl | rfl)
      · exact Or.inr rfl
      · exact Or.inl rfl
      · exact Or.inr rfl

end QTrace.Flight
