import QTrace.Store.ArenaRuns

/-! The details of semantic events. A detail that its payload holds without escapes is not stored
again: the reference names the row, and a reader finds the detail behind the first occurrence of
the field's name in the payload. A comma before that name stands in a string, where no bare quote
follows it, or begins the field of the name; so the scan finds the field itself. -/

namespace QTrace.Store

open Lib Lib.Json Provider

/-- A byte that is written to a string without an escape. -/
def isPlain (byte : UInt8) : Bool := !(byte < 0x20 || byte == 34 || byte == 92)

variable {byte : UInt8}

theorem escape_plain (h : isPlain byte) : escape byte = [byte] := by
  unfold escape
  simp only [isPlain, Bool.not_eq_true', Bool.or_eq_false_iff, decide_eq_false_iff_not, beq_eq_false_iff_ne] at h
  obtain ⟨⟨hlow, hquote⟩, hbackslash⟩ := h
  rw [if_neg hquote, if_neg hbackslash, if_pos (UInt8.not_lt.mp hlow), ite_self]

theorem escape_special (h : isPlain byte = false) : ∃ rest, escape byte = 92 :: rest ∧ 44 ∉ escape byte := by
  have hall : ∀ n : Fin 256, isPlain (.ofNat n) = false →
      (escape (.ofNat n)).head? = some 92 ∧ 44 ∉ escape (.ofNat n) := by decide +kernel
  have hbyte := hall ⟨byte.toNat, byte.toNat_lt⟩
  rw [UInt8.ofNat_toNat] at hbyte
  obtain ⟨hhead, hcomma⟩ := hbyte h
  obtain ⟨rest, hrest⟩ := List.head?_eq_some_iff.mp hhead
  exact ⟨rest, hrest, hcomma⟩

/-- The name of the field, behind a field before it and up to the quote of its text. -/
def detailMarker : List UInt8 := ascii ",\"detail\":\""

theorem detailMarker_eq : detailMarker = [44, 34, 100, 101, 116, 97, 105, 108, 34, 58, 34] := by decide

theorem afterMarker_found (post : List UInt8) : afterMarker detailMarker (detailMarker ++ post) = some post := by
  rw [detailMarker_eq]
  simp [afterMarker]

theorem afterMarker_ne_comma (post : List UInt8) (h : byte ≠ 44) :
    afterMarker detailMarker (byte :: post) = afterMarker detailMarker post := by
  rw [detailMarker_eq, afterMarker, if_neg]
  intro heq
  exact h (List.cons.inj heq).1

theorem afterMarker_no_comma {text : List UInt8} (post : List UInt8) (h : 44 ∉ text) :
    afterMarker detailMarker (text ++ post) = afterMarker detailMarker post := by
  induction text with
  | nil => rfl
  | cons byte text ih =>
    rw [List.mem_cons, not_or] at h
    rw [List.cons_append, afterMarker_ne_comma _ (Ne.symm h.1), ih h.2]

theorem afterMarker_comma {post : List UInt8} (h : ¬ [34, 100] <+: post) :
    afterMarker detailMarker (44 :: post) = afterMarker detailMarker post := by
  rw [detailMarker_eq, afterMarker, if_neg]
  intro heq
  apply h
  have hpost := (List.cons.inj heq).2
  have hstart : [34, 100] <+: [34, 100, 101, 116, 97, 105, 108, 34, 58, (34 : UInt8)] := by decide
  exact hstart.trans (hpost ▸ List.take_prefix _ _)

/-- The text of a string is passed over, with the quote behind it, where another field follows. -/
theorem afterMarker_escaped (text post : List UInt8) :
    afterMarker detailMarker (text.flatMap escape ++ 34 :: 44 :: post) =
      afterMarker detailMarker (44 :: post) := by
  induction text with
  | nil => exact afterMarker_ne_comma _ (by decide)
  | cons byte text ih =>
    rw [List.flatMap_cons, List.append_assoc]
    cases hplain : isPlain byte with
    | false =>
      obtain ⟨rest, -, hcomma⟩ := escape_special hplain
      rw [afterMarker_no_comma _ hcomma, ih]
    | true =>
      rw [escape_plain hplain]
      by_cases hcomma : byte = 44
      · subst hcomma
        rw [List.singleton_append, afterMarker_comma, ih]
        -- what follows a comma of the text is another byte of it, or the closing quote and a comma
        cases text with
        | nil => simp
        | cons next text =>
          rw [List.flatMap_cons, List.append_assoc]
          cases hnext : isPlain next with
          | false =>
            obtain ⟨rest, hrest, -⟩ := escape_special hnext
            simp [hrest]
          | true =>
            rw [escape_plain hnext]
            have : next ≠ 34 := by
              rintro rfl
              exact absurd hnext (by decide)
            simp [this.symm]
      · rw [afterMarker_no_comma _ (by simpa using Ne.symm hcomma), ih]

/-- What a reader takes of a written text: all of it, where nothing in it is escaped. -/
theorem untilQuote_escaped (text post : List UInt8) :
    untilQuote (text.flatMap escape ++ 34 :: post) = if text.all isPlain then some text else none := by
  induction text with
  | nil => simp [untilQuote]
  | cons byte text ih =>
    rw [List.flatMap_cons, List.append_assoc, List.all_cons]
    cases hplain : isPlain byte with
    | false =>
      obtain ⟨rest, hrest, -⟩ := escape_special hplain
      simp [hrest, untilQuote]
    | true =>
      have hne : ∀ special, isPlain special = false → byte ≠ special := by
        rintro _ hspecial rfl
        simp [hplain] at hspecial
      rw [escape_plain hplain, List.singleton_append, untilQuote, if_neg (hne 34 (by decide)),
        if_neg (hne 92 (by decide)), ih, Bool.true_and]
      split_ifs <;> rfl

def semanticOf : EventPayload → Option SemanticEvent
  | .semanticCall event | .semanticRule event | .semanticError event => some event
  | _ => none

theorem semanticEvent_toJson (event : SemanticEvent) :
    ∃ rest, event.toJson = ascii "\x7b\"category\":" ++ (option text event.category ++ (ascii ",\"name\":\"" ++
      (event.name.bytes.flatMap escape ++ 34 :: (detailMarker ++ (event.detail.bytes.flatMap escape ++ 34 :: rest))))) := by
  have hcategory : ascii "\x7b\"category\":" = 123 :: 34 :: (ascii "category" ++ [34, 58]) := by decide
  have hname : ascii ",\"name\":\"" = 44 :: 34 :: (ascii "name" ++ [34, 58, 34]) := by decide
  have hdetail : detailMarker = 44 :: 34 :: (ascii "detail" ++ [34, 58, 34]) := by decide
  unfold SemanticEvent.toJson nonDefaultField
  rw [hcategory, hname, hdetail]
  split_ifs with hfragments
  · exact ⟨[125], by simp [object, text, string, List.intercalate, List.intersperse]⟩
  · exact ⟨44 :: 34 :: (ascii "fragment_sequences" ++ 34 :: 58 ::
      (array (event.fragmentSequences.map u64) ++ [125])), by simp [object, text, string, List.intercalate, List.intersperse]⟩

theorem afterMarker_name (name post : List UInt8) :
    afterMarker detailMarker (ascii ",\"name\":\"" ++ (name.flatMap escape ++ 34 :: (detailMarker ++ post))) = some post := by
  have hname : ascii ",\"name\":\"" = 44 :: 34 :: 110 :: ascii "ame\":\"" := by decide
  obtain ⟨tail, htail⟩ : ∃ tail, detailMarker = 44 :: tail := ⟨_, detailMarker_eq⟩
  have hfound := afterMarker_found post
  rw [htail, List.cons_append, ← htail] at hfound ⊢
  rw [hname, List.cons_append, afterMarker_comma (by simp), afterMarker_no_comma _ (by decide),
    afterMarker_escaped, hfound]

theorem afterMarker_category (category : Option Text) (post : List UInt8) :
    afterMarker detailMarker (option text category ++ (ascii ",\"name\":\"" ++ post)) =
      afterMarker detailMarker (ascii ",\"name\":\"" ++ post) := by
  obtain ⟨tail, htail⟩ : ∃ tail, ascii ",\"name\":\"" = 44 :: tail := ⟨ascii "\"name\":\"", by decide⟩
  cases category with
  | none => exact afterMarker_no_comma _ (by decide)
  | some category =>
    have hcategory : option text (some category) ++ (ascii ",\"name\":\"" ++ post) =
        34 :: (category.bytes.flatMap escape ++ 34 :: 44 :: (tail ++ post)) := by
      simp [option, text, string, htail]
    rw [hcategory, afterMarker_ne_comma _ (by decide), afterMarker_escaped, htail, List.cons_append]

variable {start : List UInt8}

/-- The scan for the detail, whatever the category, the name and the detail are. -/
theorem afterMarker_semanticEvent (event : SemanticEvent) (hstart : 44 ∉ start) (stop : List UInt8) :
    afterMarker detailMarker (start ++ (event.toJson ++ stop)) >>= untilQuote =
      if event.detail.bytes.all isPlain then some event.detail.bytes else none := by
  obtain ⟨rest, hjson⟩ := semanticEvent_toJson event
  rw [hjson, afterMarker_no_comma _ hstart]
  simp only [List.append_assoc, List.cons_append]
  rw [afterMarker_no_comma _ (by decide), afterMarker_category, afterMarker_name, Option.bind_eq_bind,
    Option.bind_some, untilQuote_escaped]

theorem tagged_eq {tag : String} (h : start = 123 :: 34 :: (ascii tag ++ [34, 58])) (value : Json) :
    tagged tag value = start ++ (value ++ [125]) := by
  subst h
  simp [tagged, object, List.intercalate]

variable {payload : EventPayload}

/-- The payload of a semantic event begins with one of the tags that `literal_detail` knows. -/
theorem semantic_toJson {event : SemanticEvent} (h : semanticOf payload = some event) :
    ∃ start ∈ ["\x7b\"semantic_call\":", "\x7b\"semantic_rule\":", "\x7b\"semantic_error\":"],
      payload.toJson = ascii start ++ (event.toJson ++ [125]) := by
  cases payload with
  | semanticCall value =>
    obtain rfl := Option.some.inj h
    exact ⟨_, .head _, tagged_eq (by decide) _⟩
  | semanticRule value =>
    obtain rfl := Option.some.inj h
    exact ⟨_, .tail _ (.head _), tagged_eq (by decide) _⟩
  | semanticError value =>
    obtain rfl := Option.some.inj h
    exact ⟨_, .tail _ (.tail _ (.head _)), tagged_eq (by decide) _⟩
  | _ => cases h

/-- `literal_detail` on a serialized semantic event: the detail itself, or nothing. -/
theorem literalDetail_toJson {event : SemanticEvent} (h : semanticOf payload = some event) :
    literalDetail payload.toJson = if event.detail.bytes.all isPlain then some event.detail.bytes else none := by
  obtain ⟨start, hstart, hjson⟩ := semantic_toJson h
  rw [literalDetail, hjson, if_pos (List.any_eq_true.mpr ⟨start, hstart, by simp⟩)]
  refine afterMarker_semanticEvent event ?_ [125]
  clear hjson
  revert start
  decide

namespace ByteArena

/-- An arena of a build holds different values, one behind the other, within its limit. -/
structure Holds (arena : ByteArena) (maxBytes : ℕ) (values : List (List UInt8)) : Prop where
  nodup : values.Nodup
  eq : arena = HashedArena.holding values maxBytes none
  fits : values.flatten.length ≤ maxBytes

variable {arena arena' : ByteArena} {maxBytes id : ℕ} {values : List (List UInt8)} {value : List UInt8}

theorem holds_new (maxBytes : ℕ) : (new maxBytes).Holds maxBytes [] := ⟨.nil, rfl, Nat.zero_le _⟩

section

variable (h : arena.Holds maxBytes values)
include h

theorem Holds.get (hvalue : values[id]? = some value) : arena.get id = .ok value := by
  rw [h.eq]
  exact HashedArena.get_holding maxBytes none hvalue

theorem Holds.known : arena.known = values.length := by
  rw [h.eq]
  exact HashedArena.length_layout 0 values

theorem Holds.intern (hintern : arena.intern value = .ok (arena', id)) :
    ∃ values', values <+: values' ∧ arena'.Holds maxBytes values' ∧ values'[id]? = some value := by
  have hmode : arena.validationNextId = none := by rw [h.eq]; rfl
  have hlimit : arena.maxBytes = maxBytes := by rw [h.eq]; rfl
  have hbytes : arena.bytes = values.flatten := by rw [h.eq]; rfl
  have hspans : arena.spans.length = values.length := by rw [h.eq]; exact HashedArena.length_layout 0 values
  unfold ByteArena.intern at hintern
  cases hfind : (List.range arena.known).find? fun id => arena.get id = .ok value with
  | some found =>
    simp only [hfind] at hintern
    obtain ⟨rfl, rfl⟩ := Prod.mk.inj (Except.ok.inj hintern)
    have hlt := List.mem_range.mp (List.mem_of_find?_eq_some hfind)
    rw [h.known] at hlt
    have hget := h.get (List.getElem?_eq_getElem hlt)
    have hvalue : arena.get found = .ok value := by simpa using List.find?_some hfind
    refine ⟨values, List.prefix_rfl, h, ?_⟩
    rw [List.getElem?_eq_getElem hlt, Except.ok.inj (hget.symm.trans hvalue)]
  | none =>
    simp only [hfind, hmode] at hintern
    split_ifs at hintern with hmax hids
    obtain ⟨rfl, rfl⟩ := Prod.mk.inj (Except.ok.inj hintern)
    have hnew : value ∉ values := by
      intro hmem
      obtain ⟨at_, hat⟩ := List.getElem?_of_mem hmem
      have hlt : at_ < arena.known := h.known ▸ (List.getElem?_eq_some_iff.mp hat).1
      have := List.find?_eq_none.mp hfind at_ (List.mem_range.mpr hlt)
      simp [h.get hat] at this
    refine ⟨values ++ [value], List.prefix_append _ _, ⟨h.nodup.append (List.nodup_singleton value) ?_, ?_, ?_⟩, ?_⟩
    · simpa using hnew
    · rw [h.eq]
      simp [HashedArena.holding, HashedArena.layout_append, HashedArena.layout]
    · rw [hbytes, hlimit] at hmax
      simpa using hmax
    · rw [hspans, List.getElem?_concat_length]

theorem Holds.length_le : 4 * values.length ≤ maxBytes + 2 ^ 28 := by
  have hshort := HashedArena.length_short_le (h.nodup.filter fun value => decide (value.length ≤ 3))
    fun value hvalue => by simpa using (List.mem_filter.mp hvalue).2
  have hcount := HashedArena.four_mul_length_le values
  have hfits := h.fits
  rw [List.length_flatten] at hfits
  omega

end

end ByteArena

namespace BuildState

variable {st mid st' : BuildState} {row payloadBlob id : ℕ} {event : EventRecord} {added : List SemanticRow}
  {bytes : List UInt8} {provenance : Analysis.Provenance} {definition : InstructionDefinition}
  {instruction : Instruction}

/-- What a payload does not touch. -/
def columns (st : BuildState) :=
  (st.nextRow, st.retainSourceColumns, st.legacyPayloads, st.events, st.payloads)

/-- Nor do the dictionaries of modules, definitions and strings touch blobs and semantic rows. -/
def details (st : BuildState) := (st.columns, st.semantics, st.blobs)

/-- A payload adds semantic rows and blobs. -/
structure Adds (st st' : BuildState) (added : List SemanticRow) : Prop where
  columns : st'.columns = st.columns
  semantics : st'.semantics = st.semantics ++ added
  blobs : ∀ {maxBytes values}, st.blobs.Holds maxBytes values →
    ∃ values', values <+: values' ∧ st'.blobs.Holds maxBytes values'

theorem adds_of_details (h : st'.details = st.details) : st.Adds st' [] := by
  simp only [details, Prod.mk.injEq] at h
  obtain ⟨hcolumns, hsemantics, hblobs⟩ := h
  exact ⟨hcolumns, by simpa using hsemantics, fun hvalues => ⟨_, List.prefix_rfl, hblobs ▸ hvalues⟩⟩

theorem Adds.trans (h : st.Adds mid []) (h' : mid.Adds st' added) : st.Adds st' added := by
  refine ⟨h'.columns.trans h.columns, by rw [h'.semantics, h.semantics, List.append_nil], fun hvalues => ?_⟩
  obtain ⟨values, hvalues, hmid⟩ := h.blobs hvalues
  obtain ⟨values', hvalues', hst'⟩ := h'.blobs hmid
  exact ⟨values', hvalues.trans hvalues', hst'⟩

theorem internString_details (h : st.internString bytes = .ok (st', id)) : st'.details = st.details := by
  obtain ⟨⟨strings, id'⟩, -, h⟩ := bind_eq_ok.mp h
  obtain ⟨rfl, -⟩ := Prod.mk.inj (pure_eq_ok.mp h)
  rfl

theorem internBlob_ok (h : st.internBlob bytes = .ok (st', id)) :
    ∃ blobs, st.blobs.intern bytes = .ok (blobs, id) ∧ st' = { st with blobs := blobs } := by
  obtain ⟨⟨blobs, id'⟩, hintern, h⟩ := bind_eq_ok.mp h
  obtain ⟨rfl, rfl⟩ := Prod.mk.inj (pure_eq_ok.mp h)
  exact ⟨blobs, hintern, rfl⟩

theorem internBlob_adds (h : st.internBlob bytes = .ok (st', id)) : st.Adds st' [] := by
  obtain ⟨blobs, hintern, rfl⟩ := internBlob_ok h
  refine ⟨rfl, (List.append_nil _).symm, fun hvalues => ?_⟩
  obtain ⟨values', hsub, hholds, -⟩ := hvalues.intern hintern
  exact ⟨values', hsub, hholds⟩

theorem addModule_details {sourceKey : EventScope × UInt32} {base : UInt64} {name : ℕ}
    (h : st.addModule row provenance sourceKey base name = .ok st') : st'.details = st.details := by
  obtain ⟨⟨mid, id⟩, hid, h⟩ := bind_eq_ok.mp h
  rw [← pure_eq_ok.mp h]
  unfold moduleId at hid
  split at hid
  · obtain ⟨rfl, -⟩ := Prod.mk.inj (Except.ok.inj hid)
    rfl
  · split_ifs at hid
    obtain ⟨rfl, -⟩ := Prod.mk.inj (Except.ok.inj hid)
    rfl

theorem definitionId_details {exactBlob : ℕ}
    (h : st.definitionId row provenance definition exactBlob = .ok (st', id)) : st'.details = st.details := by
  unfold definitionId at h
  split at h
  · obtain ⟨rfl, -⟩ := Prod.mk.inj (Except.ok.inj h)
    rfl
  · split_ifs at h
    obtain ⟨⟨st1, mnemonic⟩, h1, h⟩ := bind_eq_ok.mp h
    obtain ⟨⟨st2, operands⟩, h2, h⟩ := bind_eq_ok.mp h
    obtain ⟨⟨st3, disassembly⟩, h3, h⟩ := bind_eq_ok.mp h
    obtain ⟨rfl, -⟩ := Prod.mk.inj (pure_eq_ok.mp h)
    have hfirst := internString_details h1
    exact (internString_details h3).trans ((internString_details h2).trans hfirst)

theorem appendModule_adds {module : ModuleDefinition} (h : st.appendModule row event module = .ok st') :
    st.Adds st' [] := by
  obtain ⟨⟨mid, name⟩, hname, h⟩ := bind_eq_ok.mp h
  have hmid := internString_details hname
  dsimp only at h
  split at h
  · split_ifs at h
    obtain rfl := Except.ok.inj h
    exact adds_of_details hmid
  · exact adds_of_details ((addModule_details h).trans hmid)

theorem appendDefinition_adds (h : st.appendDefinition row event definition = .ok st') : st.Adds st' [] := by
  obtain ⟨⟨mid, exactBlob⟩, hblob, h⟩ := bind_eq_ok.mp h
  refine (internBlob_adds hblob).trans (adds_of_details ?_)
  dsimp only at h
  split at h
  · split_ifs at h
    obtain rfl := Except.ok.inj h
    rfl
  · obtain ⟨⟨last, id⟩, hid, h⟩ := bind_eq_ok.mp h
    rw [← pure_eq_ok.mp h]
    have hlast := definitionId_details hid
    exact hlast

theorem deriveModule_details (h : st.deriveModule row event instruction = .ok st') : st'.details = st.details := by
  unfold deriveModule at h
  split at h
  · obtain ⟨⟨mid, name⟩, hname, h⟩ := bind_eq_ok.mp h
    exact (addModule_details h).trans (internString_details hname)
  · obtain rfl := Except.ok.inj h
    rfl

theorem appendInstruction_adds (h : st.appendInstruction row event instruction = .ok st') : st.Adds st' [] := by
  obtain ⟨mid, hmid, h⟩ := bind_eq_ok.mp h
  rw [← pure_eq_ok.mp h]
  have hderived := deriveModule_details hmid
  exact adds_of_details hderived

theorem appendMemory_adds {memory : Memory} (h : st.appendMemory row event memory = .ok st') : st.Adds st' [] := by
  unfold appendMemory at h
  split_ifs at h
  obtain ⟨⟨mid, beforeBlob⟩, hbefore, h⟩ := bind_eq_ok.mp h
  obtain ⟨⟨last, afterBlob⟩, hafter, h⟩ := bind_eq_ok.mp h
  rw [← pure_eq_ok.mp h]
  have hseen : st.Adds (st.seeMemory memory) [] := adds_of_details rfl
  exact (hseen.trans (internBlob_adds hbefore)).trans ((internBlob_adds hafter).trans (adds_of_details rfl))

theorem appendPayload_adds (hlegacy : st.legacyPayloads = false) (hkind : semanticOf event.payload = none)
    (h : st.appendPayload row payloadBlob event = .ok st') : st.Adds st' [] := by
  unfold appendPayload at h
  cases hpayload : event.payload with
  | moduleDefinition module => exact appendModule_adds (by simpa only [hpayload] using h)
  | instructionDefinition definition => exact appendDefinition_adds (by simpa only [hpayload] using h)
  | instruction instruction => exact appendInstruction_adds (by simpa only [hpayload] using h)
  | memory memory => exact appendMemory_adds (by simpa only [hpayload] using h)
  | semanticCall value | semanticRule value | semanticError value => simp [hpayload, semanticOf] at hkind
  | stringDefinition definition =>
    simp only [hpayload, appendString, hlegacy, Bool.false_eq_true, if_false, Except.ok.injEq] at h
    exact h ▸ adds_of_details rfl
  | registerCheckpoint _ | registerDelta _ | begin _ | threadLifecycle _ | signal _ | signalHandlerBoundary _
  | termination _ | syscall _ | coverageGap _ | discontinuity _ | opaqueOptional _ =>
    simp only [hpayload, Except.ok.injEq] at h
    exact h ▸ adds_of_details rfl

theorem appendPayload_semantic {value : SemanticEvent} (hvalue : semanticOf event.payload = some value) :
    st.appendPayload row payloadBlob event = st.appendSemantic row payloadBlob value := by
  unfold appendPayload
  cases hpayload : event.payload with
  | semanticCall _ | semanticRule _ | semanticError _ =>
    rw [hpayload] at hvalue
    obtain rfl := Option.some.inj hvalue
    rfl
  | _ => simp [hpayload, semanticOf] at hvalue

/-- The reference leads to the detail: through the payload of the row where the detail is plain text, else to a blob. -/
def DetailKept (columns : List EventColumn) (payloads blobs : List (List UInt8)) (entry : SemanticRow)
    (source : SemanticEvent × ℕ) : Prop :=
  entry.ownerRow = source.2 ∧
    if source.2 < detailRowBit ∧ source.1.detail.bytes.all isPlain then
      entry.detailBlob = detailRowBit + source.2 ∧ ∃ column bytes, columns[source.2]? = some column ∧
        payloads[column.payloadBlob]? = some bytes ∧ literalDetail bytes = some source.1.detail.bytes
    else blobs[entry.detailBlob]? = some source.1.detail.bytes

theorem getElem?_of_prefix {α : Type} {l l' : List α} (h : l <+: l') {i : ℕ} {a : α} (ha : l[i]? = some a) :
    l'[i]? = some a := by
  obtain ⟨later, rfl⟩ := h
  rw [List.getElem?_append_left (List.getElem?_eq_some_iff.mp ha).1, ha]

theorem DetailKept.mono {columns columns' : List EventColumn} {payloads payloads' blobs blobs' : List (List UInt8)}
    {entry : SemanticRow} {source : SemanticEvent × ℕ} (h : DetailKept columns payloads blobs entry source)
    (hcolumns : columns <+: columns') (hpayloads : payloads <+: payloads') (hblobs : blobs <+: blobs') :
    DetailKept columns' payloads' blobs' entry source := by
  obtain ⟨howner, hkept⟩ := h
  refine ⟨howner, ?_⟩
  split_ifs at hkept ⊢ with hplain
  · obtain ⟨hid, column, bytes, hcolumn, hbytes, hliteral⟩ := hkept
    exact ⟨hid, column, bytes, getElem?_of_prefix hcolumns hcolumn, getElem?_of_prefix hpayloads hbytes, hliteral⟩
  · exact getElem?_of_prefix hblobs hkept

/-- `detail_blob` of a build, over the payload of the row: the detail is borrowed where it is literal there. -/
theorem detailBlob_ok (hretain : st.retainSourceColumns = true) (hlegacy : st.legacyPayloads = false)
    {detail : List UInt8} (hpayload : st.payloads.get payloadBlob = .ok bytes)
    (h : st.detailBlob row payloadBlob detail = .ok (st', id)) :
    (row < detailRowBit ∧ literalDetail bytes = some detail ∧ detail.all isPlain) ∧ st' = st ∧ id = detailRowBit + row ∨
      ¬ (row < detailRowBit ∧ literalDetail bytes = some detail ∧ detail.all isPlain) ∧
        st.internBlob detail = .ok (st', id) := by
  have hplain : (!detail.any fun byte => byte < 0x20 || byte == 34 || byte == 92) = detail.all isPlain := by
    rw [List.not_any_eq_all_not]
    rfl
  unfold detailBlob at h
  rw [hlegacy, Bool.false_or, hplain] at h
  split_ifs at h with hrow
  · exact .inr ⟨fun hlt => absurd hlt.1 (by simpa using hrow), h⟩
  · obtain ⟨literal, hliteral, h⟩ := bind_eq_ok.mp h
    have hvalue : literal = decide (literalDetail bytes = some detail) := by
      rw [detailIsLiteral, if_pos hretain, hpayload] at hliteral
      exact (Except.ok.inj hliteral).symm
    subst hvalue
    split_ifs at h with hborrow
    · obtain ⟨rfl, rfl⟩ := Prod.mk.inj (Except.ok.inj h)
      simp only [Bool.and_eq_true, decide_eq_true_eq] at hborrow
      exact .inl ⟨⟨by simpa using hrow, hborrow⟩, rfl, rfl⟩
    · refine .inr ⟨fun hall => hborrow ?_, h⟩
      simpa using hall.2

theorem internCategory_details {category : Option Text} {found : Option ℕ}
    (h : st.internCategory category = .ok (st', found)) : st'.details = st.details := by
  cases category with
  | none =>
    obtain ⟨rfl, -⟩ := Prod.mk.inj (Except.ok.inj h)
    rfl
  | some category =>
    obtain ⟨⟨mid, id⟩, hintern, h⟩ := bind_eq_ok.mp h
    obtain ⟨rfl, -⟩ := Prod.mk.inj (pure_eq_ok.mp h)
    exact internString_details hintern

theorem appendSemantic_kept (hretain : st.retainSourceColumns = true) (hlegacy : st.legacyPayloads = false)
    {payloads blobs : List (List UInt8)} {maxPayload maxBlob : ℕ}
    (hpayloads : st.payloads.Holds maxPayload payloads) (hblobs : st.blobs.Holds maxBlob blobs)
    {value : SemanticEvent} {column : EventColumn} (hvalue : semanticOf payload = some value)
    (hcolumn : st.events[row]? = some column) (hpayload : payloads[column.payloadBlob]? = some payload.toJson)
    (h : st.appendSemantic row column.payloadBlob value = .ok st') :
    st'.columns = st.columns ∧ ∃ entry blobs', st'.semantics = st.semantics ++ [entry] ∧ blobs <+: blobs' ∧
      st'.blobs.Holds maxBlob blobs' ∧ DetailKept st.events payloads blobs' entry (value, row) := by
  obtain ⟨⟨st1, detail⟩, hdetail, h⟩ := bind_eq_ok.mp h
  obtain ⟨⟨st2, category⟩, hcategory, h⟩ := bind_eq_ok.mp h
  obtain ⟨⟨st3, name⟩, hname, h⟩ := bind_eq_ok.mp h
  have hsame := (internString_details hname).trans (internCategory_details hcategory)
  simp only [details, Prod.mk.injEq] at hsame
  obtain ⟨hcolumns, hsemantics, hsame⟩ := hsame
  rw [← pure_eq_ok.mp h]
  have hscan := literalDetail_toJson hvalue
  rcases detailBlob_ok hretain hlegacy (hpayloads.get hpayload) hdetail with
    ⟨⟨hrow, hliteral, hplain⟩, rfl, rfl⟩ | ⟨hnot, hintern⟩
  · refine ⟨hcolumns, _, blobs, by rw [hsemantics], List.prefix_rfl, hsame ▸ hblobs, rfl, ?_⟩
    rw [if_pos ⟨hrow, hplain⟩]
    exact ⟨rfl, column, _, hcolumn, hpayload, hliteral⟩
  · obtain ⟨interned, hstored, rfl⟩ := internBlob_ok hintern
    obtain ⟨blobs', hsub, hblobs', hget⟩ := hblobs.intern hstored
    refine ⟨hcolumns, _, blobs', by rw [hsemantics], hsub, hsame ▸ hblobs', rfl, ?_⟩
    rw [if_neg]
    · exact hget
    · rintro ⟨hrow, hplain⟩
      exact hnot ⟨hrow, by rw [hscan, if_pos hplain], hplain⟩

/-- The semantic events of a source with their rows. -/
def semanticEvents (events : List EventRecord) : List (SemanticEvent × ℕ) :=
  events.zipIdx.filterMap fun at_ => (semanticOf at_.1.payload).map (·, at_.2)

theorem semanticEvents_append (events : List EventRecord) (event : EventRecord) :
    semanticEvents (events ++ [event]) =
      semanticEvents events ++ ((semanticOf event.payload).map (·, events.length)).toList := by
  rw [semanticEvents, List.zipIdx_append, List.filterMap_append, Nat.zero_add]
  cases h : semanticOf event.payload <;> simp [semanticEvents, h]

/-- The columns, arenas and semantic rows after the events were appended. -/
structure DetailsBuilt (options : BuildOptions) (events : List EventRecord) (st : BuildState) : Prop where
  retain : st.retainSourceColumns = true
  legacy : st.legacyPayloads = false
  nextRow : st.nextRow = events.length
  columns : st.events.length = events.length
  details : ∃ payloads blobs, st.payloads.Holds options.maxPayloadBytes payloads ∧
    st.blobs.Holds options.maxBlobBytes blobs ∧
    List.Forall₂ (DetailKept st.events payloads blobs) st.semantics (semanticEvents events)

/-- The payload is interned and its column is added; then the payload is looked at. -/
theorem append_ok (hretain : st.retainSourceColumns = true) (h : st.append event = .ok st') :
    ∃ (mid : BuildState) (payloads : ByteArena) (payloadBlob : ℕ), st.payloads.intern event.payload.toJson = .ok (payloads, payloadBlob) ∧
      mid.columns = (st.nextRow + 1, st.retainSourceColumns, st.legacyPayloads,
        st.events ++ [⟨event.scope, event.provenance, payloadBlob⟩], payloads) ∧
      mid.semantics = st.semantics ∧ mid.blobs = st.blobs ∧
      mid.appendPayload st.nextRow payloadBlob event = .ok st' := by
  obtain ⟨⟨payloads, payloadBlob⟩, hintern, h⟩ := bind_eq_ok.mp h
  unfold appendWithPayloadBlob at h
  dsimp only at h
  split_ifs at h
  unfold beginRow at h
  rw [if_pos hretain] at h
  refine ⟨_, payloads, payloadBlob, hintern, ?_, ?_, ?_, h⟩ <;> rfl

variable {options : BuildOptions} {events : List EventRecord}

theorem DetailsBuilt.append (hbuilt : DetailsBuilt options events st) (h : st.append event = .ok st') :
    DetailsBuilt options (events ++ [event]) st' := by
  obtain ⟨payloads, blobs, hpayloads, hblobs, hdetails⟩ := hbuilt.details
  obtain ⟨mid, arena, payloadBlob, hintern, hmid, hsemantics, hmidBlobs, h⟩ := append_ok hbuilt.retain h
  obtain ⟨payloads', hsub, hpayloads', hget⟩ := hpayloads.intern hintern
  have hcolumns := hmid
  simp only [BuildState.columns, Prod.mk.injEq] at hcolumns
  obtain ⟨-, hretain, hlegacy, hevents, harena⟩ := hcolumns
  rw [← harena] at hpayloads'
  rw [← hmidBlobs] at hblobs
  -- whatever the payload was: the columns stay as they are now, and blobs and details are added
  have hfinish : st'.columns = mid.columns → ∀ {blobs'}, blobs <+: blobs' → st'.blobs.Holds options.maxBlobBytes blobs' →
      ∀ added, st'.semantics = mid.semantics ++ added → List.Forall₂ (DetailKept mid.events payloads' blobs') added
        ((semanticOf event.payload).map (·, events.length)).toList → DetailsBuilt options (events ++ [event]) st' := by
    intro hsame blobs' hblobsSub hblobs' added hadded hkept
    rw [hmid] at hsame
    simp only [BuildState.columns, Prod.mk.injEq] at hsame
    obtain ⟨hnext, hretain', hlegacy', hevents', harena'⟩ := hsame
    refine ⟨hretain'.trans hbuilt.retain, hlegacy'.trans hbuilt.legacy, ?_, ?_, payloads', blobs',
      harena'.trans harena.symm ▸ hpayloads', hblobs', ?_⟩
    · rw [hnext, hbuilt.nextRow, List.length_append, List.length_singleton]
    · rw [hevents', List.length_append, List.length_singleton, hbuilt.columns, List.length_append, List.length_singleton]
    · rw [hadded, hsemantics, semanticEvents_append, hevents', ← hevents]
      refine List.rel_append (hdetails.imp fun entry source hold => hold.mono ?_ hsub hblobsSub) hkept
      exact hevents ▸ List.prefix_append _ _
  cases hvalue : semanticOf event.payload with
  | none =>
    have hadds := appendPayload_adds (hlegacy.trans hbuilt.legacy) hvalue h
    obtain ⟨blobs', hblobsSub, hblobs'⟩ := hadds.blobs hblobs
    exact hfinish hadds.columns hblobsSub hblobs' [] hadds.semantics (by rw [hvalue]; exact .nil)
  | some value =>
    have hcolumn : mid.events[st.nextRow]? = some ⟨event.scope, event.provenance, payloadBlob⟩ := by
      rw [hevents, hbuilt.nextRow, ← hbuilt.columns, List.getElem?_concat_length]
    rw [appendPayload_semantic hvalue] at h
    obtain ⟨hsame, entry, blobs', hentry, hblobsSub, hblobs', hkept⟩ := appendSemantic_kept
      (hretain.trans hbuilt.retain) (hlegacy.trans hbuilt.legacy) hpayloads' hblobs hvalue hcolumn hget h
    rw [hbuilt.nextRow] at hkept
    exact hfinish hsame hblobsSub hblobs' [entry] hentry (by rw [hvalue]; exact .cons hkept .nil)

theorem detailsBuilt_of_foldlM (h : events.foldlM BuildState.append (new options) = .ok st) :
    DetailsBuilt options events st := by
  refine foldlM_rule (DetailsBuilt options) ?_ (fun _ _ _ _ _ _ hbuilt happend => hbuilt.append happend) h
  exact ⟨rfl, rfl, rfl, rfl, [], [], ByteArena.holds_new _, ByteArena.holds_new _, .nil⟩

end BuildState

/-- What a reference of the semantic table says about the detail of its event. -/
structure NormalizedCatalog.ReadsDetail (catalog : NormalizedCatalog) (entry : SemanticRow) (source : SemanticEvent × ℕ) :
    Prop where
  owner : entry.ownerRow = source.2
  exact : catalog.blobBytes entry.detailBlob = .ok source.1.detail.bytes
  borrowed : detailRowBit ≤ entry.detailBlob ↔ source.2 < detailRowBit ∧ source.1.detail.bytes.all isPlain

/-- With the blobs limited to 4 GiB, no blob has an id that looks like a row. -/
theorem BuildState.DetailKept.reads {catalog : NormalizedCatalog} {entry : SemanticRow} {source : SemanticEvent × ℕ}
    {payloads blobs : List (List UInt8)} {maxPayload maxBlob : ℕ} (hlimit : maxBlob ≤ 2 ^ 32)
    (hpayloads : catalog.payloads.Holds maxPayload payloads) (hblobs : catalog.blobs.Holds maxBlob blobs)
    (h : DetailKept catalog.events payloads blobs entry source) : catalog.ReadsDetail entry source := by
  obtain ⟨howner, hkept⟩ := h
  split_ifs at hkept with hplain
  · obtain ⟨hid, column, bytes, hcolumn, hbytes, hliteral⟩ := hkept
    refine ⟨howner, ?_, iff_of_true (by omega) hplain⟩
    rw [NormalizedCatalog.blobBytes, if_pos (by omega), hid, Nat.add_sub_cancel_left, NormalizedCatalog.detailBytes,
      hcolumn]
    exact bind_eq_ok.mpr ⟨bytes, hpayloads.get hbytes, by rw [hliteral]⟩
  · have hcount := hblobs.length_le
    have hid := (List.getElem?_eq_some_iff.mp hkept).1
    have hlt : entry.detailBlob < detailRowBit := by
      rw [detailRowBit]
      omega
    refine ⟨howner, ?_, iff_of_false (by omega) hplain⟩
    rw [NormalizedCatalog.blobBytes, if_neg (by omega), hblobs.get hkept]

theorem buildStore_ok {options : BuildOptions} {output : ProviderOutput} {store : TraceStore}
    (h : buildStore options output = .ok store) :
    ∃ st completeness indexes, output.events.foldlM BuildState.append (.new options) = .ok st ∧
      store.catalog = { st with completeness := completeness }.catalog output.capabilities indexes := by
  obtain ⟨⟨⟩, -, h⟩ := bind_eq_ok.mp h
  obtain ⟨st, hevents, h⟩ := bind_eq_ok.mp h
  obtain ⟨st', hcompleteness, h⟩ := bind_eq_ok.mp h
  obtain ⟨indexes, -, h⟩ := bind_eq_ok.mp h
  unfold BuildState.appendCompleteness at hcompleteness
  dsimp only at hcompleteness
  split at hcompleteness
  · obtain rfl := Except.ok.inj hcompleteness
    split at h
    · obtain rfl := Except.ok.inj h
      exact ⟨st, _, indexes, hevents, rfl⟩
    · cases h
  · cases hcompleteness

/-- A call whose name looks like the field of the detail. -/
def trickyCall : ProviderOutput where
  capabilities := .qtrbRegisterObservations
  events := [.new ⟨[], 0, 0, 0, none, none⟩ .captured (.semanticCall ⟨some ⟨ascii "jni,", by decide⟩,
    ⟨ascii ",\"detail\":\"no\",", by decide⟩, ⟨ascii "yes", by decide⟩, [4, 5]⟩)]
  completeness := []

end QTrace.Store
