import QTrace.Lib.MergeRuns
import QTrace.Lib.RadixSort
import QTrace.Store.Builder

/-! `normalize_completeness`: the ranges a recovery collected are sorted by their canonical
key and merged from left to right. Ranges of one domain and cause but different provenance
can stand between two ranges that touch, so not everything that touches is merged; what
comes out is still a normal form, the one the store asks for. -/

namespace QTrace.Provider

open Analysis (Provenance RangeDomain)

namespace CompletenessRange

def capturedSequenceWithCause (first last : UInt64) (provenance : Provenance) (cause : CompletenessCause) :
    Option CompletenessRange :=
  if h : first ≤ last then
    some ⟨.capturedSequence, .inclusiveSequence first last, provenance, cause, by simpa [RangeBounds.fits] using h⟩
  else none

def sourceBytesWithCause (start endExclusive : UInt64) (provenance : Provenance) (cause : CompletenessCause) :
    Option CompletenessRange :=
  if h : start ≤ endExclusive then
    some ⟨.sourceBytes, .halfOpen start endExclusive, provenance, cause, by simpa [RangeBounds.fits] using h⟩
  else none

def memoryAddressesWithCause (start endExclusive : UInt64) (provenance : Provenance) (cause : CompletenessCause) :
    Option CompletenessRange :=
  if h : start ≤ endExclusive then
    some ⟨.memoryAddresses, .halfOpen start endExclusive, provenance, cause, by simpa [RangeBounds.fits] using h⟩
  else none

def contains (range : CompletenessRange) (coordinate : UInt64) : Bool :=
  match range.bounds with
  | .inclusiveSequence first last => first ≤ coordinate ∧ coordinate ≤ last
  | .halfOpen start endExclusive => start ≤ coordinate ∧ coordinate < endExclusive

end CompletenessRange

/-- `u64::saturating_add` of one. -/
def saturatingSucc (value : UInt64) : UInt64 := if value = UInt64.ofNat (2 ^ 64 - 1) then value else value + 1

def mergeCanonicalCompleteness (left right : CompletenessRange) : Option CompletenessRange :=
  if left.domain ≠ right.domain ∨ left.cause ≠ right.cause ∨ left.provenance ≠ right.provenance then none
  else
    match left.bounds, right.bounds with
    | .inclusiveSequence leftFirst leftLast, .inclusiveSequence rightFirst rightLast =>
      if rightFirst ≤ saturatingSucc leftLast then
        CompletenessRange.capturedSequenceWithCause leftFirst (max leftLast rightLast) left.provenance left.cause
      else none
    | .halfOpen leftStart leftEnd, .halfOpen rightStart rightEnd =>
      if rightStart ≤ leftEnd then
        match left.domain with
        | .sourceBytes =>
          CompletenessRange.sourceBytesWithCause leftStart (max leftEnd rightEnd) left.provenance left.cause
        | .memoryAddresses =>
          CompletenessRange.memoryAddressesWithCause leftStart (max leftEnd rightEnd) left.provenance left.cause
        | .capturedSequence => none
      else none
    | _, _ => none

end QTrace.Provider

namespace QTrace.Flight

open Lib Provider Store
open Analysis (Provenance RangeDomain)

/-- `completeness_byte`; the passes go from the provenance up to the domain. -/
def completenessByte (pass : ℕ) (range : CompletenessRange) : ℕ :=
  let (domain, cause, first, last, provenance) := canonicalKey range
  if pass = 0 then provenance
  else if pass ≤ 8 then last / 256 ^ (pass - 1) % 256
  else if pass ≤ 16 then first / 256 ^ (pass - 9) % 256
  else if pass = 17 then cause
  else domain

def normalizeCompleteness (ranges : List CompletenessRange) : List CompletenessRange :=
  mergeRuns mergeCanonicalCompleteness (RadixSort.radixSort completenessByte 19 ranges)

/-- The first bound of a range. -/
def low (range : CompletenessRange) : ℕ := (canonicalKey range).2.2.1

/-- The second bound of a range. -/
def high (range : CompletenessRange) : ℕ := (canonicalKey range).2.2.2.1

/-- Inclusive ranges reach one further than their second bound says. -/
def slack : RangeDomain → ℕ
  | .capturedSequence => 1
  | _ => 0

section

variable (range : CompletenessRange)

theorem canonicalKey_eq : canonicalKey range =
    (domainOrder range.domain, causeOrder range.cause, low range, high range, provenanceOrder range.provenance) := rfl

theorem range_cases :
    (∃ first last : UInt64, range.domain = .capturedSequence ∧ range.bounds = .inclusiveSequence first last ∧
      first ≤ last) ∨
    ∃ start stop : UInt64, range.domain ≠ .capturedSequence ∧ range.bounds = .halfOpen start stop ∧ start ≤ stop := by
  obtain ⟨domain, bounds, provenance, cause, fits⟩ := range
  cases bounds with
  | inclusiveSequence first last =>
    cases domain with
    | capturedSequence => exact Or.inl ⟨first, last, rfl, rfl, by simpa [RangeBounds.fits] using fits⟩
    | sourceBytes | memoryAddresses => simp [RangeBounds.fits] at fits
  | halfOpen start stop =>
    cases domain with
    | capturedSequence => simp [RangeBounds.fits] at fits
    | sourceBytes | memoryAddresses => exact Or.inr ⟨start, stop, by simp, rfl, by simpa [RangeBounds.fits] using fits⟩

theorem low_le_high : low range ≤ high range := by
  obtain ⟨first, last, -, hbounds, hle⟩ | ⟨start, stop, -, hbounds, hle⟩ := range_cases range
  all_goals simpa [low, high, canonicalKey, hbounds] using UInt64.le_iff_toNat_le.1 hle

theorem high_lt : high range < 2 ^ 64 := by
  obtain ⟨first, last, -, hbounds, -⟩ | ⟨start, stop, -, hbounds, -⟩ := range_cases range
  · simpa [high, canonicalKey, hbounds] using last.toNat_lt
  · simpa [high, canonicalKey, hbounds] using stop.toNat_lt

end

variable {a b : CompletenessRange} {ranges : List CompletenessRange}

theorem range_ext (hdomain : a.domain = b.domain) (hcause : a.cause = b.cause)
    (hprovenance : a.provenance = b.provenance) (hlow : low a = low b) (hhigh : high a = high b) : a = b := by
  have hbounds : a.bounds = b.bounds := by
    obtain ⟨f, l, ha, hab, -⟩ | ⟨f, l, ha, hab, -⟩ := range_cases a <;>
    obtain ⟨f', l', hb, hbb, -⟩ | ⟨f', l', hb, hbb, -⟩ := range_cases b
    · simp only [low, high, canonicalKey, hab, hbb, UInt64.toNat_inj] at hlow hhigh
      rw [hab, hbb, hlow, hhigh]
    · exact absurd (hdomain.symm.trans ha) hb
    · exact absurd (hdomain.trans hb) ha
    · simp only [low, high, canonicalKey, hab, hbb, UInt64.toNat_inj] at hlow hhigh
      rw [hab, hbb, hlow, hhigh]
  obtain ⟨domain, bounds, provenance, cause, fits⟩ := a
  obtain ⟨domain', bounds', provenance', cause', fits'⟩ := b
  simp only at hdomain hcause hprovenance hbounds
  subst hdomain hcause hprovenance hbounds
  rfl

theorem contains_iff (range : CompletenessRange) (coordinate : UInt64) :
    range.contains coordinate = true ↔ low range ≤ coordinate.toNat ∧ coordinate.toNat < high range + slack range.domain := by
  obtain ⟨first, last, hdomain, hbounds, -⟩ | ⟨start, stop, hdomain, hbounds, -⟩ := range_cases range
  · simp only [CompletenessRange.contains, hbounds, low, high, canonicalKey, hdomain, slack, decide_eq_true_eq,
      UInt64.le_iff_toNat_le, Nat.lt_succ_iff]
  · have hslack : slack range.domain = 0 := by
      cases hd : range.domain <;> first | exact absurd hd hdomain | rfl
    simp only [CompletenessRange.contains, hbounds, low, high, canonicalKey, hslack, decide_eq_true_eq,
      UInt64.le_iff_toNat_le, UInt64.lt_iff_toNat_lt, Nat.add_zero]

/-- The two ranges are of one class. -/
structure SameClass (a b : CompletenessRange) : Prop where
  domain : a.domain = b.domain
  cause : a.cause = b.cause
  provenance : a.provenance = b.provenance

/-- `m` runs from the first bound of `a` to the farther second bound. -/
structure Spans (a b m : CompletenessRange) : Prop where
  same : SameClass a m
  low : low m = low a
  high : high m = max (high a) (high b)

theorem saturatingSucc_iff {a b : UInt64} : a ≤ saturatingSucc b ↔ a.toNat ≤ b.toNat + 1 := by
  have ha := a.toNat_lt
  have hb := b.toNat_lt
  unfold saturatingSucc
  split_ifs with hmax
  · rw [hmax, UInt64.le_iff_toNat_le]
    simp only [UInt64.toNat_ofNat']
    omega
  · have hne : b.toNat ≠ 2 ^ 64 - 1 := fun h => hmax (UInt64.toNat_inj.1 (by simpa using h))
    rw [UInt64.le_iff_toNat_le, UInt64.toNat_add]
    simp only [UInt64.toNat_ofNat]
    omega

theorem le_max_of_le {a b c : UInt64} (h : a ≤ b) : a ≤ max b c := by
  rw [UInt64.le_iff_toNat_le] at h ⊢
  rw [UInt64.toNat_max]
  exact h.trans (le_max_left _ _)

/-- Merging succeeds exactly for ranges of one class where the second starts in reach of the first. -/
theorem merge_spec (a b : CompletenessRange) :
    (SameClass a b ∧ low b ≤ high a + slack a.domain ∧
      ∃ m, mergeCanonicalCompleteness a b = some m ∧ Spans a b m) ∨
    (¬ (SameClass a b ∧ low b ≤ high a + slack a.domain) ∧ mergeCanonicalCompleteness a b = none) := by
  by_cases hclass : SameClass a b
  · have hguard : ¬ (a.domain ≠ b.domain ∨ a.cause ≠ b.cause ∨ a.provenance ≠ b.provenance) := by
      simp [hclass.domain, hclass.cause, hclass.provenance]
    obtain ⟨f, l, ha, hab, hale⟩ | ⟨f, l, ha, hab, hale⟩ := range_cases a <;>
    obtain ⟨f', l', hb, hbb, hble⟩ | ⟨f', l', hb, hbb, hble⟩ := range_cases b
    · have hreach : low b ≤ high a + slack a.domain ↔ f' ≤ saturatingSucc l := by
        simp [low, high, canonicalKey, hab, hbb, ha, slack, saturatingSucc_iff]
      rw [mergeCanonicalCompleteness, if_neg hguard, hab, hbb, hreach]
      by_cases htouch : f' ≤ saturatingSucc l
      · refine Or.inl ⟨hclass, htouch, _, (if_pos htouch).trans (dif_pos (le_max_of_le hale)), ?_⟩
        exact ⟨⟨ha, rfl, rfl⟩, by simp [low, canonicalKey, hab], by simp [high, canonicalKey, hab, hbb, UInt64.toNat_max]⟩
      · exact Or.inr ⟨fun h => htouch h.2, if_neg htouch⟩
    · exact absurd (hclass.domain.symm.trans ha) hb
    · exact absurd (hclass.domain.trans hb) ha
    · have hslack : slack a.domain = 0 := by
        cases hd : a.domain <;> first | exact absurd hd ha | rfl
      have hreach : low b ≤ high a + slack a.domain ↔ f' ≤ l := by
        simp [low, high, canonicalKey, hab, hbb, hslack, UInt64.le_iff_toNat_le]
      rw [mergeCanonicalCompleteness, if_neg hguard, hab, hbb, hreach]
      by_cases htouch : f' ≤ l
      · cases hd : a.domain with
        | capturedSequence => exact absurd hd ha
        | sourceBytes | memoryAddresses =>
          refine Or.inl ⟨hclass, htouch, _, (if_pos htouch).trans (dif_pos (le_max_of_le hale)), ?_⟩
          exact ⟨⟨hd, rfl, rfl⟩, by simp [low, canonicalKey, hab], by simp [high, canonicalKey, hab, hbb, UInt64.toNat_max]⟩
      · exact Or.inr ⟨fun h => htouch h.2, if_neg htouch⟩
  · refine Or.inr ⟨fun h => hclass h.1, ?_⟩
    rw [mergeCanonicalCompleteness, if_pos]
    by_contra hguard
    simp only [not_or, not_not] at hguard
    exact hclass ⟨hguard.1, hguard.2.1, hguard.2.2⟩

/-- The canonical key as one number. -/
def rank (range : CompletenessRange) : ℕ :=
  provenanceOrder range.provenance + 256 * (high range + 2 ^ 64 * (low range + 2 ^ 64 *
    (causeOrder range.cause + 256 * domainOrder range.domain)))

theorem provenanceOrder_lt (provenance : Provenance) : provenanceOrder provenance < 256 := by
  cases provenance <;> decide

theorem causeOrder_lt (cause : CompletenessCause) : causeOrder cause < 256 := by
  cases cause <;> decide

theorem domainOrder_lt (domain : RangeDomain) : domainOrder domain < 256 := by
  cases domain <;> decide

theorem low_lt (range : CompletenessRange) : low range < 2 ^ 64 := (low_le_high range).trans_lt (high_lt range)

theorem completenessByte_eq (pass : ℕ) (range : CompletenessRange) : completenessByte pass range =
    if pass = 0 then provenanceOrder range.provenance
    else if pass ≤ 8 then high range / 256 ^ (pass - 1) % 256
    else if pass ≤ 16 then low range / 256 ^ (pass - 9) % 256
    else if pass = 17 then causeOrder range.cause
    else domainOrder range.domain := rfl

theorem completenessByte_lt (pass : ℕ) (range : CompletenessRange) : completenessByte pass range < 256 := by
  rw [completenessByte_eq]
  split_ifs
  · exact provenanceOrder_lt _
  · exact Nat.mod_lt _ (by decide)
  · exact Nat.mod_lt _ (by decide)
  · exact causeOrder_lt _
  · exact domainOrder_lt _

theorem keyValue_completenessByte (range : CompletenessRange) :
    RadixSort.keyValue 256 completenessByte 19 range = rank range := by
  rw [show 19 = 1 + (8 + (8 + 2)) from rfl, RadixSort.keyValue_add, RadixSort.keyValue_add, RadixSort.keyValue_add,
    RadixSort.keyValue_eq (show high range < 256 ^ 8 from high_lt range) fun i hi => ?_,
    RadixSort.keyValue_eq (show low range < 256 ^ 8 from low_lt range) fun i hi => ?_]
  · simp only [RadixSort.keyValue, completenessByte_eq]
    norm_num [rank]
    ring
  · rw [completenessByte_eq, if_neg (by omega), if_neg (by omega), if_pos (by omega), ← Nat.add_assoc,
      Nat.add_sub_cancel_left]
  · rw [completenessByte_eq, if_neg (by omega), if_pos (by omega), Nat.add_sub_cancel_left]

theorem sorted_pairwise (ranges : List CompletenessRange) :
    (RadixSort.radixSort completenessByte 19 ranges).Pairwise fun a b => rank a ≤ rank b := by
  have hsorted := RadixSort.radixSort_pairwise completenessByte_lt 19 ranges
  simpa only [keyValue_completenessByte] using hsorted

theorem mem_sorted {range : CompletenessRange} :
    range ∈ RadixSort.radixSort completenessByte 19 ranges ↔ range ∈ ranges :=
  (RadixSort.radixSort_perm completenessByte_lt 19 ranges).mem_iff

theorem domainOrder_injective : Function.Injective domainOrder := by
  intro a b h
  cases a <;> cases b <;> first | rfl | cases h

theorem causeOrder_injective : Function.Injective causeOrder := by
  intro a b h
  cases a <;> cases b <;> first | rfl | cases h

theorem provenanceOrder_injective : Function.Injective provenanceOrder := by
  intro a b h
  cases a <;> cases b <;> first | rfl | cases h

theorem digits_lt (a : CompletenessRange) : high a < 2 ^ 64 ∧ low a < 2 ^ 64 ∧
    provenanceOrder a.provenance < 256 ∧ causeOrder a.cause < 256 :=
  ⟨high_lt a, low_lt a, provenanceOrder_lt _, causeOrder_lt _⟩

theorem rank_injective : Function.Injective rank := by
  intro a b h
  have ha := digits_lt a
  have hb := digits_lt b
  unfold rank at h
  apply range_ext
  · exact domainOrder_injective (by omega)
  · exact causeOrder_injective (by omega)
  · exact provenanceOrder_injective (by omega)
  · omega
  · omega

theorem rank_le_iff (h : SameClass a b) :
    rank a ≤ rank b ↔ low a < low b ∨ low a = low b ∧ high a ≤ high b := by
  have ha := high_lt a
  have hb := high_lt b
  unfold rank
  rw [h.domain, h.cause, h.provenance]
  omega

theorem SameClass.symm (h : SameClass a b) : SameClass b a :=
  ⟨h.domain.symm, h.cause.symm, h.provenance.symm⟩

theorem SameClass.trans {c : CompletenessRange} (h : SameClass a b) (h' : SameClass b c) : SameClass a c :=
  ⟨h.domain.trans h'.domain, h.cause.trans h'.cause, h.provenance.trans h'.provenance⟩

variable {m : CompletenessRange}

theorem merge_eq_some (h : mergeCanonicalCompleteness a b = some m) :
    SameClass a b ∧ low b ≤ high a + slack a.domain ∧ Spans a b m := by
  obtain ⟨hclass, hreach, m', hm', hspans⟩ | ⟨-, hnone⟩ := merge_spec a b
  · rw [hm', Option.some.injEq] at h
    exact ⟨hclass, hreach, h ▸ hspans⟩
  · rw [hnone] at h
    cases h

theorem merge_eq_none_iff :
    mergeCanonicalCompleteness a b = none ↔ ¬ (SameClass a b ∧ low b ≤ high a + slack a.domain) := by
  obtain ⟨hclass, hreach, m, hm, -⟩ | ⟨hapart, hnone⟩ := merge_spec a b
  · simp [hm, hclass, hreach]
  · simp [hnone, hapart]

/-- Merging yields `m` as soon as `m` has the right parts. -/
theorem merge_of_spans (hclass : SameClass a b) (hreach : low b ≤ high a + slack a.domain) (hspans : Spans a b m) :
    mergeCanonicalCompleteness a b = some m := by
  obtain ⟨-, -, m', hm', hspans'⟩ | ⟨hapart, -⟩ := merge_spec a b
  · rw [hm', Option.some.injEq]
    have hsame := hspans'.same.symm.trans hspans.same
    exact range_ext hsame.domain hsame.cause hsame.provenance (hspans'.low.trans hspans.low.symm)
      (hspans'.high.trans hspans.high.symm)
  · exact absurd ⟨hclass, hreach⟩ hapart

theorem completenessLaws : MergeLaws rank mergeCanonicalCompleteness where
  key_injective := rank_injective
  self x := by
    apply merge_of_spans ⟨rfl, rfl, rfl⟩
    · exact (low_le_high x).trans (Nat.le_add_right _ _)
    · exact ⟨⟨rfl, rfl, rfl⟩, rfl, (max_self _).symm⟩
  absorbs {x y m} h := by
    obtain ⟨hclass, hreach, hspans⟩ := merge_eq_some h
    have hhigh := hspans.high
    apply merge_of_spans (hspans.same.symm.trans hclass)
    · rw [← hspans.same.domain]
      omega
    · exact ⟨⟨rfl, rfl, rfl⟩, rfl, by omega⟩
  le_merged {x y m} _ h := by
    obtain ⟨-, -, hspans⟩ := merge_eq_some h
    have hlow := hspans.low
    have hhigh := hspans.high
    rw [rank_le_iff hspans.same]
    omega
  merged_le {x y m} hle h := by
    obtain ⟨hclass, -, hspans⟩ := merge_eq_some h
    have hlow := hspans.low
    have hhigh := hspans.high
    rw [rank_le_iff hclass] at hle
    rw [rank_le_iff (hspans.same.symm.trans hclass)]
    omega
  front {p x y m} h hapart := by
    obtain ⟨-, -, hspans⟩ := merge_eq_some h
    rw [merge_eq_none_iff] at hapart ⊢
    rw [hspans.low]
    exact fun hm => hapart ⟨hm.1.trans hspans.same.symm, hm.2⟩

theorem normal_normalizeCompleteness (ranges : List CompletenessRange) :
    MergeLaws.Normal rank mergeCanonicalCompleteness (normalizeCompleteness ranges) :=
  completenessLaws.normal_mergeRuns (sorted_pairwise ranges)

/-- The points of a class that a range covers. -/
def Covers (range : CompletenessRange) (point : RangeDomain × CompletenessCause × Provenance × UInt64) : Prop :=
  range.domain = point.1 ∧ range.cause = point.2.1 ∧ range.provenance = point.2.2.1 ∧
    range.contains point.2.2.2 = true

theorem covers_merge (hle : rank a ≤ rank b) (h : mergeCanonicalCompleteness a b = some m)
    (point : RangeDomain × CompletenessCause × Provenance × UInt64) :
    Covers m point ↔ Covers a point ∨ Covers b point := by
  obtain ⟨hclass, hreach, hspans⟩ := merge_eq_some h
  have hlow := hspans.low
  have hhigh := hspans.high
  rw [rank_le_iff hclass] at hle
  simp only [Covers, contains_iff, ← hspans.same.domain, ← hspans.same.cause, ← hspans.same.provenance,
    ← hclass.domain, ← hclass.cause, ← hclass.provenance, ← and_or_left]
  apply and_congr_right'
  apply and_congr_right'
  apply and_congr_right'
  omega

theorem compareLex_of_eq {α : Type*} {cmp cmp' : α → α → Ordering} {a b : α} (h : cmp a b = .eq) :
    compareLex cmp cmp' a b = cmp' a b := by
  rw [compareLex, h]
  rfl

theorem compareLex_of_lt {α : Type*} {cmp cmp' : α → α → Ordering} {a b : α} (h : cmp a b = .lt) :
    compareLex cmp cmp' a b = .lt := by
  rw [compareLex, h]
  rfl

theorem keyOrdering_of_rank_lt (h : rank a < rank b) : keyOrdering (canonicalKey a) (canonicalKey b) = .lt := by
  have ha := digits_lt a
  have hb := digits_lt b
  unfold rank at h
  rw [canonicalKey_eq, canonicalKey_eq, keyOrdering]
  obtain hdomain | hdomain : domainOrder a.domain < domainOrder b.domain ∨ domainOrder a.domain = domainOrder b.domain := by
    omega
  · exact compareLex_of_lt (Nat.compare_eq_lt.2 hdomain)
  refine Eq.trans (compareLex_of_eq (Nat.compare_eq_eq.2 hdomain)) ?_
  obtain hcause | hcause : causeOrder a.cause < causeOrder b.cause ∨ causeOrder a.cause = causeOrder b.cause := by
    omega
  · exact compareLex_of_lt (Nat.compare_eq_lt.2 hcause)
  refine Eq.trans (compareLex_of_eq (Nat.compare_eq_eq.2 hcause)) ?_
  obtain hlow | hlow : low a < low b ∨ low a = low b := by omega
  · exact compareLex_of_lt (Nat.compare_eq_lt.2 hlow)
  refine Eq.trans (compareLex_of_eq (Nat.compare_eq_eq.2 hlow)) ?_
  obtain hhigh | hhigh : high a < high b ∨ high a = high b := by omega
  · exact compareLex_of_lt (Nat.compare_eq_lt.2 hhigh)
  refine Eq.trans (compareLex_of_eq (Nat.compare_eq_eq.2 hhigh)) ?_
  exact Nat.compare_eq_lt.2 (show provenanceOrder a.provenance < provenanceOrder b.provenance by omega)

@[simp] theorem toRange_fromRange (range : CompletenessRange) :
    (CompletenessRow.fromRange range).toRange = some range := by
  simp [CompletenessRow.fromRange, CompletenessRow.toRange, range.fits]

theorem sameClass_fromRange : sameClass (.fromRange a) (.fromRange b) = true ↔ SameClass a b := by
  simp only [sameClass, CompletenessRow.fromRange, Bool.and_eq_true, beq_iff_eq]
  exact ⟨fun h => ⟨h.1.1, h.1.2, h.2⟩, fun h => ⟨⟨h.domain, h.cause⟩, h.provenance⟩⟩

/-- The store's test on neighbours of one class is the reach that merging asks for. -/
theorem touchOrOverlap_fromRange (h : SameClass a b) :
    touchOrOverlap (.fromRange a) (.fromRange b) = .ok (decide (low b ≤ high a + slack a.domain)) := by
  obtain ⟨f, l, ha, hab, -⟩ | ⟨f, l, ha, hab, -⟩ := range_cases a <;>
  obtain ⟨f', l', hb, hbb, -⟩ | ⟨f', l', hb, hbb, -⟩ := range_cases b
  · simp [touchOrOverlap, CompletenessRow.fromRange, hab, hbb, low, high, canonicalKey, ha, slack]
  · exact absurd (h.domain.symm.trans ha) hb
  · exact absurd (h.domain.trans hb) ha
  · have hslack : slack a.domain = 0 := by
      cases hd : a.domain <;> first | exact absurd hd ha | rfl
    simp [touchOrOverlap, CompletenessRow.fromRange, hab, hbb, low, high, canonicalKey, hslack,
      UInt64.le_iff_toNat_le]

/-- Normal forms pass the store's check on neighbours. -/
theorem checkNeighbours_normal (h : MergeLaws.Normal rank mergeCanonicalCompleteness ranges) :
    checkNeighbours (ranges.map .fromRange) = .ok () := by
  obtain ⟨hsorted, hchain⟩ := h
  induction ranges with
  | nil => rfl
  | cons a ranges ih =>
    cases ranges with
    | nil => rfl
    | cons b ranges =>
      have ih := ih hsorted.of_cons hchain.of_cons
      have hlt : rank a < rank b := (List.pairwise_cons.1 hsorted).1 b (by simp)
      have hapart := merge_eq_none_iff.1 (List.isChain_cons_cons.1 hchain).1
      have horder : compareCompletenessRows (.fromRange a) (.fromRange b) = .lt := by
        simp [compareCompletenessRows, keyOrdering_of_rank_lt hlt]
      rw [List.map_cons, List.map_cons, checkNeighbours]
      refine (failIf_bind (decide_eq_false (by simp [horder])) _).trans ?_
      by_cases hclass : SameClass a b
      · rw [if_pos (sameClass_fromRange.2 hclass), touchOrOverlap_fromRange hclass]
        exact (failIf_bind (decide_eq_false fun hreach => hapart ⟨hclass, hreach⟩) _).trans ih
      · rw [if_neg fun hsame => hclass (sameClass_fromRange.1 hsame)]
        exact ih

theorem validateCompletenessRows_normal (h : MergeLaws.Normal rank mergeCanonicalCompleteness ranges) :
    validateCompletenessRows (ranges.map .fromRange) = .ok () := by
  have hrows : (ranges.map CompletenessRow.fromRange).any (fun row => row.toRange.isNone) = false := by
    simp [List.any_eq_false]
  exact (failIf_bind hrows _).trans (checkNeighbours_normal h)

theorem normalizeCompleteness_congr {others : List CompletenessRange} (h : ∀ r, r ∈ ranges ↔ r ∈ others) :
    normalizeCompleteness ranges = normalizeCompleteness others := by
  apply completenessLaws.mergeRuns_congr (sorted_pairwise ranges) (sorted_pairwise others)
  intro r
  rw [mem_sorted, mem_sorted, h]

/-- A list in normal form is sorted already, and nothing in it is merged. -/
theorem normalizeCompleteness_of_normal (h : MergeLaws.Normal rank mergeCanonicalCompleteness ranges) :
    normalizeCompleteness ranges = ranges := by
  have hperm := RadixSort.radixSort_perm completenessByte_lt 19 ranges
  have hsort : RadixSort.radixSort completenessByte 19 ranges = ranges :=
    hperm.eq_of_pairwise (fun a b _ _ hab hba => rank_injective (le_antisymm hab hba)) (sorted_pairwise ranges)
      (h.sorted.imp le_of_lt)
  rw [normalizeCompleteness, hsort, MergeLaws.mergeRuns_of_unmergeable h.unmergeable]

/-- Normalisation is canonical: the store accepts the result, the result depends only on
which ranges there are, normalising again changes nothing, and in every class exactly the
points of the input are covered. -/
theorem normalizeCompleteness_canonical (ranges : List CompletenessRange) :
    validateCompletenessRows ((normalizeCompleteness ranges).map .fromRange) = .ok () ∧
      (∀ others : List CompletenessRange, (∀ r, r ∈ others ↔ r ∈ ranges) →
        normalizeCompleteness others = normalizeCompleteness ranges) ∧
      normalizeCompleteness (normalizeCompleteness ranges) = normalizeCompleteness ranges ∧
      ∀ (domain : RangeDomain) (cause : CompletenessCause) (provenance : Provenance) (coordinate : UInt64),
        (∃ r ∈ normalizeCompleteness ranges, r.domain = domain ∧ r.cause = cause ∧ r.provenance = provenance ∧
          r.contains coordinate = true) ↔
        ∃ r ∈ ranges, r.domain = domain ∧ r.cause = cause ∧ r.provenance = provenance ∧
          r.contains coordinate = true := by
  have hnormal := normal_normalizeCompleteness ranges
  refine ⟨validateCompletenessRows_normal hnormal, fun others h => normalizeCompleteness_congr h,
    normalizeCompleteness_of_normal hnormal, fun domain cause provenance coordinate => ?_⟩
  have hcovered := completenessLaws.covered_mergeRuns Covers covers_merge (sorted_pairwise ranges)
    (domain, cause, provenance, coordinate)
  simp only [Covers, mem_sorted] at hcovered
  exact hcovered

/-- Ranges of two provenances that interleave stay apart, also where they touch. -/
example :
    let touching (provenance : Provenance) (first last : UInt64) (h : first ≤ last) : CompletenessRange :=
      ⟨.capturedSequence, .inclusiveSequence first last, provenance, .lost, by simpa [RangeBounds.fits] using h⟩
    let a := touching .damaged 1 5 (by decide)
    let b := touching .unknown 2 3 (by decide)
    let c := touching .damaged 6 8 (by decide)
    normalizeCompleteness [c, b, a, a] = [a, b, c] ∧
      normalizeCompleteness [c, a, a] = [touching .damaged 1 8 (by decide)] := by
  decide +kernel

end QTrace.Flight
