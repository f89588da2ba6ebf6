import QTrace.Flight.Completeness

/-! Which sequence numbers an artifact lost. `add_sequence_completeness` walks the retained
records and the sorted damage ranges side by side and reports, between the first and the
last number anybody declares, every run that is neither retained nor damaged. A cursor
behind the largest 64-bit number is no cursor at all. -/

namespace QTrace.Flight

open Lib Provider
open Analysis (Provenance RangeDomain)

/-- `SequenceRange`; the reader builds none that is not in order. -/
structure SequenceRange where
  first : UInt64
  last : UInt64
  ordered : first ≤ last
  deriving DecidableEq

/-- `PhysicalRecord`: a recovered record before it is decoded. Every one has a sequence. -/
structure PhysicalRecord where
  recordOrdinal : ℕ
  sourceOffset : ℕ
  sequence : UInt64
  tid : UInt32
  scope : EventScope
  raw : OpaqueOptionalRecord
  deriving DecidableEq

inductive ProofCoordinate where
  | source (offset : ℕ)
  | eof
  deriving DecidableEq

structure SequenceFact where
  range : SequenceRange
  coordinate : ProofCoordinate
  deriving DecidableEq

structure MissingRange where
  range : SequenceRange
  cause : CompletenessCause
  deriving DecidableEq

structure RecoveryStatus where
  flags : ℕ
  hasDamage : Bool
  hasIncomplete : Bool
  deriving DecidableEq

/-- `u64::checked_add` of one. -/
def checkedSucc (value : UInt64) : Option UInt64 := if value = UInt64.ofNat (2 ^ 64 - 1) then none else some (value + 1)

theorem checkedSucc_eq_some {a b : UInt64} : checkedSucc a = some b ↔ b.toNat = a.toNat + 1 := by
  have ha := a.toNat_lt
  have hb := b.toNat_lt
  unfold checkedSucc
  split_ifs with hmax
  · rw [hmax]
    simp only [UInt64.toNat_ofNat', false_iff]
    omega
  · have hne : a.toNat ≠ 2 ^ 64 - 1 := fun h => hmax (UInt64.toNat_inj.1 (by simpa using h))
    rw [Option.some.injEq, ← UInt64.toNat_inj, UInt64.toNat_add]
    simp only [UInt64.toNat_ofNat]
    omega

theorem le_of_checkedSucc {a b : UInt64} (h : checkedSucc a = some b) : a ≤ b := by
  rw [checkedSucc_eq_some] at h
  rw [UInt64.le_iff_toNat_le]
  omega

theorem toNat_pred {a b : UInt64} (h : a < b) : (b - 1).toNat = b.toNat - 1 := by
  rw [UInt64.lt_iff_toNat_lt] at h
  rw [UInt64.toNat_sub_of_le]
  · rfl
  · rw [UInt64.le_iff_toNat_le]
    simp only [UInt64.toNat_ofNat]
    omega

theorem le_pred {a b : UInt64} (h : a < b) : a ≤ b - 1 := by
  have hpred := toNat_pred h
  rw [UInt64.lt_iff_toNat_lt] at h
  rw [UInt64.le_iff_toNat_le]
  omega

/-- The state of the sweep: what it reported, the damage ranges still to come and the next
number to account for. -/
structure Sweep where
  missing : List MissingRange
  damage : List SequenceRange
  cursor : Option UInt64

/-- The run up to a damage range or a record, if there is one. -/
def missingRun (current next : UInt64) (cause : CompletenessCause) : List MissingRange :=
  if h : current < next then [⟨⟨current, next - 1, le_pred h⟩, cause⟩] else []

/-- The loop of `add_missing_without_damage`; the damage index is the list that is left. -/
def sweepDamage (last : UInt64) (cause : CompletenessCause) : List SequenceRange → Option UInt64 → Sweep
  | [], cursor => ⟨[], [], cursor⟩
  | damage :: rest, none => ⟨[], damage :: rest, none⟩
  | damage :: rest, some current =>
    if damage.last < current then sweepDamage last cause rest (some current)
    else if last < damage.first then ⟨[], damage :: rest, some current⟩
    else if last < damage.last then
      ⟨missingRun current damage.first cause, damage :: rest, checkedSucc damage.last⟩
    else
      let swept := sweepDamage last cause rest (checkedSucc damage.last)
      { swept with missing := missingRun current damage.first cause ++ swept.missing }

/-- `add_missing_without_damage`: the ranges it reports and the damage ranges left. -/
def addMissingWithoutDamage (first last : UInt64) (damage : List SequenceRange) (cause : CompletenessCause) :
    List MissingRange × List SequenceRange :=
  let swept := sweepDamage last cause damage (some first)
  match swept.cursor with
  | none => (swept.missing, swept.damage)
  | some current =>
    if h : current ≤ last then (swept.missing ++ [⟨⟨current, last, h⟩, cause⟩], swept.damage)
    else (swept.missing, swept.damage)

/-- The loop of `add_sequence_completeness` over the records. -/
def sweepEvents (last : UInt64) (missingCause : CompletenessCause) :
    List PhysicalRecord → List SequenceRange → Option UInt64 → Sweep
  | [], damage, cursor => ⟨[], damage, cursor⟩
  | _ :: _, damage, none => ⟨[], damage, none⟩
  | event :: events, damage, some current =>
    if event.sequence < current ∨ last < event.sequence then sweepEvents last missingCause events damage (some current)
    else if current < event.sequence then
      let cause := if event.raw.recordType = 15 then .lost else missingCause
      let (missing, damage) := addMissingWithoutDamage current (event.sequence - 1) damage cause
      let swept := sweepEvents last missingCause events damage (checkedSucc event.sequence)
      { swept with missing := missing ++ swept.missing }
    else sweepEvents last missingCause events damage (checkedSucc event.sequence)

/-- The first and the last number that a record or a hint declares. -/
def sequenceBounds (events : List PhysicalRecord) (hints : List SequenceFact) : UInt64 × UInt64 :=
  let first := (events.head?.map (·.sequence)).getD (UInt64.ofNat (2 ^ 64 - 1))
  let last := (events.getLast?.map (·.sequence)).getD 0
  hints.foldl (fun bounds hint => (min bounds.1 hint.range.first, max bounds.2 hint.range.last)) (first, last)

/-- The runs of retained numbers. -/
def retainedRuns : Option SequenceRange → List PhysicalRecord → List SequenceRange
  | none, [] => []
  | some run, [] => [run]
  | none, event :: events => retainedRuns (some ⟨event.sequence, event.sequence, UInt64.le_refl _⟩) events
  | some run, event :: events =>
    if h : checkedSucc run.last = some event.sequence then
      retainedRuns (some ⟨run.first, event.sequence, UInt64.le_trans run.ordered (le_of_checkedSucc h)⟩) events
    else run :: retainedRuns (some ⟨event.sequence, event.sequence, UInt64.le_refl _⟩) events

/-- What `add_sequence_completeness` reports besides the damage ranges. -/
structure SequenceReport where
  retained : List SequenceRange
  missing : List MissingRange

/-- The retained and the missing ranges of `add_sequence_completeness`. -/
def sequenceReport (events : List PhysicalRecord) (hints : List SequenceFact) (damage : List SequenceRange)
    (status : RecoveryStatus) : SequenceReport :=
  if events = [] ∧ hints = [] then ⟨[], []⟩
  else
    let bounds := sequenceBounds events hints
    if bounds.1 = UInt64.ofNat (2 ^ 64 - 1) ∧ bounds.2 = 0 then ⟨[], []⟩
    else
      let missingCause :=
        if status.flags = 0 ∧ status.hasDamage = false ∧ status.hasIncomplete = false then .overwritten else .lost
      let swept := sweepEvents bounds.2 missingCause events damage (some bounds.1)
      let tail := match swept.cursor with
        | none => []
        | some current =>
          if current ≤ bounds.2 then (addMissingWithoutDamage current bounds.2 swept.damage missingCause).1 else []
      ⟨retainedRuns none events, swept.missing ++ tail⟩

/-- The place of a cursor; no cursor stands behind the largest number. -/
def position (cursor : Option UInt64) : ℕ := cursor.elim (2 ^ 64) UInt64.toNat

theorem position_checkedSucc (value : UInt64) : position (checkedSucc value) = value.toNat + 1 := by
  cases h : checkedSucc value with
  | some next =>
    rw [checkedSucc_eq_some] at h
    exact h
  | none =>
    have hmax : value = UInt64.ofNat (2 ^ 64 - 1) := by
      unfold checkedSucc at h
      split_ifs at h with hmax
      exact hmax
    rw [hmax]
    rfl

/-- The range contains the number. -/
def SequenceRange.Covers (range : SequenceRange) (s : ℕ) : Prop := range.first.toNat ≤ s ∧ s ≤ range.last.toNat

theorem SequenceRange.toNat_le (range : SequenceRange) : range.first.toNat ≤ range.last.toNat :=
  UInt64.le_iff_toNat_le.1 range.ordered

/-- Some range of the list contains the number. -/
def Missed (missing : List MissingRange) (s : ℕ) : Prop := ∃ m ∈ missing, m.range.Covers s

def Damaged (damage : List SequenceRange) (s : ℕ) : Prop := ∃ d ∈ damage, d.Covers s

/-- The ranges lie between two places, in order, and no two of them touch. -/
structure Runs (low high : ℕ) (missing : List MissingRange) : Prop where
  inside : ∀ m ∈ missing, low ≤ m.range.first.toNat ∧ m.range.last.toNat + 1 < high
  apart : missing.Pairwise fun m m' => m.range.last.toNat + 1 < m'.range.first.toNat

theorem Runs.nil (low high : ℕ) : Runs low high [] := ⟨by simp, List.Pairwise.nil⟩

variable {high : ℕ}

theorem Runs.append {low middle : ℕ} {xs ys : List MissingRange} (hx : Runs low middle xs)
    (hy : Runs middle high ys) (hlow : low ≤ middle) (hhigh : middle ≤ high) : Runs low high (xs ++ ys) where
  inside m hm := by
    rcases List.mem_append.1 hm with hm | hm
    · have := hx.inside m hm
      omega
    · have := hy.inside m hm
      omega
  apart := by
    refine List.pairwise_append.2 ⟨hx.apart, hy.apart, fun m hm m' hm' => ?_⟩
    have := (hx.inside m hm).2
    have := (hy.inside m' hm').1
    omega

variable {s : ℕ} {missing : List MissingRange}

theorem Runs.not_missed_below {low : ℕ} (h : Runs low high missing) (hs : s < low) : ¬ Missed missing s := by
  rintro ⟨m, hm, hcovers⟩
  have := (h.inside m hm).1
  have := hcovers.1
  omega

theorem Runs.not_missed_above {low : ℕ} (h : Runs low high missing) (hs : high ≤ s + 1) : ¬ Missed missing s := by
  rintro ⟨m, hm, hcovers⟩
  have := (h.inside m hm).2
  have := hcovers.2
  omega

theorem missed_append {xs ys : List MissingRange} : Missed (xs ++ ys) s ↔ Missed xs s ∨ Missed ys s := by
  simp [Missed, or_and_right, exists_or]

variable {d : SequenceRange}

theorem damaged_cons {rest : List SequenceRange} : Damaged (d :: rest) s ↔ d.Covers s ∨ Damaged rest s := by
  simp [Damaged]

theorem damaged_cons_behind {rest : List SequenceRange} (hs : d.last.toNat < s) :
    Damaged (d :: rest) s ↔ Damaged rest s := by
  rw [damaged_cons]
  exact or_iff_right fun hcovers => absurd hcovers.2 (not_le.2 hs)

variable {cause : CompletenessCause} {damage remaining : List SequenceRange} {events : List PhysicalRecord}

theorem missed_missingRun {current next : UInt64} :
    Missed (missingRun current next cause) s ↔ current.toNat ≤ s ∧ s < next.toNat := by
  unfold missingRun
  split_ifs with h
  · have hpred := toNat_pred h
    rw [UInt64.lt_iff_toNat_lt] at h
    simp only [Missed, List.mem_singleton, exists_eq_left, SequenceRange.Covers, hpred]
    omega
  · rw [UInt64.lt_iff_toNat_lt] at h
    simp only [Missed, List.not_mem_nil, false_and, exists_false, false_iff]
    omega

theorem runs_missingRun {current next : UInt64} (h : next.toNat < high) :
    Runs current.toNat high (missingRun current next cause) := by
  unfold missingRun
  split_ifs with hlt
  · have hpred := toNat_pred hlt
    rw [UInt64.lt_iff_toNat_lt] at hlt
    refine ⟨fun m hm => ?_, List.pairwise_singleton _ _⟩
    rw [List.mem_singleton.1 hm]
    dsimp only
    omega
  · exact Runs.nil _ _

theorem last_of_mem_missingRun {current next : UInt64} {m : MissingRange}
    (hm : m ∈ missingRun current next cause) : m.range.last.toNat + 1 = next.toNat := by
  unfold missingRun at hm
  split_ifs at hm with hlt
  · have hpred := toNat_pred hlt
    rw [UInt64.lt_iff_toNat_lt] at hlt
    rw [List.mem_singleton.1 hm]
    dsimp only
    omega
  · cases hm

/-- The damage ranges are sorted by their first number. -/
def SortedDamage (damage : List SequenceRange) : Prop := damage.Pairwise fun d d' => d.first.toNat ≤ d'.first.toNat

theorem not_damaged_of_lt (h : ∀ d ∈ damage, s < d.first.toNat) : ¬ Damaged damage s := by
  rintro ⟨d, hd, hcovers⟩
  have := h d hd
  have := hcovers.1
  omega

/-- A sweep from `low` to `limit`: in front of its cursor it reported exactly what is not
damaged, behind the cursor there is no damage, and damage it dropped lies before the limit. -/
structure DamageSwept (low limit : ℕ) (damage : List SequenceRange) (swept : Sweep) : Prop where
  advances : low ≤ position swept.cursor
  missed_iff : ∀ s, low ≤ s → s ≤ limit → (Missed swept.missing s ↔ s < position swept.cursor ∧ ¬ Damaged damage s)
  clean : ∀ s, position swept.cursor ≤ s → s ≤ limit → ¬ Damaged damage s
  runs : Runs low (position swept.cursor) swept.missing
  inside : ∀ m ∈ swept.missing, m.range.last.toNat ≤ limit
  suffix : swept.damage <:+ damage
  dropped : ∀ d ∈ damage, d ∈ swept.damage ∨ d.last.toNat ≤ limit

theorem DamageSwept.stay {limit : ℕ} (cursor : Option UInt64)
    (h : ∀ s, position cursor ≤ s → s ≤ limit → ¬ Damaged damage s) :
    DamageSwept (position cursor) limit damage ⟨[], damage, cursor⟩ where
  advances := le_rfl
  missed_iff s hlow _ := by
    simp only [Missed, List.not_mem_nil, false_and, exists_false, false_iff]
    omega
  clean := h
  runs := Runs.nil _ _
  inside := by simp
  suffix := List.suffix_rfl
  dropped d hd := Or.inl hd

/-- In front of the first damage range everything is missing. -/
theorem not_damaged_front {damage : SequenceRange} {rest : List SequenceRange}
    (hsorted : SortedDamage (damage :: rest)) (hs : s < damage.first.toNat) :
    ¬ Damaged (damage :: rest) s := by
  apply not_damaged_of_lt
  intro d hd
  rcases List.mem_cons.1 hd with rfl | hd
  · exact hs
  · exact hs.trans_le ((List.pairwise_cons.1 hsorted).1 d hd)

section

variable {current : UInt64} {limit : ℕ} {damage : SequenceRange} {rest : List SequenceRange} {cause : CompletenessCause}

/-- The damage reaches beyond the limit: it ends this sweep and stays for the next. -/
theorem DamageSwept.reach (hsorted : SortedDamage (damage :: rest)) (hcurrent : current.toNat ≤ damage.last.toNat)
    (hfirst : damage.first.toNat ≤ limit) (hover : limit < damage.last.toNat) :
    DamageSwept current.toNat limit (damage :: rest)
      ⟨missingRun current damage.first cause, damage :: rest, checkedSucc damage.last⟩ := by
  have hordered := damage.toNat_le
  have hposition := position_checkedSucc damage.last
  refine ⟨by dsimp only; omega, fun s hlow hlimit => ?_, fun s hs hlimit => ?_, ?_, fun m hm => ?_,
    List.suffix_rfl, fun d hd => Or.inl hd⟩
  · rw [missed_missingRun, hposition]
    constructor
    · rintro ⟨-, hs⟩
      exact ⟨by omega, not_damaged_front hsorted hs⟩
    · rintro ⟨-, hfree⟩
      refine ⟨hlow, not_le.1 fun hs => hfree ?_⟩
      exact damaged_cons.2 (Or.inl ⟨hs, by omega⟩)
  · dsimp only at hs
    omega
  · dsimp only
    rw [hposition]
    exact runs_missingRun (by omega)
  · have hlast := last_of_mem_missingRun hm
    omega

/-- The damage ends within the limit: the sweep goes on behind it. -/
theorem DamageSwept.pass (hsorted : SortedDamage (damage :: rest))
    (hcurrent : current.toNat ≤ damage.last.toNat) (hlast : damage.last.toNat ≤ limit) {swept : Sweep}
    (h : DamageSwept (position (checkedSucc damage.last)) limit rest swept) :
    DamageSwept current.toNat limit (damage :: rest)
      { swept with missing := missingRun current damage.first cause ++ swept.missing } := by
  have hordered := damage.toNat_le
  rw [position_checkedSucc] at h
  have hadvances := h.advances
  have hruns : Runs current.toNat (damage.last.toNat + 1) (missingRun current damage.first cause) :=
    runs_missingRun (by omega)
  refine ⟨by dsimp only; omega, fun s hlow hlimit => ?_, fun s hs hlimit => ?_,
    hruns.append h.runs (by omega) hadvances, fun m hm => ?_, h.suffix.trans (List.suffix_cons _ _), fun d hd => ?_⟩
  · dsimp only
    rw [missed_append, missed_missingRun]
    by_cases hs : damage.last.toNat < s
    · rw [h.missed_iff s hs hlimit, damaged_cons_behind hs]
      exact or_iff_right (by omega)
    · -- in front of the damage, or in it
      constructor
      · rintro (⟨-, hfront⟩ | hmissed)
        · exact ⟨by omega, not_damaged_front hsorted hfront⟩
        · exact absurd hmissed (h.runs.not_missed_below (by omega))
      · rintro ⟨-, hfree⟩
        refine Or.inl ⟨hlow, not_le.1 fun hin => hfree ?_⟩
        exact damaged_cons.2 (Or.inl ⟨hin, by omega⟩)
  · dsimp only at hs
    rw [damaged_cons_behind (by omega)]
    exact h.clean s hs hlimit
  · rcases List.mem_append.1 hm with hm | hm
    · have := last_of_mem_missingRun hm
      omega
    · exact h.inside m hm
  · rcases List.mem_cons.1 hd with rfl | hd
    · exact Or.inr hlast
    · exact h.dropped d hd

end

theorem sweepDamage_swept (last : UInt64) (cause : CompletenessCause) : ∀ (damage : List SequenceRange)
    (cursor : Option UInt64), SortedDamage damage → position cursor ≤ last.toNat + 1 →
    DamageSwept (position cursor) last.toNat damage (sweepDamage last cause damage cursor) := by
  intro damage
  induction damage with
  | nil =>
    intro cursor _ _
    exact DamageSwept.stay cursor fun s _ _ hdamaged => by simp [Damaged] at hdamaged
  | cons damage rest ih =>
    intro cursor hsorted hcursor
    obtain ⟨hfirst, hrest⟩ := List.pairwise_cons.1 hsorted
    have hordered := damage.toNat_le
    cases cursor with
    | none =>
      have hlast := last.toNat_lt
      exact DamageSwept.stay none fun s hs hlimit => by simp only [position, Option.elim_none] at hs; omega
    | some current =>
      simp only [position, Option.elim_some] at hcursor ⊢
      rw [sweepDamage]
      split_ifs with hbefore hbehind hover
      · -- the damage lies before the cursor
        rw [UInt64.lt_iff_toNat_lt] at hbefore
        have hswept := ih (some current) hrest hcursor
        exact {
          advances := hswept.advances
          missed_iff := fun s hlow hlimit => by
            rw [hswept.missed_iff s hlow hlimit, damaged_cons_behind (hbefore.trans_le hlow)]
          clean := fun s hs hlimit => by
            rw [damaged_cons_behind (hbefore.trans_le (hswept.advances.trans hs))]
            exact hswept.clean s hs hlimit
          runs := hswept.runs
          inside := hswept.inside
          suffix := hswept.suffix.trans (List.suffix_cons _ _)
          dropped := fun d hd => by
            rcases List.mem_cons.1 hd with rfl | hd
            · exact Or.inr (by omega)
            · exact hswept.dropped d hd }
      · -- it starts behind the limit, and so do all others
        rw [UInt64.lt_iff_toNat_lt] at hbehind
        refine DamageSwept.stay (some current) fun s _ hlimit => not_damaged_of_lt fun d hd => ?_
        rcases List.mem_cons.1 hd with rfl | hd
        · omega
        · have := hfirst d hd
          omega
      · simp only [UInt64.lt_iff_toNat_lt, not_lt] at hbefore hbehind hover
        exact DamageSwept.reach hsorted hbefore hbehind hover
      · simp only [UInt64.lt_iff_toNat_lt, not_lt] at hbefore hover
        exact DamageSwept.pass hsorted hbefore hover (ih (checkedSucc damage.last) hrest (by
          rw [position_checkedSucc]
          omega))

/-- One gap between `first` and `last`. -/
structure GapFilled (first last : ℕ) (damage : List SequenceRange) (result : List MissingRange × List SequenceRange) :
    Prop where
  missed_iff : ∀ s, first ≤ s → s ≤ last → (Missed result.1 s ↔ ¬ Damaged damage s)
  runs : Runs first (last + 2) result.1
  suffix : result.2 <:+ damage
  dropped : ∀ d ∈ damage, d ∈ result.2 ∨ d.last.toNat ≤ last

theorem addMissingWithoutDamage_filled {first last : UInt64} (hle : first.toNat ≤ last.toNat)
    (hsorted : SortedDamage damage) (cause : CompletenessCause) :
    GapFilled first.toNat last.toNat damage (addMissingWithoutDamage first last damage cause) := by
  have hswept := sweepDamage_swept last cause damage (some first) hsorted (by
    simp only [position, Option.elim_some]
    omega)
  simp only [position, Option.elim_some] at hswept
  unfold addMissingWithoutDamage
  generalize sweepDamage last cause damage (some first) = swept at hswept
  obtain ⟨missing, remaining, cursor⟩ := swept
  have hinside : Runs first.toNat (last.toNat + 2) missing :=
    ⟨fun m hm => ⟨(hswept.runs.inside m hm).1, by have := hswept.inside m hm; omega⟩, hswept.runs.apart⟩
  -- a cursor behind the limit leaves nothing to add
  have hdone : last.toNat < position cursor → GapFilled first.toNat last.toNat damage (missing, remaining) := fun h =>
    { missed_iff := fun s hlow hlimit => by
        rw [hswept.missed_iff s hlow hlimit]
        exact and_iff_right (by dsimp only; omega)
      runs := hinside
      suffix := hswept.suffix
      dropped := hswept.dropped }
  dsimp only
  cases cursor with
  | none =>
    have hlast := last.toNat_lt
    exact hdone (by simpa [position] using hlast)
  | some current =>
    have hadvances := hswept.advances
    simp only [position, Option.elim_some] at hadvances hdone
    dsimp only
    split_ifs with hcurrent
    · rw [UInt64.le_iff_toNat_le] at hcurrent
      have htail : Runs current.toNat (last.toNat + 2) [⟨⟨current, last, UInt64.le_iff_toNat_le.2 hcurrent⟩, cause⟩] := by
        refine ⟨fun m hm => ?_, List.pairwise_singleton _ _⟩
        rw [List.mem_singleton.1 hm]
        exact ⟨le_rfl, Nat.lt_succ_self _⟩
      refine ⟨fun s hlow hlimit => ?_, ?_, hswept.suffix, hswept.dropped⟩
      · rw [missed_append, hswept.missed_iff s hlow hlimit]
        simp only [position, Option.elim_some, Missed, List.mem_singleton, exists_eq_left, SequenceRange.Covers]
        constructor
        · rintro (⟨-, hfree⟩ | ⟨hs, -⟩)
          · exact hfree
          · exact hswept.clean s hs hlimit
        · intro hfree
          by_cases hs : s < current.toNat
          · exact Or.inl ⟨hs, hfree⟩
          · exact Or.inr ⟨by omega, hlimit⟩
      · exact hswept.runs.append htail hadvances (by simp only [position, Option.elim_some]; omega)
    · rw [UInt64.le_iff_toNat_le] at hcurrent
      exact hdone (by omega)

/-- A record with this number is retained. -/
def Retained (events : List PhysicalRecord) (s : ℕ) : Prop := ∃ e ∈ events, e.sequence.toNat = s

/-- A sweep over the records: in front of its cursor it reported exactly what is neither
retained nor damaged. -/
structure EventsSwept (low limit : ℕ) (events : List PhysicalRecord) (damage : List SequenceRange) (swept : Sweep) :
    Prop where
  advances : low ≤ position swept.cursor
  within : low ≤ limit + 1 → position swept.cursor ≤ limit + 1
  missed_iff : ∀ s, low ≤ s → s ≤ limit →
    (Missed swept.missing s ↔ s < position swept.cursor ∧ ¬ Retained events s ∧ ¬ Damaged damage s)
  behind : ∀ e ∈ events, e.sequence.toNat < position swept.cursor
  runs : Runs low (position swept.cursor) swept.missing
  suffix : swept.damage <:+ damage
  dropped : ∀ d ∈ damage, d ∈ swept.damage ∨ d.last.toNat < position swept.cursor

theorem damaged_remaining {place : ℕ} (hsuffix : remaining <:+ damage)
    (hdropped : ∀ d ∈ damage, d ∈ remaining ∨ d.last.toNat < place) (hs : place ≤ s) :
    Damaged remaining s ↔ Damaged damage s := by
  constructor
  · rintro ⟨d, hd, hcovers⟩
    exact ⟨d, hsuffix.subset hd, hcovers⟩
  · rintro ⟨d, hd, hcovers⟩
    rcases hdropped d hd with hd | hlt
    · exact ⟨d, hd, hcovers⟩
    · have := hcovers.2
      omega

/-- The step over one record: the gap in front of it, then the rest. -/
theorem EventsSwept.step {current limit : ℕ} {event : PhysicalRecord} {gap : List MissingRange} {swept : Sweep}
    (hcurrent : current ≤ event.sequence.toNat ∧ event.sequence.toNat ≤ limit)
    (hascending : ∀ e ∈ events, event.sequence.toNat < e.sequence.toNat)
    (hgap : ∀ s, current ≤ s → s < event.sequence.toNat → (Missed gap s ↔ ¬ Damaged damage s))
    (hgapRuns : Runs current (event.sequence.toNat + 1) gap) (hsuffix : remaining <:+ damage)
    (hdropped : ∀ d ∈ damage, d ∈ remaining ∨ d.last.toNat < event.sequence.toNat + 1)
    (h : EventsSwept (event.sequence.toNat + 1) limit events remaining swept) :
    EventsSwept current limit (event :: events) damage { swept with missing := gap ++ swept.missing } := by
  have hadvances := h.advances
  refine ⟨by dsimp only; omega, fun _ => h.within (by omega), fun s hlow hlimit => ?_, fun e he => ?_, hgapRuns.append h.runs (by omega) hadvances,
    h.suffix.trans hsuffix, fun d hd => ?_⟩
  · dsimp only
    rw [missed_append]
    have hretained : Retained (event :: events) s ↔ s = event.sequence.toNat ∨ Retained events s := by
      simp [Retained, eq_comm]
    rw [hretained]
    rcases lt_trichotomy s event.sequence.toNat with hs | hs | hs
    · -- in the gap: the rest starts behind the record
      have hother : ¬ Retained events s := by
        rintro ⟨e, he, rfl⟩
        have := hascending e he
        omega
      rw [hgap s hlow hs, or_iff_left (h.runs.not_missed_below (by omega))]
      exact ⟨fun hfree => ⟨by omega, not_or.2 ⟨by omega, hother⟩, hfree⟩, fun hfree => hfree.2.2⟩
    · refine iff_of_false ?_ fun hfree => hfree.2.1 (Or.inl hs)
      exact not_or.2 ⟨hgapRuns.not_missed_above (by omega), h.runs.not_missed_below (by omega)⟩
    · rw [or_iff_right (hgapRuns.not_missed_above (by omega)), h.missed_iff s hs hlimit, damaged_remaining hsuffix hdropped hs]
      have hne : s ≠ event.sequence.toNat := by omega
      simp [hne]
  · rcases List.mem_cons.1 he with rfl | he
    · dsimp only
      omega
    · exact h.behind e he
  · rcases hdropped d hd with hd | hlt
    · exact h.dropped d hd
    · exact Or.inr (by dsimp only; omega)

/-- The records come in the order of their numbers, each number once. -/
def AscendingEvents (events : List PhysicalRecord) : Prop :=
  events.Pairwise fun e e' => e.sequence.toNat < e'.sequence.toNat

theorem sweepEvents_swept (last : UInt64) (missingCause : CompletenessCause) : ∀ (events : List PhysicalRecord)
    (damage : List SequenceRange) (cursor : Option UInt64), AscendingEvents events → SortedDamage damage →
    (∀ e ∈ events, position cursor ≤ e.sequence.toNat ∧ e.sequence.toNat ≤ last.toNat) →
    EventsSwept (position cursor) last.toNat events damage (sweepEvents last missingCause events damage cursor) := by
  intro events
  induction events with
  | nil =>
    intro damage cursor _ _ _
    refine ⟨le_rfl, id, fun s hlow _ => ?_, by simp, Runs.nil _ _, List.suffix_rfl, fun d hd => Or.inl hd⟩
    refine iff_of_false ?_ fun h => ?_
    · rintro ⟨m, hm, -⟩
      cases hm
    · exact absurd h.1 (not_lt.2 hlow)
  | cons event events ih =>
    intro damage cursor hascending hsorted hrange
    obtain ⟨hevent, hevents⟩ := List.pairwise_cons.1 hascending
    have hhere := hrange event (by simp)
    cases cursor with
    | none =>
      have hlt := event.sequence.toNat_lt
      simp only [position, Option.elim_none] at hhere
      omega
    | some current =>
      simp only [position, Option.elim_some] at hhere ⊢
      have hnext : ∀ e ∈ events, position (checkedSucc event.sequence) ≤ e.sequence.toNat ∧
          e.sequence.toNat ≤ last.toNat := by
        intro e he
        rw [position_checkedSucc]
        exact ⟨hevent e he, (hrange e (by simp [he])).2⟩
      rw [sweepEvents, if_neg (by simp only [UInt64.lt_iff_toNat_lt]; omega)]
      by_cases hgap : current < event.sequence
      · rw [if_pos hgap]
        have hpred := toNat_pred hgap
        rw [UInt64.lt_iff_toNat_lt] at hgap
        generalize hcause : (if event.raw.recordType = 15 then .lost else missingCause) = cause
        have hfilled : GapFilled current.toNat (event.sequence - 1).toNat damage
            (addMissingWithoutDamage current (event.sequence - 1) damage cause) :=
          addMissingWithoutDamage_filled (by omega) hsorted cause
        have hrest := ih (addMissingWithoutDamage current (event.sequence - 1) damage cause).2 (checkedSucc event.sequence)
          hevents (hsorted.sublist hfilled.suffix.sublist) hnext
        rw [position_checkedSucc] at hrest
        refine EventsSwept.step hhere hevent (fun s hlow hs => hfilled.missed_iff s hlow (by omega)) ?_ hfilled.suffix
          (fun d hd => (hfilled.dropped d hd).imp_right fun h => by omega) hrest
        have hruns := hfilled.runs
        rwa [show (event.sequence - 1).toNat + 2 = event.sequence.toNat + 1 by omega] at hruns
      · rw [if_neg hgap]
        rw [UInt64.lt_iff_toNat_lt] at hgap
        have hrest := ih damage (checkedSucc event.sequence) hevents hsorted hnext
        rw [position_checkedSucc] at hrest
        exact EventsSwept.step hhere hevent (fun s hlow hs => by omega) (Runs.nil _ _) List.suffix_rfl
          (fun d hd => Or.inl hd) hrest

/-- Every record and every hint lies within the bounds. -/
structure Bounded (events : List PhysicalRecord) (hints : List SequenceFact) (bounds : UInt64 × UInt64) : Prop where
  events : ∀ e ∈ events, bounds.1.toNat ≤ e.sequence.toNat ∧ e.sequence.toNat ≤ bounds.2.toNat
  hints : ∀ h ∈ hints, bounds.1.toNat ≤ h.range.first.toNat ∧ h.range.last.toNat ≤ bounds.2.toNat

theorem bounded_sequenceBounds (hascending : AscendingEvents events) (hints : List SequenceFact) :
    Bounded events hints (sequenceBounds events hints) := by
  unfold sequenceBounds
  dsimp only
  induction hints using List.reverseRecOn with
  | nil =>
    refine ⟨fun e he => ⟨?_, ?_⟩, by simp⟩
    · cases events with
      | nil => cases he
      | cons first events =>
        rcases List.mem_cons.1 he with rfl | he
        · exact le_rfl
        · exact ((List.pairwise_cons.1 hascending).1 e he).le
    · rcases List.eq_nil_or_concat' events with rfl | ⟨init, last, rfl⟩
      · cases he
      · simp only [List.foldl_nil, List.getLast?_concat, Option.map_some, Option.getD_some]
        rcases List.mem_append.1 he with he | he
        · exact ((List.pairwise_append.1 hascending).2.2 e he last (by simp)).le
        · rw [List.mem_singleton.1 he]
  | append_singleton done hint h =>
    rw [List.foldl_concat]
    refine ⟨fun e he => ?_, fun x hx => ?_⟩
    · have := h.events e he
      simp only [UInt64.toNat_min, UInt64.toNat_max]
      omega
    · simp only [UInt64.toNat_min, UInt64.toNat_max]
      rcases List.mem_append.1 hx with hx | hx
      · have := h.hints x hx
        omega
      · rw [List.mem_singleton.1 hx]
        omega

theorem covers_retainedRuns (events : List PhysicalRecord) : ∀ (run : Option SequenceRange) (s : ℕ),
    (∃ r ∈ retainedRuns run events, r.Covers s) ↔ (∃ r ∈ run, r.Covers s) ∨ Retained events s := by
  induction events with
  | nil =>
    intro run s
    cases run <;> simp [retainedRuns, Retained]
  | cons event events ih =>
    intro run s
    have hsingle : (⟨event.sequence, event.sequence, UInt64.le_refl _⟩ : SequenceRange).Covers s ↔
        event.sequence.toNat = s := ⟨fun h => le_antisymm h.1 h.2, fun h => ⟨h.le, h.ge⟩⟩
    have hcons : Retained (event :: events) s ↔ event.sequence.toNat = s ∨ Retained events s := by
      simp [Retained]
    cases run with
    | none =>
      rw [retainedRuns, ih, hcons]
      simp [hsingle]
    | some run =>
      rw [retainedRuns, hcons]
      split_ifs with hnext
      · rw [checkedSucc_eq_some] at hnext
        rw [ih]
        simp only [Option.mem_some_iff, exists_eq_left', SequenceRange.Covers, ← or_assoc]
        apply or_congr_left
        have := run.toNat_le
        omega
      · simp only [List.mem_cons, exists_eq_or_imp, ih, Option.mem_some_iff, exists_eq_left', hsingle]

theorem missed_sweep {first last : UInt64} (hle : first.toNat ≤ last.toNat)
    (hascending : AscendingEvents events) (hsorted : SortedDamage damage)
    (hbounded : ∀ e ∈ events, first.toNat ≤ e.sequence.toNat ∧ e.sequence.toNat ≤ last.toNat)
    (missingCause : CompletenessCause) {tail : List MissingRange}
    (htail : tail = match (sweepEvents last missingCause events damage (some first)).cursor with
      | none => []
      | some current =>
        if current ≤ last then (addMissingWithoutDamage current last
          (sweepEvents last missingCause events damage (some first)).damage missingCause).1 else []) :
    Runs first.toNat (last.toNat + 2) ((sweepEvents last missingCause events damage (some first)).missing ++ tail) ∧
      ∀ s, first.toNat ≤ s → s ≤ last.toNat →
        (Missed ((sweepEvents last missingCause events damage (some first)).missing ++ tail) s ↔
          ¬ Retained events s ∧ ¬ Damaged damage s) := by
  have hswept := sweepEvents_swept last missingCause events damage (some first) hascending hsorted
    (by simpa [position] using hbounded)
  generalize sweepEvents last missingCause events damage (some first) = swept at hswept htail ⊢
  obtain ⟨missing, remaining, cursor⟩ := swept
  dsimp only at htail ⊢
  have hwithin : position cursor ≤ last.toNat + 1 := hswept.within (by simp only [position, Option.elim_some]; omega)
  have hruns : Runs first.toNat (last.toNat + 2) missing :=
    ⟨fun m hm => ⟨(hswept.runs.inside m hm).1, by have := (hswept.runs.inside m hm).2; dsimp only at this; omega⟩,
      hswept.runs.apart⟩
  -- with the cursor behind the last number the tail is empty
  have hdone : last.toNat < position cursor → tail = [] →
      Runs first.toNat (last.toNat + 2) (missing ++ tail) ∧ ∀ s, first.toNat ≤ s → s ≤ last.toNat →
        (Missed (missing ++ tail) s ↔ ¬ Retained events s ∧ ¬ Damaged damage s) := by
    rintro hposition rfl
    rw [List.append_nil]
    refine ⟨hruns, fun s hlow hlimit => ?_⟩
    rw [hswept.missed_iff s hlow hlimit]
    exact and_iff_right (by dsimp only; omega)
  cases cursor with
  | none =>
    have hlast := last.toNat_lt
    exact hdone (by simpa [position] using hlast) htail
  | some current =>
    by_cases hcurrent : current ≤ last
    · dsimp only at htail
      rw [if_pos hcurrent] at htail
      rw [UInt64.le_iff_toNat_le] at hcurrent
      have hfilled : GapFilled current.toNat last.toNat remaining
          (addMissingWithoutDamage current last remaining missingCause) :=
        addMissingWithoutDamage_filled hcurrent (hsorted.sublist hswept.suffix.sublist) missingCause
      have hadvances := hswept.advances
      simp only [position, Option.elim_some] at hadvances
      subst htail
      refine ⟨hswept.runs.append hfilled.runs hadvances (by simp only [position, Option.elim_some]; omega),
        fun s hlow hlimit => ?_⟩
      rw [missed_append, hswept.missed_iff s hlow hlimit]
      simp only [position, Option.elim_some]
      by_cases hs : s < current.toNat
      · rw [or_iff_left (hfilled.runs.not_missed_below hs)]
        exact and_iff_right hs
      · have hretained : ¬ Retained events s := by
          rintro ⟨e, he, rfl⟩
          have := hswept.behind e he
          simp only [position, Option.elim_some] at this
          omega
        rw [hfilled.missed_iff s (by omega) hlimit, damaged_remaining hswept.suffix hswept.dropped (by
          simp only [position, Option.elim_some]
          omega)]
        exact ⟨fun h => ⟨hretained, h.elim (fun h => absurd h.1 hs) id⟩, fun h => Or.inr h.2⟩
    · refine hdone ?_ (htail.trans (if_neg hcurrent))
      rw [UInt64.le_iff_toNat_le] at hcurrent
      simp only [position, Option.elim_some]
      omega

/-- `sequence_range_byte`: by the first number, then by the last. -/
def sequenceRangeByte (pass : ℕ) (range : SequenceRange) : ℕ :=
  if pass < 8 then range.last.toNat / 256 ^ pass % 256 else range.first.toNat / 256 ^ (pass - 8) % 256

def sortDamage (damage : List SequenceRange) : List SequenceRange := RadixSort.radixSort sequenceRangeByte 16 damage

theorem sequenceRangeByte_lt (pass : ℕ) (range : SequenceRange) : sequenceRangeByte pass range < 256 := by
  unfold sequenceRangeByte
  split_ifs <;> exact Nat.mod_lt _ (by decide)

theorem sorted_sortDamage (damage : List SequenceRange) : SortedDamage (sortDamage damage) := by
  have hkey : ∀ range : SequenceRange, RadixSort.keyValue 256 sequenceRangeByte 16 range =
      range.last.toNat + 2 ^ 64 * range.first.toNat := by
    intro range
    rw [show 16 = 8 + 8 from rfl, RadixSort.keyValue_add,
      RadixSort.keyValue_eq (show range.last.toNat < 256 ^ 8 from range.last.toNat_lt) fun i hi => ?_,
      RadixSort.keyValue_eq (show range.first.toNat < 256 ^ 8 from range.first.toNat_lt) fun i hi => ?_]
    · norm_num
    · rw [sequenceRangeByte, if_neg (by omega), Nat.add_sub_cancel_left]
    · rw [sequenceRangeByte, if_pos hi]
  apply (RadixSort.radixSort_pairwise sequenceRangeByte_lt 16 damage).imp
  intro d d' h
  have := d.last.toNat_lt
  have := d'.last.toNat_lt
  rw [hkey, hkey] at h
  omega

theorem damaged_sortDamage : Damaged (sortDamage damage) s ↔ Damaged damage s := by
  have hperm := RadixSort.radixSort_perm sequenceRangeByte_lt 16 damage
  simp only [Damaged, sortDamage, hperm.mem_iff]

/-- A report is a partition: the missing ranges are the maximal runs of what is declared,
not retained and not damaged, and no number is in two classes. -/
structure SequencePartition (events : List PhysicalRecord) (hints : List SequenceFact) (damage : List SequenceRange)
    (report : SequenceReport) : Prop where
  missed_iff : ∀ s, Missed report.missing s ↔
    (sequenceBounds events hints).1.toNat ≤ s ∧ s ≤ (sequenceBounds events hints).2.toNat ∧
      ¬ Retained events s ∧ ¬ Damaged damage s
  apart : report.missing.Pairwise fun m m' => m.range.last.toNat + 1 < m'.range.first.toNat
  once : ∀ s, ¬ ((∃ r ∈ report.retained, r.Covers s) ∧ Damaged damage s) ∧
    ¬ ((∃ r ∈ report.retained, r.Covers s) ∧ Missed report.missing s) ∧
    ¬ (Damaged damage s ∧ Missed report.missing s)

theorem missed_sequenceReport (hascending : AscendingEvents events) (hints : List SequenceFact)
    (hsorted : SortedDamage damage) (status : RecoveryStatus) :
    (∀ s, Missed (sequenceReport events hints damage status).missing s ↔
      (sequenceBounds events hints).1.toNat ≤ s ∧ s ≤ (sequenceBounds events hints).2.toNat ∧
        ¬ Retained events s ∧ ¬ Damaged damage s) ∧
      (sequenceReport events hints damage status).missing.Pairwise
        fun m m' => m.range.last.toNat + 1 < m'.range.first.toNat := by
  have hbounded := bounded_sequenceBounds hascending hints
  unfold sequenceReport
  by_cases hempty : events = [] ∧ hints = []
  · rw [if_pos hempty]
    obtain ⟨rfl, rfl⟩ := hempty
    -- without bounds there is nothing between them
    have hlt : (sequenceBounds [] []).2.toNat < (sequenceBounds [] []).1.toNat := by decide
    exact ⟨fun s => iff_of_false ((Runs.nil 0 0).not_missed_above (Nat.zero_le _)) fun h => by omega, List.Pairwise.nil⟩
  rw [if_neg hempty]
  have hle : (sequenceBounds events hints).1.toNat ≤ (sequenceBounds events hints).2.toNat := by
    cases events with
    | cons e events =>
      have := hbounded.events e (by simp)
      omega
    | nil =>
      cases hints with
      | cons hint hints =>
        have := hbounded.hints hint (by simp)
        have := hint.range.toNat_le
        omega
      | nil => exact absurd ⟨rfl, rfl⟩ hempty
  dsimp only
  rw [if_neg fun h => by rw [h.1, h.2] at hle; exact absurd hle (by decide)]
  generalize (if status.flags = 0 ∧ status.hasDamage = false ∧ status.hasIncomplete = false then
    CompletenessCause.overwritten else .lost) = missingCause
  obtain ⟨hruns, hmissed⟩ := missed_sweep hle hascending hsorted hbounded.events missingCause rfl
  refine ⟨fun s => ?_, hruns.apart⟩
  constructor
  · intro h
    obtain ⟨m, hm, hcovers⟩ := id h
    have hinside := hruns.inside m hm
    have hrange : (sequenceBounds events hints).1.toNat ≤ s ∧ s ≤ (sequenceBounds events hints).2.toNat := by
      have := hcovers.1
      have := hcovers.2
      omega
    exact ⟨hrange.1, hrange.2, (hmissed s hrange.1 hrange.2).1 h⟩
  · rintro ⟨hlow, hhigh, hfree⟩
    exact (hmissed s hlow hhigh).2 hfree

theorem retained_sequenceReport (hascending : AscendingEvents events) (hints : List SequenceFact)
    (damage : List SequenceRange) (status : RecoveryStatus) (s : ℕ) :
    (∃ r ∈ (sequenceReport events hints damage status).retained, r.Covers s) ↔ Retained events s := by
  have hruns := covers_retainedRuns events none s
  unfold sequenceReport
  dsimp only
  generalize (if status.flags = 0 ∧ status.hasDamage = false ∧ status.hasIncomplete = false then
    CompletenessCause.overwritten else .lost) = missingCause
  split_ifs with hempty hvoid
  · simp [hempty.1, Retained]
  · -- a record would lie between the bounds
    have hbounded := bounded_sequenceBounds hascending hints
    refine iff_of_false (by simp) ?_
    rintro ⟨e, he, -⟩
    have := hbounded.events e he
    rw [hvoid.1, hvoid.2] at this
    exact absurd (this.1.trans this.2) (by decide)
  · simpa using hruns

/-- The report is a partition if and only if no retained number lies in a damage range,
for all records, hints and damage ranges. -/
theorem sequencePartition_iff (events : List PhysicalRecord) (hascending : AscendingEvents events)
    (hints : List SequenceFact) (damage : List SequenceRange) (status : RecoveryStatus) :
    SequencePartition events hints damage (sequenceReport events hints (sortDamage damage) status) ↔
      ∀ e ∈ events, ∀ d ∈ damage, ¬ d.Covers e.sequence.toNat := by
  obtain ⟨hmissed, hapart⟩ := missed_sequenceReport hascending hints (sorted_sortDamage damage) status
  have hretained := retained_sequenceReport hascending hints (sortDamage damage) status
  simp only [damaged_sortDamage] at hmissed
  constructor
  · intro h e he d hd hcovers
    exact (h.once e.sequence.toNat).1 ⟨(hretained _).2 ⟨e, he, rfl⟩, ⟨d, hd, hcovers⟩⟩
  · intro h
    refine ⟨hmissed, hapart, fun s => ?_⟩
    rw [hretained s, hmissed s]
    refine ⟨?_, fun hboth => hboth.2.2.2.1 hboth.1, fun hboth => hboth.2.2.2.2 hboth.1⟩
    rintro ⟨⟨e, he, rfl⟩, ⟨d, hd, hcovers⟩⟩
    exact h e he d hd hcovers

/-- A record of the thread in its own chunk, as the reader keeps it. -/
def retainedRecord (ordinal : ℕ) (sequence : UInt64) (chunk tid : UInt32) : PhysicalRecord where
  recordOrdinal := ordinal
  sourceOffset := 4096 * chunk.toNat
  sequence := sequence
  tid := tid
  scope := .flightChunk chunk 1 tid
  raw := ⟨1, 0, []⟩

/-- Two damage ranges that overlap, with one record before and one after them at the largest number. -/
theorem sequencePartition_between :
    SequencePartition [retainedRecord 0 1 0 7, retainedRecord 1 18446744073709551615 1 8] []
      [⟨3, 6, by decide⟩, ⟨2, 4, by decide⟩]
      (sequenceReport [retainedRecord 0 1 0 7, retainedRecord 1 18446744073709551615 1 8] []
        (sortDamage [⟨3, 6, by decide⟩, ⟨2, 4, by decide⟩]) ⟨0, true, false⟩) := by
  refine (sequencePartition_iff _ ?_ _ _ _).2 ?_
  · unfold AscendingEvents
    decide
  · unfold SequenceRange.Covers
    decide

/-- One thread's chunk is damaged and held the numbers from 1 to 3; another thread's record with
the number 2 is retained: the number is reported retained and damaged. -/
theorem sequencePartition_interleaved_fails :
    ¬ SequencePartition [retainedRecord 0 2 1 8] [] [⟨1, 3, by decide⟩]
      (sequenceReport [retainedRecord 0 2 1 8] [] (sortDamage [⟨1, 3, by decide⟩]) ⟨0, true, false⟩) := by
  intro h
  apply (h.once 2).1
  have hretained : (⟨2, 2, by decide⟩ : SequenceRange) ∈
      (sequenceReport [retainedRecord 0 2 1 8] [] (sortDamage [⟨1, 3, by decide⟩]) ⟨0, true, false⟩).retained := by
    decide
  exact ⟨⟨_, hretained, by decide, by decide⟩, ⟨_, List.mem_singleton_self _, by decide, by decide⟩⟩

end QTrace.Flight
