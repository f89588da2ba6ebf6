import QTrace.Flight.RecordScan
import QTrace.Lib.ResetFold

/-! The lifecycle of a thread over the chunks of an artifact. Each chunk scan counts thread
begins against thread ends, and recovery adds the counts up in slot order. Slot order is
not sequence order once the ring has been reused; the sum does not see it, because an
artifact is too small for the counters to saturate. -/

namespace QTrace.Flight

open Lib

def saturatingAdd (a b : ℤ) : ℤ := max (-2 ^ 63) (min (2 ^ 63 - 1) (a + b))

/-- What a record adds to the balance of its thread. -/
def lifecycleDelta (kind : ℕ) : Option ℤ :=
  match kind with
  | 2 => some 1
  | 3 => some (-1)
  | _ => none

/-- `update_lifecycle`, on the balance and the begin it rose from. -/
def updateLifecycle (state : ℤ × Option ℕ) (kind sequence : ℕ) : ℤ × Option ℕ :=
  match lifecycleDelta kind with
  | none => state
  | some delta =>
    let balance := saturatingAdd state.1 delta
    (balance, if 0 < delta ∧ balance = delta then some sequence else state.2)

/-- The lifecycle part of a `RecordScan`. -/
def scanLifecycle (records : List ScannedRecord) : ℤ × Option ℕ :=
  records.foldl (fun state r => updateLifecycle state r.kind r.sequence) (0, none)

structure LifecycleBalance where
  balance : ℤ
  firstBegin : ℕ
  deriving DecidableEq

def mergeLifecycle (target : ℕ → Option LifecycleBalance) (tid : ℕ) (incoming : ℤ × Option ℕ) :
    ℕ → Option LifecycleBalance :=
  if incoming.1 = 0 ∧ incoming.2 = none then target
  else
    match target tid with
    | some item =>
      let firstBegin := if item.balance ≤ 0 ∧ 0 < incoming.1 then incoming.2.getD 0 else item.firstBegin
      Function.update target tid (some ⟨saturatingAdd item.balance incoming.1, firstBegin⟩)
    | none => Function.update target tid (some ⟨incoming.1, incoming.2.getD 0⟩)

/-- A chunk that scanned without an error; chunk sizes are 32-bit. -/
structure ChunkScan where
  tid : ℕ
  generation : ℕ
  active : Bool
  extent : List UInt8
  records : List ScannedRecord
  scanned : scanRecords active generation extent = .ok records
  extent_lt : extent.length < 2 ^ 32

/-- The scanned chunks in slot order; the number of slots is 32-bit. -/
structure ChunkTable where
  scans : List ChunkScan
  count_lt : scans.length < 2 ^ 32

/-- The lifecycle table after the chunk loop of `recover`. -/
def ChunkTable.lifecycle (table : ChunkTable) : ℕ → Option LifecycleBalance :=
  table.scans.foldl (fun target scan => mergeLifecycle target scan.tid (scanLifecycle scan.records)) fun _ => none

/-- The threads `recover` reports as unterminated, each with the begin it names. -/
def unterminatedThreads (tids : List ℕ) (lifecycle : ℕ → Option LifecycleBalance) : List (ℕ × ℕ) :=
  tids.filterMap fun tid =>
    match lifecycle tid with
    | none => none
    | some item => if 0 < item.balance then some (tid, item.firstBegin) else none

theorem readRecord_storage {bytes : List UInt8} {offset : ℕ} {last : Option ℕ} {p : ScannedRecord × ℕ}
    (h : readRecord bytes offset last = .ok p) : recordHeaderBytes ≤ p.2 ∧ p.2 ≤ bytes.length := by
  unfold readRecord at h
  dsimp only at h
  split_ifs at h with h1 h2 h3
  obtain rfl := Except.ok.inj h
  dsimp only
  unfold recordHeaderBytes at h1 ⊢
  omega

theorem length_scanFrom {active : Bool} {generation : ℕ} (fuel : ℕ) :
    ∀ {bytes : List UInt8} {offset : ℕ} {last : Option ℕ} {records : List ScannedRecord},
      scanFrom active generation fuel bytes offset last = .ok records → recordHeaderBytes * records.length ≤ bytes.length := by
  induction fuel with
  | zero =>
    intro bytes offset last records h
    obtain rfl := Except.ok.inj h
    exact Nat.zero_le _
  | succ fuel ih =>
    intro bytes offset last records h
    rw [scanFrom] at h
    split_ifs at h
    · obtain rfl := Except.ok.inj h
      exact Nat.zero_le _
    · obtain rfl := Except.ok.inj h
      exact Nat.zero_le _
    · obtain rfl := Except.ok.inj h
      exact Nat.zero_le _
    · obtain ⟨⟨record, storage⟩, hread, h⟩ := bind_eq_ok.1 h
      obtain ⟨rest, hrest, h⟩ := bind_eq_ok.1 h
      obtain rfl := Except.ok.inj h
      have hstorage := readRecord_storage hread
      have hlength := ih hrest
      rw [List.length_drop] at hlength
      rw [List.length_cons, Nat.mul_succ]
      omega

theorem ChunkScan.length_records (scan : ChunkScan) : scan.records.length < 2 ^ 28 := by
  have hlength : recordHeaderBytes * scan.records.length ≤ scan.extent.length := length_scanFrom _ scan.scanned
  have hextent := scan.extent_lt
  unfold recordHeaderBytes at hlength
  omega

/-- Begins minus ends. -/
def netBegins (records : List ScannedRecord) : ℤ := (records.map fun r => (lifecycleDelta r.kind).getD 0).sum

theorem lifecycleDelta_bound {kind : ℕ} {delta : ℤ} (h : lifecycleDelta kind = some delta) : delta = 1 ∨ delta = -1 := by
  unfold lifecycleDelta at h
  split at h
  · exact Or.inl (Option.some.inj h).symm
  · exact Or.inr (Option.some.inj h).symm
  · cases h

theorem saturatingAdd_eq {a b : ℤ} (h : |a + b| < 2 ^ 63) : saturatingAdd a b = a + b := by
  rw [abs_lt] at h
  unfold saturatingAdd
  omega

theorem abs_netBegins_le (records : List ScannedRecord) : |netBegins records| ≤ records.length := by
  induction records with
  | nil => exact le_rfl
  | cons r records ih =>
    have hdelta : |(lifecycleDelta r.kind).getD 0| ≤ 1 := by
      cases hkind : lifecycleDelta r.kind with
      | none => exact zero_le_one
      | some delta => rcases lifecycleDelta_bound hkind with rfl | rfl <;> exact le_rfl
    rw [netBegins, List.map_cons, List.sum_cons, List.length_cons]
    rw [netBegins] at ih
    calc _ ≤ |(lifecycleDelta r.kind).getD 0| + |_| := abs_add_le _ _
      _ ≤ 1 + (records.length : ℤ) := add_le_add hdelta ih
      _ = _ := by push_cast; ring

theorem netBegins_append (xs ys : List ScannedRecord) : netBegins (xs ++ ys) = netBegins xs + netBegins ys := by
  simp [netBegins]

theorem scanLifecycle_balance {records : List ScannedRecord} (h : records.length < 2 ^ 63) :
    (scanLifecycle records).1 = netBegins records := by
  induction records using List.reverseRecOn with
  | nil => rfl
  | append_singleton records r ih =>
    rw [List.length_append, List.length_singleton] at h
    have hold := abs_netBegins_le records
    have ih := ih (by omega)
    rw [scanLifecycle] at ih ⊢
    rw [List.foldl_concat, netBegins_append, updateLifecycle]
    cases hkind : lifecycleDelta r.kind with
    | none => simpa [netBegins, hkind] using ih
    | some delta =>
      have hdelta : |delta| = 1 := by rcases lifecycleDelta_bound hkind with rfl | rfl <;> rfl
      have hsum := abs_add_le (netBegins records) delta
      have hnet : netBegins [r] = delta := by simp [netBegins, hkind]
      rw [hnet, ← ih]
      exact saturatingAdd_eq (by rw [ih]; omega)

/-- The balance a table holds for a thread. -/
def balanceOf (lifecycle : ℕ → Option LifecycleBalance) (tid : ℕ) : ℤ := (lifecycle tid).elim 0 (·.balance)

theorem balanceOf_merge {target : ℕ → Option LifecycleBalance} {tid : ℕ} {incoming : ℤ × Option ℕ}
    (h : |balanceOf target tid + incoming.1| < 2 ^ 63) (other : ℕ) :
    balanceOf (mergeLifecycle target tid incoming) other =
      balanceOf target other + if tid = other then incoming.1 else 0 := by
  unfold mergeLifecycle
  split_ifs with hempty hsame hsame
  · simp [hempty.1]
  · simp
  · subst hsame
    cases htarget : target tid with
    | none => simp [balanceOf, htarget]
    | some item =>
      simp only [balanceOf, htarget, Option.elim_some] at h
      simp [balanceOf, htarget, saturatingAdd_eq h]
  · cases htarget : target tid with
    | none => simp [balanceOf, Function.update_of_ne (Ne.symm hsame)]
    | some item => simp [balanceOf, Function.update_of_ne (Ne.symm hsame)]

/-- The records of a thread, over all its chunks. -/
def threadRecords (tid : ℕ) (scans : List ChunkScan) : List ScannedRecord :=
  (scans.filter fun scan => scan.tid = tid).flatMap (·.records)

theorem length_threadRecords_lt (tid : ℕ) (scans : List ChunkScan) :
    (threadRecords tid scans).length ≤ 2 ^ 28 * scans.length := by
  induction scans with
  | nil => exact Nat.zero_le _
  | cons scan scans ih =>
    have hrecords := scan.length_records
    unfold threadRecords at ih ⊢
    by_cases htid : scan.tid = tid
    · rw [List.filter_cons_of_pos (by simpa using htid), List.flatMap_cons, List.length_append, List.length_cons]
      omega
    · rw [List.filter_cons_of_neg (by simpa using htid), List.length_cons]
      omega

/-- The chunk loop adds up begins and ends, whatever the order of the slots. -/
theorem balanceOf_lifecycle (table : ChunkTable) (tid : ℕ) :
    balanceOf table.lifecycle tid = netBegins (threadRecords tid table.scans) := by
  have hcount := table.count_lt
  unfold ChunkTable.lifecycle
  generalize table.scans = scans at hcount ⊢
  induction scans using List.reverseRecOn generalizing tid with
  | nil => rfl
  | append_singleton done scan ih =>
    rw [List.length_append, List.length_singleton] at hcount
    have htarget := fun t => ih t (by omega)
    have hrecords := scan.length_records
    have hscan : (scanLifecycle scan.records).1 = netBegins scan.records := scanLifecycle_balance (by omega)
    rw [List.foldl_concat, balanceOf_merge, htarget, hscan]
    · by_cases ht : scan.tid = tid
      · simp [threadRecords, ht, netBegins_append]
      · simp [threadRecords, ht]
    · have hdone := length_threadRecords_lt scan.tid done
      have hold := abs_netBegins_le (threadRecords scan.tid done)
      have hnew := abs_netBegins_le scan.records
      have hsum := abs_add_le (netBegins (threadRecords scan.tid done)) (netBegins scan.records)
      rw [htarget, hscan]
      omega

/-- The begins and ends of a thread with their sequence numbers, as the chunks hold them. -/
def lifecycleEvents (tid : ℕ) (scans : List ChunkScan) : List (ℕ × ℕ) :=
  ((threadRecords tid scans).filter fun r => r.kind = 2 ∨ r.kind = 3).map fun r => (r.sequence, r.kind)

theorem netBegins_eq (tid : ℕ) (scans : List ChunkScan) : netBegins (threadRecords tid scans) =
    ((lifecycleEvents tid scans).map fun event => (lifecycleDelta event.2).getD 0).sum := by
  unfold lifecycleEvents netBegins
  induction threadRecords tid scans with
  | nil => rfl
  | cons r records ih =>
    rw [List.map_cons, List.sum_cons, ih]
    by_cases hkind : r.kind = 2 ∨ r.kind = 3
    · rw [List.filter_cons_of_pos (by simpa using hkind)]
      rfl
    · have hnone : lifecycleDelta r.kind = none := by
        unfold lifecycleDelta
        split <;> first | rfl | omega
      rw [List.filter_cons_of_neg (by simpa using hkind), hnone, Option.getD_none, zero_add]

theorem lifecycleEvents_perm {scans scans' : List ChunkScan} (h : scans.Perm scans') (tid : ℕ) :
    (lifecycleEvents tid scans).Perm (lifecycleEvents tid scans') :=
  (((h.filter _).flatMap_right _).filter _).map _

theorem mem_unterminated {tids : List ℕ} {lifecycle : ℕ → Option LifecycleBalance} {tid : ℕ} :
    tid ∈ (unterminatedThreads tids lifecycle).map Prod.fst ↔ tid ∈ tids ∧ 0 < balanceOf lifecycle tid := by
  unfold unterminatedThreads balanceOf
  constructor
  · intro h
    obtain ⟨pair, hpair, rfl⟩ := List.mem_map.1 h
    obtain ⟨t, ht, hsome⟩ := List.mem_filterMap.1 hpair
    cases hitem : lifecycle t with
    | none => simp [hitem] at hsome
    | some item =>
      simp only [hitem, Option.ite_none_right_eq_some, Option.some.injEq] at hsome
      obtain ⟨hpos, rfl⟩ := hsome
      exact ⟨ht, by simpa [hitem] using hpos⟩
  · rintro ⟨htids, hpos⟩
    cases hitem : lifecycle tid with
    | none => simp [hitem] at hpos
    | some item =>
      simp only [hitem, Option.elim_some] at hpos
      apply List.mem_map.2
      exact ⟨(tid, item.firstBegin), List.mem_filterMap.2 ⟨tid, htids, by simp [hitem, hpos]⟩, rfl⟩

/-- Whether a thread is reported as unterminated depends on its begins and ends only, in
whatever chunks they are; moving the chunks to other slots changes nothing. -/
theorem unterminated_placement (table table' : ChunkTable) (tids : List ℕ) (tid : ℕ) :
    ((lifecycleEvents tid table.scans).Perm (lifecycleEvents tid table'.scans) →
      (tid ∈ (unterminatedThreads tids table.lifecycle).map Prod.fst ↔
        tid ∈ (unterminatedThreads tids table'.lifecycle).map Prod.fst)) ∧
    (table.scans.Perm table'.scans →
      (tid ∈ (unterminatedThreads tids table.lifecycle).map Prod.fst ↔
        tid ∈ (unterminatedThreads tids table'.lifecycle).map Prod.fst)) := by
  have hevents : (lifecycleEvents tid table.scans).Perm (lifecycleEvents tid table'.scans) →
      (tid ∈ (unterminatedThreads tids table.lifecycle).map Prod.fst ↔
        tid ∈ (unterminatedThreads tids table'.lifecycle).map Prod.fst) := by
    intro hperm
    have hbalance : balanceOf table.lifecycle tid = balanceOf table'.lifecycle tid := by
      rw [balanceOf_lifecycle, balanceOf_lifecycle, netBegins_eq, netBegins_eq]
      exact (hperm.map _).sum_eq
    rw [mem_unterminated, mem_unterminated, hbalance]
  exact ⟨hevents, fun hscans => hevents (lifecycleEvents_perm hscans tid)⟩

end QTrace.Flight
