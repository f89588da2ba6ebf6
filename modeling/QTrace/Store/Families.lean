import QTrace.Store.Indexes

/-! What the index families hold, key by key, and that the checks of the families are exact. A
family is characterised by the rows it has under each key. -/

namespace QTrace.Store

open Lib

/-- The map has a posting list under exactly the keys with rows, and it is of those rows. -/
def Indexes (rowsOf : ℕ → List ℕ) (m : SortedMap ℕ PostingList) : Prop :=
  ∀ key posting, (key, posting) ∈ m.entries ↔ posting.rows = rowsOf key ∧ rowsOf key ≠ []

variable {m : SortedMap ℕ PostingList}

theorem Indexes.unique {rowsOf : ℕ → List ℕ} {m' : SortedMap ℕ PostingList} (h : Indexes rowsOf m)
    (h' : Indexes rowsOf m') : m = m' := by
  refine SortedMap.ext_get fun key => Option.ext fun posting => ?_
  rw [SortedMap.get_eq_some, SortedMap.get_eq_some, h, h']

section Partition

variable (n : ℕ) (f : ℕ → Option ℕ)

/-- The rows below `n` with a key. -/
def rowsWith (key : ℕ) : List ℕ := (List.range n).filter (f · = some key)

variable {n f}

theorem mem_rowsWith {key row : ℕ} : row ∈ rowsWith n f key ↔ row < n ∧ f row = some key := by
  simp [rowsWith]

theorem rowsWith_pairwise (key : ℕ) : (rowsWith n f key).Pairwise (· < ·) :=
  List.pairwise_lt_range.sublist List.filter_sublist

theorem rowsWith_succ (key : ℕ) :
    rowsWith (n + 1) f key = rowsWith n f key ++ if f n = some key then [n] else [] := by
  rw [rowsWith, List.range_succ, List.filter_append, rowsWith]
  split_ifs with h <;> simp [h]

/-- The groups after `n` rows. -/
structure GroupsOf (n : ℕ) (f : ℕ → Option ℕ) (groups : List PostingGroup) : Prop where
  nodup : (groups.map (·.key)).Nodup
  rows : ∀ group ∈ groups, group.posting.rows = rowsWith n f group.key ∧ rowsWith n f group.key ≠ []
  previous : ∀ group ∈ groups, group.previous = group.posting.rows.getLast?
  total : ∀ key, rowsWith n f key ≠ [] → key ∈ groups.map (·.key)

variable {groups : List PostingGroup}

theorem addToGroup_spec {key row : ℕ} (hnodup : (groups.map (·.key)).Nodup)
    (hprevious : ∀ group ∈ groups, group.previous = group.posting.rows.getLast?)
    (hlt : ∀ group ∈ groups, ∀ r ∈ group.posting.rows, r < row) :
    ∃ groups', addToGroup key row groups = .ok groups' ∧ (groups'.map (·.key)).Nodup ∧
      (∀ k, k ∈ groups'.map (·.key) ↔ k = key ∨ k ∈ groups.map (·.key)) ∧
      ∀ group' ∈ groups', group'.key ≠ key ∧ group' ∈ groups ∨
        group'.key = key ∧ group'.previous = some row ∧
          ((∃ group ∈ groups, group.key = key ∧ group'.posting.rows = group.posting.rows ++ [row]) ∨
            key ∉ groups.map (·.key) ∧ group'.posting.rows = [row]) := by
  induction groups with
  | nil =>
    obtain ⟨posting, hpush⟩ := @PostingList.pushRow_ok .empty row (by simp)
    have hrows := PostingList.rows_pushRow hpush
    refine ⟨[⟨key, posting, some row⟩], ?_, by simp, by simp, ?_⟩
    · rw [PostingList.rows_empty, List.getLast?_nil] at hpush
      rw [addToGroup, hpush]
      rfl
    · simpa using hrows
  | cons group groups ih =>
    obtain ⟨hnotin, hnodup'⟩ := List.nodup_cons.mp hnodup
    by_cases hkey : group.key = key
    · obtain ⟨posting, hpush⟩ := PostingList.pushRow_ok fun last hlast =>
        hlt group List.mem_cons_self last (List.mem_of_getLast? hlast)
      have hrows := PostingList.rows_pushRow hpush
      refine ⟨{ group with posting := posting, previous := some row } :: groups, ?_, hnodup, ?_, ?_⟩
      · rw [addToGroup, if_pos hkey, hprevious group List.mem_cons_self, hpush]
        rfl
      · simp [hkey]
      · intro group' hgroup'
        rcases List.mem_cons.mp hgroup' with rfl | hgroup'
        · exact .inr ⟨hkey, rfl, .inl ⟨group, List.mem_cons_self, hkey, hrows⟩⟩
        · refine .inl ⟨fun h => hnotin ?_, List.mem_cons_of_mem _ hgroup'⟩
          exact List.mem_map.mpr ⟨group', hgroup', h.trans hkey.symm⟩
    · obtain ⟨groups', hadd, hnodup'', hkeys, hgroups⟩ := ih hnodup'
        (fun g hg => hprevious g (List.mem_cons_of_mem _ hg)) fun g hg => hlt g (List.mem_cons_of_mem _ hg)
      refine ⟨group :: groups', ?_, ?_, ?_, ?_⟩
      · rw [addToGroup, if_neg hkey, hadd]
        rfl
      · refine List.nodup_cons.mpr ⟨fun h => ?_, hnodup''⟩
        rcases (hkeys _).mp h with h | h
        · exact hkey h
        · exact hnotin h
      · intro k
        rw [List.map_cons, List.mem_cons, hkeys, List.map_cons, List.mem_cons]
        tauto
      · intro group' hgroup'
        rcases List.mem_cons.mp hgroup' with rfl | hgroup'
        · exact .inl ⟨hkey, List.mem_cons_self⟩
        · rcases hgroups group' hgroup' with ⟨hne, hmem⟩ | ⟨heq, hprev, ⟨g, hg, hgkey, hrows⟩ | ⟨hnew, hrows⟩⟩
          · exact .inl ⟨hne, List.mem_cons_of_mem _ hmem⟩
          · exact .inr ⟨heq, hprev, .inl ⟨g, List.mem_cons_of_mem _ hg, hgkey, hrows⟩⟩
          · refine .inr ⟨heq, hprev, .inr ⟨?_, hrows⟩⟩
            rw [List.map_cons, List.mem_cons, not_or]
            exact ⟨fun h => hkey h.symm, hnew⟩

theorem GroupsOf.add (h : GroupsOf n f groups) {key : ℕ} (hkey : f n = some key) :
    ∃ groups', addToGroup key n groups = .ok groups' ∧ GroupsOf (n + 1) f groups' := by
  have hlt : ∀ group ∈ groups, ∀ r ∈ group.posting.rows, r < n := fun group hgroup r hr => by
    rw [(h.rows group hgroup).1] at hr
    exact (mem_rowsWith.mp hr).1
  obtain ⟨groups', hadd, hnodup, hkeys, hgroups⟩ := @addToGroup_spec groups key n h.nodup h.previous hlt
  have hrows : ∀ group' ∈ groups', group'.posting.rows = rowsWith (n + 1) f group'.key ∧
      group'.previous = group'.posting.rows.getLast? := by
    intro group' hgroup'
    rw [rowsWith_succ]
    rcases hgroups group' hgroup' with ⟨hne, hmem⟩ | ⟨heq, hprev, hcase⟩
    · rw [if_neg (by simpa [hkey] using Ne.symm hne), List.append_nil]
      exact ⟨(h.rows group' hmem).1, h.previous group' hmem⟩
    · rw [if_pos (by rw [hkey, heq]), hprev]
      rcases hcase with ⟨group, hgroup, hgkey, hrows⟩ | ⟨hnew, hrows⟩
      · rw [hrows, (h.rows group hgroup).1, hgkey, heq]
        simp
      · have hnil : rowsWith n f key = [] := by
          by_contra hne
          exact hnew (h.total key hne)
        rw [hrows, heq, hnil]
        simp
  refine ⟨groups', hadd, hnodup, fun group' hgroup' => ⟨(hrows group' hgroup').1, ?_⟩,
    fun group' hgroup' => (hrows group' hgroup').2, fun k hk => ?_⟩
  · rw [← (hrows group' hgroup').1]
    rcases hgroups group' hgroup' with ⟨-, hmem⟩ | ⟨-, -, ⟨group, -, -, hr⟩ | ⟨-, hr⟩⟩
    · rw [(h.rows group' hmem).1]
      exact (h.rows group' hmem).2
    · simp [hr]
    · simp [hr]
  · rw [hkeys]
    rw [rowsWith_succ] at hk
    by_cases hk' : k = key
    · exact .inl hk'
    · rw [if_neg (by simpa [hkey] using Ne.symm hk'), List.append_nil] at hk
      exact .inr (h.total k hk)

theorem GroupsOf.skip (h : GroupsOf n f groups) (hnone : f n = none) : GroupsOf (n + 1) f groups := by
  have heq : ∀ key, rowsWith (n + 1) f key = rowsWith n f key := by simp [rowsWith_succ, hnone]
  exact ⟨h.nodup, fun g hg => by rw [heq]; exact h.rows g hg, h.previous, fun k hk => h.total k (heq k ▸ hk)⟩

theorem groups_ok (n : ℕ) (f : ℕ → Option ℕ) :
    ∃ groups, (List.range n).foldlM (placeRow f) [] = .ok groups ∧ GroupsOf n f groups := by
  induction n with
  | zero => exact ⟨[], rfl, by simp, by simp, by simp, by simp [rowsWith]⟩
  | succ n ih =>
    obtain ⟨groups, hfold, hgroups⟩ := ih
    rw [List.range_succ, foldlM_append_ok hfold, List.foldlM_cons]
    cases hkey : f n with
    | none => exact ⟨groups, by simp only [placeRow, hkey]; rfl, hgroups.skip hkey⟩
    | some key =>
      obtain ⟨groups', hadd, hgroups'⟩ := hgroups.add hkey
      exact ⟨groups', by simp only [placeRow, hkey, hadd]; rfl, hgroups'⟩

/-- The partition of the rows by their keys always comes out, with all the rows of each key. -/
theorem keyedPostingPartition_ok (n : ℕ) (f : ℕ → Option ℕ) :
    ∃ m, keyedPostingPartition n f = .ok m ∧ Indexes (rowsWith n f) m := by
  obtain ⟨groups, hfold, hgroups⟩ := groups_ok n f
  let entries := groups.map fun group => (group.key, group.posting)
  have hperm := List.mergeSort_perm entries fun a b => a.1 ≤ b.1
  have hkeys : (entries.map Prod.fst).Nodup := by simpa [entries, Function.comp_def] using hgroups.nodup
  have hle : (entries.mergeSort fun a b => a.1 ≤ b.1).Pairwise (·.1 ≤ ·.1) := by
    have := @List.pairwise_mergeSort _ (fun (a b : ℕ × PostingList) => decide (a.1 ≤ b.1))
      (fun a b c hab hbc => by simp at *; omega) (fun a b => by simp; omega) entries
    simpa using this
  have hne : (entries.mergeSort fun a b => a.1 ≤ b.1).Pairwise (·.1 ≠ ·.1) :=
    List.pairwise_map.mp ((hperm.map Prod.fst).nodup_iff.mpr hkeys)
  have hsorted : (entries.mergeSort fun a b => a.1 ≤ b.1).Pairwise (·.1 < ·.1) :=
    (hle.and hne).imp fun h => lt_of_le_of_ne h.1 h.2
  refine ⟨⟨_, hsorted⟩, ?_, fun key posting => ?_⟩
  · unfold keyedPostingPartition
    rw [hfold]
    exact fromSorted_ok.mpr rfl
  · change (key, posting) ∈ entries.mergeSort _ ↔ _
    rw [hperm.mem_iff]
    constructor
    · intro h
      obtain ⟨group, hgroup, heq⟩ := List.mem_map.mp h
      obtain ⟨rfl, rfl⟩ := Prod.mk.inj heq
      exact hgroups.rows group hgroup
    · rintro ⟨hrows, hne⟩
      obtain ⟨group, hgroup, rfl⟩ := List.mem_map.mp (hgroups.total key hne)
      refine List.mem_map.mpr ⟨group, hgroup, ?_⟩
      rw [PostingList.rows_inj ((hgroups.rows group hgroup).1.trans hrows.symm)]

theorem map_snd_ok {α β ε : Type} {x : Except ε (α × β)} {b : β} :
    Prod.snd <$> x = .ok b ↔ ∃ a, x = .ok (a, b) := by
  cases x with
  | error e => simp [Functor.map, Except.map]
  | ok r => simp [Functor.map, Except.map, Prod.ext_iff]

/-- One more than the row before. -/
def baseAfter : Option ℕ → ℕ
  | none => 0
  | some last => last + 1

theorem visitDelta_ok {key delta : ℕ} (hdelta : delta ≠ 0) {state state' : Option ℕ × ℕ} :
    visitDelta n f key state delta = .ok state' ↔
      (baseAfter state.1 + delta - 1 < n ∧ f (baseAfter state.1 + delta - 1) = some key) ∧
        state' = (some (baseAfter state.1 + delta - 1), state.2 + 1) := by
  have hrow : rowAfter state.1 delta = baseAfter state.1 + delta - 1 := by
    cases state.1 with
    | none => simp [rowAfter, baseAfter]
    | some last =>
      simp only [rowAfter, baseAfter]
      omega
  unfold visitDelta
  rw [if_neg hdelta]
  simp only [hrow]
  by_cases hbad : n ≤ baseAfter state.1 + delta - 1 ∨ f (baseAfter state.1 + delta - 1) ≠ some key
  · rw [if_pos hbad]
    constructor
    · intro herr
      cases herr
    · intro h
      rcases hbad with hbad | hbad
      · exact absurd h.1.1 (by omega)
      · exact absurd h.1.2 hbad
  · rw [if_neg hbad, Except.ok.injEq, @eq_comm _ _ state']
    rw [not_or, not_le, not_not] at hbad
    exact ⟨fun h => ⟨hbad, h⟩, fun h => h.2⟩

theorem visit_ok {key : ℕ} {deltas : List ℕ} (hpos : ∀ delta ∈ deltas, delta ≠ 0) {state : Option ℕ × ℕ}
    {count : ℕ} : Prod.snd <$> deltas.foldlM (visitDelta n f key) state = .ok count ↔
      (∀ row ∈ fromDeltas (baseAfter state.1) deltas, row < n ∧ f row = some key) ∧
        count = state.2 + deltas.length := by
  induction deltas generalizing state with
  | nil => simp [fromDeltas, pure, Except.pure, Functor.map, Except.map, eq_comm]
  | cons delta deltas ih =>
    obtain ⟨hdelta, hdeltas⟩ := List.forall_mem_cons.mp hpos
    have hstep : Prod.snd <$> (delta :: deltas).foldlM (visitDelta n f key) state = .ok count ↔
        ∃ state', visitDelta n f key state delta = .ok state' ∧
          Prod.snd <$> deltas.foldlM (visitDelta n f key) state' = .ok count := by
      simp only [List.foldlM_cons, map_snd_ok, bind_eq_ok]
      exact exists_comm.trans (exists_congr fun s' => exists_and_left)
    rw [hstep]
    simp only [visitDelta_ok hdelta, ih hdeltas, fromDeltas, List.forall_mem_cons, List.length_cons]
    have hbase : baseAfter (some (baseAfter state.1 + delta - 1)) = baseAfter state.1 + delta := by
      simp only [baseAfter]
      omega
    constructor
    · rintro ⟨state', ⟨hrow, rfl⟩, hrest, hcount⟩
      rw [hbase] at hrest
      exact ⟨⟨hrow, hrest⟩, by omega⟩
    · rintro ⟨⟨hrow, hrest⟩, hcount⟩
      exact ⟨_, ⟨hrow, rfl⟩, by rwa [hbase], by omega⟩

/-- The loop of the check: every row of every list is of its key, and all are counted. -/
theorem countRows_ok {entries : List (ℕ × PostingList)} {start count : ℕ} :
    entries.foldlM (fun count entry =>
      Prod.snd <$> (expandRuns entry.2.runs).foldlM (visitDelta n f entry.1) (none, count)) start =
        (.ok count : Except IndexError ℕ) ↔
      (∀ entry ∈ entries, ∀ row ∈ entry.2.rows, row < n ∧ f row = some entry.1) ∧
        count = start + (entries.flatMap fun entry => entry.2.rows).length := by
  induction entries generalizing start with
  | nil => simp [pure, Except.pure, eq_comm]
  | cons entry entries ih =>
    rw [List.foldlM_cons, bind_eq_ok]
    simp only [visit_ok entry.2.deltas_ne_zero, ih, List.forall_mem_cons, List.flatMap_cons, List.length_append]
    have hlen : (expandRuns entry.2.runs).length = entry.2.rows.length := by
      rw [PostingList.rows, length_fromDeltas]
    constructor
    · rintro ⟨mid, ⟨hrows, rfl⟩, hrest, hcount⟩
      exact ⟨⟨hrows, hrest⟩, by omega⟩
    · rintro ⟨⟨hrows, hrest⟩, hcount⟩
      exact ⟨_, ⟨hrows, rfl⟩, hrest, by omega⟩

theorem rows_nodup (h : ∀ entry ∈ m.entries, ∀ row ∈ entry.2.rows, row < n ∧ f row = some entry.1) :
    (m.entries.flatMap fun entry => entry.2.rows).Nodup := by
  refine List.nodup_flatMap.mpr ⟨fun entry _ => entry.2.rows_pairwise.imp Nat.ne_of_lt, ?_⟩
  refine List.Pairwise.imp_of_mem (fun {a b} ha hb hlt => ?_) m.sorted
  intro row hrow hrow'
  have heq := (h a ha row hrow).2.symm.trans (h b hb row hrow').2
  exact hlt.ne (Option.some.inj heq)

/-- The check accepts the lists of the partition, and no others. -/
theorem validatePostingPartition_ok (hne : ∀ entry ∈ m.entries, entry.2.runs ≠ []) :
    validatePostingPartition m n f = .ok () ↔ Indexes (rowsWith n f) m := by
  have hcheck : validatePostingPartition m n f = .ok () ↔
      (∀ entry ∈ m.entries, ∀ row ∈ entry.2.rows, row < n ∧ f row = some entry.1) ∧
        (m.entries.flatMap fun entry => entry.2.rows).length =
          ((List.range n).filter fun row => (f row).isSome).length := by
    unfold validatePostingPartition
    simp only [bind_eq_ok, countRows_ok, Nat.zero_add]
    constructor
    · rintro ⟨count, ⟨hrows, rfl⟩, hcount⟩
      split_ifs at hcount with h
      exact ⟨hrows, not_not.mp h⟩
    · rintro ⟨hrows, hcount⟩
      exact ⟨_, ⟨hrows, rfl⟩, by simp [hcount]⟩
  have hkeyed : ((List.range n).filter fun row => (f row).isSome).Nodup := List.nodup_range.filter _
  rw [hcheck]
  constructor
  · rintro ⟨hrows, hcount⟩
    -- no row is listed twice, so that as many rows as have a key are all of them
    have hperm := ((rows_nodup hrows).subperm fun row hrow => by
      obtain ⟨entry, hentry, hrow⟩ := List.mem_flatMap.mp hrow
      obtain ⟨hlt, hkey⟩ := hrows entry hentry row hrow
      simpa using ⟨hlt, Option.isSome_of_eq_some hkey⟩).perm_of_length_le hcount.ge
    have hall : ∀ row key, row < n → f row = some key →
        ∃ entry ∈ m.entries, entry.1 = key ∧ row ∈ entry.2.rows := by
      intro row key hlt hkey
      have hmem : row ∈ m.entries.flatMap fun entry => entry.2.rows :=
        hperm.mem_iff.mpr (by simp [hlt, hkey])
      obtain ⟨entry, hentry, hrow⟩ := List.mem_flatMap.mp hmem
      refine ⟨entry, hentry, ?_, hrow⟩
      exact Option.some.inj ((hrows entry hentry row hrow).2.symm.trans hkey)
    have hlist : ∀ entry ∈ m.entries, entry.2.rows = rowsWith n f entry.1 := by
      intro entry hentry
      refine entry.2.rows_pairwise.eq_of_mem_iff (rowsWith_pairwise _) fun row => ?_
      rw [mem_rowsWith]
      refine ⟨hrows entry hentry row, fun h => ?_⟩
      obtain ⟨entry', hentry', hkey, hrow⟩ := hall row entry.1 h.1 h.2
      have hget : m.get entry.1 = some entry'.2 := SortedMap.get_eq_some.mpr (hkey ▸ hentry')
      rwa [← Option.some.inj (hget.symm.trans (SortedMap.get_eq_some.mpr hentry))]
    intro key posting
    constructor
    · intro h
      have heq := hlist _ h
      exact ⟨heq, heq ▸ PostingList.rows_ne_nil (hne _ h)⟩
    · rintro ⟨heq, hkey⟩
      obtain ⟨row, hrow⟩ := List.exists_mem_of_ne_nil _ hkey
      obtain ⟨entry, hentry, hentrykey, -⟩ := hall row key (mem_rowsWith.mp hrow).1 (mem_rowsWith.mp hrow).2
      have hposting : entry.2 = posting :=
        PostingList.rows_inj ((hlist entry hentry).trans (hentrykey ▸ heq.symm))
      rw [← hentrykey, ← hposting]
      exact hentry
  · intro h
    have hrows : ∀ entry ∈ m.entries, ∀ row ∈ entry.2.rows, row < n ∧ f row = some entry.1 := by
      intro entry hentry row hrow
      rw [((h entry.1 entry.2).mp hentry).1] at hrow
      exact mem_rowsWith.mp hrow
    refine ⟨hrows, List.Perm.length_eq ((List.perm_ext_iff_of_nodup (rows_nodup hrows) hkeyed).mpr ?_)⟩
    intro row
    simp only [List.mem_flatMap, List.mem_filter, List.mem_range, Option.isSome_iff_exists]
    constructor
    · rintro ⟨entry, hentry, hrow⟩
      exact ⟨(hrows entry hentry row hrow).1, entry.1, (hrows entry hentry row hrow).2⟩
    · rintro ⟨hlt, key, hkey⟩
      have hmem : row ∈ rowsWith n f key := mem_rowsWith.mpr ⟨hlt, hkey⟩
      obtain ⟨posting, -, hposting⟩ := PostingList.fromRows_ok (@rowsWith_pairwise n f key)
      exact ⟨(key, posting), (h key posting).mpr ⟨hposting, List.ne_nil_of_mem hmem⟩, hposting ▸ hmem⟩

theorem partition_iff (hne : ∀ entry ∈ m.entries, entry.2.runs ≠ []) :
    validatePostingPartition m n f = .ok () ↔ keyedPostingPartition n f = .ok m := by
  obtain ⟨m', hbuild, hm'⟩ := keyedPostingPartition_ok n f
  rw [validatePostingPartition_ok hne, hbuild, Except.ok.injEq]
  exact ⟨fun h => hm'.unique h, fun h => h ▸ hm'⟩

end Partition

/-- The rows given with a key, in order and without repetition. -/
def keyRows (pairs : List (ℕ × ℕ)) (key : ℕ) : List ℕ :=
  dropRepeats (sortRows ((pairs.filter (·.1 = key)).map Prod.snd))

theorem sortRows_pairwise (rows : List ℕ) : (sortRows rows).Pairwise (· ≤ ·) := List.pairwise_mergeSort' _ rows

theorem keyRows_pairwise (pairs : List (ℕ × ℕ)) (key : ℕ) : (keyRows pairs key).Pairwise (· < ·) :=
  dropRepeats_pairwise (sortRows_pairwise _)

theorem mem_keyRows {pairs : List (ℕ × ℕ)} {key row : ℕ} : row ∈ keyRows pairs key ↔ (key, row) ∈ pairs := by
  rw [keyRows, mem_dropRepeats, sortRows, (List.mergeSort_perm _ _).mem_iff]
  simp

section Pairs

variable {V : Type} {le : V → V → Bool}

theorem sortPairs_perm (pairs : List (ℕ × V)) : (sortPairs le pairs).Perm pairs := List.mergeSort_perm _ _

theorem sortPairs_pairwise (htrans : ∀ a b c, le a b = true → le b c = true → le a c = true)
    (htotal : ∀ a b, (le a b || le b a) = true) (pairs : List (ℕ × V)) :
    (sortPairs le pairs).Pairwise fun a b => a.1 < b.1 ∨ a.1 = b.1 ∧ le a.2 b.2 = true := by
  have h := @List.pairwise_mergeSort _ (fun a b : ℕ × V => decide (a.1 < b.1) || a.1 == b.1 && le a.2 b.2)
    ?_ ?_ pairs
  · simpa [sortPairs] using h
  · intro a b c hab hbc
    simp only [Bool.or_eq_true, decide_eq_true_eq, Bool.and_eq_true, beq_iff_eq] at *
    rcases hab with hab | ⟨hab, hab'⟩ <;> rcases hbc with hbc | ⟨hbc, hbc'⟩
    · exact .inl (hab.trans hbc)
    · exact .inl (hbc ▸ hab)
    · exact .inl (hab ▸ hbc)
    · exact .inr ⟨hab.trans hbc, htrans _ _ _ hab' hbc'⟩
  · intro a b
    have := htotal a.2 b.2
    simp only [Bool.or_eq_true, decide_eq_true_eq, Bool.and_eq_true, beq_iff_eq] at *
    rcases Nat.lt_trichotomy a.1 b.1 with h | h | h
    · exact .inl (.inl h)
    · exact this.imp (fun h' => .inr ⟨h, h'⟩) fun h' => .inr ⟨h.symm, h'⟩
    · exact .inr (.inl h)

end Pairs

theorem sortPairs_lex (pairs : List (ℕ × ℕ)) :
    (sortPairs (· ≤ ·) pairs).Pairwise fun a b => a.1 < b.1 ∨ a.1 = b.1 ∧ a.2 ≤ b.2 := by
  have := @sortPairs_pairwise ℕ (fun a b => decide (a ≤ b)) (fun a b c hab hbc => by simp at *; omega)
    (fun a b => by simp; omega) pairs
  simpa using this

theorem filter_sortPairs (pairs : List (ℕ × ℕ)) (key : ℕ) :
    ((sortPairs (· ≤ ·) pairs).filter (·.1 = key)).map Prod.snd =
      sortRows ((pairs.filter (·.1 = key)).map Prod.snd) := by
  refine List.Perm.eq_of_pairwise' ?_ (sortRows_pairwise _) ?_
  · rw [List.pairwise_map]
    refine ((sortPairs_lex pairs).sublist List.filter_sublist).imp_of_mem fun {a b} ha hb h => ?_
    have hakey := (List.mem_filter.mp ha).2
    have hbkey := (List.mem_filter.mp hb).2
    simp only [decide_eq_true_eq] at hakey hbkey
    omega
  · exact (((sortPairs_perm pairs).filter _).map _).trans (List.mergeSort_perm _ _).symm

/-- Gathering always comes out, with the rows of each key. -/
theorem keyedPostings_ok (pairs : List (ℕ × ℕ)) :
    ∃ m, keyedPostings pairs = .ok m ∧ Indexes (keyRows pairs) m := by
  have hle : (sortPairs (· ≤ ·) pairs).Pairwise (·.1 ≤ ·.1) := (sortPairs_lex pairs).imp fun h => by omega
  have hgroups := groupByKey_pairwise hle
  have hrows : ∀ group ∈ groupByKey (sortPairs (· ≤ ·) pairs), dropRepeats group.2 = keyRows pairs group.1 := by
    intro group hgroup
    rw [values_of_mem hgroups hgroup, ungroup_groupByKey, filter_sortPairs, keyRows]
  have hgather : ∀ group posting, gatherGroup group = .ok posting →
      PostingList.fromRows (dropRepeats group.2) = .ok posting.2 ∧ posting.1 = group.1 := by
    intro group entry h
    obtain ⟨posting, hposting, h⟩ := bind_eq_ok.mp h
    obtain rfl := pure_eq_ok.mp h
    exact ⟨hposting, rfl⟩
  have hok : ∀ group ∈ groupByKey (sortPairs (· ≤ ·) pairs), ∃ entry, gatherGroup group = .ok entry := by
    intro group hgroup
    obtain ⟨posting, hposting, -⟩ := PostingList.fromRows_ok (hrows group hgroup ▸ keyRows_pairwise pairs group.1)
    exact ⟨(group.1, posting), bind_eq_ok.mpr ⟨posting, hposting, rfl⟩⟩
  obtain ⟨entries, hentries⟩ := exists_mapM_ok hok
  have hkeys : entries.map Prod.fst = (groupByKey (sortPairs (· ≤ ·) pairs)).map Prod.fst :=
    map_of_mapM_ok hentries fun group entry h => (hgather group entry h).2
  have hsorted : entries.Pairwise (·.1 < ·.1) :=
    List.pairwise_map.mp (hkeys ▸ List.pairwise_map.mpr hgroups)
  have hentry : ∀ entry ∈ entries, entry.2.rows = keyRows pairs entry.1 ∧ keyRows pairs entry.1 ≠ [] := by
    intro entry hmem
    obtain ⟨group, hgroup, h⟩ := mem_of_mapM_ok hentries hmem
    obtain ⟨hposting, hkey⟩ := hgather group entry h
    have heq := PostingList.rows_of_fromRows hposting
    rw [hkey]
    refine ⟨heq.trans (hrows group hgroup), ?_⟩
    obtain ⟨value, hvalue⟩ := List.exists_mem_of_ne_nil _ (groupByKey_ne_nil hgroup)
    exact List.ne_nil_of_mem (hrows group hgroup ▸ mem_dropRepeats.mpr hvalue)
  refine ⟨⟨entries, hsorted⟩, ?_, fun key posting => ⟨fun h => hentry _ h, ?_⟩⟩
  · unfold keyedPostings
    rw [hentries]
    exact fromSorted_ok.mpr rfl
  · rintro ⟨heq, hne⟩
    obtain ⟨row, hrow⟩ := List.exists_mem_of_ne_nil _ hne
    have hmem : (key, row) ∈ ungroup (groupByKey (sortPairs (· ≤ ·) pairs)) := by
      rw [ungroup_groupByKey, (sortPairs_perm pairs).mem_iff]
      exact mem_keyRows.mp hrow
    obtain ⟨group, hgroup, hmem⟩ := List.mem_flatMap.mp hmem
    obtain ⟨value, -, hpair⟩ := List.mem_map.mp hmem
    have hkey : key ∈ entries.map Prod.fst := by
      rw [hkeys]
      exact List.mem_map.mpr ⟨group, hgroup, congrArg Prod.fst hpair⟩
    obtain ⟨entry, hmem', rfl⟩ := List.mem_map.mp hkey
    rwa [PostingList.rows_inj (heq.trans (hentry entry hmem').1.symm)]

end QTrace.Store
