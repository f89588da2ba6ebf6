import QTrace.Flight.Ring

/-! The protected lists of the chunk ring. Each thread's list is a linked queue
threaded through the shared chunk metadata. Acquisition pushes the selected chunk
on the caller's queue and pops the oldest one once the queue outgrows
`protected_chunks`, so after any run every queue is the tail of its thread's
acquisition history, and no chunk on a queue is ever selected. -/

namespace QTrace.Flight

open Lib Lib.LinkedQueue

namespace Ring

/-- The links of the protected lists. -/
def nextProtected (r : Ring) : ℕ → ℕ := fun c => (r.chunkMetadata c).nextProtected

def protectedQueue (r : Ring) (thread : ℕ) : LinkedQueue ℕ :=
  ⟨(r.threadMetadata thread).oldestProtected, (r.threadMetadata thread).newestProtected,
    (r.threadMetadata thread).protectedCount⟩

/-- The chunks reached from a thread's oldest protected chunk. -/
def protectedList (r : Ring) (thread : ℕ) : List ℕ := (r.protectedQueue thread).nodes r.nextProtected

end Ring

/-- The metadata of `r` represents the protected lists `L`. -/
structure Protects (g : Geometry) (r : Ring) (L : ℕ → List ℕ) : Prop where
  threads : ∀ t, Threads r.nextProtected invalidIndex (r.protectedQueue t) (L t)
  disjoint : ∀ t u, t ≠ u → (L t).Disjoint (L u)
  flag : ∀ c, (r.chunkMetadata c).protectedChunk = true ↔ ∃ t, c ∈ L t
  bound : ∀ t, ∀ c ∈ L t, c < g.chunkCount

variable {g : Geometry} {r : Ring} {L : ℕ → List ℕ}

theorem Protects.protectedList_eq (h : Protects g r L) (t : ℕ) : r.protectedList t = L t :=
  (h.threads t).nodes_eq

theorem protects_create : Protects g Ring.create (fun _ => []) where
  threads _ := threads_nil _ _ _
  disjoint _ _ _ := by simp
  flag _ := by simp [Ring.create]
  bound _ _ hc := by simp at hc

/-- Only the runtime metadata matters for the lists. -/
theorem Protects.congr (h : Protects g r L) (r' : Ring) (hc : r'.chunkMetadata = r.chunkMetadata)
    (ht : r'.threadMetadata = r.threadMetadata) : Protects g r' L where
  threads t := by
    have hn : r'.nextProtected = r.nextProtected := by unfold Ring.nextProtected; rw [hc]
    rw [hn, Ring.protectedQueue, ht]
    exact h.threads t
  disjoint := h.disjoint
  flag c := by rw [hc]; exact h.flag c
  bound := h.bound

theorem nextProtected_linkNewest (r : Ring) (t c : ℕ) : (r.linkNewest t c).nextProtected =
    pushNext r.nextProtected invalidIndex (r.protectedQueue t) c := by
  funext x
  unfold Ring.nextProtected Ring.linkNewest pushNext Ring.protectedQueue
  by_cases hn : (r.threadMetadata t).newestProtected = invalidIndex
  · by_cases hx : x = c <;> simp [hn, hx]
  · simp only [hn, ne_eq, not_false_eq_true, if_true, if_false, Function.update_apply]
    split_ifs <;> rfl

theorem flag_linkNewest (r : Ring) (t c x : ℕ) :
    ((r.linkNewest t c).chunkMetadata x).protectedChunk = true ↔
      x = c ∨ (r.chunkMetadata x).protectedChunk = true := by
  unfold Ring.linkNewest
  by_cases hn : (r.threadMetadata t).newestProtected = invalidIndex
  · by_cases hx : x = c <;> simp [hn, hx]
  · simp only [hn, ne_eq, not_false_eq_true, if_true, Function.update_apply]
    split_ifs <;> simp_all

theorem protectedQueue_linkNewest_of_ne (r : Ring) {t u : ℕ} (c : ℕ) (h : u ≠ t) :
    (r.linkNewest t c).protectedQueue u = r.protectedQueue u := by
  simp [Ring.protectedQueue, Ring.linkNewest, h]

theorem protectedQueue_linkNewest_self (r : Ring) (t c : ℕ)
    (h : (r.threadMetadata t).protectedCount + 1 < 2 ^ 32) :
    (r.linkNewest t c).protectedQueue t = (r.protectedQueue t).push invalidIndex c := by
  simp only [Ring.protectedQueue, Ring.linkNewest, Function.update_self, LinkedQueue.push,
    Nat.mod_eq_of_lt h]
  split_ifs <;> simp_all

variable {c : ℕ}

theorem Protects.length_lt (h : Protects g r L) {t : ℕ} (hc : c < g.chunkCount) (hcL : c ∉ L t) :
    (L t).length + 1 < 2 ^ 32 := by
  have hnd : (c :: L t).Nodup := List.nodup_cons.2 ⟨hcL, (h.threads t).nodup⟩
  have hsub : c :: L t ⊆ List.range g.chunkCount := by
    intro x hx
    rcases List.mem_cons.1 hx with rfl | hx
    · exact List.mem_range.2 hc
    · exact List.mem_range.2 (h.bound t x hx)
  have hlen := (List.subperm_of_subset hnd hsub).length_le
  have := g.chunkCount_le
  simp only [List.length_cons, List.length_range, uint32Max] at hlen this
  omega

theorem mem_update_concat {t u x : ℕ} : x ∈ Function.update L t (L t ++ [c]) u ↔ x ∈ L u ∨ u = t ∧ x = c := by
  by_cases hu : u = t
  · subst hu; simp
  · simp [hu]

theorem Protects.linkNewest (h : Protects g r L) (t : ℕ) (hc : c < g.chunkCount) (hfresh : ∀ u, c ∉ L u) :
    Protects g (r.linkNewest t c) (Function.update L t (L t ++ [c])) where
  threads u := by
    have hne : c ≠ invalidIndex := by
      have := g.chunkCount_le
      unfold invalidIndex; omega
    rw [nextProtected_linkNewest]
    by_cases hu : u = t
    · subst hu
      have hcount : (r.threadMetadata u).protectedCount + 1 < 2 ^ 32 := by
        have := (h.threads u).length_eq
        have hlt := h.length_lt hc (hfresh u)
        rw [this] at hlt
        exact hlt
      rw [protectedQueue_linkNewest_self r u c hcount, Function.update_self]
      exact (h.threads u).push (hfresh u) hne
    · rw [protectedQueue_linkNewest_of_ne r c hu, Function.update_of_ne hu]
      -- the links that change are those of `c` and of the caller's newest chunk
      refine (h.threads u).frame fun x hx => pushNext_of_ne (fun e => hfresh u (e ▸ hx)) ?_
      intro e
      by_cases hnil : L t = []
      · rw [(h.threads t).tail_eq_nil_iff.2 hnil] at e
        exact (h.threads u).nil_notMem (e ▸ hx)
      · have htail : (r.protectedQueue t).tail ∈ L t := by
          rw [(h.threads t).tail_eq, List.getLast?_eq_some_getLast hnil]
          exact List.getLast_mem hnil
        exact h.disjoint u t hu hx (e ▸ htail)
  disjoint u v huv x hx hy := by
    rw [mem_update_concat] at hx hy
    rcases hx with hx | ⟨rfl, rfl⟩
    · rcases hy with hy | ⟨rfl, rfl⟩
      · exact h.disjoint u v huv hx hy
      · exact hfresh u hx
    · rcases hy with hy | ⟨rfl, -⟩
      · exact hfresh v hy
      · exact huv rfl
  flag x := by
    simp only [flag_linkNewest, h.flag, mem_update_concat, exists_or, exists_eq_left, or_comm]
  bound u x hx := by
    rcases mem_update_concat.1 hx with hx | ⟨-, rfl⟩
    · exact h.bound u x hx
    · exact hc

theorem nextProtected_expireOldest (r : Ring) (t : ℕ) :
    (r.expireOldest g t).nextProtected = r.nextProtected := by
  funext x
  unfold Ring.expireOldest Ring.nextProtected
  dsimp only
  split_ifs
  · by_cases hx : x = (r.threadMetadata t).oldestProtected <;> simp [hx]
  · rfl

theorem Protects.expireOldest (h : Protects g r L) {t x : ℕ} {xs : List ℕ} (hL : L t = x :: xs)
    (hlt : g.protectedChunks < (L t).length) :
    Protects g (r.expireOldest g t) (Function.update L t xs) := by
  have hT := h.threads t
  have hcount : (L t).length = (r.threadMetadata t).protectedCount := hT.length_eq
  rw [hL] at hT
  have hgt : (r.threadMetadata t).protectedCount > g.protectedChunks := by omega
  have hhead : (r.threadMetadata t).oldestProtected = x := hT.head_eq
  have hxs : xs ≠ [] := by
    rintro rfl
    have := g.protectedChunks_pos
    simp only [hL, List.length_singleton] at hlt
    omega
  have hmem : ∀ u y, y ∈ Function.update L t xs u → y ∈ L u := by
    intro u y hy
    by_cases hu : u = t
    · subst hu
      rw [Function.update_self] at hy
      rw [hL]; exact List.mem_cons_of_mem _ hy
    · rwa [Function.update_of_ne hu] at hy
  refine ⟨fun u => ?_, fun u v huv y hy hz => h.disjoint u v huv (hmem u y hy) (hmem v y hz),
    fun y => ?_, fun u y hy => h.bound u y (hmem u y hy)⟩
  · rw [nextProtected_expireOldest]
    by_cases hu : u = t
    · subst hu
      rw [Function.update_self]
      have hq : (r.expireOldest g u).protectedQueue u = (r.protectedQueue u).pop r.nextProtected := by
        simp [Ring.expireOldest, hgt, Ring.protectedQueue, LinkedQueue.pop, Ring.nextProtected]
      rw [hq]
      exact hT.pop hxs
    · rw [Function.update_of_ne hu]
      have hq : (r.expireOldest g t).protectedQueue u = r.protectedQueue u := by
        simp [Ring.expireOldest, hgt, Ring.protectedQueue, hu]
      rw [hq]
      exact h.threads u
  · by_cases hy : y = x
    · subst hy
      -- the expired chunk leaves its own list and was on no other
      have hflag : ((r.expireOldest g t).chunkMetadata y).protectedChunk = false := by
        simp [Ring.expireOldest, hgt, hhead]
      simp only [hflag, Bool.false_eq_true, false_iff, not_exists]
      intro u hu
      by_cases hut : u = t
      · subst hut
        rw [Function.update_self] at hu
        exact (List.nodup_cons.1 hT.nodup).1 hu
      · exact h.disjoint u t hut (hmem u y hu) (by simp [hL])
    · have hflag : ((r.expireOldest g t).chunkMetadata y).protectedChunk =
          (r.chunkMetadata y).protectedChunk := by
        simp [Ring.expireOldest, hgt, hhead, hy]
      rw [hflag, h.flag]
      constructor
      · rintro ⟨u, hu⟩
        refine ⟨u, ?_⟩
        by_cases hut : u = t
        · subst hut
          rw [hL] at hu
          rw [Function.update_self]
          exact (List.mem_cons.1 hu).resolve_left hy
        · rwa [Function.update_of_ne hut]
      · rintro ⟨u, hu⟩
        exact ⟨u, hmem u y hu⟩

/-- A bounded window over a history: `c` enters behind, and the oldest leaves when
there are more than `n`. -/
def window (n : ℕ) (l : List ℕ) (c : ℕ) : List ℕ :=
  if n < (l ++ [c]).length then (l ++ [c]).tail else l ++ [c]

/-- The last `n` elements of a growing history move as a window. -/
theorem rtake_concat_eq_window {n : ℕ} (hn : 0 < n) (history : List ℕ) (c : ℕ) :
    (history ++ [c]).rtake n = window n (history.rtake n) c := by
  obtain ⟨m, rfl⟩ : ∃ m, n = m + 1 := ⟨n - 1, by omega⟩
  rw [List.rtake_concat_succ]
  unfold window List.rtake
  by_cases hm : m + 1 ≤ history.length
  · rw [if_pos (by simp; omega), List.tail_append_of_ne_nil (by simp; omega), List.tail_drop]
    congr 2; omega
  · rw [if_neg (by simp; omega)]
    congr 2; omega

theorem Protects.linkNewest_expireOldest (h : Protects g r L) (t : ℕ) (hc : c < g.chunkCount)
    (hfresh : ∀ u, c ∉ L u) :
    Protects g ((r.linkNewest t c).expireOldest g t)
      (Function.update L t (window g.protectedChunks (L t) c)) := by
  have hlink := h.linkNewest t hc hfresh
  unfold window
  split_ifs with hlt
  · obtain ⟨x, xs, hxs⟩ := List.exists_cons_of_ne_nil (l := L t ++ [c]) (by simp)
    have hL : Function.update L t (L t ++ [c]) t = x :: xs := by rw [Function.update_self, hxs]
    have hpop := hlink.expireOldest hL (by simpa using hlt)
    rw [Function.update_idem] at hpop
    rwa [hxs]
  · have hcount := (hlink.threads t).length_eq
    have hkeep : (r.linkNewest t c).expireOldest g t = r.linkNewest t c := by
      unfold Ring.expireOldest
      dsimp only
      rw [if_neg]
      have hq : ((r.linkNewest t c).threadMetadata t).protectedCount = (L t ++ [c]).length := by
        rw [Function.update_self] at hcount; exact hcount.symm
      omega
    rwa [hkeep]

theorem Protects.takeChunk (h : Protects g r L) (registration : Registration) (firstSequence : ℕ)
    (hc : c < g.chunkCount) (hfresh : ∀ u, c ∉ L u) :
    Protects g (r.takeChunk g registration firstSequence c).1
      (Function.update L registration.directoryIndex
        (window g.protectedChunks (L registration.directoryIndex) c)) := by
  have hheader := h.congr { r with chunk := Function.update r.chunk c (acquiredHeader c
    registration.tid ((r.chunk c).generation + 1) firstSequence) } rfl rfl
  exact (hheader.linkNewest_expireOldest registration.directoryIndex hc hfresh).congr _ rfl rfl

/-- The victim scan either keeps its current choice, when no chunk of the range is
free or unprotected below the epoch bound, or returns a free or unprotected chunk. -/
theorem selectFrom_spec (r : Ring) : ∀ (indices : List ℕ) (selected oldestEpoch : ℕ),
    (selectFrom r indices selected oldestEpoch = selected ∧ ∀ i ∈ indices,
        (r.chunk i).state ≠ .free ∧
          ((r.chunkMetadata i).protectedChunk = true ∨ oldestEpoch ≤ (r.chunkMetadata i).epoch)) ∨
      ∃ i ∈ indices, selectFrom r indices selected oldestEpoch = i ∧
        ((r.chunk i).state = .free ∨ (r.chunkMetadata i).protectedChunk = false)
  | [], _, _ => Or.inl ⟨rfl, by simp⟩
  | index :: rest, selected, oldestEpoch => by
    rw [selectFrom]
    split_ifs with hfree hsel
    · exact Or.inr ⟨index, by simp, rfl, Or.inl hfree⟩
    · right
      rcases selectFrom_spec r rest index (r.chunkMetadata index).epoch with ⟨h, -⟩ | ⟨i, hi, h⟩
      · exact ⟨index, by simp, h, Or.inr hsel.1⟩
      · exact ⟨i, by simp [hi], h⟩
    · rcases selectFrom_spec r rest selected oldestEpoch with ⟨h, hrest⟩ | ⟨i, hi, h⟩
      · refine Or.inl ⟨h, fun i hi => ?_⟩
        rcases List.mem_cons.1 hi with rfl | hi
        · refine ⟨hfree, ?_⟩
          by_contra hcon
          simp only [not_or, Bool.not_eq_true, Nat.not_le] at hcon
          exact hsel hcon
        · exact hrest i hi
      · exact Or.inr ⟨i, by simp [hi], h⟩

theorem select_eq_invalid (h : r.select g = invalidIndex) :
    ∀ c < g.chunkCount, (r.chunkMetadata c).protectedChunk = true ∨
      uint64Max ≤ (r.chunkMetadata c).epoch := by
  rcases selectFrom_spec r (List.range g.chunkCount) invalidIndex uint64Max with ⟨-, hall⟩ | ⟨i, hi, he, -⟩
  · exact fun c hc => (hall c (List.mem_range.2 hc)).2
  · have hi := List.mem_range.1 hi
    have := g.chunkCount_le
    unfold Ring.select at h
    rw [he, invalidIndex] at h
    omega

theorem select_ne_invalid (h : r.select g ≠ invalidIndex) :
    r.select g < g.chunkCount ∧ ((r.chunk (r.select g)).state = .free ∨
      (r.chunkMetadata (r.select g)).protectedChunk = false) := by
  rcases selectFrom_spec r (List.range g.chunkCount) invalidIndex uint64Max with ⟨he, -⟩ | ⟨i, hi, he, hs⟩
  · exact absurd he h
  · have hsel : r.select g = i := he
    rw [hsel]
    exact ⟨List.mem_range.1 hi, hs⟩

variable {registration : Registration} {firstSequence : ℕ}

/-- What a successful acquisition checked and did. -/
theorem acquireChunk_ok {p : Ring × ChunkLease} (h : r.acquireChunk g registration firstSequence = .ok p) :
    (r.directory registration.directoryIndex).tid = registration.tid ∧
      registration.directoryIndex < g.maxThreads ∧ r.select g ≠ invalidIndex ∧
      (r.chunk (r.select g)).generation ≠ uint32Max ∧ r.allocationEpoch ≠ uint64Max ∧
      p = r.takeChunk g registration firstSequence (r.select g) := by
  unfold Ring.acquireChunk at h
  split_ifs at h with hreg hsel hover
  simp only [not_or, not_le, not_not] at hreg hover
  exact ⟨hreg.2.2, hreg.2.1, hsel, hover.1, hover.2, (Except.ok.inj h).symm⟩

/-- An acquisition that publishes `ChunkExhausted` found no chunk, or a counter used up. -/
theorem acquireChunk_exhausted {e : AcquireError} (h : r.acquireChunk g registration firstSequence = .error e)
    (he : e.reason = some .chunkExhausted) :
    r.select g = invalidIndex ∨ r.select g ≠ invalidIndex ∧
      ((r.chunk (r.select g)).generation = uint32Max ∨ r.allocationEpoch = uint64Max) := by
  unfold Ring.acquireChunk at h
  split_ifs at h with hreg hsel hover
  · cases h; simp [AcquireError.reason] at he
  · exact Or.inl hsel
  · exact Or.inr ⟨hsel, hover⟩

end QTrace.Flight
