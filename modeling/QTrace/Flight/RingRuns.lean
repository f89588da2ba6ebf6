import QTrace.Flight.RingProtection

/-! Whole runs of the chunk ring. The steps are the calls that touch the ring, by
any threads in any order; next to the ring the run keeps every lease handed out.
The invariant says that the protected lists are the ends of the acquisition
histories, and everything about reuse and exhaustion is read off it. -/

namespace QTrace.Flight

open Lib Lib.LinkedQueue

inductive RingOp where
  | registerThread (tid : ℕ)
  | acquireChunk (registration : Registration) (firstSequence : ℕ)
  | publishThreadSequence (registration : Registration) (lease : ChunkLease)
      (firstSequence lastSequence : ℕ)
  | sealChunk (lease : ChunkLease)
      (firstSequence lastSequence committedBytes recordCount checksum : ℕ)

/-- The ring and the leases handed out so far, each with its directory index. -/
structure RingHistory where
  ring : Ring
  leases : List (ℕ × ChunkLease)

namespace RingHistory

/-- One call; a call that fails changes nothing here. -/
def step (g : Geometry) (s : RingHistory) : RingOp → RingHistory
  | .registerThread tid =>
    match s.ring.registerThread g tid with
    | none => s
    | some (r, _) => { s with ring := r }
  | .acquireChunk registration firstSequence =>
    match s.ring.acquireChunk g registration firstSequence with
    | .error _ => s
    | .ok (r, lease) => ⟨r, s.leases ++ [(registration.directoryIndex, lease)]⟩
  | .publishThreadSequence registration lease firstSequence lastSequence =>
    match s.ring.publishThreadSequence g registration lease firstSequence lastSequence with
    | none => s
    | some r => { s with ring := r }
  | .sealChunk lease firstSequence lastSequence committedBytes recordCount checksum =>
    match s.ring.sealChunk g lease firstSequence lastSequence committedBytes recordCount checksum with
    | none => s
    | some r => { s with ring := r }

def run (g : Geometry) (ops : List RingOp) : RingHistory := ops.foldl (step g) ⟨Ring.create, []⟩

/-- The chunks a thread acquired, oldest first. -/
def acquired (s : RingHistory) (thread : ℕ) : List ℕ :=
  (s.leases.filter (·.1 = thread)).map (·.2.chunkIndex)

/-- The invariant of every run. -/
structure Sound (g : Geometry) (s : RingHistory) : Prop where
  lists : Protects g s.ring fun t => (s.acquired t).rtake g.protectedChunks
  free_unprotected : ∀ c, (s.ring.chunk c).state = .free →
    (s.ring.chunkMetadata c).protectedChunk = false
  epoch_le : ∀ c, (s.ring.chunkMetadata c).epoch ≤ s.ring.allocationEpoch
  allocationEpoch_le : s.ring.allocationEpoch ≤ uint64Max

variable {g : Geometry} {s : RingHistory}

theorem sound_create : Sound g ⟨Ring.create, []⟩ where
  lists := by simpa [RingHistory.acquired] using protects_create
  free_unprotected _ _ := rfl
  epoch_le _ := le_rfl
  allocationEpoch_le := Nat.zero_le _

theorem acquired_concat (s : RingHistory) (r : Ring) (t : ℕ) (lease : ChunkLease) :
    (⟨r, s.leases ++ [(t, lease)]⟩ : RingHistory).acquired =
      Function.update s.acquired t (s.acquired t ++ [lease.chunkIndex]) := by
  funext u
  by_cases hu : u = t
  · subst hu; simp [RingHistory.acquired]
  · have : t ≠ u := fun e => hu e.symm
    simp [RingHistory.acquired, hu, this]

theorem Sound.select_unprotected (h : Sound g s) (hsel : s.ring.select g ≠ invalidIndex) (t : ℕ) :
    s.ring.select g ∉ (s.acquired t).rtake g.protectedChunks := by
  intro hmem
  have hflag := (h.lists.flag _).2 ⟨t, hmem⟩
  rcases (select_ne_invalid hsel).2 with hfree | hfalse
  · rw [h.free_unprotected _ hfree] at hflag; cases hflag
  · rw [hfalse] at hflag; cases hflag

theorem epoch_linkNewest (r : Ring) (t c x : ℕ) :
    ((r.linkNewest t c).chunkMetadata x).epoch =
      if x = c then r.allocationEpoch + 1 else (r.chunkMetadata x).epoch := by
  unfold Ring.linkNewest
  by_cases hn : (r.threadMetadata t).newestProtected = invalidIndex
  · by_cases hx : x = c <;> simp [hn, hx]
  · simp only [hn, ne_eq, not_false_eq_true, if_true, Function.update_apply]
    split_ifs <;> simp_all

theorem expireOldest_epoch (g : Geometry) (r : Ring) (t x : ℕ) :
    ((r.expireOldest g t).chunkMetadata x).epoch = (r.chunkMetadata x).epoch := by
  unfold Ring.expireOldest
  dsimp only
  split_ifs
  · by_cases hx : x = (r.threadMetadata t).oldestProtected <;> simp [hx]
  · rfl

theorem flag_of_flag_expireOldest {g : Geometry} {r : Ring} {t x : ℕ}
    (h : ((r.expireOldest g t).chunkMetadata x).protectedChunk = true) :
    (r.chunkMetadata x).protectedChunk = true := by
  unfold Ring.expireOldest at h
  dsimp only at h
  split_ifs at h
  · by_cases hx : x = (r.threadMetadata t).oldestProtected <;> simp_all
  · exact h

@[simp] theorem expireOldest_chunk (g : Geometry) (r : Ring) (t : ℕ) :
    (r.expireOldest g t).chunk = r.chunk := by
  unfold Ring.expireOldest; dsimp only; split_ifs <;> rfl

@[simp] theorem expireOldest_allocationEpoch (g : Geometry) (r : Ring) (t : ℕ) :
    (r.expireOldest g t).allocationEpoch = r.allocationEpoch := by
  unfold Ring.expireOldest; dsimp only; split_ifs <;> rfl

theorem Sound.takeChunk (h : Sound g s) (registration : Registration) (firstSequence : ℕ)
    (hsel : s.ring.select g ≠ invalidIndex) (hepoch : s.ring.allocationEpoch ≠ uint64Max) :
    Sound g ⟨(s.ring.takeChunk g registration firstSequence (s.ring.select g)).1,
      s.leases ++ [(registration.directoryIndex,
        (s.ring.takeChunk g registration firstSequence (s.ring.select g)).2)]⟩ where
  lists := by
    rw [acquired_concat]
    convert h.lists.takeChunk registration firstSequence (select_ne_invalid hsel).1 (h.select_unprotected hsel) using 1
    funext u
    by_cases hu : u = registration.directoryIndex
    · subst hu
      simp only [Function.update_self]
      exact rtake_concat_eq_window g.protectedChunks_pos _ _
    · simp [hu]
  free_unprotected c hc := by
    simp only [Ring.takeChunk, expireOldest_chunk] at hc ⊢
    by_contra hflag
    rw [Bool.not_eq_false] at hflag
    have hflag := flag_of_flag_expireOldest hflag
    rw [flag_linkNewest] at hflag
    by_cases hcs : c = s.ring.select g
    · subst hcs; simp [Ring.linkNewest, acquiredHeader] at hc
    · simp only [Ring.linkNewest, Function.update_of_ne hcs] at hc
      rcases hflag with hflag | hflag
      · exact hcs hflag
      · simp [h.free_unprotected c hc] at hflag
  epoch_le c := by
    simp only [Ring.takeChunk, expireOldest_epoch, epoch_linkNewest, expireOldest_allocationEpoch]
    have := h.epoch_le c
    simp only [Ring.linkNewest]
    split_ifs <;> omega
  allocationEpoch_le := by
    simp only [Ring.takeChunk, expireOldest_allocationEpoch, Ring.linkNewest]
    have := h.allocationEpoch_le
    omega

theorem Sound.congr (h : Sound g s) (r : Ring) (hm : r.chunkMetadata = s.ring.chunkMetadata)
    (ht : r.threadMetadata = s.ring.threadMetadata) (he : r.allocationEpoch = s.ring.allocationEpoch)
    (hf : ∀ c, (r.chunk c).state = .free → (s.ring.chunk c).state = .free) :
    Sound g { s with ring := r } where
  lists := h.lists.congr r hm ht
  free_unprotected c hc := by
    have := h.free_unprotected c (hf c hc)
    rwa [← hm] at this
  epoch_le c := by
    have := h.epoch_le c
    rwa [← hm, ← he] at this
  allocationEpoch_le := by
    have := h.allocationEpoch_le
    rwa [← he] at this

theorem Sound.step (h : Sound g s) (op : RingOp) : Sound g (s.step g op) := by
  cases op with
  | registerThread tid =>
    simp only [RingHistory.step]
    split
    · exact h
    next r _ hr =>
      unfold Ring.registerThread at hr
      split_ifs at hr
      split at hr
      · cases hr
      · split_ifs at hr <;> cases hr <;> exact h.congr _ rfl rfl rfl fun _ => id
  | acquireChunk registration firstSequence =>
    simp only [RingHistory.step]
    split
    · exact h
    next r lease hr =>
      obtain ⟨-, -, hsel, -, hepoch, hp⟩ := acquireChunk_ok hr
      have := h.takeChunk registration firstSequence hsel hepoch
      rwa [← hp] at this
  | publishThreadSequence registration lease firstSequence lastSequence =>
    simp only [RingHistory.step]
    split
    · exact h
    next r hr =>
      simp only [Ring.publishThreadSequence, Option.ite_none_right_eq_some, Option.some.injEq] at hr
      obtain ⟨-, rfl⟩ := hr
      exact h.congr _ rfl rfl rfl fun _ => id
  | sealChunk lease firstSequence lastSequence committedBytes recordCount checksum =>
    simp only [RingHistory.step]
    split
    · exact h
    next r hr =>
      simp only [Ring.sealChunk, Option.ite_none_right_eq_some, Option.some.injEq] at hr
      obtain ⟨-, rfl⟩ := hr
      refine h.congr _ rfl rfl rfl fun c hc => ?_
      by_cases hl : c = lease.chunkIndex
      · subst hl; simp at hc
      · simpa [hl] using hc

theorem sound_run (g : Geometry) (ops : List RingOp) : Sound g (run g ops) :=
  List.foldlRecOn ops _ sound_create fun _ h op _ => h.step op

theorem Sound.lease_protected (h : Sound g s) {t c : ℕ} (hc : (s.acquired t).getLast? = some c) :
    c ∈ s.ring.protectedList t := by
  rw [h.lists.protectedList_eq]
  obtain ⟨l, hl⟩ : ∃ l, s.acquired t = l ++ [c] := by
    rw [List.getLast?_eq_some_iff] at hc; exact hc
  obtain ⟨n, hn⟩ : ∃ n, g.protectedChunks = n + 1 := ⟨_, (Nat.succ_pred_eq_of_pos g.protectedChunks_pos).symm⟩
  rw [hl, hn, List.rtake_concat_succ]
  simp

/-- Over every run of ring calls the protected lists are acyclic, pairwise disjoint
and hold each thread's latest chunks; an acquisition takes a chunk from none of them
and raises its generation, and it reports exhaustion only when every chunk is
protected or a counter has run out. -/
theorem run_protection (g : Geometry) (ops : List RingOp) :
    let s := run g ops
    (∀ t, (s.ring.protectedList t).Nodup ∧
      ∀ c ∈ (s.ring.protectedList t).getLast?, s.ring.nextProtected c = invalidIndex) ∧
    (∀ t u, t ≠ u → (s.ring.protectedList t).Disjoint (s.ring.protectedList u)) ∧
    (∀ t, s.ring.protectedList t = (s.acquired t).rtake g.protectedChunks) ∧
    (∀ registration firstSequence r lease,
      s.ring.acquireChunk g registration firstSequence = .ok (r, lease) →
        (∀ t, lease.chunkIndex ∉ s.ring.protectedList t) ∧
        (∀ t, (s.acquired t).getLast? ≠ some lease.chunkIndex) ∧
        (s.ring.chunk lease.chunkIndex).generation < lease.generation ∧
        (r.chunk lease.chunkIndex).generation = lease.generation) ∧
    ∀ registration firstSequence e,
      s.ring.acquireChunk g registration firstSequence = .error e →
      e.reason = some .chunkExhausted →
        (∀ c < g.chunkCount, ∃ t, c ∈ s.ring.protectedList t) ∨
        (∃ c < g.chunkCount, (s.ring.chunk c).generation = uint32Max) ∨
        s.ring.allocationEpoch = uint64Max := by
  intro s
  have h : Sound g s := sound_run g ops
  have hlist := h.lists.protectedList_eq
  refine ⟨fun t => ?_, fun t u htu => ?_, hlist, fun registration firstSequence r lease hok => ?_,
    fun registration firstSequence e herr hreason => ?_⟩
  · rw [hlist]
    exact ⟨(h.lists.threads t).nodup, (h.lists.threads t).last_link⟩
  · rw [hlist, hlist]
    exact h.lists.disjoint t u htu
  · obtain ⟨-, -, hsel, -, -, hp⟩ := acquireChunk_ok hok
    have hnot : ∀ t, s.ring.select g ∉ s.ring.protectedList t := fun t => by
      rw [hlist]; exact h.select_unprotected hsel t
    obtain ⟨rfl, rfl⟩ := Prod.mk.inj hp
    refine ⟨hnot, fun t ht => hnot t (h.lease_protected ht), Nat.lt_succ_self _, ?_⟩
    simp [Ring.linkNewest, acquiredHeader]
  · rcases acquireChunk_exhausted herr hreason with hinv | ⟨hsel, hgen | hepoch⟩
    · by_cases hall : ∀ c < g.chunkCount, ∃ t, c ∈ s.ring.protectedList t
      · exact Or.inl hall
      · -- an unprotected chunk was passed over for its epoch, which the allocator has reached
        push Not at hall
        obtain ⟨c, hc, hnone⟩ := hall
        have hmax := (select_eq_invalid hinv c hc).resolve_left fun hflag => by
          obtain ⟨t, ht⟩ := (h.lists.flag c).1 hflag
          exact hnone t (by rwa [hlist])
        have h1 := h.epoch_le c
        have h2 := h.allocationEpoch_le
        exact Or.inr (Or.inr (by omega))
    · exact Or.inr (Or.inl ⟨_, (select_ne_invalid hsel).1, hgen⟩)
    · exact Or.inr (Or.inr hepoch)

end RingHistory

end QTrace.Flight
