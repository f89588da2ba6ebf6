import QTrace.Flight.ActiveChunk
import QTrace.Flight.RingRuns

/-! The leases of a run. A chunk is handed out for one generation after the other, so that an old lease
is never taken for the current one; and with more chunks than the registered threads can protect
together, a thread that asks for a chunk gets one. -/

namespace QTrace.Flight.RingHistory

variable {g : Geometry} {s : RingHistory}

/-- A step hands out no lease and leaves all generations, or it hands out one for the next generation of a
chunk. -/
theorem step_leases (s : RingHistory) (op : RingOp) :
    (s.step g op).leases = s.leases ∧
        (∀ c, ((s.step g op).ring.chunk c).generation = (s.ring.chunk c).generation) ∨
      ∃ t lease, t < g.maxThreads ∧ (s.step g op).leases = s.leases ++ [(t, lease)] ∧
        lease.generation = (s.ring.chunk lease.chunkIndex).generation + 1 ∧
        ∀ c, ((s.step g op).ring.chunk c).generation =
          if c = lease.chunkIndex then lease.generation else (s.ring.chunk c).generation := by
  cases op with
  | acquireChunk registration firstSequence =>
    simp only [step]
    split
    · exact Or.inl ⟨rfl, fun _ => rfl⟩
    next r lease hok =>
      obtain ⟨-, hindex, -, -, -, hp⟩ := acquireChunk_ok hok
      obtain ⟨rfl, rfl⟩ := Prod.mk.inj hp
      refine Or.inr ⟨_, _, hindex, rfl, rfl, fun c => ?_⟩
      simp only [expireOldest_chunk, Ring.linkNewest, Function.update_apply]
      split_ifs <;> rfl
  | _ =>
    left
    simp only [step, Ring.registerThread, Ring.publishThreadSequence, Ring.sealChunk]
    split_ifs <;> grind [Function.update_apply]

/-- Leases go to registered threads, and those of one chunk to ever later generations, up to its own. -/
structure Handed (g : Geometry) (s : RingHistory) : Prop where
  registered : ∀ p ∈ s.leases, p.1 < g.maxThreads
  generation_le : ∀ p ∈ s.leases, p.2.generation ≤ (s.ring.chunk p.2.chunkIndex).generation
  ascending : s.leases.Pairwise fun p q => p.2.chunkIndex = q.2.chunkIndex → p.2.generation < q.2.generation

theorem Handed.step (h : Handed g s) (op : RingOp) : Handed g (s.step g op) := by
  obtain ⟨hregistered, hle, hascending⟩ := h
  obtain ⟨hleases, hgeneration⟩ | ⟨t, lease, ht, hleases, hnext, hgeneration⟩ := s.step_leases (g := g) op
  · constructor <;> simpa only [hleases, hgeneration]
  · constructor <;> grind

theorem handed_run (g : Geometry) (ops : List RingOp) : Handed g (run g ops) :=
  List.foldlRecOn ops _ ⟨by simp, by simp, by simp⟩ fun _ h op _ => h.step op

/-- Once a chunk is handed out again, its earlier leases hold nothing, after any calls. -/
theorem earlier_lease_refused (g : Geometry) (ops : List RingOp) :
    (run g ops).leases.Pairwise fun p q =>
      p.2.chunkIndex = q.2.chunkIndex → (run g ops).ring.holds g p.2 = false := by
  have h := handed_run g ops
  refine h.ascending.imp_of_mem fun {p q} _ hq hlt hchunk => ?_
  have := hlt hchunk
  have := h.generation_le q hq
  simp only [Ring.holds, decide_eq_false_iff_not]
  grind

/-- The chunks under protection are at most `protectedChunks` for each thread. -/
theorem Sound.exists_unprotected (h : Sound g s) (hhanded : Handed g s)
    (hroom : g.maxThreads * g.protectedChunks < g.chunkCount) :
    ∃ c < g.chunkCount, (s.ring.chunkMetadata c).protectedChunk = false := by
  by_contra! hall
  let latest := fun t => ((s.acquired t).rtake g.protectedChunks).toFinset
  have hcover : Finset.range g.chunkCount ⊆ (Finset.range g.maxThreads).biUnion latest := by
    intro c hc
    obtain ⟨t, ht⟩ := (h.lists.flag c).mp (Bool.eq_true_of_not_eq_false (hall c (Finset.mem_range.mp hc)))
    obtain ⟨p, hp, -⟩ := List.mem_map.mp (List.drop_subset _ _ ht)
    obtain ⟨hlease, hthread⟩ := List.mem_filter.mp hp
    obtain rfl := of_decide_eq_true hthread
    exact Finset.mem_biUnion.mpr ⟨p.1, Finset.mem_range.mpr (hhanded.registered p hlease), List.mem_toFinset.mpr ht⟩
  have hcard := (Finset.card_le_card hcover).trans (Finset.card_biUnion_le_card_mul _ latest g.protectedChunks
    fun t _ => (List.toFinset_card_le _).trans (by simp only [List.rtake, List.length_drop]; omega))
  simp only [Finset.card_range] at hcard
  omega

/-- In a ring with room a registered thread gets a chunk after every run of calls, until a counter has
run out. -/
theorem run_acquires (g : Geometry) (hroom : g.maxThreads * g.protectedChunks < g.chunkCount) (ops : List RingOp)
    (hgeneration : ∀ c < g.chunkCount, ((run g ops).ring.chunk c).generation ≠ uint32Max)
    (hepoch : (run g ops).ring.allocationEpoch ≠ uint64Max) (registration : Registration) (firstSequence : ℕ)
    (hvalid : registration.tid ≠ 0 ∧ registration.directoryIndex < g.maxThreads ∧
      ((run g ops).ring.directory registration.directoryIndex).tid = registration.tid) :
    ∃ p, (run g ops).ring.acquireChunk g registration firstSequence = .ok p := by
  have h := sound_run g ops
  have hselected : (run g ops).ring.select g ≠ invalidIndex := by
    intro hinvalid
    obtain ⟨c, hc, hfree⟩ := h.exists_unprotected (handed_run g ops) hroom
    have hmax := (select_eq_invalid hinvalid c hc).resolve_left (by simp [hfree])
    exact hepoch (Nat.le_antisymm h.allocationEpoch_le (hmax.trans (h.epoch_le c)))
  have hcounters := not_or.mpr ⟨hgeneration _ (select_ne_invalid hselected).1, hepoch⟩
  rw [Ring.acquireChunk, if_neg (by simpa using hvalid), if_neg hselected, if_neg hcounters]
  exact ⟨_, rfl⟩

/-- A thread that has taken two chunks of four takes a third. -/
theorem run_acquires_third :
    ∃ p, (run smallGeometry [.registerThread 7, .acquireChunk ⟨0, 7⟩ 1, .acquireChunk ⟨0, 7⟩ 2]).ring.acquireChunk
      smallGeometry ⟨0, 7⟩ 3 = .ok p :=
  run_acquires smallGeometry (by decide) _ (by decide +kernel) (by decide +kernel) ⟨0, 7⟩ 3 (by decide +kernel)

end QTrace.Flight.RingHistory
