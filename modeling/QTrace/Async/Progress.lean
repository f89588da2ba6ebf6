import QTrace.Async.DeliveryRuns

/-! The two threads never wait for each other: where the producer has to wait for a buffer, the consumer
owns one or finds one ready. -/

namespace QTrace.Async.AsyncWriter

variable {Ctx : Type} {w : AsyncWriter Ctx}

/-- The producer waits for the consumer to give a buffer back. -/
def Waits (w : AsyncWriter Ctx) : Prop := (∃ caller, w.producer = .acquiring caller) ∨ w.producer = .draining

/-- Neither thread goes on when it is woken up. -/
def Deadlocked (w : AsyncWriter Ctx) : Prop :=
  w.Waits ∧ (∃ waited, (w.proceed (.resume waited)).producer = w.producer) ∧
    (w.consumer = .exited ∨ w.consumer = .scanning ∧ w.toShared.take.consumer = .scanning)

/-- With both buffers free, or after an error, a wait is over. -/
theorem resume_ne (hwait : w.Waits) (hfree : w.error = 0 → ∀ i, (w.buffers i).state = .free) (waited : UInt64) :
    (w.proceed (.resume waited)).producer ≠ w.producer := by
  rcases hwait with ⟨caller, hp⟩ | hp
  · simp only [proceed, hp, awaitFree]
    split_ifs with herror
    · cases caller <;> simp [refuse, give]
    · have hfirst : w.freeBuffer = some .first := by simp [freeBuffer, hfree (not_not.mp herror)]
      rw [hfirst]
      cases caller with
      | reserve => simp [grantTo, give]
      | append rest =>
        simp only [grantTo, appendChunk]
        split_ifs <;> simp [give]
  · simp only [proceed, hp, awaitDrained]
    split_ifs with herror hboth
    · simp [give]
    · simp [give]
    · exact absurd ⟨hfree (not_not.mp herror) _, hfree (not_not.mp herror) _⟩ hboth

theorem Inv.not_deadlocked (h : w.Inv) : ¬w.Deadlocked := by
  rintro ⟨hwait, ⟨waited, hresume⟩, hconsumer⟩
  refine resume_ne hwait (fun herror i => ?_) waited hresume
  obtain ⟨hactive, hdone, -⟩ := h.waiting herror hwait
  obtain ⟨queue, hgood⟩ := (h.running herror).good
  obtain hc | ⟨hc, htake⟩ := hconsumer
  · have hover := (hgood.exited hc).1
    simp [hdone] at hover
  · cases hstate : (w.buffers i).state with
    | free => rfl
    | filling => simp [(hgood.filling i).mp hstate] at hactive
    | writing => simpa [hc, Consumer.held] using (hgood.writing i).mp hstate
    | ready =>
      -- the oldest ready buffer would have been taken
      have hmem := hgood.mem_queue.mpr hstate
      have holdest := (hgood.queued.congr (fun _ => decide_eq_true_iff) fun _ _ => rfl).oldest_eq_head
        BufferIndex.mem_all
      obtain ⟨j, rest, rfl⟩ := List.exists_cons_of_ne_nil (List.ne_nil_of_mem hmem)
      simp [Shared.take, hc, herror, holdest] at htake

/-- No interleaving leads to a deadlock. -/
theorem run_not_deadlocked (lz4 : Lz4 Ctx) (bufferBytes : ℕ) (compressionEnabled : Bool) (context : Ctx)
    (metrics : TraceMetrics) (steps : List Step) :
    ¬((create bufferBytes compressionEnabled context metrics).run lz4 steps).Deadlocked :=
  (inv_run (inv_create bufferBytes compressionEnabled context metrics) steps).not_deadlocked

end QTrace.Async.AsyncWriter
