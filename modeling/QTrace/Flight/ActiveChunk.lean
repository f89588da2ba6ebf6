import QTrace.Flight.ChunkWriter
import QTrace.Flight.RecordScan

/-! An active chunk at any stop of any history. The stores of an unfinished call stay
behind the committed extent, and a finished call leaves its records' exact bytes
there, so the data always splits into the committed records and whatever is left
behind them. Recovery of the chunk is exact unless those left-over bytes look like a
record of the current generation. -/

namespace QTrace.Flight

open Lib

theorem storeData_append (data : List UInt8) (xs ys : List DataStore) :
    storeData data (xs ++ ys) = storeData (storeData data xs) ys := List.foldl_append

theorem storeData_append_right (front : List UInt8) : ∀ (stores : List DataStore) (back : List UInt8),
    (∀ s ∈ stores, front.length ≤ s.offset) → ∃ back', storeData (front ++ back) stores = front ++ back'
  | [], back, _ => ⟨back, rfl⟩
  | s :: stores, back, h => by
    obtain ⟨k, hk⟩ : ∃ k, s.offset = front.length + k := ⟨s.offset - front.length, by
      have := h s (by simp)
      omega⟩
    obtain ⟨back', hback⟩ := storeData_append_right front stores (overwrite back k s.bytes)
      fun s' hs' => h s' (by simp [hs'])
    refine ⟨back', ?_⟩
    rw [storeData, List.foldl_cons, hk, overwrite_append_right, ← storeData, hback]

theorem byteStores_offset : ∀ (bytes : List UInt8) (offset : ℕ), ∀ s ∈ byteStores offset bytes,
    offset ≤ s.offset
  | [], _, s, hs => by simp [byteStores] at hs
  | b :: bytes, offset, s, hs => by
    rcases List.mem_cons.1 hs with rfl | hs
    · exact le_rfl
    · have := byteStores_offset bytes (offset + 1) s hs
      omega

theorem storeData_byteStores : ∀ (bytes front old back : List UInt8), bytes.length = old.length →
    storeData (front ++ (old ++ back)) (byteStores front.length bytes) = front ++ (bytes ++ back)
  | [], front, old, back, h => by
    have : old = [] := List.length_eq_zero_iff.1 h.symm
    subst this
    rfl
  | b :: bytes, front, old, back, h => by
    obtain ⟨o, old, rfl⟩ : ∃ o old', old = o :: old' := by
      cases old with
      | nil => simp at h
      | cons o old' => exact ⟨o, old', rfl⟩
    have hlen : bytes.length = old.length := by simpa using h
    have hfirst : overwrite (front ++ (o :: old ++ back)) front.length [b] =
        (front ++ [b]) ++ (old ++ back) := by
      have hslice := overwrite_slice front [o] (old ++ back) (show [b].length = [o].length from rfl)
      simpa using hslice
    have ih := storeData_byteStores bytes (front ++ [b]) old back hlen
    rw [byteStores, storeData, List.foldl_cons, hfirst, ← storeData]
    simpa using ih

theorem storeData_slice {offset : ℕ} {front old back bytes : List UInt8} (ho : offset = front.length)
    (h : bytes.length = old.length) :
    storeData (front ++ (old ++ back)) (byteStores offset bytes) = front ++ bytes ++ back := by
  rw [ho, storeData_byteStores bytes front old back h, List.append_assoc]

/-- A record's stored bytes with a given commit word. -/
def SequencedRecord.image (r : SequencedRecord) (commit : ℕ) : List UInt8 :=
  r.prefixBytes ++ leBytes 4 r.checksum ++ leBytes 4 commit ++ r.payload ++
    List.replicate (r.storageBytes - r.totalBytes) 0

section

variable (r : SequencedRecord)

theorem length_image (commit : ℕ) : (r.image commit).length = r.storageBytes := by
  have := r.totalBytes_le_storageBytes
  simp only [SequencedRecord.image, List.length_append, length_prefixBytes, length_leBytes,
    List.length_replicate, RecordView.totalBytes, recordHeaderBytes] at this ⊢
  omega

theorem replicate_storageBytes : List.replicate r.storageBytes (0 : UInt8) =
    List.replicate 2 0 ++ (List.replicate 2 0 ++ (List.replicate 4 0 ++ (List.replicate 8 0 ++
      (List.replicate 4 0 ++ (List.replicate 4 0 ++ (List.replicate r.payload.length 0 ++
        List.replicate (r.storageBytes - r.totalBytes) 0)))))) := by
  have := r.totalBytes_le_storageBytes
  simp only [List.replicate_append_replicate]
  congr 1
  simp only [RecordView.totalBytes, recordHeaderBytes] at this ⊢
  omega

theorem storeData_encodeStores (front old back : List UInt8) (h : old.length = r.storageBytes) :
    storeData (front ++ (old ++ back)) (r.encodeStores front.length) = front ++ (r.image 0 ++ back) := by
  simp only [SequencedRecord.encodeStores, storeData_append]
  rw [storeData_byteStores (List.replicate r.storageBytes 0) front old back (by simp [h]),
    replicate_storageBytes]
  simp only [List.append_assoc]
  rw [storeData_slice rfl (by simp), storeData_slice (by simp) (by simp),
    storeData_slice (by simp) (by simp), storeData_slice (by simp) (by simp)]
  -- the sixteen prefix bytes are in place; what follows are two words, payload and padding
  have hhead : front ++ leBytes 2 r.type.code ++ leBytes 2 r.flags.toNat ++ leBytes 4 r.totalBytes ++
      leBytes 8 r.sequence = front ++ r.prefixBytes := by
    simp [SequencedRecord.prefixBytes]
  have hlen : (front ++ r.prefixBytes).length = front.length + 16 := by simp [length_prefixBytes]
  rw [hhead]
  generalize hh : front ++ r.prefixBytes = header at hlen ⊢
  have hclear : ∀ rest : List UInt8,
      storeData (header ++ (List.replicate 4 0 ++ (List.replicate 4 0 ++ rest)))
        [⟨front.length + 20, leBytes 4 0⟩] = header ++ List.replicate 4 0 ++ leBytes 4 0 ++ rest := by
    intro rest
    have hf : (header ++ List.replicate 4 0).length = front.length + 20 := by simp [hlen]
    rw [← List.append_assoc, storeData, List.foldl_cons, List.foldl_nil, ← hf,
      overwrite_slice _ _ rest (by simp)]
    simp only [List.append_assoc]
  rw [hclear, storeData_slice (by simp [hlen, recordHeaderBytes]) (by simp)]
  simp only [List.append_assoc]
  rw [storeData_slice hlen.symm (by simp), ← hh]
  simp only [SequencedRecord.image, List.append_assoc]

theorem storeData_commitStore (generation old : ℕ) (front back : List UInt8) :
    storeData (front ++ (r.image old ++ back)) [r.commitStore generation front.length] =
      front ++ (r.encode generation ++ back) := by
  have hf : (front ++ (r.prefixBytes ++ leBytes 4 r.checksum)).length = front.length + 20 := by
    simp [length_prefixBytes]
  have hsplit : front ++ (r.image old ++ back) = (front ++ (r.prefixBytes ++ leBytes 4 r.checksum)) ++
      (leBytes 4 old ++ (r.payload ++ List.replicate (r.storageBytes - r.totalBytes) 0 ++ back)) := by
    simp only [SequencedRecord.image, List.append_assoc]
  rw [hsplit, storeData, List.foldl_cons, List.foldl_nil, SequencedRecord.commitStore, ← hf,
    overwrite_slice _ _ _ (by simp)]
  simp only [SequencedRecord.encode, List.append_assoc]

theorem encodeStores_offset (destination : ℕ) : ∀ s ∈ r.encodeStores destination, destination ≤ s.offset := by
  intro s hs
  simp only [SequencedRecord.encodeStores, List.mem_append, List.mem_singleton] at hs
  rcases hs with ((((((hs | hs) | hs) | hs) | hs) | rfl) | hs) | hs
  · exact byteStores_offset _ _ s hs
  · exact byteStores_offset _ _ s hs
  · exact (Nat.le_add_right _ _).trans (byteStores_offset _ _ s hs)
  · exact (Nat.le_add_right _ _).trans (byteStores_offset _ _ s hs)
  · exact (Nat.le_add_right _ _).trans (byteStores_offset _ _ s hs)
  · exact Nat.le_add_right _ _
  · exact (Nat.le_add_right _ _).trans (byteStores_offset _ _ s hs)
  · exact (Nat.le_add_right _ _).trans (byteStores_offset _ _ s hs)

end

theorem length_encodeAll (generation : ℕ) (records : List SequencedRecord) :
    (encodeAll generation records).length = (records.map (·.storageBytes)).sum := by
  induction records with
  | nil => rfl
  | cons r records ih =>
    simp only [encodeAll, List.flatMap_cons, List.length_append, length_encode, List.map_cons,
      List.sum_cons] at ih ⊢
    rw [ih]

theorem encodeAll_append (generation : ℕ) (xs ys : List SequencedRecord) :
    encodeAll generation (xs ++ ys) = encodeAll generation xs ++ encodeAll generation ys := by
  simp [encodeAll]

theorem Ascending.concat {r : SequencedRecord} (hr : r.Fits) : ∀ {last : Option ℕ}
    {records : List SequencedRecord}, Ascending last records → (∀ s ∈ last, s < r.sequence) →
      (∀ x ∈ records, x.sequence < r.sequence) → Ascending last (records ++ [r])
  | _, [], _, hlast, _ => ⟨hr, hlast, trivial⟩
  | _, x :: records, h, _, hbelow =>
    ⟨h.1, h.2.1, h.2.2.concat hr (by simpa using hbelow x (by simp))
      fun y hy => hbelow y (by simp [hy])⟩

/-- The invariant of a slot's writer between calls. -/
structure ChunkWriter.Sound (w : ChunkWriter) : Prop where
  ascending : Ascending none w.committed
  below : ∀ r ∈ w.committed, r.sequence < w.nextSequence
  next_pos : 0 < w.nextSequence
  next_le : w.nextSequence ≤ uint64Max
  layout : ∃ rest, w.data = encodeAll w.generation w.committed ++ rest
  extent : w.committedExtent = (encodeAll w.generation w.committed).length

/-- What a call owes the invariant, whether or not it wrote anything. -/
structure ChunkCall.Spec (w : ChunkWriter) (call : ChunkCall) : Prop where
  offsets : ∀ s ∈ call.stores, w.committedExtent ≤ s.offset
  ascending : Ascending none (w.committed ++ call.records)
  below : ∀ r ∈ w.committed ++ call.records, r.sequence < call.nextSequence
  next_pos : 0 < call.nextSequence
  next_le : call.nextSequence ≤ uint64Max
  layout : ∃ rest, storeData w.data call.stores =
    encodeAll w.generation (w.committed ++ call.records) ++ rest

theorem checkedRecordSizes_eq {view : RecordView} {total storage : ℕ}
    (h : checkedRecordSizes view.payload.length = some (total, storage)) :
    storage = view.storageBytes ∧ view.totalBytes + 7 ≤ uint32Max := by
  unfold checkedRecordSizes at h
  split_ifs at h with h1 h2
  simp only [Option.some.injEq, Prod.mk.injEq] at h
  refine ⟨h.2.symm, ?_⟩
  simp only [RecordView.totalBytes, uint32Max, recordHeaderBytes] at h1 h2 ⊢
  omega

/-- The allocator hands out its next number or none, and never wraps. -/
theorem allocateSequence_cases {next : ℕ} (hle : next ≤ uint64Max) :
    allocateSequence next = (0, next) ∨
      allocateSequence next = (next, next + 1) ∧ next + 1 ≤ uint64Max := by
  unfold allocateSequence
  split_ifs with h
  · exact Or.inl rfl
  · exact Or.inr ⟨rfl, by omega⟩

variable {w : ChunkWriter}

theorem ChunkWriter.Sound.unwritten (hw : w.Sound) {next : ℕ} (hle : w.nextSequence ≤ next)
    (hmax : next ≤ uint64Max) (result : WriteResult) : ChunkCall.Spec w ⟨[], [], next, result⟩ where
  offsets := by simp
  ascending := by simpa using hw.ascending
  below r hr := (hw.below r (by simpa using hr)).trans_le hle
  next_pos := hw.next_pos.trans_le hle
  next_le := hmax
  layout := by simpa [storeData] using hw.layout

theorem ChunkWriter.Sound.room (hw : w.Sound) (storage : ℕ)
    (h : ¬ storage > w.data.length - w.committedExtent) :
    ∃ old back, w.data = encodeAll w.generation w.committed ++ (old ++ back) ∧ old.length = storage := by
  obtain ⟨rest, hrest⟩ := hw.layout
  refine ⟨rest.take storage, rest.drop storage, by rw [List.take_append_drop, hrest], ?_⟩
  rw [hw.extent, hrest, List.length_append] at h
  rw [List.length_take]
  omega

theorem lt_two_pow_of_le_max {n : ℕ} (h : n ≤ uint64Max) : n < 2 ^ 64 := by
  unfold uint64Max at h; omega

theorem ChunkWriter.Sound.append (hw : w.Sound) (view : RecordView) :
    ChunkCall.Spec w (w.append view) := by
  unfold ChunkWriter.append
  split
  · exact hw.unwritten le_rfl hw.next_le _
  next total storage hsizes =>
    obtain ⟨rfl, htotal⟩ := checkedRecordSizes_eq hsizes
    by_cases hspace : view.storageBytes > w.data.length - w.committedExtent
    · rw [if_pos hspace]
      exact hw.unwritten le_rfl hw.next_le _
    · rw [if_neg hspace]
      obtain halloc | ⟨halloc, hmax⟩ := allocateSequence_cases hw.next_le
      · rw [halloc]
        exact hw.unwritten le_rfl hw.next_le _
      · have hne : w.nextSequence ≠ 0 := by have := hw.next_pos; omega
        simp only [halloc, if_neg hne]
        set r : SequencedRecord := ⟨view, w.nextSequence⟩ with hr
        have hfits : r.Fits := ⟨htotal, hw.next_pos, lt_two_pow_of_le_max hw.next_le⟩
        refine ⟨?_, ?_, ?_, Nat.succ_pos _, hmax, ?_⟩
        · intro s hs
          rcases List.mem_append.1 hs with hs | hs
          · exact encodeStores_offset r _ s hs
          · rw [List.mem_singleton.1 hs]; exact Nat.le_add_right _ _
        · exact hw.ascending.concat hfits (by simp) hw.below
        · intro x hx
          rcases List.mem_append.1 hx with hx | hx
          · exact (hw.below x hx).trans (Nat.lt_succ_self _)
          · rw [List.mem_singleton.1 hx]; exact Nat.lt_succ_self _
        · obtain ⟨old, back, hdata, hold⟩ := hw.room _ hspace
          refine ⟨back, ?_⟩
          rw [hdata, hw.extent, storeData_append, storeData_encodeStores r _ old back hold,
            storeData_commitStore, encodeAll_append]
          simp [encodeAll]

/-- Both records of a pair land in their slices, whatever the order of the commits. -/
theorem storeData_pair (a c : SequencedRecord) (generation : ℕ) (front old old' back : List UInt8)
    (ha : old.length = a.storageBytes) (hc : old'.length = c.storageBytes) :
    storeData (front ++ (old ++ (old' ++ back)))
      (a.encodeStores front.length ++ c.encodeStores (front.length + a.storageBytes) ++
        [c.commitStore generation (front.length + a.storageBytes), a.commitStore generation front.length]) =
      front ++ (a.encode generation ++ (c.encode generation ++ back)) := by
  have hlen : front.length + a.storageBytes = (front ++ a.image 0).length := by
    rw [List.length_append, length_image]
  rw [storeData_append, storeData_append, storeData_encodeStores a front old _ ha, hlen,
    ← List.append_assoc front, storeData_encodeStores c (front ++ a.image 0) old' back hc,
    ← List.singleton_append, storeData_append, storeData_commitStore c, List.append_assoc front,
    storeData_commitStore a]

theorem ChunkWriter.Sound.appendPair (hw : w.Sound) (first second : RecordView) :
    ChunkCall.Spec w (w.appendPair first second) := by
  unfold ChunkWriter.appendPair
  split
  next _ _ firstTotal firstStorage secondTotal secondStorage hfirst hsecond =>
    obtain ⟨rfl, htotal⟩ := checkedRecordSizes_eq hfirst
    obtain ⟨rfl, htotal'⟩ := checkedRecordSizes_eq hsecond
    dsimp only
    by_cases hspace : first.storageBytes > w.data.length - w.committedExtent ∨
        second.storageBytes > w.data.length - w.committedExtent - first.storageBytes
    · rw [if_pos hspace]
      exact hw.unwritten le_rfl hw.next_le _
    · rw [if_neg hspace]
      obtain halloc | ⟨halloc, hmax⟩ := allocateSequence_cases hw.next_le
      · simp only [halloc, true_or, if_true]
        exact hw.unwritten le_rfl hw.next_le _
      · obtain halloc' | ⟨halloc', hmax'⟩ := allocateSequence_cases hmax
        · simp only [halloc, halloc', or_true, if_true]
          exact hw.unwritten (Nat.le_succ _) hmax _
        · have hne : ¬ (w.nextSequence = 0 ∨ w.nextSequence + 1 = 0) := by have := hw.next_pos; omega
          simp only [halloc, halloc', if_neg hne]
          set a : SequencedRecord := ⟨first, w.nextSequence⟩ with ha
          set c : SequencedRecord := ⟨second, w.nextSequence + 1⟩ with hc
          have hafits : a.Fits := ⟨htotal, hw.next_pos, lt_two_pow_of_le_max hw.next_le⟩
          have hcfits : c.Fits := ⟨htotal', Nat.succ_pos _, lt_two_pow_of_le_max hmax⟩
          have hasc := (hw.ascending.concat hafits (by simp) hw.below).concat hcfits (by simp) (by
            intro x hx
            rcases List.mem_append.1 hx with hx | hx
            · exact (hw.below x hx).trans (Nat.lt_succ_self _)
            · rw [List.mem_singleton.1 hx]; exact Nat.lt_succ_self _)
          refine ⟨?_, by simpa using hasc, ?_, Nat.succ_pos _, hmax', ?_⟩
          · intro s hs
            simp only [List.mem_append, List.mem_cons, List.not_mem_nil, or_false] at hs
            rcases hs with (hs | hs) | rfl | rfl
            · exact encodeStores_offset a _ s hs
            · exact (Nat.le_add_right _ _).trans (encodeStores_offset c _ s hs)
            · exact (Nat.le_add_right _ _).trans (Nat.le_add_right _ _)
            · exact Nat.le_add_right _ _
          · intro x hx
            simp only [List.mem_append, List.mem_cons, List.not_mem_nil, or_false] at hx
            show x.sequence < w.nextSequence + 1 + 1
            rcases hx with hx | rfl | rfl
            · have := hw.below x hx; omega
            · show w.nextSequence < _; omega
            · show w.nextSequence + 1 < _; omega
          · obtain ⟨old, back, hdata, hold⟩ :=
              hw.room (first.storageBytes + second.storageBytes) (by omega)
            have hsplit : old ++ back = old.take first.storageBytes ++
                (old.drop first.storageBytes ++ back) := by
              rw [← List.append_assoc, List.take_append_drop]
            refine ⟨back, ?_⟩
            rw [hdata, hsplit, hw.extent]
            rw [show first.storageBytes = a.storageBytes from rfl,
              storeData_pair a c w.generation _ _ _ back (by rw [List.length_take, hold]; exact min_eq_left (Nat.le_add_right _ _))
                (by rw [List.length_drop, hold]; exact Nat.add_sub_cancel_left _ _), encodeAll_append]
            simp [encodeAll]
  · exact hw.unwritten le_rfl hw.next_le _

theorem ChunkWriter.Sound.call (hw : w.Sound) (op : ChunkOp) : ChunkCall.Spec w (op.call w) := by
  cases op with
  | append view => exact hw.append view
  | appendPair first second => exact hw.appendPair first second
  | takeSequence =>
    obtain halloc | ⟨halloc, hmax⟩ := allocateSequence_cases hw.next_le
    · simp only [ChunkOp.call, halloc]
      exact hw.unwritten le_rfl hw.next_le _
    · simp only [ChunkOp.call, halloc]
      exact hw.unwritten (Nat.le_succ _) hmax _

/-- At every stop the data is the committed records and something behind them. -/
theorem ChunkWriter.Sound.stop_layout (hw : w.Sound) (op : ChunkOp) (n : ℕ) :
    (∃ rest, (w.stop op n).data =
      encodeAll (w.stop op n).generation (w.stop op n).committed ++ rest) ∧
    (w.stop op n).committedExtent =
      (encodeAll (w.stop op n).generation (w.stop op n).committed).length ∧
    Ascending none (w.stop op n).committed := by
  have hspec := hw.call op
  unfold ChunkWriter.stop
  dsimp only
  split_ifs with hn
  · rw [List.take_of_length_le hn]
    refine ⟨hspec.layout, ?_, hspec.ascending⟩
    show w.committedExtent + _ = _
    rw [encodeAll_append, List.length_append, hw.extent, length_encodeAll _ (op.call w).records]
  · obtain ⟨rest, hrest⟩ := hw.layout
    obtain ⟨rest', hrest'⟩ := storeData_append_right (encodeAll w.generation w.committed)
      ((op.call w).stores.take n) rest fun s hs => by
        rw [← hw.extent]; exact hspec.offsets s (List.mem_of_mem_take hs)
    exact ⟨⟨rest', by rw [hrest, hrest']⟩, hw.extent, hw.ascending⟩

theorem ChunkWriter.Sound.step (hw : w.Sound) (op : ChunkOp) : (w.step op).Sound := by
  have hspec := hw.call op
  obtain ⟨hlayout, hextent, hasc⟩ := hw.stop_layout op (op.call w).stores.length
  refine ⟨hasc, ?_, ?_, ?_, hlayout, hextent⟩ <;>
    simp only [ChunkWriter.step, ChunkWriter.stop, le_refl, if_true]
  · exact hspec.below
  · exact hspec.next_pos
  · exact hspec.next_le

theorem ChunkWriter.Sound.run (hw : w.Sound) (ops : List ChunkOp) : (w.run ops).Sound :=
  List.foldlRecOn ops _ hw fun _ h op _ => h.step op

theorem ChunkWriter.Sound.reuse (hw : w.Sound) : w.reuse.Sound where
  ascending := trivial
  below := by simp [ChunkWriter.reuse]
  next_pos := hw.next_pos
  next_le := hw.next_le
  layout := ⟨w.data, rfl⟩
  extent := rfl

theorem ChunkWriter.sound_fresh (g : Geometry) : (ChunkWriter.fresh g).Sound where
  ascending := trivial
  below := by simp [ChunkWriter.fresh]
  next_pos := Nat.one_pos
  next_le := by show 1 ≤ uint64Max; decide
  layout := ⟨_, rfl⟩
  extent := rfl

theorem ChunkWriter.sound_acquiredAfter (g : Geometry) (past : List (List ChunkOp)) :
    (ChunkWriter.acquiredAfter g past).Sound := by
  have hpast : (past.foldl (fun w ops => w.reuse.run ops) (ChunkWriter.fresh g)).Sound :=
    List.foldlRecOn past _ (ChunkWriter.sound_fresh g) fun _ h ops _ => h.reuse.run ops
  exact hpast.reuse

theorem ChunkWriter.generation_stop (w : ChunkWriter) (op : ChunkOp) (n : ℕ) :
    (w.stop op n).generation = w.generation := by
  unfold ChunkWriter.stop
  dsimp only
  split_ifs <;> rfl

theorem ChunkWriter.generation_run (w : ChunkWriter) (ops : List ChunkOp) :
    (w.run ops).generation = w.generation :=
  List.foldlRecOn (motive := fun w' : ChunkWriter => w'.generation = w.generation) ops _ rfl fun w' hw op _ =>
    (w'.generation_stop op _).trans hw

theorem ChunkWriter.generation_acquiredAfter (g : Geometry) (past : List (List ChunkOp)) :
    (ChunkWriter.acquiredAfter g past).generation = past.length + 1 := by
  show (past.foldl (fun w ops => w.reuse.run ops) (ChunkWriter.fresh g)).generation + 1 = _
  induction past using List.reverseRecOn with
  | nil => rfl
  | append_singleton past ops ih =>
    rw [List.foldl_concat, ChunkWriter.generation_run, List.length_append]
    exact congrArg (· + 1) ih

/-- Recovery of an active chunk, over every history of its slot and every stop: the scan
reports exactly the committed records of the current generation if and only if the
reader knows their flags and the bytes at the committed extent do not carry the commit
word of that generation. -/
theorem scan_active_exact_iff (g : Geometry) (past : List (List ChunkOp))
    (hpast : past.length < uint32Max) (ops : List ChunkOp) (op : ChunkOp) (n : ℕ) :
    let w := ((ChunkWriter.acquiredAfter g past).run ops).stop op n
    scanRecords true w.generation w.data = .ok (scannedFrom 0 w.committed) ↔
      (∀ r ∈ w.committed, r.flagsKnown = true) ∧
        looksCommitted w.generation (w.data.drop w.committedExtent) = false := by
  intro w
  have hgen : w.generation < 2 ^ 32 := by
    show (((ChunkWriter.acquiredAfter g past).run ops).stop op n).generation < 2 ^ 32
    rw [ChunkWriter.generation_stop, ChunkWriter.generation_run, ChunkWriter.generation_acquiredAfter]
    unfold uint32Max at hpast
    omega
  obtain ⟨⟨rest, hrest⟩, hextent, hasc⟩ :=
    ((ChunkWriter.sound_acquiredAfter g past).run ops).stop_layout op n
  have hdrop : w.data.drop w.committedExtent = rest := by
    rw [hrest, hextent, List.drop_left']
    rfl
  rw [hdrop, hrest]
  exact scanRecords_active_encodeAll hgen hasc rest

/-- A geometry with chunks of 128 bytes. -/
def smallGeometry : Geometry where
  maxThreads := 2
  protectedChunks := 1
  chunkBytes := 128
  chunkCount := 4
  maxThreads_pos := by decide
  maxThreads_lt := by decide
  protectedChunks_pos := by decide
  protectedChunks_le := by decide
  chunkBytes_pow := ⟨7, by decide⟩
  chunkBytes_gt := by decide
  chunkCount_pos := by decide
  chunkCount_le := by decide

/-- The first record of a fresh slot is recovered. -/
theorem scan_active_first_record :
    ([] : List (List ChunkOp)).length < uint32Max ∧
      (let w := ((ChunkWriter.acquiredAfter smallGeometry []).run []).stop (.append ⟨.threadEnd, 0, [7]⟩) 100
      scanRecords true w.generation w.data = .ok (scannedFrom 0 w.committed)) :=
  ⟨by decide, (scan_active_exact_iff smallGeometry [] (by decide) [] (.append ⟨.threadEnd, 0, [7]⟩) 100).2
    (by decide +kernel)⟩

/-- A payload whose last word is the commit word of an empty header in generation 2. -/
def stalePayload : List UInt8 := List.replicate 20 0 ++ leBytes 4 (commitWord 0 2)

/-- With that payload left by generation 1, one plain append in generation 2 ends right
in front of it, and the scan fails on the stale bytes instead of returning the record. -/
theorem stale_payload_breaks_scan :
    let w := (ChunkWriter.acquiredAfter smallGeometry
      [[.append ⟨.call, 0, stalePayload⟩]]).stop (.append ⟨.threadEnd, 0, []⟩) 100
    w.committed.length = 1 ∧ (∀ r ∈ w.committed, r.flagsKnown = true) ∧
      scanRecords true w.generation w.data = .error ⟨.invalidLength, 24⟩ := by
  decide +kernel

end QTrace.Flight
