import QTrace.Lib.ProbeTable

/-! The dictionary of instruction definitions: each opcode gets the next number the first
time it is seen. The source keeps it in an open-addressing table; what it stands for is
the list of opcodes in the order of their first use. -/

namespace QTrace.Events

open Lib

/-- `slots` holds the opcode and the metadata number of each occupied slot. The number of
slots is a power of two, so that masking an index is taking its remainder. -/
structure TraceDictionary where
  slotCount : ℕ
  slots : ℕ → Option (UInt32 × UInt32)
  entryCount : ℕ

namespace TraceDictionary

/-- The constructor asks for 65536 slots and halves its request each time it is refused. -/
def create (refused : ℕ) : TraceDictionary where
  slotCount := 65536 >>> refused
  slots _ := none
  entryCount := 0

/-- The hash of an opcode before it is reduced to a slot. -/
def mix (opcode : UInt32) : ℕ :=
  let mixed := opcode * 0x9e3779b1
  (mixed ^^^ (mixed >>> 16)).toNat

variable (d : TraceDictionary)

def search (opcode : UInt32) : Probe UInt32 :=
  probe d.slotCount d.slots opcode d.slotCount (probeSlot d.slotCount (mix opcode) 0)

/-- `resolve`: the number of an opcode and whether it needs a definition. -/
def resolve (opcode : UInt32) : Option (UInt32 × Bool) :=
  match d.search opcode with
  | .found metadataId => some (metadataId, false)
  | .vacant _ => if d.slotCount ≤ d.entryCount then none else some (UInt32.ofNat d.entryCount, true)
  | .full => none

def commitInstructionDefinition (opcode metadataId : UInt32) : Option TraceDictionary :=
  if d.slotCount ≤ d.entryCount || metadataId.toNat ≠ d.entryCount then none
  else
    match d.search opcode with
    | .vacant slot =>
      some { d with
        slots := Function.update d.slots slot (some (opcode, metadataId))
        entryCount := d.entryCount + 1 }
    | .found known => if known = metadataId then some d else none
    | .full => none

/-- The entries of a list of opcodes numbered from zero. -/
def numbered (opcodes : List UInt32) : List (UInt32 × UInt32) :=
  opcodes.zipIdx.map fun (opcode, k) => (opcode, UInt32.ofNat k)

/-- The table holds exactly `opcodes`, numbered in their order; a number has 32 bits. -/
structure Enumerates (d : TraceDictionary) (opcodes : List UInt32) : Prop where
  stores : Stores d.slotCount mix d.slots (numbered opcodes)
  count : d.entryCount = opcodes.length
  room : opcodes.length ≤ d.slotCount
  limit : d.slotCount ≤ 2 ^ 32

/-- The dictionary knows exactly `opcodes`, numbered in their order. -/
structure Knows (d : TraceDictionary) (opcodes : List UInt32) : Prop where
  stores : Stores d.slotCount mix d.slots (numbered opcodes)
  count : d.entryCount = opcodes.length
  room : opcodes.length ≤ d.slotCount
  limit : d.slotCount ≤ 65536

variable {d} {opcodes : List UInt32} {opcode metadataId : UInt32}

theorem map_fst_numbered (opcodes : List UInt32) : (numbered opcodes).map Prod.fst = opcodes := by
  rw [numbered, List.map_map]
  exact List.zipIdx_map_fst 0 opcodes

theorem length_numbered (opcodes : List UInt32) : (numbered opcodes).length = opcodes.length := by
  simp [numbered]

theorem numbered_append (opcodes : List UInt32) (opcode : UInt32) :
    numbered (opcodes ++ [opcode]) = numbered opcodes ++ [(opcode, UInt32.ofNat opcodes.length)] := by
  simp [numbered, List.zipIdx_append]

theorem mem_numbered (h : opcode ∈ opcodes) :
    (opcode, UInt32.ofNat (opcodes.idxOf opcode)) ∈ numbered opcodes := by
  have hlt := List.idxOf_lt_length_of_mem h
  refine List.mem_map.mpr ⟨(opcode, opcodes.idxOf opcode), ?_, rfl⟩
  rw [List.mem_zipIdx_iff_getElem?, List.getElem?_eq_getElem hlt, List.getElem_idxOf]

namespace Enumerates

theorem resolve_known (h : d.Enumerates opcodes) (hmem : opcode ∈ opcodes) :
    d.resolve opcode = some (UInt32.ofNat (opcodes.idxOf opcode), false) := by
  rw [resolve, search, h.stores.probe_found (mem_numbered hmem)]

theorem resolve_new (h : d.Enumerates opcodes) (hmem : opcode ∉ opcodes) :
    d.resolve opcode = if opcodes.length < d.slotCount then some (UInt32.ofNat opcodes.length, true) else none := by
  have hkey : opcode ∉ (numbered opcodes).map Prod.fst := by rwa [map_fst_numbered]
  rw [resolve, search, h.count]
  by_cases hroom : opcodes.length < d.slotCount
  · obtain ⟨distance, -, hprobe, -, -⟩ := h.stores.probe_vacant hkey (by rwa [length_numbered])
    rw [if_pos hroom, hprobe]
    exact if_neg (by omega)
  · rw [if_neg hroom]
    split
    case h_1 known hfound => exact absurd (List.mem_map_of_mem (h.stores.mem_of_probe hfound)) hkey
    case h_2 => exact if_pos (by omega)
    case h_3 => rfl

theorem commit_new (h : d.Enumerates opcodes) (hmem : opcode ∉ opcodes) (hroom : opcodes.length < d.slotCount) :
    ∃ d', d.commitInstructionDefinition opcode (UInt32.ofNat opcodes.length) = some d' ∧
      d'.Enumerates (opcodes ++ [opcode]) ∧ d'.slotCount = d.slotCount := by
  have hlimit := h.limit
  have hid : (UInt32.ofNat opcodes.length).toNat = opcodes.length := by
    rw [UInt32.toNat_ofNat', Nat.mod_eq_of_lt (by omega)]
  have hkey : opcode ∉ (numbered opcodes).map Prod.fst := by rwa [map_fst_numbered]
  obtain ⟨distance, hlt, hprobe, hvacant, hbefore⟩ :=
    h.stores.probe_vacant hkey (by rwa [length_numbered])
  let slot := probeSlot d.slotCount (mix opcode) distance
  let slots := Function.update d.slots slot (some (opcode, UInt32.ofNat opcodes.length))
  have hstore : Stores d.slotCount mix slots (numbered (opcodes ++ [opcode])) := by
    rw [numbered_append]
    exact h.stores.store hkey hlt hvacant hbefore
  refine ⟨{ d with slots := slots, entryCount := d.entryCount + 1 }, ?_, ⟨hstore, ?_, ?_, hlimit⟩, rfl⟩
  · rw [commitInstructionDefinition, if_neg (by simp [h.count, hid]; omega), search, hprobe]
  · simp [h.count]
  · simpa using hroom

end Enumerates

theorem Knows.enumerates (h : d.Knows opcodes) : d.Enumerates opcodes :=
  ⟨h.stores, h.count, h.room, h.limit.trans (by decide)⟩

theorem knows_create (refused : ℕ) : (create refused).Knows [] :=
  ⟨Stores.empty _ _, rfl, Nat.zero_le _, Nat.shiftRight_le _ _⟩

theorem Knows.resolve_known (h : d.Knows opcodes) (hmem : opcode ∈ opcodes) :
    d.resolve opcode = some (UInt32.ofNat (opcodes.idxOf opcode), false) :=
  h.enumerates.resolve_known hmem

theorem Knows.resolve_new (h : d.Knows opcodes) (hmem : opcode ∉ opcodes) {needsDefinition : Bool}
    (hresolve : d.resolve opcode = some (metadataId, needsDefinition)) :
    needsDefinition = true ∧ metadataId = UInt32.ofNat opcodes.length ∧ opcodes.length < d.slotCount := by
  rw [h.enumerates.resolve_new hmem] at hresolve
  split_ifs at hresolve with hroom
  simp only [Option.some.injEq, Prod.mk.injEq] at hresolve
  exact ⟨hresolve.2.symm, hresolve.1.symm, hroom⟩

theorem Knows.commit_new (h : d.Knows opcodes) (hmem : opcode ∉ opcodes)
    (hroom : opcodes.length < d.slotCount) :
    ∃ d', d.commitInstructionDefinition opcode (UInt32.ofNat opcodes.length) = some d' ∧
      d'.Knows (opcodes ++ [opcode]) := by
  obtain ⟨d', hcommit, hd', hslots⟩ := h.enumerates.commit_new hmem hroom
  exact ⟨d', hcommit, hd'.stores, hd'.count, hd'.room, hslots ▸ h.limit⟩

end TraceDictionary

end QTrace.Events
