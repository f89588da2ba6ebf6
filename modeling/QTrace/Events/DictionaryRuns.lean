import QTrace.Lib.FirstUse
import QTrace.Events.Dictionary

/-! A dictionary in use: an opcode is resolved and, where it needs a definition, committed
right away. The table then is what numbers opcodes by their first use, for every size of
the table and every order of collisions. -/

namespace QTrace.Events.TraceDictionary

open Lib Lib.FirstUse

def isPowerOfTwo (value : UInt32) : Bool := value ≠ 0 && value &&& (value - 1) = 0

/-- The constructor, for a mapping that is refused `refused` times and halved each time. -/
def request (requestedSlots : UInt32) (refused : ℕ) : TraceDictionary where
  slotCount := if isPowerOfTwo requestedSlots then requestedSlots.toNat >>> refused else 0
  slots _ := none
  entryCount := 0

def reset (d : TraceDictionary) : TraceDictionary := { d with slots := fun _ => none, entryCount := 0 }

/-- Resolve an opcode and commit it if it needs a definition; nothing if the commit fails. -/
def useOpcode (d : TraceDictionary) (opcode : UInt32) : Option (Option (UInt32 × Bool) × TraceDictionary) :=
  match d.resolve opcode with
  | some (metadataId, true) =>
    (d.commitInstructionDefinition opcode metadataId).map fun d => (some (metadataId, true), d)
  | result => some (result, d)

def useAll (d : TraceDictionary) : List UInt32 → Option (List (Option (UInt32 × Bool)) × TraceDictionary)
  | [] => some ([], d)
  | opcode :: opcodes => do
    let (result, d) ← d.useOpcode opcode
    let (results, d) ← d.useAll opcodes
    return (result :: results, d)

/-- A number as the dictionary returns it. -/
def metadata (result : ℕ × Bool) : UInt32 × Bool := (UInt32.ofNat result.1, result.2)

variable {d : TraceDictionary} {known : List UInt32}

theorem enumerates_request (requestedSlots : UInt32) (refused : ℕ) : (request requestedSlots refused).Enumerates [] := by
  refine ⟨Stores.empty _ _, rfl, Nat.zero_le _, ?_⟩
  unfold request
  dsimp only
  split_ifs
  · exact (Nat.shiftRight_le _ _).trans requestedSlots.toNat_lt.le
  · exact Nat.zero_le _

theorem Enumerates.useOpcode_eq (h : d.Enumerates known) (opcode : UInt32) :
    ∃ d', d.useOpcode opcode = some ((assign d.slotCount known opcode).1.map metadata, d') ∧
      d'.Enumerates (assign d.slotCount known opcode).2 ∧ d'.slotCount = d.slotCount := by
  unfold useOpcode
  obtain ⟨hmem, hassign⟩ | ⟨hnew, hroom, hassign⟩ | ⟨hnew, hroom, hassign⟩ := assign_cases d.slotCount known opcode
  · rw [h.resolve_known hmem, hassign]
    exact ⟨d, rfl, h, rfl⟩
  · obtain ⟨d', hcommit, hd', hslots⟩ := h.commit_new hnew hroom
    rw [h.resolve_new hnew, if_pos hroom, hassign]
    dsimp only
    rw [hcommit]
    exact ⟨d', rfl, hd', hslots⟩
  · rw [h.resolve_new hnew, if_neg (Nat.not_lt.2 hroom), hassign]
    exact ⟨d, rfl, h, rfl⟩

/-- Every run numbers its opcodes by their first use, and every commit of it succeeds. -/
theorem Enumerates.useAll_eq (h : d.Enumerates known) (opcodes : List UInt32) :
    ∃ d', d.useAll opcodes = some ((assignAll d.slotCount known opcodes).1.map (Option.map metadata), d') ∧
      d'.Enumerates (assignAll d.slotCount known opcodes).2 ∧ d'.slotCount = d.slotCount := by
  induction opcodes generalizing d known with
  | nil => exact ⟨d, rfl, h, rfl⟩
  | cons opcode opcodes ih =>
    obtain ⟨d₁, huse, hd₁, hslots₁⟩ := h.useOpcode_eq opcode
    obtain ⟨d₂, hrest, hd₂, hslots₂⟩ := ih hd₁
    rw [hslots₁] at hrest hd₂ hslots₂
    refine ⟨d₂, ?_, hd₂, hslots₂⟩
    rw [useAll, huse]
    dsimp only [Option.bind_eq_bind, Option.bind_some]
    rw [hrest]
    rfl

/-- What a run over a dictionary keeps to: the results are those of a numbering by first use,
where an opcode fails all slots hold others, and a reset gives a new dictionary. -/
structure Numbering (d : TraceDictionary) (opcodes : List UInt32) (results : List (Option (UInt32 × Bool)))
    (d' : TraceDictionary) : Prop where
  numbers : Numbers d.slotCount opcodes (results.map (Option.map fun (id, new) => (id.toNat, new)))
  full : ∀ (i : ℕ) opcode, opcodes[i]? = some opcode → results[i]? = some none →
    ∃ before dᵢ, d.useAll (opcodes.take i) = some (before, dᵢ) ∧
      ∀ slot < d.slotCount, ∃ entry, dᵢ.slots slot = some entry ∧ entry.1 ≠ opcode
  reset : d'.reset = d

-- 1 and 2 share the home slot of a table of two slots; a third opcode finds no room
example : ((request 2 0).useAll [1, 2, 1, 3]).map Prod.fst =
    some [some (0, true), some (1, true), some (0, false), none] := by decide

end QTrace.Events.TraceDictionary
