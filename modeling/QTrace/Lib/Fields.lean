import QTrace.Lib.Bytes

/-! Tables of fixed-size rows. A row is a list of little-endian fields; a table is its rows one
after the other, and a field is read back from its offset in its row. -/

namespace QTrace.Lib

/-- A number and the bytes it takes. -/
structure Field where
  width : ℕ
  value : ℕ
  deriving DecidableEq

namespace Field

def u8 (value : ℕ) : Field := ⟨1, value⟩

def u16 (value : ℕ) : Field := ⟨2, value⟩

def u32 (value : ℕ) : Field := ⟨4, value⟩

def u64 (value : ℕ) : Field := ⟨8, value⟩

def zero (count : ℕ) : Field := ⟨count, 0⟩

@[simp] theorem width_u8 (value : ℕ) : (u8 value).width = 1 := rfl

@[simp] theorem width_u16 (value : ℕ) : (u16 value).width = 2 := rfl

@[simp] theorem width_u32 (value : ℕ) : (u32 value).width = 4 := rfl

@[simp] theorem width_u64 (value : ℕ) : (u64 value).width = 8 := rfl

@[simp] theorem width_zero (count : ℕ) : (zero count).width = count := rfl

end Field

def encodeFields (fields : List Field) : List UInt8 := fields.flatMap fun field => leBytes field.width field.value

@[simp] theorem encodeFields_cons (field : Field) (fields : List Field) :
    encodeFields (field :: fields) = leBytes field.width field.value ++ encodeFields fields := rfl

def fieldsWidth (fields : List Field) : ℕ := (fields.map Field.width).sum

@[simp] theorem fieldsWidth_nil : fieldsWidth [] = 0 := rfl

@[simp] theorem fieldsWidth_cons (field : Field) (fields : List Field) :
    fieldsWidth (field :: fields) = field.width + fieldsWidth fields := rfl

@[simp] theorem length_encodeFields (fields : List Field) : (encodeFields fields).length = fieldsWidth fields := by
  induction fields with
  | nil => rfl
  | cons field fields ih => simp [ih]

/-- Whether every field holds its number. -/
def Field.Fits (field : Field) : Prop := field.value < 256 ^ field.width

/-- The field of the given width at an offset. -/
def fieldAt : List Field → ℕ → ℕ → Option ℕ
  | [], _, _ => none
  | field :: fields, offset, width =>
    if offset = 0 ∧ field.width = width then some field.value
    else if field.width ≤ offset then fieldAt fields (offset - field.width) width
    else none

/-- The number that `width` bytes of a row spell. -/
def readField (row : List UInt8) (offset width : ℕ) : ℕ := leNat ((row.drop offset).take width)

theorem readField_encodeFields {fields : List Field} (hfits : ∀ field ∈ fields, field.Fits) {offset width value : ℕ}
    (h : fieldAt fields offset width = some value) : readField (encodeFields fields) offset width = value := by
  induction fields generalizing offset with
  | nil => simp [fieldAt] at h
  | cons field fields ih =>
    unfold fieldAt at h
    unfold readField at ih ⊢
    rw [encodeFields_cons]
    split_ifs at h with hhere hlater
    · obtain ⟨rfl, rfl⟩ := hhere
      rw [List.drop_zero, List.take_append_of_le_length (by simp), take_leBytes _ le_rfl,
        leNat_leBytes_of_lt (hfits field (by simp)), Option.some.inj h]
    · have hdrop : (leBytes field.width field.value ++ encodeFields fields).drop offset =
          (encodeFields fields).drop (offset - field.width) := by
        rw [List.drop_append, drop_leBytes _ hlater, List.nil_append, length_leBytes]
      rw [hdrop]
      exact ih (fun other hother => hfits other (by simp [hother])) h

end QTrace.Lib
