import Mathlib

/-! Little-endian byte strings and the 32-bit FNV-1a hash. An integer is written in
a fixed number of bytes, least significant first; what is read back is the integer
modulo the width, so encoding and decoding a fixed-width value is exact. -/

namespace QTrace.Lib

/-- The `w` low bytes of `n`. -/
def leBytes : ℕ → ℕ → List UInt8
  | 0, _ => []
  | w + 1, n => UInt8.ofNat n :: leBytes w (n / 256)

/-- The integer a byte string spells. -/
def leNat : List UInt8 → ℕ
  | [] => 0
  | b :: bs => b.toNat + 256 * leNat bs

@[simp] theorem length_leBytes : ∀ w n : ℕ, (leBytes w n).length = w
  | 0, _ => rfl
  | w + 1, n => by rw [leBytes, List.length_cons, length_leBytes w]

@[simp] theorem take_leBytes {w k : ℕ} (n : ℕ) (h : w ≤ k) : (leBytes w n).take k = leBytes w n :=
  List.take_of_length_le (by simpa using h)

@[simp] theorem drop_leBytes {w k : ℕ} (n : ℕ) (h : w ≤ k) : (leBytes w n).drop k = [] :=
  List.drop_of_length_le (by simpa using h)

theorem leNat_leBytes : ∀ w n : ℕ, leNat (leBytes w n) = n % 256 ^ w
  | 0, n => by simp [leBytes, leNat, Nat.mod_one]
  | w + 1, n => by
    have hbyte : (UInt8.ofNat n).toNat = n % 256 := by simp
    rw [leBytes, leNat, leNat_leBytes w, hbyte, pow_succ', Nat.mod_mul]

theorem leNat_leBytes_of_lt {w n : ℕ} (h : n < 256 ^ w) : leNat (leBytes w n) = n := by
  rw [leNat_leBytes, Nat.mod_eq_of_lt h]

theorem leNat_lt : ∀ bs : List UInt8, leNat bs < 256 ^ bs.length
  | [] => by simp [leNat]
  | b :: bs => by
    have hb := b.toNat_lt
    have ih := leNat_lt bs
    rw [leNat, List.length_cons, pow_succ]
    omega

theorem leBytes_leNat : ∀ bs : List UInt8, leBytes bs.length (leNat bs) = bs
  | [] => rfl
  | b :: bs => by
    have hb : b.toNat < 256 := b.toNat_lt
    have hhead : UInt8.ofNat (b.toNat + 256 * leNat bs) = b := by
      apply UInt8.toNat.inj
      simp only [UInt8.toNat_ofNat']
      omega
    have htail : (b.toNat + 256 * leNat bs) / 256 = leNat bs := by omega
    rw [List.length_cons, leNat, leBytes, hhead, htail, leBytes_leNat bs]

/-- Memory with `bytes` stored at `offset`. -/
def overwrite (memory : List UInt8) (offset : ℕ) (bytes : List UInt8) : List UInt8 :=
  memory.take offset ++ bytes ++ memory.drop (offset + bytes.length)

theorem overwrite_append_right (front back : List UInt8) (offset : ℕ) (bytes : List UInt8) :
    overwrite (front ++ back) (front.length + offset) bytes = front ++ overwrite back offset bytes := by
  have htake : front.take (front.length + offset) = front := List.take_of_length_le (by omega)
  have hdrop : front.drop (front.length + (offset + bytes.length)) = [] :=
    List.drop_of_length_le (by omega)
  simp [overwrite, List.take_append, List.drop_append, Nat.add_assoc, htake, hdrop]

variable {bytes : List UInt8}

theorem overwrite_slice (front old back : List UInt8) (h : bytes.length = old.length) :
    overwrite (front ++ (old ++ back)) front.length bytes = front ++ (bytes ++ back) := by
  simp [overwrite, h]

variable {memory : List UInt8} {offset : ℕ}

theorem length_overwrite (h : offset + bytes.length ≤ memory.length) :
    (overwrite memory offset bytes).length = memory.length := by
  simp only [overwrite, List.length_append, List.length_take, List.length_drop]
  omega

theorem read_overwrite (h : offset ≤ memory.length) :
    ((overwrite memory offset bytes).drop offset).take bytes.length = bytes := by
  have hlen : (memory.take offset).length = offset := by
    rw [List.length_take]
    omega
  rw [overwrite, List.append_assoc, List.drop_append_of_le_length hlen.ge, List.drop_of_length_le hlen.le,
    List.nil_append, List.take_left]

/-- The FNV-1a hash of a byte string. -/
def fnv1a (bs : List UInt8) : UInt32 :=
  bs.foldl (fun hash byte => (hash ^^^ byte.toUInt32) * 16777619) 2166136261

end QTrace.Lib
