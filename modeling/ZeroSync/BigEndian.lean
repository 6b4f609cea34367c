/-
Integers in big-endian bytes, as `readInt16BE`, `readInt32BE` and their kin read them.

What is written is read back wherever it stands in a buffer (`readInt_append`), and
what is read in a part of a buffer is read in all of it (`readInt_append_right`).
-/
import Mathlib.Data.Nat.Notation
import Mathlib.Data.Int.Notation
import Mathlib.Algebra.Order.Ring.Nat
import Mathlib.Tactic.Positivity
import Mathlib.Tactic.Ring

namespace BigEndian

/-- The number that some bytes are, the first of them the most significant. -/
def value (bytes : List UInt8) : ℕ := bytes.foldl (fun n b => n * 256 + b.toNat) 0

/-- The last `width` bytes of a number. -/
def encode : ℕ → ℕ → List UInt8
  | 0, _ => []
  | width + 1, n => encode width (n / 256) ++ [UInt8.ofNat n]

/-- Two's complement of so many bytes. -/
def signed (width n : ℕ) : ℤ := if n < 2 ^ (8 * width - 1) then n else n - 2 ^ (8 * width)

def encodeInt (width : ℕ) (z : ℤ) : List UInt8 := encode width (z % 2 ^ (8 * width)).toNat

/-- `buf.readUInt…BE(offset)`, which throws where it is out of range. -/
def readUInt (width : ℕ) (buf : List UInt8) (offset : ℤ) : Option ℕ :=
  if 0 ≤ offset ∧ offset + width ≤ buf.length then some (value ((buf.drop offset.toNat).take width)) else none

/-- `buf.readInt…BE(offset)`, which throws where it is out of range. -/
def readInt (width : ℕ) (buf : List UInt8) (offset : ℤ) : Option ℤ := (readUInt width buf offset).map (signed width)

@[simp] theorem length_encode (width n : ℕ) : (encode width n).length = width := by
  induction width generalizing n with
  | zero => rfl
  | succ width ih => rw [encode, List.length_append, ih, List.length_singleton]

@[simp] theorem length_encodeInt (width : ℕ) (z : ℤ) : (encodeInt width z).length = width := length_encode _ _

theorem value_encode (width n : ℕ) : value (encode width n) = n % 2 ^ (8 * width) := by
  induction width generalizing n with
  | zero => simp [encode, value, Nat.mod_one]
  | succ width ih =>
    have hfold : value (encode (width + 1) n) = value (encode width (n / 256)) * 256 + (UInt8.ofNat n).toNat := by
      simp [encode, value, List.foldl_append]
    have hpow : 2 ^ (8 * (width + 1)) = 256 * 2 ^ (8 * width) := by ring
    have hbyte : (UInt8.ofNat n).toNat = n % 256 := by simp
    rw [hfold, ih, hbyte, hpow, Nat.mod_mul]
    ring

theorem signed_encodeInt {width : ℕ} (hwidth : 0 < width) {z : ℤ} (hlow : -2 ^ (8 * width - 1) ≤ z)
    (hhigh : z < 2 ^ (8 * width - 1)) : signed width (value (encodeInt width z)) = z := by
  have hpow : (2 : ℤ) ^ (8 * width) = 2 * 2 ^ (8 * width - 1) := by
    rw [← pow_succ', Nat.sub_add_cancel (by omega)]
  have hpos : (0 : ℤ) < 2 ^ (8 * width - 1) := by positivity
  obtain ⟨m, hm⟩ : ∃ m : ℤ, m = z % 2 ^ (8 * width) := ⟨_, rfl⟩
  have hrange : 0 ≤ m ∧ m < 2 ^ (8 * width) :=
    ⟨hm ▸ Int.emod_nonneg _ (by omega), hm ▸ Int.emod_lt_of_pos _ (by omega)⟩
  have hvalue : (value (encodeInt width z) : ℤ) = m := by
    rw [encodeInt, value_encode, ← hm]
    have htoNat : m.toNat < 2 ^ (8 * width) := by
      have hcast : (m.toNat : ℤ) < (2 ^ (8 * width) : ℕ) := by
        rw [Int.toNat_of_nonneg hrange.1]
        exact_mod_cast hrange.2
      exact_mod_cast hcast
    rw [Nat.mod_eq_of_lt htoNat, Int.toNat_of_nonneg hrange.1]
  have hlt : value (encodeInt width z) < 2 ^ (8 * width - 1) ↔ m < 2 ^ (8 * width - 1) := by
    rw [← hvalue]
    exact_mod_cast Iff.rfl
  unfold signed
  by_cases hneg : z < 0
  · have hmod : m = z + 2 ^ (8 * width) := by
      rw [hm, ← Int.add_emod_right]
      exact Int.emod_eq_of_lt (by omega) (by omega)
    rw [if_neg (by rw [hlt]; omega), hvalue]
    omega
  · have hmod : m = z := by
      rw [hm]
      exact Int.emod_eq_of_lt (by omega) (by omega)
    rw [if_pos (by rw [hlt]; omega), hvalue]
    omega

theorem readInt_append {width : ℕ} (hwidth : 0 < width) {z : ℤ} (hlow : -2 ^ (8 * width - 1) ≤ z)
    (hhigh : z < 2 ^ (8 * width - 1)) (pre post : List UInt8) {offset : ℤ} (hoffset : offset = pre.length) :
    readInt width (pre ++ encodeInt width z ++ post) offset = some z := by
  have hin : 0 ≤ offset ∧ offset + width ≤ (pre ++ encodeInt width z ++ post).length := by
    simp only [List.length_append, length_encodeInt]
    omega
  have hcut : ((pre ++ encodeInt width z ++ post).drop offset.toNat).take width = encodeInt width z := by
    rw [hoffset, Int.toNat_natCast, List.append_assoc, List.drop_left, List.take_left' (length_encodeInt _ _)]
  rw [readInt, readUInt, if_pos hin, hcut, Option.map_some, signed_encodeInt hwidth hlow hhigh]

theorem readInt_append_right {width : ℕ} {buf : List UInt8} {offset : ℤ} (h : 0 ≤ offset ∧ offset + width ≤ buf.length)
    (more : List UInt8) : readInt width (buf ++ more) offset = readInt width buf offset := by
  have hmore : 0 ≤ offset ∧ offset + width ≤ (buf ++ more).length := by
    rw [List.length_append]
    omega
  have hcut : ((buf ++ more).drop offset.toNat).take width = (buf.drop offset.toNat).take width := by
    rw [List.drop_append_of_le_length (by omega), List.take_append_of_le_length (by rw [List.length_drop]; omega)]
  rw [readInt, readInt, readUInt, readUInt, if_pos h, if_pos hmore, hcut]

theorem readInt_drop {width : ℕ} {buf : List UInt8} {n : ℕ} (hn : n ≤ buf.length) {offset : ℤ} (hoffset : 0 ≤ offset) :
    readInt width (buf.drop n) offset = readInt width buf (n + offset) := by
  have hiff : (0 ≤ offset ∧ offset + width ≤ (buf.drop n).length) ↔ 0 ≤ n + offset ∧ n + offset + width ≤ buf.length := by
    rw [List.length_drop]
    omega
  have hindex : n + offset.toNat = ((n : ℤ) + offset).toNat := by omega
  simp only [readInt, readUInt, List.drop_drop, hindex, if_congr hiff rfl rfl]

end BigEndian
