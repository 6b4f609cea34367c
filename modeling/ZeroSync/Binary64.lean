/-
The 64-bit numbers of IEEE 754 as bit patterns: what a pattern stands for (`value`), and
its order, in which `-0` comes before `+0` (`Precedes`).

Without its sign, a pattern is an integer that grows with what it stands for; so the order
is that of one natural number for each pattern (`precedes_iff`).
-/
import Mathlib

namespace Binary64

/-- A pattern without its sign. -/
def bits (x : BitVec 64) : ℕ := x.toNat % 2 ^ 63

def exponent (x : BitVec 64) : ℕ := x.toNat / 2 ^ 52 % 2 ^ 11

def fraction (x : BitVec 64) : ℕ := x.toNat % 2 ^ 52

def isNaN (x : BitVec 64) : Bool := exponent x = 2047 ∧ fraction x ≠ 0

/-- The absolute value of a finite number: subnormal with the exponent `0`. -/
def magnitude (x : BitVec 64) : ℚ :=
  if exponent x = 0 then fraction x * 2 ^ (-1074 : ℤ) else (2 ^ 52 + fraction x) * 2 ^ ((exponent x : ℤ) - 1075)

/-- The number, or the infinity, that a pattern stands for; of no meaning for a `NaN`. -/
def value (x : BitVec 64) : WithBot (WithTop ℚ) :=
  if exponent x = 2047 then
    if x.msb then ⊥ else ((⊤ : WithTop ℚ) : WithBot (WithTop ℚ))
  else (((if x.msb then -magnitude x else magnitude x : ℚ) : WithTop ℚ) : WithBot (WithTop ℚ))

def zero : BitVec 64 := 0

def negZero : BitVec 64 := BitVec.twoPow 64 63

/-- The comparison of numbers: a `NaN` is below nothing, and nothing below it. -/
def lessThan (x y : BitVec 64) : Bool := !isNaN x && !isNaN y && decide (value x < value y)

/-- The order with `-0` before `+0`. -/
def Precedes (x y : BitVec 64) : Prop := value x < value y ∨ x = negZero ∧ y = zero

/-- The place of a pattern in the order. -/
def place (x : BitVec 64) : ℕ := if x.msb then 2 ^ 63 - 1 - bits x else 2 ^ 63 + bits x

/-! ## Patterns as integers -/

theorem bits_lt (x : BitVec 64) : bits x < 2 ^ 63 := Nat.mod_lt _ (by norm_num)

theorem exponent_eq (x : BitVec 64) : exponent x = bits x / 2 ^ 52 := by
  unfold exponent bits
  omega

theorem fraction_eq (x : BitVec 64) : fraction x = bits x % 2 ^ 52 := by
  unfold fraction bits
  omega

theorem toNat_eq (x : BitVec 64) : x.toNat = (if x.msb then 2 ^ 63 else 0) + bits x := by
  have hlt := x.isLt
  rw [BitVec.msb_eq_decide, bits]
  split <;> simp at * <;> omega

theorem eq_of_bits {x y : BitVec 64} (hmsb : x.msb = y.msb) (hbits : bits x = bits y) : x = y := by
  apply BitVec.eq_of_toNat_eq
  rw [toNat_eq x, toNat_eq y, hmsb, hbits]

/-- The absolute value of the finite number with these bits, in units of the least. -/
def scaled (n : ℕ) : ℕ := if n / 2 ^ 52 = 0 then n % 2 ^ 52 else (2 ^ 52 + n % 2 ^ 52) * 2 ^ (n / 2 ^ 52 - 1)

theorem magnitude_eq (x : BitVec 64) : magnitude x = scaled (bits x) * 2 ^ (-1074 : ℤ) := by
  unfold magnitude scaled
  rw [exponent_eq, fraction_eq]
  split
  · rfl
  · next hne =>
    obtain ⟨e, he⟩ : ∃ e, bits x / 2 ^ 52 = e + 1 := ⟨bits x / 2 ^ 52 - 1, by omega⟩
    have hexp : ((e + 1 : ℕ) : ℤ) - 1075 = (e : ℤ) + -1074 := by
      push_cast
      ring
    rw [he, hexp, zpow_add₀ (by norm_num), Nat.add_sub_cancel, zpow_natCast]
    generalize (2 : ℚ) ^ (-1074 : ℤ) = unit
    push_cast
    ring

theorem scaled_strictMono : StrictMono scaled := by
  refine strictMono_nat_of_lt_succ fun n => ?_
  obtain ⟨hsame, hmod⟩ | ⟨hnext, hmod, hmod'⟩ : ((n + 1) / 2 ^ 52 = n / 2 ^ 52 ∧ (n + 1) % 2 ^ 52 = n % 2 ^ 52 + 1) ∨
      ((n + 1) / 2 ^ 52 = n / 2 ^ 52 + 1 ∧ (n + 1) % 2 ^ 52 = 0 ∧ n % 2 ^ 52 = 2 ^ 52 - 1) := by
    omega
  · unfold scaled
    rw [hsame, hmod]
    split
    · omega
    · exact Nat.mul_lt_mul_of_pos_right (by omega) (by positivity)
  · unfold scaled
    rw [hnext, hmod, hmod', if_neg (Nat.succ_ne_zero (n / 2 ^ 52)), Nat.add_sub_cancel, Nat.add_zero]
    split
    · next hzero =>
      rw [hzero]
      norm_num
    · next hne =>
      obtain ⟨e, he⟩ : ∃ e, n / 2 ^ 52 = e + 1 := ⟨n / 2 ^ 52 - 1, by omega⟩
      rw [he, Nat.add_sub_cancel, pow_succ 2 e, ← Nat.mul_assoc, Nat.mul_right_comm]
      exact Nat.mul_lt_mul_of_pos_right (by norm_num) (by positivity)

/-! ## The order -/

/-- A pattern as a signed integer; both zeros are `0`. -/
def signed (x : BitVec 64) : ℤ := if x.msb then -(bits x : ℤ) else bits x

/-- The finite number of a signed integer, in units of the least. -/
def scaledSigned (r : ℤ) : ℤ := if r < 0 then -(scaled r.natAbs : ℤ) else scaled r.natAbs

theorem scaledSigned_strictMono : StrictMono scaledSigned := by
  intro r s hrs
  unfold scaledSigned
  have hzero : scaled 0 = 0 := by decide
  split
  · next hr =>
    split
    · have := scaled_strictMono (by omega : s.natAbs < r.natAbs)
      omega
    · have := scaled_strictMono (by omega : 0 < r.natAbs)
      omega
  · next hr =>
    rw [if_neg (by omega)]
    have := scaled_strictMono (by omega : r.natAbs < s.natAbs)
    omega

theorem scaledSigned_signed (x : BitVec 64) :
    scaledSigned (signed x) = if x.msb then -(scaled (bits x) : ℤ) else scaled (bits x) := by
  have hzero : scaled 0 = 0 := by decide
  unfold scaledSigned signed
  cases x.msb with
  | false => simp
  | true =>
    by_cases hbits : bits x = 0
    · simp [hbits, hzero]
    · rw [if_pos rfl, if_pos (by omega), if_pos rfl, Int.natAbs_neg, Int.natAbs_natCast]

/-- The signed integer of an infinity. -/
def infinite : ℤ := 2047 * 2 ^ 52

theorem value_cases {x : BitVec 64} (hx : isNaN x = false) :
    (signed x = -infinite ∧ value x = ⊥) ∨ (signed x = infinite ∧ value x = ((⊤ : WithTop ℚ) : WithBot (WithTop ℚ))) ∨
      (-infinite < signed x ∧ signed x < infinite ∧
        value x = (((scaledSigned (signed x) * 2 ^ (-1074 : ℤ) : ℚ) : WithTop ℚ) : WithBot (WithTop ℚ))) := by
  have hbits := bits_lt x
  have hexp := exponent_eq x
  have hfrac := fraction_eq x
  simp only [isNaN, decide_eq_false_iff_not, not_and, not_not] at hx
  unfold value
  by_cases hinf : exponent x = 2047
  · have hbits : bits x = 2047 * 2 ^ 52 := by
      have := hx hinf
      omega
    rw [if_pos hinf, signed, infinite, hbits]
    cases x.msb with
    | true => exact .inl ⟨by norm_num, rfl⟩
    | false => exact .inr (.inl ⟨by norm_num, rfl⟩)
  · refine .inr (.inr ⟨?_, ?_, ?_⟩)
    · unfold signed infinite
      split <;> omega
    · unfold signed infinite
      split <;> omega
    · rw [if_neg hinf, scaledSigned_signed, magnitude_eq]
      cases x.msb with
      | true => simp
      | false => simp

theorem value_lt_iff {x y : BitVec 64} (hx : isNaN x = false) (hy : isNaN y = false) :
    value x < value y ↔ signed x < signed y := by
  have hpos : 0 < infinite := by decide
  obtain ⟨hrx, hvx⟩ | ⟨hrx, hvx⟩ | ⟨hlx, hux, hvx⟩ := value_cases hx <;>
    obtain ⟨hry, hvy⟩ | ⟨hry, hvy⟩ | ⟨hly, huy, hvy⟩ := value_cases hy <;> rw [hvx, hvy]
  · exact iff_of_false (lt_irrefl _) (by rw [hrx, hry]; exact lt_irrefl _)
  · exact iff_of_true (WithBot.bot_lt_coe _) (by rw [hrx, hry]; omega)
  · exact iff_of_true (WithBot.bot_lt_coe _) (by rw [hrx]; exact hly)
  · exact iff_of_false not_lt_bot (by rw [hrx, hry]; omega)
  · exact iff_of_false (lt_irrefl _) (by rw [hrx, hry]; exact lt_irrefl _)
  · rw [WithBot.coe_lt_coe]
    exact iff_of_false not_top_lt (by rw [hrx]; omega)
  · exact iff_of_false not_lt_bot (by rw [hry]; omega)
  · rw [WithBot.coe_lt_coe, hry]
    exact iff_of_true (WithTop.coe_lt_top _) hux
  · rw [WithBot.coe_lt_coe, WithTop.coe_lt_coe, mul_lt_mul_iff_left₀ (zpow_pos (by norm_num) _), Int.cast_lt,
      scaledSigned_strictMono.lt_iff_lt]

/-- **The order** of the patterns, `-0` before `+0`, is that of their places. -/
theorem precedes_iff {x y : BitVec 64} (hx : isNaN x = false) (hy : isNaN y = false) :
    Precedes x y ↔ place x < place y := by
  have hbx := bits_lt x
  have hby := bits_lt y
  have hzeros : (x = negZero ∧ y = zero) ↔ (x.msb = true ∧ bits x = 0) ∧ y.msb = false ∧ bits y = 0 := by
    constructor
    · rintro ⟨rfl, rfl⟩
      decide
    · rintro ⟨⟨hmx, hx⟩, hmy, hy⟩
      exact ⟨eq_of_bits (hmx.trans (by decide)) (hx.trans (by decide)),
        eq_of_bits (hmy.trans (by decide)) (hy.trans (by decide))⟩
  rw [Precedes, value_lt_iff hx hy, hzeros]
  unfold signed place
  cases x.msb <;> cases y.msb <;> simp <;> omega

end Binary64
