/-
`float-to-ordered-string.ts` and `parse-big-int.ts`: numbers as strings that sort as the
numbers do.

A number is its bit pattern, and a string the list of its characters: they are all ASCII,
so that the order by code units is the order by characters.
-/
import ZeroSync.Binary64
import ZeroSync.LexiVersion
import Mathlib.Data.Nat.Digits.Lemmas

namespace ZeroSync

open Binary64 Divergence

/-- `view.getUint32(0)`, after the number is set. -/
def highHalf (view : BitVec 64) : BitVec 32 := view.extractLsb' 32 32

/-- `view.getUint32(4)`. -/
def lowHalf (view : BitVec 64) : BitVec 32 := view.extractLsb' 0 32

/-- `padStart(targetLength, '0')`. -/
def padStartZero (targetLength : ℕ) (s : List Char) : List Char := List.replicate (targetLength - s.length) '0' ++ s

def encodeFloat64AsString (n : BitVec 64) : List Char :=
  let high := highHalf n
  let low := lowHalf n
  let view :=
    if lessThan n zero ∨ n = negZero then (high ^^^ 0xffffffff#32) ++ (low ^^^ 0xffffffff#32)
    else (high ^^^ (1#32 <<< 31)) ++ low
  padStartZero 13 (toString36 view.toNat)

/-- `parseInt` of one character, `none` for `NaN`. -/
def parseDigit (c : Char) (radix : ℕ) : Option ℕ :=
  let digit :=
    if '0' ≤ c ∧ c ≤ '9' then some (c.toNat - 48)
    else if 'a' ≤ c ∧ c ≤ 'z' then some (c.toNat - 87)
    else if 'A' ≤ c ∧ c ≤ 'Z' then some (c.toNat - 55)
    else none
  digit.filter (· < radix)

/-- `parseBigInt`, which throws where there is no digit. -/
def parseBigInt (val : List Char) (radix : ℕ) : Option ℕ :=
  val.foldlM (fun result c => (parseDigit c radix).map fun digit => result * radix + digit) 0

/-- `decodeFloat64AsString`, which asserts the length. -/
def decodeFloat64AsString (s : List Char) : Option (BitVec 64) := do
  guard (s.length = 13)
  let bigint ← parseBigInt s 36
  let view := BitVec.ofNat 64 bigint
  let high := highHalf view
  let low := lowHalf view
  let sign := high.sshiftRight 31
  if sign ≠ 0 then return (high ^^^ (1#32 <<< 31)) ++ low
  else return (high ^^^ 0xffffffff#32) ++ (low ^^^ 0xffffffff#32)

/-! ## Halves -/

theorem toNat_halves (high low : BitVec 32) : (high ++ low).toNat = high.toNat * 2 ^ 32 + low.toNat := by
  rw [BitVec.toNat_append, ← Nat.shiftLeft_add_eq_or_of_lt low.isLt, Nat.shiftLeft_eq]

theorem toNat_highHalf (view : BitVec 64) : (highHalf view).toNat = view.toNat / 2 ^ 32 := by
  have hlt := view.isLt
  rw [highHalf, BitVec.extractLsb'_toNat, Nat.shiftRight_eq_div_pow]
  omega

theorem toNat_lowHalf (view : BitVec 64) : (lowHalf view).toNat = view.toNat % 2 ^ 32 := by
  rw [lowHalf, BitVec.extractLsb'_toNat, Nat.shiftRight_zero]

theorem halves (view : BitVec 64) : highHalf view ++ lowHalf view = view := by
  apply BitVec.eq_of_toNat_eq
  rw [toNat_halves, toNat_highHalf, toNat_lowHalf]
  omega

theorem flipped (view : BitVec 64) :
    (highHalf view ^^^ 0xffffffff#32) ++ (lowHalf view ^^^ 0xffffffff#32) = ~~~view := by
  have hones : (0xffffffff#32 : BitVec 32) = BitVec.allOnes 32 := by decide
  rw [hones, BitVec.xor_allOnes, BitVec.xor_allOnes, ← BitVec.not_append, halves]

theorem toNat_xor_sign (high : BitVec 32) : (high ^^^ (1#32 <<< 31)).toNat = (2 ^ 31 + high.toNat) % 2 ^ 32 := by
  have hsign : (1#32 <<< 31).toNat = 2 ^ 31 := by decide
  rw [BitVec.toNat_xor, hsign]
  refine Nat.eq_of_testBit_eq fun i => ?_
  rw [Nat.testBit_xor, Nat.testBit_mod_two_pow, Nat.testBit_two_pow]
  obtain hi | rfl | hi := lt_trichotomy i 31
  · rw [Nat.testBit_two_pow_add_gt hi]
    simp [hi.ne', (by omega : i < 32)]
  · rw [Nat.testBit_two_pow_add_eq]
    simp
  · have hhigh : high.toNat.testBit i = false :=
      Nat.testBit_lt_two_pow (high.isLt.trans_le (Nat.pow_le_pow_right (by omega) hi))
    have hnot : ¬ i < 32 := by omega
    rw [hhigh, decide_eq_false hnot, decide_eq_false hi.ne]
    rfl

theorem toNat_signFlipped (view : BitVec 64) :
    ((highHalf view ^^^ (1#32 <<< 31)) ++ lowHalf view).toNat = (2 ^ 63 + view.toNat) % 2 ^ 64 := by
  have hlt := view.isLt
  rw [toNat_halves, toNat_xor_sign, toNat_highHalf, toNat_lowHalf]
  omega

/-- `sign` is not zero where the first bit is set. -/
theorem sign_ne_zero (view : BitVec 64) : (highHalf view).sshiftRight 31 ≠ 0 ↔ view.msb = true := by
  have hlt := view.isLt
  have hhigh := toNat_highHalf view
  have hint := BitVec.toInt_eq_toNat_cond (highHalf view)
  have hzero : (0 : BitVec 32).toInt = 0 := rfl
  rw [Ne, ← BitVec.toInt_inj, BitVec.toInt_sshiftRight, Int.shiftRight_eq_div_pow, BitVec.msb_eq_decide,
    decide_eq_true_iff, hzero, hint, hhigh]
  split <;> omega

/-! ## The integer that is written -/

/-- `n < 0 || Object.is(n, -0)`: the sign bit. -/
theorem negative_iff {n : BitVec 64} (hn : isNaN n = false) : (lessThan n zero = true ∨ n = negZero) ↔ n.msb = true := by
  have hzero : isNaN zero = false := by decide
  have hless : lessThan n zero = true ↔ signed n < 0 := by
    rw [lessThan, hn, hzero, Bool.not_false, Bool.and_true, Bool.true_and, decide_eq_true_iff, value_lt_iff hn hzero]
    exact Iff.rfl
  rw [hless]
  constructor
  · rintro (hneg | rfl)
    · by_contra hmsb
      rw [signed, if_neg hmsb] at hneg
      omega
    · decide
  · intro hmsb
    by_cases hbits : bits n = 0
    · exact .inr (eq_of_bits (hmsb.trans (by decide)) (hbits.trans (by decide)))
    · refine .inl ?_
      rw [signed, if_pos hmsb]
      omega

theorem encodeFloat64AsString_eq {n : BitVec 64} (hn : isNaN n = false) :
    encodeFloat64AsString n = padStartZero 13 (toString36 (place n)) := by
  have hbits := bits_lt n
  have hnat := toNat_eq n
  unfold encodeFloat64AsString place
  by_cases hmsb : n.msb = true
  · rw [if_pos hmsb] at hnat
    simp only [if_pos ((negative_iff hn).2 hmsb), if_pos hmsb, flipped, BitVec.toNat_not, hnat]
    congr 2
    omega
  · rw [if_neg hmsb] at hnat
    simp only [if_neg (fun h => hmsb ((negative_iff hn).1 h)), if_neg hmsb, toNat_signFlipped, hnat]
    congr 2
    omega

/-! ## Thirteen digits -/

/-- The digits that `padStart` completes. -/
def digits13 (n : ℕ) : List ℕ := List.replicate (13 - (digits36 n).length) 0 ++ digits36 n

theorem padStartZero_eq (n : ℕ) : padStartZero 13 (toString36 n) = (digits13 n).map digit36 := by
  rw [padStartZero, toString36_length, digits13, List.map_append, List.map_replicate]
  rfl

theorem digits13_lt {n d : ℕ} (hd : d ∈ digits13 n) : d < 36 := by
  obtain hd | hd := List.mem_append.1 hd
  · rw [(List.mem_replicate.1 hd).2]
    norm_num
  · exact digits36_lt n d hd

theorem digits13_length {n : ℕ} (hn : n < 2 ^ 64) : (digits13 n).length = 13 := by
  have hlen : (digits36 n).length ≤ 13 := by
    unfold digits36
    split
    · decide
    · rw [List.length_reverse, Nat.digits_length_le_iff (by norm_num)]
      exact hn.trans_le (by norm_num)
  rw [digits13, List.length_append, List.length_replicate]
  omega

theorem ofDigits_digits13 (n : ℕ) : Nat.ofDigits 36 (digits13 n).reverse = n := by
  have hzeros : ∀ k, Nat.ofDigits 36 (List.replicate k 0) = 0 := fun k => by
    induction k with
    | zero => rfl
    | succ k ih => rw [List.replicate_succ, Nat.ofDigits_cons, ih]
  rw [digits13, List.reverse_append, Nat.ofDigits_append, List.reverse_replicate, hzeros, ofDigits_digits36,
    Nat.mul_zero, Nat.add_zero]

theorem digits13_diverges {m n : ℕ} (hn : n < 2 ^ 64) (h : m < n) :
    (digits13 m).map digit36 < (digits13 n).map digit36 := by
  have hlen := (digits13_length (h.trans hn)).trans (digits13_length hn).symm
  have hdiverges : Diverges (digits13 m) (digits13 n) := by
    refine Diverges.of_ofDigits_lt (by norm_num) hlen (fun d hd => digits13_lt hd) (fun d hd => digits13_lt hd) ?_
    rwa [ofDigits_digits13, ofDigits_digits13]
  exact (hdiverges.map fun a _ b hb hab => digit36_lt (digits13_lt hb) hab).lex

theorem digits13_lt_iff {m n : ℕ} (hm : m < 2 ^ 64) (hn : n < 2 ^ 64) :
    (digits13 m).map digit36 < (digits13 n).map digit36 ↔ m < n := by
  refine ⟨fun h => ?_, digits13_diverges hn⟩
  by_contra hnot
  obtain hlt | rfl := (not_lt.1 hnot).lt_or_eq
  · exact lt_asymm h (digits13_diverges hm hlt)
  · exact lt_irrefl _ h

/-- `parseBigInt` reads digits back. -/
theorem parseBigInt_digits {digits : List ℕ} (h : ∀ d ∈ digits, d < 36) :
    parseBigInt (digits.map digit36) 36 = some (Nat.ofDigits 36 digits.reverse) := by
  have hdigit : ∀ d < 36, parseDigit (digit36 d) 36 = some d := by decide
  have hloop : ∀ result, (digits.map digit36).foldlM
      (fun result c => (parseDigit c 36).map fun digit => result * 36 + digit) result =
        some (result * 36 ^ digits.length + Nat.ofDigits 36 digits.reverse) := by
    induction digits with
    | nil => intro result; simp
    | cons d digits ih =>
      intro result
      rw [List.map_cons, List.foldlM_cons, hdigit d (h d List.mem_cons_self), Option.map_some, Option.bind_eq_bind,
        Option.bind_some, ih fun d' hd' => h d' (List.mem_cons_of_mem _ hd'), ofDigits_reverse_cons, List.length_cons]
      congr 1
      ring
  rw [parseBigInt, hloop 0, Nat.zero_mul, Nat.zero_add]

/-! ## Encoding and decoding -/

theorem place_lt (n : BitVec 64) : place n < 2 ^ 64 := by
  have hbits := bits_lt n
  unfold place
  split <;> omega

theorem decodeFloat64AsString_encode {n : BitVec 64} (hn : isNaN n = false) :
    decodeFloat64AsString (encodeFloat64AsString n) = some n := by
  have hbits := bits_lt n
  have hnat := toNat_eq n
  have hview : (BitVec.ofNat 64 (place n)).toNat = place n := by
    rw [BitVec.toNat_ofNat, Nat.mod_eq_of_lt (place_lt n)]
  have hlen : ((digits13 (place n)).map digit36).length = 13 := by
    rw [List.length_map, digits13_length (place_lt n)]
  have hplace : place n = if n.msb then 2 ^ 63 - 1 - bits n else 2 ^ 63 + bits n := rfl
  rw [encodeFloat64AsString_eq hn, padStartZero_eq, decodeFloat64AsString, parseBigInt_digits fun d hd => digits13_lt hd,
    ofDigits_digits13]
  simp only [hlen, guard_true, Option.pure_def, Option.bind_eq_bind, Option.bind_some, sign_ne_zero,
    BitVec.msb_eq_decide, decide_eq_true_eq, hview]
  by_cases hmsb : n.msb = true
  · rw [if_pos hmsb] at hnat hplace
    rw [if_neg (by omega), flipped]
    congr 1
    apply BitVec.eq_of_toNat_eq
    rw [BitVec.toNat_not, hview]
    omega
  · rw [if_neg hmsb] at hnat hplace
    rw [if_pos (by omega)]
    congr 1
    apply BitVec.eq_of_toNat_eq
    rw [toNat_signFlipped, hview]
    omega

/-- **The encoding** of the numbers sorts as they do, `-0` before `+0`, has 13 digits, and is read back to the bit. -/
theorem encodeFloat64AsString_order {m n : BitVec 64} (hm : isNaN m = false) (hn : isNaN n = false) :
    (encodeFloat64AsString m < encodeFloat64AsString n ↔ Precedes m n) ∧
    (encodeFloat64AsString n).length = 13 ∧ (∀ c ∈ encodeFloat64AsString n, ∃ d < 36, c = digit36 d) ∧
    decodeFloat64AsString (encodeFloat64AsString n) = some n := by
  refine ⟨?_, ?_, ?_, decodeFloat64AsString_encode hn⟩
  · rw [encodeFloat64AsString_eq hm, encodeFloat64AsString_eq hn, padStartZero_eq, padStartZero_eq,
      digits13_lt_iff (place_lt m) (place_lt n), precedes_iff hm hn]
  · rw [encodeFloat64AsString_eq hn, padStartZero_eq, List.length_map, digits13_length (place_lt n)]
  · intro c hc
    rw [encodeFloat64AsString_eq hn, padStartZero_eq] at hc
    obtain ⟨d, hd, rfl⟩ := List.mem_map.1 hc
    exact ⟨d, digits13_lt hd, rfl⟩

/-- `-0` and the least number above it. -/
theorem encodeFloat64AsString_order_zeros : Precedes negZero 1 ∧
    encodeFloat64AsString negZero < encodeFloat64AsString 1 ∧
    decodeFloat64AsString (encodeFloat64AsString 1) = some 1 := by
  have horder := encodeFloat64AsString_order (m := negZero) (n := 1) (by decide) (by decide)
  have hprecedes : Precedes negZero 1 := (precedes_iff (by decide) (by decide)).2 (by decide)
  exact ⟨hprecedes, horder.1.2 hprecedes, horder.2.2.2⟩

end ZeroSync
