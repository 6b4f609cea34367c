/-
`decodeNumeric` of `db/pg-copy-binary.ts`: a NUMERIC of the binary COPY format as a
number, before it is rounded to a double.

Up to three groups of digits are put together by arithmetic, which is exact. More of
them are put together as a decimal literal, whose point is in its place just if the
weight is not negative, or is -1 and the first group has four digits
(`decodeNumeric_eq_iff`).
-/
import Mathlib.Algebra.Order.Field.Rat
import Mathlib.Algebra.BigOperators.Group.List.Basic
import Mathlib.Algebra.Order.Field.Power
import Mathlib.Tactic.FieldSimp
import Mathlib.Tactic.Linarith
import ZeroSync.BigEndian

namespace ZeroSync.PgNumeric

open BigEndian

def NUMERIC_NEG : ℕ := 0x4000
def NUMERIC_NAN : ℕ := 0xc000
def NUMERIC_PINF : ℕ := 0xd000
def NUMERIC_NINF : ℕ := 0xf000
def NBASE : ℕ := 10000

/-- A number before it is rounded. -/
inductive Decoded
  | nan
  | infinity
  | negInfinity
  | number (x : ℚ)
  deriving DecidableEq

/-- The value of a decimal literal without a sign; of other text there is none. -/
def unsignedDecimal (str : List Char) : Option ℚ :=
  let int := str.takeWhile Char.isDigit
  match str.dropWhile Char.isDigit with
  | [] => some (Nat.ofDigitChars 10 int 0)
  | '.' :: frac =>
    if frac.all Char.isDigit ∧ int ++ frac ≠ [] then some (Nat.ofDigitChars 10 (int ++ frac) 0 / 10 ^ frac.length)
    else none
  | _ => none

/-- `Number(str)` of a decimal literal, without an exponent. -/
def Number (str : List Char) : Decoded :=
  match str with
  | '-' :: str => (unsignedDecimal str).elim .nan fun x => .number (-x)
  | str => (unsignedDecimal str).elim .nan .number

/-- `String(digit)` -/
def digitString (digit : ℤ) : List Char := digit.repr.toList

/-- `str.padStart(4, '0')` -/
def padStart (str : List Char) : List Char := List.replicate (4 - str.length) '0' ++ str

/-- The groups a decoder reads, from the ninth byte on. -/
def readGroups (buf : List UInt8) (ndigits : ℤ) : Option (List ℤ) :=
  (List.range ndigits.toNat).mapM fun i : ℕ => readInt 2 buf (8 + (i : ℤ) * 2)

/-- One round of the loop of `decodeNumericViaString`. -/
def appendGroup (intGroups : ℤ) (str : List Char) (group : ℤ × ℕ) : List Char :=
  let str := if group.2 = intGroups then (if str = [] then ['0'] else str) ++ ['.'] else str
  str ++ if group.2 = 0 then digitString group.1 else padStart (digitString group.1)

def decodeNumericViaString (groups : List ℤ) (ndigits weight : ℤ) (sign : ℕ) : Decoded :=
  let intGroups := weight + 1
  let str := groups.zipIdx.foldl (appendGroup intGroups) []
  let str := if intGroups > ndigits then str ++ List.replicate ((intGroups - ndigits) * 4).toNat '0' else str
  Number ((if sign = NUMERIC_NEG then ['-'] else []) ++ str)

/-- `decodeNumeric`; it throws where the buffer is too short. -/
def decodeNumeric (buf : List UInt8) : Option Decoded := do
  let ndigits ← readInt 2 buf 0
  let weight ← readInt 2 buf 2
  let sign ← readUInt 2 buf 4
  if sign = NUMERIC_NAN then return .nan
  else if sign = NUMERIC_PINF then return .infinity
  else if sign = NUMERIC_NINF then return .negInfinity
  else if ndigits = 0 then return .number 0
  else
    let groups ← readGroups buf ndigits
    if ndigits > 3 then return decodeNumericViaString groups ndigits weight sign
    else
      let intVal : ℤ := groups.foldl (fun intVal digit => intVal * NBASE + digit) 0
      let shift := ndigits - weight - 1
      let result : ℚ :=
        if shift > 0 then intVal / (NBASE : ℚ) ^ shift.toNat
        else if shift < 0 then intVal * (NBASE : ℚ) ^ (-shift).toNat
        else intVal
      return .number (if sign = NUMERIC_NEG then -result else result)

/-! ## What is encoded -/

/-- A finite NUMERIC that is not zero, as it is sent: its groups of four digits from
the first that is not zero, and the weight of that. -/
structure Numeric where
  first : ℕ
  rest : List ℕ
  weight : ℤ
  negative : Bool
  dscale : ℕ
  first_pos : 0 < first
  digits_lt : ∀ d ∈ first :: rest, d < NBASE
  length_lt : (first :: rest).length < 2 ^ 15
  weight_low : -2 ^ 15 ≤ weight
  weight_high : weight < 2 ^ 15

namespace Numeric

def digits (n : Numeric) : List ℕ := n.first :: n.rest

/-- The number that is meant. -/
def value (n : Numeric) : ℚ :=
  (if n.negative then -1 else 1) * (n.digits.zipIdx.map fun (d, i) => (d : ℚ) * (NBASE : ℚ) ^ (n.weight - i)).sum

/-- The binary form. -/
def encoded (n : Numeric) : List UInt8 :=
  encodeInt 2 n.digits.length ++ encodeInt 2 n.weight ++ encode 2 (if n.negative then NUMERIC_NEG else 0) ++
    encode 2 n.dscale ++ n.digits.flatMap fun d : ℕ => encodeInt 2 (d : ℤ)

end Numeric

/-! ## Groups in base 10000 -/

/-- The number of some groups. -/
def base (digits : List ℕ) : ℕ := digits.foldl (fun n d => n * NBASE + d) 0

theorem base_concat (digits : List ℕ) (d : ℕ) : base (digits ++ [d]) = base digits * NBASE + d := by
  simp [base, List.foldl_append]

theorem foldl_eq_base (digits : List ℕ) (n : ℕ) :
    digits.foldl (fun n d => n * NBASE + d) n = n * NBASE ^ digits.length + base digits := by
  induction digits using List.reverseRecOn with
  | nil => simp [base]
  | append_singleton digits d ih =>
    rw [List.foldl_append, ih, base_concat, List.length_append, List.length_singleton, pow_succ]
    simp only [List.foldl_cons, List.foldl_nil]
    ring

theorem base_pos {first : ℕ} (h : 0 < first) (rest : List ℕ) : 0 < base (first :: rest) := by
  rw [base, List.foldl_cons, foldl_eq_base, Nat.zero_mul, Nat.zero_add]
  have hpos : 0 < NBASE ^ rest.length := Nat.pow_pos (by decide)
  exact Nat.add_pos_left (Nat.mul_pos h hpos) _

theorem sum_eq_base (digits : List ℕ) (weight : ℤ) :
    (digits.zipIdx.map fun (d, i) => (d : ℚ) * (NBASE : ℚ) ^ (weight - i)).sum =
      base digits * (NBASE : ℚ) ^ (weight + 1 - digits.length) := by
  have hne : (NBASE : ℚ) ≠ 0 := by norm_num [NBASE]
  induction digits using List.reverseRecOn with
  | nil => simp [base]
  | append_singleton digits d ih =>
    rw [List.zipIdx_append, List.map_append, List.sum_append, ih, base_concat, List.length_append, List.length_singleton]
    have hexp : (NBASE : ℚ) ^ (weight + 1 - digits.length) = NBASE * (NBASE : ℚ) ^ (weight - digits.length) := by
      rw [← zpow_one_add₀ hne]
      congr 1
      ring
    have hlast : weight + 1 - ((digits.length + 1 : ℕ) : ℤ) = weight - digits.length := by
      push_cast
      ring
    rw [hexp, hlast]
    simp
    ring

theorem Numeric.value_eq (n : Numeric) :
    n.value = (if n.negative then -1 else 1) * (base n.digits * (NBASE : ℚ) ^ (n.weight + 1 - n.digits.length)) := by
  rw [Numeric.value, sum_eq_base]

/-! ## What is read -/

theorem readUInt_encode (pre post : List UInt8) {m : ℕ} (hm : m < 2 ^ 16) {offset : ℤ} (hoffset : offset = pre.length) :
    readUInt 2 (pre ++ encode 2 m ++ post) offset = some m := by
  have hin : 0 ≤ offset ∧ offset + (2 : ℕ) ≤ (pre ++ encode 2 m ++ post).length := by
    simp only [List.length_append, length_encode]
    omega
  have hcut : ((pre ++ encode 2 m ++ post).drop offset.toNat).take 2 = encode 2 m := by
    rw [hoffset, Int.toNat_natCast, List.append_assoc, List.drop_left, List.take_left' (length_encode _ _)]
  rw [readUInt, if_pos hin, hcut, value_encode, Nat.mod_eq_of_lt hm]

theorem int16 : (2 : ℤ) ^ (8 * 2 - 1) = 32768 := by norm_num

theorem mapM_eq_some {α β : Type} {f : α → Option β} {g : α → β} {l : List α} (h : ∀ a ∈ l, f a = some (g a)) :
    l.mapM f = some (l.map g) := by
  induction l with
  | nil => rfl
  | cons a l ih =>
    rw [List.mapM_cons, h a List.mem_cons_self, ih fun b hb => h b (List.mem_cons_of_mem a hb)]
    rfl

theorem length_groups (digits : List ℕ) :
    (digits.flatMap fun d : ℕ => encodeInt 2 (d : ℤ)).length = 2 * digits.length := by
  induction digits with
  | nil => rfl
  | cons d digits ih =>
    rw [List.flatMap_cons, List.length_append, length_encodeInt, ih, List.length_cons]
    ring

theorem readGroups_append {pre : List UInt8} (hpre : pre.length = 8) {digits : List ℕ} (h : ∀ d ∈ digits, d < NBASE) :
    readGroups (pre ++ digits.flatMap fun d : ℕ => encodeInt 2 (d : ℤ)) digits.length =
      some (digits.map fun d : ℕ => (d : ℤ)) := by
  have hread : ∀ i ∈ List.range digits.length,
      readInt 2 (pre ++ digits.flatMap fun d : ℕ => encodeInt 2 (d : ℤ)) (8 + (i : ℤ) * 2) =
        some ((digits.getD i 0 : ℕ) : ℤ) := by
    intro i hi
    have hi := List.mem_range.mp hi
    have hsplit : digits = digits.take i ++ digits[i] :: digits.drop (i + 1) := by simp
    have hbuf : pre ++ (digits.flatMap fun d : ℕ => encodeInt 2 (d : ℤ)) =
        (pre ++ (digits.take i).flatMap fun d : ℕ => encodeInt 2 (d : ℤ)) ++ encodeInt 2 (digits[i] : ℤ) ++
          (digits.drop (i + 1)).flatMap fun d : ℕ => encodeInt 2 (d : ℤ) := by
      have hparts : (digits.flatMap fun d : ℕ => encodeInt 2 (d : ℤ)) =
          ((digits.take i).flatMap fun d : ℕ => encodeInt 2 (d : ℤ)) ++
            (encodeInt 2 (digits[i] : ℤ) ++ (digits.drop (i + 1)).flatMap fun d : ℕ => encodeInt 2 (d : ℤ)) := by
        conv_lhs => rw [hsplit, List.flatMap_append, List.flatMap_cons]
      rw [hparts]
      simp only [List.append_assoc]
    have hd : digits[i] < NBASE := h _ (List.getElem_mem hi)
    have hbound : (digits[i] : ℤ) < 10000 := by exact_mod_cast hd
    have hget : digits.getD i 0 = digits[i] := by simp [hi]
    rw [hget, hbuf]
    refine readInt_append (by decide) (by rw [int16]; omega) (by rw [int16]; omega) _ _ ?_
    rw [List.length_append, hpre, length_groups, List.length_take, Nat.min_eq_left hi.le]
    push_cast
    ring
  rw [readGroups, Int.toNat_natCast, mapM_eq_some hread]
  congr 1
  refine List.ext_getElem (by simp) fun i hi _ => ?_
  simp only [List.length_map, List.length_range] at hi
  simp [hi]

theorem decodeNumeric_encoded (n : Numeric) : decodeNumeric n.encoded = some
    (if (n.digits.length : ℤ) > 3 then
      decodeNumericViaString (n.digits.map fun d : ℕ => (d : ℤ)) n.digits.length n.weight
        (if n.negative then NUMERIC_NEG else 0)
    else
      let intVal : ℤ := (n.digits.map fun d : ℕ => (d : ℤ)).foldl (fun intVal digit => intVal * NBASE + digit) 0
      let shift := n.digits.length - n.weight - 1
      let result : ℚ :=
        if shift > 0 then intVal / (NBASE : ℚ) ^ shift.toNat
        else if shift < 0 then intVal * (NBASE : ℚ) ^ (-shift).toNat
        else intVal
      .number (if n.negative then -result else result)) := by
  obtain ⟨sign, hsign⟩ : ∃ sign, sign = if n.negative then NUMERIC_NEG else 0 := ⟨_, rfl⟩
  have hsignlt : sign < 2 ^ 16 := by rw [hsign]; split <;> decide
  have hneg : (sign = NUMERIC_NEG) = (n.negative = true) := by
    rw [hsign]
    cases n.negative <;> simp [NUMERIC_NEG]
  have hfinite : sign ≠ NUMERIC_NAN ∧ sign ≠ NUMERIC_PINF ∧ sign ≠ NUMERIC_NINF := by
    rw [hsign]
    cases n.negative <;> decide
  have hlength : n.digits.length < 2 ^ 15 := n.length_lt
  have hne : (n.digits.length : ℤ) ≠ 0 := by
    rw [Numeric.digits, List.length_cons]
    omega
  have hlow := n.weight_low
  have hhigh := n.weight_high
  obtain ⟨groups, hgroups⟩ : ∃ groups, groups = n.digits.flatMap fun d : ℕ => encodeInt 2 (d : ℤ) := ⟨_, rfl⟩
  have hndigits : readInt 2 n.encoded 0 = some (n.digits.length : ℤ) := by
    have hbuf : n.encoded = [] ++ encodeInt 2 n.digits.length ++
        (encodeInt 2 n.weight ++ encode 2 sign ++ encode 2 n.dscale ++ groups) := by
      simp [Numeric.encoded, hsign, hgroups]
    rw [hbuf]
    exact readInt_append (by decide) (by rw [int16]; omega) (by rw [int16]; omega) _ _ rfl
  have hweight : readInt 2 n.encoded 2 = some n.weight := by
    have hbuf : n.encoded = encodeInt 2 n.digits.length ++ encodeInt 2 n.weight ++
        (encode 2 sign ++ encode 2 n.dscale ++ groups) := by
      simp [Numeric.encoded, hsign, hgroups]
    rw [hbuf]
    exact readInt_append (by decide) (by rw [int16]; omega) (by rw [int16]; omega) _ _ (by rw [length_encodeInt]; rfl)
  have hreadsign : readUInt 2 n.encoded 4 = some sign := by
    have hbuf : n.encoded = (encodeInt 2 n.digits.length ++ encodeInt 2 n.weight) ++ encode 2 sign ++
        (encode 2 n.dscale ++ groups) := by
      simp [Numeric.encoded, hsign, hgroups]
    rw [hbuf]
    exact readUInt_encode _ _ hsignlt (by rw [List.length_append, length_encodeInt, length_encodeInt]; rfl)
  have hreadgroups : readGroups n.encoded n.digits.length = some (n.digits.map fun d : ℕ => (d : ℤ)) := by
    have hbuf : n.encoded = (encodeInt 2 n.digits.length ++ encodeInt 2 n.weight ++ encode 2 sign ++ encode 2 n.dscale) ++
        n.digits.flatMap fun d : ℕ => encodeInt 2 (d : ℤ) := by
      simp [Numeric.encoded, hsign]
    rw [hbuf]
    exact readGroups_append (by simp) n.digits_lt
  unfold decodeNumeric
  simp only [hndigits, hweight, hreadsign, hreadgroups, Option.bind_eq_bind, Option.bind_some, Option.pure_def,
    if_neg hfinite.1, if_neg hfinite.2.1, if_neg hfinite.2.2, if_neg hne, hneg, ← hsign]
  split <;> rfl

/-! ## The short path -/

theorem foldl_cast (digits : List ℕ) :
    (digits.map fun d : ℕ => (d : ℤ)).foldl (fun intVal digit : ℤ => intVal * NBASE + digit) 0 = (base digits : ℤ) := by
  have hfrom : ∀ (digits : List ℕ) (n : ℕ),
      (digits.map fun d : ℕ => (d : ℤ)).foldl (fun intVal digit : ℤ => intVal * NBASE + digit) n =
        ((digits.foldl (fun n d => n * NBASE + d) n : ℕ) : ℤ) := by
    intro digits
    induction digits with
    | nil => intro n; rfl
    | cons d digits ih =>
      intro n
      rw [List.map_cons, List.foldl_cons, List.foldl_cons, ← ih]
      push_cast
      rfl
  exact hfrom digits 0

theorem shifted_eq (x : ℚ) (shift : ℤ) :
    (if shift > 0 then x / (NBASE : ℚ) ^ shift.toNat else if shift < 0 then x * (NBASE : ℚ) ^ (-shift).toNat else x) =
      x * (NBASE : ℚ) ^ (-shift) := by
  rcases lt_trichotomy shift 0 with hneg | rfl | hpos
  · obtain ⟨k, hk⟩ := Int.eq_ofNat_of_zero_le (by omega : 0 ≤ -shift)
    rw [if_neg (by omega), if_pos hneg, hk, Int.toNat_natCast, zpow_natCast]
  · simp
  · obtain ⟨k, hk⟩ := Int.eq_ofNat_of_zero_le hpos.le
    rw [if_pos hpos, hk, Int.toNat_natCast, zpow_neg, zpow_natCast, div_eq_mul_inv]

theorem decodeNumeric_short {n : Numeric} (h : n.digits.length ≤ 3) :
    decodeNumeric n.encoded = some (.number n.value) := by
  rw [decodeNumeric_encoded, if_neg (by omega)]
  dsimp only
  rw [foldl_cast, shifted_eq, n.value_eq]
  have hexp : -((n.digits.length : ℤ) - n.weight - 1) = n.weight + 1 - n.digits.length := by ring
  rw [hexp, Int.cast_natCast]
  cases n.negative <;> simp

/-! ## Decimal literals -/

theorem digitString_eq (d : ℕ) : digitString d = Nat.toDigits 10 d := by
  rw [digitString]
  exact Nat.toList_repr

theorem isDigit_of_mem {c : Char} {d : ℕ} (h : c ∈ Nat.toDigits 10 d) : c.isDigit = true :=
  Nat.isDigit_of_mem_toDigits (by decide) (by decide) h

theorem isDigit_of_mem_replicate {c : Char} {n : ℕ} (h : c ∈ List.replicate n '0') : c.isDigit = true := by
  rw [List.eq_of_mem_replicate h]
  decide

theorem padStart_spec {d : ℕ} (hd : d < NBASE) :
    (padStart (digitString d)).length = 4 ∧ (∀ c ∈ padStart (digitString d), c.isDigit = true) ∧
      ∀ n, Nat.ofDigitChars 10 (padStart (digitString d)) n = n * NBASE + d := by
  rw [digitString_eq]
  have hlen : (Nat.toDigits 10 d).length ≤ 4 := (Nat.length_toDigits_le_iff (by decide) (by decide)).mpr hd
  have hlength : (padStart (Nat.toDigits 10 d)).length = 4 := by
    rw [padStart, List.length_append, List.length_replicate]
    omega
  refine ⟨hlength, fun c hc => ?_, fun n => ?_⟩
  · rcases List.mem_append.mp hc with hc | hc
    · exact isDigit_of_mem_replicate hc
    · exact isDigit_of_mem hc
  · rw [Nat.ofDigitChars_eq_ofDigitChars_zero, hlength, padStart, Nat.ofDigitChars_append,
      Nat.ofDigitChars_replicate_zero, Nat.mul_zero, Nat.ofDigitChars_ten_toDigits, Nat.mul_comm]
    rfl

/-- The characters of some groups after the first. -/
def padded (digits : List ℕ) : List Char := digits.flatMap fun d : ℕ => padStart (digitString (d : ℤ))

theorem padded_spec {digits : List ℕ} (h : ∀ d ∈ digits, d < NBASE) :
    (padded digits).length = 4 * digits.length ∧ (∀ c ∈ padded digits, c.isDigit = true) ∧
      ∀ n, Nat.ofDigitChars 10 (padded digits) n = digits.foldl (fun n d => n * NBASE + d) n := by
  induction digits with
  | nil => exact ⟨rfl, fun _ hc => absurd hc List.not_mem_nil, fun _ => rfl⟩
  | cons d digits ih =>
    obtain ⟨hlength, hdigit, hvalue⟩ := padStart_spec (h d List.mem_cons_self)
    obtain ⟨hlength', hdigit', hvalue'⟩ := ih fun d hd => h d (List.mem_cons_of_mem _ hd)
    have hcons : padded (d :: digits) = padStart (digitString (d : ℤ)) ++ padded digits := List.flatMap_cons
    rw [hcons]
    refine ⟨by rw [List.length_append, hlength, hlength', List.length_cons]; ring, fun c hc => ?_, fun n => ?_⟩
    · rcases List.mem_append.mp hc with hc | hc
      · exact hdigit c hc
      · exact hdigit' c hc
    · rw [Nat.ofDigitChars_append, hvalue, hvalue', List.foldl_cons]

theorem unsignedDecimal_int {int : List Char} (h : ∀ c ∈ int, c.isDigit = true) :
    unsignedDecimal int = some (Nat.ofDigitChars 10 int 0 : ℚ) := by
  have htake : int.takeWhile Char.isDigit = int := by
    have happend : (int ++ []).takeWhile Char.isDigit = int ++ [].takeWhile Char.isDigit :=
      List.takeWhile_append_of_pos h
    rwa [List.append_nil, List.takeWhile_nil, List.append_nil] at happend
  have hdrop : int.dropWhile Char.isDigit = [] := by
    have happend : (int ++ []).dropWhile Char.isDigit = [].dropWhile Char.isDigit := List.dropWhile_append_of_pos h
    rwa [List.append_nil, List.dropWhile_nil] at happend
  unfold unsignedDecimal
  rw [htake, hdrop]

theorem unsignedDecimal_point {int frac : List Char} (h : ∀ c ∈ int, c.isDigit = true)
    (h' : ∀ c ∈ frac, c.isDigit = true) (hne : int ≠ []) :
    unsignedDecimal (int ++ '.' :: frac) = some ((Nat.ofDigitChars 10 (int ++ frac) 0 : ℚ) / 10 ^ frac.length) := by
  have htake : (int ++ '.' :: frac).takeWhile Char.isDigit = int := by
    rw [List.takeWhile_append_of_pos h, List.takeWhile_cons_of_neg (by decide), List.append_nil]
  have hdrop : (int ++ '.' :: frac).dropWhile Char.isDigit = '.' :: frac := by
    rw [List.dropWhile_append_of_pos h, List.dropWhile_cons_of_neg (by decide)]
  have hvalid : frac.all Char.isDigit ∧ int ++ frac ≠ [] :=
    ⟨List.all_eq_true.mpr h', fun hnil => hne (List.append_eq_nil_iff.mp hnil).1⟩
  unfold unsignedDecimal
  rw [htake, hdrop]
  exact if_pos hvalid

theorem Number_of_unsigned {str : List Char} {x : ℚ} (h : unsignedDecimal str = some x) {c : Char}
    (hc : str.head? = some c) (hdigit : c.isDigit = true) (negative : Bool) :
    Number ((if negative then ['-'] else []) ++ str) = .number (if negative then -x else x) := by
  cases negative with
  | true =>
    change (unsignedDecimal str).elim Decoded.nan (fun x => .number (-x)) = _
    rw [h]
    rfl
  | false =>
    match str, hc with
    | c' :: str, hc =>
      obtain rfl : c' = c := Option.some.inj hc
      have hne : c' ≠ '-' := fun he => by rw [he] at hdigit; revert hdigit; decide
      change Number (c' :: str) = .number x
      unfold Number
      split
      · next heq => exact absurd (List.cons.inj heq).1 hne
      · rw [h]
        rfl

/-! ## The string path -/

theorem foldl_appendGroup {intGroups : ℤ} (digits : List ℕ) {k : ℕ} (hk : 0 < k)
    (h : ∀ i, k ≤ i → i < k + digits.length → (i : ℤ) ≠ intGroups) (str : List Char) :
    ((digits.map fun d : ℕ => (d : ℤ)).zipIdx k).foldl (appendGroup intGroups) str = str ++ padded digits := by
  induction digits generalizing k str with
  | nil => simp [padded]
  | cons d digits ih =>
    have hne : (k : ℤ) ≠ intGroups := h k (le_refl k) (by rw [List.length_cons]; omega)
    have hstep : appendGroup intGroups str ((d : ℤ), k) = str ++ padStart (digitString (d : ℤ)) := by
      unfold appendGroup
      simp only [if_neg hne, if_neg hk.ne']
    rw [List.map_cons, List.zipIdx_cons, List.foldl_cons, hstep,
      ih (Nat.succ_pos k) fun i hi hlt => h i (by omega) (by rw [List.length_cons]; omega), List.append_assoc]
    rfl

theorem foldl_appendGroup_point {intGroups : ℤ} (digits digits' : List ℕ) {k : ℕ} (hk : 0 < k)
    (hpoint : intGroups = k + digits.length) (hrest : digits' ≠ []) {str : List Char} (hstr : str ≠ []) :
    (((digits ++ digits').map fun d : ℕ => (d : ℤ)).zipIdx k).foldl (appendGroup intGroups) str =
      str ++ padded digits ++ '.' :: padded digits' := by
  rw [List.map_append, List.zipIdx_append, List.foldl_append,
    foldl_appendGroup digits hk (fun i _ hlt => by omega), List.length_map]
  match digits', hrest with
  | d :: digits', _ =>
    have hat : ((k + digits.length : ℕ) : ℤ) = intGroups := by
      rw [hpoint]
      push_cast
      ring
    have hne : str ++ padded digits ≠ [] := fun h => hstr (List.append_eq_nil_iff.mp h).1
    have hstep : appendGroup intGroups (str ++ padded digits) ((d : ℤ), k + digits.length) =
        str ++ padded digits ++ '.' :: padStart (digitString (d : ℤ)) := by
      unfold appendGroup
      simp only [if_pos hat, if_neg hne, if_neg (show k + digits.length ≠ 0 by omega), List.append_assoc,
        List.singleton_append]
    rw [List.map_cons, List.zipIdx_cons, List.foldl_cons, hstep,
      foldl_appendGroup digits' (by omega) (fun i hi _ => by omega), List.append_assoc, List.cons_append]
    rfl

theorem first_spec {first : ℕ} (h : 0 < first) (hlt : first < NBASE) :
    ∃ c cs, digitString (first : ℤ) = c :: cs ∧ c.isDigit = true ∧ (∀ c ∈ digitString (first : ℤ), c.isDigit = true) ∧
      Nat.ofDigitChars 10 (digitString (first : ℤ)) 0 = first ∧
      (digitString (first : ℤ)).length ≤ 4 ∧ ((digitString (first : ℤ)).length = 4 ↔ 1000 ≤ first) := by
  rw [digitString_eq]
  have hdigit : ∀ c ∈ Nat.toDigits 10 first, c.isDigit = true := fun c hc => isDigit_of_mem hc
  have hfour := Nat.length_toDigits_le_iff (b := 10) (n := first) (k := 4) (by decide) (by decide)
  have hthree := Nat.length_toDigits_le_iff (b := 10) (n := first) (k := 3) (by decide) (by decide)
  have hNBASE : NBASE = 10000 := rfl
  have hle : (Nat.toDigits 10 first).length ≤ 4 := hfour.mpr (by omega)
  match hcs : Nat.toDigits 10 first with
  | [] => exact absurd hcs (List.ne_nil_of_length_pos Nat.length_toDigits_pos)
  | c :: cs =>
    rw [hcs] at hdigit hthree hle
    refine ⟨c, cs, rfl, hdigit c List.mem_cons_self, hdigit, ?_, hle, ?_⟩
    · rw [← hcs, Nat.ofDigitChars_ten_toDigits]
    · constructor
      · intro hlen
        by_contra hlow
        have := hthree.mpr (by omega)
        omega
      · intro hge
        by_contra hlen
        have := hthree.mp (by omega)
        omega

theorem decodeNumericViaString_eq (n : Numeric) (hlong : 3 < n.digits.length) :
    ∃ x : ℚ, decodeNumericViaString (n.digits.map fun d : ℕ => (d : ℤ)) n.digits.length n.weight
        (if n.negative then NUMERIC_NEG else 0) = .number (if n.negative then -x else x) ∧
      (0 ≤ n.weight → x = base n.digits * (NBASE : ℚ) ^ (n.weight + 1 - n.digits.length)) ∧
      (n.weight = -1 → x = base n.digits / 10 ^ ((digitString (n.first : ℤ)).length + 4 * n.rest.length)) ∧
      (n.weight < -1 → x = base n.digits) := by
  obtain ⟨c, cs, hfirst, hc, hdigits, hvalue, -, -⟩ := first_spec n.first_pos (n.digits_lt _ List.mem_cons_self)
  have hrest : ∀ d ∈ n.rest, d < NBASE := fun d hd => n.digits_lt d (List.mem_cons_of_mem _ hd)
  obtain ⟨hlength, hpadded, hfold⟩ := padded_spec hrest
  have hsign : ((if n.negative then NUMERIC_NEG else 0) = NUMERIC_NEG) = (n.negative = true) := by
    cases n.negative <;> simp [NUMERIC_NEG]
  have hbase : Nat.ofDigitChars 10 (digitString (n.first : ℤ) ++ padded n.rest) 0 = base n.digits := by
    rw [Nat.ofDigitChars_append, hvalue, hfold, Numeric.digits, base, List.foldl_cons, Nat.zero_mul, Nat.zero_add]
  -- the first group, and the point before it
  have hloop : (n.digits.map fun d : ℕ => (d : ℤ)).zipIdx.foldl (appendGroup (n.weight + 1)) [] =
      ((n.rest.map fun d : ℕ => (d : ℤ)).zipIdx 1).foldl (appendGroup (n.weight + 1))
        ((if n.weight = -1 then ['0', '.'] else []) ++ digitString (n.first : ℤ)) := by
    rw [Numeric.digits, List.map_cons, List.zipIdx_cons, List.foldl_cons]
    congr 1
    unfold appendGroup
    by_cases hw : n.weight = -1
    · simp [hw]
    · rw [if_neg hw, if_neg (by push_cast; omega), if_pos rfl]
  have hlen : n.digits.length = n.rest.length + 1 := rfl
  have hhead : ∀ str, (digitString (n.first : ℤ) ++ str).head? = some c := fun str => by rw [hfirst]; rfl
  have hall : ∀ str : List Char, (∀ c ∈ str, c.isDigit = true) →
      ∀ c ∈ digitString (n.first : ℤ) ++ str, c.isDigit = true :=
    fun str hstr c hc => (List.mem_append.mp hc).elim (hdigits c) (hstr c)
  have hpow : ∀ m : ℕ, (10 : ℚ) ^ (4 * m) = (NBASE : ℚ) ^ m := fun m => by rw [pow_mul]; norm_num [NBASE]
  unfold decodeNumericViaString
  simp only [hloop, hsign]
  rcases lt_trichotomy n.weight (-1) with hw | hw | hw
  · -- no point at all
    have hnot : ¬ n.weight = -1 := by omega
    have hnozeros : ¬ n.weight + 1 > n.digits.length := by omega
    rw [if_neg hnot, List.nil_append, foldl_appendGroup _ Nat.one_pos (fun i hi _ => by omega), if_neg hnozeros,
      Number_of_unsigned (unsignedDecimal_int (hall _ hpadded)) (hhead _) hc, hbase]
    exact ⟨_, rfl, fun h => by omega, fun h => by omega, fun _ => rfl⟩
  · -- the point before the first group
    have hnozeros : ¬ n.weight + 1 > n.digits.length := by omega
    rw [if_pos hw, foldl_appendGroup _ Nat.one_pos (fun i hi _ => by omega), if_neg hnozeros]
    have hstr : ['0', '.'] ++ digitString (n.first : ℤ) ++ padded n.rest =
        ['0'] ++ '.' :: (digitString (n.first : ℤ) ++ padded n.rest) := by simp
    have hzero : Nat.ofDigitChars 10 (['0'] ++ (digitString (n.first : ℤ) ++ padded n.rest)) 0 = base n.digits := by
      rw [← hbase, Nat.ofDigitChars_append]
      rfl
    have hliteral := unsignedDecimal_point (by simp : ∀ c ∈ ['0'], c.isDigit = true) (hall _ hpadded) (by decide)
    rw [hstr, Number_of_unsigned hliteral rfl (by decide), hzero, List.length_append, hlength]
    exact ⟨_, rfl, fun h => by omega, fun _ => rfl, fun h => by omega⟩
  · have hnot : ¬ n.weight = -1 := by omega
    rw [if_neg hnot, List.nil_append]
    by_cases hshort : (n.digits.length : ℤ) ≤ n.weight + 1
    · -- the point after the last group, and zeros before it
      obtain ⟨m, hm⟩ := Int.eq_ofNat_of_zero_le (by omega : 0 ≤ n.weight + 1 - n.digits.length)
      have hzeros : (if n.weight + 1 > n.digits.length then
            digitString (n.first : ℤ) ++ padded n.rest ++ List.replicate ((n.weight + 1 - n.digits.length) * 4).toNat '0'
          else digitString (n.first : ℤ) ++ padded n.rest) =
          digitString (n.first : ℤ) ++ (padded n.rest ++ List.replicate (4 * m) '0') := by
        have htoNat : ((n.weight + 1 - n.digits.length) * 4).toNat = 4 * m := by omega
        split
        · rw [htoNat, List.append_assoc]
        · have hnone : 4 * m = 0 := by omega
          rw [hnone, List.replicate_zero, List.append_nil]
      have hdigits' : ∀ c ∈ padded n.rest ++ List.replicate (4 * m) '0', c.isDigit = true := fun c hc =>
        (List.mem_append.mp hc).elim (hpadded c) isDigit_of_mem_replicate
      rw [foldl_appendGroup _ Nat.one_pos (fun i hi hlt => by omega), hzeros,
        Number_of_unsigned (unsignedDecimal_int (hall _ hdigits')) (hhead _) hc, ← List.append_assoc,
        Nat.ofDigitChars_append, hbase, Nat.ofDigitChars_replicate_zero]
      refine ⟨_, rfl, fun _ => ?_, fun h => by omega, fun h => by omega⟩
      rw [hm, zpow_natCast, ← hpow]
      push_cast
      ring
    · -- the point between two groups
      obtain ⟨g, hg⟩ := Int.eq_ofNat_of_zero_le (by omega : 0 ≤ n.weight)
      have hsplit : n.rest = n.rest.take g ++ n.rest.drop g := (List.take_append_drop g n.rest).symm
      have hdrop : n.rest.drop g ≠ [] := by
        intro hnil
        have := List.drop_eq_nil_iff.mp hnil
        omega
      have htaken : (n.rest.take g).length = g := List.length_take_of_le (by omega)
      have hparts : padded n.rest = padded (n.rest.take g) ++ padded (n.rest.drop g) := by
        conv_lhs => rw [hsplit]
        exact List.flatMap_append
      have hint : ∀ c ∈ padded (n.rest.take g), c.isDigit = true := fun c hc =>
        hpadded c (by rw [hparts]; exact List.mem_append_left _ hc)
      have hfrac : ∀ c ∈ padded (n.rest.drop g), c.isDigit = true := fun c hc =>
        hpadded c (by rw [hparts]; exact List.mem_append_right _ hc)
      have hfraclen : (padded (n.rest.drop g)).length = 4 * (n.rest.length - g) := by
        rw [(padded_spec fun d hd => hrest d (List.mem_of_mem_drop hd)).1, List.length_drop]
      have hne : digitString (n.first : ℤ) ≠ [] := by
        rw [hfirst]
        exact List.cons_ne_nil _ _
      have hloop' := foldl_appendGroup_point (n.rest.take g) (n.rest.drop g) Nat.one_pos
        (by rw [htaken, hg]; push_cast; ring : n.weight + 1 = (1 : ℕ) + (n.rest.take g).length) hdrop hne
      rw [← hsplit] at hloop'
      have hnozeros : ¬ n.weight + 1 > n.digits.length := by omega
      rw [hloop', if_neg hnozeros, Number_of_unsigned (unsignedDecimal_point (hall _ hint) hfrac
          (fun hnil => hne (List.append_eq_nil_iff.mp hnil).1)) (by rw [List.append_assoc]; exact hhead _) hc,
        List.append_assoc, ← hparts, hbase, hfraclen]
      refine ⟨_, rfl, fun _ => ?_, fun h => by omega, fun h => by omega⟩
      have hexp : n.weight + 1 - n.digits.length = -((n.rest.length - g : ℕ) : ℤ) := by omega
      rw [hexp, zpow_neg, zpow_natCast, hpow, div_eq_mul_inv]

/-! ## Which are exact -/

/-- **The number is exact just if the groups are at most three, or the point does not
come before them, or comes right before a first group of four digits.** -/
theorem decodeNumeric_eq_iff (n : Numeric) : decodeNumeric n.encoded = some (.number n.value) ↔
    n.digits.length ≤ 3 ∨ 0 ≤ n.weight ∨ (n.weight = -1 ∧ 1000 ≤ n.first) := by
  by_cases hshort : n.digits.length ≤ 3
  · exact ⟨fun _ => .inl hshort, fun _ => decodeNumeric_short hshort⟩
  obtain ⟨x, hx, hpos, hone, hlow⟩ := decodeNumericViaString_eq n (by omega)
  obtain ⟨-, -, -, -, -, -, hle, hfour⟩ := first_spec n.first_pos (n.digits_lt _ List.mem_cons_self)
  have hbase : (0 : ℚ) < base n.digits := by exact_mod_cast base_pos n.first_pos n.rest
  have hlen : n.digits.length = n.rest.length + 1 := rfl
  have hvalue : decodeNumeric n.encoded = some (.number n.value) ↔
      x = base n.digits * (NBASE : ℚ) ^ (n.weight + 1 - n.digits.length) := by
    rw [decodeNumeric_encoded, if_pos (by omega), hx, n.value_eq, Option.some.injEq, Decoded.number.injEq]
    cases n.negative <;> simp
  rw [hvalue]
  rcases lt_trichotomy n.weight (-1) with hw | hw | hw
  · refine ⟨fun h => ?_, fun h => by omega⟩
    rw [hlow hw] at h
    have hone : (1 : ℚ) = (NBASE : ℚ) ^ (n.weight + 1 - n.digits.length) :=
      mul_left_cancel₀ hbase.ne' (by rw [mul_one]; exact h)
    have hlt : (NBASE : ℚ) ^ (n.weight + 1 - n.digits.length) < 1 := zpow_lt_one_of_neg₀ (by norm_num [NBASE]) (by omega)
    exact absurd hone.symm hlt.ne
  · have hexp : n.weight + 1 - n.digits.length = -((n.rest.length + 1 : ℕ) : ℤ) := by omega
    have hpow : (NBASE : ℚ) ^ (n.rest.length + 1) = 10 ^ (4 * (n.rest.length + 1)) := by
      rw [pow_mul]
      norm_num [NBASE]
    rw [hone hw, hexp, zpow_neg, zpow_natCast, hpow, ← div_eq_mul_inv]
    have hiff : (base n.digits : ℚ) / 10 ^ ((digitString (n.first : ℤ)).length + 4 * n.rest.length) =
        base n.digits / 10 ^ (4 * (n.rest.length + 1)) ↔ (digitString (n.first : ℤ)).length = 4 := by
      rw [div_eq_mul_inv, div_eq_mul_inv, mul_right_inj' hbase.ne', inv_inj, pow_right_inj₀ (by norm_num) (by norm_num)]
      omega
    rw [hiff, hfour]
    omega
  · refine ⟨fun _ => .inr (.inl (by omega)), fun _ => hpos (by omega)⟩

/-- 0.0012345678901234 is read as 0.12345678901234. -/
theorem decodeNumeric_misplaces_point :
    let n : Numeric := ⟨12, [3456, 7890, 1234], -1, false, 16, by decide, by decide, by decide, by decide, by decide⟩
    decodeNumeric n.encoded = some (.number (12345678901234 / 10 ^ 14)) ∧ n.value = 12345678901234 / 10 ^ 16 := by
  decide +kernel

end ZeroSync.PgNumeric
