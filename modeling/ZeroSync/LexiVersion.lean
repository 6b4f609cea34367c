/-
`types/lexi-version.ts` and `types/state-version.ts`: the string encodings
of version numbers, and that a smaller number's code diverges below a larger
one's (`versionToLexi_diverges`), so whatever a code is embedded in sorts by
the number.

A JS `number` is the rational it stands for; a `bigint` is an `Int`. The
assertion texts are kept as the constructors of `LexiVersionError`.
-/
import Mathlib.Data.Rat.Floor
import Mathlib.Algebra.Order.Ring.Rat
import ZeroSync.Divergence

namespace ZeroSync

open Divergence

/-- `Number.MAX_SAFE_INTEGER`. -/
def maxSafeInteger : ℕ := 2 ^ 53 - 1

/-- `number | bigint`. -/
inductive NumberOrBigint
  | number (v : ℚ)
  | bigint (v : ℤ)
  deriving DecidableEq

/-- The number compared with `>=` and `<=`. -/
def NumberOrBigint.value : NumberOrBigint → ℚ
  | .number v => v
  | .bigint v => v

/-- The assertions of `versionToLexi`. -/
inductive LexiVersionError
  /-- `Negative versions are not supported` -/
  | negative
  /-- `Invalid or unsafe version ${v}` -/
  | unsafeNumber (v : ℚ)
  /-- `Value is too large to be encoded as a LexiVersion: ${v}` -/
  | tooLarge (v : ℕ)
  deriving DecidableEq

/-- A base-36 digit: `0`-`9`, then `a`-`z`. -/
def digit36 (d : ℕ) : Char :=
  Char.ofNat (if d < 10 then 48 + d else 87 + d)

/-- The base-36 digits of `n`, most significant first; `0` has one digit. -/
def digits36 (n : ℕ) : List ℕ :=
  if n = 0 then [0] else (Nat.digits 36 n).reverse

/-- `BigInt(n).toString(36)`. -/
def toString36 (n : ℕ) : List Char :=
  (digits36 n).map digit36

/-- `versionToLexi` once its argument is known to be a natural. -/
def encodeLexi (n : ℕ) : Except LexiVersionError String :=
  let base36Version := toString36 n
  let length := toString36 (base36Version.length - 1)
  if length.length = 1 then .ok (String.ofList (length ++ base36Version))
  else .error (.tooLarge n)

/-- `versionToLexi`. -/
def versionToLexi (v : NumberOrBigint) : Except LexiVersionError String :=
  if v.value < 0 then .error .negative
  else
    match v with
    | .bigint v => encodeLexi v.toNat
    | .number v =>
      if v ≤ maxSafeInteger ∧ v.isInt then encodeLexi v.num.toNat
      else .error (.unsafeNumber v)

/-- `StateVersionInput`. -/
structure StateVersionInput where
  major : NumberOrBigint
  minor : Option NumberOrBigint := none
  deriving DecidableEq

/-- `stateVersionToString`. -/
def stateVersionToString (ver : StateVersionInput) : Except LexiVersionError String :=
  match ver.minor with
  | none => versionToLexi ver.major
  | some minor => do
    let major ← versionToLexi ver.major
    let minor ← versionToLexi minor
    return major ++ "." ++ minor

/-! ## Digits -/

theorem digit36_lt {a b : ℕ} (hb : b < 36) (hab : a < b) : digit36 a < digit36 b := by
  have key : ∀ b < 36, ∀ a < b, digit36 a < digit36 b := by decide
  exact key b hb a hab

theorem digits36_lt (n : ℕ) : ∀ d ∈ digits36 n, d < 36 := by
  intro d hd
  unfold digits36 at hd
  split at hd
  · simp only [List.mem_singleton] at hd; omega
  · exact Nat.digits_lt_base (by omega) (List.mem_reverse.mp hd)

theorem ofDigits_digits36 (n : ℕ) : Nat.ofDigits 36 (digits36 n).reverse = n := by
  unfold digits36
  split
  · simp_all
  · rw [List.reverse_reverse, Nat.ofDigits_digits]

theorem digits36_length_pos (n : ℕ) : 0 < (digits36 n).length := by
  unfold digits36
  split
  · simp
  · next hn => simpa [List.length_pos_iff, Nat.digits_eq_nil_iff_eq_zero] using hn

theorem digits36_length_mono {m n : ℕ} (h : m ≤ n) : (digits36 m).length ≤ (digits36 n).length := by
  by_cases hm : m = 0
  · simpa [hm, digits36] using Nat.succ_le_of_lt (digits36_length_pos n)
  · have hn : n ≠ 0 := by omega
    simpa [digits36, hm, hn] using Nat.le_length_digits_le 36 m n h

theorem toString36_small {n : ℕ} (h : n < 36) : toString36 n = [digit36 n] := by
  have key : ∀ n < 36, toString36 n = [digit36 n] := by decide
  exact key n h

theorem toString36_length (n : ℕ) : (toString36 n).length = (digits36 n).length := by
  simp [toString36]

theorem toString36_length_eq_one {n : ℕ} : (toString36 n).length = 1 ↔ n < 36 := by
  refine ⟨fun h => ?_, fun h => by simp [toString36_small h]⟩
  have hval := ofDigits_digits36 n
  rw [toString36_length, List.length_eq_one_iff] at h
  obtain ⟨d, hd⟩ := h
  have := digits36_lt n d (by simp [hd])
  rw [hd] at hval
  simp at hval
  omega

/-! ## Codes -/

/-- The characters of a LexiVersion: the length less one, then the digits. -/
def lexiChars (n : ℕ) : List Char :=
  (((digits36 n).length - 1) :: digits36 n).map digit36

/-- The naturals a LexiVersion can encode: at most 36 digits. -/
def Encodable (n : ℕ) : Prop :=
  (digits36 n).length ≤ 36

instance (n : ℕ) : Decidable (Encodable n) :=
  inferInstanceAs (Decidable (_ ≤ _))

theorem encodeLexi_eq {n : ℕ} : encodeLexi n =
    if Encodable n then .ok (String.ofList (lexiChars n)) else .error (.tooLarge n) := by
  have hpos := digits36_length_pos n
  have hiff : (toString36 ((toString36 n).length - 1)).length = 1 ↔ Encodable n := by
    rw [toString36_length_eq_one, toString36_length, Encodable]
    omega
  by_cases hn : Encodable n
  · have hsmall : (digits36 n).length - 1 < 36 := by unfold Encodable at hn; omega
    simp only [encodeLexi, hiff, hn, if_true]
    rw [toString36_length, toString36_small hsmall]
    rfl
  · simp [encodeLexi, hiff, hn]

theorem versionToLexi_ok {v : NumberOrBigint} {s : String} (h : versionToLexi v = .ok s) :
    ∃ n : ℕ, v.value = n ∧ Encodable n ∧ s = String.ofList (lexiChars n) := by
  have encode {n : ℕ} (h : encodeLexi n = .ok s) : Encodable n ∧ s = String.ofList (lexiChars n) := by
    rw [encodeLexi_eq] at h
    split at h
    · next hn => exact ⟨hn, (Except.ok.inj h).symm⟩
    · cases h
  unfold versionToLexi at h
  split at h
  · cases h
  next hneg =>
  simp only [not_lt] at hneg
  cases v with
  | bigint v =>
    have hv : 0 ≤ v := by simpa [NumberOrBigint.value] using hneg
    refine ⟨v.toNat, ?_, encode h⟩
    simp only [NumberOrBigint.value]
    exact_mod_cast (Int.toNat_of_nonneg hv).symm
  | number v =>
    simp only at h
    split at h
    · next hsafe =>
      refine ⟨v.num.toNat, ?_, encode h⟩
      have hint : v = v.num := by
        have hden : v.den = 1 := by simpa [Rat.isInt] using hsafe.2
        exact ((Rat.den_eq_one_iff v).mp hden).symm
      have hv : 0 ≤ v.num := Rat.num_nonneg.mpr hneg
      simp only [NumberOrBigint.value]
      conv_lhs => rw [hint]
      exact_mod_cast (Int.toNat_of_nonneg hv).symm
    · cases h

theorem encodable_safe {n : ℕ} (h : n ≤ maxSafeInteger) : Encodable n :=
  (digits36_length_mono (h.trans (by decide : maxSafeInteger ≤ 36 ^ 11))).trans (by decide)

theorem versionToLexi_safe {n : ℕ} (h : n ≤ maxSafeInteger) :
    versionToLexi (.number n) = .ok (String.ofList (lexiChars n)) := by
  have hneg : ¬ (n : ℚ) < 0 := by simp
  have hsafe : (n : ℚ) ≤ (maxSafeInteger : ℚ) := by exact_mod_cast h
  simp [versionToLexi, NumberOrBigint.value, hneg, hsafe, Rat.isInt, encodeLexi_eq, encodable_safe h]

/-- **The code of a smaller number diverges below that of a larger one.** -/
theorem lexiChars_diverges {m n : ℕ} (hn : Encodable n) (h : m < n) :
    Diverges (lexiChars m) (lexiChars n) := by
  unfold Encodable at hn
  have hpos := digits36_length_pos m
  have hpos' := digits36_length_pos n
  have hle := digits36_length_mono h.le
  refine Diverges.map (x := _ :: _) (y := _ :: _) ?_ ?_
  · rcases Nat.lt_or_eq_of_le hle with hlt | heq
    · exact .head (by omega)
    · rw [heq]
      refine .cons (Diverges.of_ofDigits_lt (b := 36) (by omega) heq (digits36_lt m) (digits36_lt n) ?_)
      rw [ofDigits_digits36, ofDigits_digits36]
      exact h
  · intro a _ b hb hab
    refine digit36_lt ?_ hab
    rcases List.mem_cons.mp hb with rfl | hb
    · omega
    · exact digits36_lt n b hb

example : versionToLexi (.number 46655) = .ok "2zzz" := by decide

end ZeroSync
