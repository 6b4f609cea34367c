/-
`types/lexi-version.ts` and `types/state-version.ts`: reading version strings
back, and their order as JS compares strings, by code units.

Every state version of naturals below 36^36 has a string, is read back from it,
and sorts as its numbers do (`stateVersionToString_order`).
-/
import ZeroSync.CVRVersion

namespace ZeroSync

open Divergence

/-- `StateVersion`. -/
structure StateVersion where
  major : ℤ
  minor : Option ℤ := none
  deriving DecidableEq

/-- The exceptions of `versionFromLexi` and `stateVersionFromString`. -/
inductive VersionParseError
  /-- `LexiVersion must have at least 2 characters, got ${lexiVersion.length}` -/
  | tooShort (length : ℕ)
  /-- `Invalid LexiVersion: ${lexiVersion}` -/
  | invalidLexiVersion (lexiVersion : String)
  /-- The `RangeError` of `BigInt(NaN)`. -/
  | notADigit
  /-- `Invalid stateVersion ${ver}` -/
  | invalidStateVersion (ver : String)
  deriving DecidableEq

/-- `parseInt(c, 36)` of one character; `none` is `NaN`. -/
def parseDigit36 (c : Char) : Option ℕ :=
  if '0' ≤ c ∧ c ≤ '9' then some (c.toNat - 48)
  else if 'a' ≤ c ∧ c ≤ 'z' then some (c.toNat - 87)
  else if 'A' ≤ c ∧ c ≤ 'Z' then some (c.toNat - 55)
  else none

/-- The loop of `parseBigInt`, at radix 36. -/
def parseBigIntLoop (result : ℤ) : List Char → Except VersionParseError ℤ
  | [] => .ok result
  | c :: val =>
    match parseDigit36 c with
    | some digit => parseBigIntLoop (result * 36 + digit) val
    | none => .error .notADigit

/-- `parseBigInt(val, 36)`. -/
def parseBigInt36 (val : List Char) : Except VersionParseError ℤ := parseBigIntLoop 0 val

/-- `versionFromLexi`. -/
def versionFromLexi (lexiVersion : String) : Except VersionParseError ℤ :=
  match lexiVersion.toList with
  | [] | [_] => .error (.tooShort lexiVersion.length)
  | length :: base36Version =>
    if (parseDigit36 length).map (· + 1) = some base36Version.length then parseBigInt36 base36Version
    else .error (.invalidLexiVersion lexiVersion)

/-- `stateVersionFromString`. -/
def stateVersionFromString (ver : String) : Except VersionParseError StateVersion :=
  if '.' ∉ ver.toList then do
    return { major := ← versionFromLexi ver }
  else
    match ver.toList.splitOn '.' with
    | [major, minor] => do
      let major ← versionFromLexi (String.ofList major)
      let minor ← versionFromLexi (String.ofList minor)
      return { major, minor := some minor }
    | _ => .error (.invalidStateVersion ver)

/-- A `StateVersion` given to `stateVersionToString`. -/
def StateVersion.input (v : StateVersion) : StateVersionInput :=
  { major := .bigint v.major, minor := v.minor.map .bigint }

/-! ## Code units -/

/-- The UTF-16 code units of a character. -/
def charCodeUnits (c : Char) : List ℕ :=
  if c.toNat < 0x10000 then [c.toNat]
  else [0xD800 + (c.toNat - 0x10000) / 0x400, 0xDC00 + (c.toNat - 0x10000) % 0x400]

/-- The code units of a string: JS compares these. -/
def codeUnits (s : String) : List ℕ := s.toList.flatMap charCodeUnits

/-- `a < b` for strings, by their code units. -/
def stringLt (a b : String) : Bool := codeUnits a < codeUnits b

theorem stringLt_self (a : String) : stringLt a a = false := by simp [stringLt]

theorem codeUnits_eq_map {s : String} (h : ∀ c ∈ s.toList, c.toNat < 0x10000) :
    codeUnits s = s.toList.map Char.toNat := by
  rw [codeUnits, ← List.flatMap_singleton' (s.toList.map Char.toNat), List.flatMap_map]
  refine List.flatMap_congr fun c hc => ?_
  rw [charCodeUnits, if_pos (h c hc)]

theorem codeUnits_lt {s t : String} (hs : ∀ c ∈ s.toList, c.toNat < 0x10000) (ht : ∀ c ∈ t.toList, c.toNat < 0x10000)
    (h : s.toList < t.toList) : codeUnits s < codeUnits t := by
  rw [codeUnits_eq_map hs, codeUnits_eq_map ht]
  exact List.map_lt (fun _ _ hlt => hlt) h

theorem charCodeUnits_append_inj {c d : Char} {l m : List ℕ} (h : charCodeUnits c ++ l = charCodeUnits d ++ m) :
    c = d ∧ l = m := by
  -- a character is no surrogate
  have hvalid (c : Char) : c.toNat < 0xD800 ∨ 0xDFFF < c.toNat ∧ c.toNat < 0x110000 := c.valid
  have hc := hvalid c
  have hd := hvalid d
  unfold charCodeUnits at h
  split at h <;> split at h <;> simp only [List.cons_append, List.nil_append, List.cons.injEq] at h
  · exact ⟨Char.toNat_inj.mp h.1, h.2⟩
  · omega
  · omega
  · exact ⟨Char.toNat_inj.mp (by omega), h.2.2⟩

theorem codeUnits_injective {s t : String} (h : codeUnits s = codeUnits t) : s = t := by
  have hne (c : Char) : charCodeUnits c ≠ [] := by unfold charCodeUnits; split <;> simp
  have key : ∀ l m : List Char, l.flatMap charCodeUnits = m.flatMap charCodeUnits → l = m := by
    intro l
    induction l with
    | nil =>
      intro m h
      cases m with
      | nil => rfl
      | cons d m => simp [hne] at h
    | cons c l ih =>
      intro m h
      cases m with
      | nil => simp [hne] at h
      | cons d m =>
        rw [List.flatMap_cons, List.flatMap_cons] at h
        obtain ⟨rfl, hrest⟩ := charCodeUnits_append_inj h
        rw [ih m hrest]
  exact String.toList_inj.mp (key _ _ h)

/-! ## Reading a code back -/

theorem parseDigit36_digit36 {d : ℕ} (h : d < 36) : parseDigit36 (digit36 d) = some d := by
  have key : ∀ d < 36, parseDigit36 (digit36 d) = some d := by decide
  exact key d h

theorem parseBigIntLoop_digits (result : ℕ) {ds : List ℕ} (h : ∀ d ∈ ds, d < 36) :
    parseBigIntLoop result (ds.map digit36) = .ok ((result * 36 ^ ds.length + Nat.ofDigits 36 ds.reverse : ℕ) : ℤ) := by
  induction ds generalizing result with
  | nil => simp [parseBigIntLoop]
  | cons d ds ih =>
    have ih := ih (result * 36 + d) fun d hd => h d (List.mem_cons_of_mem _ hd)
    have hvalue : (result * 36 + d) * 36 ^ ds.length + Nat.ofDigits 36 ds.reverse =
        result * 36 ^ (d :: ds).length + Nat.ofDigits 36 (d :: ds).reverse := by
      rw [ofDigits_reverse_cons, List.length_cons]
      ring
    rw [List.map_cons, parseBigIntLoop, parseDigit36_digit36 (h d List.mem_cons_self), ← hvalue, ← ih]
    push_cast
    rfl

theorem versionFromLexi_lexiChars {n : ℕ} (h : Encodable n) :
    versionFromLexi (String.ofList (lexiChars n)) = .ok n := by
  have hpos := digits36_length_pos n
  have hlen : (digits36 n).length - 1 < 36 := by unfold Encodable at h; omega
  have hdigits : lexiChars n = digit36 ((digits36 n).length - 1) :: (digits36 n).map digit36 := rfl
  have hparse := parseBigIntLoop_digits 0 (digits36_lt n)
  rw [ofDigits_digits36] at hparse
  unfold versionFromLexi
  rw [String.toList_ofList, hdigits]
  cases hcons : (digits36 n).map digit36 with
  | nil =>
    have := congrArg List.length hcons
    simp only [List.length_map, List.length_nil] at this
    omega
  | cons c cs =>
    rw [hcons] at hparse
    have hcount : (c :: cs).length = (digits36 n).length := by rw [← hcons, List.length_map]
    simp only
    rw [parseDigit36_digit36 hlen, if_pos]
    · rw [parseBigInt36]
      simpa using hparse
    · simp only [Option.map_some, hcount, Option.some.injEq]
      omega

theorem encodable_iff {n : ℕ} : Encodable n ↔ n < 36 ^ 36 := by
  unfold Encodable digits36
  split
  · next h => simp [h]
  · rw [List.length_reverse, Nat.digits_length_le_iff (by decide)]

theorem versionToLexi_bigint {n : ℕ} (h : Encodable n) :
    versionToLexi (.bigint n) = .ok (String.ofList (lexiChars n)) := by
  have hneg : ¬ (NumberOrBigint.bigint n).value < 0 := by simp [NumberOrBigint.value]
  rw [versionToLexi, if_neg hneg]
  simp only [Int.toNat_natCast]
  rw [encodeLexi_eq, if_pos h]

/-- A code is read back as the number. A safe `number` has the code of the `bigint`. -/
theorem versionFromLexi_versionToLexi {n : ℕ} (h : Encodable n) :
    ∃ s, versionToLexi (.bigint n) = .ok s ∧ (n ≤ maxSafeInteger → versionToLexi (.number n) = .ok s) ∧
      versionFromLexi s = .ok n :=
  ⟨String.ofList (lexiChars n), versionToLexi_bigint h, versionToLexi_safe, versionFromLexi_lexiChars h⟩

/-! ## State versions -/

/-- The order of state versions: by major, then by minor, an absent minor first. -/
def StateVersion.Before (v w : StateVersion) : Prop :=
  v.major < w.major ∨ v.major = w.major ∧
    match v.minor, w.minor with
    | none, some _ => True
    | some m, some n => m < n
    | _, none => False

/-- The parts of the version are naturals below 36^36. -/
structure StateVersion.Valid (v : StateVersion) : Prop where
  major : 0 ≤ v.major ∧ v.major < 36 ^ 36
  minor : ∀ m ∈ v.minor, 0 ≤ m ∧ m < 36 ^ 36

theorem StateVersion.Valid.parts {v : StateVersion} (h : v.Valid) : ∃ (M : ℕ) (m : Option ℕ), v.major = M ∧
    v.minor = m.map (fun n : ℕ => (n : ℤ)) ∧ Encodable M ∧ ∀ n ∈ m, Encodable n := by
  obtain ⟨major, minor⟩ := v
  have hnat : ∀ z : ℤ, 0 ≤ z ∧ z < 36 ^ 36 → ∃ n : ℕ, z = n ∧ Encodable n := by
    intro z hz
    obtain ⟨n, rfl⟩ := Int.eq_ofNat_of_zero_le hz.1
    exact ⟨n, rfl, encodable_iff.mpr (by exact_mod_cast hz.2)⟩
  obtain ⟨M, rfl, hM⟩ := hnat major h.major
  cases minor with
  | none => exact ⟨M, none, rfl, rfl, hM, by simp⟩
  | some minor =>
    obtain ⟨m, rfl, hm⟩ := hnat minor (h.minor minor rfl)
    exact ⟨M, some m, rfl, rfl, hM, by simpa using hm⟩

theorem stateVersionToString_parts {M : ℕ} {m : Option ℕ} (hM : Encodable M) (hm : ∀ n ∈ m, Encodable n) :
    stateVersionToString (StateVersion.input ⟨M, m.map (fun n : ℕ => (n : ℤ))⟩) =
      .ok (String.ofList (VersionParts.mk M m 0).chars) := by
  cases m with
  | none =>
    simp only [StateVersion.input, stateVersionToString, Option.map_none, versionToLexi_bigint hM]
    simp [VersionParts.chars, minorChars, configChars]
  | some m =>
    simp only [StateVersion.input, stateVersionToString, Option.map_some, versionToLexi_bigint hM,
      versionToLexi_bigint (hm m rfl), bind, Except.bind]
    simp [VersionParts.chars, minorChars, configChars, pure, Except.pure, String.ofList_append, String.append_assoc]

theorem digit36_ne_dot {d : ℕ} (h : d < 36) : digit36 d ≠ '.' ∧ (digit36 d).toNat < 0x10000 := by
  have key : ∀ d < 36, digit36 d ≠ '.' ∧ (digit36 d).toNat < 0x10000 := by decide
  exact key d h

theorem mem_lexiChars {n : ℕ} (h : Encodable n) {c : Char} (hc : c ∈ lexiChars n) :
    c ≠ '.' ∧ c.toNat < 0x10000 := by
  obtain ⟨d, hd, rfl⟩ := List.mem_map.mp hc
  refine digit36_ne_dot ?_
  rcases List.mem_cons.mp hd with rfl | hd
  · have := digits36_length_pos n
    unfold Encodable at h
    omega
  · exact digits36_lt n d hd

theorem dot_notMem_lexiChars {n : ℕ} (h : Encodable n) : '.' ∉ lexiChars n := fun hc => (mem_lexiChars h hc).1 rfl

theorem stateVersionFromString_parts {M : ℕ} {m : Option ℕ} (hM : Encodable M) (hm : ∀ n ∈ m, Encodable n) :
    stateVersionFromString (String.ofList (VersionParts.mk M m 0).chars) =
      .ok ⟨M, m.map (fun n : ℕ => (n : ℤ))⟩ := by
  cases m with
  | none =>
    have hchars : (VersionParts.mk M none 0).chars = lexiChars M := by
      simp [VersionParts.chars, minorChars, configChars]
    rw [stateVersionFromString, hchars, String.toList_ofList, if_pos (dot_notMem_lexiChars hM),
      versionFromLexi_lexiChars hM]
    rfl
  | some m =>
    have hchars : (VersionParts.mk M (some m) 0).chars = lexiChars M ++ '.' :: lexiChars m := by
      simp [VersionParts.chars, minorChars, configChars]
    have hsplit : (lexiChars M ++ '.' :: lexiChars m).splitOn '.' = [lexiChars M, lexiChars m] := by
      rw [List.splitOn_append_cons_self_of_not_mem (dot_notMem_lexiChars hM),
        List.splitOn_eq_singleton (dot_notMem_lexiChars (hm m rfl))]
    rw [stateVersionFromString, hchars, String.toList_ofList, if_neg (by simp), hsplit]
    simp only [versionFromLexi_lexiChars hM, versionFromLexi_lexiChars (hm m rfl), bind, Except.bind]
    rfl

theorem before_iff_below {M N : ℕ} {m n : Option ℕ} :
    StateVersion.Before ⟨M, m.map (fun n : ℕ => (n : ℤ))⟩ ⟨N, n.map (fun n : ℕ => (n : ℤ))⟩ ↔
      (VersionParts.mk M m 0).Below ⟨N, n, 0⟩ := by
  cases m <;> cases n <;> simp [StateVersion.Before, VersionParts.Below]

theorem codeUnits_parts_lt {M N : ℕ} {m n : Option ℕ} (hM : Encodable M) (hm : ∀ k ∈ m, Encodable k)
    (hN : Encodable N) (hn : ∀ k ∈ n, Encodable k) (h : (VersionParts.mk M m 0).Below ⟨N, n, 0⟩) :
    codeUnits (String.ofList (VersionParts.mk M m 0).chars) <
      codeUnits (String.ofList (VersionParts.mk N n 0).chars) := by
  have hunits : ∀ {M : ℕ} {m : Option ℕ}, Encodable M → (∀ k ∈ m, Encodable k) →
      ∀ c ∈ (String.ofList (VersionParts.mk M m 0).chars).toList, c.toNat < 0x10000 := by
    intro M m hM hm c hc
    rw [String.toList_ofList] at hc
    simp only [VersionParts.chars, configChars, if_true, List.append_nil, List.mem_append] at hc
    rcases hc with hc | hc
    · exact (mem_lexiChars hM hc).2
    · cases m with
      | none => cases hc
      | some m =>
        rcases List.mem_cons.mp hc with rfl | hc
        · decide
        · exact (mem_lexiChars (hm m rfl) hc).2
  refine codeUnits_lt (hunits hM hm) (hunits hN hn) ?_
  rw [String.toList_ofList, String.toList_ofList]
  exact h.chars_lt ⟨hN, hn, encodable_safe (Nat.zero_le _)⟩

/-- **State versions sort as their strings do**, and are read back from them.
So is a number from its code. -/
theorem stateVersionToString_order :
    (∀ v w : StateVersion, v.Valid → w.Valid → ∃ s t, stateVersionToString v.input = .ok s ∧
      stateVersionToString w.input = .ok t ∧ (v.Before w ↔ codeUnits s < codeUnits t) ∧
      stateVersionFromString s = .ok v) ∧
    ∀ n : ℕ, n < 36 ^ 36 → ∃ s, versionToLexi (.bigint n) = .ok s ∧
      (n ≤ maxSafeInteger → versionToLexi (.number n) = .ok s) ∧ versionFromLexi s = .ok n := by
  refine ⟨fun v w hv hw => ?_, fun n hn => versionFromLexi_versionToLexi (encodable_iff.mpr hn)⟩
  obtain ⟨major, minor⟩ := v
  obtain ⟨major', minor'⟩ := w
  obtain ⟨M, m, rfl, rfl, hM, hm⟩ := hv.parts
  obtain ⟨N, n, rfl, rfl, hN, hn⟩ := hw.parts
  refine ⟨_, _, stateVersionToString_parts hM hm, stateVersionToString_parts hN hn, ?_,
    stateVersionFromString_parts hM hm⟩
  rw [before_iff_below]
  constructor
  · exact codeUnits_parts_lt hM hm hN hn
  · intro hlt
    rcases VersionParts.below_trichotomy ⟨M, m, 0⟩ ⟨N, n, 0⟩ with heq | hbelow | hbelow
    · rw [heq] at hlt
      exact absurd hlt (lt_irrefl _)
    · exact hbelow
    · exact absurd (codeUnits_parts_lt hN hn hM hm hbelow) hlt.asymm

/-- A minor part comes after none, and before the next major. -/
theorem stateVersionToString_order_minor : ∃ s t, stateVersionToString (StateVersion.input ⟨75, none⟩) = .ok s ∧
    stateVersionToString (StateVersion.input ⟨75, some 1⟩) = .ok t ∧ codeUnits s < codeUnits t ∧
    stateVersionFromString s = .ok ⟨75, none⟩ := by
  obtain ⟨s, t, hs, ht, horder, hread⟩ := stateVersionToString_order.1 ⟨75, none⟩ ⟨75, some 1⟩
    ⟨by decide, by simp⟩ ⟨by decide, by simp⟩
  exact ⟨s, t, hs, ht, horder.mp (.inr ⟨rfl, trivial⟩), hread⟩

end ZeroSync
