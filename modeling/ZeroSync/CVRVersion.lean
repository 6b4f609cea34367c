/-
`view-syncer/schema/types.ts`: CVR versions, their order (`cmpVersions`) and
the sortable string the CVR store keeps them as (`versionString`).

The string order is the version order except for one shape of pair: a config
version on a state version with no minor part, against the same major with a
minor part. `:` sorts above `.`, so the string puts the first after the
second, and `cmpVersions` puts it before (`versionString_order`). A client at
the first then misses every row patched at the second
(`catchupRowPatches_misses`).
-/
import Mathlib.Data.Sign.Basic
import ZeroSync.LexiVersion

namespace ZeroSync

open Divergence

/-- `CVRVersion`. -/
structure CVRVersion where
  stateVersion : String
  configVersion : Option ℚ := none
  deriving DecidableEq

/-- `cmpVersions`. -/
def cmpVersions : Option CVRVersion → Option CVRVersion → ℚ
  | none, none => 0
  | none, some _ => -1
  | some _, none => 1
  | some a, some b =>
    if a.stateVersion < b.stateVersion then -1
    else if b.stateVersion < a.stateVersion then 1
    else a.configVersion.getD 0 - b.configVersion.getD 0

/-- `maxVersion`. -/
def maxVersion (a : CVRVersion) : Option CVRVersion → CVRVersion
  | none => a
  | some b => if cmpVersions b a > 0 then b else a

/-- `versionString`: a config version of `0` is dropped like an absent one. -/
def versionString (v : CVRVersion) : Except LexiVersionError String :=
  match v.configVersion with
  | none => .ok v.stateVersion
  | some c =>
    if c = 0 then .ok v.stateVersion
    else do
      let config ← versionToLexi (.number c)
      return v.stateVersion ++ ":" ++ config

/-- JS `<` and `>` on two strings, as the sign a comparator would return. -/
def compareStrings (x y : String) : SignType :=
  if x < y then -1 else if y < x then 1 else 0

/-- The scan of `catchupRowPatches`: the rows with
`"patchVersion" > start AND "patchVersion" <= end`. -/
def catchupRowPatches {ρ} (patchVersion : ρ → String) (afterVersion : Option CVRVersion)
    (upToCVR : CVRVersion) (rows : List ρ) : Except LexiVersionError (List ρ) :=
  if cmpVersions afterVersion upToCVR ≥ 0 then .ok []
  else do
    let start ← match afterVersion with
      | none => pure ""
      | some v => versionString v
    let stop ← versionString upToCVR
    return rows.filter fun row => start < patchVersion row ∧ patchVersion row ≤ stop

/-- `configVersion` is absent or a non-negative safe integer. -/
def SafeConfig (v : CVRVersion) : Prop :=
  v.configVersion = none ∨ ∃ n : ℕ, n ≤ maxSafeInteger ∧ v.configVersion = some (n : ℚ)

/-- The shape of pair the string order gets wrong: `a` has a config version
on a state version with no minor part, `b` has a minor part on the same
major. -/
def ConfigAgainstMinor (va : StateVersionInput) (a : CVRVersion) (vb : StateVersionInput) : Prop :=
  va.major.value = vb.major.value ∧ va.minor = none ∧ vb.minor.isSome ∧ a.configVersion.getD 0 ≠ 0

instance (va a vb) : Decidable (ConfigAgainstMinor va a vb) :=
  inferInstanceAs (Decidable (_ ∧ _ ∧ _ ∧ _))

/-! ## The parts of a version string -/

/-- The numbers a version string is made of; `config` is `0` when absent. -/
structure VersionParts where
  major : ℕ
  minor : Option ℕ
  config : ℕ

def minorChars : Option ℕ → List Char
  | none => []
  | some m => '.' :: lexiChars m

def configChars (c : ℕ) : List Char :=
  if c = 0 then [] else ':' :: lexiChars c

def VersionParts.chars (p : VersionParts) : List Char :=
  lexiChars p.major ++ (minorChars p.minor ++ configChars p.config)

/-- Every part has a code. -/
structure VersionParts.Fits (p : VersionParts) : Prop where
  major : Encodable p.major
  minor : ∀ m ∈ p.minor, Encodable m
  config : Encodable p.config

/-- The order of version strings, on their parts. -/
def VersionParts.Below (p q : VersionParts) : Prop :=
  p.major < q.major ∨ p.major = q.major ∧
    match p.minor, q.minor with
    | none, none => p.config < q.config
    | some m, some n => m < n ∨ m = n ∧ p.config < q.config
    | none, some _ => p.config = 0
    | some _, none => 0 < q.config

theorem configChars_lt {c d : ℕ} (hd : Encodable d) (h : c < d) : configChars c < configChars d := by
  have hd0 : d ≠ 0 := by omega
  by_cases hc : c = 0
  · simp only [configChars, hc, hd0, if_true, if_false]
    exact List.nil_lt_cons _ _
  · simp only [configChars, hc, hd0, if_false]
    exact (Diverges.cons (lexiChars_diverges hd h)).lex

theorem prefix_lt {s t : List Char} (p : List Char) (h : s < t) : p ++ s < p ++ t :=
  List.append_left_lt h

theorem VersionParts.Below.chars_lt {p q : VersionParts} (hq : q.Fits) (h : p.Below q) :
    p.chars < q.chars := by
  obtain ⟨M, m, c⟩ := p
  obtain ⟨N, n, d⟩ := q
  rcases h with h | ⟨rfl, h⟩
  · exact ((lexiChars_diverges hq.major h).append _ _).lex
  refine prefix_lt _ ?_
  simp only at h
  match m, n, hq, h with
  | none, none, hq, h => exact configChars_lt hq.config h
  | some m, some n, hq, .inl h =>
    exact ((Diverges.cons (lexiChars_diverges (hq.minor n rfl) h)).append _ _).lex
  | some m, some _, hq, .inr ⟨rfl, h⟩ => exact prefix_lt _ (configChars_lt hq.config h)
  | none, some n, hq, h =>
    simp only [h, configChars, minorChars, if_true]
    exact List.nil_lt_cons _ _
  | some m, none, hq, h =>
    have hd : d ≠ 0 := by simp only at h; omega
    simp only [minorChars, configChars, hd, if_false, List.nil_append, List.cons_append]
    -- `.` sorts below `:`, so the minor part comes first whatever the numbers are.
    exact (Diverges.head (by decide)).lex

theorem VersionParts.below_trichotomy (p q : VersionParts) : p = q ∨ p.Below q ∨ q.Below p := by
  obtain ⟨M, m, c⟩ := p
  obtain ⟨N, n, d⟩ := q
  simp only [Below, mk.injEq]
  rcases lt_trichotomy M N with h | rfl | h
  · exact .inr (.inl (.inl h))
  · cases m <;> cases n <;> simp <;> omega
  · exact .inr (.inr (.inl h))

theorem compareStrings_chars {p q : VersionParts} (hq : q.Fits) (h : p.Below q) :
    compareStrings (String.ofList p.chars) (String.ofList q.chars) = -1 ∧
      compareStrings (String.ofList q.chars) (String.ofList p.chars) = 1 := by
  have hlt : String.ofList p.chars < String.ofList q.chars := by
    rw [String.lt_iff_toList_lt, String.toList_ofList, String.toList_ofList]
    exact h.chars_lt hq
  constructor
  · rw [compareStrings, if_pos hlt]
  · rw [compareStrings, if_neg hlt.not_gt, if_pos hlt]

/-- The same parts without the config part: the state version alone. -/
def VersionParts.state (p : VersionParts) : VersionParts :=
  { p with config := 0 }

theorem VersionParts.Fits.state {p : VersionParts} (h : p.Fits) : p.state.Fits :=
  ⟨h.major, h.minor, encodable_safe (Nat.zero_le _)⟩

/-- The shape of pair `ConfigAgainstMinor` names, on parts. -/
def VersionParts.Skewed (p q : VersionParts) : Prop :=
  p.major = q.major ∧ p.minor = none ∧ q.minor.isSome ∧ p.config ≠ 0

theorem VersionParts.Below.state {p q : VersionParts} (h : p.Below q) :
    q.Skewed p ∧ q.state.Below p.state ∨
      ¬ q.Skewed p ∧ (p.state.Below q.state ∨ p.state = q.state ∧ p.config < q.config) := by
  obtain ⟨M, m, c⟩ := p
  obtain ⟨N, n, d⟩ := q
  rcases h with h | ⟨rfl, h⟩
  · simp only at h
    exact .inr ⟨fun hs => by have := hs.1; simp only at this; omega, .inl (.inl h)⟩
  · cases m <;> cases n <;> simp_all [Below, VersionParts.state, Skewed] <;> omega

theorem VersionParts.Below.not_skewed {p q : VersionParts} (h : p.Below q) : ¬ p.Skewed q := by
  rintro ⟨hM, hm, hn, hc⟩
  obtain ⟨n, hn⟩ := Option.isSome_iff_exists.mp hn
  rcases h with h | ⟨-, h⟩
  · omega
  · simp only [hm, hn] at h
    exact hc h

/-! ## From versions to parts -/

theorem stateVersionToString_ok {v : StateVersionInput} {s : String} (h : stateVersionToString v = .ok s) :
    ∃ (M : ℕ) (m : Option ℕ), v.major.value = M ∧ v.minor.map (·.value) = m.map (fun n : ℕ => (n : ℚ)) ∧
      Encodable M ∧ (∀ n ∈ m, Encodable n) ∧ s = String.ofList (lexiChars M ++ minorChars m) := by
  obtain ⟨major, minor⟩ := v
  cases minor with
  | none =>
    obtain ⟨M, hM, hE, rfl⟩ := versionToLexi_ok h
    exact ⟨M, none, hM, rfl, hE, by simp, by simp [minorChars]⟩
  | some minor =>
    simp only [stateVersionToString] at h
    cases hmaj : versionToLexi major with
    | error e => rw [hmaj] at h; cases h
    | ok x =>
    cases hmin : versionToLexi minor with
    | error e => rw [hmaj, hmin] at h; cases h
    | ok y =>
    rw [hmaj, hmin] at h
    obtain ⟨M, hM, hE, rfl⟩ := versionToLexi_ok hmaj
    obtain ⟨m, hm, hE', rfl⟩ := versionToLexi_ok hmin
    refine ⟨M, some m, hM, by simp [hm], hE, by simpa using hE', ?_⟩
    obtain rfl := Except.ok.inj h
    simp [minorChars, String.ofList_append, String.append_assoc]

/-- A version in the domain of `versionString_order`, taken apart: its parts,
and the strings made of them. -/
theorem version_parts {v : StateVersionInput} {a : CVRVersion} (hs : stateVersionToString v = .ok a.stateVersion)
    (hc : SafeConfig a) : ∃ p : VersionParts, p.Fits ∧ v.major.value = p.major ∧
      v.minor.map (·.value) = p.minor.map (fun n : ℕ => (n : ℚ)) ∧ a.configVersion.getD 0 = p.config ∧
      a.stateVersion = String.ofList (VersionParts.mk p.major p.minor 0).chars ∧
      versionString a = .ok (String.ofList p.chars) := by
  obtain ⟨M, m, hM, hm, hE, hE', hsv⟩ := stateVersionToString_ok hs
  have hbare : a.stateVersion = String.ofList (VersionParts.mk M m 0).chars := by
    simpa [VersionParts.chars, configChars] using hsv
  rcases hc with hc | ⟨n, hn, hc⟩
  · refine ⟨⟨M, m, 0⟩, ⟨hE, hE', encodable_safe (Nat.zero_le _)⟩, hM, hm, by simp [hc], hbare, ?_⟩
    simp only [versionString, hc, hbare]
  · refine ⟨⟨M, m, n⟩, ⟨hE, hE', encodable_safe hn⟩, hM, hm, by simp [hc], hbare, ?_⟩
    by_cases h0 : n = 0
    · subst h0
      simp [versionString, hc, hbare]
    · have hq : (n : ℚ) ≠ 0 := by exact_mod_cast h0
      simp only [versionString, hc, hq, if_false, versionToLexi_safe hn, hsv, VersionParts.chars,
        configChars, h0]
      simp [bind, Except.bind, pure, Except.pure, String.ofList_append, String.append_assoc]

/-- `cmpVersions` on two versions made of parts, the first of which has the smaller string. -/
theorem cmpVersions_below {a b : CVRVersion} {p q : VersionParts} (hp : p.Fits) (hq : q.Fits)
    (ha : a.stateVersion = String.ofList p.state.chars) (hb : b.stateVersion = String.ofList q.state.chars)
    (hc : a.configVersion.getD 0 = p.config) (hd : b.configVersion.getD 0 = q.config) (h : p.Below q) :
    (cmpVersions a b < 0 ↔ ¬ q.Skewed p) ∧ (0 < cmpVersions a b ↔ q.Skewed p) := by
  have lt_of_below {p q : VersionParts} (hq : q.Fits) (h : p.Below q) :
      String.ofList p.chars < String.ofList q.chars := by
    rw [String.lt_iff_toList_lt, String.toList_ofList, String.toList_ofList]
    exact h.chars_lt hq
  rcases h.state with ⟨hs, h⟩ | ⟨hs, h | ⟨heq, h⟩⟩
  · have hlt := lt_of_below hp.state h
    simp only [cmpVersions, ha, hb, hlt, hlt.not_gt, if_true, if_false, hs]
    norm_num
  · have hlt := lt_of_below hq.state h
    simp only [cmpVersions, ha, hb, hlt, if_true, hs]
    norm_num
  · have h' : (p.config : ℚ) < q.config := by exact_mod_cast h
    simp only [cmpVersions, ha, hb, heq, lt_irrefl, if_false, hc, hd, hs]
    constructor
    · simpa using h'
    · simpa using h'.le

theorem cmpVersions_swap (a b : CVRVersion) : cmpVersions b a = - cmpVersions a b := by
  simp only [cmpVersions]
  rcases lt_trichotomy a.stateVersion b.stateVersion with h | h | h
  · simp [h, h.not_gt]
  · simp [h]
  · simp [h, h.not_gt]

theorem skewed_iff {va vb : StateVersionInput} {a : CVRVersion} {p q : VersionParts}
    (hM : va.major.value = p.major) (hm : va.minor.map (·.value) = p.minor.map (fun n : ℕ => (n : ℚ)))
    (hN : vb.major.value = q.major) (hn : vb.minor.map (·.value) = q.minor.map (fun n : ℕ => (n : ℚ)))
    (hc : a.configVersion.getD 0 = p.config) : ConfigAgainstMinor va a vb ↔ p.Skewed q := by
  have hminor : va.minor = none ↔ p.minor = none := by
    rw [← Option.map_eq_none_iff (f := (·.value)), hm, Option.map_eq_none_iff]
  have hsome : vb.minor.isSome = q.minor.isSome := by
    rw [← Option.isSome_map (f := (·.value)), hn, Option.isSome_map]
  simp only [ConfigAgainstMinor, VersionParts.Skewed, hM, hN, hminor, hsome, hc]
  norm_cast

/-- **The string order is the version order, the one skewed shape apart.**
For versions made of encodable state versions and safe config versions,
`versionString` succeeds, and its results compare as `cmpVersions` does
exactly when neither version is a config version on a state version without
minor part against a minor part on the same major. -/
theorem versionString_order {va vb : StateVersionInput} {a b : CVRVersion}
    (ha : stateVersionToString va = .ok a.stateVersion) (hb : stateVersionToString vb = .ok b.stateVersion)
    (hca : SafeConfig a) (hcb : SafeConfig b) :
    ∃ x y, versionString a = .ok x ∧ versionString b = .ok y ∧
      (compareStrings x y = SignType.sign (cmpVersions a b) ↔
        ¬ (ConfigAgainstMinor va a vb ∨ ConfigAgainstMinor vb b va)) := by
  obtain ⟨p, hp, hM, hm, hc, hsa, hva⟩ := version_parts ha hca
  obtain ⟨q, hq, hN, hn, hd, hsb, hvb⟩ := version_parts hb hcb
  refine ⟨_, _, hva, hvb, ?_⟩
  rw [skewed_iff hM hm hN hn hc, skewed_iff hN hn hM hm hd]
  rcases p.below_trichotomy q with rfl | h | h
  · have hnot : ¬ p.Skewed p := fun ⟨_, h, h', _⟩ => by simp [h] at h'
    have hcmp : cmpVersions a b = 0 := by simp [cmpVersions, hsa, hsb, hc, hd]
    simp [compareStrings, hcmp, hnot]
  · obtain ⟨hneg, -⟩ := cmpVersions_below hp hq hsa hsb hc hd h
    rw [(compareStrings_chars hq h).1, eq_comm, sign_eq_neg_one_iff, hneg]
    simp [h.not_skewed]
  · obtain ⟨hneg, -⟩ := cmpVersions_below hq hp hsb hsa hd hc h
    rw [(compareStrings_chars hp h).2, eq_comm, sign_eq_one_iff, cmpVersions_swap, neg_pos, hneg]
    simp [h.not_skewed]

/-- A pair with minors and configs of different lengths sorts right. -/
theorem versionString_order_minors :
    ∃ x y, versionString ⟨"01.110", some 2⟩ = .ok x ∧ versionString ⟨"01.0z", some 100⟩ = .ok y ∧
      (compareStrings x y = SignType.sign (cmpVersions (some ⟨"01.110", some 2⟩) (some ⟨"01.0z", some 100⟩)) ↔
        ¬ (ConfigAgainstMinor ⟨.bigint 1, some (.bigint 36)⟩ ⟨"01.110", some 2⟩ ⟨.bigint 1, some (.bigint 35)⟩ ∨
          ConfigAgainstMinor ⟨.bigint 1, some (.bigint 35)⟩ ⟨"01.0z", some 100⟩ ⟨.bigint 1, some (.bigint 36)⟩)) :=
  versionString_order (a := ⟨"01.110", some 2⟩) (b := ⟨"01.0z", some 100⟩) (by decide) (by decide)
    (.inr ⟨2, by decide, by norm_num⟩) (.inr ⟨100, by decide, by norm_num⟩)

/-- **A skewed pair.** A client at `00:01` is behind a row patched at
`00.00`, and the catchup up to `00.01` does not send it the row. -/
theorem catchupRowPatches_misses :
    stateVersionToString ⟨.bigint 0, none⟩ = .ok "00" ∧
    stateVersionToString ⟨.bigint 0, some (.bigint 0)⟩ = .ok "00.00" ∧
    cmpVersions (some ⟨"00", some 1⟩) (some ⟨"00.00", none⟩) < 0 ∧
    versionString ⟨"00", some 1⟩ = .ok "00:01" ∧ versionString ⟨"00.00", none⟩ = .ok "00.00" ∧
    compareStrings "00:01" "00.00" = 1 ∧
    catchupRowPatches id (some ⟨"00", some 1⟩) ⟨"00.01", none⟩ ["00.00"] = .ok [] := by
  decide

end ZeroSync
