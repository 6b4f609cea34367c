/-
The LIKE of SQLite, with `\` for the escape, against that of `like.ts`.

SQLite matches characters and the source UTF-16 code units, so a `_` is one
character to the one and half of a surrogate pair to the other. Where no `_`
is asked for, or each character of the string is one unit, the two agree
(`likeMatch_iff`).
-/
import Mathlib.Data.List.TakeWhile
import ZeroSync.Like
import ZeroSync.StateVersion

namespace ZeroSync.Like

open RegExpText (backslash)

/-- The code units of a character. -/
def charUnits (c : Char) : List UInt16 := (charCodeUnits c).map UInt16.ofNat

/-- The code units of characters. -/
def units (s : List Char) : List UInt16 := s.flatMap charUnits

/-- `LIKE` with `ESCAPE '\'`, in a connection with `case_sensitive_like`. -/
def likeMatch : List Char → List Char → Bool
  | [], s => s = []
  | c :: p, s =>
    if c = '%' then s.tails.any (likeMatch p)
    else if c = '_' then
      match s with
      | [] => false
      | _ :: s => likeMatch p s
    else if c = '\\' then
      match p, s with
      | d :: p, e :: s => decide (d = e) && likeMatch p s
      | _, _ => false
    else
      match s with
      | [] => false
      | e :: s => decide (c = e) && likeMatch p s

/-- A text up to its first NUL, at which `LIKE` stops reading. -/
def untilNul (s : String) : List Char := s.toList.takeWhile (· ≠ '\x00')

/-- The pattern asks for any one character. -/
def hasUnderscore : List Char → Bool
  | [] => false
  | c :: p =>
    if c = '_' then true
    else if c = '\\' then
      match p with
      | [] => false
      | _ :: p => hasUnderscore p
    else hasUnderscore p

/-- The character is one code unit. -/
def IsUnit (c : Char) : Prop := c.toNat < 0x10000

instance : DecidablePred IsUnit := fun c => inferInstanceAs (Decidable (c.toNat < 0x10000))

theorem untilNul_eq {s : String} (h : '\x00' ∉ s.toList) : untilNul s = s.toList :=
  List.takeWhile_eq_self_iff.mpr fun _ hc => decide_eq_true fun heq => h (heq ▸ hc)

/-! ## Code units -/

theorem charCodeUnits_lt {c : Char} {n : ℕ} (h : n ∈ charCodeUnits c) : n < 65536 := by
  have hvalid : c.toNat < 0xD800 ∨ 0xDFFF < c.toNat ∧ c.toNat < 0x110000 := c.valid
  unfold charCodeUnits at h
  split at h
  · next hc => simpa using (List.mem_singleton.mp h) ▸ hc
  · simp only [List.mem_cons, List.not_mem_nil, or_false] at h
    omega

theorem charUnits_append_inj {c d : Char} {l m : List UInt16} (h : charUnits c ++ l = charUnits d ++ m) :
    c = d ∧ l = m := by
  have hvalues : charCodeUnits c ++ l.map UInt16.toNat = charCodeUnits d ++ m.map UInt16.toNat := by
    have hback (c : Char) : (charUnits c).map UInt16.toNat = charCodeUnits c := by
      rw [charUnits, List.map_map]
      refine (List.map_congr_left fun n hn => ?_).trans (List.map_id _)
      exact (UInt16.toNat_ofNat' ..).trans (Nat.mod_eq_of_lt (charCodeUnits_lt hn))
    rw [← hback c, ← hback d, ← List.map_append, ← List.map_append, h]
  obtain ⟨hchar, -⟩ := charCodeUnits_append_inj hvalues
  subst hchar
  exact ⟨rfl, List.append_cancel_left h⟩

/-- A low surrogate. -/
def IsLow (u : UInt16) : Prop := 0xDC00 ≤ u.toNat ∧ u.toNat < 0xE000

theorem charUnits_cases (c : Char) :
    (IsUnit c ∧ ∃ u, charUnits c = [u] ∧ u.toNat = c.toNat ∧ ¬IsLow u) ∨
      (¬IsUnit c ∧ ∃ high low, charUnits c = [high, low] ∧ 0xD800 ≤ high.toNat ∧ ¬IsLow high ∧ IsLow low) := by
  have hvalid : c.toNat < 0xD800 ∨ 0xDFFF < c.toNat ∧ c.toNat < 0x110000 := c.valid
  unfold IsUnit charUnits charCodeUnits IsLow
  by_cases hc : c.toNat < 0x10000
  · rw [if_pos hc]
    have hu : (UInt16.ofNat c.toNat).toNat = c.toNat := (UInt16.toNat_ofNat' ..).trans (Nat.mod_eq_of_lt hc)
    exact .inl ⟨hc, _, rfl, hu, by rw [hu]; omega⟩
  · rw [if_neg hc]
    have hhigh : (UInt16.ofNat (0xD800 + (c.toNat - 0x10000) / 0x400)).toNat = 0xD800 + (c.toNat - 0x10000) / 0x400 :=
      (UInt16.toNat_ofNat' ..).trans (Nat.mod_eq_of_lt (by omega))
    have hlow : (UInt16.ofNat (0xDC00 + (c.toNat - 0x10000) % 0x400)).toNat = 0xDC00 + (c.toNat - 0x10000) % 0x400 :=
      (UInt16.toNat_ofNat' ..).trans (Nat.mod_eq_of_lt (by omega))
    exact .inr ⟨hc, _, _, rfl, by rw [hhigh]; omega, by rw [hhigh]; omega, by rw [hlow]; omega⟩

theorem charUnits_head (c : Char) : ∃ u us, charUnits c = u :: us ∧ ¬IsLow u := by
  obtain ⟨-, u, hunits, -, hlow⟩ | ⟨-, high, low, hunits, -, hlow, -⟩ := charUnits_cases c
  · exact ⟨u, [], hunits, hlow⟩
  · exact ⟨high, [low], hunits, hlow⟩

theorem units_eq_append {s : List Char} {l t : List UInt16} (h : units s = l ++ t) :
    (∃ a b, s = a ++ b ∧ t = units b) ∨
      ∃ a c b low, s = a ++ c :: b ∧ ¬IsUnit c ∧ IsLow low ∧ t = low :: units b := by
  induction s generalizing l with
  | nil =>
    obtain ⟨-, rfl⟩ := List.append_eq_nil_iff.mp h.symm
    exact .inl ⟨[], [], rfl, rfl⟩
  | cons c s ih =>
    cases l with
    | nil => exact .inl ⟨[], c :: s, rfl, h.symm⟩
    | cons u l =>
      have hcons : charUnits c ++ units s = u :: l ++ t := h
      have hrest {l : List UInt16} (hs : units s = l ++ t) : (∃ a b, c :: s = a ++ b ∧ t = units b) ∨
          ∃ a d b low, c :: s = a ++ d :: b ∧ ¬IsUnit d ∧ IsLow low ∧ t = low :: units b := by
        obtain ⟨a, b, rfl, ht⟩ | ⟨a, d, b, low, rfl, hd⟩ := ih hs
        · exact .inl ⟨c :: a, b, rfl, ht⟩
        · exact .inr ⟨c :: a, d, b, low, rfl, hd⟩
      obtain ⟨-, v, hunits, -⟩ | ⟨hc, high, low, hunits, -, -, hlow⟩ := charUnits_cases c
      · rw [hunits] at hcons
        exact hrest (List.cons.inj hcons).2
      · rw [hunits] at hcons
        have htail : low :: units s = l ++ t := (List.cons.inj hcons).2
        cases l with
        | nil => exact .inr ⟨[], c, s, low, rfl, hc, hlow, htail.symm⟩
        | cons v l => exact hrest (List.cons.inj htail).2

theorem units_append (s t : List Char) : units (s ++ t) = units s ++ units t := List.flatMap_append

theorem units_eq_charUnits_append {s : List Char} {c : Char} {t : List UInt16} (h : units s = charUnits c ++ t) :
    ∃ s', s = c :: s' ∧ t = units s' := by
  cases s with
  | nil =>
    obtain ⟨u, us, hunits, -⟩ := charUnits_head c
    rw [hunits] at h
    cases h
  | cons d s =>
    obtain ⟨rfl, ht⟩ := charUnits_append_inj (h : charUnits d ++ units s = _)
    exact ⟨s, rfl, ht.symm⟩

/-! ## A pattern by its first character -/

/-- The unit stands for itself in a pattern. -/
def Plain (u : UInt16) : Prop := u ≠ percent ∧ u ≠ underscore ∧ u ≠ backslash

theorem plain_of_le {u : UInt16} (h : 0xD800 ≤ u.toNat) : Plain u := by
  refine ⟨?_, ?_, ?_⟩ <;>
    · rintro rfl
      revert h
      decide

theorem charUnits_plain {c : Char} (hp : c ≠ '%') (hu : c ≠ '_') (hb : c ≠ '\\') : ∀ u ∈ charUnits c, Plain u := by
  have hne {u : UInt16} {d : Char} (hcode : u.toNat = c.toNat) (hd : c ≠ d) : u.toNat ≠ d.toNat := fun heq =>
    hd (Char.toNat_inj.mp (hcode.symm.trans heq))
  obtain ⟨-, v, hunits, hcode, -⟩ | ⟨-, high, low, hunits, hhigh, -, hlow⟩ := charUnits_cases c
  · rw [hunits]
    refine List.forall_mem_singleton.mpr ⟨?_, ?_, ?_⟩
    · rintro rfl
      exact hne hcode hp (by decide)
    · rintro rfl
      exact hne hcode hu (by decide)
    · rintro rfl
      exact hne hcode hb (by decide)
  · rw [hunits, List.forall_mem_cons, List.forall_mem_singleton]
    exact ⟨plain_of_le hhigh, plain_of_le (le_trans (by decide) hlow.1)⟩

theorem likeMatches_plain {u : UInt16} (hu : Plain u) {p t : List UInt16} :
    LikeMatches (u :: p) t ↔ ∃ t', t = u :: t' ∧ LikeMatches p t' := by
  constructor
  · intro h
    obtain ⟨heq, -⟩ | ⟨heq, -⟩ | ⟨heq, -⟩ | ⟨-, -, -, h⟩ := likeMatches_cons h
    · exact absurd heq hu.1
    · exact absurd heq hu.2.1
    · exact absurd heq hu.2.2
    · exact h
  · rintro ⟨t', rfl, h⟩
    exact .literal u hu.1 hu.2.1 hu.2.2 h

theorem likeMatches_plain_append {us : List UInt16} (hus : ∀ u ∈ us, Plain u) {p t : List UInt16} :
    LikeMatches (us ++ p) t ↔ ∃ t', t = us ++ t' ∧ LikeMatches p t' := by
  induction us generalizing t with
  | nil => simp
  | cons u us ih =>
    obtain ⟨hu, hus⟩ := List.forall_mem_cons.mp hus
    rw [List.cons_append, likeMatches_plain hu]
    constructor
    · rintro ⟨t', rfl, h⟩
      obtain ⟨t'', rfl, hrest⟩ := (ih hus).mp h
      exact ⟨t'', rfl, hrest⟩
    · rintro ⟨t', rfl, h⟩
      exact ⟨us ++ t', rfl, (ih hus).mpr ⟨t', rfl, h⟩⟩

theorem likeMatches_escaped {d : UInt16} {p t : List UInt16} :
    LikeMatches (backslash :: d :: p) t ↔ ∃ t', t = d :: t' ∧ LikeMatches p t' := by
  constructor
  · intro h
    obtain ⟨heq, -⟩ | ⟨heq, -⟩ | ⟨-, d', q, t', hp, rfl, h⟩ | ⟨-, -, hne, -⟩ := likeMatches_cons h
    · exact absurd heq backslash_ne_percent
    · exact absurd heq backslash_ne_underscore
    · obtain ⟨rfl, rfl⟩ := List.cons.inj hp
      exact ⟨t', rfl, h⟩
    · exact absurd rfl hne
  · rintro ⟨t', rfl, h⟩
    exact .escaped d h

theorem likeMatches_percent {p t : List UInt16} :
    LikeMatches (percent :: p) t ↔ ∃ l t', t = l ++ t' ∧ LikeMatches p t' := by
  constructor
  · intro h
    obtain ⟨-, h⟩ | ⟨heq, -⟩ | ⟨heq, -⟩ | ⟨hne, -⟩ := likeMatches_cons h
    · exact h
    · exact absurd heq percent_ne_underscore
    · exact absurd heq.symm backslash_ne_percent
    · exact absurd rfl hne
  · rintro ⟨l, t', rfl, h⟩
    exact .anySequence l h

theorem likeMatches_underscore {p t : List UInt16} :
    LikeMatches (underscore :: p) t ↔ ∃ u t', t = u :: t' ∧ LikeMatches p t' := by
  constructor
  · intro h
    obtain ⟨heq, -⟩ | ⟨-, h⟩ | ⟨heq, -⟩ | ⟨-, hne, -⟩ := likeMatches_cons h
    · exact absurd heq underscore_ne_percent
    · exact h
    · exact absurd heq.symm backslash_ne_underscore
    · exact absurd rfl hne
  · rintro ⟨u, t', rfl, h⟩
    exact .anyUnit u h

theorem not_likeMatches_trailing {t : List UInt16} : ¬LikeMatches [backslash] t := by
  intro h
  obtain ⟨heq, -⟩ | ⟨heq, -⟩ | ⟨-, d, q, t', hp, -⟩ | ⟨-, -, hne, -⟩ := likeMatches_cons h
  · exact backslash_ne_percent heq
  · exact backslash_ne_underscore heq
  · cases hp
  · exact hne rfl

theorem likeMatches_escaped_char {d : Char} {p : List Char} {t : List UInt16} :
    LikeMatches (units ('\\' :: d :: p)) t ↔ ∃ t', t = charUnits d ++ t' ∧ LikeMatches (units p) t' := by
  have hpattern : units ('\\' :: d :: p) = backslash :: (charUnits d ++ units p) := rfl
  rw [hpattern]
  obtain ⟨-, v, hunits, -⟩ | ⟨-, high, low, hunits, -, -, hlow⟩ := charUnits_cases d
  · rw [hunits, List.singleton_append, likeMatches_escaped]
    rfl
  · have hplain : ∀ u ∈ [low], Plain u := List.forall_mem_singleton.mpr (plain_of_le (le_trans (by decide) hlow.1))
    have hcons : [high, low] ++ units p = high :: ([low] ++ units p) := rfl
    rw [hunits, hcons, likeMatches_escaped]
    constructor
    · rintro ⟨t', rfl, h⟩
      obtain ⟨t'', rfl, hrest⟩ := (likeMatches_plain_append hplain).mp h
      exact ⟨t'', rfl, hrest⟩
    · rintro ⟨t', rfl, h⟩
      exact ⟨[low] ++ t', rfl, (likeMatches_plain_append hplain).mpr ⟨t', rfl, h⟩⟩

theorem likeMatches_char {c : Char} (hp : c ≠ '%') (hu : c ≠ '_') (hb : c ≠ '\\') {p : List Char} {t : List UInt16} :
    LikeMatches (units (c :: p)) t ↔ ∃ t', t = charUnits c ++ t' ∧ LikeMatches (units p) t' :=
  likeMatches_plain_append (charUnits_plain hp hu hb)

theorem chars_induction {motive : List Char → Prop} (nil : motive []) (percent : ∀ p, motive p → motive ('%' :: p))
    (underscore : ∀ p, motive p → motive ('_' :: p)) (trailing : motive ['\\'])
    (escaped : ∀ c p, motive p → motive ('\\' :: c :: p))
    (literal : ∀ c p, c ≠ '%' → c ≠ '_' → c ≠ '\\' → motive p → motive (c :: p)) : ∀ pattern, motive pattern := by
  refine @escape_induction Char (fun c => c = '%' ∨ c = '_') '\\' motive nil (fun c p hwild h => ?_) trailing escaped
    fun c p hwild hb => literal c p (not_or.mp hwild).1 (not_or.mp hwild).2 hb
  rcases hwild with rfl | rfl
  · exact percent p h
  · exact underscore p h

theorem likeMatch_percent {p s : List Char} :
    likeMatch ('%' :: p) s = true ↔ ∃ a b, s = a ++ b ∧ likeMatch p b = true := by
  rw [likeMatch.eq_def]
  simp only [if_true, List.any_eq_true, List.mem_tails]
  constructor
  · rintro ⟨b, ⟨a, rfl⟩, h⟩
    exact ⟨a, b, rfl, h⟩
  · rintro ⟨a, b, rfl, h⟩
    exact ⟨b, ⟨a, rfl⟩, h⟩

theorem likeMatch_underscore {p s : List Char} :
    likeMatch ('_' :: p) s = true ↔ ∃ c s', s = c :: s' ∧ likeMatch p s' = true := by
  rw [likeMatch.eq_def]
  cases s <;> simp

theorem likeMatch_escaped {d : Char} {p s : List Char} :
    likeMatch ('\\' :: d :: p) s = true ↔ ∃ s', s = d :: s' ∧ likeMatch p s' = true := by
  rw [likeMatch.eq_def]
  cases s with
  | nil => simp
  | cons e s =>
    simp only [Char.reduceEq, if_true, if_false, Bool.and_eq_true, decide_eq_true_eq, List.cons.injEq]
    constructor
    · rintro ⟨rfl, h⟩
      exact ⟨s, ⟨rfl, rfl⟩, h⟩
    · rintro ⟨_, ⟨rfl, rfl⟩, h⟩
      exact ⟨rfl, h⟩

theorem likeMatch_char {c : Char} (hp : c ≠ '%') (hu : c ≠ '_') (hb : c ≠ '\\') {p s : List Char} :
    likeMatch (c :: p) s = true ↔ ∃ s', s = c :: s' ∧ likeMatch p s' = true := by
  rw [likeMatch.eq_def]
  cases s with
  | nil => simp [hp, hu, hb]
  | cons e s =>
    simp only [hp, hu, hb, if_false, Bool.and_eq_true, decide_eq_true_eq, List.cons.injEq]
    constructor
    · rintro ⟨rfl, h⟩
      exact ⟨s, ⟨rfl, rfl⟩, h⟩
    · rintro ⟨_, ⟨rfl, rfl⟩, h⟩
      exact ⟨rfl, h⟩

theorem hasUnderscore_underscore (p : List Char) : hasUnderscore ('_' :: p) = true := by
  rw [hasUnderscore.eq_def]
  simp

theorem hasUnderscore_escaped (d : Char) (p : List Char) : hasUnderscore ('\\' :: d :: p) = hasUnderscore p := by
  rw [hasUnderscore.eq_def]
  simp

theorem hasUnderscore_cons {c : Char} (hu : c ≠ '_') (hb : c ≠ '\\') (p : List Char) :
    hasUnderscore (c :: p) = hasUnderscore p := by
  rw [hasUnderscore.eq_def]
  simp [hu, hb]

/-- A low surrogate at the front can only be taken by a `%`. -/
theorem likeMatches_of_low {p : List Char} (hp : hasUnderscore p = false) {low : UInt16} (hlow : IsLow low)
    {t : List UInt16} (h : LikeMatches (units p) (low :: t)) : LikeMatches (units p) t := by
  have hhead (c : Char) (t' : List UInt16) : low :: t ≠ charUnits c ++ t' := by
    obtain ⟨u, us, hunits, hu⟩ := charUnits_head c
    rw [hunits]
    intro heq
    exact hu ((List.cons.inj heq).1 ▸ hlow)
  induction p using chars_induction with
  | nil => cases h
  | percent p ih =>
    rw [hasUnderscore_cons (by decide) (by decide)] at hp
    obtain ⟨l, t', heq, hrest⟩ := likeMatches_percent.mp h
    cases l with
    | nil =>
      obtain rfl : low :: t = t' := heq
      exact likeMatches_percent.mpr ⟨[], t, rfl, ih hp hrest⟩
    | cons u l => exact likeMatches_percent.mpr ⟨l, t', (List.cons.inj heq).2, hrest⟩
  | underscore p ih =>
    cases (hasUnderscore_underscore p).symm.trans hp
  | trailing => exact absurd h not_likeMatches_trailing
  | escaped d p ih =>
    obtain ⟨t', heq, -⟩ := likeMatches_escaped_char.mp h
    exact absurd heq (hhead d t')
  | literal c p hpc hu hb ih =>
    obtain ⟨t', heq, -⟩ := (likeMatches_char hpc hu hb).mp h
    exact absurd heq (hhead c t')

/-- **The two LIKEs agree** where no `_` is asked for, or each character of the string is one unit. -/
theorem likeMatch_iff {p s : List Char} (h : hasUnderscore p = true → ∀ c ∈ s, IsUnit c) :
    LikeMatches (units p) (units s) ↔ likeMatch p s = true := by
  induction p using chars_induction generalizing s with
  | nil =>
    have hunits : units s = [] ↔ s = [] := by
      cases s with
      | nil => exact iff_of_true rfl rfl
      | cons c s =>
        obtain ⟨u, us, hc, -⟩ := charUnits_head c
        simp [units, hc]
    exact likeMatches_nil.trans (hunits.trans decide_eq_true_iff.symm)
  | percent p ih =>
    rw [hasUnderscore_cons (by decide) (by decide)] at h
    rw [likeMatch_percent]
    refine Iff.trans likeMatches_percent ?_
    constructor
    · rintro ⟨l, t, heq, hrest⟩
      obtain ⟨a, b, rfl, rfl⟩ | ⟨a, c, b, low, rfl, hc, hlow, rfl⟩ := units_eq_append heq
      · exact ⟨a, b, rfl, (ih fun hp c hmem => h hp c (List.mem_append_right _ hmem)).mp hrest⟩
      · -- A pair is cut in two, so no `_` is asked for.
        have hp : hasUnderscore p = false := by
          rw [← Bool.not_eq_true]
          exact fun hp => hc (h hp c (by simp))
        refine ⟨a ++ [c], b, by simp, (ih fun hp' => ?_).mp (likeMatches_of_low hp hlow hrest)⟩
        rw [hp] at hp'
        cases hp'
    · rintro ⟨a, b, rfl, hrest⟩
      exact ⟨units a, units b, units_append a b, (ih fun hp c hmem => h hp c (List.mem_append_right _ hmem)).mpr hrest⟩
  | underscore p ih =>
    have hunit : ∀ c ∈ s, IsUnit c := h (hasUnderscore_underscore p)
    rw [likeMatch_underscore]
    refine Iff.trans likeMatches_underscore ?_
    cases s with
    | nil => simp [units]
    | cons c s =>
      obtain ⟨hc, hs⟩ := List.forall_mem_cons.mp hunit
      obtain ⟨-, u, hunits, -⟩ | ⟨hnot, -⟩ := charUnits_cases c
      · have hcons : units (c :: s) = u :: units s := by rw [units, List.flatMap_cons, hunits]; rfl
        rw [hcons]
        constructor
        · rintro ⟨_, _, heq, hrest⟩
          obtain ⟨rfl, rfl⟩ := List.cons.inj heq
          exact ⟨c, s, rfl, (ih fun _ => hs).mp hrest⟩
        · rintro ⟨_, _, heq, hrest⟩
          obtain ⟨rfl, rfl⟩ := List.cons.inj heq
          exact ⟨u, units s, rfl, (ih fun _ => hs).mpr hrest⟩
      · exact absurd hc hnot
  | trailing =>
    refine iff_of_false not_likeMatches_trailing ?_
    rw [likeMatch.eq_def]
    simp
  | escaped d p ih =>
    rw [hasUnderscore_escaped] at h
    rw [likeMatches_escaped_char, likeMatch_escaped]
    constructor
    · rintro ⟨t, heq, hrest⟩
      obtain ⟨s, rfl, rfl⟩ := units_eq_charUnits_append heq
      exact ⟨s, rfl, (ih fun hp c hmem => h hp c (List.mem_cons_of_mem _ hmem)).mp hrest⟩
    · rintro ⟨s, rfl, hrest⟩
      exact ⟨units s, rfl, (ih fun hp c hmem => h hp c (List.mem_cons_of_mem _ hmem)).mpr hrest⟩
  | literal c p hp hu hb ih =>
    rw [hasUnderscore_cons hu hb] at h
    rw [likeMatches_char hp hu hb, likeMatch_char hp hu hb]
    constructor
    · rintro ⟨t, heq, hrest⟩
      obtain ⟨s, rfl, rfl⟩ := units_eq_charUnits_append heq
      exact ⟨s, rfl, (ih fun hp c hmem => h hp c (List.mem_cons_of_mem _ hmem)).mp hrest⟩
    · rintro ⟨s, rfl, hrest⟩
      exact ⟨units s, rfl, (ih fun hp c hmem => h hp c (List.mem_cons_of_mem _ hmem)).mpr hrest⟩

end ZeroSync.Like
