/-
`zql/src/builder/like.ts`: the case-sensitive predicate of a LIKE pattern.

A pattern with no wildcard and no escape is compared with the string. Any other is
translated, unit by unit, into the text of a regular expression, which is then read.
`likePieces` is what the pattern says, piece by piece; the text is read as those pieces
between `^` and `$` (`parse_patternToRegExp`), and they spell the strings that match the
pattern (`likeMatches_iff`).

Strings are lists of UTF-16 code units.
-/
import ZeroSync.RegExpText

namespace ZeroSync.Like

open RegExpText

/-- `'%'`. -/
def percent : UInt16 := 0x25

/-- `'_'`. -/
def underscore : UInt16 := 0x5F

/-- What building a predicate throws. -/
inductive LikeError
  /-- `LIKE pattern must not end with escape character` -/
  | endsWithEscape
  /-- What `new RegExp` throws for a text it cannot read. -/
  | invalidRegExp
  deriving DecidableEq

/-- `likePatternRe.test(pattern)`. -/
def likePatternRe (pattern : List UInt16) : Bool :=
  pattern.any fun c => c = underscore || c = percent || c = backslash

/-- `specialCharsRe.test(c)`: one of `$ ( ) * + . ? [ ] \ ^ { | }`. -/
def specialCharsRe (c : UInt16) : Bool :=
  [0x24, 0x28, 0x29, 0x2A, 0x2B, 0x2E, 0x3F, 0x5B, 0x5D, 0x5C, 0x5E, 0x7B, 0x7C, 0x7D].contains c

/-- What is appended to the text for a unit that stands for itself. -/
def literal (c : UInt16) : List UInt16 := if specialCharsRe c then [backslash, c] else [c]

/-- The loop of `patternToRegExp`, from some place of the source on. -/
def patternLoop : List UInt16 → List UInt16 → Except LikeError (List UInt16)
  | [], pattern => .ok pattern
  | c :: source, pattern =>
    if c = percent then
      patternLoop source (pattern ++ [dot, asterisk])
    else if c = underscore then
      patternLoop source (pattern ++ [dot])
    else if c = backslash then
      match source with
      | [] => .error .endsWithEscape
      | c :: source => patternLoop source (pattern ++ literal c)
    else
      patternLoop source (pattern ++ literal c)

/-- `patternToRegExp`. -/
def patternToRegExp (source : List UInt16) : Except LikeError (List Term) := do
  let pattern ← patternLoop source [caret]
  match parse (pattern ++ [dollar]) with
  | some re => return re
  | none => throw .invalidRegExp

/-- `getLikeOp` without the flag `i`. -/
def getLikeOp (pattern : List UInt16) : Except LikeError (List UInt16 → Bool) :=
  if !likePatternRe pattern then
    .ok fun lhs => lhs = pattern
  else do
    let re ← patternToRegExp pattern
    return fun lhs => test re lhs

/-- `getLikePredicate`, for a string on the left. -/
def getLikePredicate (pattern : List UInt16) : Except LikeError (List UInt16 → Bool) := do
  let op ← getLikeOp pattern
  return fun lhs => op lhs

/-! ## What LIKE means -/

/-- The string matches the pattern. -/
inductive LikeMatches : List UInt16 → List UInt16 → Prop
  | nil : LikeMatches [] []
  | anySequence {p s} (l : List UInt16) : LikeMatches p s → LikeMatches (percent :: p) (l ++ s)
  | anyUnit {p s} (u : UInt16) : LikeMatches p s → LikeMatches (underscore :: p) (u :: s)
  | escaped {p s} (c : UInt16) : LikeMatches p s → LikeMatches (backslash :: c :: p) (c :: s)
  | literal {p s} (c : UInt16) : c ≠ percent → c ≠ underscore → c ≠ backslash → LikeMatches p s →
    LikeMatches (c :: p) (c :: s)

/-- The pattern ends in a backslash that is not itself escaped. -/
def endsInEscape : List UInt16 → Bool
  | [] => false
  | [c] => c = backslash
  | c :: d :: p => if c = backslash then endsInEscape p else endsInEscape (d :: p)

/-! ## Pieces -/

/-- What a pattern asks for, piece by piece; nothing if it ends in an escape. -/
def likePieces : List UInt16 → Option (List (Atom × Bool))
  | [] => some []
  | c :: p =>
    if c = percent then
      (likePieces p).map ((.any, true) :: ·)
    else if c = underscore then
      (likePieces p).map ((.any, false) :: ·)
    else if c = backslash then
      match p with
      | [] => none
      | c :: p => (likePieces p).map ((.unit c, false) :: ·)
    else
      (likePieces p).map ((.unit c, false) :: ·)

/-- The text of a piece. -/
def pieceText : Atom × Bool → List UInt16
  | (.any, true) => [dot, asterisk]
  | (.any, false) => [dot]
  | (.unit c, _) => literal c

/-- Only `%` repeats. -/
def IsLikePiece (p : Atom × Bool) : Prop := p.2 = true → p.1 = .any

theorem escape_induction {α : Type} {wild : α → Prop} {escape : α} {motive : List α → Prop} (nil : motive [])
    (wildcard : ∀ c p, wild c → motive p → motive (c :: p)) (trailing : motive [escape])
    (escaped : ∀ c p, motive p → motive (escape :: c :: p))
    (literal : ∀ c p, ¬wild c → c ≠ escape → motive p → motive (c :: p)) : ∀ pattern, motive pattern
  | [] => nil
  | c :: p => by
    have ih : motive p := escape_induction nil wildcard trailing escaped literal p
    by_cases hwild : wild c
    · exact wildcard c p hwild ih
    · by_cases hescape : c = escape
      · rw [hescape]
        cases p with
        | nil => exact trailing
        | cons d p => exact escaped d p (escape_induction nil wildcard trailing escaped literal p)
      · exact literal c p hwild hescape ih

theorem pattern_induction {motive : List UInt16 → Prop} (nil : motive [])
    (wildcard : ∀ c p, c = percent ∨ c = underscore → motive p → motive (c :: p))
    (trailing : motive [backslash]) (escaped : ∀ c p, motive p → motive (backslash :: c :: p))
    (literal : ∀ c p, c ≠ percent → c ≠ underscore → c ≠ backslash → motive p → motive (c :: p)) :
    ∀ pattern, motive pattern :=
  escape_induction nil wildcard trailing escaped fun c p hwild hescape =>
    literal c p (not_or.mp hwild).1 (not_or.mp hwild).2 hescape

theorem percent_ne_underscore : percent ≠ underscore := by decide

theorem underscore_ne_percent : underscore ≠ percent := by decide

theorem backslash_ne_percent : backslash ≠ percent := by decide

theorem backslash_ne_underscore : backslash ≠ underscore := by decide

theorem endsInEscape_cons {c : UInt16} (h : c ≠ backslash) (p : List UInt16) : endsInEscape (c :: p) = endsInEscape p := by
  cases p <;> simp [endsInEscape, h]

theorem patternLoop_wildcard (c : UInt16) (hwild : c = percent ∨ c = underscore) (p acc : List UInt16) :
    patternLoop (c :: p) acc = patternLoop p (acc ++ pieceText (.any, c = percent)) := by
  rw [patternLoop.eq_def]
  rcases hwild with rfl | rfl
  · simp [pieceText]
  · simp [underscore_ne_percent, pieceText]

theorem likePieces_wildcard (c : UInt16) (hwild : c = percent ∨ c = underscore) (p : List UInt16) :
    likePieces (c :: p) = (likePieces p).map ((Atom.any, decide (c = percent)) :: ·) := by
  rw [likePieces.eq_def]
  rcases hwild with rfl | rfl
  · simp
  · simp [underscore_ne_percent]

section
variable {c : UInt16} (hp : c ≠ percent) (hu : c ≠ underscore) (hb : c ≠ backslash) (p : List UInt16)
include hp hu hb

theorem patternLoop_literal (acc : List UInt16) : patternLoop (c :: p) acc = patternLoop p (acc ++ literal c) := by
  rw [patternLoop.eq_def]
  simp [hp, hu, hb]

theorem likePieces_literal : likePieces (c :: p) = (likePieces p).map ((.unit c, false) :: ·) := by
  rw [likePieces.eq_def]
  simp [hp, hu, hb]

end

theorem patternLoop_escaped (c : UInt16) (p acc : List UInt16) :
    patternLoop (backslash :: c :: p) acc = patternLoop p (acc ++ literal c) := by
  rw [patternLoop, if_neg backslash_ne_percent, if_neg backslash_ne_underscore, if_pos rfl]

theorem likePieces_escaped (c : UInt16) (p : List UInt16) :
    likePieces (backslash :: c :: p) = (likePieces p).map ((.unit c, false) :: ·) := by
  rw [likePieces, if_neg backslash_ne_percent, if_neg backslash_ne_underscore, if_pos rfl]

theorem likePieces_eq_none (pattern : List UInt16) : likePieces pattern = none ↔ endsInEscape pattern = true := by
  induction pattern using pattern_induction with
  | nil => simp [likePieces, endsInEscape]
  | wildcard c p hwild ih =>
    have hb : c ≠ backslash := by
      rcases hwild with rfl | rfl
      · exact backslash_ne_percent.symm
      · exact backslash_ne_underscore.symm
    rw [likePieces_wildcard c hwild, endsInEscape_cons hb, ← ih, Option.map_eq_none_iff]
  | trailing => exact ⟨fun _ => rfl, fun _ => rfl⟩
  | escaped c p ih =>
    have hends : endsInEscape (backslash :: c :: p) = endsInEscape p := by rw [endsInEscape, if_pos rfl]
    rw [likePieces_escaped, hends, ← ih, Option.map_eq_none_iff]
  | literal c p hp hu hb ih => rw [likePieces_literal hp hu hb, endsInEscape_cons hb, ← ih, Option.map_eq_none_iff]

theorem patternLoop_eq (pattern acc : List UInt16) :
    patternLoop pattern acc = match likePieces pattern with
      | none => .error .endsWithEscape
      | some ps => .ok (acc ++ ps.flatMap pieceText) := by
  induction pattern using pattern_induction generalizing acc with
  | nil => simp [patternLoop, likePieces]
  | wildcard c p hwild ih =>
    rw [patternLoop_wildcard c hwild, ih, likePieces_wildcard c hwild]
    cases likePieces p <;> simp
  | trailing => rfl
  | escaped c p ih =>
    rw [patternLoop_escaped, ih, likePieces_escaped]
    cases likePieces p <;> simp [pieceText]
  | literal c p hp hu hb ih =>
    rw [patternLoop_literal hp hu hb, ih, likePieces_literal hp hu hb]
    cases likePieces p <;> simp [pieceText]

theorem likeMatches_nil {s : List UInt16} : LikeMatches [] s ↔ s = [] := by
  constructor
  · intro h
    cases h
    rfl
  · rintro rfl
    exact .nil

theorem likeMatches_cons {c : UInt16} {p s : List UInt16} (h : LikeMatches (c :: p) s) :
    (c = percent ∧ ∃ l t, s = l ++ t ∧ LikeMatches p t) ∨
      (c = underscore ∧ ∃ u t, s = u :: t ∧ LikeMatches p t) ∨
      (c = backslash ∧ ∃ d q t, p = d :: q ∧ s = d :: t ∧ LikeMatches q t) ∨
      (c ≠ percent ∧ c ≠ underscore ∧ c ≠ backslash ∧ ∃ t, s = c :: t ∧ LikeMatches p t) := by
  generalize hq : c :: p = q at h
  cases h with
  | nil => cases hq
  | anySequence l h =>
    obtain ⟨rfl, rfl⟩ := List.cons.inj hq
    exact .inl ⟨rfl, l, _, rfl, h⟩
  | anyUnit u h =>
    obtain ⟨rfl, rfl⟩ := List.cons.inj hq
    exact .inr (.inl ⟨rfl, u, _, rfl, h⟩)
  | escaped d h =>
    obtain ⟨rfl, rfl⟩ := List.cons.inj hq
    exact .inr (.inr (.inl ⟨rfl, d, _, _, rfl, rfl, h⟩))
  | literal d hp hu hb h =>
    obtain ⟨rfl, rfl⟩ := List.cons.inj hq
    exact .inr (.inr (.inr ⟨hp, hu, hb, _, rfl, h⟩))

theorem spells_unit {c : UInt16} {ps : List (Atom × Bool)} {s : List UInt16} :
    Spells ((.unit c, false) :: ps) s ↔ ∃ t, s = c :: t ∧ Spells ps t := by
  constructor
  · intro h
    cases h with
    | once hu h =>
      simp only [Atom.accepts, decide_eq_true_eq] at hu
      exact ⟨_, by rw [hu], h⟩
  · rintro ⟨t, rfl, h⟩
    exact .once (by simp [Atom.accepts]) h

/-- **The pieces of a pattern spell the strings that match it.** -/
theorem likeMatches_iff {pattern : List UInt16} {ps : List (Atom × Bool)} (h : likePieces pattern = some ps)
    (s : List UInt16) : LikeMatches pattern s ↔ Spells ps s := by
  induction pattern using pattern_induction generalizing ps s with
  | nil =>
    obtain rfl := Option.some.inj h
    rw [likeMatches_nil]
    constructor
    · rintro rfl
      exact .nil
    · intro h
      cases h
      rfl
  | wildcard c p hwild ih =>
    rw [likePieces_wildcard c hwild] at h
    obtain ⟨qs, hqs, rfl⟩ := Option.map_eq_some_iff.mp h
    rcases hwild with rfl | rfl
    · constructor
      · intro hm
        obtain ⟨-, l, t, rfl, hrest⟩ | ⟨heq, -⟩ | ⟨heq, -⟩ | ⟨hne, -⟩ := likeMatches_cons hm
        · exact .star l (fun _ _ => rfl) ((ih hqs t).mp hrest)
        · exact absurd heq percent_ne_underscore
        · exact absurd heq.symm backslash_ne_percent
        · exact absurd rfl hne
      · intro hs
        rw [decide_eq_true rfl] at hs
        cases hs with
        | star l _ hs => exact .anySequence l ((ih hqs _).mpr hs)
    · rw [decide_eq_false underscore_ne_percent]
      constructor
      · intro hm
        obtain ⟨heq, -⟩ | ⟨-, u, t, rfl, hrest⟩ | ⟨heq, -⟩ | ⟨-, hne, -⟩ := likeMatches_cons hm
        · exact absurd heq underscore_ne_percent
        · exact .once rfl ((ih hqs t).mp hrest)
        · exact absurd heq.symm backslash_ne_underscore
        · exact absurd rfl hne
      · intro hs
        cases hs with
        | once _ hs => exact .anyUnit _ ((ih hqs _).mpr hs)
  | trailing => cases h
  | escaped c p ih =>
    rw [likePieces_escaped] at h
    obtain ⟨qs, hqs, rfl⟩ := Option.map_eq_some_iff.mp h
    rw [spells_unit]
    constructor
    · intro hm
      obtain ⟨heq, -⟩ | ⟨heq, -⟩ | ⟨-, d, q, t, hp, rfl, hrest⟩ | ⟨-, -, hne, -⟩ := likeMatches_cons hm
      · exact absurd heq backslash_ne_percent
      · exact absurd heq backslash_ne_underscore
      · obtain ⟨rfl, rfl⟩ := List.cons.inj hp
        exact ⟨t, rfl, (ih hqs t).mp hrest⟩
      · exact absurd rfl hne
    · rintro ⟨t, rfl, hs⟩
      exact .escaped c ((ih hqs t).mpr hs)
  | literal c p hp hu hb ih =>
    rw [likePieces_literal hp hu hb] at h
    obtain ⟨qs, hqs, rfl⟩ := Option.map_eq_some_iff.mp h
    rw [spells_unit]
    constructor
    · intro hm
      obtain ⟨heq, -⟩ | ⟨heq, -⟩ | ⟨heq, -⟩ | ⟨-, -, -, t, rfl, hrest⟩ := likeMatches_cons hm
      · exact absurd heq hp
      · exact absurd heq hu
      · exact absurd heq hb
      · exact ⟨t, rfl, (ih hqs t).mp hrest⟩
    · rintro ⟨t, rfl, hs⟩
      exact .literal c hp hu hb ((ih hqs t).mpr hs)

/-! ## The text -/

theorem specialCharsRe_eq (c : UInt16) : specialCharsRe c = syntaxCharacter c := by
  rw [Bool.eq_iff_iff]
  simp only [specialCharsRe, syntaxCharacter, List.contains_iff_mem, List.mem_cons, List.not_mem_nil, or_false]
  tauto

/-- The tokens of a piece. -/
def pieceTokens : Atom × Bool → List Token
  | (a, true) => [.atom a, .star]
  | (a, false) => [.atom a]

theorem tokens_cons {c : UInt16} {token : Token} (hb : c ≠ backslash) (h : tokenOf c = some token) (text : List UInt16) :
    tokens (c :: text) = (tokens text).map (token :: ·) := by
  rw [tokens.eq_def]
  simp only [if_neg hb, h]
  cases tokens text <;> rfl

theorem tokens_literal (c : UInt16) (text : List UInt16) :
    tokens (literal c ++ text) = (tokens text).map (.atom (.unit c) :: ·) := by
  unfold literal
  rw [specialCharsRe_eq]
  cases hc : syntaxCharacter c with
  | true =>
    rw [if_pos rfl, List.cons_append, List.singleton_append, tokens.eq_def]
    simp [hc]
  | false =>
    have hne : ∀ d, syntaxCharacter d = true → c ≠ d := by
      rintro d hd rfl
      cases hc.symm.trans hd
    have htoken : tokenOf c = some (.atom (.unit c)) := by
      rw [tokenOf, if_neg (hne caret (by decide)), if_neg (hne dollar (by decide)), if_neg (hne asterisk (by decide)),
        if_neg (hne dot (by decide)), hc]
      rfl
    rw [if_neg Bool.false_ne_true, List.singleton_append]
    exact tokens_cons (hne backslash (by decide)) htoken text

theorem tokens_pieceText {ps : List (Atom × Bool)} (h : ∀ p ∈ ps, IsLikePiece p) (text : List UInt16) :
    tokens (ps.flatMap pieceText ++ text) = (tokens text).map (ps.flatMap pieceTokens ++ ·) := by
  induction ps with
  | nil => simp
  | cons p ps ih =>
    have ih := ih fun q hq => h q (List.mem_cons_of_mem _ hq)
    have hp := h p List.mem_cons_self
    have hdot : ∀ text, tokens (dot :: text) = (tokens text).map (.atom .any :: ·) :=
      tokens_cons (by decide) (by decide)
    have hstar : ∀ text, tokens (asterisk :: text) = (tokens text).map (.star :: ·) :=
      tokens_cons (by decide) (by decide)
    rw [List.flatMap_cons, List.flatMap_cons, List.append_assoc]
    match p with
    | (.any, true) =>
      simp only [pieceText, pieceTokens, List.cons_append, List.nil_append, hdot, hstar, ih, Option.map_map]
      rfl
    | (.any, false) =>
      simp only [pieceText, pieceTokens, List.cons_append, List.nil_append, hdot, ih, Option.map_map]
      rfl
    | (.unit c, false) =>
      simp only [pieceText, pieceTokens, List.cons_append, List.nil_append, tokens_literal, ih, Option.map_map]
      rfl
    | (.unit c, true) => cases hp rfl

/-- An atom that no `*` follows is matched once. -/
theorem terms_atom {a : Atom} {ts : List Token} (h : ts.head? ≠ some .star) :
    terms (.atom a :: ts) = (terms ts).map (.piece a false :: ·) := by
  cases ts with
  | nil => rfl
  | cons t ts =>
    cases t with
    | star => exact absurd rfl h
    | caret | dollar | atom _ => rfl

theorem terms_pieceTokens (ps : List (Atom × Bool)) :
    terms (ps.flatMap pieceTokens ++ [.dollar]) = some (ps.map (fun p => .piece p.1 p.2) ++ [.finish]) := by
  induction ps with
  | nil => rfl
  | cons p ps ih =>
    rw [List.flatMap_cons, List.append_assoc]
    match p with
    | (a, true) =>
      simp only [pieceTokens, List.cons_append, List.nil_append, terms, ih]
      rfl
    | (a, false) =>
      have hnext : (ps.flatMap pieceTokens ++ [Token.dollar]).head? ≠ some Token.star := by
        match ps with
        | [] => exact nofun
        | (_, true) :: _ | (_, false) :: _ => exact nofun
      simp only [pieceTokens, List.cons_append, List.nil_append, terms_atom hnext, ih]
      rfl

/-- The pieces of a pattern repeat nothing but `%`. -/
theorem isLikePiece_of_mem {pattern : List UInt16} {ps : List (Atom × Bool)} (h : likePieces pattern = some ps) :
    ∀ p ∈ ps, IsLikePiece p := by
  induction pattern using pattern_induction generalizing ps with
  | nil =>
    obtain rfl := Option.some.inj h
    simp
  | wildcard c p hwild ih =>
    rw [likePieces_wildcard c hwild] at h
    obtain ⟨qs, hqs, rfl⟩ := Option.map_eq_some_iff.mp h
    exact List.forall_mem_cons.mpr ⟨fun _ => rfl, ih hqs⟩
  | trailing => cases h
  | escaped c p ih =>
    rw [likePieces_escaped] at h
    obtain ⟨qs, hqs, rfl⟩ := Option.map_eq_some_iff.mp h
    exact List.forall_mem_cons.mpr ⟨nofun, ih hqs⟩
  | literal c p hp hu hb ih =>
    rw [likePieces_literal hp hu hb] at h
    obtain ⟨qs, hqs, rfl⟩ := Option.map_eq_some_iff.mp h
    exact List.forall_mem_cons.mpr ⟨nofun, ih hqs⟩

theorem patternToRegExp_eq {pattern : List UInt16} {ps : List (Atom × Bool)} (h : likePieces pattern = some ps) :
    patternToRegExp pattern = .ok (anchored ps) := by
  have htokens : tokens ([caret] ++ ps.flatMap pieceText ++ [dollar]) =
      some (.caret :: (ps.flatMap pieceTokens ++ [.dollar])) := by
    have hcaret : ∀ text, tokens (caret :: text) = (tokens text).map (.caret :: ·) := tokens_cons (by decide) (by decide)
    have hdollar : tokens [dollar] = some [.dollar] := by decide
    rw [List.append_assoc, List.singleton_append, hcaret, tokens_pieceText (isLikePiece_of_mem h), hdollar]
    rfl
  have hparse : parse ([caret] ++ ps.flatMap pieceText ++ [dollar]) = some (anchored ps) := by
    rw [parse, htokens]
    show (terms (ps.flatMap pieceTokens ++ [.dollar])).map _ = _
    rw [terms_pieceTokens]
    rfl
  rw [patternToRegExp, patternLoop_eq, h]
  show (match parse ([caret] ++ ps.flatMap pieceText ++ [dollar]) with
    | some re => Except.ok re
    | none => Except.error LikeError.invalidRegExp) = _
  rw [hparse]

/-! ## The predicate -/

theorem likePieces_plain {pattern : List UInt16} (h : likePatternRe pattern = false) :
    likePieces pattern = some (pattern.map fun c => (.unit c, false)) := by
  induction pattern with
  | nil => rfl
  | cons c p ih =>
    simp only [likePatternRe, List.any_cons, Bool.or_eq_false_iff, decide_eq_false_iff_not] at h
    obtain ⟨⟨⟨hu, hp⟩, hb⟩, hrest⟩ := h
    rw [likePieces_literal hp hu hb, ih hrest]
    rfl

theorem spells_plain (pattern s : List UInt16) :
    Spells (pattern.map fun c => (.unit c, false)) s ↔ s = pattern := by
  induction pattern generalizing s with
  | nil =>
    constructor
    · intro h
      cases h
      rfl
    · rintro rfl
      exact .nil
  | cons c p ih =>
    rw [List.map_cons, spells_unit]
    constructor
    · rintro ⟨t, rfl, h⟩
      rw [(ih t).mp h]
    · rintro rfl
      exact ⟨p, rfl, (ih p).mpr rfl⟩

theorem getLikeOp_pieces {pattern : List UInt16} {ps : List (Atom × Bool)} (h : likePieces pattern = some ps) :
    ∃ op, getLikeOp pattern = .ok op ∧ ∀ s, op s = true ↔ Spells ps s := by
  cases hre : likePatternRe pattern with
  | false =>
    obtain rfl := Option.some.inj (h.symm.trans (likePieces_plain hre))
    refine ⟨fun lhs => lhs = pattern, by rw [getLikeOp, hre]; rfl, fun s => ?_⟩
    rw [spells_plain, decide_eq_true_eq]
  | true =>
    refine ⟨fun lhs => test (anchored ps) lhs, ?_, fun s => test_anchored⟩
    rw [getLikeOp, hre, patternToRegExp_eq h]
    rfl

theorem getLikeOp_trailing {pattern : List UInt16} (h : likePieces pattern = none) :
    getLikeOp pattern = .error .endsWithEscape := by
  have hre : likePatternRe pattern = true := by
    cases hre : likePatternRe pattern with
    | true => rfl
    | false => cases h.symm.trans (likePieces_plain hre)
  rw [getLikeOp, hre, patternToRegExp, patternLoop_eq, h]
  rfl

/-- **The predicate of a pattern is LIKE.** Building it throws exactly if the pattern ends in an unescaped backslash, and
what is built holds of the strings that match the pattern. -/
theorem getLikePredicate_spec (pattern : List UInt16) :
    ((∃ e, getLikePredicate pattern = .error e) ↔ endsInEscape pattern = true) ∧
    ∀ predicate, getLikePredicate pattern = .ok predicate → ∀ s, predicate s = true ↔ LikeMatches pattern s := by
  cases hps : likePieces pattern with
  | none =>
    have herror : getLikePredicate pattern = .error .endsWithEscape := by
      rw [getLikePredicate, getLikeOp_trailing hps]
      rfl
    exact ⟨⟨fun _ => (likePieces_eq_none pattern).mp hps, fun _ => ⟨_, herror⟩⟩,
      fun predicate hok => (by cases herror.symm.trans hok)⟩
  | some ps =>
    obtain ⟨op, hop, hspells⟩ := getLikeOp_pieces hps
    have hok : getLikePredicate pattern = .ok op := by
      rw [getLikePredicate, hop]
      rfl
    refine ⟨⟨fun ⟨e, he⟩ => (by cases he.symm.trans hok), fun hends => ?_⟩, fun predicate hpredicate s => ?_⟩
    · cases hps.symm.trans ((likePieces_eq_none pattern).mpr hends)
    · obtain rfl := Except.ok.inj (hok.symm.trans hpredicate)
      rw [hspells, likeMatches_iff hps]

end ZeroSync.Like
