/-
Regular expressions as ECMAScript reads them from text, without the flags `m` and `u`
and with `s`: of its grammar the assertions `^` and `$`, the atoms `.`, pattern
characters and escaped syntax characters, and the quantifier `*`. A text with anything
else is read as `none`.

A string is a list of UTF-16 code units, and an atom matches one. The matcher tries the
greatest number of repetitions first and the starts of the string from left to right; an
expression between `^` and `$` matches the strings its pieces spell (`test_anchored`).
-/
import Mathlib.Data.List.Basic
import Mathlib.Data.Nat.Notation

namespace RegExpText

/-- `Atom`. -/
inductive Atom
  | any
  | unit (c : UInt16)
  deriving DecidableEq

/-- `Term`: an assertion, or an atom, repeated any number of times or not at all. -/
inductive Term
  | start
  | finish
  | piece (atom : Atom) (star : Bool)
  deriving DecidableEq

/-! ## Reading -/

inductive Token
  | caret
  | dollar
  | star
  | atom (atom : Atom)
  deriving DecidableEq

def backslash : UInt16 := 0x5C
def caret : UInt16 := 0x5E
def dollar : UInt16 := 0x24
def dot : UInt16 := 0x2E
def asterisk : UInt16 := 0x2A

/-- `SyntaxCharacter`: one of `^ $ \ . * + ? ( ) [ ] { } |`. -/
def syntaxCharacter (c : UInt16) : Bool :=
  [0x5E, 0x24, 0x5C, 0x2E, 0x2A, 0x2B, 0x3F, 0x28, 0x29, 0x5B, 0x5D, 0x7B, 0x7D, 0x7C].contains c

/-- The token of a unit that is not a backslash. -/
def tokenOf (c : UInt16) : Option Token :=
  if c = caret then some .caret
  else if c = dollar then some .dollar
  else if c = asterisk then some .star
  else if c = dot then some (.atom .any)
  else if syntaxCharacter c then none
  else some (.atom (.unit c))

def tokens : List UInt16 → Option (List Token)
  | [] => some []
  | c :: text =>
    if c = backslash then
      match text with
      | [] => none
      | c :: text => if syntaxCharacter c then (tokens text).map (.atom (.unit c) :: ·) else none
    else do
      let token ← tokenOf c
      let rest ← tokens text
      return token :: rest

def terms : List Token → Option (List Term)
  | [] => some []
  | .caret :: ts => (terms ts).map (.start :: ·)
  | .dollar :: ts => (terms ts).map (.finish :: ·)
  | .atom a :: .star :: ts => (terms ts).map (.piece a true :: ·)
  | .atom a :: ts => (terms ts).map (.piece a false :: ·)
  | .star :: _ => none

/-- `new RegExp(text, 's')`. -/
def parse (text : List UInt16) : Option (List Term) := tokens text >>= terms

/-! ## Matching -/

def Atom.accepts : Atom → UInt16 → Bool
  | any, _ => true
  | unit c, u => u = c

/-- `RepeatMatcher`, then the continuation. -/
def repeatMatcher (a : Atom) (k : ℕ → List UInt16 → Bool) : ℕ → List UInt16 → Bool
  | n, [] => k n []
  | n, u :: rest => (a.accepts u && repeatMatcher a k (n + 1) rest) || k n (u :: rest)

/-- The terms match at an index, before the rest of the string. -/
def matchTerms : List Term → ℕ → List UInt16 → Bool
  | [], _, _ => true
  | .start :: ts, n, rest => n = 0 && matchTerms ts n rest
  | .finish :: ts, n, rest => rest.isEmpty && matchTerms ts n rest
  | .piece _ false :: _, _, [] => false
  | .piece a false :: ts, n, u :: rest => a.accepts u && matchTerms ts (n + 1) rest
  | .piece a true :: ts, n, rest => repeatMatcher a (matchTerms ts) n rest

/-- `test`. -/
def test (ts : List Term) (input : List UInt16) : Bool :=
  (List.range (input.length + 1)).any fun n => matchTerms ts n (input.drop n)

/-- What a sequence of pieces, each repeated or not, spells. -/
inductive Spells : List (Atom × Bool) → List UInt16 → Prop
  | nil : Spells [] []
  | once {a u ps s} : a.accepts u = true → Spells ps s → Spells ((a, false) :: ps) (u :: s)
  | star {a ps s} (l : List UInt16) : (∀ u ∈ l, a.accepts u = true) → Spells ps s → Spells ((a, true) :: ps) (l ++ s)

/-- An expression anchored at both ends. -/
def anchored (ps : List (Atom × Bool)) : List Term :=
  .start :: (ps.map (fun p => .piece p.1 p.2) ++ [.finish])

theorem repeatMatcher_iff {a : Atom} {k : ℕ → List UInt16 → Bool} {n : ℕ} {rest : List UInt16} :
    repeatMatcher a k n rest = true ↔
      ∃ l s, rest = l ++ s ∧ (∀ u ∈ l, a.accepts u = true) ∧ k (n + l.length) s = true := by
  induction rest generalizing n with
  | nil =>
    constructor
    · intro h
      exact ⟨[], [], rfl, by simp, h⟩
    · rintro ⟨l, s, hrest, -, h⟩
      obtain ⟨rfl, rfl⟩ := List.append_eq_nil_iff.mp hrest.symm
      exact h
  | cons u rest ih =>
    simp only [repeatMatcher, Bool.or_eq_true, Bool.and_eq_true, ih]
    constructor
    · rintro (⟨hu, l, s, rfl, hl, h⟩ | h)
      · refine ⟨u :: l, s, rfl, by simpa [hu] using hl, ?_⟩
        rwa [List.length_cons, Nat.add_comm l.length, ← Nat.add_assoc]
      · exact ⟨[], u :: rest, rfl, by simp, h⟩
    · rintro ⟨l, s, hrest, hl, h⟩
      cases l with
      | nil => exact .inr (by rw [hrest]; exact h)
      | cons v l =>
        obtain ⟨rfl, rfl⟩ := List.cons.inj hrest
        refine .inl ⟨hl _ List.mem_cons_self, l, s, rfl, fun w hw => hl w (List.mem_cons_of_mem _ hw), ?_⟩
        rwa [List.length_cons, Nat.add_comm l.length, ← Nat.add_assoc] at h

theorem matchTerms_iff {ps : List (Atom × Bool)} {n : ℕ} {rest : List UInt16} :
    matchTerms (ps.map (fun p => .piece p.1 p.2) ++ [.finish]) n rest = true ↔ Spells ps rest := by
  induction ps generalizing n rest with
  | nil =>
    simp only [List.map_nil, List.nil_append, matchTerms, Bool.and_true, List.isEmpty_iff]
    constructor
    · rintro rfl
      exact .nil
    · intro h
      cases h
      rfl
  | cons p ps ih =>
    obtain ⟨a, star⟩ := p
    cases star with
    | true =>
      simp only [List.map_cons, List.cons_append, matchTerms, repeatMatcher_iff, ih]
      constructor
      · rintro ⟨l, s, rfl, hl, h⟩
        exact .star l hl h
      · intro h
        cases h with
        | star l hl h => exact ⟨l, _, rfl, hl, h⟩
    | false =>
      cases rest with
      | nil =>
        simp only [List.map_cons, List.cons_append, matchTerms]
        exact ⟨nofun, nofun⟩
      | cons u rest =>
        simp only [List.map_cons, List.cons_append, matchTerms, Bool.and_eq_true, ih]
        constructor
        · rintro ⟨hu, h⟩
          exact .once hu h
        · intro h
          cases h with
          | once hu h => exact ⟨hu, h⟩

/-- **An anchored expression matches the strings its pieces spell.** -/
theorem test_anchored {ps : List (Atom × Bool)} {input : List UInt16} :
    test (anchored ps) input = true ↔ Spells ps input := by
  rw [test, List.any_eq_true]
  constructor
  · rintro ⟨n, -, h⟩
    rw [anchored, matchTerms, Bool.and_eq_true, decide_eq_true_eq] at h
    obtain ⟨rfl, h⟩ := h
    exact matchTerms_iff.mp h
  · intro h
    refine ⟨0, List.mem_range.mpr (Nat.succ_pos _), ?_⟩
    rw [anchored, matchTerms, Bool.and_eq_true, decide_eq_true_eq]
    exact ⟨rfl, matchTerms_iff.mpr h⟩

end RegExpText
