/-
JSON values and their texts, as `JSON.stringify` writes them without blanks.
-/
import Mathlib.Data.String.Basic

namespace ZeroSync.JSONText

/-- A number or a bigint is given by its text. -/
inductive JSONValue
  | null
  | boolean (b : Bool)
  | number (text : List Char)
  | string (s : List Char)
  | array (elements : List JSONValue)
  | object (members : List (List Char × JSONValue))

/-- The characters that JSON does not take as they are. -/
def needsEscape (c : Char) : Bool := c = '\"' ∨ c = '\\' ∨ c.toNat < 32

def escape (c : Char) : List Char :=
  if c = '\"' then ['\\', '\"']
  else if c = '\\' then ['\\', '\\']
  else if c.toNat = 8 then ['\\', 'b']
  else if c.toNat = 9 then ['\\', 't']
  else if c.toNat = 10 then ['\\', 'n']
  else if c.toNat = 12 then ['\\', 'f']
  else if c.toNat = 13 then ['\\', 'r']
  else if c.toNat < 32 then ['\\', 'u', '0', '0', (c.toNat / 16).digitChar, (c.toNat % 16).digitChar]
  else [c]

def quote (s : List Char) : List Char := '\"' :: (s.flatMap escape ++ ['\"'])

/-- `join(',')` -/
def joined : List (List Char) → List Char
  | [] => []
  | [text] => text
  | text :: texts => text ++ ',' :: joined texts

mutual

/-- `JSON.stringify`, and `BigIntJSON.stringify` -/
def stringify : JSONValue → List Char
  | .null => ['n', 'u', 'l', 'l']
  | .boolean true => ['t', 'r', 'u', 'e']
  | .boolean false => ['f', 'a', 'l', 's', 'e']
  | .number text => text
  | .string s => quote s
  | .array elements => '[' :: (joined (elementTexts elements) ++ [']'])
  | .object members => '\x7b' :: (joined (memberTexts members) ++ ['\x7d'])

def elementTexts : List JSONValue → List (List Char)
  | [] => []
  | element :: elements => stringify element :: elementTexts elements

def memberTexts : List (List Char × JSONValue) → List (List Char)
  | [] => []
  | (name, value) :: members => (quote name ++ ':' :: stringify value) :: memberTexts members

end

theorem flatMap_escape {s : List Char} (h : ∀ c ∈ s, needsEscape c = false) : s.flatMap escape = s := by
  induction s with
  | nil => rfl
  | cons c s ih =>
    have hc := h c List.mem_cons_self
    simp only [needsEscape, decide_eq_false_iff_not, not_or, not_lt] at hc
    obtain ⟨hquote, hbackslash, hcontrol⟩ := hc
    have hescape : escape c = [c] := by
      unfold escape
      rw [if_neg hquote, if_neg hbackslash, if_neg (by omega), if_neg (by omega), if_neg (by omega), if_neg (by omega),
        if_neg (by omega), if_neg (by omega)]
    rw [List.flatMap_cons, hescape, ih fun c hmem => h c (List.mem_cons_of_mem _ hmem)]
    rfl

theorem quote_ne (s : List Char) : quote s ≠ s := by
  intro heq
  have hlength := congrArg List.length heq
  have hescape : ∀ c ∈ s, 1 ≤ (escape c).length := by
    intro c _
    unfold escape
    split_ifs <;> simp
  have hle : s.length ≤ (s.flatMap escape).length := by
    clear heq hlength
    induction s with
    | nil => exact le_rfl
    | cons c s ih =>
      have hc := hescape c List.mem_cons_self
      have hs := ih fun d hd => hescape d (List.mem_cons_of_mem _ hd)
      rw [List.flatMap_cons, List.length_append, List.length_cons]
      omega
  rw [quote, List.length_cons, List.length_append] at hlength
  omega

end ZeroSync.JSONText
