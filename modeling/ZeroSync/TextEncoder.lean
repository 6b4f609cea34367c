/-
Strings of UTF-16 code units and their encoding in UTF-8, as the `TextEncoder` of the web
platform does it.

A string is read as scalar values: two units that are a surrogate pair as one, a lone
surrogate as U+FFFD, every other unit as itself. Each comes with the number of units it
was read from. `encode` encodes all of them, `encodeInto` as many as fit.
-/
import Mathlib

namespace TextEncoder

/-- A string: its UTF-16 code units. -/
abbrev Units := List UInt16

def isHigh (u : UInt16) : Bool := 0xD800 ≤ u.toNat && u.toNat < 0xDC00

def isLow (u : UInt16) : Bool := 0xDC00 ≤ u.toNat && u.toNat < 0xE000

/-- The scalar value of a unit that is not part of a pair. -/
def scalarOf (u : UInt16) : Char :=
  if isHigh u || isLow u then '\uFFFD' else Char.ofNat u.toNat

/-- The scalar value of a surrogate pair. -/
def scalarOfPair (u v : UInt16) : Char :=
  Char.ofNat (0x10000 + (u.toNat - 0xD800) * 0x400 + (v.toNat - 0xDC00))

/-- The scalar values of a string, each with the units it takes. -/
def scalars : Units → List (Char × ℕ)
  | [] => []
  | [u] => [(scalarOf u, 1)]
  | u :: v :: rest =>
    if isHigh u && isLow v then
      (scalarOfPair u v, 2) :: scalars rest
    else
      (scalarOf u, 1) :: scalars (v :: rest)

/-- The text of a string: its scalar values alone. -/
def text (s : Units) : List Char := (scalars s).map (·.1)

/-- UTF-8. -/
def utf8 (chars : List Char) : List UInt8 := chars.flatMap String.utf8EncodeChar

/-- `TextEncoder.encode`. -/
def encode (s : Units) : List UInt8 := utf8 (text s)

/-- The scalar values at the start that fit into some bytes. -/
def fitting : ℕ → List (Char × ℕ) → List (Char × ℕ)
  | _, [] => []
  | space, (c, n) :: rest => if c.utf8Size ≤ space then (c, n) :: fitting (space - c.utf8Size) rest else []

/-- What `TextEncoder.encodeInto` returns, and the bytes it writes. -/
structure EncodeIntoResult where
  read : ℕ
  written : List UInt8

/-- `TextEncoder.encodeInto`, into a destination of some bytes. -/
def encodeInto (source : Units) (space : ℕ) : EncodeIntoResult :=
  let taken := fitting space (scalars source)
  { read := (taken.map (·.2)).sum, written := utf8 (taken.map (·.1)) }

/-! ## Scalar values -/

theorem utf8_append (l l' : List Char) : utf8 (l ++ l') = utf8 l ++ utf8 l' := List.flatMap_append

theorem scalars_eq_nil {s : Units} (h : scalars s = []) : s = [] := by
  cases s using scalars.fun_cases with
  | case1 => rfl
  | case2 u => simp [scalars] at h
  | case3 u v rest hpair => simp [scalars, hpair] at h
  | case4 u v rest hpair => simp [scalars, hpair] at h

theorem length_scalars_le (s : Units) : (scalars s).length ≤ s.length := by
  induction s using scalars.induct with
  | case1 => exact Nat.le_refl _
  | case2 u => exact Nat.le_refl _
  | case3 u v rest hpair ih =>
    rw [scalars, if_pos hpair]
    simp only [List.length_cons]
    omega
  | case4 u v rest hpair ih =>
    rw [scalars, if_neg hpair]
    simp only [List.length_cons] at ih ⊢
    omega

theorem scalars_drop_head {s : Units} {c : Char} {n : ℕ} {rest : List (Char × ℕ)} (h : scalars s = (c, n) :: rest) :
    0 < n ∧ scalars (s.drop n) = rest := by
  cases s using scalars.fun_cases with
  | case1 => simp [scalars] at h
  | case2 u =>
    obtain ⟨hhead, hrest⟩ := List.cons.inj h
    obtain ⟨-, rfl⟩ := Prod.mk.inj hhead
    exact ⟨by decide, hrest⟩
  | case3 u v us hpair =>
    rw [scalars, if_pos hpair] at h
    obtain ⟨hhead, hrest⟩ := List.cons.inj h
    obtain ⟨-, rfl⟩ := Prod.mk.inj hhead
    exact ⟨by decide, hrest⟩
  | case4 u v us hpair =>
    rw [scalars, if_neg hpair] at h
    obtain ⟨hhead, hrest⟩ := List.cons.inj h
    obtain ⟨-, rfl⟩ := Prod.mk.inj hhead
    exact ⟨by decide, hrest⟩

theorem scalars_drop {s : Units} {taken rest : List (Char × ℕ)} (h : scalars s = taken ++ rest) :
    scalars (s.drop (taken.map (·.2)).sum) = rest := by
  induction taken generalizing s with
  | nil => exact h
  | cons e taken ih =>
    obtain ⟨c, n⟩ := e
    obtain ⟨-, hdrop⟩ := scalars_drop_head h
    rw [List.map_cons, List.sum_cons, ← List.drop_drop]
    exact ih hdrop

theorem scalars_append_cons {u : UInt16} (hu : isLow u = false) (s s' : Units) :
    scalars (s ++ u :: s') = scalars s ++ scalars (u :: s') := by
  induction s using scalars.induct with
  | case1 => rfl
  | case2 v => simp [scalars, hu]
  | case3 v w rest hpair ih => simp [scalars, hpair, ih]
  | case4 v w rest hpair ih =>
    have ih : scalars (w :: (rest ++ u :: s')) = scalars (w :: rest) ++ scalars (u :: s') := ih
    simp [scalars, hpair, ih]

theorem scalars_cons {u : UInt16} (hu : isHigh u = false) (s : Units) :
    scalars (u :: s) = (scalarOf u, 1) :: scalars s := by
  cases s <;> simp [scalars, hu]

/-! ## What fits -/

theorem fitting_prefix (space : ℕ) (l : List (Char × ℕ)) : ∃ rest, l = fitting space l ++ rest := by
  induction l generalizing space with
  | nil => exact ⟨[], rfl⟩
  | cons e l ih =>
    obtain ⟨c, n⟩ := e
    unfold fitting
    split
    · obtain ⟨rest, hrest⟩ := ih (space - c.utf8Size)
      exact ⟨rest, congrArg _ hrest⟩
    · exact ⟨_, rfl⟩

theorem length_utf8_fitting (space : ℕ) (l : List (Char × ℕ)) :
    (utf8 ((fitting space l).map (·.1))).length ≤ space := by
  induction l generalizing space with
  | nil => simp [fitting, utf8]
  | cons e l ih =>
    obtain ⟨c, n⟩ := e
    unfold fitting
    split
    · rename_i hfits
      have hrest := ih (space - c.utf8Size)
      simp only [utf8, List.map_cons, List.flatMap_cons, List.length_append, String.length_utf8EncodeChar] at hrest ⊢
      omega
    · simp [utf8]

theorem fitting_ne_nil {space : ℕ} {l : List (Char × ℕ)} (hspace : 4 ≤ space) (hl : l ≠ []) : fitting space l ≠ [] := by
  cases l with
  | nil => exact absurd rfl hl
  | cons e l =>
    obtain ⟨c, n⟩ := e
    rw [fitting, if_pos (Nat.le_trans c.utf8Size_le_four hspace)]
    exact List.cons_ne_nil _ _

end TextEncoder
