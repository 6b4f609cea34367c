/-
`ivm/data.ts`: values, rows and their comparisons.

`compareValues` identifies `null` and `undefined` and puts them first;
`valuesEqual` makes them unequal to everything, themselves included. A row is
the function from column to value its property reads compute: an absent
column reads as `undefined`.

Values of the `json` type are left out: the source can neither compare them
(`compareValues` throws) nor find them equal (`===` on objects). Strings are
sequences of code points, in the order `compareUTF8` gives them.
-/
import Mathlib.Data.Prod.Lex
import Mathlib.Algebra.Order.Ring.Rat
import Mathlib.Data.String.Basic
import ZeroSync.OrderedMap

namespace ZeroSync

/-- `Value`. -/
inductive Value
  | undefined
  | null
  | bool (b : Bool)
  | num (n : ℚ)
  | str (s : String)
  deriving DecidableEq

/-- `Row`. -/
abbrev Row := String → Value

/-- `Comparator`: the sign of the number the source returns. -/
abbrev Comparator := Row → Row → Ordering

/-- `normalizeUndefined`. -/
def normalizeUndefined : Value → Value
  | .undefined => .null
  | v => v

/-- The place of a value's type in the order. -/
def Value.rank : Value → ℕ
  | .undefined | .null => 0
  | .bool _ => 1
  | .num _ => 2
  | .str _ => 3

/-- `compareValues`. Two values of different types, which the source refuses
to compare, are put in the order of their types. -/
def compareValues (a b : Value) : Ordering :=
  match normalizeUndefined a, normalizeUndefined b with
  | .str a, .str b => compare a b
  | .num a, .num b => compare a b
  | .bool a, .bool b => compare a b
  | a, b => compare a.rank b.rank

/-- `valuesEqual`: `null` and `undefined` equal nothing. -/
def valuesEqual (a b : Value) : Bool :=
  if a = .undefined ∨ a = .null ∨ b = .undefined ∨ b = .null then false else a = b

/-- `'asc' | 'desc'`. -/
inductive Direction
  | asc
  | desc
  deriving DecidableEq

/-- `Ordering`, the columns a query sorts by. -/
abbrev SortOrder := List (String × Direction)

/-- One `OrderPart` as a comparator. -/
def compareField (ord : String × Direction) : Comparator := fun a b =>
  match ord.2 with
  | .asc => compareValues (a ord.1) (b ord.1)
  | .desc => (compareValues (a ord.1) (b ord.1)).swap

/-- `makeComparator`. -/
def makeComparator : SortOrder → Comparator
  | [], _, _ => .eq
  | ord :: order, a, b => (compareField ord a b).then (makeComparator order a b)

/-! ## `compareValues` is a total preorder -/

/-- A value as a triple whose lexicographic order is `compareValues`. -/
def Value.key : Value → ℕ ×ₗ ℚ ×ₗ String
  | .undefined | .null => toLex (0, toLex (0, ""))
  | .bool b => toLex (1, toLex (if b then 1 else 0, ""))
  | .num n => toLex (2, toLex (n, ""))
  | .str s => toLex (3, toLex (0, s))

theorem compareValues_eq_key (a b : Value) : compareValues a b = compare a.key b.key := by
  have hlex {α β : Type} [Ord α] [Ord β] (x y : α × β) :
      compare (toLex x) (toLex y) = (compare x.1 y.1).then (compare x.2 y.2) := rfl
  cases a <;> cases b <;>
    simp only [compareValues, normalizeUndefined, Value.key, Value.rank, hlex] <;>
    try simp [Ordering.then]
  case bool.bool a b => cases a <;> cases b <;> decide
  case num.num a b => cases compare a b <;> rfl

instance : Std.TransCmp compareValues where
  eq_swap {a b} := by
    rw [compareValues_eq_key, compareValues_eq_key]
    exact Std.OrientedCmp.eq_swap
  isLE_trans {a b c} hab hbc := by
    rw [compareValues_eq_key] at *
    exact Std.TransCmp.isLE_trans hab hbc

/-- Values compare equal when they differ at most as `null` and `undefined` do. -/
theorem compareValues_eq_iff {a b : Value} :
    compareValues a b = .eq ↔ normalizeUndefined a = normalizeUndefined b := by
  cases a <;> cases b <;> simp [compareValues, normalizeUndefined, Value.rank]

theorem valuesEqual_iff {a b : Value} :
    valuesEqual a b = true ↔ a = b ∧ a ≠ .undefined ∧ a ≠ .null := by
  unfold valuesEqual
  split
  · next h => constructor
              · intro h'; cases h'
              · rintro ⟨rfl, h₁, h₂⟩; simp_all
  · next h => simp only [not_or] at h
              simp [h.1, h.2.1]

theorem valuesEqual_comm (a b : Value) : valuesEqual a b = valuesEqual b a := by
  rw [Bool.eq_iff_iff, valuesEqual_iff, valuesEqual_iff]
  constructor <;> rintro ⟨rfl, h⟩ <;> exact ⟨rfl, h⟩

/-! ## Row comparators -/

instance (ord : String × Direction) : Std.TransCmp (compareField ord) := by
  obtain ⟨f, d⟩ := ord
  cases d with
  | asc =>
    have h (a b : Row) : compareField (f, .asc) a b = compareValues (a f) (b f) := rfl
    exact { eq_swap := by intro a b; rw [h, h]; exact Std.OrientedCmp.eq_swap
            isLE_trans := by intro a b c hab hbc; rw [h] at *; exact Std.TransCmp.isLE_trans hab hbc }
  | desc =>
    have h (a b : Row) : compareField (f, .desc) a b = compareValues (b f) (a f) := by
      have hswap : compareValues (b f) (a f) = (compareValues (a f) (b f)).swap := Std.OrientedCmp.eq_swap
      rw [hswap, compareField]
    exact { eq_swap := by intro a b; rw [h, h]; exact Std.OrientedCmp.eq_swap
            isLE_trans := by intro a b c hab hbc; rw [h] at *; exact Std.TransCmp.isLE_trans hbc hab }

theorem makeComparator_cons (ord : String × Direction) (order : SortOrder) :
    makeComparator (ord :: order) = compareLex (compareField ord) (makeComparator order) := rfl

instance (order : SortOrder) : Std.TransCmp (makeComparator order) := by
  induction order with
  | nil => exact { eq_swap := rfl, isLE_trans := fun _ _ => rfl }
  | cons ord order ih => rw [makeComparator_cons]; infer_instance

theorem makeComparator_eq_iff {order : SortOrder} {a b : Row} :
    makeComparator order a b = .eq ↔ ∀ ord ∈ order, compareValues (a ord.1) (b ord.1) = .eq := by
  induction order with
  | nil => simp [makeComparator]
  | cons ord order ih =>
    have hfield : compareField ord a b = .eq ↔ compareValues (a ord.1) (b ord.1) = .eq := by
      obtain ⟨f, d⟩ := ord
      cases d <;> simp [compareField]
    rw [makeComparator, Ordering.then_eq_eq, hfield, ih]
    simp

end ZeroSync
