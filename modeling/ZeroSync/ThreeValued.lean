/-
The truth values of SQL: true, false and `NULL`, which is `none`.

A conjunction is false when one of its members is, and a disjunction true;
short of that one `NULL` makes them `NULL`.
-/
import Mathlib.Data.Option.Basic

namespace ThreeValued

abbrev Truth := Option Bool

namespace Truth

protected def not : Truth → Truth := Option.map (! ·)

protected def and : Truth → Truth → Truth
  | some false, _ => some false
  | some true, b => b
  | none, some false => some false
  | none, _ => none

protected def or : Truth → Truth → Truth
  | some true, _ => some true
  | some false, b => b
  | none, some true => some true
  | none, _ => none

theorem not_eq_true_iff {a : Truth} : a.not = some true ↔ a = some false := by
  rcases a with _ | _ | _ <;> simp [Truth.not]

theorem and_eq_true_iff {a b : Truth} : a.and b = some true ↔ a = some true ∧ b = some true := by
  rcases a with _ | _ | _ <;> rcases b with _ | _ | _ <;> simp [Truth.and]

theorem or_eq_true_iff {a b : Truth} : a.or b = some true ↔ a = some true ∨ b = some true := by
  rcases a with _ | _ | _ <;> rcases b with _ | _ | _ <;> simp [Truth.or]

theorem or_eq_false_iff {a b : Truth} : a.or b = some false ↔ a = some false ∧ b = some false := by
  rcases a with _ | _ | _ <;> rcases b with _ | _ | _ <;> simp [Truth.or]

end Truth

/-- The members joined by `AND`. -/
def all (truths : List Truth) : Truth := truths.foldr Truth.and (some true)

/-- The members joined by `OR`. -/
def any (truths : List Truth) : Truth := truths.foldr Truth.or (some false)

theorem all_eq_true_iff {truths : List Truth} : all truths = some true ↔ ∀ b ∈ truths, b = some true := by
  induction truths with
  | nil => simp [all]
  | cons b truths ih =>
    rw [all, List.foldr_cons, Truth.and_eq_true_iff, ← all, ih]
    simp

theorem any_eq_false_iff {truths : List Truth} : any truths = some false ↔ ∀ b ∈ truths, b = some false := by
  induction truths with
  | nil => simp [any]
  | cons b truths ih => rw [any, List.foldr_cons, Truth.or_eq_false_iff, ← any, ih, List.forall_mem_cons]

theorem any_eq_true_iff {truths : List Truth} : any truths = some true ↔ some true ∈ truths := by
  induction truths with
  | nil => simp [any]
  | cons b truths ih => rw [any, List.foldr_cons, Truth.or_eq_true_iff, ← any, ih, List.mem_cons, eq_comm]

end ThreeValued
