/-
Interleavings: one list made of the elements of several, those of each in the
order they have there.

The lists are taken in any order (`Interleaves.perm`), so an algorithm that
moves them about keeps track of them as they lie.
-/
import Mathlib.Data.List.Perm.Basic

variable {α : Type*}

/-- The list takes its elements from the heads of the lists, until none has any. -/
inductive Interleaves : List (List α) → List α → Prop
  | nil : Interleaves [] []
  | done {lists out} : Interleaves lists out → Interleaves ([] :: lists) out
  | take {a l lists out} : Interleaves (l :: lists) out → Interleaves ((a :: l) :: lists) (a :: out)
  | perm {lists lists' out} : lists.Perm lists' → Interleaves lists out → Interleaves lists' out

namespace Interleaves

theorem append {l : List α} {lists : List (List α)} {out : List α} (taken : List α)
    (h : Interleaves (l :: lists) out) : Interleaves ((taken ++ l) :: lists) (taken ++ out) := by
  induction taken with
  | nil => exact h
  | cons a taken ih => exact ih.take

theorem exhaust {lists : List (List α)} {out : List α} (taken : List α) (h : Interleaves lists out) :
    Interleaves (taken :: lists) (taken ++ out) := by
  simpa using h.done.append taken

theorem perm_flatten {lists : List (List α)} {out : List α} (h : Interleaves lists out) : out.Perm lists.flatten := by
  induction h with
  | nil => exact .nil
  | done _ ih => exact ih
  | take _ ih => exact ih.cons _
  | perm hp _ ih => exact ih.trans hp.flatten

theorem sublist {lists : List (List α)} {out : List α} (h : Interleaves lists out) : ∀ l ∈ lists, l.Sublist out := by
  induction h with
  | nil => simp
  | done _ ih => simpa using ih
  | take _ ih =>
    intro l' hl'
    rcases List.mem_cons.mp hl' with rfl | hl'
    · exact (ih _ List.mem_cons_self).cons_cons _
    · exact (ih l' (List.mem_cons_of_mem _ hl')).cons _
  | perm hp _ ih => exact fun l hl => ih l (hp.mem_iff.mpr hl)

end Interleaves
