/-
The keys of a join: the rows that satisfy the constraint built from a row are
those it matches, when no column is named twice.
-/
import Mathlib.Data.List.Zip
import ZeroSync.JoinUtils

namespace ZeroSync

/-- The rows a join constraint asks for. A `null` in the source asks for none. -/
theorem buildJoinConstraint_matches {sourceRow : Row} {sourceKey targetKey : List String}
    (hlen : sourceKey.length = targetKey.length) (hnodup : targetKey.Nodup) (row : Row) :
    ((buildJoinConstraint sourceRow sourceKey targetKey).any fun c => constraintMatchesRow c row) =
      (sourceKey.zip targetKey).all fun k => valuesEqual (row k.2) (sourceRow k.1) := by
  by_cases hnull : ((sourceKey.zip targetKey).any fun k => sourceRow k.1 = .null) = true
  · rw [buildJoinConstraint, if_pos hnull, Option.any_none, eq_comm, List.all_eq_false]
    obtain ⟨k, hk, hnull⟩ := List.any_eq_true.mp hnull
    refine ⟨k, hk, ?_⟩
    rw [of_decide_eq_true hnull, valuesEqual_iff]
    rintro ⟨heq, -, hne⟩
    exact hne heq
  · rw [buildJoinConstraint, if_neg hnull, Option.any_some]
    have hkeys : (((sourceKey.zip targetKey).map fun k => (k.2, sourceRow k.1)).map (·.1)).Nodup := by
      have hsnd : (sourceKey.zip targetKey).map (·.2) = targetKey := List.map_snd_zip (by omega)
      rw [List.map_map]
      rw [← hsnd] at hnodup
      exact hnodup
    rw [constraintMatchesRow, OrderedMap.entries_ofList hkeys, List.all_map]
    rfl

theorem buildJoinConstraint_child {parent : Row} {parentKey childKey : List String}
    (hlen : parentKey.length = childKey.length) (hnodup : childKey.Nodup) (child : Row) :
    ((buildJoinConstraint parent parentKey childKey).any fun c => constraintMatchesRow c child) =
      isJoinMatch parent parentKey child childKey := by
  rw [buildJoinConstraint_matches hlen hnodup, isJoinMatch]
  exact List.all_congr rfl fun k => valuesEqual_comm ..

theorem buildJoinConstraint_parent {child : Row} {parentKey childKey : List String}
    (hlen : parentKey.length = childKey.length) (hnodup : parentKey.Nodup) (parent : Row) :
    ((buildJoinConstraint child childKey parentKey).any fun c => constraintMatchesRow c parent) =
      isJoinMatch parent parentKey child childKey := by
  rw [buildJoinConstraint_matches hlen.symm hnodup, isJoinMatch, ← List.zip_swap, List.all_map]
  rfl

theorem isJoinMatch_congr {parent child child' : Row} {parentKey childKey : List String}
    (h : rowEqualsForCompoundKey child child' childKey = true) :
    isJoinMatch parent parentKey child childKey = isJoinMatch parent parentKey child' childKey := by
  have hvalues : ∀ k ∈ childKey, ∀ v, valuesEqual v (child k) = valuesEqual v (child' k) := by
    intro k hk v
    have heq := of_decide_eq_true (List.all_eq_true.mp h k hk)
    rw [compareValues_eq_iff] at heq
    cases hc : child k <;> cases hc' : child' k <;> simp_all [normalizeUndefined, valuesEqual]
  rw [Bool.eq_iff_iff, isJoinMatch, isJoinMatch, List.all_eq_true, List.all_eq_true]
  refine forall₂_congr fun k hk => ?_
  rw [hvalues k.2 (List.of_mem_zip hk).2]

end ZeroSync
