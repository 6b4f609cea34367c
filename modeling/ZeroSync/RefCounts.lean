/-
What `mergeRefCounts` computes, query by query: the sum of the two counts,
the first left out for a removed query, and a tombstone when no sum is
positive.
-/
import Mathlib.Algebra.BigOperators.Group.List.Basic
import Mathlib.Algebra.Order.BigOperators.Group.List
import Mathlib.Data.Int.Order.Basic
import ZeroSync.CVRUpdater

namespace ZeroSync

/-- The count of a query; `0` in a tombstone and for a query not in the map. -/
def refCount (refCounts : Option RefCounts) (q : String) : ℤ :=
  ((refCounts.bind (·.get? q))).getD 0

/-- The sum of the counts a list of entries gives a query. -/
def sumOf (entries : List (String × ℤ)) (q : String) : ℤ :=
  (entries.map fun e => if e.1 = q then e.2 else 0).sum

/-- No count is zero or less. -/
def Positive (refCounts : RefCounts) : Prop := ∀ q c, refCounts.get? q = some c → 0 < c

@[simp] theorem refCount_none (q : String) : refCount none q = 0 := rfl

@[simp] theorem refCount_some (m : RefCounts) (q : String) : refCount (some m) q = (m.get? q).getD 0 := rfl

theorem get?_addRefCount (m : RefCounts) (hash q : String) (count : ℤ) :
    ((addRefCount m hash count).get? q).getD 0 = (m.get? q).getD 0 + if hash = q then count else 0 := by
  by_cases hsum : (m.get? hash).getD 0 + count = 0 <;> by_cases hq : hash = q
  · subst hq; simp [addRefCount, OrderedMap.get?_erase, hsum]
  · simp [addRefCount, OrderedMap.get?_erase, hsum, hq]
  · subst hq; simp [addRefCount, hsum]
  · simp [addRefCount, OrderedMap.get?_set, hsum, hq]

theorem addRefCount_ne_zero {m : RefCounts} (h : ∀ q, m.get? q ≠ some 0) (hash : String) (count : ℤ) (q : String) :
    (addRefCount m hash count).get? q ≠ some 0 := by
  by_cases hsum : (m.get? hash).getD 0 + count = 0
  · simp only [addRefCount, hsum, if_true, OrderedMap.get?_erase]
    split
    · simp
    · exact h q
  · simp only [addRefCount, hsum, if_false, OrderedMap.get?_set]
    split
    · simpa using hsum
    · exact h q

theorem foldl_addRefCount (entries : List (String × ℤ)) (m : RefCounts) (q : String) :
    ((entries.foldl (fun merged e => addRefCount merged e.1 e.2) m).get? q).getD 0 =
      (m.get? q).getD 0 + sumOf entries q := by
  induction entries generalizing m with
  | nil => simp [sumOf]
  | cons e entries ih =>
    rw [List.foldl_cons, ih, get?_addRefCount]
    simp only [sumOf, List.map_cons, List.sum_cons]
    omega

theorem foldl_addRefCount_ne_zero (entries : List (String × ℤ)) (q : String) :
    (entries.foldl (fun merged e => addRefCount merged e.1 e.2) ∅).get? q ≠ some 0 := by
  suffices h : ∀ m : RefCounts, (∀ q, m.get? q ≠ some 0) →
      (entries.foldl (fun merged e => addRefCount merged e.1 e.2) m).get? q ≠ some 0 from
    h ∅ fun q => by simp
  induction entries with
  | nil => exact fun m hm => hm q
  | cons e entries ih => exact fun m hm => ih _ (addRefCount_ne_zero hm e.1 e.2)

theorem sumOf_append (l l' : List (String × ℤ)) (q : String) : sumOf (l ++ l') q = sumOf l q + sumOf l' q := by
  simp [sumOf]

theorem sumOf_filter (l : List (String × ℤ)) (p : String → Bool) (q : String) :
    sumOf (l.filter fun e => p e.1) q = if p q then sumOf l q else 0 := by
  induction l with
  | nil => simp [sumOf]
  | cons e l ih =>
    simp only [sumOf] at ih
    by_cases hp : p e.1 <;> by_cases hq : e.1 = q
    · subst hq; simp [sumOf, hp, ih]
    · simp [sumOf, hp, hq, ih]
    · subst hq; simp [sumOf, hp, ih]
    · simp [sumOf, hp, hq, ih]

theorem sumOf_entries (m : RefCounts) (q : String) : sumOf m.entries q = (m.get? q).getD 0 := by
  obtain ⟨entries, hnodup⟩ := m
  simp only [OrderedMap.get?]
  induction entries with
  | nil => rfl
  | cons e entries ih =>
    simp only [List.map_cons, List.nodup_cons] at hnodup
    have ih := ih hnodup.2
    simp only [sumOf, List.map_cons, List.sum_cons, OrderedMap.lookup] at ih ⊢
    by_cases hq : e.1 = q
    · -- No other entry is about the same query.
      have hnone : OrderedMap.lookup q entries = none := by
        by_contra hne
        obtain ⟨v, hv⟩ := Option.ne_none_iff_exists'.mp hne
        have hmem := (OrderedMap.mem_entries_iff ⟨entries, hnodup.2⟩ q v).mpr hv
        exact hnodup.1 (List.mem_map.mpr ⟨_, hmem, hq.symm⟩)
      rw [ih, hnone]
      simp [hq]
    · rw [ih]
      simp [hq]

section
variable (existing received : Option RefCounts) (removeHashes : List String)

/-- The count `mergeRefCounts` gives a query. -/
def mergedCount (q : String) : ℤ :=
  (if q ∈ removeHashes then 0 else refCount existing q) + refCount received q

/-- With no sum negative, `mergeRefCounts` keeps the sums, in a tombstone if none is positive. -/
theorem mergeRefCounts_spec (h : ∀ q, 0 ≤ mergedCount existing received removeHashes q) :
    (∀ q, refCount (mergeRefCounts existing received removeHashes) q = mergedCount existing received removeHashes q) ∧
      ((mergeRefCounts existing received removeHashes).isSome ↔
        ∃ q, 0 < mergedCount existing received removeHashes q) := by
  have key : ∃ merged : RefCounts,
      (mergeRefCounts existing received removeHashes = if merged.values.any (0 < ·) then some merged else none) ∧
        ∀ q, (merged.get? q).getD 0 = mergedCount existing received removeHashes q := by
    have hreceived : ∀ q, ((received.getD ∅).get? q).getD 0 = refCount received q := by
      cases received <;> simp
    cases existing with
    | none => exact ⟨received.getD ∅, rfl, fun q => by simp [mergedCount, hreceived]⟩
    | some existing =>
      refine ⟨_, rfl, fun q => ?_⟩
      have hfilter := sumOf_filter existing.entries (fun hash => decide (hash ∉ removeHashes)) q
      rw [foldl_addRefCount, sumOf_append, hfilter, sumOf_entries, sumOf_entries, hreceived]
      by_cases hq : q ∈ removeHashes <;> simp [mergedCount, hq]
  obtain ⟨merged, heq, hcount⟩ := key
  have hany : merged.values.any (0 < ·) = true ↔ ∃ q, 0 < mergedCount existing received removeHashes q := by
    simp only [List.any_eq_true, OrderedMap.mem_values_iff, decide_eq_true_eq]
    constructor
    · rintro ⟨v, ⟨q, hq⟩, hv⟩
      exact ⟨q, by rw [← hcount, hq]; exact hv⟩
    · rintro ⟨q, hq⟩
      rw [← hcount] at hq
      cases hm : merged.get? q with
      | none => simp [hm] at hq
      | some v => exact ⟨v, ⟨q, hm⟩, by simpa [hm] using hq⟩
  rw [heq]
  by_cases hp : merged.values.any (0 < ·) = true
  · rw [if_pos hp]
    exact ⟨hcount, by simpa using hany.mp hp⟩
  · rw [if_neg hp]
    have hzero : ∀ q, mergedCount existing received removeHashes q = 0 := fun q => by
      have := h q
      have hq : ¬ 0 < mergedCount existing received removeHashes q := fun hq => hp (hany.mpr ⟨q, hq⟩)
      omega
    exact ⟨fun q => by rw [hzero]; rfl, by simp [hzero]⟩

theorem mergeRefCounts_positive (h : ∀ q, 0 ≤ mergedCount existing received removeHashes q)
    (hpos : existing = none → ∀ m, received = some m → Positive m) {m : RefCounts}
    (hm : mergeRefCounts existing received removeHashes = some m) : Positive m := by
  have hcount := (mergeRefCounts_spec existing received removeHashes h).1
  rw [hm] at hcount
  cases existing with
  | none =>
    have hmerged : received.getD ∅ = m := by
      simp only [mergeRefCounts] at hm
      split at hm
      · exact Option.some.inj hm
      · cases hm
    cases received with
    | none =>
      intro q c hq
      rw [← hmerged] at hq
      simp at hq
    | some r => exact hmerged ▸ hpos rfl r rfl
  | some existing =>
    intro q c hq
    have hne : c ≠ 0 := by
      rintro rfl
      simp only [mergeRefCounts] at hm
      split at hm
      · rw [← Option.some.inj hm] at hq
        exact foldl_addRefCount_ne_zero _ q hq
      · cases hm
    have := h q
    rw [← hcount, refCount_some, hq] at this
    simp only [Option.getD_some] at this
    omega

end

end ZeroSync
