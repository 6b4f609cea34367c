/-
Lists strictly sorted by a comparator, and the parts a bound cuts them into.

A strictly sorted list is determined by its members (`eq_of_perm`,
`eq_of_mem_iff`), so an operation on one is specified by what it does to the
members. A bound cuts it into a prefix and a suffix (`below_append_above`),
and a member that compares equal to the bound is the last of the prefix
(`below_eq_concat`).
-/
import Mathlib.Data.List.Nodup
import Mathlib.Data.List.Perm.Basic
import Mathlib.Data.List.Sort

namespace SortedList

variable {α β : Type*} {cmp : α → α → Ordering}

/-- Strictly increasing. -/
abbrev Sorted (cmp : α → α → Ordering) (l : List α) : Prop :=
  l.Pairwise fun a b => cmp a b = .lt

theorem sorted_cons {a : α} {l : List α} :
    Sorted cmp (a :: l) ↔ (∀ b ∈ l, cmp a b = .lt) ∧ Sorted cmp l := List.pairwise_cons

theorem sorted_append {l l' : List α} :
    Sorted cmp (l ++ l') ↔ Sorted cmp l ∧ Sorted cmp l' ∧ ∀ a ∈ l, ∀ b ∈ l', cmp a b = .lt :=
  List.pairwise_append

theorem Sorted.reverse {l : List α} (h : Sorted cmp l) : Sorted (fun a b => cmp b a) l.reverse :=
  List.pairwise_reverse.mpr h

section
variable [Std.TransCmp cmp]

theorem lt_irrefl {a : α} : cmp a a ≠ .lt := by
  have h : cmp a a = .eq := Std.ReflCmp.compare_self
  rw [h]
  decide

theorem isLE_of_not_lt {a b : α} (h : cmp b a ≠ .lt) : (cmp a b).isLE := by
  by_contra hle
  exact h (Std.OrientedCmp.lt_of_not_isLE hle)

theorem Sorted.nodup {l : List α} (h : Sorted cmp l) : l.Nodup := by
  refine List.Pairwise.imp ?_ h
  rintro a b hab rfl
  exact lt_irrefl hab

omit [Std.TransCmp cmp] in
theorem Sorted.trichotomy {l : List α} (h : Sorted cmp l) {a b : α} (ha : a ∈ l) (hb : b ∈ l) :
    a = b ∨ cmp a b = .lt ∨ cmp b a = .lt := by
  refine List.Pairwise.forall_of_forall_of_flip (R := fun a b => a = b ∨ cmp a b = .lt ∨ cmp b a = .lt)
    (fun _ _ => .inl rfl) ?_ ?_ ha hb
  · exact List.Pairwise.imp (fun hlt => .inr (.inl hlt)) h
  · exact List.Pairwise.imp (fun hlt => .inr (.inr hlt)) h

theorem Sorted.eq_of_cmp_eq {l : List α} (h : Sorted cmp l) {a b : α} (ha : a ∈ l) (hb : b ∈ l)
    (hab : cmp a b = .eq) : a = b := by
  rcases h.trichotomy ha hb with h | h | h
  · exact h
  · rw [hab] at h; cases h
  · rw [Std.OrientedCmp.eq_symm hab] at h; cases h

theorem Sorted.eq_of_perm {l l' : List α} (h : Sorted cmp l) (h' : Sorted cmp l') (hp : l.Perm l') : l = l' := by
  have hanti : ∀ a b, a ∈ l → b ∈ l' → cmp a b = .lt → cmp b a = .lt → a = b :=
    fun _ _ _ _ hab hba => absurd hba (Std.OrientedCmp.not_lt_of_lt hab)
  exact List.Perm.eq_of_pairwise hanti h h' hp

theorem Sorted.eq_of_mem_iff {l l' : List α} (h : Sorted cmp l) (h' : Sorted cmp l')
    (hm : ∀ a, a ∈ l ↔ a ∈ l') : l = l' :=
  h.eq_of_perm h' ((List.perm_ext_iff_of_nodup h.nodup h'.nodup).mpr hm)

omit [Std.TransCmp cmp] in
/-- A predicate that holds of everything smaller too cuts a sorted list in two. -/
theorem Sorted.filter_append_filter_not {l : List α} (h : Sorted cmp l) {p : α → Bool}
    (hp : ∀ a ∈ l, ∀ b ∈ l, cmp a b = .lt → p b → p a) : l.filter p ++ l.filter (fun a => !p a) = l := by
  induction l with
  | nil => rfl
  | cons a l ih =>
    rw [sorted_cons] at h
    have ih := ih h.2 fun b hb c hc => hp b (by simp [hb]) c (by simp [hc])
    by_cases hpa : p a
    · simp only [List.filter_cons, hpa, if_true, Bool.not_true, Bool.false_eq_true, if_false,
        List.cons_append, ih]
    · -- Nothing after `a` satisfies `p` either.
      have hnone : ∀ b ∈ l, p b = false := fun b hb => by
        by_contra hpb
        exact hpa (hp a (by simp) b (by simp [hb]) (h.1 b hb) (by simpa using hpb))
      have hnil : l.filter p = [] := by simpa using hnone
      have hall : l.filter (fun b => !p b) = l := by simpa using hnone
      simp [hpa, hnil, hall]

/-! ## The parts a bound cuts a list into -/

variable (cmp) in
/-- The elements at or before the bound. -/
def below (b : α) (l : List α) : List α := l.filter fun x => (cmp x b).isLE

omit [Std.TransCmp cmp] in
theorem mem_below {b x : α} {l : List α} : x ∈ below cmp b l ↔ x ∈ l ∧ (cmp x b).isLE := by
  simp [below]

omit [Std.TransCmp cmp] in
theorem Sorted.below {l : List α} (h : Sorted cmp l) (b : α) : Sorted cmp (below cmp b l) :=
  List.Pairwise.filter _ h

theorem isLE_of_lt_of_isLE {a b c : α} (hab : cmp a b = .lt) (hbc : (cmp b c).isLE) : (cmp a c).isLE :=
  Std.TransCmp.isLE_trans (b := b) (by rw [hab]; rfl) hbc

theorem Sorted.below_eq_concat {l : List α} (h : Sorted cmp l) {b x : α} (hx : x ∈ l) (hxb : cmp x b = .eq) :
    SortedList.below cmp b l = l.filter (fun y => cmp y b = .lt) ++ [x] := by
  have hcmp : ∀ y, cmp y x = cmp y b := fun y => Std.TransCmp.congr_right hxb
  have hsorted : Sorted cmp (l.filter (fun y => cmp y b = .lt) ++ [x]) := by
    refine sorted_append.mpr ⟨List.Pairwise.filter _ h, List.pairwise_singleton _ _, fun y hy z hz => ?_⟩
    obtain rfl := List.mem_singleton.mp hz
    simpa [hcmp] using (List.mem_filter.mp hy).2
  refine (h.below b).eq_of_mem_iff hsorted fun y => ?_
  simp only [mem_below, List.mem_append, List.mem_filter, List.mem_singleton, decide_eq_true_eq]
  constructor
  · rintro ⟨hy, hyb⟩
    cases hc : cmp y b with
    | lt => exact .inl ⟨hy, rfl⟩
    | eq => exact .inr (h.eq_of_cmp_eq hy hx (by rw [hcmp, hc]))
    | gt => rw [hc] at hyb; cases hyb
  · rintro (⟨hy, hyb⟩ | rfl)
    · exact ⟨hy, by rw [hyb]; rfl⟩
    · exact ⟨hx, by rw [hxb]; rfl⟩

/-- Reading a sorted list while its elements are at or before the bound reads
the part up to the bound. -/
theorem Sorted.takeWhile_eq_below {l : List α} (h : Sorted cmp l) (b : α) :
    l.takeWhile (fun x => (cmp x b).isLE) = SortedList.below cmp b l := by
  induction l with
  | nil => rfl
  | cons a l ih =>
    rw [sorted_cons] at h
    by_cases hab : (cmp a b).isLE
    · have ih := ih h.2
      simp only [SortedList.below] at ih
      simp [SortedList.below, hab, ih]
    · -- Everything after `a` is after the bound too.
      have hnone : ∀ y ∈ l, ¬ (cmp y b).isLE := fun y hy hyb =>
        hab (isLE_of_lt_of_isLE (h.1 y hy) hyb)
      simpa [SortedList.below, hab] using hnone

/-! ## Cutting at a bound

A sorted list is what lies before the bound, what compares equal to it and
what lies after it. -/

theorem Sorted.cut {l : List α} (h : Sorted cmp l) (b : α) :
    l.filter (fun y => cmp y b = .lt) ++ (l.filter (fun y => cmp y b = .eq) ++ l.filter (fun y => cmp y b = .gt)) =
      l := by
  have hlt := h.filter_append_filter_not (p := fun y => cmp y b = .lt)
    (fun x _ y _ hxy hy => by simpa using Std.TransCmp.lt_trans hxy (by simpa using hy))
  have hrest : Sorted cmp (l.filter fun y => !decide (cmp y b = .lt)) := List.Pairwise.filter _ h
  have heq := hrest.filter_append_filter_not (p := fun y => cmp y b = .eq) (fun x hx y _ hxy hy => by
    -- An element before one that compares equal to the bound is before the bound.
    have hxb := Std.TransCmp.lt_of_lt_of_eq hxy (by simpa using hy)
    simp [hxb] at hx)
  rw [List.filter_filter, List.filter_filter] at heq
  conv_rhs => rw [← hlt, ← heq]
  congr 2
  · exact List.filter_congr fun y _ => by cases cmp y b <;> rfl
  · exact List.filter_congr fun y _ => by cases cmp y b <;> rfl

theorem Sorted.filter_isGE {l : List α} (h : Sorted cmp l) (b : α) : l.filter (fun y => (cmp y b).isGE) =
    l.filter (fun y => cmp y b = .eq) ++ l.filter (fun y => cmp y b = .gt) := by
  conv_lhs => rw [← h.cut b]
  have hnil : l.filter (fun y => (cmp y b).isGE && decide (cmp y b = .lt)) = [] :=
    List.filter_eq_nil_iff.mpr fun y _ => by cases cmp y b <;> decide
  simp only [List.filter_append, List.filter_filter]
  rw [hnil, List.nil_append]
  congr 1 <;> exact List.filter_congr fun y _ => by cases cmp y b <;> rfl

theorem Sorted.filter_isLE {l : List α} (h : Sorted cmp l) (b : α) : SortedList.below cmp b l =
    l.filter (fun y => cmp y b = .lt) ++ l.filter (fun y => cmp y b = .eq) := by
  conv_lhs => rw [← h.cut b]
  have hnil : l.filter (fun y => (cmp y b).isLE && decide (cmp y b = .gt)) = [] :=
    List.filter_eq_nil_iff.mpr fun y _ => by cases cmp y b <;> decide
  simp only [SortedList.below, List.filter_append, List.filter_filter]
  rw [hnil, List.append_nil]
  congr 1 <;> exact List.filter_congr fun y _ => by cases cmp y b <;> rfl

/-- A list put together around an element: its part up to a bound equal to that element. -/
theorem Sorted.below_append_cons {p r : List α} {y b : α} (h : Sorted cmp (p ++ y :: r)) (hyb : cmp y b = .eq) :
    SortedList.below cmp b (p ++ y :: r) = p ++ [y] := by
  rw [h.below_eq_concat (by simp) hyb]
  congr 1
  obtain ⟨-, hr, hpr⟩ := sorted_append.mp h
  have hp : ∀ x ∈ p, cmp x b = .lt := fun x hx => Std.TransCmp.lt_of_lt_of_eq (hpr x hx y (by simp)) hyb
  have hr' : ∀ x ∈ r, cmp x b ≠ .lt := fun x hx => by
    have hbx := Std.TransCmp.lt_of_eq_of_lt (Std.OrientedCmp.eq_symm hyb) ((sorted_cons.mp hr).1 x hx)
    exact Std.OrientedCmp.not_lt_of_lt hbx
  rw [List.filter_append, List.filter_cons]
  simp only [hyb, reduceCtorEq, decide_false, Bool.false_eq_true, if_false]
  rw [List.filter_eq_self.mpr (by simpa using hp), List.filter_eq_nil_iff.mpr (by simpa using hr'), List.append_nil]

end

/-! ## Inserting and erasing

An element takes the place of those that compare equal to it. -/

/-- The list with the element in its place. -/
def insertKey (cmp : α → α → Ordering) (x : α) (l : List α) : List α :=
  l.filter (fun y => cmp y x = .lt) ++ x :: l.filter (fun y => cmp y x = .gt)

/-- The list without what compares equal to the target. -/
def eraseKey (cmp : α → β → Ordering) (target : β) (l : List α) : List α := l.filter fun y => cmp y target ≠ .eq

theorem filter_within {p : α → Bool} {l : List α} (h : ∀ y ∈ l, p y = false) : l.filter p = [] := by
  rw [List.filter_eq_nil_iff]
  intro y hy
  rw [h y hy]
  decide

theorem insertKey_within {x : α} {a m b : List α} (ha : ∀ y ∈ a, cmp y x = .lt) (hb : ∀ y ∈ b, cmp y x = .gt) :
    insertKey cmp x (a ++ (m ++ b)) = a ++ (insertKey cmp x m ++ b) := by
  have halt : a.filter (fun y => cmp y x = .lt) = a := List.filter_eq_self.mpr (by simpa using ha)
  have hagt : a.filter (fun y => cmp y x = .gt) = [] := filter_within fun y hy => by simp [ha y hy]
  have hblt : b.filter (fun y => cmp y x = .lt) = [] := filter_within fun y hy => by simp [hb y hy]
  have hbgt : b.filter (fun y => cmp y x = .gt) = b := List.filter_eq_self.mpr (by simpa using hb)
  simp [insertKey, halt, hagt, hblt, hbgt]

theorem eraseKey_within {cmp : α → β → Ordering} {target : β} {a m b : List α} (ha : ∀ y ∈ a, cmp y target = .lt)
    (hb : ∀ y ∈ b, cmp y target = .gt) :
    eraseKey cmp target (a ++ (m ++ b)) = a ++ (eraseKey cmp target m ++ b) := by
  have hkeep : ∀ l : List α, (∀ y ∈ l, cmp y target ≠ .eq) → l.filter (fun y => cmp y target ≠ .eq) = l :=
    fun l hl => List.filter_eq_self.mpr (by simpa using hl)
  have ha' := hkeep a fun y hy => by simp [ha y hy]
  have hb' := hkeep b fun y hy => by simp [hb y hy]
  rw [eraseKey, List.filter_append, List.filter_append, ha', hb', eraseKey]

theorem insertKey_replace {x y : α} {a b : List α} (ha : ∀ z ∈ a, cmp z x = .lt) (hy : cmp y x = .eq)
    (hb : ∀ z ∈ b, cmp z x = .gt) : insertKey cmp x (a ++ y :: b) = a ++ x :: b := by
  have h := @insertKey_within _ cmp x a [y] b ha hb
  rw [List.singleton_append] at h
  rw [h]
  simp [insertKey, hy]

theorem insertKey_between {x : α} {a b : List α} (ha : ∀ z ∈ a, cmp z x = .lt) (hb : ∀ z ∈ b, cmp z x = .gt) :
    insertKey cmp x (a ++ b) = a ++ x :: b := by
  have h := @insertKey_within _ cmp x a [] b ha hb
  rw [List.nil_append] at h
  rw [h]
  rfl

theorem eraseKey_found {cmp : α → β → Ordering} {target : β} {x : α} {a b : List α}
    (ha : ∀ y ∈ a, cmp y target = .lt) (hx : cmp x target = .eq) (hb : ∀ y ∈ b, cmp y target = .gt) :
    eraseKey cmp target (a ++ x :: b) = a ++ b := by
  have h := @eraseKey_within _ _ cmp target a [x] b ha hb
  rw [List.singleton_append] at h
  rw [h]
  simp [eraseKey, hx]

theorem eraseKey_missing {cmp : α → β → Ordering} {target : β} {l : List α} (h : ∀ y ∈ l, cmp y target ≠ .eq) :
    eraseKey cmp target l = l :=
  List.filter_eq_self.mpr (by simpa using h)

theorem mem_insertKey {x y : α} {l : List α} : y ∈ insertKey cmp x l ↔ y = x ∨ (y ∈ l ∧ cmp y x ≠ .eq) := by
  simp only [insertKey, List.mem_append, List.mem_cons, List.mem_filter, decide_eq_true_eq]
  cases cmp y x <;> simp [or_comm]

theorem mem_eraseKey {cmp : α → β → Ordering} {target : β} {y : α} {l : List α} :
    y ∈ eraseKey cmp target l ↔ y ∈ l ∧ cmp y target ≠ .eq := by
  simp [eraseKey]

theorem Sorted.insertKey [Std.TransCmp cmp] {l : List α} (h : Sorted cmp l) (x : α) :
    Sorted cmp (SortedList.insertKey cmp x l) := by
  refine sorted_append.mpr ⟨List.Pairwise.filter _ h, sorted_cons.mpr ⟨fun y hy => ?_, List.Pairwise.filter _ h⟩,
    fun y hy z hz => ?_⟩
  · exact Std.OrientedCmp.lt_of_gt (by simpa using (List.mem_filter.mp hy).2)
  · have hyx : cmp y x = .lt := by simpa using (List.mem_filter.mp hy).2
    rcases List.mem_cons.mp hz with rfl | hz
    · exact hyx
    · have hzx : cmp z x = .gt := by simpa using (List.mem_filter.mp hz).2
      exact Std.TransCmp.lt_trans hyx (Std.OrientedCmp.lt_of_gt hzx)

theorem Sorted.eraseKey {c : α → β → Ordering} {l : List α} (h : Sorted cmp l) (target : β) :
    Sorted cmp (SortedList.eraseKey c target l) :=
  List.Pairwise.filter _ h

theorem Sorted.isLE_getLast [Std.TransCmp cmp] {l : List α} (h : Sorted cmp l) {m x : α} (hm : l.getLast? = some m)
    (hx : x ∈ l) : (cmp x m).isLE := by
  obtain ⟨init, rfl⟩ := List.getLast?_eq_some_iff.mp hm
  rcases List.mem_append.mp hx with hx | hx
  · rw [(sorted_append.mp h).2.2 x hx m (by simp)]
    rfl
  · obtain rfl := List.mem_singleton.mp hx
    have hself : cmp x x = .eq := Std.ReflCmp.compare_self
    rw [hself]
    rfl

/-! ## Inserting many -/

/-- The list with the elements in their places, one after another. -/
def insertKeys (cmp : α → α → Ordering) (xs l : List α) : List α := xs.foldl (fun l x => insertKey cmp x l) l

theorem insertKeys_cons (x : α) (xs l : List α) :
    insertKeys cmp (x :: xs) l = insertKeys cmp xs (SortedList.insertKey cmp x l) := rfl

theorem insertKeys_append (xs ys l : List α) :
    insertKeys cmp (xs ++ ys) l = insertKeys cmp ys (insertKeys cmp xs l) := List.foldl_append

theorem mem_of_mem_insertKeys {xs l : List α} {y : α} (h : y ∈ insertKeys cmp xs l) : y ∈ xs ∨ y ∈ l := by
  induction xs generalizing l with
  | nil => exact .inr h
  | cons x xs ih =>
    rcases ih h with hy | hy
    · exact .inl (List.mem_cons_of_mem _ hy)
    · rcases mem_insertKey.mp hy with rfl | ⟨hy, -⟩
      · exact .inl (List.mem_cons_self ..)
      · exact .inr hy

theorem Sorted.insertKeys [Std.TransCmp cmp] {l : List α} (h : Sorted cmp l) (xs : List α) :
    Sorted cmp (SortedList.insertKeys cmp xs l) := by
  induction xs generalizing l with
  | nil => exact h
  | cons x xs ih => exact ih (h.insertKey x)

theorem insertKeys_append_left {xs a b : List α} (h : ∀ x ∈ xs, ∀ y ∈ b, cmp y x = .gt) :
    insertKeys cmp xs (a ++ b) = insertKeys cmp xs a ++ b := by
  induction xs generalizing a with
  | nil => rfl
  | cons x xs ih =>
    have hx := @insertKey_within _ cmp x [] a b (by simp) (h x (by simp))
    rw [insertKeys_cons, insertKeys_cons, ← ih fun x hx => h x (List.mem_cons_of_mem _ hx)]
    exact congrArg _ hx

theorem insertKeys_append_right {xs a b : List α} (h : ∀ x ∈ xs, ∀ y ∈ a, cmp y x = .lt) :
    insertKeys cmp xs (a ++ b) = a ++ insertKeys cmp xs b := by
  induction xs generalizing b with
  | nil => rfl
  | cons x xs ih =>
    have hx := @insertKey_within _ cmp x a b [] (h x (by simp)) (by simp)
    rw [List.append_nil, List.append_nil] at hx
    rw [insertKeys_cons, insertKeys_cons, ← ih fun x hx => h x (List.mem_cons_of_mem _ hx), hx]

/-- Elements that are sorted already are put at the end of what is before them. -/
theorem insertKeys_after {xs l : List α} (hs : Sorted cmp xs) (h : ∀ x ∈ xs, ∀ y ∈ l, cmp y x = .lt) :
    insertKeys cmp xs l = l ++ xs := by
  induction xs generalizing l with
  | nil => exact (List.append_nil l).symm
  | cons x xs ih =>
    obtain ⟨hx, hs⟩ := sorted_cons.mp hs
    have hlx : SortedList.insertKey cmp x l = l ++ [x] := by
      have hb := @insertKey_between _ cmp x l [] (h x (by simp)) (by simp)
      rwa [List.append_nil] at hb
    have hlt : ∀ z ∈ xs, ∀ y ∈ l ++ [x], cmp y z = .lt := by
      intro z hz y hy
      rcases List.mem_append.mp hy with hy | hy
      · exact h z (List.mem_cons_of_mem _ hz) y hy
      · rw [List.mem_singleton.mp hy]
        exact hx z hz
    rw [insertKeys_cons, hlx, ih hs hlt, List.append_assoc, List.singleton_append]

theorem insertKeys_ne_nil {xs : List α} (hne : xs ≠ []) (l : List α) : insertKeys cmp xs l ≠ [] := by
  obtain ⟨init, x, rfl⟩ := (List.eq_nil_or_concat xs).resolve_left hne
  rw [List.concat_eq_append, insertKeys_append]
  exact List.ne_nil_of_mem (mem_insertKey.mpr (.inl rfl))

/-- Sorting is stable: elements that compare equal to one another keep their order. -/
theorem filter_mergeSort {le : α → α → Bool} {p : α → Bool} (htrans : ∀ a b c, le a b → le b c → le a c)
    (htotal : ∀ a b, le a b || le b a) (hp : ∀ a b, p a → p b → le a b) (l : List α) :
    (l.mergeSort le).filter p = l.filter p := by
  have hpairs : (l.filter p).Pairwise fun a b => le a b := by
    refine List.pairwise_of_forall_mem_list fun a ha b hb => ?_
    exact hp a b (List.mem_filter.mp ha).2 (List.mem_filter.mp hb).2
  have hsub := (List.sublist_mergeSort htrans htotal hpairs List.filter_sublist).filter p
  simp only [List.filter_filter, Bool.and_self] at hsub
  exact (hsub.eq_of_length (((List.mergeSort_perm l le).filter p).length_eq.symm)).symm

end SortedList
