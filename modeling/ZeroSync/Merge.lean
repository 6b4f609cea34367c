/-
Merging sorted lists into one, without repeats.

The merge takes the least head, the first of those that compare equal, and
drops it if it compares equal to the last one taken. Of the elements that
compare equal, what stays is the one of the first list that has any
(`mem_merge_iff`).
-/
import Mathlib
import ZeroSync.SortedList

namespace SortedList

variable {α : Type*} (cmp : α → α → Ordering)

/-- The least head and the list it heads, the first of those that compare
equal; `acc` is the one found so far and `i` the place of the list looked at. -/
def minHead (acc : Option (α × ℕ)) (i : ℕ) : List (List α) → Option (α × ℕ)
  | [] => acc
  | [] :: lists => minHead acc (i + 1) lists
  | (x :: _) :: lists =>
    minHead (if acc.all fun a => cmp x a.1 = .lt then some (x, i) else acc) (i + 1) lists

/-- The merge after `last`; `fuel` bounds the elements left. -/
def mergeAfter : ℕ → Option α → List (List α) → List α
  | 0, _, _ => []
  | fuel + 1, last, lists =>
    match minHead cmp none 0 lists with
    | none => []
    | some (x, i) =>
      if last.any fun l => cmp l x = .eq then mergeAfter fuel last (lists.modify i List.tail)
      else x :: mergeAfter fuel (some x) (lists.modify i List.tail)

/-- The merge. -/
def merge (lists : List (List α)) : List α := mergeAfter cmp (lists.map List.length).sum none lists

/-- The element is in a list, and no list before has one that compares equal. -/
def First (x : α) : List (List α) → Prop
  | [] => False
  | l :: lists => x ∈ l ∨ (∀ y ∈ l, cmp y x ≠ .eq) ∧ First x lists

variable {cmp}

/-! ## The least head -/

variable (cmp) in
theorem minHead_mem {acc : Option (α × ℕ)} {i : ℕ} {lists : List (List α)} {x : α} {j : ℕ}
    (h : minHead cmp acc i lists = some (x, j)) :
    acc = some (x, j) ∨ ∃ before l after, lists = before ++ (x :: l) :: after ∧ j = i + before.length := by
  induction lists generalizing acc i with
  | nil => exact .inl h
  | cons l lists ih =>
    cases l with
    | nil =>
      rcases ih h with hacc | ⟨before, l, after, rfl, rfl⟩
      · exact .inl hacc
      · exact .inr ⟨[] :: before, l, after, rfl, by rw [List.length_cons]; omega⟩
    | cons z zs =>
      rcases ih h with hacc | ⟨before, l, after, rfl, rfl⟩
      · split at hacc
        · obtain ⟨rfl, rfl⟩ := Prod.mk.inj (Option.some.inj hacc)
          exact .inr ⟨[], zs, lists, rfl, rfl⟩
        · exact .inl hacc
      · exact .inr ⟨(z :: zs) :: before, l, after, rfl, by rw [List.length_cons]; omega⟩

section
variable [Std.TransCmp cmp]

variable (cmp) in
theorem minHead_spec (acc : Option (α × ℕ)) (i : ℕ) (lists : List (List α)) :
    (minHead cmp acc i lists = acc ∧ (acc = none → ∀ l ∈ lists, l = []) ∧
      ∀ a, acc = some a → ∀ l ∈ lists, ∀ y ∈ l.head?, cmp y a.1 ≠ .lt) ∨
    ∃ before x l after, lists = before ++ (x :: l) :: after ∧ minHead cmp acc i lists = some (x, i + before.length) ∧
      (∀ a, acc = some a → cmp x a.1 = .lt) ∧ (∀ l' ∈ before, ∀ y ∈ l'.head?, cmp x y = .lt) ∧
      ∀ l' ∈ after, ∀ y ∈ l'.head?, cmp y x ≠ .lt := by
  induction lists generalizing acc i with
  | nil => exact .inl ⟨rfl, by simp, by simp⟩
  | cons l lists ih =>
    cases l with
    | nil =>
      rcases ih acc (i + 1) with ⟨heq, hnone, hacc⟩ | ⟨before, x, l, after, rfl, heq, hacc, hb, ha⟩
      · refine .inl ⟨heq, fun h l hl => ?_, fun a h l hl => ?_⟩
        · rcases List.mem_cons.mp hl with rfl | hl
          · rfl
          · exact hnone h l hl
        · rcases List.mem_cons.mp hl with rfl | hl
          · simp
          · exact hacc a h l hl
      · refine .inr ⟨[] :: before, x, l, after, rfl, ?_, hacc, ?_, ha⟩
        · rw [minHead, heq, List.length_cons, Nat.add_right_comm, Nat.add_assoc]
        · simpa using hb
    | cons z zs =>
      by_cases hz : acc.all fun a => cmp z a.1 = .lt
      · have hlt : ∀ a, acc = some a → cmp z a.1 = .lt := by
          intro a h
          simpa [h] using hz
        have hstep : minHead cmp acc i ((z :: zs) :: lists) = minHead cmp (some (z, i)) (i + 1) lists := by
          rw [minHead, if_pos hz]
        rcases ih (some (z, i)) (i + 1) with ⟨heq, -, hacc⟩ | ⟨before, x, l, after, rfl, heq, hacc, hb, ha⟩
        · exact .inr ⟨[], z, zs, lists, rfl, by rw [hstep, heq]; rfl, hlt, by simp, hacc _ rfl⟩
        · have hxz : cmp x z = .lt := hacc _ rfl
          refine .inr ⟨(z :: zs) :: before, x, l, after, rfl, ?_, fun a h => Std.TransCmp.lt_trans hxz (hlt a h), ?_, ha⟩
          · rw [hstep, heq, List.length_cons, Nat.add_right_comm, Nat.add_assoc]
          · intro l' hl' y hy
            rcases List.mem_cons.mp hl' with rfl | hl'
            · obtain rfl := Option.some.inj hy
              exact hxz
            · exact hb l' hl' y hy
      · obtain ⟨a, hacc⟩ : ∃ a, acc = some a := by
          cases acc with
          | none => simp at hz
          | some a => exact ⟨a, rfl⟩
        subst hacc
        have hza : cmp z a.1 ≠ .lt := by simpa using hz
        have hstep : minHead cmp (some a) i ((z :: zs) :: lists) = minHead cmp (some a) (i + 1) lists := by
          rw [minHead, if_neg hz]
        rcases ih (some a) (i + 1) with ⟨heq, -, hacc⟩ | ⟨before, x, l, after, rfl, heq, hacc, hb, ha⟩
        · refine .inl ⟨by rw [hstep, heq], by simp, fun a' h l hl y hy => ?_⟩
          obtain rfl := Option.some.inj h
          rcases List.mem_cons.mp hl with rfl | hl
          · obtain rfl := Option.some.inj hy
            exact hza
          · exact hacc a rfl l hl y hy
        · refine .inr ⟨(z :: zs) :: before, x, l, after, rfl, ?_, hacc, ?_, ha⟩
          · rw [hstep, heq, List.length_cons, Nat.add_right_comm, Nat.add_assoc]
          · intro l' hl' y hy
            rcases List.mem_cons.mp hl' with rfl | hl'
            · obtain rfl := Option.some.inj hy
              exact Std.TransCmp.lt_of_lt_of_isLE (hacc a rfl) (isLE_of_not_lt hza)
            · exact hb l' hl' y hy

variable (cmp) in
theorem minHead_none (lists : List (List α)) :
    (minHead cmp none 0 lists = none ∧ ∀ l ∈ lists, l = []) ∨
    ∃ before x l after, lists = before ++ (x :: l) :: after ∧ minHead cmp none 0 lists = some (x, before.length) ∧
      (∀ l' ∈ before, ∀ y ∈ l'.head?, cmp x y = .lt) ∧ ∀ l' ∈ after, ∀ y ∈ l'.head?, cmp y x ≠ .lt := by
  rcases minHead_spec cmp none 0 lists with ⟨heq, hnone, -⟩ | ⟨before, x, l, after, hl, heq, -, hb, ha⟩
  · exact .inl ⟨heq, hnone rfl⟩
  · exact .inr ⟨before, x, l, after, hl, by rw [heq, Nat.zero_add], hb, ha⟩

omit [Std.TransCmp cmp] in
theorem modify_tail (before : List (List α)) (x : α) (l : List α) (after : List (List α)) :
    (before ++ (x :: l) :: after).modify before.length List.tail = before ++ l :: after := by
  induction before with
  | nil => rfl
  | cons l' before ih => simpa using ih

/-! ## The merge -/

variable (cmp) in
/-- Of all the elements that compare equal to it, the first is the element itself. -/
abbrev Leads (x : α) (l : List α) : Prop := l.find? (fun y => cmp y x = .eq) = some x

variable (cmp) in
theorem exists_find?_kind {x : α} {l : List α} (hx : x ∈ l) :
    ∃ y ∈ l, l.find? (fun y => cmp y x = .eq) = some y ∧ cmp y x = .eq := by
  cases h : l.find? (fun y => cmp y x = .eq) with
  | none =>
    have hne := List.find?_eq_none.mp h x hx
    simp only [decide_eq_true_iff] at hne
    exact absurd Std.ReflCmp.compare_self hne
  | some y => exact ⟨y, List.mem_of_find?_eq_some h, rfl, by simpa using List.find?_some h⟩

theorem least_head {before : List (List α)} {x : α} {l : List α} {after : List (List α)}
    (hs : ∀ l' ∈ before ++ (x :: l) :: after, l'.Pairwise fun a b => (cmp a b).isLE)
    (hb : ∀ l' ∈ before, ∀ y ∈ l'.head?, cmp x y = .lt) (ha : ∀ l' ∈ after, ∀ y ∈ l'.head?, cmp y x ≠ .lt) :
    (∀ y ∈ before.flatten, cmp x y = .lt) ∧ ∀ y ∈ l ++ after.flatten, (cmp x y).isLE := by
  refine ⟨fun y hy => ?_, fun y hy => ?_⟩
  · obtain ⟨l', hl', hy⟩ := List.mem_flatten.mp hy
    cases l' with
    | nil => cases hy
    | cons z zs =>
      have hxz := hb _ hl' z rfl
      rcases List.mem_cons.mp hy with rfl | hy
      · exact hxz
      · exact Std.TransCmp.lt_of_lt_of_isLE hxz (List.rel_of_pairwise_cons (hs (z :: zs) (by simp [hl'])) hy)
  · rcases List.mem_append.mp hy with hy | hy
    · exact List.rel_of_pairwise_cons (hs (x :: l) (by simp)) hy
    · obtain ⟨l', hl', hy⟩ := List.mem_flatten.mp hy
      cases l' with
      | nil => cases hy
      | cons z zs =>
        have hxz := isLE_of_not_lt (ha _ hl' z rfl)
        rcases List.mem_cons.mp hy with rfl | hy
        · exact hxz
        · exact Std.TransCmp.isLE_trans hxz (List.rel_of_pairwise_cons (hs (z :: zs) (by simp [hl'])) hy)

omit [Std.TransCmp cmp] in
theorem leads_taken {before : List α} {x : α} {after : List α} {y : α} (hne : cmp x y ≠ .eq) :
    Leads cmp y (before ++ x :: after) ↔ Leads cmp y (before ++ after) := by
  rw [Leads, Leads, List.find?_append, List.find?_append, List.find?_cons_of_neg (by simpa using hne)]

theorem leads_least {before : List α} {x : α} {after : List α} (hbefore : ∀ y ∈ before, cmp x y = .lt) {y : α}
    (hxy : cmp x y = .eq) : Leads cmp y (before ++ x :: after) ↔ y = x := by
  have hnone : before.find? (fun z => cmp z y = .eq) = none := by
    refine List.find?_eq_none.mpr fun z hz hzy => ?_
    have hxz := Std.TransCmp.eq_trans hxy (Std.OrientedCmp.eq_symm (of_decide_eq_true hzy))
    cases hxz.symm.trans (hbefore z hz)
  rw [Leads, List.find?_append, hnone, List.find?_cons_of_pos (by simpa using hxy), Option.none_or, Option.some_inj,
    eq_comm]

/-- **The merge** is sorted, and has the first of each kind; none that compares equal to `last`. -/
theorem mergeAfter_spec {fuel : ℕ} {last : Option α} {lists : List (List α)}
    (hfuel : lists.flatten.length ≤ fuel) (hs : ∀ l ∈ lists, l.Pairwise fun a b => (cmp a b).isLE)
    (hlast : ∀ a, last = some a → ∀ x ∈ lists.flatten, (cmp a x).isLE) :
    Sorted cmp (mergeAfter cmp fuel last lists) ∧
      ∀ x, x ∈ mergeAfter cmp fuel last lists ↔ Leads cmp x lists.flatten ∧ ∀ a, last = some a → cmp a x ≠ .eq := by
  induction fuel generalizing last lists with
  | zero =>
    rw [List.length_eq_zero_iff.mp (Nat.le_zero.mp hfuel)]
    exact ⟨List.Pairwise.nil, fun x => iff_of_false (by simp [mergeAfter]) fun h => by cases h.1⟩
  | succ fuel ih =>
    rcases minHead_none cmp lists with ⟨heq, hempty⟩ | ⟨before, x, l, after, rfl, heq, hb, ha⟩
    · rw [mergeAfter, heq, List.flatten_eq_nil_iff.mpr hempty]
      exact ⟨List.Pairwise.nil, fun x => iff_of_false (by simp) fun h => by cases h.1⟩
    obtain ⟨hbefore, hafter⟩ := least_head hs hb ha
    have hflat : (before ++ (x :: l) :: after).flatten = before.flatten ++ x :: (l ++ after.flatten) := by simp
    have hflat' : (before ++ l :: after).flatten = before.flatten ++ (l ++ after.flatten) := by simp
    have hs' : ∀ l' ∈ before ++ l :: after, l'.Pairwise fun a b => (cmp a b).isLE := by
      intro l' hl'
      simp only [List.mem_append, List.mem_cons] at hl'
      rcases hl' with hl' | rfl | hl'
      · exact hs l' (by simp [hl'])
      · exact (hs (x :: l') (by simp)).of_cons
      · exact hs l' (by simp [hl'])
    have hle : ∀ y ∈ before.flatten ++ (l ++ after.flatten), (cmp x y).isLE := by
      intro y hy
      rcases List.mem_append.mp hy with hy | hy
      · rw [hbefore y hy]; rfl
      · exact hafter y hy
    have hlt : ∀ y, Leads cmp y (before.flatten ++ (l ++ after.flatten)) → cmp x y ≠ .eq → cmp x y = .lt := by
      intro y hleads hne
      have hxy := hle y (List.mem_of_find?_eq_some hleads)
      exact (Ordering.isLE_iff_eq_lt_or_eq_eq.mp hxy).resolve_right hne
    rw [hflat, List.length_append, List.length_cons] at hfuel
    have hfuel' : (before ++ l :: after).flatten.length ≤ fuel := by
      rw [hflat', List.length_append]
      omega
    rw [hflat] at hlast ⊢
    have ih : ∀ last', (∀ a, last' = some a → ∀ y ∈ before.flatten ++ (l ++ after.flatten), (cmp a y).isLE) →
        Sorted cmp (mergeAfter cmp fuel last' (before ++ l :: after)) ∧
          ∀ y, y ∈ mergeAfter cmp fuel last' (before ++ l :: after) ↔
            Leads cmp y (before.flatten ++ (l ++ after.flatten)) ∧ ∀ a, last' = some a → cmp a y ≠ .eq := by
      intro last' hlast'
      rw [← hflat'] at hlast' ⊢
      exact ih hfuel' hs' hlast'
    simp only [mergeAfter, heq, modify_tail]
    by_cases hskip : last.any (fun a => cmp a x = .eq) = true
    · -- The head compares equal to the last one taken.
      obtain ⟨a, ha, hax⟩ : ∃ a, last = some a ∧ cmp a x = .eq := by
        cases last with
        | none => cases hskip
        | some a => exact ⟨a, rfl, by simpa using hskip⟩
      subst ha
      rw [if_pos hskip]
      obtain ⟨hsorted, hmem⟩ := ih (some a) fun b hb y hy => by
        obtain rfl := Option.some.inj hb
        exact Std.TransCmp.isLE_trans (by rw [hax]; rfl) (hle y hy)
      refine ⟨hsorted, fun y => ?_⟩
      rw [hmem]
      refine and_congr_left fun hne => (leads_taken fun hxy => ?_).symm
      exact hne a rfl (Std.TransCmp.eq_trans hax hxy)
    · rw [if_neg hskip]
      obtain ⟨hsorted, hmem⟩ := ih (some x) fun a ha => Option.some.inj ha ▸ hle
      refine ⟨sorted_cons.mpr ⟨fun y hy => ?_, hsorted⟩, fun y => ?_⟩
      · obtain ⟨hleads, hne⟩ := (hmem y).mp hy
        exact hlt y hleads (hne x rfl)
      · rw [List.mem_cons, hmem]
        by_cases hxy : cmp x y = .eq
        · rw [leads_least hbefore hxy]
          constructor
          · rintro (rfl | ⟨-, hne⟩)
            · refine ⟨rfl, fun a ha hay => hskip ?_⟩
              simp [ha, hay]
            · exact absurd hxy (hne x rfl)
          · exact fun h => .inl h.1
        · have hyx : y ≠ x := fun h => hxy (h ▸ Std.ReflCmp.compare_self)
          rw [leads_taken hxy]
          constructor
          · rintro (h | ⟨hleads, -⟩)
            · exact absurd h hyx
            · refine ⟨hleads, fun a ha hay => ?_⟩
              -- `last` is at most the head taken, which is less than `y`.
              have hax := hlast a ha x (by simp)
              cases hay.symm.trans (Std.TransCmp.lt_of_isLE_of_lt hax (hlt y hleads hxy))
          · exact fun h => .inr ⟨h.1, fun b hb => Option.some.inj hb ▸ hxy⟩

/-- **The merge of sorted lists**, repeats in them included. -/
theorem merge_spec {lists : List (List α)} (hs : ∀ l ∈ lists, l.Pairwise fun a b => (cmp a b).isLE) :
    Sorted cmp (merge cmp lists) ∧ ∀ x, x ∈ merge cmp lists ↔ Leads cmp x lists.flatten := by
  have h := mergeAfter_spec (List.length_flatten (L := lists)).le hs fun _ (h : none = some _) => by cases h
  simpa [merge] using h

/-- Of the elements that compare equal to one that is there, the merge has exactly one. -/
theorem exists_filter_merge {lists : List (List α)} (hs : ∀ l ∈ lists, l.Pairwise fun a b => (cmp a b).isLE) {x : α}
    (hx : x ∈ lists.flatten) : ∃ y, (merge cmp lists).filter (fun y => cmp y x = .eq) = [y] := by
  obtain ⟨hsorted, hmem⟩ := merge_spec hs
  obtain ⟨y, -, hy, hyx⟩ := exists_find?_kind cmp hx
  have hkind : ∀ z, cmp z x = .eq ↔ cmp z y = .eq := fun z =>
    ⟨fun h => Std.TransCmp.eq_trans h (Std.OrientedCmp.eq_symm hyx), fun h => Std.TransCmp.eq_trans h hyx⟩
  have hin : y ∈ merge cmp lists := by
    rw [hmem, Leads]
    simpa only [hkind] using hy
  refine ⟨y, Sorted.eq_of_mem_iff (List.Pairwise.filter _ hsorted) (List.pairwise_singleton ..) fun z => ?_⟩
  rw [List.mem_filter, decide_eq_true_iff, List.mem_singleton, hkind]
  constructor
  · rintro ⟨hz, hzy⟩
    exact hsorted.eq_of_cmp_eq hz hin hzy
  · rintro rfl
    exact ⟨hin, Std.ReflCmp.compare_self⟩

/-! ## Lists without repeats -/

omit [Std.TransCmp cmp] in
theorem First.exists_mem {x : α} {lists : List (List α)} (h : First cmp x lists) : ∃ l ∈ lists, x ∈ l := by
  induction lists with
  | nil => exact h.elim
  | cons l lists ih =>
    rcases h with h | ⟨-, h⟩
    · exact ⟨l, by simp, h⟩
    · obtain ⟨l', hl', hx⟩ := ih h
      exact ⟨l', by simp [hl'], hx⟩

theorem exists_first {y : α} {lists : List (List α)} {l : List α} (hl : l ∈ lists) (hy : y ∈ l) :
    ∃ x, First cmp x lists ∧ cmp x y = .eq := by
  induction lists with
  | nil => cases hl
  | cons l' lists ih =>
    by_cases hin : ∃ x ∈ l', cmp x y = .eq
    · obtain ⟨x, hx, hxy⟩ := hin
      exact ⟨x, .inl hx, hxy⟩
    · simp only [not_exists, not_and] at hin
      rcases List.mem_cons.mp hl with rfl | hl
      · exact absurd Std.ReflCmp.compare_self (hin y hy)
      · obtain ⟨x, hx, hxy⟩ := ih hl
        refine ⟨x, .inr ⟨fun z hz hzx => hin z hz (Std.TransCmp.eq_trans hzx hxy), hx⟩, hxy⟩

/-- In lists without repeats an element leads if the list it is in is the first that has any of its kind. -/
theorem leads_iff_first {lists : List (List α)} (hs : ∀ l ∈ lists, Sorted cmp l) (x : α) :
    Leads cmp x lists.flatten ↔ First cmp x lists := by
  induction lists with
  | nil => simp [First]
  | cons l lists ih =>
    have hl : l.find? (fun y => cmp y x = .eq) = some x ↔ x ∈ l := by
      refine ⟨List.mem_of_find?_eq_some, fun hx => ?_⟩
      obtain ⟨y, hmem, hy, hyx⟩ := exists_find?_kind cmp hx
      rw [hy, (hs l (by simp)).eq_of_cmp_eq hmem hx hyx]
    rw [Leads, List.flatten_cons, List.find?_append, Option.or_eq_some_iff, hl, List.find?_eq_none, First,
      ← ih fun l' hl' => hs l' (by simp [hl'])]
    simp only [decide_eq_true_iff]

theorem sorted_merge {lists : List (List α)} (hs : ∀ l ∈ lists, Sorted cmp l) : Sorted cmp (merge cmp lists) :=
  (merge_spec fun l hl => (hs l hl).imp fun h => by rw [h]; rfl).1

/-- **The merge of sorted lists** has, of the elements that compare equal, the one of the first list that has any. -/
theorem mem_merge_iff {lists : List (List α)} (hs : ∀ l ∈ lists, Sorted cmp l) (x : α) :
    x ∈ merge cmp lists ↔ First cmp x lists := by
  rw [(merge_spec fun l hl => (hs l hl).imp fun h => by rw [h]; rfl).2, leads_iff_first hs]

end

end SortedList
