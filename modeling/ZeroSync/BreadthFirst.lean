/-
Breadth-first search with a queue, over any successors: a node is visited when it is
first taken from the queue, and its successors are put at the end.

What is visited is what can be reached (`Visits.complete`, `Visits.sound`), and the order
is known as far as the second layer: if a node is the one successor of a node of the
queue, and of none before that one, then what is visited before it is what was in the
queue, or comes from a node before that one (`Visits.last_iff`).
-/
import Mathlib.Data.List.Basic
import Mathlib.Data.List.Nodup
import Mathlib.Algebra.BigOperators.Group.Finset.Basic

namespace BreadthFirst

variable {α : Type} {successors : α → List α}

/-- A search from a queue and the nodes visited so far, to all the nodes it visits, in
their order. -/
inductive Visits (successors : α → List α) : List α → List α → List α → Prop
  | done {visited : List α} : Visits successors [] visited visited
  | skip {x : α} {queue visited result : List α} (hx : x ∈ visited) (h : Visits successors queue visited result) :
    Visits successors (x :: queue) visited result
  | take {x : α} {queue visited result : List α} (hx : x ∉ visited)
    (h : Visits successors (queue ++ successors x) (visited ++ [x]) result) :
    Visits successors (x :: queue) visited result

namespace Visits

theorem isPrefix {queue visited result : List α} (h : Visits successors queue visited result) :
    visited <+: result := by
  induction h with
  | done => exact List.prefix_rfl
  | skip _ _ ih => exact ih
  | take _ _ ih => exact (List.prefix_append _ _).trans ih

theorem nodup {queue visited result : List α} (h : Visits successors queue visited result) (hvisited : visited.Nodup) :
    result.Nodup := by
  induction h with
  | done => exact hvisited
  | skip _ _ ih => exact ih hvisited
  | @take x queue visited result hx _ ih =>
    refine ih (List.nodup_append.2 ⟨hvisited, List.nodup_singleton x, fun y hy z hz heq => hx ?_⟩)
    rwa [← List.mem_singleton.1 hz, ← heq]

theorem complete {queue visited result : List α} (h : Visits successors queue visited result) :
    (∀ x ∈ queue, x ∈ result) ∧ ∀ x ∈ result, x ∉ visited → ∀ y ∈ successors x, y ∈ result := by
  induction h with
  | done => exact ⟨fun x hx => (by cases hx), fun x hx hnot => absurd hx hnot⟩
  | skip hx h ih =>
    refine ⟨fun y hy => ?_, ih.2⟩
    obtain rfl | hy := List.mem_cons.1 hy
    · exact h.isPrefix.subset hx
    · exact ih.1 y hy
  | @take x queue visited result hx h ih =>
    refine ⟨fun y hy => ?_, fun y hy hnot z hz => ?_⟩
    · obtain rfl | hy := List.mem_cons.1 hy
      · exact h.isPrefix.subset (by simp)
      · exact ih.1 y (List.mem_append_left _ hy)
    · by_cases hyx : y = x
      · subst hyx
        exact ih.1 z (List.mem_append_right _ hz)
      · exact ih.2 y hy (by simp [hnot, hyx]) z hz

theorem sound {queue visited result : List α} (h : Visits successors queue visited result) {R : α → Prop}
    (hR : ∀ x, R x → ∀ y ∈ successors x, R y) (hqueue : ∀ x ∈ queue, R x) : ∀ x ∈ result, x ∈ visited ∨ R x := by
  induction h with
  | done => exact fun x hx => .inl hx
  | skip _ _ ih => exact ih fun x hx => hqueue x (List.mem_cons_of_mem _ hx)
  | @take x queue visited result hx h ih =>
    have hqueue' : ∀ y ∈ queue ++ successors x, R y := by
      intro y hy
      obtain hy | hy := List.mem_append.1 hy
      · exact hqueue y (List.mem_cons_of_mem _ hy)
      · exact hR x (hqueue x List.mem_cons_self) y hy
    intro y hy
    obtain hy | hy := ih hqueue' y hy
    · obtain hy | hy := List.mem_append.1 hy
      · exact .inl hy
      · exact .inr (List.mem_singleton.1 hy ▸ hqueue x List.mem_cons_self)
    · exact .inr hy

theorem after {first rest visited result : List α} (h : Visits successors (first ++ rest) visited result) :
    ∃ new, (∀ x, x ∈ new ↔ x ∈ first ∧ x ∉ visited) ∧
      Visits successors (rest ++ new.flatMap successors) (visited ++ new) result := by
  induction first generalizing rest visited with
  | nil => exact ⟨[], by simp, by simpa using h⟩
  | cons x first ih =>
    cases h with
    | skip hx h =>
      obtain ⟨new, hnew, hrest⟩ := ih h
      refine ⟨new, fun y => ?_, hrest⟩
      rw [hnew, List.mem_cons]
      constructor
      · rintro ⟨hy, hnot⟩
        exact ⟨.inr hy, hnot⟩
      · rintro ⟨rfl | hy, hnot⟩
        · exact absurd hx hnot
        · exact ⟨hy, hnot⟩
    | take hx h =>
      have hmore : Visits successors (first ++ (rest ++ successors x)) (visited ++ [x]) result := by
        rw [← List.append_assoc]
        exact h
      obtain ⟨new, hnew, hrest⟩ := ih hmore
      refine ⟨x :: new, fun y => ?_, by simpa using hrest⟩
      rw [List.mem_cons, hnew, List.mem_cons, List.mem_append, List.mem_singleton, not_or]
      constructor
      · rintro (rfl | ⟨hy, hnot, -⟩)
        · exact ⟨.inl rfl, hx⟩
        · exact ⟨.inr hy, hnot⟩
      · rintro ⟨rfl | hy, hnot⟩
        · exact .inl rfl
        · by_cases hyx : y = x
          · exact .inl hyx
          · exact .inr ⟨hy, hnot, hyx⟩

/-- The last node of a kind, where it is the one successor of `x` and of no node of the
queue before it. -/
theorem last_iff {before after result : List α} {x target : α}
    (h : Visits successors (before ++ x :: after) [] result) (hx : x ∉ before) (htarget : successors x = [target])
    (hqueue : target ∉ before ++ x :: after) (hbefore : target ∉ before.flatMap successors) {kind : α → Bool}
    (hkind : kind target = true) :
    (result.filter kind).getLast? = some target ↔
      ∀ y ∈ result, kind y = true → y ≠ target → y ∈ before ++ x :: after ∨ y ∈ before.flatMap successors := by
  obtain ⟨new, hnew, hfirst⟩ := h.after
  rw [List.nil_append] at hfirst
  have hxnew : x ∉ new := fun hmem => hx ((hnew x).1 hmem).1
  obtain ⟨new', hnew', hsecond⟩ : ∃ new', (∀ y, y ∈ new' ↔ y ∈ after ∧ y ∉ new ++ [x]) ∧
      Visits successors (new.flatMap successors ++ [target] ++ new'.flatMap successors) (new ++ [x] ++ new')
        result := by
    cases hfirst with
    | skip hmem => exact absurd hmem hxnew
    | take _ hfirst =>
      have hmore : Visits successors (after ++ (new.flatMap successors ++ [target])) (new ++ [x]) result := by
        rw [← List.append_assoc, ← htarget]
        exact hfirst
      exact hmore.after
  rw [List.append_assoc] at hsecond
  obtain ⟨new'', hnew'', hthird⟩ := hsecond.after
  have hqueued : ∀ y, y ∈ new ++ [x] ++ new' ↔ y ∈ before ++ x :: after := by
    intro y
    simp only [List.mem_append, List.mem_cons, hnew, hnew', List.not_mem_nil, not_false_eq_true, and_true, or_false]
    tauto
  have hpushed : ∀ y ∈ new.flatMap successors, y ∈ before.flatMap successors := by
    intro y hy
    obtain ⟨z, hz, hyz⟩ := List.mem_flatMap.1 hy
    exact List.mem_flatMap.2 ⟨z, ((hnew z).1 hz).1, hyz⟩
  have hfresh : target ∉ new ++ [x] ++ new' ++ new'' := by
    intro hmem
    obtain hmem | hmem := List.mem_append.1 hmem
    · exact hqueue ((hqueued target).1 hmem)
    · exact hbefore (hpushed _ ((hnew'' target).1 hmem).1)
  cases hthird with
  | skip hmem => exact absurd hmem hfresh
  | take _ hthird =>
    obtain ⟨later, rfl⟩ := hthird.isPrefix
    have hnodup := h.nodup List.nodup_nil
    have hlast : ((new ++ [x] ++ new' ++ new'' ++ [target] ++ later).filter kind).getLast? = some target ↔
        later.filter kind = [] := by
      rw [List.filter_append, List.filter_append, List.filter_singleton, hkind, cond_true]
      constructor
      · intro hsome
        by_contra hne
        rw [List.getLast?_append_of_ne_nil _ hne] at hsome
        have hmem : target ∈ later := List.mem_of_mem_filter (List.mem_of_getLast? hsome)
        exact (List.nodup_append.1 hnodup).2.2 target (by simp) target hmem rfl
      · intro hnil
        rw [hnil, List.append_nil, List.getLast?_concat]
    rw [hlast, List.filter_eq_nil_iff]
    constructor
    · intro hnone y hy hkindy hne
      rw [List.mem_append, List.mem_append, List.mem_append] at hy
      obtain ((hy | hy) | hy) | hy := hy
      · exact .inl ((hqueued y).1 hy)
      · exact .inr (hpushed y ((hnew'' y).1 hy).1)
      · exact absurd (List.mem_singleton.1 hy) hne
      · exact absurd hkindy (hnone y hy)
    · intro hall y hy hkindy
      have hdisjoint := (List.nodup_append.1 hnodup).2.2
      have hne : y ≠ target := fun heq => hdisjoint target (by simp) y hy heq.symm
      obtain hy' | hy' := hall y (List.mem_append_right _ hy) hkindy hne
      · exact hdisjoint y (List.mem_append_left _ (List.mem_append_left _ ((hqueued y).2 hy'))) y hy rfl
      · obtain ⟨z, hz, hyz⟩ := List.mem_flatMap.1 hy'
        have hmem : y ∈ new.flatMap successors := List.mem_flatMap.2 ⟨z, (hnew z).2 ⟨hz, List.not_mem_nil⟩, hyz⟩
        by_cases hseen : y ∈ new ++ [x] ++ new'
        · exact hdisjoint y (List.mem_append_left _ (List.mem_append_left _ hseen)) y hy rfl
        · exact hdisjoint y (List.mem_append_left _ (List.mem_append_right _ ((hnew'' y).2 ⟨hmem, hseen⟩))) y hy rfl

end Visits

variable [DecidableEq α]

/-- The search with so many rounds at most. -/
def visit (successors : α → List α) : ℕ → List α → List α → List α
  | 0, _, visited => visited
  | _ + 1, [], visited => visited
  | fuel + 1, x :: queue, visited =>
    if x ∈ visited then visit successors fuel queue visited
    else visit successors fuel (queue ++ successors x) (visited ++ [x])

/-- The rounds that are left, in a graph of some nodes. -/
def rounds (successors : α → List α) (nodes : Finset α) (queue visited : List α) : ℕ :=
  queue.length + ∑ x ∈ nodes.filter (· ∉ visited), (successors x).length

theorem visits_visit {nodes : Finset α} (hnodes : ∀ x ∈ nodes, ∀ y ∈ successors x, y ∈ nodes) {fuel : ℕ}
    {queue visited : List α} (hqueue : ∀ x ∈ queue, x ∈ nodes) (hfuel : rounds successors nodes queue visited ≤ fuel) :
    Visits successors queue visited (visit successors fuel queue visited) := by
  induction fuel generalizing queue visited with
  | zero =>
    have hnil : queue = [] := List.length_eq_zero_iff.1 (by unfold rounds at hfuel; omega)
    rw [hnil]
    exact .done
  | succ fuel ih =>
    cases queue with
    | nil => exact .done
    | cons x queue =>
      rw [visit]
      have hx : x ∈ nodes := hqueue x List.mem_cons_self
      have hrest : ∀ y ∈ queue, y ∈ nodes := fun y hy => hqueue y (List.mem_cons_of_mem _ hy)
      unfold rounds at hfuel
      rw [List.length_cons] at hfuel
      split
      · rename_i hmem
        exact .skip hmem (ih hrest (by unfold rounds; omega))
      · rename_i hmem
        refine .take hmem (ih (fun y hy => ?_) ?_)
        · obtain hy | hy := List.mem_append.1 hy
          · exact hrest y hy
          · exact hnodes x hx y hy
        · have hfilter : nodes.filter (· ∉ visited ++ [x]) = (nodes.filter (· ∉ visited)).erase x := by
            ext y
            simp only [Finset.mem_filter, Finset.mem_erase, List.mem_append, List.mem_singleton, not_or]
            tauto
          have hsum := Finset.add_sum_erase (nodes.filter (· ∉ visited)) (fun y => (successors y).length)
            (Finset.mem_filter.2 ⟨hx, hmem⟩)
          unfold rounds
          rw [hfilter, List.length_append]
          omega

end BreadthFirst
