/-
Words in lexicographic order: the words with a prefix are an interval, and two
words joined by a separator that is the least letter are ordered by the first and
then by the second.
-/
import Mathlib

namespace PrefixOrder

variable {α : Type*} [LinearOrder α] {p k k₁ k₂ a b c d : List α} {z : α}

theorem nil_le (l : List α) : [] ≤ l := not_lt.mp (List.not_lt_nil l)

theorem cons_le_cons {x y : α} {l m : List α} : x :: l ≤ y :: m ↔ x < y ∨ x = y ∧ l ≤ m := by
  rw [← not_lt, List.cons_lt_cons_iff, ← not_lt (b := l)]
  rcases lt_trichotomy x y with h | rfl | h
  · simp [h, h.asymm, h.ne']
  · simp
  · simp [h, h.asymm, h.ne']

theorem le_of_prefix (h : p <+: k) : p ≤ k := by
  obtain ⟨rest, rfl⟩ := h
  induction p with
  | nil => exact nil_le _
  | cons x p ih => exact cons_le_cons.mpr (.inr ⟨rfl, ih⟩)

theorem prefix_of_between (hp : p ≤ k₁) (hk : k₁ ≤ k₂) (h : p <+: k₂) : p <+: k₁ := by
  induction p generalizing k₁ k₂ with
  | nil => exact List.nil_prefix
  | cons x p ih =>
    obtain ⟨rest, rfl⟩ := h
    cases k₁ with
    | nil => exact absurd (List.nil_lt_cons x p) (not_lt.mpr hp)
    | cons y k₁ =>
      rw [List.cons_append] at hk
      rcases cons_le_cons.mp hp with hlt | ⟨rfl, hpk⟩
      · rcases cons_le_cons.mp hk with hlt' | ⟨rfl, -⟩
        · exact absurd hlt' hlt.asymm
        · exact absurd hlt (lt_irrefl _)
      · rcases cons_le_cons.mp hk with hlt' | ⟨-, hkr⟩
        · exact absurd hlt' (lt_irrefl _)
        · exact List.cons_prefix_cons.mpr ⟨rfl, ih hpk hkr ⟨rest, rfl⟩⟩

theorem lt_of_ne_least (hz : ∀ x, z ≤ x) {x : α} {l : List α} (h : z ∉ x :: l) : z < x :=
  lt_of_le_of_ne (hz x) fun heq => h (heq ▸ List.mem_cons_self ..)

/-- A word below a joined word, without the separator in it, is not above the first. -/
theorem le_of_le_join (hz : ∀ x, z ≤ x) (ha : z ∉ a) (h : a ≤ b ++ z :: c) : a ≤ b := by
  induction a generalizing b with
  | nil => exact nil_le _
  | cons x a ih =>
    cases b with
    | nil =>
      have hx := lt_of_ne_least hz ha
      rw [List.nil_append] at h
      rcases cons_le_cons.mp h with hlt | ⟨rfl, -⟩
      · exact absurd hlt hx.asymm
      · exact absurd hx (lt_irrefl _)
    | cons y b =>
      rw [List.cons_append] at h
      rcases cons_le_cons.mp h with hlt | ⟨rfl, hle⟩
      · exact cons_le_cons.mpr (.inl hlt)
      · exact cons_le_cons.mpr (.inr ⟨rfl, ih (fun h => ha (List.mem_cons_of_mem _ h)) hle⟩)

theorem join_le (hz : ∀ x, z ≤ x) (ha : z ∉ a) (hb : z ∉ b) (h : a ++ z :: c ≤ b ++ z :: d) :
    a < b ∨ a = b ∧ c ≤ d := by
  induction a generalizing b with
  | nil =>
    cases b with
    | nil =>
      rcases cons_le_cons.mp h with hlt | ⟨-, h⟩
      · exact absurd hlt (lt_irrefl _)
      · exact .inr ⟨rfl, h⟩
    | cons y b => exact .inl (List.nil_lt_cons y b)
  | cons x a ih =>
    cases b with
    | nil =>
      have hx := lt_of_ne_least hz ha
      rw [List.cons_append, List.nil_append] at h
      rcases cons_le_cons.mp h with hlt | ⟨rfl, -⟩
      · exact absurd hlt hx.asymm
      · exact absurd hx (lt_irrefl _)
    | cons y b =>
      rw [List.cons_append, List.cons_append] at h
      rcases cons_le_cons.mp h with hlt | ⟨rfl, hrest⟩
      · exact .inl (List.cons_lt_cons_iff.mpr (.inl hlt))
      · rcases ih (fun h => ha (List.mem_cons_of_mem _ h)) (fun h => hb (List.mem_cons_of_mem _ h)) hrest with
          hlt | ⟨rfl, hle⟩
        · exact .inl (List.cons_lt_cons_iff.mpr (.inr ⟨rfl, hlt⟩))
        · exact .inr ⟨rfl, hle⟩

theorem join_le_iff (hz : ∀ x, z ≤ x) (ha : z ∉ a) (hb : z ∉ b) :
    a ++ z :: c ≤ b ++ z :: d ↔ a < b ∨ a = b ∧ c ≤ d := by
  refine ⟨join_le hz ha hb, fun h => not_lt.mp fun hlt => ?_⟩
  rcases join_le hz hb ha hlt.le with hlt' | ⟨rfl, hle⟩
  · rcases h with hab | ⟨rfl, -⟩
    · exact absurd hlt' hab.asymm
    · exact absurd hlt' (lt_irrefl _)
  · rcases h with hab | ⟨-, hcd⟩
    · exact absurd hab (lt_irrefl _)
    · exact absurd hlt (by rw [le_antisymm hcd hle]; exact lt_irrefl _)

omit [LinearOrder α] in
theorem prefix_join (hp : z ∉ p) : p <+: a ++ z :: c ↔ p <+: a := by
  refine ⟨fun h => ?_, fun h => h.trans (List.prefix_append _ _)⟩
  induction p generalizing a with
  | nil => exact List.nil_prefix
  | cons x p ih =>
    cases a with
    | nil =>
      obtain ⟨rfl, -⟩ := List.cons_prefix_cons.mp h
      exact absurd (List.mem_cons_self ..) hp
    | cons y a =>
      obtain ⟨rfl, hrest⟩ := List.cons_prefix_cons.mp h
      exact List.cons_prefix_cons.mpr ⟨rfl, ih (fun h => hp (List.mem_cons_of_mem _ h)) hrest⟩

end PrefixOrder
