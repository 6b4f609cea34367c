/-
A log of entries. An entry is kept as rows, each with the label of its entry
and its position in it; where the labels increase, so do the keys of the rows
(`sorted_rows`).
-/
import Mathlib.Data.List.Lex
import Mathlib.Data.Prod.Lex
import Mathlib.Order.Defs.LinearOrder

/-- How entries are kept as rows. -/
structure RowFormat (W β ρ : Type*) where
  label : β → W
  items : β → List ρ
  labelOf : ρ → W
  posOf : ρ → ℕ
  labelled : ∀ b, ∀ r ∈ items b, labelOf r = label b
  placed : ∀ b i r, (items b)[i]? = some r → posOf r = i
  nonempty : ∀ b, items b ≠ []

namespace RowFormat

variable {W β ρ : Type*} (F : RowFormat W β ρ)

def rows (l : List β) : List ρ := l.flatMap F.items

def keyOf (r : ρ) : W ×ₗ ℕ := toLex (F.labelOf r, F.posOf r)

variable {F} {l : List β}

@[simp] theorem rows_cons (b : β) (l : List β) : F.rows (b :: l) = F.items b ++ F.rows l := List.flatMap_cons

@[simp] theorem rows_append (l l' : List β) : F.rows (l ++ l') = F.rows l ++ F.rows l' := List.flatMap_append

theorem mem_rows {r : ρ} : r ∈ F.rows l ↔ ∃ b ∈ l, r ∈ F.items b := List.mem_flatMap

theorem filter_items (p : W → Bool) (b : β) (torn : ℕ) :
    ((F.items b).drop torn).filter (fun r => p (F.labelOf r)) = if p (F.label b) then (F.items b).drop torn else [] := by
  split
  · rename_i h
    exact List.filter_eq_self.mpr fun r hr => by rwa [F.labelled b r (List.mem_of_mem_drop hr)]
  · rename_i h
    exact List.filter_eq_nil_iff.mpr fun r hr => by rwa [F.labelled b r (List.mem_of_mem_drop hr)]

theorem filter_rows (p : W → Bool) (l : List β) :
    (F.rows l).filter (fun r => p (F.labelOf r)) = F.rows (l.filter fun b => p (F.label b)) := by
  induction l with
  | nil => rfl
  | cons b l ih =>
    have hb := filter_items (F := F) p b 0
    rw [List.drop_zero] at hb
    rw [rows_cons, List.filter_append, ih, hb, List.filter_cons]
    split
    · rw [rows_cons]
    · rfl

/-! ## Entries in the order of their labels -/

variable [LinearOrder W] {x : W}

variable (F) in
def Increasing (l : List β) : Prop := l.Pairwise fun a b => F.label a < F.label b

theorem Increasing.cut_upward (h : F.Increasing l) (p : W → Bool) (hp : ∀ a b, a < b → p a → p b) :
    l.filter (fun b => !p (F.label b)) ++ l.filter (fun b => p (F.label b)) = l := by
  induction l with
  | nil => rfl
  | cons b l ih =>
    obtain ⟨hb, hl⟩ := List.pairwise_cons.mp h
    by_cases hpb : p (F.label b)
    · have hall : ∀ c ∈ b :: l, p (F.label c) := by
        intro c hc
        rcases List.mem_cons.mp hc with rfl | hc
        · exact hpb
        · exact hp _ _ (hb c hc) hpb
      rw [List.filter_eq_nil_iff.mpr fun c hc => by simpa using hall c hc,
        List.filter_eq_self.mpr fun c hc => hall c hc, List.nil_append]
    · rw [List.filter_cons_of_pos (by simpa using hpb), List.filter_cons_of_neg (by simpa using hpb), List.cons_append,
        ih hl]

theorem Increasing.filter (h : F.Increasing l) (p : β → Bool) : F.Increasing (l.filter p) := List.Pairwise.filter p h

theorem sorted_items (b : β) : (F.items b).Pairwise fun a b => F.keyOf a < F.keyOf b := by
  refine List.pairwise_iff_getElem.mpr fun i j hi hj hij => ?_
  refine Prod.Lex.toLex_lt_toLex.mpr (.inr ⟨?_, ?_⟩)
  · exact (F.labelled b _ (List.getElem_mem hi)).trans (F.labelled b _ (List.getElem_mem hj)).symm
  · simpa [F.placed b i _ (List.getElem?_eq_getElem hi), F.placed b j _ (List.getElem?_eq_getElem hj)] using hij

theorem sorted_rows (h : F.Increasing l) : (F.rows l).Pairwise fun a b => F.keyOf a < F.keyOf b := by
  induction l with
  | nil => exact .nil
  | cons b l ih =>
    obtain ⟨hb, hl⟩ := List.pairwise_cons.mp h
    refine List.pairwise_append.mpr ⟨sorted_items b, ih hl, fun r hr r' hr' => ?_⟩
    obtain ⟨c, hc, hr'⟩ := mem_rows.mp hr'
    refine Prod.Lex.toLex_lt_toLex.mpr (.inl ?_)
    simpa [F.labelled b r hr, F.labelled c r' hr'] using hb c hc

end RowFormat
