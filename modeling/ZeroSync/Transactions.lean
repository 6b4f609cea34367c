/-
Streams of transactions: what begins is committed before the next begins, and
each has a greater mark than the one before.

A stream that has been cut off anywhere is its complete transactions and then,
it may be, one that is open (`Stream`). The next item extends it in one way.
-/
import Mathlib.Order.Basic
import Mathlib.Data.List.Chain

namespace Transactions

variable {ω γ : Type*}

/-- A transaction of changes, committed at a mark. -/
structure Transaction (ω γ : Type*) where
  mark : ω
  changes : List γ

inductive Item (ω γ : Type*)
  | begin (mark : ω)
  | data (change : γ)
  | commit (mark : ω)

/-- A transaction up to its commit. -/
def Transaction.opening (t : Transaction ω γ) : List (Item ω γ) := .begin t.mark :: t.changes.map .data

def Transaction.items (t : Transaction ω γ) : List (Item ω γ) := t.opening ++ [.commit t.mark]

/-- The mark of the last transaction that is complete. -/
def last (initial : ω) (complete : List (Transaction ω γ)) : ω := (complete.map Transaction.mark).getLastD initial

/-- A stream of transactions above `initial`, of changes that their transactions may hold. -/
structure Stream [LT ω] (initial : ω) (fits : ω → γ → Prop) (items : List (Item ω γ))
    (complete : List (Transaction ω γ)) (current : Option (Transaction ω γ)) : Prop where
  items : items = complete.flatMap Transaction.items ++ current.elim [] Transaction.opening
  marks : (initial :: (complete ++ current.toList).map Transaction.mark).Pairwise (· < ·)
  fits : ∀ t ∈ complete ++ current.toList, ∀ c ∈ t.changes, fits t.mark c

variable [Preorder ω] {initial : ω} {fits : ω → γ → Prop} {items : List (Item ω γ)} {complete : List (Transaction ω γ)}
  {t : Transaction ω γ} {mark : ω}

omit [Preorder ω] in
theorem last_concat : last initial (complete ++ [t]) = t.mark := by simp [last]

theorem Stream.empty : Stream initial fits ([] : List (Item ω γ)) [] none := ⟨rfl, by simp, by simp⟩

theorem pairwise_concat (h : (initial :: complete.map Transaction.mark).Pairwise (· < ·)) (hmark : last initial complete < mark) :
    (initial :: (complete.map Transaction.mark ++ [mark])).Pairwise (· < ·) := by
  rw [← List.cons_append]
  refine List.isChain_iff_pairwise.mp (List.isChain_append.mpr ⟨List.isChain_iff_pairwise.mpr h, by simp, ?_⟩)
  intro x hx y hy
  obtain rfl : mark = y := by simpa using hy
  have hlast : x = last initial complete := by
    rw [last, List.getLastD_eq_getLast?]
    cases hmap : complete.map Transaction.mark with
    | nil => simpa [hmap, eq_comm] using hx
    | cons a l =>
      rw [hmap, List.getLast?_cons_cons] at hx
      simp [Option.mem_def.mp hx]
  exact hlast ▸ hmark

theorem Stream.begin (h : Stream initial fits items complete none) (hmark : last initial complete < mark) :
    Stream initial fits (items ++ [.begin mark]) complete (some ⟨mark, []⟩) where
  items := by simp [h.items, Transaction.opening]
  marks := by
    have hmarks := h.marks
    simp only [Option.toList_none, List.append_nil] at hmarks
    simpa using pairwise_concat hmarks hmark
  fits := by
    intro t ht c hc
    rcases List.mem_append.mp ht with hold | hnew
    · exact h.fits t (List.mem_append_left _ hold) c hc
    · obtain rfl : t = ⟨mark, []⟩ := by simpa using hnew
      cases hc

theorem Stream.data {c : γ} (h : Stream initial fits items complete (some t)) (hfits : fits t.mark c) :
    Stream initial fits (items ++ [.data c]) complete (some { t with changes := t.changes ++ [c] }) where
  items := by simp [h.items, Transaction.opening]
  marks := by simpa using h.marks
  fits := by
    intro t' ht' c' hc'
    rcases List.mem_append.mp ht' with hold | hnew
    · exact h.fits t' (List.mem_append_left _ hold) c' hc'
    · obtain rfl : t' = { t with changes := t.changes ++ [c] } := by simpa using hnew
      rcases List.mem_append.mp hc' with hold | hnew
      · exact h.fits t (by simp) c' hold
      · obtain rfl := List.mem_singleton.mp hnew
        exact hfits

theorem Stream.commit (h : Stream initial fits items complete (some t)) :
    Stream initial fits (items ++ [.commit t.mark]) (complete ++ [t]) none where
  items := by simp [h.items, Transaction.items]
  marks := by simpa using h.marks
  fits := by simpa using h.fits

end Transactions
