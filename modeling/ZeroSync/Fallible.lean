/-
Computations that can fail, taken apart: what a sequence that succeeds says
of its steps, and what every step of a loop keeps.
-/
import Mathlib.Data.List.Basic

namespace Fallible

variable {ε α β σ : Type}

theorem bind_ok {x : Except ε α} {f : α → Except ε β} {b : β} (h : x >>= f = .ok b) :
    ∃ a, x = .ok a ∧ f a = .ok b := by
  cases x with
  | error e => cases h
  | ok a => exact ⟨a, rfl, h⟩

theorem map_ok {x : Except ε α} {f : α → β} {b : β} (h : f <$> x = .ok b) : ∃ a, x = .ok a ∧ f a = b := by
  cases x with
  | error e => cases h
  | ok a => exact ⟨a, rfl, Except.ok.inj h⟩

theorem foldlM_ok {f : σ → α → Except ε σ} {I : σ → Prop} {l : List α}
    (hf : ∀ s a s', a ∈ l → I s → f s a = .ok s' → I s') {s s' : σ} (hI : I s) (h : l.foldlM f s = .ok s') : I s' := by
  induction l generalizing s with
  | nil =>
    obtain rfl := Except.ok.inj h
    exact hI
  | cons a l ih =>
    rw [List.foldlM_cons] at h
    obtain ⟨s₁, hs₁, h⟩ := bind_ok h
    exact ih (fun s a s' ha => hf s a s' (List.mem_cons_of_mem _ ha)) (hf s a s₁ (List.mem_cons_self ..) hI hs₁) h

theorem foldlM_total {f : σ → α → Except ε σ} {I : σ → Prop} {l : List α}
    (hf : ∀ s a, a ∈ l → I s → ∃ s', f s a = .ok s' ∧ I s') {s : σ} (hI : I s) : ∃ s', l.foldlM f s = .ok s' ∧ I s' := by
  induction l generalizing s with
  | nil => exact ⟨s, rfl, hI⟩
  | cons a l ih =>
    obtain ⟨s₁, hs₁, hI₁⟩ := hf s a (List.mem_cons_self ..) hI
    obtain ⟨s', hs', hI'⟩ := ih (fun s a ha => hf s a (List.mem_cons_of_mem _ ha)) hI₁
    exact ⟨s', by rw [List.foldlM_cons, hs₁]; exact hs', hI'⟩

/-- A computation for each element of a list, when each succeeds under its condition. -/
theorem mapM_ite {f : α → Except ε β} {g : α → β} {p : α → Prop} [DecidablePred p] {e : ε} {l : List α}
    (hf : ∀ a ∈ l, f a = if p a then .ok (g a) else .error e) :
    l.mapM f = if ∀ a ∈ l, p a then .ok (l.map g) else .error e := by
  induction l with
  | nil => simp [List.mapM_nil, pure, Except.pure]
  | cons a l ih =>
    rw [List.mapM_cons, hf a (List.mem_cons_self ..), ih fun b hb => hf b (List.mem_cons_of_mem _ hb)]
    by_cases ha : p a
    · rw [if_pos ha]
      by_cases hl : ∀ b ∈ l, p b
      · rw [if_pos hl, if_pos (List.forall_mem_cons.mpr ⟨ha, hl⟩)]
        rfl
      · rw [if_neg hl, if_neg (fun h => hl (List.forall_mem_cons.mp h).2)]
        rfl
    · rw [if_neg ha, if_neg (fun h => ha (List.forall_mem_cons.mp h).1)]
      rfl

end Fallible
