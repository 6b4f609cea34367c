/-
Streams run to their end.

A stream that may fail is a list in `Except`; when every step succeeds so does
the run, and its results stand to the inputs one by one.
-/
import Mathlib.Data.List.Forall2

variable {α β ε : Type*}

theorem List.mapM_ok_forall₂ {f : α → Except ε β} {P : α → β → Prop} {l : List α}
    (h : ∀ a ∈ l, ∃ b, f a = .ok b ∧ P a b) : ∃ bs, l.mapM f = .ok bs ∧ List.Forall₂ P l bs := by
  induction l with
  | nil => exact ⟨[], rfl, .nil⟩
  | cons a l ih =>
    obtain ⟨b, hb, hp⟩ := h a (by simp)
    obtain ⟨bs, hbs, hps⟩ := ih fun a ha => h a (by simp [ha])
    refine ⟨b :: bs, ?_, .cons hp hps⟩
    rw [List.mapM_cons, hb]
    simp only [bind, Except.bind]
    rw [hbs]
    rfl

theorem List.mapM_ok {f : α → Except ε β} {g : α → β} {l : List α} (h : ∀ a ∈ l, f a = .ok (g a)) :
    l.mapM f = .ok (l.map g) := by
  obtain ⟨bs, hbs, hall⟩ := List.mapM_ok_forall₂ (P := fun a b => b = g a) fun a ha => ⟨g a, h a ha, rfl⟩
  rw [hbs]
  clear hbs h
  induction hall with
  | nil => rfl
  | cons hb _ ih => rw [List.map_cons, hb, Except.ok.inj ih]

theorem List.forall₂_of_mapM_ok {f : α → Except ε β} {l : List α} {bs : List β} (h : l.mapM f = .ok bs) :
    List.Forall₂ (fun a b => f a = .ok b) l bs := by
  induction l generalizing bs with
  | nil =>
    obtain rfl := Except.ok.inj h
    exact .nil
  | cons a l ih =>
    rw [List.mapM_cons] at h
    cases hb : f a with
    | error e => rw [hb] at h; cases h
    | ok b =>
      cases hl : l.mapM f with
      | error e => rw [hb, hl] at h; cases h
      | ok bs' =>
        rw [hb, hl] at h
        obtain rfl := Except.ok.inj h
        exact .cons hb (ih hl)

theorem List.Forall₂.exists_of_mem {R : α → β → Prop} {l : List α} {l' : List β} (h : List.Forall₂ R l l')
    {b : β} (hb : b ∈ l') : ∃ a ∈ l, R a b := by
  obtain ⟨i, hi, rfl⟩ := List.getElem_of_mem hb
  have hi' : i < l.length := h.length_eq ▸ hi
  exact ⟨l[i], List.getElem_mem hi', h.get hi' hi⟩
