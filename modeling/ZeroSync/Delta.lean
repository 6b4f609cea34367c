/-
Collections maintained by deltas: what it means to apply an add, a remove,
an edit or a touch to a collection, and to apply a run of them while
something is said of every collection on the way.

A collection is a list up to its order. Applying a delta determines the
result (`Delta.Applies.det`), so a consumer that applies what it is told
holds what the producer's chain of collections ends with (`Applied.det`).
-/
import Mathlib.Data.List.Perm.Basic

/-- A change to a collection of `α`s. -/
inductive Delta (α : Type*)
  | add (a : α)
  | remove (a : α)
  | edit (new old : α)
  | touch (a : α)

variable {α σ : Type*}

/-- The delta takes the first collection to the second: what is added is
new, what is removed, edited or touched is there. -/
def Delta.Applies : Delta α → List α → List α → Prop
  | .add a, l, l' => a ∉ l ∧ l'.Perm (a :: l)
  | .remove a, l, l' => l.Perm (a :: l')
  | .edit a b, l, l' => ∃ k, l.Perm (b :: k) ∧ l'.Perm (a :: k)
  | .touch a, l, l' => a ∈ l ∧ l'.Perm l

/-- A run of deltas, each with the state it is announced in, takes the first
collection to the last; `Q` holds of every state with the collection its
delta leaves. -/
inductive Applied (Q : σ → List α → Prop) : List (Delta α × σ) → List α → List α → Prop
  | nil {l l'} : l'.Perm l → Applied Q [] l l'
  | cons {d s es l k l'} : d.Applies l k → Q s k → Applied Q es k l' → Applied Q ((d, s) :: es) l l'

theorem Delta.Applies.congr {d : Delta α} {l l' m m' : List α} (h : d.Applies l l') (hl : m.Perm l)
    (hl' : m'.Perm l') : d.Applies m m' := by
  cases d with
  | add a => exact ⟨fun hm => h.1 (hl.subset hm), hl'.trans (h.2.trans (hl.symm.cons a))⟩
  | remove a => exact hl.trans (h.trans (hl'.symm.cons a))
  | edit a b =>
    obtain ⟨k, h₁, h₂⟩ := h
    exact ⟨k, hl.trans h₁, hl'.trans h₂⟩
  | touch a => exact ⟨hl.symm.subset h.1, hl'.trans (h.2.trans hl.symm)⟩

theorem Delta.Applies.det {d : Delta α} {l l' m m' : List α} (h : d.Applies l l') (hm : d.Applies m m')
    (hl : l.Perm m) : l'.Perm m' := by
  cases d with
  | add a => exact h.2.trans ((hl.cons a).trans hm.2.symm)
  | remove a => exact (List.perm_cons a).mp (h.symm.trans (hl.trans hm))
  | edit a b =>
    obtain ⟨k, h₁, h₂⟩ := h
    obtain ⟨k', h₁', h₂'⟩ := hm
    have hk : k.Perm k' := (List.perm_cons b).mp (h₁.symm.trans (hl.trans h₁'))
    exact h₂.trans ((hk.cons a).trans h₂'.symm)
  | touch a => exact h.2.trans (hl.trans hm.2.symm)

/-- What the delta names. -/
def Delta.names : Delta α → List α
  | .add a | .remove a | .touch a => [a]
  | .edit a b => [a, b]

theorem Delta.Applies.filter {d : Delta α} {l l' : List α} {p : α → Bool} (h : d.Applies l l')
    (hp : ∀ a ∈ d.names, p a) : d.Applies (l.filter p) (l'.filter p) := by
  cases d with
  | add a =>
    have ha : p a := hp a (by simp [names])
    exact ⟨fun hm => h.1 (List.mem_of_mem_filter hm), by simpa [ha] using h.2.filter p⟩
  | remove a =>
    have ha : p a := hp a (by simp [names])
    simpa [Delta.Applies, ha] using List.Perm.filter p h
  | edit a b =>
    have ha : p a := hp a (by simp [names])
    have hb : p b := hp b (by simp [names])
    obtain ⟨k, h₁, h₂⟩ := h
    exact ⟨k.filter p, by simpa [hb] using h₁.filter p, by simpa [ha] using h₂.filter p⟩
  | touch a => exact ⟨List.mem_filter.mpr ⟨h.1, hp a (by simp [names])⟩, h.2.filter p⟩

theorem Delta.Applies.filter_of_not {d : Delta α} {l l' : List α} {p : α → Bool} (h : d.Applies l l')
    (hp : ∀ a ∈ d.names, p a = false) : (l'.filter p).Perm (l.filter p) := by
  cases d with
  | add a =>
    have ha : p a = false := hp a (by simp [names])
    simpa [ha] using h.2.filter p
  | remove a =>
    have ha : p a = false := hp a (by simp [names])
    have h' := List.Perm.filter p h
    simp only [List.filter_cons, ha, Bool.false_eq_true, if_false] at h'
    exact h'.symm
  | edit a b =>
    have ha : p a = false := hp a (by simp [names])
    have hb : p b = false := hp b (by simp [names])
    obtain ⟨k, h₁, h₂⟩ := h
    have h₁ := h₁.filter p
    have h₂ := h₂.filter p
    simp only [List.filter_cons, ha, hb, Bool.false_eq_true, if_false] at h₁ h₂
    exact h₂.trans h₁.symm
  | touch a => exact h.2.filter p

theorem Applied.congr {Q : σ → List α → Prop} {es : List (Delta α × σ)} {l l' m m' : List α}
    (h : Applied Q es l l') (hl : m.Perm l) (hl' : m'.Perm l') : Applied Q es m m' := by
  induction h generalizing m with
  | nil hp => exact .nil (hl'.trans (hp.trans hl.symm))
  | cons hd hq _ ih => exact .cons (hd.congr hl (.refl _)) hq (ih (.refl _) hl')

/-- **A run of deltas has one result**, whatever is said of the collections on the way. -/
theorem Applied.det {τ : Type*} {Q : σ → List α → Prop} {Q' : τ → List α → Prop} {es : List (Delta α × σ)}
    {es' : List (Delta α × τ)} {l l' m m' : List α} (h : Applied Q es l l') (hm : Applied Q' es' m m')
    (hes : es.map (·.1) = es'.map (·.1)) (hl : l.Perm m) : l'.Perm m' := by
  induction h generalizing es' m with
  | nil hp =>
    obtain rfl : es' = [] := by simpa using hes
    cases hm with
    | nil hp' => exact hp.trans (hl.trans hp'.symm)
  | cons hd _ _ ih =>
    cases hm with
    | nil => simp at hes
    | cons hd' _ hm =>
      simp only [List.map_cons, List.cons.injEq] at hes
      obtain ⟨rfl, hes⟩ := hes
      exact ih hm hes (hd.det hd' hl)

theorem Applied.imp {Q Q' : σ → List α → Prop} {es : List (Delta α × σ)} {l l' : List α}
    (h : Applied Q es l l') (hq : ∀ e ∈ es, ∀ k, Q e.2 k → Q' e.2 k) : Applied Q' es l l' := by
  induction h with
  | nil hp => exact .nil hp
  | cons hd hs _ ih => exact .cons hd (hq (_, _) List.mem_cons_self _ hs) (ih fun e he => hq e (by simp [he]))
