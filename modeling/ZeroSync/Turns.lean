/-
Producers that take turns at a stream of transactions.

The stream is free, at the mark of its last transaction, or one producer has it;
the others wait in line. Who has it begins, fills and commits transactions, and
hands it over to the first that waits, with the mark of the last.
-/
import Mathlib.Data.List.Nodup
import Mathlib.Logic.Function.Basic
import ZeroSync.Transactions

namespace Turns

open Transactions

variable {ρ ω γ : Type*} [DecidableEq ρ]

/-- Where a producer is: it has the stream when it is between or inside transactions. -/
inductive Party (ω : Type*)
  | idle
  | awaiting
  | between (mark : ω)
  | inside (mark : ω)

/-- The stream, who waits for it, and where each producer is. -/
structure State (ρ ω γ : Type*) where
  free : Option ω
  waiters : List ρ
  items : List (Item ω γ)
  party : ρ → Party ω

namespace State

def setParty (s : State ρ ω γ) (p : ρ) (x : Party ω) : State ρ ω γ := { s with party := Function.update s.party p x }

def push (s : State ρ ω γ) (item : Item ω γ) : State ρ ω γ := { s with items := s.items ++ [item] }

def reserve (s : State ρ ω γ) (p : ρ) : State ρ ω γ :=
  match s.free with
  | some mark => { s with free := none }.setParty p (.between mark)
  | none => { s with waiters := s.waiters ++ [p] }.setParty p .awaiting

/-- Frees the stream, or gives it to the first that waits. -/
def handOver (s : State ρ ω γ) (mark : ω) : State ρ ω γ :=
  match s.waiters with
  | [] => { s with free := some mark }
  | q :: waiters => { s with waiters }.setParty q (.between mark)

def release (s : State ρ ω γ) (p : ρ) (mark : ω) : State ρ ω γ := (s.handOver mark).setParty p .idle

def begin (s : State ρ ω γ) (p : ρ) (mark : ω) : State ρ ω γ := (s.push (.begin mark)).setParty p (.inside mark)

def commit (s : State ρ ω γ) (p : ρ) (mark : ω) : State ρ ω γ := (s.push (.commit mark)).setParty p (.between mark)

end State

theorem State.release_setParty (s : State ρ ω γ) (p : ρ) (x : Party ω) (mark : ω) :
    (s.setParty p x).release p mark = s.release p mark := by
  simp only [release, handOver, setParty]
  cases s.waiters with
  | nil => simp
  | cons q waiters =>
    by_cases hq : q = p
    · simp [hq]
    · simp [Function.update_comm hq]

theorem State.handOver_setParty {s : State ρ ω γ} {p : ρ} (x : Party ω) (mark : ω) (hp : p ∉ s.waiters) :
    (s.setParty p x).handOver mark = (s.handOver mark).setParty p x := by
  simp only [handOver, setParty]
  cases hw : s.waiters with
  | nil => rfl
  | cons q waiters =>
    have hne : q ≠ p := fun he => hp (by simp [hw, he])
    simp [Function.update_comm hne]

/-- Whose turn it is, after the last complete transaction and in the current one. -/
inductive Turn (s : State ρ ω γ) (lastMark : ω) : Option (Transaction ω γ) → Prop
  | free : s.free = some lastMark → (∀ p, s.party p = .idle) → Turn s lastMark none
  | between (p : ρ) : s.free = none → s.party p = .between lastMark →
      (∀ q, q ≠ p → s.party q = .idle ∨ s.party q = .awaiting) → Turn s lastMark none
  | inside (p : ρ) (t : Transaction ω γ) : s.free = none → s.party p = .inside t.mark →
      (∀ q, q ≠ p → s.party q = .idle ∨ s.party q = .awaiting) → Turn s lastMark (some t)

/-- A stream of transactions whose producers take turns. -/
structure Inv [LT ω] (initial : ω) (fits : ω → γ → Prop) (s : State ρ ω γ) (complete : List (Transaction ω γ))
    (current : Option (Transaction ω γ)) : Prop where
  stream : Stream initial fits s.items complete current
  nodup : s.waiters.Nodup
  mem_waiters : ∀ p, p ∈ s.waiters ↔ s.party p = .awaiting
  turn : Turn s (last initial complete) current

section

variable [LT ω] {initial : ω} {fits : ω → γ → Prop} {s : State ρ ω γ} {complete : List (Transaction ω γ)}
  {current : Option (Transaction ω γ)} {p : ρ} {mark : ω}

omit [DecidableEq ρ] in
theorem Inv.of_between (h : Inv initial fits s complete current) (hp : s.party p = .between mark) :
    mark = last initial complete ∧ current = none ∧ s.free = none ∧
      ∀ q, q ≠ p → s.party q = .idle ∨ s.party q = .awaiting := by
  cases h.turn with
  | free _ hidle => rw [hidle p] at hp; cases hp
  | between p' hfree hp' hothers =>
    by_cases hpp : p = p'
    · subst hpp
      rw [hp] at hp'
      exact ⟨Party.between.inj hp', rfl, hfree, hothers⟩
    · rcases hothers p hpp with hq | hq <;> rw [hq] at hp <;> cases hp
  | inside p' t _ hp' hothers =>
    by_cases hpp : p = p'
    · subst hpp
      rw [hp] at hp'
      cases hp'
    · rcases hothers p hpp with hq | hq <;> rw [hq] at hp <;> cases hp

omit [DecidableEq ρ] in
theorem Inv.of_inside (h : Inv initial fits s complete current) (hp : s.party p = .inside mark) :
    ∃ t, current = some t ∧ t.mark = mark ∧ s.free = none ∧
      ∀ q, q ≠ p → s.party q = .idle ∨ s.party q = .awaiting := by
  cases h.turn with
  | free _ hidle => rw [hidle p] at hp; cases hp
  | between p' _ hp' hothers =>
    by_cases hpp : p = p'
    · subst hpp
      rw [hp] at hp'
      cases hp'
    · rcases hothers p hpp with hq | hq <;> rw [hq] at hp <;> cases hp
  | inside p' t hfree hp' hothers =>
    by_cases hpp : p = p'
    · subst hpp
      rw [hp] at hp'
      exact ⟨t, rfl, (Party.inside.inj hp').symm, hfree, hothers⟩
    · rcases hothers p hpp with hq | hq <;> rw [hq] at hp <;> cases hp

theorem Inv.reserve (h : Inv initial fits s complete current) (hp : s.party p = .idle) :
    Inv initial fits (s.reserve p) complete current := by
  have hnot : p ∉ s.waiters := fun hmem => by
    rw [h.mem_waiters, hp] at hmem
    cases hmem
  rw [State.reserve]
  cases hfree : s.free with
  | some w =>
    cases h.turn with
    | free hlast hidle =>
      obtain rfl := Option.some.inj (hfree.symm.trans hlast)
      refine ⟨h.stream, h.nodup, fun q => ?_, .between p rfl (by simp [State.setParty]) fun q hq => .inl ?_⟩
      · by_cases hq : q = p
        · simpa [State.setParty, hq] using hnot
        · simpa [State.setParty, hq] using h.mem_waiters q
      · simpa [State.setParty, hq] using hidle q
    | between _ hnone | inside _ _ hnone => rw [hnone] at hfree; cases hfree
  | none =>
    have hmem (q : ρ) : q ∈ s.waiters ++ [p] ↔ Function.update s.party p .awaiting q = .awaiting := by
      by_cases hq : q = p
      · simp [hq]
      · simpa [hq] using h.mem_waiters q
    have hwait (q p' : ρ) (hother : q ≠ p' → s.party q = .idle ∨ s.party q = .awaiting) (hq : q ≠ p') :
        Function.update s.party p .awaiting q = .idle ∨ Function.update s.party p .awaiting q = .awaiting := by
      by_cases hqp : q = p
      · simp [hqp]
      · simpa [hqp] using hother hq
    refine ⟨h.stream, h.nodup.append (by simp) (by simpa using hnot), hmem, ?_⟩
    cases h.turn with
    | free hlast => rw [hlast] at hfree; cases hfree
    | between p' hnone hp' hothers =>
      have hne : p' ≠ p := fun he => by rw [he, hp] at hp'; cases hp'
      exact .between p' rfl (by simpa [State.setParty, hne] using hp') fun q => hwait q p' (hothers q)
    | inside p' t hnone hp' hothers =>
      have hne : p' ≠ p := fun he => by rw [he, hp] at hp'; cases hp'
      exact .inside p' t rfl (by simpa [State.setParty, hne] using hp') fun q => hwait q p' (hothers q)

theorem Inv.release (h : Inv initial fits s complete current) (hp : s.party p = .between mark) :
    Inv initial fits (s.release p mark) complete current := by
  obtain ⟨rfl, rfl, hfree, hothers⟩ := h.of_between hp
  rw [State.release, State.handOver]
  cases hwaiters : s.waiters with
  | nil =>
    have hidle (q : ρ) : Function.update s.party p .idle q = .idle := by
      by_cases hq : q = p
      · simp [hq]
      · rw [Function.update_of_ne hq]
        refine (hothers q hq).resolve_right fun hwait => ?_
        rw [← h.mem_waiters, hwaiters] at hwait
        cases hwait
    exact ⟨h.stream, List.nodup_nil, fun q => by simp [State.setParty, hidle], .free rfl hidle⟩
  | cons q rest =>
    have hnodup := h.nodup
    rw [hwaiters, List.nodup_cons] at hnodup
    have hq : s.party q = .awaiting := (h.mem_waiters q).mp (by simp [hwaiters])
    have hqp : q ≠ p := fun he => by rw [he, hp] at hq; cases hq
    refine ⟨h.stream, hnodup.2, fun q' => ?_, .between q hfree (by simp [State.setParty, hqp]) fun q' hq' => ?_⟩
    · have hmem := h.mem_waiters q'
      rw [hwaiters] at hmem
      by_cases hp' : q' = p
      · subst hp'
        have hne : ¬ q' = q := fun he => hqp he.symm
        simpa [State.setParty, hp, hne] using hmem
      · by_cases hq' : q' = q
        · subst hq'
          simpa [State.setParty, hp'] using hnodup.1
        · simpa [State.setParty, hp', hq'] using hmem
    · by_cases hp' : q' = p
      · simp [State.setParty, hp']
      · simpa [State.setParty, hp', hq'] using hothers q' hp'

/-- Which producers wait does not change when the one that has the stream goes on. -/
theorem Inv.mem_waiters_setParty (h : Inv initial fits s complete current) {x : Party ω} (hp : s.party p ≠ .awaiting)
    (hx : x ≠ .awaiting) (q : ρ) : q ∈ s.waiters ↔ Function.update s.party p x q = .awaiting := by
  by_cases hq : q = p
  · subst hq
    simp [h.mem_waiters, hp, hx]
  · simpa [hq] using h.mem_waiters q

omit [LT ω] in
theorem others_setParty {x : Party ω} (hothers : ∀ q, q ≠ p → s.party q = .idle ∨ s.party q = .awaiting) (q : ρ)
    (hq : q ≠ p) : Function.update s.party p x q = .idle ∨ Function.update s.party p x q = .awaiting := by
  simpa [hq] using hothers q hq

end

section

variable [Preorder ω] {initial : ω} {fits : ω → γ → Prop} {s : State ρ ω γ} {complete : List (Transaction ω γ)}
  {current : Option (Transaction ω γ)} {p : ρ} {mark : ω}

theorem Inv.begin (h : Inv initial fits s complete current) {w : ω} (hp : s.party p = .between w) (hmark : w < mark) :
    Inv initial fits (s.begin p mark) complete (some ⟨mark, []⟩) := by
  obtain ⟨rfl, rfl, hfree, hothers⟩ := h.of_between hp
  refine ⟨h.stream.begin hmark, h.nodup, h.mem_waiters_setParty (by simp [hp]) (by simp), ?_⟩
  exact .inside p ⟨mark, []⟩ hfree (by simp [State.begin, State.setParty]) (others_setParty hothers)

omit [DecidableEq ρ] in
theorem Inv.data (h : Inv initial fits s complete current) (hp : s.party p = .inside mark) {c : γ} (hc : fits mark c) :
    ∃ t, t.mark = mark ∧ Inv initial fits (s.push (.data c)) complete (some t) := by
  obtain ⟨t, rfl, rfl, hfree, hothers⟩ := h.of_inside hp
  refine ⟨{ t with changes := t.changes ++ [c] }, rfl, h.stream.data hc, h.nodup, h.mem_waiters, ?_⟩
  exact .inside p { t with changes := t.changes ++ [c] } hfree hp hothers

theorem Inv.commit (h : Inv initial fits s complete current) (hp : s.party p = .inside mark) :
    ∃ complete', last initial complete' = mark ∧ Inv initial fits (s.commit p mark) complete' none := by
  obtain ⟨t, rfl, rfl, hfree, hothers⟩ := h.of_inside hp
  refine ⟨complete ++ [t], last_concat, h.stream.commit, h.nodup, h.mem_waiters_setParty (by simp [hp]) (by simp), ?_⟩
  rw [last_concat]
  exact .between p hfree (by simp [State.commit, State.setParty]) (others_setParty hothers)

end

end Turns
