/-
Partial maps that are changed an entry at a time, and may refuse to be: an
entry can be given another key only when that key is free.

`Represents` says which entries a map has. Entries that are given their new
keys one after another all get them exactly when none takes a key that a later
one still has (`Moves`); what else refers to an entry by its key can follow
the moves (`foldl_follow`).
-/
import Mathlib.Data.List.Nodup
import Mathlib.Data.List.Perm.Basic
import Mathlib.Tactic.Basic

/-! ## Computations that may refuse -/

/-- A computation goes through exactly when `P` holds, and then with a result in `Q`. -/
def Option.Accepts {σ : Type} (x : Option σ) (P : Prop) (Q : σ → Prop) : Prop :=
  (x.isSome ↔ P) ∧ ∀ s, x = some s → Q s

namespace Option.Accepts

variable {σ τ : Type} {x : Option σ} {P P' : Prop} {Q Q' : σ → Prop}

theorem some_intro {s : σ} (hP : P) (hQ : Q s) : (Option.some s).Accepts P Q :=
  ⟨by simp [hP], by rintro _ ⟨⟩; exact hQ⟩

theorem none_intro (hP : ¬ P) : (Option.none : Option σ).Accepts P Q := ⟨by simp [hP], by rintro _ ⟨⟩⟩

/-- Two computations in turn, the second of which may only depend on what is known of the first. -/
theorem bind {f : σ → Option τ} {R : τ → Prop} (hx : x.Accepts P Q) (hf : ∀ s, P → Q s → (f s).Accepts P' R) :
    (x >>= f).Accepts (P ∧ P') R := by
  cases x with
  | none => exact none_intro fun h => by simpa using hx.1.mpr h.1
  | some s =>
    have hP : P := hx.1.mp rfl
    have hs := hf s hP (hx.2 s rfl)
    refine ⟨?_, hs.2⟩
    rw [and_iff_right hP]
    exact hs.1

theorem imp (hx : x.Accepts P Q) (hP : P ↔ P') (hQ : ∀ s, P → Q s → Q' s) : x.Accepts P' Q' :=
  ⟨hx.1.trans hP, fun s hs => hQ s (hx.1.mp (by rw [hs]; rfl)) (hx.2 s hs)⟩

/-- What a computation has to do beyond going through is a condition on its result. -/
theorem exists_iff (hx : x.Accepts P Q) {R : σ → Prop} {S : Prop} (hR : ∀ s, P → Q s → (R s ↔ S)) :
    (∃ s, x = some s ∧ R s) ↔ P ∧ S := by
  constructor
  · rintro ⟨s, hs, hRs⟩
    have hP := hx.1.mp (by rw [hs]; rfl)
    exact ⟨hP, (hR s hP (hx.2 s hs)).mp hRs⟩
  · rintro ⟨hP, hS⟩
    obtain ⟨s, hs⟩ := Option.isSome_iff_exists.mp (hx.1.mpr hP)
    exact ⟨s, hs, (hR s hP (hx.2 s hs)).mpr hS⟩

end Option.Accepts

/-! ## Partial maps -/

namespace PartialMap

variable {κ α : Type}

/-- The map has just these entries. -/
structure Represents (m : κ → Option α) (l : List (κ × α)) : Prop where
  nodup : (l.map (·.1)).Nodup
  eq_some_iff : ∀ k v, m k = some v ↔ (k, v) ∈ l

namespace Represents

variable {m m' : κ → Option α} {l l' : List (κ × α)} {k : κ} {v : α}

theorem perm (h : Represents m l) (hl : l.Perm l') : Represents m l' :=
  ⟨(hl.map _).nodup_iff.mp h.nodup, fun k v => (h.eq_some_iff k v).trans hl.mem_iff⟩

theorem ext (h : Represents m l) (h' : Represents m' l') (hl : l.Perm l') : m = m' := by
  funext k
  ext v
  exact (h.eq_some_iff k v).trans (hl.mem_iff.trans (h'.eq_some_iff k v).symm)

theorem eq_none_iff (h : Represents m l) : m k = none ↔ k ∉ l.map (·.1) := by
  rw [Option.eq_none_iff_forall_ne_some]
  simp [h.eq_some_iff]

theorem isSome_iff (h : Represents m l) : (m k).isSome ↔ k ∈ l.map (·.1) := by
  rw [← not_iff_not, Bool.not_eq_true, Option.isSome_eq_false_iff, Option.isNone_iff_eq_none, h.eq_none_iff]

theorem head (h : Represents m ((k, v) :: l)) : m k = some v := (h.eq_some_iff k v).mpr (List.mem_cons_self ..)

end Represents

variable [DecidableEq κ]

def erase (m : κ → Option α) (k : κ) : κ → Option α := fun k' => if k' = k then none else m k'

def put (m : κ → Option α) (k : κ) (v : α) : κ → Option α := fun k' => if k' = k then some v else m k'

/-- Gives the entry of `old` the key `new` and the value `v`. -/
def replace (m : κ → Option α) (old new : κ) (v : α) : Option (κ → Option α) :=
  if (m old).isSome ∧ (new = old ∨ m new = none) then some (put (erase m old) new v) else none

@[simp] theorem put_self (m : κ → Option α) (k : κ) (v : α) : put m k v k = some v := if_pos rfl

@[simp] theorem put_put (m : κ → Option α) (k : κ) (v w : α) : put (put m k v) k w = put m k w := by
  funext k'
  by_cases h : k' = k <;> simp [put, h]

theorem put_eq_self {m : κ → Option α} {k : κ} {v : α} (h : m k = some v) : put m k v = m := by
  funext k'
  by_cases hk : k' = k <;> simp [put, hk, h]

namespace Represents

variable {m : κ → Option α} {l : List (κ × α)} {k k' : κ} {v w : α}

theorem erase (h : Represents m ((k, v) :: l)) : Represents (erase m k) l := by
  have hn := List.nodup_cons.mp h.nodup
  refine ⟨hn.2, fun x y => ?_⟩
  by_cases hx : x = k
  · subst hx
    simp only [PartialMap.erase, if_true, reduceCtorEq, false_iff]
    exact fun hm => hn.1 (List.mem_map_of_mem (f := (·.1)) hm)
  · simp only [PartialMap.erase, hx, if_false, h.eq_some_iff, List.mem_cons, Prod.mk.injEq, false_and, false_or]

theorem put (h : Represents m l) (hk : k ∉ l.map (·.1)) (v : α) : Represents (put m k v) ((k, v) :: l) := by
  refine ⟨List.nodup_cons.mpr ⟨hk, h.nodup⟩, fun x y => ?_⟩
  by_cases hx : x = k
  · subst hx
    have hnot : (x, y) ∉ l := fun hm => hk (List.mem_map_of_mem (f := (·.1)) hm)
    simp [hnot, eq_comm]
  · simp [PartialMap.put, hx, h.eq_some_iff]

theorem put_head (h : Represents m ((k, v) :: l)) (w : α) : Represents (PartialMap.put m k w) ((k, w) :: l) := by
  have hput : PartialMap.put m k w = PartialMap.put (PartialMap.erase m k) k w := by
    funext x
    by_cases hx : x = k <;> simp [PartialMap.put, PartialMap.erase, hx]
  rw [hput]
  exact h.erase.put (List.nodup_cons.mp h.nodup).1 w

theorem accepts_replace (h : Represents m ((k, v) :: l)) :
    (replace m k k' w).Accepts (k' ∉ l.map (·.1)) fun m' =>
      m' = PartialMap.put (PartialMap.erase m k) k' w ∧ Represents m' ((k', w) :: l) := by
  have hfree : (k' = k ∨ m k' = none) ↔ k' ∉ l.map (·.1) := by
    have hn := (List.nodup_cons.mp h.nodup).1
    rw [h.eq_none_iff, List.map_cons, List.mem_cons, not_or]
    by_cases hk : k' = k
    · subst hk
      simpa using hn
    · simp [hk]
  unfold replace
  split
  · next hk =>
    have hk' := hfree.mp hk.2
    exact Option.Accepts.some_intro hk' ⟨rfl, h.erase.put hk' w⟩
  · next hk => exact Option.Accepts.none_intro fun hk' => hk ⟨by rw [h.head]; rfl, hfree.mpr hk'⟩

end Represents

/-! ## Moves -/

section Moves

variable {ι μ : Type} {key : ι → κ} {old new : μ → κ} {act : μ → ι → ι}

/-- Lets what refers to a key follow a move. -/
def follow (key : ι → κ) (old : μ → κ) (act : μ → ι → ι) (x : ι) (move : μ) : ι :=
  if key x = old move then act move x else x

theorem foldl_follow_of_notMem {moves : List μ} {x : ι} (hx : key x ∉ moves.map old) :
    moves.foldl (follow key old act) x = x := by
  induction moves with
  | nil => rfl
  | cons move moves ih =>
    rw [List.map_cons, List.mem_cons, not_or] at hx
    rw [List.foldl_cons, follow, if_neg hx.1]
    exact ih hx.2

/-- If no move takes a key that a later one starts from, what refers to the key
of a move follows that move and no other. -/
theorem foldl_follow {moves : List μ} (hold : (moves.map old).Nodup) (hnew : moves.Pairwise fun a b => new a ≠ old b)
    {move : μ} (hmove : move ∈ moves) {x : ι} (hx : key x = old move) (hact : key (act move x) = new move) :
    moves.foldl (follow key old act) x = act move x := by
  induction moves with
  | nil => cases hmove
  | cons first moves ih =>
    rw [List.map_cons, List.nodup_cons] at hold
    rw [List.pairwise_cons] at hnew
    rw [List.foldl_cons]
    rcases List.mem_cons.mp hmove with rfl | hlater
    · rw [follow, if_pos hx]
      refine foldl_follow_of_notMem ?_
      rw [hact, List.mem_map]
      rintro ⟨later, hlater, heq⟩
      exact hnew.1 later hlater heq.symm
    · have hne : key x ≠ old first := fun heq =>
        hold.1 (by rw [← heq, hx]; exact List.mem_map_of_mem hlater)
      rw [follow, if_neg hne]
      exact ih hold.2 hnew.2 hlater

end Moves

end PartialMap
