/-
Programs that ask an oracle, and an oracle that remembers its answers under a key.

What a program gives does not change by the memory if no two of its questions share a key
and differ in their answers (`memo_eq_fresh`).
-/
import Mathlib.Logic.Function.Basic

namespace Memo

/-- A program that gets an answer `A` to each question `Q` that it asks. -/
inductive Prog (Q A R : Type)
  | done (result : R)
  | ask (question : Q) (next : A → Prog Q A R)

variable {Q A R S K : Type}

namespace Prog

def bind : Prog Q A R → (R → Prog Q A S) → Prog Q A S
  | .done result, f => f result
  | .ask question next, f => .ask question fun answer => (next answer).bind f

instance : Monad (Prog Q A) where
  pure := .done
  bind := bind

/-- The question, and its answer as the result. -/
def question (q : Q) : Prog Q A A := .ask q .done

/-- The result where each question gets its own answer. -/
def fresh (oracle : Q → A) : Prog Q A R → R
  | .done result => result
  | .ask question next => (next (oracle question)).fresh oracle

/-- The questions that are asked then. -/
def asked (oracle : Q → A) : Prog Q A R → List Q
  | .done _ => []
  | .ask question next => question :: (next (oracle question)).asked oracle

/-- The result where an answer is kept under the key of its question, and given to every
later question with that key. -/
def memo [DecidableEq K] (key : Q → K) (oracle : Q → A) : Prog Q A R → (K → Option A) → R × (K → Option A)
  | .done result, kept => (result, kept)
  | .ask question next, kept =>
    match kept (key question) with
    | some answer => (next answer).memo key oracle kept
    | none => (next (oracle question)).memo key oracle (Function.update kept (key question) (some (oracle question)))

@[simp] theorem fresh_pure (oracle : Q → A) (result : R) : (pure result : Prog Q A R).fresh oracle = result := rfl

@[simp] theorem fresh_question (oracle : Q → A) (q : Q) : (question q).fresh oracle = oracle q := rfl

@[simp] theorem fresh_bind (oracle : Q → A) (p : Prog Q A R) (f : R → Prog Q A S) :
    (p >>= f).fresh oracle = (f (p.fresh oracle)).fresh oracle := by
  induction p with
  | done result => rfl
  | ask question next ih => exact ih (oracle question)

theorem memo_eq_fresh_of_kept [DecidableEq K] {key : Q → K} {oracle : Q → A} (p : Prog Q A R) {kept : K → Option A}
    {before : List Q} (hkept : ∀ k answer, kept k = some answer → ∃ q ∈ before, key q = k ∧ oracle q = answer)
    (hagree : ∀ q ∈ before ++ p.asked oracle, ∀ q' ∈ before ++ p.asked oracle, key q = key q' → oracle q = oracle q') :
    (p.memo key oracle kept).1 = p.fresh oracle := by
  induction p generalizing kept before with
  | done result => rfl
  | ask question next ih =>
    have hshift : before ++ (Prog.ask question next).asked oracle
        = (before ++ [question]) ++ (next (oracle question)).asked oracle := by
      rw [List.append_assoc]
      rfl
    rw [hshift] at hagree
    rw [memo, fresh]
    cases hkey : kept (key question) with
    | some answer =>
      obtain ⟨q, hq, hsame, hanswer⟩ := hkept _ _ hkey
      have hquestion : answer = oracle question := by
        rw [← hanswer]
        exact hagree q (by simp [hq]) question (by simp) hsame
      rw [hquestion]
      refine ih (oracle question) (fun k answer hk => ?_) hagree
      obtain ⟨q, hq, hrest⟩ := hkept k answer hk
      exact ⟨q, List.mem_append_left _ hq, hrest⟩
    | none =>
      refine ih (oracle question) (fun k answer hk => ?_) hagree
      by_cases hsame : k = key question
      · subst hsame
        rw [Function.update_self] at hk
        exact ⟨question, by simp, rfl, Option.some.inj hk⟩
      · rw [Function.update_of_ne hsame] at hk
        obtain ⟨q, hq, hrest⟩ := hkept k answer hk
        exact ⟨q, List.mem_append_left _ hq, hrest⟩

/-- **Answers can be kept** under a key if questions with one key have one answer. -/
theorem memo_eq_fresh [DecidableEq K] {key : Q → K} {oracle : Q → A} (p : Prog Q A R)
    (hagree : ∀ q ∈ p.asked oracle, ∀ q' ∈ p.asked oracle, key q = key q' → oracle q = oracle q') :
    (p.memo key oracle fun _ => none).1 = p.fresh oracle :=
  @memo_eq_fresh_of_kept Q A R K _ key oracle p (fun _ => none) [] (fun _ _ h => by cases h) hagree

end Prog

end Memo
