/-
Lists that part at a position both of them reach: `Diverges x y` says that
`x` and `y` share a prefix and the next element of `x` is the smaller one.
Unlike the lexicographic order, it survives whatever is appended to either
side, so an encoding whose codes diverge can be followed by anything and
still sorts by what it encodes.

`Diverges` is closed under a common prefix and a change of alphabet by a
strictly monotone map; two digit lists of one length diverge as the numbers
they write do (`Diverges.of_ofDigits_lt`).
-/
import Mathlib.Data.Nat.Digits.Lemmas
import Mathlib.Data.List.Lex
import Mathlib.Order.Compare
import Mathlib.Data.String.Basic

namespace Divergence

/-- `x` and `y` differ at a position both have, where `x` is smaller. -/
inductive Diverges {α} [LT α] : List α → List α → Prop
  | head {a b : α} {x y : List α} : a < b → Diverges (a :: x) (b :: y)
  | cons {a : α} {x y : List α} : Diverges x y → Diverges (a :: x) (a :: y)

section
variable {α β : Type*} [LT α] [LT β]

theorem Diverges.append {x y : List α} (h : Diverges x y) (s t : List α) : Diverges (x ++ s) (y ++ t) := by
  induction h with
  | head hab => exact .head hab
  | cons _ ih => exact .cons ih

theorem Diverges.lex {x y : List α} (h : Diverges x y) : x < y := by
  induction h with
  | head hab => exact List.Lex.rel hab
  | cons _ ih => exact List.Lex.cons ih

/-- A map that is strictly monotone on the elements of both lists keeps a divergence. -/
theorem Diverges.map {x y : List α} {f : α → β} (h : Diverges x y)
    (hf : ∀ a ∈ x, ∀ b ∈ y, a < b → f a < f b) : Diverges (x.map f) (y.map f) := by
  induction h with
  | head hab => exact .head (hf _ (by simp) _ (by simp) hab)
  | cons _ ih => exact .cons (ih fun a ha b hb => hf a (by simp [ha]) b (by simp [hb]))

end

/-! ## Digits -/

theorem ofDigits_reverse_cons (b d : ℕ) (ds : List ℕ) :
    Nat.ofDigits b (d :: ds).reverse = d * b ^ ds.length + Nat.ofDigits b ds.reverse := by
  rw [List.reverse_cons, Nat.ofDigits_append, List.length_reverse, Nat.ofDigits_singleton]
  ring

/-- Digit lists of one length, most significant digit first, diverge as their numbers do. -/
theorem Diverges.of_ofDigits_lt {b : ℕ} (hb : 1 < b) {x y : List ℕ} (hlen : x.length = y.length)
    (hx : ∀ d ∈ x, d < b) (hy : ∀ d ∈ y, d < b)
    (h : Nat.ofDigits b x.reverse < Nat.ofDigits b y.reverse) : Diverges x y := by
  induction x generalizing y with
  | nil =>
    obtain rfl : y = [] := List.length_eq_zero_iff.mp hlen.symm
    exact absurd h (lt_irrefl _)
  | cons c x ih =>
    cases y with
    | nil => simp at hlen
    | cons d y =>
    have hlen' : x.length = y.length := by simpa using hlen
    rw [ofDigits_reverse_cons, ofDigits_reverse_cons, hlen'] at h
    rcases lt_trichotomy c d with hcd | rfl | hdc
    · exact .head hcd
    · exact .cons (ih hlen' (fun e he => hx e (by simp [he])) (fun e he => hy e (by simp [he])) (by omega))
    · -- A larger leading digit outweighs every digit after it.
      have htail : Nat.ofDigits b y.reverse < b ^ y.length := by
        have := Nat.ofDigits_lt_base_pow_length (l := y.reverse) hb
          (fun e he => hy e (List.mem_cons_of_mem _ (List.mem_reverse.mp he)))
        simpa using this
      have hlead : (d + 1) * b ^ y.length ≤ c * b ^ y.length := Nat.mul_le_mul_right _ hdc
      rw [Nat.add_mul, Nat.one_mul] at hlead
      omega

end Divergence
