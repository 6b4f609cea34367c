/-
`zero-cache/src/services/limiter/sliding-window-limiter.ts`: at most so many calls in
a window of time, and fewer after a busy one.

What is meant is told by the calls that were accepted: those of the current window,
and a share of those of the window before (`Admission.weightedCalls`). The limiter
keeps two counts instead, and does the same as long as no call comes exactly when the
sliding window starts where the next window ends (`Clean`).
-/
import Mathlib.Algebra.Order.Field.Rat
import Mathlib.Data.Rat.Cast.Order
import Mathlib.Tactic.Linarith
import Mathlib.Tactic.FieldSimp
import Mathlib.Tactic.Positivity

namespace ZeroSync

/-! ## Admission by the calls that were accepted -/

namespace Admission

/-- The accepted calls of an aligned window. -/
def inWindow (windowSizeMs : ℕ) (accepted : List ℕ) (k : ℕ) : ℕ := accepted.countP fun t => t / windowSizeMs = k

/-- The share of the window before that still counts. -/
def share (windowSizeMs now : ℕ) : ℚ := ((windowSizeMs - 1 - now % windowSizeMs : ℤ) : ℚ) / windowSizeMs

def weightedCalls (windowSizeMs : ℕ) (accepted : List ℕ) (now : ℕ) : ℚ :=
  let k := now / windowSizeMs
  (if k = 0 then 0 else inWindow windowSizeMs accepted (k - 1) * share windowSizeMs now) + inWindow windowSizeMs accepted k

/-- The calls at some times, after some that were accepted. -/
def windowed (windowSizeMs maxMutations : ℕ) : List ℕ → List ℕ → List Bool
  | _, [] => []
  | accepted, now :: times =>
    if weightedCalls windowSizeMs accepted now < maxMutations then
      true :: windowed windowSizeMs maxMutations (accepted ++ [now]) times
    else false :: windowed windowSizeMs maxMutations accepted times

/-- The times of the calls that were accepted. -/
def accepted : List ℕ → List Bool → List ℕ
  | now :: times, true :: decisions => now :: accepted times decisions
  | _ :: times, false :: decisions => accepted times decisions
  | _, _ => []

end Admission

/-! ## The limiter -/

/-- `Window` -/
structure Window where
  start : ℕ
  count : ℕ
  deriving DecidableEq

structure SlidingWindowLimiter where
  priorWindow : Window
  nextWindow : Window
  deriving DecidableEq

namespace SlidingWindowLimiter

variable (windowSizeMs maxMutations : ℕ)

/-- `#newWindows` -/
def newWindows (now : ℕ) : SlidingWindowLimiter :=
  let start := now - now % windowSizeMs
  ⟨⟨start, 0⟩, ⟨start + windowSizeMs, 0⟩⟩

/-- `#rotateWindows` -/
def rotateWindows (l : SlidingWindowLimiter) : SlidingWindowLimiter :=
  ⟨l.nextWindow, ⟨l.nextWindow.start + windowSizeMs, 0⟩⟩

/-- The fraction of the prior window in `totalCallsForTime`. -/
def fraction (l : SlidingWindowLimiter) (now : ℕ) : ℚ :=
  let fraction : ℚ :=
    if now < l.priorWindow.start + windowSizeMs then 1
    else ((l.priorWindow.start + (windowSizeMs - 1) - (now - windowSizeMs) : ℤ) : ℚ) / windowSizeMs
  if fraction < 0 then 0 else fraction

/-- `totalCallsForTime`, unless its assertion fails. -/
def totalCallsForTime (l : SlidingWindowLimiter) (now : ℕ) : Option ℚ :=
  let fraction := l.fraction windowSizeMs now
  if fraction ≤ 1 then some (l.priorWindow.count * fraction + l.nextWindow.count) else none

/-- The windows a call at a time is counted in. -/
def moved (l : SlidingWindowLimiter) (now : ℕ) : SlidingWindowLimiter :=
  let l := if (now : ℤ) - windowSizeMs > l.nextWindow.start + windowSizeMs then newWindows windowSizeMs now else l
  if (now : ℤ) - windowSizeMs ≥ l.nextWindow.start then l.rotateWindows windowSizeMs else l

/-- Counts a call in the window it falls in. -/
def counted (l : SlidingWindowLimiter) (now : ℕ) : SlidingWindowLimiter :=
  if now < l.nextWindow.start then ⟨⟨l.priorWindow.start, l.priorWindow.count + 1⟩, l.nextWindow⟩
  else ⟨l.priorWindow, ⟨l.nextWindow.start, l.nextWindow.count + 1⟩⟩

def canDo (l : SlidingWindowLimiter) (now : ℕ) : Option (Bool × SlidingWindowLimiter) :=
  let l := l.moved windowSizeMs now
  match l.totalCallsForTime windowSizeMs now with
  | none => none
  | some totalCalls => if totalCalls < maxMutations then some (true, l.counted now) else some (false, l)

/-- The calls of a run, and what they return. -/
def run (l : SlidingWindowLimiter) : List ℕ → Option (List Bool)
  | [] => some []
  | now :: times =>
    match l.canDo windowSizeMs maxMutations now with
    | none => none
    | some (accepted, l) => (run l times).map (accepted :: ·)

/-- No call of a run comes at the time when the sliding window, which ends now, starts
just where the next window ends. -/
def Clean (l : SlidingWindowLimiter) : List ℕ → Prop
  | [] => True
  | now :: times => now ≠ l.nextWindow.start + 2 * windowSizeMs ∧
      ∀ r ∈ l.canDo windowSizeMs maxMutations now, Clean r.2 times

/-! ## The assertion -/

theorem fraction_le_one (hW : 0 < windowSizeMs) (l : SlidingWindowLimiter) (now : ℕ) :
    l.fraction windowSizeMs now ≤ 1 := by
  have hW' : (0 : ℚ) < windowSizeMs := by exact_mod_cast hW
  have hclamp : ∀ f : ℚ, f ≤ 1 → (if f < 0 then 0 else f) ≤ 1 := by
    intro f hf
    split
    · exact zero_le_one' ℚ
    · exact hf
  refine hclamp _ ?_
  split
  · exact le_refl 1
  · next hpast =>
    rw [div_le_one hW']
    have hle : (l.priorWindow.start + (windowSizeMs - 1) - (now - windowSizeMs) : ℤ) ≤ windowSizeMs := by omega
    exact_mod_cast hle

/-- What a call of `canDo` weighs. -/
def totalCalls (l : SlidingWindowLimiter) (now : ℕ) : ℚ :=
  l.priorWindow.count * l.fraction windowSizeMs now + l.nextWindow.count

theorem canDo_eq (hW : 0 < windowSizeMs) (l : SlidingWindowLimiter) (now : ℕ) :
    l.canDo windowSizeMs maxMutations now =
      some (if (l.moved windowSizeMs now).totalCalls windowSizeMs now < maxMutations then
        (true, (l.moved windowSizeMs now).counted now) else (false, l.moved windowSizeMs now)) := by
  have htotal : (l.moved windowSizeMs now).totalCallsForTime windowSizeMs now =
      some ((l.moved windowSizeMs now).totalCalls windowSizeMs now) := if_pos (fraction_le_one windowSizeMs hW _ now)
  unfold canDo
  simp only [htotal]
  split <;> rfl

/-- **The assertion never fails.** -/
theorem run_isSome (hW : 0 < windowSizeMs) (l : SlidingWindowLimiter) (times : List ℕ) :
    (l.run windowSizeMs maxMutations times).isSome := by
  induction times generalizing l with
  | nil => rfl
  | cons now times ih =>
    unfold run
    rw [canDo_eq windowSizeMs maxMutations hW]
    simpa using ih _

/-! ## The counts are those of the accepted calls -/

open Admission

/-- The two counts of a limiter are those of two windows that follow one another, of
which one holds the last call. -/
structure Counts (windowSizeMs : ℕ) (l : SlidingWindowLimiter) (accepted : List ℕ) (last : ℕ) : Prop where
  aligned : ∃ p, l.priorWindow.start = p * windowSizeMs ∧ l.nextWindow.start = (p + 1) * windowSizeMs ∧
    l.priorWindow.count = inWindow windowSizeMs accepted p ∧ l.nextWindow.count = inWindow windowSizeMs accepted (p + 1) ∧
    p ≤ last / windowSizeMs ∧ last / windowSizeMs ≤ p + 1 ∧
    -- nothing was accepted in the window before the prior one while that is current
    (last / windowSizeMs = p → ∀ q, q + 1 = p → inWindow windowSizeMs accepted q = 0)
  past : ∀ t ∈ accepted, t ≤ last

theorem inWindow_eq_zero {windowSizeMs last k : ℕ} {accepted : List ℕ} (h : ∀ t ∈ accepted, t ≤ last)
    (hk : last / windowSizeMs < k) : inWindow windowSizeMs accepted k = 0 := by
  refine List.countP_eq_zero.mpr fun t ht heq => ?_
  have hle := Nat.div_le_div_right (c := windowSizeMs) (h t ht)
  have heq := of_decide_eq_true heq
  omega

theorem inWindow_concat (windowSizeMs : ℕ) (accepted : List ℕ) (now k : ℕ) :
    inWindow windowSizeMs (accepted ++ [now]) k =
      inWindow windowSizeMs accepted k + if now / windowSizeMs = k then 1 else 0 := by
  simp [inWindow, List.countP_append, List.countP_singleton]

theorem Counts.moved {l : SlidingWindowLimiter} {accepted : List ℕ} {last now : ℕ}
    (h : l.Counts windowSizeMs accepted last) (hW : 0 < windowSizeMs) (hnow : last ≤ now) (hclean : now ≠ l.nextWindow.start + 2 * windowSizeMs) :
    (l.moved windowSizeMs now).Counts windowSizeMs accepted now := by
  obtain ⟨⟨p, hprior, hnext, hpcount, hncount, hlow, hhigh, hbefore⟩, hpast⟩ := h
  have hpast' : ∀ t ∈ accepted, t ≤ now := fun t ht => (hpast t ht).trans hnow
  have hmono := Nat.div_le_div_right (c := windowSizeMs) hnow
  have hsplit := Nat.div_add_mod now windowSizeMs
  have hmod := Nat.mod_lt now hW
  have hp₁ : (p + 1) * windowSizeMs = p * windowSizeMs + windowSizeMs := Nat.succ_mul _ _
  unfold SlidingWindowLimiter.moved
  by_cases hnew : (now : ℤ) - windowSizeMs > l.nextWindow.start + windowSizeMs
  · -- new windows: two windows have passed without a call
    rw [if_pos hnew]
    have hpos : p + 3 ≤ now / windowSizeMs := by
      rw [Nat.le_div_iff_mul_le hW]
      have hp₃ : (p + 3) * windowSizeMs = p * windowSizeMs + 3 * windowSizeMs := Nat.add_mul _ _ _
      omega
    have hstart : now - now % windowSizeMs = now / windowSizeMs * windowSizeMs := by
      rw [Nat.mul_comm]
      omega
    have hold : ¬ ((now : ℤ) - windowSizeMs ≥ (newWindows windowSizeMs now).nextWindow.start) := by
      change ¬ ((now : ℤ) - windowSizeMs ≥ ((now - now % windowSizeMs + windowSizeMs : ℕ) : ℤ))
      omega
    simp only [if_neg hold]
    refine ⟨⟨now / windowSizeMs, hstart, ?_, ?_, ?_, le_refl _, Nat.le_succ _, fun _ q hq => ?_⟩, hpast'⟩
    · change now - now % windowSizeMs + windowSizeMs = _
      rw [hstart, Nat.succ_mul]
    · exact (inWindow_eq_zero hpast (by omega)).symm
    · exact (inWindow_eq_zero hpast (by omega)).symm
    · exact inWindow_eq_zero hpast (by omega)
  · rw [if_neg hnew]
    by_cases hrotate : (now : ℤ) - windowSizeMs ≥ l.nextWindow.start
    · -- the next window has passed, and the one after it is current
      simp only [if_pos hrotate]
      have hcur : now / windowSizeMs = p + 2 := by
        refine Nat.div_eq_of_lt_le ?_ ?_
        · have hp₂ : (p + 2) * windowSizeMs = p * windowSizeMs + 2 * windowSizeMs := Nat.add_mul _ _ _
          omega
        · have hp₃ : (p + 2 + 1) * windowSizeMs = p * windowSizeMs + 3 * windowSizeMs := Nat.add_mul p 3 _
          omega
      refine ⟨⟨p + 1, hnext, ?_, hncount, ?_, by omega, by omega, fun heq => by omega⟩, hpast'⟩
      · change l.nextWindow.start + windowSizeMs = _
        rw [hnext, ← Nat.succ_mul]
      · exact (inWindow_eq_zero hpast (by omega)).symm
    · simp only [if_neg hrotate]
      have hcur : now / windowSizeMs < p + 2 := by
        rw [Nat.div_lt_iff_lt_mul hW]
        have hp₂ : (p + 2) * windowSizeMs = p * windowSizeMs + 2 * windowSizeMs := Nat.add_mul _ _ _
        omega
      exact ⟨⟨p, hprior, hnext, hpcount, hncount, by omega, by omega, fun heq => hbefore (by omega)⟩, hpast'⟩

theorem Counts.totalCalls {l : SlidingWindowLimiter} {accepted : List ℕ} {now : ℕ} (h : l.Counts windowSizeMs accepted now)
    (hW : 0 < windowSizeMs) : l.totalCalls windowSizeMs now = weightedCalls windowSizeMs accepted now := by
  obtain ⟨⟨p, hprior, hnext, hpcount, hncount, hlow, hhigh, hbefore⟩, hpast⟩ := h
  have hsplit := Nat.div_add_mod now windowSizeMs
  have hmod := Nat.mod_lt now hW
  have hp₁ : (p + 1) * windowSizeMs = p * windowSizeMs + windowSizeMs := Nat.succ_mul _ _
  unfold SlidingWindowLimiter.totalCalls weightedCalls fraction
  rw [hpcount, hncount, hprior]
  dsimp only
  rcases Nat.eq_or_lt_of_le hlow with hcur | hcur
  · -- the prior window is current
    have hstart : windowSizeMs * (now / windowSizeMs) = p * windowSizeMs := by rw [← hcur, Nat.mul_comm]
    have hin : now < p * windowSizeMs + windowSizeMs := by omega
    have hzero : inWindow windowSizeMs accepted (p + 1) = 0 := inWindow_eq_zero hpast (by omega)
    rw [if_pos hin, if_neg (by norm_num), hzero, ← hcur]
    by_cases hfirst : p = 0
    · rw [if_pos hfirst]
      simp
    · rw [if_neg hfirst, hbefore hcur.symm (p - 1) (by omega)]
      simp
  · -- the next window is current
    have hcur : now / windowSizeMs = p + 1 := by omega
    have hp : windowSizeMs * (p + 1) = p * windowSizeMs + windowSizeMs := by rw [Nat.mul_comm, hp₁]
    rw [hcur, hp] at hsplit
    have hshare : ((p * windowSizeMs : ℕ) + (windowSizeMs - 1) - (now - windowSizeMs) : ℤ) =
        windowSizeMs - 1 - (now % windowSizeMs : ℕ) := by omega
    have hout : ¬ now < p * windowSizeMs + windowSizeMs := by omega
    rw [if_neg hout, hshare, hcur, if_neg (Nat.succ_ne_zero p)]
    have hnonneg : ¬ (((windowSizeMs - 1 - (now % windowSizeMs : ℕ) : ℤ) : ℚ) / windowSizeMs < 0) := by
      refine not_lt.mpr (div_nonneg ?_ (Nat.cast_nonneg _))
      have hle : (0 : ℤ) ≤ windowSizeMs - 1 - (now % windowSizeMs : ℕ) := by omega
      exact_mod_cast hle
    rw [if_neg hnonneg]
    rfl

theorem Counts.counted {l : SlidingWindowLimiter} {accepted : List ℕ} {now : ℕ} (h : l.Counts windowSizeMs accepted now)
    (hW : 0 < windowSizeMs) : (l.counted now).Counts windowSizeMs (accepted ++ [now]) now := by
  obtain ⟨⟨p, hprior, hnext, hpcount, hncount, hlow, hhigh, hbefore⟩, hpast⟩ := h
  have hsplit := Nat.div_add_mod now windowSizeMs
  have hmod := Nat.mod_lt now hW
  have hpast' : ∀ t ∈ accepted ++ [now], t ≤ now := by
    intro t ht
    rcases List.mem_append.mp ht with ht | ht
    · exact hpast t ht
    · exact (List.mem_singleton.mp ht).le
  have hkeep : now / windowSizeMs = p → ∀ q, q + 1 = p → inWindow windowSizeMs (accepted ++ [now]) q = 0 := by
    intro hcur q hq
    rw [inWindow_concat, hbefore hcur q hq, if_neg (by omega)]
  unfold SlidingWindowLimiter.counted
  rw [hnext]
  by_cases hin : now < (p + 1) * windowSizeMs
  · have hcur : now / windowSizeMs = p := by
      have hlt : now / windowSizeMs < p + 1 := (Nat.div_lt_iff_lt_mul hW).mpr hin
      omega
    rw [if_pos hin]
    refine ⟨⟨p, hprior, hnext, ?_, ?_, hlow, hhigh, hkeep⟩, hpast'⟩
    · rw [inWindow_concat, if_pos hcur, ← hpcount]
    · rw [inWindow_concat, if_neg (by omega), Nat.add_zero]
      exact hncount
  · have hcur : now / windowSizeMs = p + 1 := by
      have hge : p + 1 ≤ now / windowSizeMs := (Nat.le_div_iff_mul_le hW).mpr (not_lt.mp hin)
      omega
    rw [if_neg hin]
    refine ⟨⟨p, hprior, rfl, ?_, ?_, hlow, hhigh, hkeep⟩, hpast'⟩
    · rw [inWindow_concat, if_neg (by omega), Nat.add_zero]
      exact hpcount
    · rw [inWindow_concat, if_pos hcur, ← hncount]

/-- **A clean run decides by the accepted calls.** -/
theorem run_eq_windowed (hW : 0 < windowSizeMs) {l : SlidingWindowLimiter} {accepted : List ℕ} {last : ℕ} {times : List ℕ}
    (h : l.Counts windowSizeMs accepted last) (hsorted : (last :: times).Pairwise (· ≤ ·))
    (hclean : l.Clean windowSizeMs maxMutations times) :
    l.run windowSizeMs maxMutations times = some (windowed windowSizeMs maxMutations accepted times) := by
  induction times generalizing l accepted last with
  | nil => rfl
  | cons now times ih =>
    obtain ⟨hlast, hsorted⟩ := List.pairwise_cons.mp hsorted
    obtain ⟨hnow, hrest⟩ := hclean
    have hmoved := h.moved windowSizeMs hW (hlast now List.mem_cons_self) hnow
    have hcan := canDo_eq windowSizeMs maxMutations hW l now
    rw [hmoved.totalCalls windowSizeMs hW] at hcan
    unfold run Admission.windowed
    rw [hcan]
    by_cases haccept : weightedCalls windowSizeMs accepted now < maxMutations
    · rw [if_pos haccept] at hcan ⊢
      rw [if_pos haccept]
      dsimp only
      rw [ih (hmoved.counted windowSizeMs hW) hsorted (hrest _ hcan)]
      rfl
    · rw [if_neg haccept] at hcan ⊢
      rw [if_neg haccept]
      dsimp only
      rw [ih hmoved hsorted (hrest _ hcan)]
      rfl

theorem newWindows_counts (now : ℕ) : (newWindows windowSizeMs now).Counts windowSizeMs [] now := by
  have hsplit := Nat.div_add_mod now windowSizeMs
  have hstart : now - now % windowSizeMs = now / windowSizeMs * windowSizeMs := by
    rw [Nat.mul_comm]
    omega
  refine ⟨⟨now / windowSizeMs, hstart, ?_, rfl, rfl, le_refl _, Nat.le_succ _, fun _ _ _ => rfl⟩,
    fun _ ht => absurd ht List.not_mem_nil⟩
  change now - now % windowSizeMs + windowSizeMs = _
  rw [hstart, Nat.succ_mul]

end SlidingWindowLimiter

/-! ## What such decisions are -/

namespace Admission

variable {windowSizeMs maxMutations : ℕ}

theorem inWindow_le_weightedCalls (accepted : List ℕ) (hW : 0 < windowSizeMs) (now : ℕ) :
    (inWindow windowSizeMs accepted (now / windowSizeMs) : ℚ) ≤ weightedCalls windowSizeMs accepted now := by
  have hshare : 0 ≤ share windowSizeMs now := by
    refine div_nonneg ?_ (Nat.cast_nonneg _)
    have hmod := Nat.mod_lt now hW
    have hle : (0 : ℤ) ≤ windowSizeMs - 1 - (now % windowSizeMs : ℕ) := by omega
    exact_mod_cast hle
  unfold weightedCalls
  refine le_add_of_nonneg_left ?_
  split
  · exact le_refl 0
  · exact mul_nonneg (Nat.cast_nonneg _) hshare

theorem inWindow_le (hW : 0 < windowSizeMs) {before times : List ℕ}
    (h : ∀ k, inWindow windowSizeMs before k ≤ maxMutations) (k : ℕ) :
    inWindow windowSizeMs (before ++ accepted times (windowed windowSizeMs maxMutations before times)) k ≤ maxMutations := by
  induction times generalizing before with
  | nil => simpa [windowed, accepted] using h k
  | cons now times ih =>
    unfold windowed
    split
    · next hless =>
      have hnext : ∀ k, inWindow windowSizeMs (before ++ [now]) k ≤ maxMutations := by
        intro k
        rw [SlidingWindowLimiter.inWindow_concat]
        by_cases hk : now / windowSizeMs = k
        · have hlt := lt_of_le_of_lt (inWindow_le_weightedCalls before hW now) hless
          rw [hk] at hlt
          rw [if_pos hk]
          exact_mod_cast hlt
        · rw [if_neg hk]
          exact h k
      simpa [accepted] using ih hnext
    · simpa [accepted] using ih h

theorem windowed_erase {before pre post : List ℕ} {t : ℕ} {decisions decisions' : List Bool}
    (hlen : decisions.length = pre.length)
    (h : windowed windowSizeMs maxMutations before (pre ++ t :: post) = decisions ++ false :: decisions') :
    windowed windowSizeMs maxMutations before (pre ++ post) = decisions ++ decisions' := by
  induction pre generalizing before decisions with
  | nil =>
    obtain rfl := List.eq_nil_of_length_eq_zero hlen
    simp only [List.nil_append, windowed] at h ⊢
    split at h
    · cases (List.cons.inj h).1
    · exact (List.cons.inj h).2
  | cons now pre ih =>
    cases decisions with
    | nil => cases hlen
    | cons d decisions =>
      simp only [List.cons_append, windowed] at h ⊢
      split at h
      · next hless =>
        rw [if_pos hless, (List.cons.inj h).1, ih (Nat.succ.inj hlen) (List.cons.inj h).2]
      · next hless =>
        rw [if_neg hless, (List.cons.inj h).1, ih (Nat.succ.inj hlen) (List.cons.inj h).2]

end Admission

namespace SlidingWindowLimiter

open Admission

/-- **Runs of the limiter.** The assertion never fails. In a clean run each call is
decided by the calls that were accepted before it, at most the maximum is accepted in a
window, and without a call that was rejected the run, if it is clean, decides the others
alike. -/
theorem run_limits {windowSizeMs : ℕ} (maxMutations : ℕ) (hW : 0 < windowSizeMs) {created : ℕ} {times : List ℕ}
    (hsorted : (created :: times).Pairwise (· ≤ ·)) :
    ((newWindows windowSizeMs created).run windowSizeMs maxMutations times).isSome ∧
    ((newWindows windowSizeMs created).Clean windowSizeMs maxMutations times →
      ∃ decisions, (newWindows windowSizeMs created).run windowSizeMs maxMutations times = some decisions ∧
        decisions = windowed windowSizeMs maxMutations [] times ∧
        (∀ k, inWindow windowSizeMs (accepted times decisions) k ≤ maxMutations) ∧
        ∀ pre t post before after, times = pre ++ t :: post → before.length = pre.length →
          decisions = before ++ false :: after →
          (newWindows windowSizeMs created).Clean windowSizeMs maxMutations (pre ++ post) →
          (newWindows windowSizeMs created).run windowSizeMs maxMutations (pre ++ post) = some (before ++ after)) := by
  refine ⟨run_isSome windowSizeMs maxMutations hW _ times, fun hclean => ?_⟩
  have hcounts := newWindows_counts windowSizeMs created
  refine ⟨_, run_eq_windowed windowSizeMs maxMutations hW hcounts hsorted hclean, rfl, fun k => ?_, ?_⟩
  · have hle := @inWindow_le windowSizeMs maxMutations hW [] times (fun _ => Nat.zero_le _) k
    simpa using hle
  · rintro pre t post before after rfl hlen hdecisions hclean'
    have hsub : (created :: (pre ++ post)).Sublist (created :: (pre ++ t :: post)) :=
      (List.Sublist.append_left (List.sublist_cons_self t post) pre).cons_cons created
    rw [run_eq_windowed windowSizeMs maxMutations hW hcounts (hsorted.sublist hsub) hclean', windowed_erase hlen hdecisions]

/-- A call of a limiter of one call in ten milliseconds. -/
theorem run_limits_of_one : inWindow 10 (accepted [5] (windowed 10 1 [] [5])) 0 ≤ 1 := by
  obtain ⟨decisions, -, rfl, hle, -⟩ := (@run_limits 10 1 (by decide) 4 [5] (by decide)).2
    ⟨by decide, fun _ _ => trivial⟩
  exact hle 0

/-- Of one call in ten milliseconds, two at the time where the sliding window leaves the
next one. -/
theorem run_accepts_two : (newWindows 10 0).run 10 1 [30, 30] = some [true, true] ∧
    inWindow 10 (accepted [30, 30] [true, true]) 3 = 2 := by
  refine ⟨?_, by decide⟩
  decide +kernel

end SlidingWindowLimiter

end ZeroSync
