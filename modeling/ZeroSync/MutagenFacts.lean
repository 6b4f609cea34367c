/-
Calls of `processMutation` return with their mutation processed exactly in the
runs in which no call uses up its attempts before that (`right_iff`). In every
run last mutation IDs move by one, and no ops are run twice.
-/
import ZeroSync.Mutagen
import Mathlib.Data.List.Count
import Mathlib.Algebra.Order.Ring.Int
import Mathlib.Data.Nat.Cast.Order.Basic

namespace ZeroSync

open Runs

variable {s : MutagenRun} {c : ProcessMutation} {e : MutagenEvent} {row n : ℕ} {client : ClientKey} {id : ℤ}

/-! ## The check -/

theorem checkLastMutationID_ok : checkLastMutationID client row id = .ok n ↔ id = row + 1 ∧ n = row + 1 := by
  unfold checkLastMutationID
  dsimp only
  split
  · next h => exact ⟨fun h => (nomatch h), fun ⟨h', _⟩ => by push_cast at h; omega⟩
  · split
    · next h => exact ⟨fun h => (nomatch h), fun ⟨h', _⟩ => by push_cast at h; omega⟩
    · next h₁ h₂ =>
      push_cast at h₁ h₂
      simp only [Except.ok.injEq]
      omega

theorem checkLastMutationID_error {e : AttemptError} (h : checkLastMutationID client row id = .error e) :
    (∃ message, e = .alreadyProcessed message ∧ id ≤ row) ∨ ∃ message, e = .protocol .invalidPush message := by
  unfold checkLastMutationID at h
  dsimp only at h
  split at h
  · next hlt =>
    cases h
    push_cast at hlt
    exact .inl ⟨_, rfl, by omega⟩
  · split at h
    · cases h
      exact .inr ⟨_, rfl⟩
    · cases h

/-! ## How a call goes on -/

/-- How a call goes on after an attempt: one that goes on has attempts left, and one that returns is allowed to. -/
structure GoesOn (c c' : ProcessMutation) (allowed : Prop) : Prop where
  client : c'.client = c.client
  id : c'.id = c.id
  i : c'.finished = none → c'.i < maxSerializationAttempts
  returned : ∀ result, c'.finished = some (.ok result) → allowed

namespace ProcessMutation

variable {P Q : Prop}

theorem GoesOn.imp {c' : ProcessMutation} (h : GoesOn c c' P) (himp : P → Q) : GoesOn c c' Q :=
  ⟨h.client, h.id, h.i, fun result hr => himp (h.returned result hr)⟩

theorem goesOn_returns (c : ProcessMutation) (result : Option MutationFailed) : GoesOn c (c.returns result) True :=
  ⟨rfl, rfl, fun h => (nomatch h), fun _ _ => trivial⟩

theorem goesOn_throws (c : ProcessMutation) (e : AttemptError) : GoesOn c (c.throws e) False :=
  ⟨rfl, rfl, fun h => (nomatch h), fun _ h => (nomatch h)⟩

/-- `continue` returns after the last attempt. -/
theorem goesOn_continues (hc : c.finished = none) (hi : c.i < maxSerializationAttempts) :
    GoesOn c c.continues (c.i + 1 = maxSerializationAttempts) := by
  unfold continues
  dsimp only
  split
  · next h => exact ⟨rfl, rfl, fun _ => h, fun result hr => by rw [hc] at hr; cases hr⟩
  · next h => exact ⟨rfl, rfl, fun h => (nomatch h), fun _ _ => by omega⟩

/-- **A call returns** when its attempt commits, when it finds the mutation
processed, or when the last attempt fails to serialize. -/
theorem goesOn_ended (hc : c.finished = none) (hi : c.i < maxSerializationAttempts) (r : Except AttemptError Unit) :
    GoesOn c (c.ended r) (r = .ok () ∨ (∃ message, r = .error (.alreadyProcessed message)) ∨
      ∃ message, r = .error (.serializationFailure message) ∧ c.errorMode = false ∧ c.i + 1 = maxSerializationAttempts) := by
  cases r with
  | ok _ => exact GoesOn.imp (c.goesOn_returns _) fun _ => .inl rfl
  | error e =>
    rw [ended]
    cases e with
    | alreadyProcessed message => exact GoesOn.imp (c.goesOn_returns _) fun _ => .inr (.inl ⟨message, rfl⟩)
    | protocol kind message =>
      rw [catches]
      split
      · next h =>
        have hlt : c.i < 2 := by
          simp only [Bool.and_eq_true, decide_eq_true_eq] at h
          exact h.2
        refine GoesOn.imp (goesOn_continues hc hi) fun hlast => ?_
        unfold maxSerializationAttempts at hlast
        omega
      · exact GoesOn.imp (c.goesOn_throws _) False.elim
    | serializationFailure message =>
      rw [catches]
      split
      · exact GoesOn.imp (c.goesOn_throws _) False.elim
      · next hmode =>
        exact GoesOn.imp (goesOn_continues hc hi) fun hlast => .inr (.inr ⟨message, rfl, by simpa using hmode, hlast⟩)
    | other message =>
      rw [catches]
      split
      · exact GoesOn.imp (c.goesOn_throws _) False.elim
      · exact ⟨rfl, rfl, fun _ => hi, fun result hr => by
          have hnone : c.finished = some (.ok result) := hr
          rw [hc] at hnone
          cases hnone⟩

theorem ended_last (message : String) (hmode : c.errorMode = false) (hlast : c.i + 1 = maxSerializationAttempts) :
    (c.ended (.error (.serializationFailure message))).finished = some (.ok c.result) := by
  have hnot : ¬ c.errorMode = true := by simp [hmode]
  rw [ended, catches, if_neg hnot, continues, if_neg (by omega)]
  rfl

end ProcessMutation

/-! ## Runs -/

namespace MutagenRun

open ProcessMutation

/-- Calls that go on have attempts left, and what was committed is at or before the last mutation ID. -/
structure Inv (s : MutagenRun) : Prop where
  settled : s.Settled
  left : ∀ c ∈ s.calls, c.finished = none → c.i < maxSerializationAttempts
  committed : ∀ m ∈ s.committed, m.2.1 ≤ s.lastMutationID m.1
  once : s.AtMostOnce

theorem inv_start (lastMutationID : ClientKey → ℕ) : Inv (start lastMutationID) :=
  ⟨fun _ hc => (nomatch hc), fun _ hc => (nomatch hc), fun _ hm => (nomatch hm), fun _ _ => Nat.zero_le _⟩

/-- What an attempt of a call does to the database. -/
structure Effect (s s' : MutagenRun) (c : ProcessMutation) : Prop where
  calls : s'.calls = s.calls
  rows : ∀ client, s'.lastMutationID client = s.lastMutationID client ∨
    client = c.client ∧ s.lastMutationID client = c.id - 1 ∧ s'.lastMutationID client = c.id
  committed : s'.committed = s.committed ∨ ∃ ops, s'.committed = (c.client, c.id, ops) :: s.committed ∧
    (s.lastMutationID c.client : ℤ) = c.id - 1 ∧ (s'.lastMutationID c.client : ℤ) = c.id

theorem effect_refl (s : MutagenRun) (c : ProcessMutation) : Effect s s c := ⟨rfl, fun _ => .inl rfl, .inl rfl⟩

/-- **A commit** moves the last mutation ID of the client to the mutation's. -/
theorem effect_commit (s : MutagenRun) (c : ProcessMutation) (canPre canPost : Bool) :
    Effect s (s.commit c canPre canPost) c := by
  rw [commit]
  split
  · next row hrow =>
    obtain ⟨hid, rfl⟩ := checkLastMutationID_ok.mp hrow
    refine ⟨rfl, fun client => ?_, .inr ⟨_, rfl, by omega, ?_⟩⟩
    · dsimp only
      split
      · next heq =>
        subst heq
        exact .inr ⟨rfl, by omega, by omega⟩
      · exact .inl rfl
    · simp only [if_true]
      omega
  · exact effect_refl s c

theorem effect_effect (s : MutagenRun) (c : ProcessMutation) (attempt : Attempt) : Effect s (s.effect c attempt) c := by
  cases attempt with
  | commit canPre canPost => exact effect_commit s c canPre canPost
  | commitLost canPre canPost message => exact effect_commit s c canPre canPost
  | check row => exact effect_refl s c
  | fail e => exact effect_refl s c

variable {s' : MutagenRun}

theorem Effect.le (h : Effect s s' c) (client : ClientKey) : s.lastMutationID client ≤ s'.lastMutationID client := by
  rcases h.rows client with heq | ⟨-, hold, hnew⟩
  · exact heq.ge
  · omega

theorem Effect.once (h : Effect s s' c) (hs : Inv s) :
    (∀ m ∈ s'.committed, m.2.1 ≤ s'.lastMutationID m.1) ∧ s'.AtMostOnce := by
  have hold : ∀ m ∈ s.committed, m.2.1 ≤ s'.lastMutationID m.1 := fun m hm =>
    (hs.committed m hm).trans (by exact_mod_cast h.le m.1)
  rcases h.committed with heq | ⟨ops, heq, hrow, hrow'⟩
  · rw [heq, AtMostOnce, heq]
    exact ⟨hold, hs.once⟩
  · rw [heq, AtMostOnce, heq]
    refine ⟨List.forall_mem_cons.mpr ⟨hrow'.ge, hold⟩, fun client id => ?_⟩
    rw [List.count_cons]
    split
    · next hnew =>
      -- The mutation is after all that was committed for its client.
      obtain ⟨rfl, rfl, rfl⟩ : c.client = client ∧ c.id = id ∧ ops = true := by simpa using hnew
      have hnone : (c.client, c.id, true) ∉ s.committed := fun hm => by
        have hle := hs.committed _ hm
        dsimp only at hle
        omega
      exact (congrArg (· + 1) (List.count_eq_zero_of_not_mem hnone)).le
    · exact hs.once client id

theorem Effect.returned (hs : Inv s) {k : ℕ} {attempt : Attempt} (hk : s.calls[k]? = some c) (hc : c.finished = none)
    (hcan : s.CanBe c attempt) : GoesOn c (c.ended (outcome c attempt))
      (c.id ≤ (s.effect c attempt).lastMutationID c.client ∨
        ∃ message, attempt = .fail (.serializationFailure message) ∧ c.errorMode = false ∧
          c.i + 1 = maxSerializationAttempts) := by
  refine GoesOn.imp (goesOn_ended hc (hs.left c (List.mem_of_getElem? hk) hc) _) fun h => ?_
  cases attempt with
  | commit canPre canPost =>
    obtain ⟨row, hrow⟩ := hcan
    obtain ⟨hid, rfl⟩ := checkLastMutationID_ok.mp hrow
    left
    rw [effect, commit, hrow]
    simp only [if_true]
    omega
  | commitLost canPre canPost message =>
    rcases h with h | ⟨_, h⟩ | ⟨_, h, -⟩ <;> cases h
  | check row =>
    obtain ⟨hle, e, he⟩ := hcan
    have hout : outcome c (.check row) = .error e := by rw [outcome, he]; rfl
    rw [hout] at h
    have hcases := checkLastMutationID_error he
    rcases h with h | ⟨message, h⟩ | ⟨message, h, -⟩
    · cases h
    · cases h
      rcases hcases with ⟨_, -, hid⟩ | ⟨_, h⟩
      · exact .inl (hid.trans (by exact_mod_cast hle))
      · cases h
    · cases h
      rcases hcases with ⟨_, h, -⟩ | ⟨_, h⟩ <;> cases h
  | fail e =>
    rcases h with h | ⟨message, h⟩ | ⟨message, h, hlast⟩
    · cases h
    · cases h
      exact absurd rfl (hcan message)
    · cases h
      exact .inr ⟨message, rfl, hlast⟩

theorem Inv.moves (h : Inv s) (e : MutagenEvent) : s.Moves e ∧
    (∀ m ∈ (s.step e).committed, m.2.1 ≤ (s.step e).lastMutationID m.1) ∧ (s.step e).AtMostOnce := by
  cases e with
  | call client id customMutatorsEnabled => exact ⟨fun _ => .inl rfl, h.committed, h.once⟩
  | attempt k attempt =>
    unfold Moves
    rw [step]
    cases hk : s.calls[k]? with
    | none => exact ⟨fun _ => .inl rfl, h.committed, h.once⟩
    | some c =>
      have heffect := effect_effect s c attempt
      obtain ⟨hcommitted, honce⟩ := heffect.once h
      refine ⟨fun client => (heffect.rows client).imp id ?_, hcommitted, honce⟩
      rintro ⟨rfl, hold, hnew⟩
      exact ⟨k, attempt, c, rfl, hk, rfl, hold, hnew⟩

/-- **A step** leaves calls that return settled exactly when it does not use up the attempts of one too early. -/
theorem Inv.settled_iff (h : Inv s) (hp : s.Possible e) : (s.step e).Settled ↔ s.NotUsedUp e := by
  cases e with
  | call client id customMutatorsEnabled =>
    refine ⟨fun _ => trivial, fun _ c hc result hr => ?_⟩
    rcases List.mem_append.mp hc with hc | hc
    · exact h.settled c hc result hr
    · rw [List.mem_singleton.mp hc] at hr
      cases hr
  | attempt k attempt =>
    obtain ⟨c, hk, hc, hcan⟩ := hp
    have heffect := effect_effect s c attempt
    have hgoes := Effect.returned h hk hc hcan
    have hin : c.ended (outcome c attempt) ∈ s.calls.set k (c.ended (outcome c attempt)) := by
      obtain ⟨hlt, -⟩ := List.getElem?_eq_some_iff.mp hk
      exact List.mem_set hlt _
    constructor
    · intro hsettled
      rw [step, hk] at hsettled
      cases attempt with
      | fail e =>
        cases e with
        | serializationFailure message =>
          intro c' hk' hmode hlast
          obtain rfl : c = c' := Option.some.inj (hk.symm.trans hk')
          have hle := hsettled _ hin c.result (ended_last message hmode hlast)
          rwa [hgoes.client, hgoes.id] at hle
        | _ => trivial
      | _ => trivial
    · intro hused
      rw [step, hk]
      intro c' hc' result hr
      rcases List.mem_or_eq_of_mem_set hc' with hc' | rfl
      · exact (h.settled c' hc' result hr).trans (by exact_mod_cast heffect.le c'.client)
      · rw [hgoes.client, hgoes.id]
        rcases hgoes.returned result hr with hle | ⟨message, rfl, hmode, hlast⟩
        · exact hle
        · exact hused c hk hmode hlast

theorem Inv.step (h : Inv s) (hp : s.Possible e) (hused : s.NotUsedUp e) : Inv (s.step e) := by
  obtain ⟨-, hcommitted, honce⟩ := h.moves e
  refine ⟨(h.settled_iff hp).mpr hused, fun c' hc' hnone => ?_, hcommitted, honce⟩
  cases e with
  | call client id customMutatorsEnabled =>
    rcases List.mem_append.mp hc' with hc' | hc'
    · exact h.left c' hc' hnone
    · rw [List.mem_singleton.mp hc']
      exact Nat.zero_lt_succ 9
  | attempt k attempt =>
    obtain ⟨c, hk, hc, hcan⟩ := hp
    rw [MutagenRun.step, hk] at hc'
    rcases List.mem_or_eq_of_mem_set hc' with hc' | rfl
    · exact h.left c' hc' hnone
    · exact (Effect.returned h hk hc hcan).i hnone

/-- **`processMutation` does what it should** in every step of a run exactly
when no call's last attempt fails to serialize before the mutation is processed. -/
theorem right_iff (lastMutationID : ClientKey → ℕ) (events : List MutagenEvent)
    (hp : Always step Possible (start lastMutationID) events) :
    Always step Right (start lastMutationID) events ↔ Always step NotUsedUp (start lastMutationID) events := by
  refine hp.iff_of_inv (inv_start lastMutationID) (fun s e h hp => ?_) fun _ _ h hp hused => h.step hp hused
  obtain ⟨hmoves, -, honce⟩ := h.moves e
  exact ⟨fun hright => (h.settled_iff hp).mp hright.1, fun hused => ⟨(h.settled_iff hp).mpr hused, hmoves, honce⟩⟩

theorem right_iff_commit : Always step Right (start fun _ => 0)
    [.call ⟨"group", "client"⟩ 1 false, .attempt 0 (.fail (.serializationFailure "")), .attempt 0 (.commit true true)] := by
  refine (right_iff (fun _ => 0) _ ?_).mpr ?_
  · simp [Always, Possible, CanBe, step, start, effect, outcome, ended, catches, continues, maxSerializationAttempts,
      checkLastMutationID_ok]
  · simp [Always, NotUsedUp, step, start, maxSerializationAttempts]

/-- Ten serialization failures, after which the call returns as if the mutation were processed. -/
theorem usedUp_returns :
    Always step Possible (start fun _ => 0) (.call ⟨"group", "client"⟩ 1 false ::
      List.replicate 10 (.attempt 0 (.fail (.serializationFailure "")))) ∧
    ¬ Always step Right (start fun _ => 0) (.call ⟨"group", "client"⟩ 1 false ::
      List.replicate 10 (.attempt 0 (.fail (.serializationFailure "")))) := by
  constructor
  · simp [List.replicate, Always, Possible, CanBe, step, start, effect, outcome, ended, catches, continues,
      maxSerializationAttempts]
  · simp [List.replicate, Always, Right, Settled, step, start, effect, outcome, ended, catches, continues, returns,
      maxSerializationAttempts]

end MutagenRun

end ZeroSync
