/-
What the transactions of a mutation can do to the database: nothing, or commit
once and move the last mutation ID of its client to its own (`Follows`).
-/
import ZeroSync.ProcessMutations
import ZeroSync.Fallible

namespace ZeroSync.ProcessMutations

variable {D α : Type} {t : Transactor} {m : CustomMutation} {db db' db₁ db₂ : Database D}

/-- The last mutation ID of a client goes from the ID before this one to this one, and no other's goes anywhere. -/
structure Advances (client : ClientKey) (id : ℤ) (s s' : Store D) : Prop where
  before : s.lastMutationID client = id - 1
  after : s'.lastMutationID client = id
  others : ∀ c, c ≠ client → s'.clients c = s.clients c

/-- A mutation of this ID has been processed, if it was not skipped. -/
def Processed (t : Transactor) (m : CustomMutation) (s : Store D) : Prop := m.id ≤ s.lastMutationID (t.client m.clientID)

structure Unchanged (db db' : Database D) : Prop where
  store : db'.store = db.store
  log : db'.log = db.log

/-- A transaction for a mutation is committed. -/
structure Committed (work : Work) (t : Transactor) (m : CustomMutation) (db db' : Database D) : Prop where
  log : db'.log = db.log ++ [⟨work, t.getTransactionInput m, db.store, db'.store⟩]
  advances : Advances (t.client m.clientID) m.id db.store db'.store
  mutation : work ≠ .cleanup
  data : work ≠ .mutator → db'.store.data = db.store.data

/-- At most one transaction for a mutation is committed. -/
def Follows (t : Transactor) (m : CustomMutation) (db db' : Database D) : Prop :=
  Unchanged db db' ∨ ∃ work, Committed work t m db db'

theorem Unchanged.refl (db : Database D) : Unchanged db db := ⟨rfl, rfl⟩

theorem Unchanged.trans (h₁ : Unchanged db db₁) (h₂ : Unchanged db₁ db₂) : Unchanged db db₂ :=
  ⟨h₂.store.trans h₁.store, h₂.log.trans h₁.log⟩

theorem Unchanged.then_committed {work : Work} (h₁ : Unchanged db db₁) (h₂ : Committed work t m db₁ db₂) :
    Committed work t m db db₂ := by
  refine ⟨?_, ?_, h₂.mutation, ?_⟩
  · rw [h₂.log, h₁.log, h₁.store]
  · rw [← h₁.store]
    exact h₂.advances
  · rw [← h₁.store]
    exact h₂.data

theorem Committed.then_unchanged {work : Work} (h₁ : Committed work t m db db₁) (h₂ : Unchanged db₁ db₂) :
    Committed work t m db db₂ := by
  refine ⟨?_, ?_, h₁.mutation, ?_⟩
  · rw [h₂.log, h₁.log, h₂.store]
  · rw [h₂.store]
    exact h₁.advances
  · rw [h₂.store]
    exact h₁.data

theorem Committed.processed {work : Work} (h : Committed work t m db db') : Processed t m db'.store :=
  h.advances.after.ge

theorem Committed.not_processed {work : Work} (h : Committed work t m db db') : ¬ Processed t m db.store := by
  have hbefore := h.advances.before
  unfold Processed
  omega

theorem Follows.trans (h₁ : Follows t m db db₁) (h₂ : Follows t m db₁ db₂) : Follows t m db db₂ := by
  rcases h₁ with h₁ | ⟨work, h₁⟩
  · rcases h₂ with h₂ | ⟨work, h₂⟩
    · exact .inl (h₁.trans h₂)
    · exact .inr ⟨work, h₁.then_committed h₂⟩
  · rcases h₂ with h₂ | ⟨_, h₂⟩
    · exact .inr ⟨work, h₁.then_unchanged h₂⟩
    · exact absurd h₁.processed h₂.not_processed

theorem Follows.refl (t : Transactor) (m : CustomMutation) (db : Database D) : Follows t m db db := .inl (.refl db)

theorem Follows.lastMutationID_le (h : Follows t m db db') (c : ClientKey) :
    db.store.lastMutationID c ≤ db'.store.lastMutationID c := by
  rcases h with h | ⟨work, h⟩
  · rw [h.store]
  · by_cases hc : c = t.client m.clientID
    · rw [hc, h.advances.before, h.advances.after]
      omega
    · exact (congrArg (Option.getD · 0) (h.advances.others c hc)).ge

theorem Follows.processed (h : Follows t m db db') (hp : Processed t m db.store) : Processed t m db'.store :=
  le_trans hp (h.lastMutationID_le _)

theorem Follows.unchanged (h : Follows t m db db') (hp : ¬ Processed t m db'.store) : Unchanged db db' := by
  rcases h with h | ⟨work, h⟩
  · exact h
  · exact absurd h.processed hp

/-! ## A transaction -/

theorem reach_cases (fault : Option Fault) (step : Step) :
    reach fault step = .ok () ∨ ∃ message details, reach fault step = .error (.failure (.other message details)) := by
  unfold reach
  cases fault with
  | none => exact .inl rfl
  | some f =>
    by_cases hstep : f.step = step
    · exact .inr ⟨f.message, f.details, if_pos hstep⟩
    · exact .inl (if_neg hstep)

/-- The commit of a transaction goes through and is reported as a failure. -/
def Database.LosesReply (db : Database D) : Prop := db.nextFault.any (·.step = .reply)

theorem transaction_cases (db : Database D) (work : Work) (input : TransactionProviderInput)
    (callback : Tx D → Except Thrown (Tx D × α)) :
    (∃ tx a, callback ⟨db.store, db.nextFault⟩ = .ok (tx, a) ∧
      (db.transaction work input callback).db.store = tx.store ∧
      (db.transaction work input callback).db.log = db.log ++ [⟨work, input, db.store, tx.store⟩] ∧
      ((db.transaction work input callback).result = .ok a ∨
        db.LosesReply ∧ ∃ message details,
          (db.transaction work input callback).result = .error (.failure (.other message details)))) ∨
    (Unchanged db (db.transaction work input callback).db ∧
      ∃ e, (db.transaction work input callback).result = .error e ∧
        ((∃ message details, e = .failure (.other message details)) ∨
          callback ⟨db.store, db.nextFault⟩ = .error e)) := by
  unfold Database.transaction
  rcases reach_cases db.nextFault .opening with ho | ⟨message, details, ho⟩
  · simp only [ho]
    cases hc : callback ⟨db.store, db.nextFault⟩ with
    | error e => exact .inr ⟨⟨rfl, rfl⟩, e, rfl, .inr rfl⟩
    | ok r =>
      obtain ⟨tx, a⟩ := r
      rcases reach_cases db.nextFault .commit with hm | ⟨message, details, hm⟩
      · refine .inl ⟨tx, a, rfl, ?_⟩
        simp only [hm]
        refine ⟨trivial, trivial, ?_⟩
        rcases reach_cases db.nextFault .reply with hr | ⟨message, details, hr⟩
        · exact .inl (by rw [hr]; rfl)
        · refine .inr ⟨?_, message, details, by rw [hr]; rfl⟩
          unfold reach at hr
          unfold Database.LosesReply
          cases hf : db.nextFault with
          | none => simp [hf] at hr
          | some f =>
            by_cases hstep : f.step = .reply
            · simp [hstep]
            · simp [hf, hstep] at hr
      · simp only [hm]
        exact .inr ⟨⟨rfl, rfl⟩, _, rfl, .inl ⟨message, details, rfl⟩⟩
  · simp only [ho]
    exact .inr ⟨⟨rfl, rfl⟩, _, rfl, .inl ⟨message, details, rfl⟩⟩

/-! ## `#transactImpl` -/

theorem updateClientMutationID_ok {tx : Tx D} {input : TransactionProviderInput} {r : Tx D × ℤ}
    (h : tx.updateClientMutationID input = .ok r) :
    r.2 = tx.store.lastMutationID input.client + 1 ∧ r.1.store.lastMutationID input.client = r.2 ∧
      (∀ c, c ≠ input.client → r.1.store.clients c = tx.store.clients c) ∧ r.1.store.data = tx.store.data := by
  obtain ⟨_, _, h⟩ := Fallible.bind_ok h
  obtain rfl := Except.ok.inj h
  refine ⟨?_, ?_, fun c hc => if_neg hc, rfl⟩
  · unfold Store.lastMutationID
    cases tx.store.clients input.client <;> rfl
  · exact congrArg (Option.getD · 0) (if_pos rfl)

theorem writeMutationResult_ok {tx tx' : Tx D} {input : TransactionProviderInput} {response : MutationResponse}
    (h : tx.writeMutationResult input response = .ok tx') :
    tx'.store.clients = tx.store.clients ∧ tx'.store.data = tx.store.data := by
  obtain ⟨_, _, h⟩ := Fallible.bind_ok h
  dsimp only at h
  split at h
  · cases h
  · obtain rfl := Except.ok.inj h
    exact ⟨rfl, rfl⟩

theorem checkAndIncrement_ok {tx tx' : Tx D}
    (h : Transactor.checkAndIncrementLastMutationID tx (t.getTransactionInput m) m.clientID m.id = .ok tx') :
    Advances (t.client m.clientID) m.id tx.store tx'.store ∧ tx'.store.data = tx.store.data := by
  obtain ⟨⟨tx₁, lastMutationID⟩, hu, h⟩ := Fallible.bind_ok h
  obtain ⟨hnext, hrow, hothers, hdata⟩ := updateClientMutationID_ok hu
  simp only at hnext hrow hothers hdata h
  split at h
  · cases h
  · split at h
    · cases h
    · obtain rfl := Except.ok.inj h
      obtain rfl : lastMutationID = m.id := by omega
      exact ⟨⟨by rw [hnext]; exact (Int.add_sub_cancel _ _).symm, hrow, hothers⟩, hdata⟩

theorem checkAndIncrement_alreadyProcessed {tx : Tx D} {clientID : String} {received actual : ℤ}
    (h : Transactor.checkAndIncrementLastMutationID tx (t.getTransactionInput m) m.clientID m.id =
      .error (.alreadyProcessed clientID received actual)) : Processed t m tx.store := by
  unfold Transactor.checkAndIncrementLastMutationID at h
  cases hu : tx.updateClientMutationID (t.getTransactionInput m) with
  | error e =>
    rw [hu] at h
    obtain rfl := Except.error.inj h
    unfold Tx.updateClientMutationID at hu
    rcases reach_cases tx.fault .updateClientMutationID with hr | ⟨message, details, hr⟩
    · rw [hr] at hu
      cases hu
    · rw [hr] at hu
      cases hu
  | ok r =>
    obtain ⟨hnext, -, -, -⟩ := updateClientMutationID_ok hu
    obtain ⟨tx₁, lastMutationID⟩ := r
    simp only at hnext
    rw [hu] at h
    change (if m.id < lastMutationID then _ else _) = _ at h
    by_cases hlt : m.id < lastMutationID
    · exact Int.lt_add_one_iff.mp (hnext ▸ hlt)
    · rw [if_neg hlt] at h
      split at h
      · cases h
      · cases h

theorem execute_ok {cb : TransactFnCallback D} {appError : Option ApplicationError} {tx tx' : Tx D}
    {ret : MutationResponse} (h : t.execute m cb appError tx = .ok (tx', ret)) :
    ret = ⟨m.mutationID, .ok none⟩ ∧ Advances (t.client m.clientID) m.id tx.store tx'.store ∧
      (appError ≠ none → tx'.store.data = tx.store.data) := by
  obtain ⟨tx₁, hc, h⟩ := Fallible.bind_ok h
  obtain ⟨hadv, hdata⟩ := checkAndIncrement_ok hc
  dsimp only at h
  cases appError with
  | none =>
    simp only at h
    split at h
    · obtain ⟨rfl, rfl⟩ := Prod.mk.inj (Except.ok.inj h)
      exact ⟨rfl, ⟨hadv.before, hadv.after, hadv.others⟩, fun h => absurd rfl h⟩
    · cases h
  | some e =>
    obtain ⟨tx₂, hw, h⟩ := Fallible.bind_ok h
    obtain ⟨hclients, hdata'⟩ := writeMutationResult_ok hw
    obtain ⟨rfl, rfl⟩ := Prod.mk.inj (Except.ok.inj h)
    refine ⟨rfl, ⟨hadv.before, ?_, fun c hc => ?_⟩, fun _ => hdata'.trans hdata⟩
    · rw [← hadv.after]
      unfold Store.lastMutationID
      rw [hclients]
    · rw [hclients]
      exact hadv.others c hc

theorem execute_alreadyProcessed {cb : TransactFnCallback D} {appError : Option ApplicationError} {tx : Tx D}
    {clientID : String} {received actual : ℤ}
    (h : t.execute m cb appError tx = .error (.alreadyProcessed clientID received actual)) :
    Processed t m tx.store := by
  unfold Transactor.execute at h
  cases hc : Transactor.checkAndIncrementLastMutationID tx (t.getTransactionInput m) m.clientID m.id with
  | error e =>
    simp only [hc] at h
    obtain rfl := Except.error.inj h
    exact checkAndIncrement_alreadyProcessed hc
  | ok tx₁ =>
    simp only [hc] at h
    cases appError with
    | none =>
      dsimp only [bind, Except.bind] at h
      split at h
      · cases h
      · cases h
    | some e =>
      change (tx₁.writeMutationResult _ _ >>= _) = _ at h
      unfold Tx.writeMutationResult at h
      rcases reach_cases tx₁.fault .writeMutationResult with hr | ⟨message, details, hr⟩
      · rw [hr] at h
        dsimp only [bind, Except.bind] at h
        split at h
        · rename_i hrow
          split at hrow <;> cases hrow
          cases h
        · cases h
      · rw [hr] at h
        cases h

/-- What an attempt comes to: it commits and returns; it finds the mutation
processed; or it fails, and has committed only if the reply was lost. -/
inductive Attempt (work : Work) (t : Transactor) (m : CustomMutation) (db : Database D) :
    Except Thrown MutationResponse × Database D → Prop
  | returned {db' : Database D} (h : Committed work t m db db') : Attempt work t m db (.ok ⟨m.mutationID, .ok none⟩, db')
  | alreadyProcessed {db' : Database D} (clientID : String) (received actual : ℤ) (h : Unchanged db db')
      (hp : Processed t m db.store) : Attempt work t m db (.error (.alreadyProcessed clientID received actual), db')
  | failed {db' : Database D} (f : Failure) (h : Unchanged db db') : Attempt work t m db (.error (.failure f), db')
  | lost {db' : Database D} (f : Failure) (h : Committed work t m db db') (hl : db.LosesReply) :
      Attempt work t m db (.error (.failure f), db')

theorem rethrown_failure (phase : DatabaseTransactionPhase) (f : Failure) :
    ∃ f', Transactor.rethrown phase (.failure f) = .failure f' := by
  cases f with
  | application e => exact ⟨_, rfl⟩
  | outOfOrder clientID received last => exact ⟨_, rfl⟩
  | databaseTransaction p cause => exact ⟨_, rfl⟩
  | other message details => exact ⟨_, rfl⟩

theorem transactImpl_cases (t : Transactor) (db : Database D) (m : CustomMutation) (cb : TransactFnCallback D)
    (appError : Option ApplicationError) :
    Attempt (if appError.isNone then .mutator else .errorResult) t m db (t.transactImpl db m cb appError) := by
  let work : Work := if appError.isNone then .mutator else .errorResult
  change Attempt work t m db (t.transactImpl db m cb appError)
  have heq : t.transactImpl db m cb appError =
      let outcome := db.transaction work (t.getTransactionInput m) (t.execute m cb appError)
      (outcome.result.mapError (Transactor.rethrown outcome.phase), outcome.db) := rfl
  rw [heq]
  dsimp only
  generalize hout : db.transaction work (t.getTransactionInput m) (t.execute m cb appError) = outcome
  rcases transaction_cases db work (t.getTransactionInput m) (t.execute m cb appError) with
    ⟨tx, a, hx, hstore, hlog, hres⟩ | ⟨hun, e, hres, he⟩
  · rw [hout] at hstore hlog hres
    obtain ⟨rfl, hadv, hdata⟩ := execute_ok hx
    have hcom : Committed work t m db outcome.db := by
      refine ⟨by rw [hlog, hstore], by rw [hstore]; exact hadv, ?_, fun hw => ?_⟩
      · cases appError <;> exact Work.noConfusion
      · rw [hstore]
        refine hdata fun hnone => hw ?_
        subst hnone
        rfl
    rcases hres with hres | ⟨hl, message, details, hres⟩
    · rw [hres]
      exact .returned hcom
    · rw [hres]
      exact .lost _ hcom hl
  · rw [hout] at hun hres
    rw [hres]
    rcases he with ⟨message, details, rfl⟩ | he
    · exact .failed _ hun
    · cases e with
      | alreadyProcessed clientID received actual =>
        exact .alreadyProcessed _ _ _ hun (execute_alreadyProcessed he)
      | failure f =>
        obtain ⟨f', hf'⟩ := rethrown_failure outcome.phase f
        change Attempt work t m db (.error (Transactor.rethrown outcome.phase (.failure f)), outcome.db)
        rw [hf']
        exact .failed _ hun

theorem Attempt.follows {work : Work} {r : Except Thrown MutationResponse × Database D} (h : Attempt work t m db r) :
    Follows t m db r.2 := by
  cases h with
  | returned h => exact .inr ⟨work, h⟩
  | alreadyProcessed _ _ _ h _ => exact .inl h
  | failed _ h => exact .inl h
  | lost _ h _ => exact .inr ⟨work, h⟩

/-! ## `transact` -/

/-- What a call comes to: it returns a response of the mutation, which has been
processed then, or it fails. -/
inductive Call (t : Transactor) (m : CustomMutation) (db : Database D) :
    Except Failure MutationResponse × Database D → Prop
  | returned {db' : Database D} (result : MutationResult) (h : Follows t m db db') (hp : Processed t m db'.store) :
      Call t m db (.ok ⟨m.mutationID, result⟩, db')
  | failed {db' : Database D} (f : Failure) (h : Follows t m db db') : Call t m db (.error f, db')

/-- What a call returns after its second attempt, which writes the error's result. -/
def secondOutcome (m : CustomMutation) (appError : ApplicationError) :
    Except Thrown MutationResponse × Database D → Except Failure MutationResponse × Database D
  | (.ok _, db) => (.ok (makeAppErrorResponse m appError), db)
  | (.error (.alreadyProcessed clientID received actual), db) =>
    (.ok (Transactor.alreadyProcessedResponse m (.alreadyProcessed clientID received actual)), db)
  | (.error (.failure f), db) => (.error f, db)

theorem transact_cases (t : Transactor) (db : Database D) (m : CustomMutation) (cb : TransactFnCallback D) :
    Call t m db (t.transact db m cb) := by
  -- The second attempt, from wherever the first has left the database.
  have hsecond : ∀ (f : Failure) (db₁ : Database D), Follows t m db db₁ →
      Call t m db (secondOutcome m (wrapWithApplicationError (Transactor.originalError f))
        (t.transactImpl db₁ m cb (some (wrapWithApplicationError (Transactor.originalError f))))) := by
    intro f db₁ h₁
    have h₂ := transactImpl_cases t db₁ m cb (some (wrapWithApplicationError (Transactor.originalError f)))
    generalize t.transactImpl db₁ m cb (some (wrapWithApplicationError (Transactor.originalError f))) = r at h₂
    cases h₂ with
    | returned h => exact .returned _ (h₁.trans (.inr ⟨_, h⟩)) h.processed
    | alreadyProcessed clientID received actual h hp => exact .returned _ (h₁.trans (.inl h)) (h.store ▸ hp)
    | failed f' h => exact .failed f' (h₁.trans (.inl h))
    | lost f' h hl => exact .failed f' (h₁.trans (.inr ⟨_, h⟩))
  have hfirst := transactImpl_cases t db m cb none
  unfold Transactor.transact
  generalize t.transactImpl db m cb none = r at hfirst
  cases hfirst with
  | returned h => exact .returned _ (.inr ⟨_, h⟩) h.processed
  | alreadyProcessed clientID received actual h hp => exact .returned _ (.inl h) (h.store ▸ hp)
  | failed f h =>
    cases f with
    | outOfOrder clientID received last => exact .failed _ (.inl h)
    | application e => exact hsecond _ _ (.inl h)
    | databaseTransaction phase cause => exact hsecond _ _ (.inl h)
    | other message details => exact hsecond _ _ (.inl h)
  | lost f h hl =>
    cases f with
    | outOfOrder clientID received last => exact .failed _ (.inr ⟨_, h⟩)
    | application e => exact hsecond _ _ (.inr ⟨_, h⟩)
    | databaseTransaction phase cause => exact hsecond _ _ (.inr ⟨_, h⟩)
    | other message details => exact hsecond _ _ (.inr ⟨_, h⟩)

end ZeroSync.ProcessMutations
