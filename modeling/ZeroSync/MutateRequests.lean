/-
Runs of `/mutate` requests: what is committed for each mutation, and what the
answers say of it.

An error that leaves a handler has no mark of what was committed. The code goes
by the phase: before the first call of `transact` it takes the mutation for one
that has not been processed, and after a call that failed it writes down nothing
(`Orderly` says when it is right).
-/
import ZeroSync.ProcessMutationsFacts
import ZeroSync.Runs

namespace ZeroSync.ProcessMutations

variable {D : Type} {t : Transactor} {m : CustomMutation} {db db' : Database D}

/-! ## A handler -/

/-- The responses that the calls of a handler are returned. -/
def Handler.told (t : Transactor) (m : CustomMutation) : Handler D → Database D → List MutationResponse
  | .answer _, _ => []
  | .fail _, _ => []
  | .transact cb next, db =>
    match t.transact db m cb with
    | (.ok result, db) => result :: (next (.ok result)).told t m db
    | (.error error, db) => (next (.error error)).told t m db

theorem Handler.run_follows (handler : Handler D) (phase : MutationPhase) (db : Database D) :
    Follows t m db (handler.run t m phase db).db := by
  induction handler generalizing phase db with
  | answer response => exact .refl t m db
  | fail error => exact .refl t m db
  | transact cb next ih =>
    have hcall := transact_cases t db m cb
    unfold Handler.run
    generalize t.transact db m cb = r at hcall
    cases hcall with
    | returned result h hp => exact h.trans (ih _ _ _)
    | failed f h => exact h.trans (ih _ _ _)

theorem Handler.run_told {handler : Handler D} {phase : MutationPhase} (h : handler.told t m db ≠ []) :
    Processed t m (handler.run t m phase db).db.store := by
  induction handler generalizing phase db with
  | answer response => exact absurd rfl h
  | fail error => exact absurd rfl h
  | transact cb next ih =>
    have hcall := transact_cases t db m cb
    unfold Handler.told at h
    unfold Handler.run
    generalize t.transact db m cb = r at hcall h
    cases hcall with
    | returned result hf hp => exact (Handler.run_follows _ _ _).processed hp
    | failed f hf => exact ih _ h

theorem Handler.run_preTransaction {handler : Handler D} {phase : MutationPhase}
    (h : (handler.run t m phase db).mutationPhase = .preTransaction) : (handler.run t m phase db).db = db := by
  cases handler with
  | answer response => rfl
  | fail error => rfl
  | transact cb next =>
    -- No phase after a call is this one.
    have hlater : ∀ (handler : Handler D) (phase : MutationPhase) (db : Database D), phase ≠ .preTransaction →
        (handler.run t m phase db).mutationPhase ≠ .preTransaction := by
      intro handler
      induction handler with
      | answer response => exact fun _ _ h => h
      | fail error => exact fun _ _ h => h
      | transact cb next ih =>
        intro phase db hphase
        unfold Handler.run
        rcases t.transact db m cb with ⟨_ | _, db₁⟩
        · exact ih _ _ _ MutationPhase.noConfusion
        · exact ih _ _ _ MutationPhase.noConfusion
    unfold Handler.run at h
    rcases hr : t.transact db m cb with ⟨_ | _, db₁⟩
    · rw [hr] at h
      exact absurd h (hlater _ _ _ MutationPhase.noConfusion)
    · rw [hr] at h
      exact absurd h (hlater _ _ _ MutationPhase.noConfusion)

theorem Handler.run_postCommit {handler : Handler D} {phase : MutationPhase} (hphase : phase ≠ .postCommit)
    (h : (handler.run t m phase db).mutationPhase = .postCommit) : handler.told t m db ≠ [] := by
  induction handler generalizing phase db with
  | answer response => exact absurd h hphase
  | fail error => exact absurd h hphase
  | transact cb next ih =>
    unfold Handler.told
    unfold Handler.run at h
    rcases hr : t.transact db m cb with ⟨_ | _, db₁⟩
    · rw [hr] at h
      exact ih _ MutationPhase.noConfusion h
    · exact List.cons_ne_nil _ _

/-! ## A mutation -/

/-- How a handler leaves a mutation in order. What it answers is about that
mutation, and it answers with a success or an application error, or makes an
application error of a call that failed, only after a call has returned, or for a
mutation that had been processed before. Before its first call it throws only for
a mutation that has not been processed, and the commit that records the error is
not lost sight of; and it lets a failure out only while the mutation has not been
processed. -/
def Orderly (t : Transactor) (m : CustomMutation) (handler : Handler D) (db : Database D) : Prop :=
  let exit := handler.run t m .preTransaction db
  match exit.result with
  | .ok r =>
    r.id = m.mutationID ∧ (r.result.processed = true → handler.told t m db ≠ [] ∨ Processed t m db.store)
  | .error thrown =>
    match applicationErrorWrapper thrown with
    | .application _ =>
      match exit.mutationPhase with
      | .preTransaction =>
        ¬ Processed t m db.store ∧
          (db.LosesReply → m.id ≠ db.store.lastMutationID (t.client m.clientID) + 1)
      | .transactionPending => handler.told t m db ≠ [] ∨ Processed t m db.store
      | .postCommit => True
    | _ => ¬ Processed t m exit.db.store

theorem processMutation_follows (t : Transactor) (m : CustomMutation) (handler : Handler D) (db : Database D) :
    Follows t m db (processMutation t m handler db).2 := by
  have hrun := handler.run_follows (t := t) (m := m) .preTransaction db
  unfold processMutation
  generalize handler.run t m .preTransaction db = exit at hrun
  dsimp only
  split
  · exact hrun
  · split
    · split
      · rename_i error _ _
        have hpersist := (transactImpl_cases t exit.db m (fun _ _ data => .ok data) (some error)).follows
        unfold Transactor.persistPreTransactionFailure
        generalize t.transactImpl exit.db m (fun _ _ data => .ok data) (some error) = r at hpersist
        rcases r with ⟨_ | _, db₁⟩
        · exact hrun.trans hpersist
        · exact hrun.trans hpersist
      · exact hrun
    · exact hrun

/-- A handler that leaves its mutation in order: what it is told has come true,
and a mutation without a result has been left alone. -/
theorem processMutation_truthful {handler : Handler D} (h : Orderly t m handler db) :
    (∀ r, (processMutation t m handler db).1 = .ok r →
      r.id = m.mutationID ∧
        (r.result.processed = true → Processed t m (processMutation t m handler db).2.store)) ∧
    (∀ e, (processMutation t m handler db).1 = .error e →
      ¬ Processed t m (processMutation t m handler db).2.store ∧
        Unchanged db (processMutation t m handler db).2) := by
  have hrun := handler.run_follows (t := t) (m := m) .preTransaction db
  have htold := @Handler.run_told D t m db handler .preTransaction
  have hpre := @Handler.run_preTransaction D t m db handler .preTransaction
  have hpost := @Handler.run_postCommit D t m db handler .preTransaction MutationPhase.noConfusion
  unfold Orderly at h
  unfold processMutation
  generalize handler.run t m .preTransaction db = exit at hrun htold hpre hpost h
  dsimp only at h ⊢
  have hprocessed : handler.told t m db ≠ [] ∨ Processed t m db.store → Processed t m exit.db.store :=
    fun h => h.elim htold hrun.processed
  cases hres : exit.result with
  | ok r =>
    rw [hres] at h
    refine ⟨fun r' hr' => ?_, fun e he => by cases he⟩
    obtain rfl := Except.ok.inj hr'
    exact ⟨h.1, fun hp => hprocessed (h.2 hp)⟩
  | error thrown =>
    rw [hres] at h
    simp only at h ⊢
    cases hw : applicationErrorWrapper thrown with
    | application error =>
      rw [hw] at h
      simp only at h ⊢
      cases hphase : exit.mutationPhase with
      | preTransaction =>
        rw [hphase] at h
        obtain ⟨hnot, hlost⟩ := h
        obtain heq : exit.db = db := hpre hphase
        rw [if_pos rfl, heq]
        have hpersist := transactImpl_cases t db m (fun _ _ data => .ok data) (some error)
        unfold Transactor.persistPreTransactionFailure
        generalize t.transactImpl db m (fun _ _ data => .ok data) (some error) = r at hpersist
        cases hpersist with
        | returned hc =>
          refine ⟨fun r hr => ?_, fun e he => by cases he⟩
          obtain rfl := Except.ok.inj hr
          exact ⟨rfl, fun _ => hc.processed⟩
        | alreadyProcessed clientID received actual hu hp => exact absurd hp hnot
        | failed f hu =>
          refine ⟨(fun r hr => by cases hr), fun e _ => ⟨?_, hu⟩⟩
          rw [hu.store]
          exact hnot
        | lost f hc hl =>
          have hbefore := hc.advances.before
          exact absurd (by omega) (hlost hl)
      | transactionPending =>
        rw [hphase] at h
        refine ⟨fun r hr => ?_, fun e he => by cases he⟩
        obtain rfl := Except.ok.inj hr
        exact ⟨rfl, fun _ => hprocessed h⟩
      | postCommit =>
        refine ⟨fun r hr => ?_, fun e he => by cases he⟩
        obtain rfl := Except.ok.inj hr
        exact ⟨rfl, fun _ => htold (hpost hphase)⟩
    | outOfOrder clientID received last =>
      rw [hw] at h
      exact ⟨(fun r hr => by cases hr), fun e _ => ⟨h, hrun.unchanged h⟩⟩
    | databaseTransaction phase cause =>
      rw [hw] at h
      exact ⟨(fun r hr => by cases hr), fun e _ => ⟨h, hrun.unchanged h⟩⟩
    | other message details =>
      rw [hw] at h
      exact ⟨(fun r hr => by cases hr), fun e _ => ⟨h, hrun.unchanged h⟩⟩

/-! ## What is committed -/

/-- Commits one after another, each from the store that the one before has left. -/
def Linked : Store D → List (Commit D) → Store D → Prop
  | s, [], s' => s' = s
  | s, c :: log, s' => c.before = s ∧ Linked c.after log s'

/-- A transaction for a mutation moves its client's last mutation ID from the one
before it to its own, and only one that runs the mutator changes the data. -/
def Commit.Proper (c : Commit D) : Prop :=
  (c.work = .cleanup → c.after.clients = c.before.clients) ∧
    (c.work ≠ .cleanup → Advances c.input.client c.input.mutationID c.before c.after) ∧
    (c.work ≠ .mutator → c.after.data = c.before.data)

/-- The mutation a transaction is for. -/
def Commit.mutation (c : Commit D) : ClientKey × ℤ := (c.input.client, c.input.mutationID)

/-- **All that has become of the store since the start are commits, and each
mutation has one at most.** -/
structure ExactlyOnce (start : Store D) (db : Database D) : Prop where
  linked : Linked start db.log db.store
  proper : ∀ c ∈ db.log, c.Proper
  once : ((db.log.filter fun c => c.work ≠ .cleanup).map Commit.mutation).Nodup
  reached : ∀ c ∈ db.log, c.work ≠ .cleanup → c.input.mutationID ≤ db.store.lastMutationID c.input.client

theorem linked_append {s : Store D} {log : List (Commit D)} {c : Commit D} :
    Linked s (log ++ [c]) c.after ↔ Linked s log c.before := by
  induction log generalizing s with
  | nil => exact ⟨fun h => h.1, fun h => ⟨h, rfl⟩⟩
  | cons c' log ih => exact and_congr_right fun _ => ih

namespace ExactlyOnce

variable {start : Store D}

theorem unchanged (h : ExactlyOnce start db) (hu : Unchanged db db') : ExactlyOnce start db' := by
  obtain ⟨hlinked, hproper, honce, hreached⟩ := h
  rw [← hu.log, ← hu.store] at hlinked
  rw [← hu.log] at hproper honce
  rw [← hu.log, ← hu.store] at hreached
  exact ⟨hlinked, hproper, honce, hreached⟩

theorem committed {c : Commit D} (h : ExactlyOnce start db) (hlog : db'.log = db.log ++ [c])
    (hbefore : c.before = db.store) (hafter : c.after = db'.store) (hc : c.Proper) : ExactlyOnce start db' := by
  have hle : ∀ client, db.store.lastMutationID client ≤ db'.store.lastMutationID client := by
    intro client
    rw [← hbefore, ← hafter]
    by_cases hw : c.work = .cleanup
    · exact (congrArg (fun clients => (clients client).getD 0) (hc.1 hw)).ge
    · have hadv := hc.2.1 hw
      by_cases heq : client = c.input.client
      · rw [heq, hadv.before, hadv.after]
        omega
      · exact (congrArg (Option.getD · 0) (hadv.others client heq)).ge
  refine ⟨?_, ?_, ?_, ?_⟩
  · rw [hlog, ← hafter, linked_append, hbefore]
    exact h.linked
  · rw [hlog]
    intro c' hc'
    rcases List.mem_append.mp hc' with hc' | hc'
    · exact h.proper c' hc'
    · exact List.mem_singleton.mp hc' ▸ hc
  · rw [hlog, List.filter_append, List.map_append]
    by_cases hw : c.work = .cleanup
    · have hnil : [c].filter (fun c => decide (c.work ≠ .cleanup)) = [] := by simp [hw]
      rw [hnil, List.map_nil, List.append_nil]
      exact h.once
    · have hcons : [c].filter (fun c => decide (c.work ≠ .cleanup)) = [c] := by simp [hw]
      rw [hcons]
      refine List.nodup_append.mpr ⟨h.once, by simp, ?_⟩
      rintro _ hmem _ hlast rfl
      obtain ⟨c', hc', heq⟩ := List.mem_map.mp hmem
      obtain ⟨hc', hw'⟩ := List.mem_filter.mp hc'
      have hle := h.reached c' hc' (of_decide_eq_true hw')
      obtain ⟨hclient, hid⟩ := Prod.mk.inj (heq.trans (List.mem_singleton.mp hlast))
      have hbefore' := (hc.2.1 hw).before
      rw [hclient, hid, ← hbefore] at hle
      omega
  · rw [hlog]
    intro c' hc' hw'
    rcases List.mem_append.mp hc' with hc' | hc'
    · exact le_trans (h.reached c' hc' hw') (hle _)
    · obtain rfl := List.mem_singleton.mp hc'
      rw [← hafter]
      exact (hc.2.1 hw').after.ge

theorem follows (h : ExactlyOnce start db) (hf : Follows t m db db') : ExactlyOnce start db' := by
  rcases hf with hu | ⟨work, hc⟩
  · exact h.unchanged hu
  · exact h.committed hc.log rfl rfl ⟨fun hw => absurd hw hc.mutation, fun _ => hc.advances, hc.data⟩

end ExactlyOnce

/-! ## The loop -/

/-- Whether a mutation is given no result. -/
def Mutation.isCleanup : Mutation → Bool
  | .crud _ _ => false
  | .custom m => m.name = CLEANUP_RESULTS_MUTATION_NAME

/-- The cleanup of results is one transaction, which leaves the clients and the data. -/
inductive Cleaned (db db' : Database D) : Prop
  | unchanged (h : Unchanged db db')
  | committed (input : TransactionProviderInput) (hlog : db'.log = db.log ++ [⟨.cleanup, input, db.store, db'.store⟩])
      (hclients : db'.store.clients = db.store.clients) (hdata : db'.store.data = db.store.data)

theorem cleanup_cases (db : Database D) (input : TransactionProviderInput) (args : CleanupResultsArg) :
    Cleaned db (db.transaction .cleanup input fun tx =>
      (tx.deleteMutationResults input args).map fun tx => (tx, ())).db := by
  rcases transaction_cases db .cleanup input
    (fun tx => (tx.deleteMutationResults input args).map fun tx => (tx, ())) with
    ⟨tx, a, hx, hstore, hlog, -⟩ | ⟨hu, -⟩
  · obtain ⟨tx', htx', heq⟩ := Fallible.map_ok hx
    obtain ⟨rfl, -⟩ := Prod.mk.inj heq
    obtain ⟨_, _, hdel⟩ := Fallible.bind_ok htx'
    obtain rfl := Except.ok.inj hdel
    refine .committed input ?_ ?_ ?_
    · rw [hlog, hstore]
    · rw [hstore]
    · rw [hstore]
  · exact .unchanged hu

theorem processCleanup_cases (parse : Option JSONValue → Option CleanupResultsArg) (t : Transactor)
    (m : CustomMutation) (db : Database D) : Cleaned db (processCleanupResultsMutation parse t m db) := by
  unfold processCleanupResultsMutation
  cases parse m.args.head? with
  | none => exact .unchanged (.refl db)
  | some args => cases args <;> exact cleanup_cases db _ _

theorem Cleaned.exactlyOnce {start : Store D} (h : Cleaned db db') (hs : ExactlyOnce start db) :
    ExactlyOnce start db' := by
  cases h with
  | unchanged h => exact hs.unchanged h
  | committed input hlog hclients hdata =>
    exact hs.committed hlog rfl rfl ⟨fun _ => hclients, fun h => absurd rfl h, fun _ => hdata⟩

theorem Cleaned.lastMutationID (h : Cleaned db db') (client : ClientKey) :
    db'.store.lastMutationID client = db.store.lastMutationID client := by
  cases h with
  | unchanged h => rw [h.store]
  | committed input hlog hclients hdata => exact congrArg (fun clients => (clients client).getD 0) hclients

theorem processMutations_exactlyOnce {start : Store D} (e : Exchange D) (p : Progress D) (mutations : List Mutation)
    (h : ExactlyOnce start p.db) : ExactlyOnce start (e.processMutations t p mutations).1.db := by
  induction mutations generalizing p with
  | nil => exact h
  | cons mutation rest ih =>
    cases mutation with
    | crud id clientID => exact h
    | custom m =>
      unfold Exchange.processMutations
      by_cases hname : m.name = CLEANUP_RESULTS_MUTATION_NAME
      · rw [if_pos hname]
        exact ih _ ((processCleanup_cases e.parseCleanup t m p.db).exactlyOnce h)
      · rw [if_neg hname]
        have hfollows := processMutation_follows t m (e.handler p.processedCount m) p.db
        rcases hr : processMutation t m (e.handler p.processedCount m) p.db with ⟨_ | res, db₁⟩
        · rw [hr] at hfollows
          exact h.follows hfollows
        · rw [hr] at hfollows
          exact ih _ (h.follows hfollows)

/-- The handlers leave the mutations of a request in order, each in the state it meets. -/
def Exchange.OrderlyFrom (e : Exchange D) (t : Transactor) : Progress D → List Mutation → Prop
  | _, [] => True
  | _, .crud _ _ :: _ => True
  | p, .custom m :: rest =>
    if m.name = CLEANUP_RESULTS_MUTATION_NAME then
      let db := processCleanupResultsMutation e.parseCleanup t m p.db
      e.OrderlyFrom t { p with processedCount := p.processedCount + 1, db } rest
    else
      Orderly t m (e.handler p.processedCount m) p.db ∧
        match processMutation t m (e.handler p.processedCount m) p.db with
        | (.ok res, db) => e.OrderlyFrom t ⟨p.responses ++ [res], p.processedCount + 1, db⟩ rest
        | (.error _, _) => True

/-- What the results promise: each success and each application error is of a
mutation that has been processed. -/
def Kept (t : Transactor) (responses : List MutationResponse) (db : Database D) : Prop :=
  ∀ r ∈ responses, r.result.processed = true → r.id.id ≤ db.store.lastMutationID (t.client r.id.clientID)

theorem Kept.mono {responses : List MutationResponse} (h : Kept t responses db)
    (hle : ∀ client, db.store.lastMutationID client ≤ db'.store.lastMutationID client) : Kept t responses db' :=
  fun r hr hp => le_trans (h r hr hp) (hle _)

/-- The mutations that are given a result. -/
def resultIDs (mutations : List Mutation) : List MutationID :=
  (mutations.filter fun m => !m.isCleanup).map Mutation.mutationID

/-- How the loop stands: the mutations `done` have been processed, and each has
its result. -/
structure Exchange.Stands (e : Exchange D) (t : Transactor) (p₀ : Progress D) (done : List Mutation) (p : Progress D) :
    Prop where
  ran : e.processMutations t p₀ done = (p, none)
  count : p.processedCount = p₀.processedCount + done.length
  results : p.responses.map MutationResponse.id = p₀.responses.map MutationResponse.id ++ resultIDs done
  kept : Kept t p.responses p.db

theorem processMutations_ends (e : Exchange D) (p₀ : Progress D) (mutations : List Mutation)
    (hkept : Kept t p₀.responses p₀.db) (h : e.OrderlyFrom t p₀ mutations) :
    (∃ p, e.processMutations t p₀ mutations = (p, none) ∧ e.Stands t p₀ mutations p) ∨
    ∃ p error done rest q, e.processMutations t p₀ mutations = (p, some error) ∧ mutations = done ++ rest ∧
      e.Stands t p₀ done q ∧ rest ≠ [] ∧ p.processedCount = q.processedCount ∧ p.responses = q.responses ∧
      Unchanged q.db p.db ∧ ∀ m tail, rest = .custom m :: tail → ¬ Processed t m p.db.store := by
  induction mutations generalizing p₀ with
  | nil =>
    refine .inl ⟨p₀, rfl, rfl, rfl, ?_, hkept⟩
    exact (List.append_nil _).symm
  | cons mutation rest ih =>
    -- Nothing has been processed here when the loop ends at once.
    have hstart : e.Stands t p₀ [] p₀ := ⟨rfl, rfl, (List.append_nil _).symm, hkept⟩
    cases mutation with
    | crud id clientID =>
      refine .inr ⟨p₀, _, [], _, p₀, rfl, rfl, hstart, List.cons_ne_nil _ _, rfl, rfl, .refl _, ?_⟩
      intro m tail heq
      cases heq
    | custom m =>
      -- The mutation has been processed, and the loop goes on with the rest.
      have hgoes : ∀ p₁ : Progress D, (∀ tail, e.processMutations t p₀ (.custom m :: tail) = e.processMutations t p₁ tail) →
          p₁.processedCount = p₀.processedCount + 1 →
          p₁.responses.map MutationResponse.id = p₀.responses.map MutationResponse.id ++ resultIDs [.custom m] →
          Kept t p₁.responses p₁.db → e.OrderlyFrom t p₁ rest →
          (∃ p, e.processMutations t p₀ (.custom m :: rest) = (p, none) ∧ e.Stands t p₀ (.custom m :: rest) p) ∨
          ∃ p error done rest' q, e.processMutations t p₀ (.custom m :: rest) = (p, some error) ∧
            .custom m :: rest = done ++ rest' ∧ e.Stands t p₀ done q ∧ rest' ≠ [] ∧
            p.processedCount = q.processedCount ∧ p.responses = q.responses ∧ Unchanged q.db p.db ∧
            ∀ m tail, rest' = .custom m :: tail → ¬ Processed t m p.db.store := by
        intro p₁ hran hcount hresults hkept₁ horder
        have hstands : ∀ done p, e.Stands t p₁ done p → e.Stands t p₀ (.custom m :: done) p := by
          intro done p hs
          refine ⟨(hran done).trans hs.ran, ?_, ?_, hs.kept⟩
          · rw [hs.count, hcount, List.length_cons]
            omega
          · rw [hs.results, hresults, List.append_assoc]
            refine congrArg _ ?_
            unfold resultIDs
            rw [← List.map_append, ← List.filter_append]
            rfl
        rcases ih p₁ hkept₁ horder with ⟨p, hp, hs⟩ | ⟨p, error, done, rest', q, hp, hsplit, hs, hrest⟩
        · exact .inl ⟨p, (hran rest).trans hp, hstands rest p hs⟩
        · refine .inr ⟨p, error, .custom m :: done, rest', q, (hran rest).trans hp, ?_, hstands done q hs, hrest⟩
          rw [hsplit, List.cons_append]
      unfold Exchange.OrderlyFrom at h
      by_cases hname : m.name = CLEANUP_RESULTS_MUTATION_NAME
      · rw [if_pos hname] at h
        have hclean := processCleanup_cases e.parseCleanup t m p₀.db
        refine hgoes ⟨p₀.responses, p₀.processedCount + 1, processCleanupResultsMutation e.parseCleanup t m p₀.db⟩
          (fun tail => ?_) rfl ?_ (hkept.mono fun client => (hclean.lastMutationID client).ge) h
        · rw [Exchange.processMutations, if_pos hname]
        · have hnone : resultIDs [.custom m] = [] := by simp [resultIDs, Mutation.isCleanup, hname]
          rw [hnone, List.append_nil]
      · rw [if_neg hname] at h
        obtain ⟨horderly, h⟩ := h
        have hfollows := processMutation_follows t m (e.handler p₀.processedCount m) p₀.db
        obtain ⟨hok, herror⟩ := processMutation_truthful horderly
        rcases hr : processMutation t m (e.handler p₀.processedCount m) p₀.db with ⟨error | res, db₁⟩
        · obtain ⟨hnot, hun⟩ := herror error (by rw [hr])
          rw [hr] at hnot hun
          refine .inr ⟨{ p₀ with db := db₁ }, error, [], _, p₀, ?_, rfl, hstart, List.cons_ne_nil _ _, rfl, rfl, hun, ?_⟩
          · rw [Exchange.processMutations, if_neg hname, hr]
          · intro m' tail heq
            obtain ⟨rfl⟩ := Mutation.custom.inj (List.cons.inj heq).1
            exact hnot
        · obtain ⟨hid, hprocessed⟩ := hok res (by rw [hr])
          rw [hr] at h hprocessed hfollows
          refine hgoes ⟨p₀.responses ++ [res], p₀.processedCount + 1, db₁⟩ (fun tail => ?_) rfl ?_ ?_ h
          · rw [Exchange.processMutations, if_neg hname, hr]
          · have hone : resultIDs [.custom m] = [m.mutationID] := by
              simp [resultIDs, Mutation.isCleanup, hname, Mutation.mutationID]
            rw [hone, List.map_append, List.map_singleton, hid]
          · intro r hmem hp
            rcases List.mem_append.mp hmem with hmem | hmem
            · exact hkept.mono hfollows.lastMutationID_le r hmem hp
            · obtain rfl := List.mem_singleton.mp hmem
              rw [hid]
              exact hprocessed hp

/-! ## A request -/

def Database.new (start : Store D) : Database D := { store := start, faults := [], log := [] }

def step (db : Database D) (e : Exchange D) : Database D := (handleMutateRequest e db).2

/-- Where the loop of a request starts. -/
def Exchange.start (e : Exchange D) (db : Database D) : Progress D :=
  { responses := [], processedCount := 0, db := { db with faults := e.faults } }

def Exchange.transactor (body : PushBody) (params : Params) : Transactor := ⟨params.schema, body.clientGroupID⟩

/-- The handlers leave the mutations in order, in a request that gets to the loop. -/
def Exchange.Orderly (e : Exchange D) (db : Database D) : Prop :=
  ∀ body params, e.body = .ok body → e.params = .ok params → body.pushVersion = 1 →
    e.OrderlyFrom (transactor body params) (e.start db) body.mutations

/-- What the answer to a request has to say: a result for each mutation, which
keeps its promise, or the mutations without one. Those before them have been
processed and nothing has been done for these; the loop has not ended at one that
had been processed. -/
structure Exchange.Truthful (e : Exchange D) (db : Database D) : Prop where
  results : ∀ responses userID body params, (handleMutateRequest e db).1 = .mutateResponse responses userID →
    e.body = .ok body → e.params = .ok params →
    responses.map MutationResponse.id = resultIDs body.mutations ∧ Kept (transactor body params) responses (step db e)
  failed : ∀ reason message mutationIDs details body,
    (handleMutateRequest e db).1 = .pushFailed reason message mutationIDs details → e.body = .ok body →
    ∃ t done rest q, body.mutations = done ++ rest ∧ mutationIDs = rest.map Mutation.mutationID ∧
      e.Stands t (e.start db) done q ∧ Unchanged q.db (step db e) ∧
      (reason ≠ .parse → reason ≠ .unsupportedPushVersion →
        rest ≠ [] ∧ ∀ m tail, rest = .custom m :: tail → ¬ Processed t m (step db e).store) ∧
      ∀ params, e.params = .ok params → t = transactor body params
  unparsed : ∀ error reason message mutationIDs details,
    (handleMutateRequest e db).1 = .pushFailed reason message mutationIDs details → e.body = .error error →
    mutationIDs = [] ∧ Unchanged db (step db e)

theorem handleMutateRequest_exactlyOnce {start : Store D} (e : Exchange D) (h : ExactlyOnce start db) :
    ExactlyOnce start (step db e) := by
  have hfaults : ExactlyOnce start { db with faults := e.faults } := h.unchanged ⟨rfl, rfl⟩
  unfold step handleMutateRequest
  dsimp only
  cases e.body with
  | error error => exact hfaults
  | ok body =>
    cases e.params with
    | error error => exact hfaults
    | ok params =>
      dsimp only
      split
      · exact hfaults
      · have hloop := processMutations_exactlyOnce e (t := Exchange.transactor body params) (e.start db)
          body.mutations hfaults
        unfold Exchange.transactor Exchange.start at hloop
        rcases hr : e.processMutations ⟨params.schema, body.clientGroupID⟩ ⟨[], 0, { db with faults := e.faults }⟩
          body.mutations with ⟨p, _ | error⟩
        · rw [hr] at hloop
          exact hloop
        · rw [hr] at hloop
          exact hloop

theorem refused {e : Exchange D} {body : PushBody} (t : Transactor)
    (ht : ∀ params, e.params = .ok params → t = Exchange.transactor body params)
    (hstep : step db e = { db with faults := e.faults }) {reason : ErrorReason}
    (hreason : reason = .parse ∨ reason = .unsupportedPushVersion) :
    ∃ t done rest q, body.mutations = done ++ rest ∧ body.mutationIDs = rest.map Mutation.mutationID ∧
      e.Stands t (e.start db) done q ∧ Unchanged q.db (step db e) ∧
      (reason ≠ .parse → reason ≠ .unsupportedPushVersion →
        rest ≠ [] ∧ ∀ m tail, rest = .custom m :: tail → ¬ Processed t m (step db e).store) ∧
      ∀ params, e.params = .ok params → t = Exchange.transactor body params := by
  refine ⟨t, [], body.mutations, e.start db, rfl, rfl, ⟨rfl, rfl, rfl, ?_⟩, ?_, fun h₁ h₂ => ?_, ht⟩
  · exact fun r hr => absurd hr List.not_mem_nil
  · rw [hstep]
    exact .refl _
  · exact absurd hreason (not_or_intro h₁ h₂)

theorem handleMutateRequest_truthful {e : Exchange D} (h : e.Orderly db) : e.Truthful db := by
  cases hbody : e.body with
  | error error =>
    have heq : handleMutateRequest e db = (parseFailed "push body" [] error, { db with faults := e.faults }) := by
      unfold handleMutateRequest
      simp only [hbody]
    refine ⟨fun _ _ body _ _ hb _ => ?_, fun _ _ _ _ body _ hb => ?_, fun _ _ _ ids _ hr _ => ?_⟩
    · rw [hbody] at hb
      cases hb
    · rw [hbody] at hb
      cases hb
    · rw [heq] at hr
      unfold step
      rw [heq]
      injection hr with _ _ hids _
      exact ⟨hids.symm, rfl, rfl⟩
  | ok body =>
    have hparsed : ∀ error, e.body ≠ .error error := by
      intro error hb
      rw [hbody] at hb
      cases hb
    cases hparams : e.params with
    | error error =>
      have heq : handleMutateRequest e db =
          (parseFailed "push query parameters" body.mutationIDs error, { db with faults := e.faults }) := by
        unfold handleMutateRequest
        simp only [hbody, hparams]
      refine ⟨fun _ _ _ _ hr _ _ => ?_, fun _ _ _ _ body' hr hb => ?_, fun _ _ _ _ _ _ hb => absurd hb (hparsed _)⟩
      · rw [heq] at hr
        cases hr
      · obtain rfl : body = body' := Except.ok.inj (hbody.symm.trans hb)
        rw [heq] at hr
        injection hr with hreason _ hids _
        rw [← hids]
        refine refused ⟨"", body.clientGroupID⟩ (fun params hp => ?_) (congrArg Prod.snd heq) (.inl hreason.symm)
        rw [hparams] at hp
        cases hp
    | ok params =>
      have ht : ∀ params', e.params = .ok params' → Exchange.transactor body params = Exchange.transactor body params' := by
        intro params' hp
        rw [Except.ok.inj (hparams.symm.trans hp)]
      by_cases hversion : body.pushVersion ≠ 1
      · have heq : handleMutateRequest e db =
            (.pushFailed .unsupportedPushVersion s!"Unsupported push version: {body.pushVersion}" body.mutationIDs none,
              { db with faults := e.faults }) := by
          unfold handleMutateRequest
          simp only [hbody, hparams, if_pos hversion]
        refine ⟨fun _ _ _ _ hr _ _ => ?_, fun _ _ _ _ body' hr hb => ?_, fun _ _ _ _ _ _ hb => absurd hb (hparsed _)⟩
        · rw [heq] at hr
          cases hr
        · obtain rfl : body = body' := Except.ok.inj (hbody.symm.trans hb)
          rw [heq] at hr
          injection hr with hreason _ hids _
          rw [← hids]
          exact refused _ ht (congrArg Prod.snd heq) (.inr hreason.symm)
      · have hends := processMutations_ends e (e.start db) body.mutations
          (fun r hr => absurd hr List.not_mem_nil) (h body params hbody hparams (not_not.mp hversion))
        rcases hends with ⟨p, hp, hs⟩ | ⟨p, error, done, rest, q, hp, hsplit, hs, hne, hcount, -, hun, hnot⟩
        · have heq : handleMutateRequest e db = (.mutateResponse p.responses e.userID, p.db) := by
            unfold Exchange.transactor Exchange.start at hp
            unfold handleMutateRequest
            simp only [hbody, hparams, if_neg hversion, hp]
          refine ⟨fun responses _ body' params' hr hb hp' => ?_, fun _ _ _ _ _ hr _ => ?_,
            fun _ _ _ _ _ _ hb => absurd hb (hparsed _)⟩
          · obtain rfl : body = body' := Except.ok.inj (hbody.symm.trans hb)
            obtain rfl : params = params' := Except.ok.inj (hparams.symm.trans hp')
            unfold step
            rw [heq] at hr ⊢
            injection hr with hresponses _
            rw [← hresponses]
            exact ⟨hs.results, hs.kept⟩
          · rw [heq] at hr
            cases hr
        · have heq : handleMutateRequest e db =
              (.pushFailed error.reason error.getErrorMessage (body.mutationIDs.drop p.processedCount)
                (error.getErrorDetails.filter JSONValue.truthy), p.db) := by
            unfold Exchange.transactor Exchange.start at hp
            unfold handleMutateRequest
            simp only [hbody, hparams, if_neg hversion, hp]
          refine ⟨fun _ _ _ _ hr _ _ => ?_, fun _ _ _ _ body' hr hb => ?_, fun _ _ _ _ _ _ hb => absurd hb (hparsed _)⟩
          · rw [heq] at hr
            cases hr
          · obtain rfl : body = body' := Except.ok.inj (hbody.symm.trans hb)
            unfold step
            rw [heq] at hr ⊢
            injection hr with _ _ hids _
            refine ⟨Exchange.transactor body params, done, rest, q, hsplit, ?_, hs, hun, fun _ _ => ⟨hne, hnot⟩, ht⟩
            rw [← hids, hcount, hs.count]
            unfold PushBody.mutationIDs
            rw [hsplit, List.map_append]
            exact (congrArg (List.drop · _) rfl).trans (List.drop_left' (by simp [Exchange.start]))

/-! ## A run -/

theorem exactlyOnce_new (start : Store D) : ExactlyOnce start (Database.new start) :=
  ⟨rfl, fun _ hc => absurd hc List.not_mem_nil, List.nodup_nil, fun _ hc => absurd hc List.not_mem_nil⟩

theorem run_exactlyOnce {start : Store D} (exchanges : List (Exchange D)) (h : ExactlyOnce start db) :
    ExactlyOnce start (exchanges.foldl step db) := by
  induction exchanges generalizing db with
  | nil => exact h
  | cons e exchanges ih => exact ih (handleMutateRequest_exactlyOnce e h)

/-- **However its handlers behave and its database fails, a run of requests
commits each mutation once at most, by the transaction that moves its client to
it; and while the handlers leave the mutations in order each answer is truthful.** -/
theorem requests_truthful (start : Store D) (exchanges : List (Exchange D)) :
    ExactlyOnce start (exchanges.foldl step (Database.new start)) ∧
      (Runs.Always step (fun db e => e.Orderly db) (Database.new start) exchanges →
        Runs.Always step (fun db e => e.Truthful db) (Database.new start) exchanges) := by
  refine ⟨run_exactlyOnce exchanges (exactlyOnce_new start), ?_⟩
  generalize Database.new start = db
  intro h
  induction exchanges generalizing db with
  | nil => trivial
  | cons e exchanges ih => exact ⟨handleMutateRequest_truthful h.1, ih _ h.2⟩

/-- A request of the client `c` for the data of a counter. -/
def counting (ids : List ℤ) (handler : Handler ℕ) : Exchange ℕ where
  body := .ok { clientGroupID := "g", mutations := ids.map fun id => .custom ⟨id, "c", "add", []⟩, pushVersion := 1 }
  params := .ok { schema := "zero_0" }
  userID := none
  handler := fun _ _ => handler
  faults := []
  parseCleanup := fun _ => none

/-- A handler that adds one, and answers or throws what `transact` does. -/
def adds : Handler ℕ := .transact (fun _ _ n => .ok (n + 1)) fun
  | .ok response => .answer response
  | .error error => .fail error

/-- Two mutations, the second of which is sent again with a third. -/
theorem requests_truthful_counting :
    Runs.Always step (fun db e => e.Truthful db) (Database.new ⟨fun _ => none, [], 0⟩)
      [counting [1, 2] adds, counting [2, 3] adds] := by
  refine (requests_truthful _ _).2 ⟨?_, ?_, trivial⟩
  · intro body params hbody hparams _
    cases hbody
    cases hparams
    exact ⟨⟨rfl, fun _ => .inl (List.cons_ne_nil _ _)⟩, ⟨rfl, fun _ => .inl (List.cons_ne_nil _ _)⟩, trivial⟩
  · intro body params hbody hparams _
    cases hbody
    cases hparams
    exact ⟨⟨rfl, fun _ => .inl (List.cons_ne_nil _ _)⟩, ⟨rfl, fun _ => .inl (List.cons_ne_nil _ _)⟩, trivial⟩

/-- A handler that throws before it calls `transact`, as for a mutator that does
not exist, and whose request is sent twice. The first answer has the error, which
is written down; the second is `PushFailed`, for a mutation that has been
processed. -/
theorem requests_pushFailed :
    let missing := counting [1] (.fail (.other "could not find mutator add" none))
    let db := Database.new ⟨fun _ => none, [], 0⟩
    (handleMutateRequest missing db).1 =
        .mutateResponse [⟨⟨1, "c"⟩, .app (some "could not find mutator add") none⟩] none ∧
      (step db missing).store.lastMutationID ⟨"zero_0", "g", "c"⟩ = 1 ∧
      (handleMutateRequest missing (step db missing)).1 =
        .pushFailed .internal "Ignoring mutation from c with ID 1 as it was already processed. Expected: 2"
          [⟨1, "c"⟩] none ∧
      ¬ Runs.Always step (fun db e => e.Truthful db) db [missing, missing] := by
  refine ⟨rfl, rfl, rfl, fun h => ?_⟩
  obtain ⟨t, done, rest, q, hsplit, hids, -, -, hnot, ht⟩ := h.2.1.failed _ _ _ _ _ rfl rfl
  obtain rfl := ht _ rfl
  obtain ⟨hne, hnot⟩ := hnot ErrorReason.noConfusion ErrorReason.noConfusion
  cases done with
  | nil =>
    obtain rfl : _ = rest := hsplit
    exact hnot _ _ rfl (le_refl (1 : ℤ))
  | cons m done =>
    have hlength := congrArg List.length hids
    have hlength' := congrArg List.length hsplit
    have hpos := List.length_pos_of_ne_nil hne
    simp only [List.length_map, List.length_append, List.length_cons, List.length_nil] at hlength hlength'
    omega

end ZeroSync.ProcessMutations
