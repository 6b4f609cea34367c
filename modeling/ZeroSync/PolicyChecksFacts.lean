/-
What an allowed mutation has passed, in every order in which its two checks are
resumed.

The checks of `canPostMutation` read the rows after the ops, and its transaction
is rolled back when it settles. The first check of `canPreMutation` reads the
rows before the ops; each later one reads those after them while the
transaction is open (`insideTransaction`), so that a rule can hold of a row
only because the batch wrote it.
-/
import ZeroSync.PolicyChecks
import ZeroSync.WriteAuthorizerFacts

namespace ZeroSync

/-- Whether the checks that `canPreMutation` makes when it is resumed are made
inside the transaction, which takes that many resumptions of `canPostMutation`
to end. -/
def insideTransaction : ℕ → List Resumed → List Bool
  | _, [] => []
  | n, .canPre :: order => decide (n ≠ 0) :: insideTransaction n order
  | n, .canPost :: order => insideTransaction (n - 1) order

namespace Authorization

variable {env : Authorization} {replica db : Database} {ops : List NormalizedOp} {order : List Resumed}
  {check : PolicyCheck} {checks : List PolicyCheck} {s : AuthorizeRun}

/-- The check passes. -/
def holds (env : Authorization) (db : Database) (check : PolicyCheck) : Bool :=
  match env.passesPolicy db check with
  | .ok passes => passes
  | .error _ => false

/-! ## A call -/

/-- A call that no check has denied: those it is still to make, if it has not returned. -/
def callOf : Option (List PolicyCheck) → AuthorizeCall
  | some checks => .awaiting checks
  | none => .returned true

theorem proceed_nil : env.proceed db (callOf (some [])) = callOf none := rfl

theorem proceed_none : env.proceed db (callOf none) = callOf none := rfl

theorem proceed_cons (h : env.holds db check = true) :
    env.proceed db (callOf (some (check :: checks))) = callOf (some checks) := by
  rw [holds] at h
  rw [callOf, proceed]
  cases hp : env.passesPolicy db check with
  | error e =>
    rw [hp] at h
    cases h
  | ok passes =>
    rw [hp] at h
    obtain rfl : passes = true := h
    rfl

/-- The call has settled, and not with `true`. -/
def Denied (call : AuthorizeCall) : Prop := call.settled = true ∧ call ≠ .returned true

theorem proceed_denied (h : env.holds db check = false) : Denied (env.proceed db (callOf (some (check :: checks)))) := by
  rw [holds] at h
  rw [callOf, proceed]
  cases hp : env.passesPolicy db check with
  | error e => exact ⟨rfl, AuthorizeCall.noConfusion⟩
  | ok passes =>
    rw [hp] at h
    obtain rfl : passes = false := h
    exact ⟨rfl, fun h => by cases h⟩

theorem proceed_settled {call : AuthorizeCall} (h : call.settled = true) : env.proceed db call = call := by
  cases call with
  | awaiting checks => cases h
  | returned allowed => rfl
  | threw e => rfl

/-! ## Both calls -/

theorem rollback_canPre : (rollback replica s).canPre = s.canPre := by
  rw [rollback]
  split <;> rfl

theorem rollback_canPost : (rollback replica s).canPost = s.canPost := by
  rw [rollback]
  split <;> rfl

theorem rollback_db (h : s.canPost.settled = true) : (rollback replica s).db = replica := by
  rw [rollback, if_pos h]

theorem resume_denied (e : Resumed) (h : Denied s.canPre ∨ Denied s.canPost) :
    Denied (env.resume replica s e).canPre ∨ Denied (env.resume replica s e).canPost := by
  cases e with
  | canPre =>
    rcases h with h | h
    · left
      change Denied (env.proceed s.db s.canPre)
      rwa [proceed_settled h.1]
    · exact .inr h
  | canPost =>
    rw [resume, rollback_canPre, rollback_canPost]
    rcases h with h | h
    · exact .inl h
    · right
      change Denied (env.proceed s.db s.canPost)
      rwa [proceed_settled h.1]

theorem not_allowed_of_denied (h : Denied s.canPre ∨ Denied s.canPost) : s.allowed ≠ true := by
  intro hallowed
  obtain ⟨db, canPre, canPost⟩ := s
  rw [AuthorizeRun.allowed] at hallowed
  cases canPre <;> cases canPost <;> simp [Denied] at h hallowed
  rcases h with h | h
  · rw [h.2] at hallowed
    exact absurd hallowed.1 (by decide)
  · rw [h.2] at hallowed
    exact absurd hallowed.2 (by decide)

theorem foldl_not_allowed (h : Denied s.canPre ∨ Denied s.canPost) :
    (order.foldl (env.resume replica) s).allowed ≠ true := by
  induction order generalizing s with
  | nil => exact not_allowed_of_denied h
  | cons e order ih => exact ih (resume_denied e h)

/-- **The replica is as before** once `canPostMutation` has settled. -/
theorem run_db (h : (env.run replica ops order).canPost.settled = true) : (env.run replica ops order).db = replica := by
  have hstart : (env.start replica ops).canPost.settled = true → (env.start replica ops).db = replica := by
    rw [start]
    cases env.authorizer.pushOps replica ops with
    | error e => exact fun _ => rfl
    | ok db =>
      intro h
      rw [rollback_canPost] at h
      exact rollback_db h
  revert h
  rw [run]
  generalize env.start replica ops = s at hstart
  induction order generalizing s with
  | nil => exact hstart
  | cons e order ih =>
    refine ih _ ?_
    cases e with
    | canPre => exact hstart
    | canPost =>
      intro h
      rw [resume, rollback_canPost] at h
      exact rollback_db h

/-- Calls that no check has denied, with the database that they read. -/
def stateOf (replica db : Database) (pre : Option (List PolicyCheck)) : Option (List PolicyCheck) → AuthorizeRun
  | some checks => { db, canPre := callOf pre, canPost := .awaiting checks }
  | none => { db := replica, canPre := callOf pre, canPost := .returned true }

/-- The resumptions until a call has returned. -/
def resumptions : Option (List PolicyCheck) → ℕ
  | some checks => checks.length + 1
  | none => 0

/-- The checks of `canPreMutation` pass where they are made. -/
def PassWhereMade (env : Authorization) (replica db : Database) (made : List (PolicyCheck × Bool)) : Prop :=
  ∀ p ∈ made, env.holds (if p.2 then db else replica) p.1 = true

theorem allowed_stateOf {pre post : Option (List PolicyCheck)}
    (hsettled : (stateOf replica db pre post).settled = true) : pre = none ∧ post = none := by
  cases pre <;> cases post <;> first | exact ⟨rfl, rfl⟩ | cases hsettled

theorem resume_canPre {pre pre' post : Option (List PolicyCheck)}
    (h : env.proceed (stateOf replica db pre post).db (callOf pre) = callOf pre') :
    env.resume replica (stateOf replica db pre post) .canPre = stateOf replica db pre' post := by
  rw [resume]
  cases post <;> exact congrArg (fun call => AuthorizeRun.mk _ call _) h

theorem resume_canPost_none {pre : Option (List PolicyCheck)} :
    env.resume replica (stateOf replica db pre none) .canPost = stateOf replica db pre none := rfl

theorem resume_canPost_nil {pre : Option (List PolicyCheck)} :
    env.resume replica (stateOf replica db pre (some [])) .canPost = stateOf replica db pre none := rfl

theorem resume_canPost_cons {pre : Option (List PolicyCheck)} (h : env.holds db check = true) :
    env.resume replica (stateOf replica db pre (some (check :: checks))) .canPost = stateOf replica db pre (some checks) := by
  have hproceed : env.proceed db (.awaiting (check :: checks)) = callOf (some checks) := proceed_cons h
  simp only [resume, stateOf, hproceed]
  rfl

/-- **A run is allowed** when no check denies it where it is made; then all were made. -/
theorem foldl_allowed_iff {pre post : Option (List PolicyCheck)}
    (hsettled : (order.foldl (env.resume replica) (stateOf replica db pre post)).settled = true) :
    ((order.foldl (env.resume replica) (stateOf replica db pre post)).allowed = true ↔
      (∀ check ∈ post.getD [], env.holds db check = true) ∧
        PassWhereMade env replica db ((pre.getD []).zip (insideTransaction (resumptions post) order))) ∧
      ((order.foldl (env.resume replica) (stateOf replica db pre post)).allowed = true →
        resumptions pre ≤ (insideTransaction (resumptions post) order).length) := by
  have hnone (made : List Bool) : PassWhereMade env replica db (([] : List PolicyCheck).zip made) := fun _ h => by cases h
  induction order generalizing pre post with
  | nil =>
    obtain ⟨rfl, rfl⟩ := allowed_stateOf hsettled
    exact ⟨⟨fun _ => ⟨(fun _ h => by cases h), hnone _⟩, fun _ => rfl⟩, fun _ => Nat.le_refl _⟩
  | cons e order ih =>
    cases e with
    | canPre =>
      have hdb : (stateOf replica db pre post).db = if decide (resumptions post ≠ 0) then db else replica := by
        cases post <;> rfl
      rw [insideTransaction]
      cases pre with
      | none =>
        rw [List.foldl_cons, resume_canPre proceed_none] at hsettled ⊢
        exact ⟨(ih hsettled).1, fun _ => Nat.zero_le _⟩
      | some checks =>
        cases checks with
        | nil =>
          rw [List.foldl_cons, resume_canPre proceed_nil] at hsettled ⊢
          exact ⟨(ih hsettled).1, fun _ => Nat.succ_le_succ (Nat.zero_le _)⟩
        | cons check checks =>
          cases hholds : env.holds (stateOf replica db (some (check :: checks)) post).db check with
          | true =>
            rw [List.foldl_cons, resume_canPre (proceed_cons hholds)] at hsettled ⊢
            obtain ⟨hiff, hlength⟩ := ih hsettled
            refine ⟨?_, fun h => Nat.succ_le_succ (hlength h)⟩
            rw [hiff]
            refine and_congr_right fun _ => ?_
            rw [hdb] at hholds
            exact ⟨fun h => List.forall_mem_cons.mpr ⟨hholds, h⟩, fun h => (List.forall_mem_cons.mp h).2⟩
          | false =>
            have hdenied : Denied (env.resume replica (stateOf replica db (some (check :: checks)) post) .canPre).canPre := by
              cases post <;> exact proceed_denied hholds
            have hnot : (order.foldl (env.resume replica) _).allowed ≠ true := foldl_not_allowed (.inl hdenied)
            rw [List.foldl_cons]
            refine ⟨⟨fun h => absurd h hnot, fun h => ?_⟩, fun h => absurd h hnot⟩
            have hfirst := h.2 (check, decide (resumptions post ≠ 0)) (List.mem_cons_self ..)
            rw [← hdb, hholds] at hfirst
            cases hfirst
    | canPost =>
      rw [insideTransaction]
      cases post with
      | none =>
        rw [List.foldl_cons, resume_canPost_none] at hsettled ⊢
        exact ih hsettled
      | some checks =>
        cases checks with
        | nil =>
          rw [List.foldl_cons, resume_canPost_nil] at hsettled ⊢
          exact ih hsettled
        | cons check checks =>
          cases hholds : env.holds db check with
          | true =>
            rw [List.foldl_cons, resume_canPost_cons hholds] at hsettled ⊢
            obtain ⟨hiff, hlength⟩ := ih hsettled
            refine ⟨?_, hlength⟩
            rw [hiff]
            refine and_congr_left fun _ => ?_
            exact ⟨fun h => List.forall_mem_cons.mpr ⟨hholds, h⟩, fun h => (List.forall_mem_cons.mp h).2⟩
          | false =>
            have hdenied : Denied (env.resume replica (stateOf replica db pre (some (check :: checks))) .canPost).canPost := by
              rw [resume, rollback_canPost]
              exact proceed_denied hholds
            have hnot : (order.foldl (env.resume replica) _).allowed ≠ true := foldl_not_allowed (.inr hdenied)
            rw [List.foldl_cons]
            refine ⟨⟨fun h => absurd h hnot, fun h => ?_⟩, fun h => absurd h hnot⟩
            have hfirst := h.1 check (List.mem_cons_self ..)
            rw [hholds] at hfirst
            cases hfirst

theorem proceed_start (h : ∀ check ∈ checks.head?, env.holds db check = true) :
    env.proceed db (.awaiting checks) = callOf checks.tail? := by
  cases checks with
  | nil => rfl
  | cons check checks => exact proceed_cons (h check rfl)

theorem proceed_start_denied (h : ¬∀ check ∈ checks.head?, env.holds db check = true) :
    Denied (env.proceed db (.awaiting checks)) ∧ ∃ check rest, checks = check :: rest ∧ env.holds db check = false := by
  cases checks with
  | nil => exact absurd (fun _ hc => by cases hc) h
  | cons check checks =>
    have hfalse : env.holds db check = false := by
      rw [← Bool.not_eq_true]
      exact fun htrue => h fun c hc => by rwa [← Option.some.inj hc]
    exact ⟨proceed_denied hfalse, check, checks, rfl, hfalse⟩

theorem rollback_start {pre post : List PolicyCheck} (hpre : ∀ check ∈ pre.head?, env.holds replica check = true)
    (hpost : ∀ check ∈ post.head?, env.holds db check = true) :
    rollback replica ⟨db, env.proceed replica (.awaiting pre), env.proceed db (.awaiting post)⟩ =
      stateOf replica db pre.tail? post.tail? := by
  rw [proceed_start hpre, proceed_start hpost]
  cases post <;> rfl

theorem resumptions_tail? (checks : List PolicyCheck) : resumptions checks.tail? = checks.length := by
  cases checks <;> rfl

/-- The checks of `canPreMutation`, and whether each is made inside the transaction. -/
def preMutationChecksMade (permissions : PermissionsConfig) (ops : List NormalizedOp) (order : List Resumed) :
    List (PolicyCheck × Bool) :=
  (preMutationChecks permissions ops).zip
    (false :: insideTransaction (postMutationChecks permissions ops).length order)

/-- **A batch is allowed** when its ops are pushed, the checks after it hold of
the rows after the ops, and those before it of the rows that they read. -/
theorem run_allowed_iff (hsettled : (env.run replica ops order).settled = true) :
    ((env.run replica ops order).allowed = true ↔ ∃ db, env.authorizer.pushOps replica ops = .ok db ∧
      (∀ check ∈ postMutationChecks env.permissions ops, env.holds db check = true) ∧
      PassWhereMade env replica db (preMutationChecksMade env.permissions ops order)) ∧
    ((env.run replica ops order).allowed = true → (preMutationChecks env.permissions ops).length ≤
      (insideTransaction (postMutationChecks env.permissions ops).length order).length) := by
  rw [run] at hsettled ⊢
  rw [preMutationChecksMade]
  generalize hpre : preMutationChecks env.permissions ops = pre
  generalize hpost : postMutationChecks env.permissions ops = post
  rw [start, hpre, hpost] at hsettled ⊢
  cases hpush : env.authorizer.pushOps replica ops with
  | error e =>
    rw [hpush] at hsettled
    have hnot : (order.foldl (env.resume replica)
        ⟨replica, env.proceed replica (.awaiting pre), .threw (.authorizer e)⟩).allowed ≠ true :=
      foldl_not_allowed (.inr ⟨rfl, AuthorizeCall.noConfusion⟩)
    refine ⟨⟨fun h => absurd h hnot, ?_⟩, fun h => absurd h hnot⟩
    rintro ⟨db, h, -⟩
    cases h
  | ok db =>
    rw [hpush] at hsettled
    dsimp only at hsettled ⊢
    simp only [Except.ok.injEq, exists_eq_left']
    by_cases hfirstPost : ∀ check ∈ post.head?, env.holds db check = true
    swap
    · obtain ⟨hdenied, check, rest, rfl, hfalse⟩ := proceed_start_denied hfirstPost
      have hnot : (order.foldl (env.resume replica) (rollback replica
          ⟨db, env.proceed replica (.awaiting pre), env.proceed db (.awaiting (check :: rest))⟩)).allowed ≠ true :=
        foldl_not_allowed (.inr (by rw [rollback_canPost]; exact hdenied))
      refine ⟨⟨fun h => absurd h hnot, fun h => ?_⟩, fun h => absurd h hnot⟩
      rw [h.1 check (List.mem_cons_self ..)] at hfalse
      cases hfalse
    by_cases hfirstPre : ∀ check ∈ pre.head?, env.holds replica check = true
    swap
    · obtain ⟨hdenied, check, rest, rfl, hfalse⟩ := proceed_start_denied hfirstPre
      have hnot : (order.foldl (env.resume replica) (rollback replica
          ⟨db, env.proceed replica (.awaiting (check :: rest)), env.proceed db (.awaiting post)⟩)).allowed ≠ true :=
        foldl_not_allowed (.inl (by rw [rollback_canPre]; exact hdenied))
      refine ⟨⟨fun h => absurd h hnot, fun h => ?_⟩, fun h => absurd h hnot⟩
      have hfirst : env.holds replica check = true := h.2 (check, false) (List.mem_cons_self ..)
      rw [hfirst] at hfalse
      cases hfalse
    rw [rollback_start hfirstPre hfirstPost] at hsettled ⊢
    obtain ⟨hiff, hlength⟩ := foldl_allowed_iff hsettled
    rw [resumptions_tail?] at hiff hlength
    rw [resumptions_tail?] at hlength
    refine ⟨?_, hlength⟩
    rw [hiff]
    refine and_congr ?_ ?_
    · cases post with
      | nil => exact Iff.rfl
      | cons check post =>
        exact ⟨fun h => List.forall_mem_cons.mpr ⟨hfirstPost check rfl, h⟩, fun h => (List.forall_mem_cons.mp h).2⟩
    · cases pre with
      | nil => exact Iff.rfl
      | cons check pre =>
        exact ⟨fun h => List.forall_mem_cons.mpr ⟨hfirstPre check rfl, h⟩, fun h => (List.forall_mem_cons.mp h).2⟩

/-- What two settled calls are to ensure: an allowed batch has passed its
policies before it in the replica and those after it in the rows after the ops,
and the replica is as before. -/
def Right (env : Authorization) (replica : Database) (ops : List NormalizedOp) (s : AuthorizeRun) : Prop :=
  (s.allowed = true → (∀ check ∈ preMutationChecks env.permissions ops, env.holds replica check = true) ∧
    ∃ db, env.authorizer.pushOps replica ops = .ok db ∧
      ∀ check ∈ postMutationChecks env.permissions ops, env.holds db check = true) ∧
    s.db = replica

theorem isEmpty_cut (rows : List Row) : (cut none none none rows).isEmpty = rows.isEmpty := by
  rw [cut, Bool.eq_iff_iff, List.isEmpty_iff_length_eq_zero, List.isEmpty_iff_length_eq_zero]
  simp [sortRows]

theorem not_isEmpty_filter (p : Row → Bool) (rows : List Row) : (!(rows.filter p).isEmpty) = rows.any p := by
  induction rows with
  | nil => rfl
  | cons row rows ih => cases h : p row <;> simp_all

/-- **A policy passes** when the op's row is there and some rule holds of it. -/
theorem holds_policy {spec : TableSpec} {op : NormalizedOp} {policy : Policy} {key : Row}
    (hspec : env.authorizer.tableSpecs op.tableName = some spec)
    (hkey : WriteAuthorizer.getPrimaryKey spec op.value = .ok key)
    (hbuild : env.buildable (env.policyQuery spec op policy) = true) :
    env.holds db ⟨op, some policy⟩ = (db op.tableName).any fun row =>
      (rowQueryWhere spec op.value).holds env.getLikePredicate db env.parameters row &&
        policy.any fun rule => rule.holds env.getLikePredicate db env.parameters row := by
  have hwhere (row : Row) : (updateWhere (rowQueryWhere spec op.value) policy).holds env.getLikePredicate db env.parameters row =
      ((rowQueryWhere spec op.value).holds env.getLikePredicate db env.parameters row &&
        policy.any fun rule => rule.holds env.getLikePredicate db env.parameters row) := by
    rw [updateWhere, simplifyCondition_holds]
    simp [Unbound.holds_group]
  rw [holds, passesPolicy]
  dsimp only
  rw [hspec]
  dsimp only
  rw [hkey]
  cases policy with
  | nil => simp
  | cons rule rules =>
    simp only [hbuild, if_true]
    rw [AST.rows_eq]
    change (!(cut none none none (List.filter _ (db op.tableName))).isEmpty) = _
    rw [isEmpty_cut, not_isEmpty_filter]
    simp only [← hwhere]
    rfl

/-! ## Issues that are closed -/

/-- Only open issues may be updated. -/
def openIssues : Authorization where
  authorizer := issueAuthorizer
  permissions table := if table = "issue" then
    some { row := some { select := none, insert := none, delete := none
                         update := some { preMutation := some [.simple ⟨.eq, .column "open", .literal (.value (.bool true))⟩]
                                          postMutation := some [.group .and []] } }
           cell := [] } else none
  authData := none
  getLikePredicate _ _ _ := false
  buildable _ := true

/-- An issue of the replica. -/
def replicaIssue (id : String) (isOpen : Bool) : Row := fun c =>
  if c = "id" then .str id else if c = "open" then .bool isOpen else if c = "_0_version" then .str "1" else .undefined

/-- An open issue and a closed one. -/
def openAndClosed : Database := fun table => if table = "issue" then [replicaIssue "a" true, replicaIssue "b" false] else []

/-- An issue is set to open. -/
def reopen (id : String) : NormalizedOp where
  op := .update
  tableName := "issue"
  primaryKey := ["id"]
  value c := if c = "id" then .str id else if c = "open" then .bool true else .undefined

/-- The check of an issue before or after it is set to open. -/
def reopenCheck (phase : Phase) (id : String) : PolicyCheck :=
  ⟨reopen id, some (if phase = .preMutation then [.simple ⟨.eq, .column "open", .literal (.value (.bool true))⟩]
    else [.group .and []])⟩

theorem holds_reopenCheck (phase : Phase) (id : String) :
    openIssues.holds db (reopenCheck phase id) = (db "issue").any fun row =>
      decide (row "id" = .str id) && (phase = .postMutation || row "open" = .bool true) := by
  have hcompare (column : String) (v : Value) (hv : v ≠ .undefined ∧ v ≠ .null) (row : Row) :
      SimpleCondition.createPredicate openIssues.getLikePredicate ⟨.eq, .column column, .value v⟩ row = decide (row column = v) := by
    have hv' : (LiteralValue.value v).isNullish = false := by
      cases v <;> first | rfl | exact absurd rfl hv.1 | exact absurd rfl hv.2
    simp only [SimpleCondition.createPredicate, ValuePosition.read, hv', createPredicateImpl, LiteralValue.same]
    cases hr : row column <;> simp [LiteralValue.isNullish, Ne.symm hv.1, Ne.symm hv.2]
  have hspec : openIssues.authorizer.tableSpecs (reopen id).tableName = some issueSpec := rfl
  have hkey : WriteAuthorizer.getPrimaryKey issueSpec (reopen id).value =
      .ok (selectColumns issueSpec.primaryKey (reopen id).value) := rfl
  rw [reopenCheck, holds_policy hspec hkey rfl]
  refine congrArg (fun p => (db "issue").any p) (funext fun row => ?_)
  refine congrArg₂ _ (hcompare "id" (.str id) ⟨Value.noConfusion, Value.noConfusion⟩ row) ?_
  cases phase with
  | preMutation =>
    have hopen := hcompare "open" (.bool true) ⟨Value.noConfusion, Value.noConfusion⟩ row
    change (SimpleCondition.createPredicate openIssues.getLikePredicate ⟨.eq, .column "open", .value (.bool true)⟩ row || false) = _
    rw [hopen]
    simp
  | postMutation => rfl

theorem push_reopen : ∃ db, openIssues.authorizer.pushOps openAndClosed [reopen "a", reopen "b"] = .ok db ∧
    ∀ phase, openIssues.holds db (reopenCheck phase "a") = true ∧ openIssues.holds db (reopenCheck phase "b") = true := by
  refine ⟨_, rfl, fun phase => ?_⟩
  rw [holds_reopenCheck, holds_reopenCheck]
  cases phase <;> exact ⟨rfl, rfl⟩

theorem holds_open : openIssues.holds openAndClosed (reopenCheck .preMutation "a") = true := by
  rw [holds_reopenCheck]
  rfl

end Authorization

end ZeroSync
