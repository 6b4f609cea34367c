/-
`zero-client/src/client/mutation-tracker.ts`: the mutations that wait for
the server, and who hears when none does any more.

What the tracker hands out is kept beside its state: the promises it
settled, the results it acknowledged and the fatal errors. `δ` is the type of
JSON details and `ε` of the errors callers reject with.
-/
import ZeroSync.Fallible
import ZeroSync.OrderedMap

namespace ZeroSync

/-- `MutationResult`. -/
inductive MutationResult (δ : Type)
  | ok (data : Option δ)
  | app (message : Option String) (details : Option δ)
  | oooMutation (details : Option δ)
  | alreadyProcessed (details : Option δ)

/-- How a server promise is settled: resolved with `successResultDetails`, or
rejected. A protocol error's details are taken from the result it is for. -/
inductive Settlement (δ ε : Type)
  | success
  | applicationError (message : String) (details : Option δ)
  | protocolError (message : String) (result : MutationResult δ)
  | error (e : ε)

/-- `PushResponseBody`. -/
inductive PushResponseBody (δ : Type)
  | unsupportedPushVersion
  | unsupportedSchemaVersion
  | http (status : ℕ) (details : Option String)
  | zeroPusher (details : Option String)
  | ok (mutations : List ((String × ℕ) × MutationResult δ))

/-- The errors given to `#onFatalError`. -/
inductive FatalError
  | pushFailed (message : String) (status : Option ℕ)
  | invalidPush (message : String)

/-- One diff of the watched mutation results. -/
inductive ResponseDiff (δ : Type)
  | add (result : MutationResult δ)
  | del
  | change

/-- `MutationTracker`. -/
structure MutationTracker (δ ε : Type) where
  clientID : String
  /-- The module's counter. -/
  currentEphemeralID : ℕ
  outstandingMutations : OrderedMap ℕ (Option ℕ)
  ephemeralIDsByMutationID : OrderedMap ℕ ℕ
  largestOutstandingMutationID : ℕ
  currentMutationID : ℕ
  settled : List (ℕ × Settlement δ ε)
  acked : List ℕ
  fatalErrors : List FatalError

namespace MutationTracker

variable {δ ε : Type}

/-- A tracker whose client ID is set. -/
def init (clientID : String) : MutationTracker δ ε :=
  { clientID, currentEphemeralID := 0, outstandingMutations := ∅, ephemeralIDsByMutationID := ∅,
    largestOutstandingMutationID := 0, currentMutationID := 0, settled := [], acked := [], fatalErrors := [] }

def size (t : MutationTracker δ ε) : ℕ := t.outstandingMutations.entries.length

/-- `trackMutation`, without the promise it returns. -/
def trackMutation (t : MutationTracker δ ε) : MutationTracker δ ε :=
  let id := t.currentEphemeralID + 1
  { t with currentEphemeralID := id, outstandingMutations := t.outstandingMutations.set id none }

/-- `mutationIDAssigned`. -/
def mutationIDAssigned (t : MutationTracker δ ε) (id mutationID : ℕ) : MutationTracker δ ε :=
  match t.outstandingMutations.get? id with
  | some _ =>
    { t with
      outstandingMutations := t.outstandingMutations.set id (some mutationID)
      ephemeralIDsByMutationID := t.ephemeralIDsByMutationID.set mutationID id
      largestOutstandingMutationID := max t.largestOutstandingMutationID mutationID }
  | none => t

/-- `entry.mutationID` where it is truthy. -/
def idOf (entry : Option ℕ) : Option ℕ := entry.filter (· ≠ 0)

/-- `#settleMutation`. -/
def settleMutation (t : MutationTracker δ ε) (ephemeralID : ℕ) (entry : Option ℕ) (result : Settlement δ ε) :
    MutationTracker δ ε :=
  { t with
    settled := t.settled ++ [(ephemeralID, result)]
    outstandingMutations := t.outstandingMutations.erase ephemeralID
    ephemeralIDsByMutationID := match idOf entry with
      | some mutationID => t.ephemeralIDsByMutationID.erase mutationID
      | none => t.ephemeralIDsByMutationID }

/-- `rejectMutation`. -/
def rejectMutation (t : MutationTracker δ ε) (id : ℕ) (e : ε) : MutationTracker δ ε :=
  match t.outstandingMutations.get? id with
  | some entry => t.settleMutation id entry (.error e)
  | none => t

/-- `rejectAllOutstandingMutations`, and whether the listeners are notified. -/
def rejectAllOutstandingMutations (t : MutationTracker δ ε) (error : ε) : MutationTracker δ ε × Bool :=
  if t.size = 0 then (t, false)
  else
    let t := t.outstandingMutations.entries.foldl (fun t e => t.settleMutation e.1 e.2 (.error error)) t
    ({ t with largestOutstandingMutationID := t.currentMutationID }, true)

/-- The outstanding mutation that `#processMutationError` and
`#processMutationOk` find for a result. -/
def outstandingFor (t : MutationTracker δ ε) (clientID : String) (mid : ℕ) : Except String (Option ℕ) :=
  if clientID ≠ t.clientID then .error "received mutation for the wrong client"
  else
    match t.ephemeralIDsByMutationID.get? mid with
    | none => .ok none
    | some ephemeralID =>
      if ephemeralID = 0 then .ok none
      else if t.outstandingMutations.get? ephemeralID = some (some mid) then .ok (some ephemeralID)
      else .error s!"outstanding mutation not found for mutation ID {mid} and ephemeral ID {ephemeralID}"

/-- What `#processMutationError` and `#processMutationOk` settle a mutation with. -/
def settlement (result : MutationResult δ) : Settlement δ ε :=
  match result with
  | .ok _ | .alreadyProcessed _ => .success
  | .app message details => .applicationError (message.getD "Unknown application error: app") details
  | .oooMutation _ => .protocolError "Server reported an out-of-order mutation" result

/-- `#processMutationError`, `#processMutationOk`. -/
def processMutationResult (t : MutationTracker δ ε) (clientID : String) (mid : ℕ) (result : MutationResult δ) :
    Except String (MutationTracker δ ε) := do
  match ← t.outstandingFor clientID mid with
  | none => return t
  | some ephemeralID =>
    let t := t.settleMutation ephemeralID (some mid) (settlement result)
    match result with
    | .oooMutation _ =>
      return { t with fatalErrors := t.fatalErrors ++ [.invalidPush "Server reported an out-of-order mutation"] }
    | _ => return t

/-- `#fatalErrorFromPushError`. -/
def fatalErrorFromPushError : PushResponseBody δ → Option FatalError
  | .unsupportedPushVersion => some (.pushFailed "Unsupported push version" none)
  | .unsupportedSchemaVersion => some (.pushFailed "Unsupported schema version" none)
  | .http status details =>
    some (.pushFailed (s!"Fetch from API server returned non-OK status {status}: " ++ details.getD "unknown") (some status))
  | .zeroPusher details => some (.pushFailed ("ZeroPusher error: " ++ details.getD "unknown") none)
  | .ok _ => none

/-- `processPushResponse`. -/
def processPushResponse (t : MutationTracker δ ε) (response : PushResponseBody δ) : Except String (MutationTracker δ ε) :=
  match response with
  | .ok mutations => mutations.foldlM (fun t m => t.processMutationResult m.1.1 m.1.2 m.2) t
  | _ => .ok { t with fatalErrors := t.fatalErrors ++ (fatalErrorFromPushError response).toList }

/-- `#processMutationResponses`: the diffs by the mutation ID of their keys. -/
def processMutationResponses (t : MutationTracker δ ε) (diffs : List (ℕ × ResponseDiff δ)) :
    Except String (MutationTracker δ ε) := do
  let t ← diffs.foldlM (fun t diff => match diff.2 with
    | .add result => t.processMutationResult t.clientID diff.1 result
    | .del => .ok t
    | .change => .error "MutationTracker does not expect change operations") t
  let largestLmid := diffs.foldl (fun largest diff => max largest diff.1) 0
  return if largestLmid > 0 then { t with acked := t.acked ++ [largestLmid] } else t

/-- `#resolveMutations`, the rest of its loop. -/
def resolveMutations (upTo : ℕ) : List (ℕ × Option ℕ) → MutationTracker δ ε → MutationTracker δ ε
  | [], t => t
  | (id, entry) :: rest, t =>
    match idOf entry with
    | some mutationID => if mutationID ≤ upTo then resolveMutations upTo rest (t.settleMutation id entry .success) else t
    | none => t

/-- `lmidAdvanced`, and whether the listeners are notified. -/
def lmidAdvanced (t : MutationTracker δ ε) (lastMutationID : ℕ) : Except String (MutationTracker δ ε × Bool) :=
  if lastMutationID < t.currentMutationID then .error "lmid must be greater than or equal to current lmid"
  else if lastMutationID = t.currentMutationID then .ok (t, false)
  else
    let t := resolveMutations lastMutationID t.outstandingMutations.entries { t with currentMutationID := lastMutationID }
    .ok (t, decide (t.largestOutstandingMutationID ≤ lastMutationID))

/-! ## What the calls keep -/

/-- The mutations that wait, their ids and what was settled. -/
structure Inv (t : MutationTracker δ ε) : Prop where
  tracked : ∀ id entry, t.outstandingMutations.get? id = some entry → 0 < id ∧ id ≤ t.currentEphemeralID
  positive : ∀ id n, t.outstandingMutations.get? id = some (some n) → 0 < n
  inverse : ∀ n id, t.ephemeralIDsByMutationID.get? n = some id ↔ t.outstandingMutations.get? id = some (some n)
  largest : ∀ id n, t.outstandingMutations.get? id = some (some n) → n ≤ t.largestOutstandingMutationID
  increasing : t.outstandingMutations.entries.Pairwise fun a b => ∀ m n, a.2 = some m → b.2 = some n → m < n
  settled_nodup : (t.settled.map (·.1)).Nodup
  settled : ∀ id ∈ t.settled.map (·.1), id ≤ t.currentEphemeralID ∧ t.outstandingMutations.get? id = none

variable {t : MutationTracker δ ε}

theorem Inv.init (clientID : String) : (init clientID : MutationTracker δ ε).Inv where
  tracked id entry h := by cases h
  positive id n h := by cases h
  inverse n id := by simp [MutationTracker.init]
  largest id n h := by cases h
  increasing := List.Pairwise.nil
  settled_nodup := List.nodup_nil
  settled id h := by cases h

theorem Inv.trackMutation (h : t.Inv) : t.trackMutation.Inv := by
  have hnew : t.outstandingMutations.get? (t.currentEphemeralID + 1) = none := by
    rw [Option.eq_none_iff_forall_ne_some]
    intro entry hentry
    exact absurd (h.tracked _ entry hentry).2 (Nat.not_succ_le_self _)
  have hget : ∀ id entry, (t.outstandingMutations.set (t.currentEphemeralID + 1) none).get? id = some entry →
      id = t.currentEphemeralID + 1 ∧ entry = none ∨ t.outstandingMutations.get? id = some entry := by
    intro id entry hid
    rw [OrderedMap.get?_set] at hid
    split at hid
    · next heq => exact .inl ⟨heq.symm, (Option.some.inj hid).symm⟩
    · exact .inr hid
  have hold : ∀ id n, (t.outstandingMutations.set (t.currentEphemeralID + 1) none).get? id = some (some n) ↔
      t.outstandingMutations.get? id = some (some n) := by
    intro id n
    rw [OrderedMap.get?_set]
    split
    · next heq => subst heq; simp [hnew]
    · exact Iff.rfl
  exact {
    tracked := fun id entry hid => by
      rcases hget id entry hid with ⟨rfl, -⟩ | hid
      · exact ⟨Nat.succ_pos _, Nat.le_refl _⟩
      · exact (h.tracked id entry hid).imp_right (Nat.le_succ_of_le ·)
    positive := fun id n hid => h.positive id n ((hold id n).mp hid)
    inverse := fun n id => (h.inverse n id).trans (hold id n).symm
    largest := fun id n hid => h.largest id n ((hold id n).mp hid)
    increasing := by
      show (OrderedMap.setEntries _ _ _).Pairwise _
      rw [OrderedMap.setEntries_of_notMem (by
        rw [← OrderedMap.keys, OrderedMap.mem_keys_iff, hnew]
        simp)]
      refine List.pairwise_append.mpr ⟨h.increasing, List.pairwise_singleton .., ?_⟩
      intro a _ b hb m n _ hn
      obtain rfl := List.mem_singleton.mp hb
      cases hn
    settled_nodup := h.settled_nodup
    settled := fun id hid => by
      obtain ⟨hle, hnone⟩ := h.settled id hid
      refine ⟨Nat.le_succ_of_le hle, ?_⟩
      show (t.outstandingMutations.set _ _).get? id = none
      rw [OrderedMap.get?_set_of_ne _ _ (by omega), hnone] }

theorem idOf_eq (h : t.Inv) {id : ℕ} {entry : Option ℕ} (hid : t.outstandingMutations.get? id = some entry) :
    idOf entry = entry := by
  cases entry with
  | none => rfl
  | some n => simp [idOf, Nat.ne_of_gt (h.positive id n hid)]

theorem Inv.settleMutation (h : t.Inv) {id : ℕ} {entry : Option ℕ} (hid : t.outstandingMutations.get? id = some entry)
    (result : Settlement δ ε) : (t.settleMutation id entry result).Inv := by
  have hget : ∀ id' entry', (t.outstandingMutations.erase id).get? id' = some entry' ↔
      id' ≠ id ∧ t.outstandingMutations.get? id' = some entry' := by
    intro id' entry'
    rw [OrderedMap.get?_erase]
    by_cases heq : id = id' <;> simp [heq, Ne.symm, eq_comm]
  exact {
    tracked := fun id' entry' hid' => h.tracked id' entry' ((hget id' entry').mp hid').2
    positive := fun id' n hid' => h.positive id' n ((hget id' (some n)).mp hid').2
    inverse := fun n id' => by
      unfold MutationTracker.settleMutation
      dsimp only
      rw [idOf_eq h hid, hget, ← h.inverse n id']
      cases entry with
      | none =>
        refine ⟨fun hn => ⟨?_, hn⟩, And.right⟩
        rintro rfl
        cases hid.symm.trans ((h.inverse n id').mp hn)
      | some m =>
        have hm := (h.inverse m id).mpr hid
        dsimp only
        rw [OrderedMap.get?_erase]
        split
        · next heq =>
          subst heq
          simp only [hm, Option.some.injEq, reduceCtorEq, false_iff, not_and]
          exact fun hne heq => hne heq.symm
        · next hne =>
          refine ⟨fun hn => ⟨?_, hn⟩, And.right⟩
          rintro rfl
          exact hne (Option.some.inj (Option.some.inj (hid.symm.trans ((h.inverse n id').mp hn))))
    largest := fun id' n hid' => h.largest id' n ((hget id' (some n)).mp hid').2
    increasing := h.increasing.sublist List.filter_sublist
    settled_nodup := by
      show ((t.settled ++ [(id, result)]).map (·.1)).Nodup
      rw [List.map_append]
      refine h.settled_nodup.append (List.nodup_singleton _) fun id' hid' hmem => ?_
      obtain rfl : id' = id := List.mem_singleton.mp hmem
      cases (h.settled id' hid').2.symm.trans hid
    settled := fun id' hid' => by
      show id' ≤ t.currentEphemeralID ∧ (t.outstandingMutations.erase id).get? id' = none
      rw [OrderedMap.get?_erase]
      rcases List.mem_append.mp (List.map_append ▸ hid') with hid' | hid'
      · obtain ⟨hle, hnone⟩ := h.settled id' hid'
        exact ⟨hle, by rw [hnone]; split <;> rfl⟩
      · obtain rfl := List.mem_singleton.mp hid'
        exact ⟨(h.tracked id' entry hid).2, if_pos rfl⟩ }

/-- A call that settles mutations and assigns no id. -/
structure Shrinks (t t' : MutationTracker δ ε) : Prop where
  entries : t'.outstandingMutations.entries.Sublist t.outstandingMutations.entries
  largest : t'.largestOutstandingMutationID = t.largestOutstandingMutationID
  current : t'.currentMutationID = t.currentMutationID
  clientID : t'.clientID = t.clientID

theorem Shrinks.refl (t : MutationTracker δ ε) : t.Shrinks t := ⟨List.Sublist.refl _, rfl, rfl, rfl⟩

theorem Shrinks.trans {t t' t'' : MutationTracker δ ε} (h : t.Shrinks t') (h' : t'.Shrinks t'') : t.Shrinks t'' :=
  ⟨h'.entries.trans h.entries, h'.largest.trans h.largest, h'.current.trans h.current, h'.clientID.trans h.clientID⟩

theorem settleMutation_shrinks (t : MutationTracker δ ε) (id : ℕ) (entry : Option ℕ) (result : Settlement δ ε) :
    t.Shrinks (t.settleMutation id entry result) :=
  ⟨List.filter_sublist, rfl, rfl, rfl⟩

theorem Inv.mutationIDAssigned (h : t.Inv) {id n : ℕ} (hid : t.outstandingMutations.get? id = some none) (hpos : 0 < n)
    (hlt : ∀ id' m, t.outstandingMutations.get? id' = some (some m) → m < n)
    (hlater : ∀ pre post, t.outstandingMutations.entries = pre ++ (id, none) :: post → ∀ e ∈ post, e.2 = none) :
    (t.mutationIDAssigned id n).Inv := by
  have hassigned : t.mutationIDAssigned id n = { t with
      outstandingMutations := t.outstandingMutations.set id (some n)
      ephemeralIDsByMutationID := t.ephemeralIDsByMutationID.set n id
      largestOutstandingMutationID := max t.largestOutstandingMutationID n } := by
    simp [MutationTracker.mutationIDAssigned, hid]
  have hget : ∀ id' entry, (t.outstandingMutations.set id (some n)).get? id' = some entry ↔
      id' = id ∧ entry = some n ∨ id' ≠ id ∧ t.outstandingMutations.get? id' = some entry := by
    intro id' entry
    rw [OrderedMap.get?_set]
    by_cases heq : id = id'
    · simp [heq, eq_comm]
    · simp [heq, Ne.symm heq]
  obtain ⟨pre, post, hentries, hset⟩ := OrderedMap.entries_split hid
  rw [hassigned]
  exact {
    tracked := fun id' entry hid' => by
      rcases (hget id' entry).mp hid' with ⟨rfl, -⟩ | ⟨-, hid'⟩
      · exact h.tracked id' none hid
      · exact h.tracked id' entry hid'
    positive := fun id' m hid' => by
      rcases (hget id' (some m)).mp hid' with ⟨-, hm⟩ | ⟨-, hid'⟩
      · obtain rfl := Option.some.inj hm
        exact hpos
      · exact h.positive id' m hid'
    inverse := fun m id' => by
      rw [hget, OrderedMap.get?_set]
      by_cases hm : n = m
      · subst hm
        have hold : t.outstandingMutations.get? id' ≠ some (some n) := fun hid' => Nat.lt_irrefl n (hlt id' n hid')
        simp [hold, eq_comm]
      · have hnone : some m ≠ some n := fun heq => hm (Option.some.inj heq).symm
        rw [if_neg hm, h.inverse m id']
        refine ⟨fun hid' => .inr ⟨?_, hid'⟩, fun h' => (h'.resolve_left fun h' => hnone h'.2).2⟩
        rintro rfl
        cases hid.symm.trans hid'
    largest := fun id' m hid' => by
      rcases (hget id' (some m)).mp hid' with ⟨-, hm⟩ | ⟨-, hid'⟩
      · obtain rfl := Option.some.inj hm
        exact Nat.le_max_right ..
      · exact Nat.le_trans (h.largest id' m hid') (Nat.le_max_left ..)
    increasing := by
      have hpairs := h.increasing
      rw [hentries, List.pairwise_append, List.pairwise_cons] at hpairs
      obtain ⟨hpre, ⟨-, hpost⟩, hcross⟩ := hpairs
      show (t.outstandingMutations.set id (some n)).entries.Pairwise _
      rw [hset (some n), List.pairwise_append, List.pairwise_cons]
      refine ⟨hpre, ⟨fun b hb m m' _ hm' => ?_, hpost⟩, fun a ha b hb m m' hm hm' => ?_⟩
      · cases (hlater pre post hentries b hb).symm.trans hm'
      · rcases List.mem_cons.mp hb with rfl | hb
        · obtain rfl := Option.some.inj hm'
          refine hlt a.1 m ((OrderedMap.mem_entries_iff ..).mp ?_)
          rw [hentries, ← hm]
          exact List.mem_append_left _ ha
        · exact hcross a ha b (List.mem_cons_of_mem _ hb) m m' hm hm'
    settled_nodup := h.settled_nodup
    settled := fun id' hid' => by
      obtain ⟨hle, hnone⟩ := h.settled id' hid'
      refine ⟨hle, ?_⟩
      have hne : id ≠ id' := by
        rintro rfl
        cases hid.symm.trans hnone
      rw [OrderedMap.get?_set_of_ne _ _ hne, hnone] }

theorem Inv.congr {t' : MutationTracker δ ε} (h : t.Inv) (houtstanding : t'.outstandingMutations = t.outstandingMutations)
    (hephemeral : t'.ephemeralIDsByMutationID = t.ephemeralIDsByMutationID)
    (hcurrent : t'.currentEphemeralID = t.currentEphemeralID)
    (hlargest : t'.largestOutstandingMutationID = t.largestOutstandingMutationID) (hsettled : t'.settled = t.settled) :
    t'.Inv where
  tracked := by rw [houtstanding, hcurrent]; exact h.tracked
  positive := by rw [houtstanding]; exact h.positive
  inverse := by rw [houtstanding, hephemeral]; exact h.inverse
  largest := by rw [houtstanding, hlargest]; exact h.largest
  increasing := by rw [houtstanding]; exact h.increasing
  settled_nodup := by rw [hsettled]; exact h.settled_nodup
  settled := by rw [houtstanding, hsettled, hcurrent]; exact h.settled

theorem Inv.rejectMutation (h : t.Inv) (id : ℕ) (e : ε) : (t.rejectMutation id e).Inv ∧ t.Shrinks (t.rejectMutation id e) := by
  unfold MutationTracker.rejectMutation
  split
  · next entry hid => exact ⟨h.settleMutation hid _, t.settleMutation_shrinks ..⟩
  · exact ⟨h, Shrinks.refl t⟩

theorem Inv.processMutationResult (h : t.Inv) {clientID : String} (hclient : clientID = t.clientID) (mid : ℕ)
    (result : MutationResult δ) :
    ∃ t', t.processMutationResult clientID mid result = .ok t' ∧ t'.Inv ∧ t.Shrinks t' := by
  have hfound : t.outstandingFor clientID mid = .ok none ∨ ∃ id, t.outstandingFor clientID mid = .ok (some id) ∧
      t.outstandingMutations.get? id = some (some mid) := by
    unfold outstandingFor
    rw [if_neg (by simpa using hclient)]
    rcases Option.eq_none_or_eq_some (t.ephemeralIDsByMutationID.get? mid) with hmid | ⟨id, hmid⟩
    · simp [hmid]
    · have hid := (h.inverse mid id).mp hmid
      have hne : id ≠ 0 := Nat.ne_of_gt (h.tracked id _ hid).1
      simp [hmid, hid, hne]
  unfold MutationTracker.processMutationResult
  rcases hfound with hnone | ⟨id, hsome, hid⟩
  · exact ⟨t, by rw [hnone]; rfl, h, Shrinks.refl t⟩
  · have hsettled := h.settleMutation hid (settlement result)
    rw [hsome]
    cases result with
    | oooMutation details =>
      exact ⟨_, rfl, hsettled.congr rfl rfl rfl rfl rfl, List.filter_sublist, rfl, rfl, rfl⟩
    | ok data => exact ⟨_, rfl, hsettled, t.settleMutation_shrinks ..⟩
    | app message details => exact ⟨_, rfl, hsettled, t.settleMutation_shrinks ..⟩
    | alreadyProcessed details => exact ⟨_, rfl, hsettled, t.settleMutation_shrinks ..⟩

theorem Inv.processPushResponse (h : t.Inv) {response : PushResponseBody δ}
    (hclient : ∀ mutations, response = .ok mutations → ∀ m ∈ mutations, m.1.1 = t.clientID) :
    ∃ t', t.processPushResponse response = .ok t' ∧ t'.Inv ∧ t.Shrinks t' := by
  cases response with
  | ok mutations =>
    refine Fallible.foldlM_total (I := fun t' => t'.Inv ∧ t.Shrinks t') (fun t₁ m hm ⟨h₁, hs₁⟩ => ?_) ⟨h, Shrinks.refl t⟩
    obtain ⟨t₂, hok, h₂, hs₂⟩ := h₁.processMutationResult ((hclient mutations rfl m hm).trans hs₁.clientID.symm) m.1.2 m.2
    exact ⟨t₂, hok, h₂, hs₁.trans hs₂⟩
  | unsupportedPushVersion => exact ⟨_, rfl, h.congr rfl rfl rfl rfl rfl, List.Sublist.refl _, rfl, rfl, rfl⟩
  | unsupportedSchemaVersion => exact ⟨_, rfl, h.congr rfl rfl rfl rfl rfl, List.Sublist.refl _, rfl, rfl, rfl⟩
  | http status details => exact ⟨_, rfl, h.congr rfl rfl rfl rfl rfl, List.Sublist.refl _, rfl, rfl, rfl⟩
  | zeroPusher details => exact ⟨_, rfl, h.congr rfl rfl rfl rfl rfl, List.Sublist.refl _, rfl, rfl, rfl⟩

theorem Inv.processMutationResponses (h : t.Inv) {diffs : List (ℕ × ResponseDiff δ)}
    (hchange : ∀ diff ∈ diffs, ∀ mid, diff ≠ (mid, .change)) :
    ∃ t', t.processMutationResponses diffs = .ok t' ∧ t'.Inv ∧ t.Shrinks t' := by
  obtain ⟨t₁, hok, h₁, hs₁⟩ := Fallible.foldlM_total (I := fun t' => t'.Inv ∧ t.Shrinks t')
    (f := fun t diff => match diff.2 with
      | .add result => t.processMutationResult t.clientID diff.1 result
      | .del => .ok t
      | .change => (.error "MutationTracker does not expect change operations" : Except String _))
    (l := diffs) (fun t₁ diff hdiff ⟨h₁, hs₁⟩ => by
      obtain ⟨mid, op⟩ := diff
      cases op with
      | add result =>
        obtain ⟨t₂, hok, h₂, hs₂⟩ := h₁.processMutationResult rfl mid result
        exact ⟨t₂, hok, h₂, hs₁.trans hs₂⟩
      | del => exact ⟨t₁, rfl, h₁, hs₁⟩
      | change => exact absurd rfl (hchange _ hdiff mid)) ⟨h, Shrinks.refl t⟩
  unfold MutationTracker.processMutationResponses
  rw [hok]
  refine ⟨_, rfl, ?_⟩
  split
  · exact ⟨h₁.congr rfl rfl rfl rfl rfl, hs₁.trans ⟨List.Sublist.refl _, rfl, rfl, rfl⟩⟩
  · exact ⟨h₁, hs₁⟩

theorem Inv.rejectAllOutstandingMutations (h : t.Inv) (error : ε) :
    let t' := (t.rejectAllOutstandingMutations error).1
    t'.Inv ∧ t'.size = 0 ∧ t'.currentMutationID = t.currentMutationID := by
  have hrun : ∀ (l : List (ℕ × Option ℕ)) (t : MutationTracker δ ε), t.Inv → t.outstandingMutations.entries = l →
      let t' := l.foldl (fun t e => t.settleMutation e.1 e.2 (.error error)) t
      t'.Inv ∧ t'.outstandingMutations.entries = [] ∧ t'.currentMutationID = t.currentMutationID := by
    intro l
    induction l with
    | nil => exact fun t h hl => ⟨h, hl, rfl⟩
    | cons e l ih =>
      intro t h hl
      have he : t.outstandingMutations.get? e.1 = some e.2 :=
        (OrderedMap.mem_entries_iff ..).mp (hl ▸ List.mem_cons_self ..)
      obtain ⟨hinv, hempty, hcurrent⟩ := ih _ (h.settleMutation he (.error error)) (OrderedMap.entries_erase_head hl)
      exact ⟨hinv, hempty, hcurrent⟩
  unfold MutationTracker.rejectAllOutstandingMutations
  split
  · next hzero => exact ⟨h, hzero, rfl⟩
  · obtain ⟨hinv, hempty, hcurrent⟩ := hrun _ t h rfl
    refine ⟨{ hinv with largest := fun id n hid => ?_ }, by simp [size, hempty], hcurrent⟩
    have hmem := (OrderedMap.mem_entries_iff ..).mpr hid
    simp only [hempty] at hmem
    cases hmem

/-! ## `lmidAdvanced` -/

/-- `#resolveMutations` settles the first mutations with ids up to `upTo`. -/
theorem Inv.resolveMutations (upTo : ℕ) {l : List (ℕ × Option ℕ)} (h : t.Inv) (hl : t.outstandingMutations.entries = l) :
    let t' := MutationTracker.resolveMutations upTo l t
    t'.Inv ∧ t.Shrinks t' ∧ ∀ e rest, t'.outstandingMutations.entries = e :: rest → ∀ n, e.2 = some n → upTo < n := by
  induction l generalizing t with
  | nil =>
    refine ⟨h, Shrinks.refl t, fun e rest he => ?_⟩
    simp [MutationTracker.resolveMutations, hl] at he
  | cons e l ih =>
    obtain ⟨id, entry⟩ := e
    have hid : t.outstandingMutations.get? id = some entry :=
      (OrderedMap.mem_entries_iff ..).mp (hl ▸ List.mem_cons_self ..)
    have hhead : ∀ e rest, t.outstandingMutations.entries = e :: rest → e = (id, entry) := fun e rest he =>
      (List.cons.inj (he.symm.trans hl)).1
    rw [MutationTracker.resolveMutations, idOf_eq h hid]
    cases entry with
    | none =>
      refine ⟨h, Shrinks.refl t, fun e rest he n hn => ?_⟩
      rw [hhead e rest he] at hn
      cases hn
    | some mutationID =>
      dsimp only
      split
      · obtain ⟨hinv, hshrinks, hrest⟩ := ih (h.settleMutation hid .success) (OrderedMap.entries_erase_head hl)
        exact ⟨hinv, (t.settleMutation_shrinks ..).trans hshrinks, hrest⟩
      · next hlt =>
        refine ⟨h, Shrinks.refl t, fun e rest he n hn => ?_⟩
        rw [hhead e rest he] at hn
        obtain rfl := Option.some.inj hn
        exact Nat.lt_of_not_le hlt

/-- What `#resolveMutations` settles has an id up to `upTo`. -/
theorem resolveMutations_settles (upTo : ℕ) {l : List (ℕ × Option ℕ)} (hl : t.outstandingMutations.entries = l) :
    (MutationTracker.resolveMutations upTo l t).currentMutationID = t.currentMutationID ∧
      ∀ e ∈ l, (MutationTracker.resolveMutations upTo l t).outstandingMutations.get? e.1 = none → ∃ m, e.2 = some m ∧ m ≤ upTo := by
  induction l generalizing t with
  | nil => exact ⟨rfl, fun e he => by cases he⟩
  | cons e l ih =>
    have hkept : ∀ e' ∈ e :: l, t.outstandingMutations.get? e'.1 ≠ none := fun e' he' hnone => by
      rw [(OrderedMap.mem_entries_iff _ e'.1 e'.2).mp (hl ▸ he')] at hnone
      cases hnone
    obtain ⟨id, entry⟩ := e
    rw [MutationTracker.resolveMutations]
    split
    · next mutationID hid =>
      split
      · next hle =>
        obtain ⟨hcurrent, hsettles⟩ := ih (t := t.settleMutation id entry .success) (OrderedMap.entries_erase_head hl)
        refine ⟨hcurrent, fun e' he' hnone => ?_⟩
        rcases List.mem_cons.mp he' with rfl | he'
        · exact ⟨mutationID, (Option.filter_eq_some_iff.mp hid).1, hle⟩
        · exact hsettles e' he' hnone
      · exact ⟨rfl, fun e' he' hnone => absurd hnone (hkept e' he')⟩
    · exact ⟨rfl, fun e' he' hnone => absurd hnone (hkept e' he')⟩

theorem lmidAdvanced_settles {n : ℕ} {t' : MutationTracker δ ε} {notify : Bool} (h : t.lmidAdvanced n = .ok (t', notify)) :
    t'.currentMutationID = n ∧ ∀ e ∈ t.outstandingMutations.entries, t'.outstandingMutations.get? e.1 = none →
      ∃ m, e.2 = some m ∧ m ≤ n ∧ t.currentMutationID < n := by
  unfold MutationTracker.lmidAdvanced at h
  split at h
  · cases h
  next hle =>
  split at h
  · next heq =>
    obtain ⟨rfl, -⟩ := Prod.mk.inj (Except.ok.inj h)
    refine ⟨heq.symm, fun e he hnone => ?_⟩
    rw [(OrderedMap.mem_entries_iff _ e.1 e.2).mp he] at hnone
    cases hnone
  · next hne =>
    obtain ⟨rfl, -⟩ := Prod.mk.inj (Except.ok.inj h)
    obtain ⟨hcurrent, hsettles⟩ := resolveMutations_settles (t := { t with currentMutationID := n }) n rfl
    refine ⟨hcurrent, fun e he hnone => ?_⟩
    obtain ⟨m, hm, hmn⟩ := hsettles e he hnone
    exact ⟨m, hm, hmn, by omega⟩

/-- An id that is not above `n` is one of a mutation tracked after one without an id. -/
def Overtaken (t : MutationTracker δ ε) (n : ℕ) : Prop :=
  ∀ pre id m post, t.outstandingMutations.entries = pre ++ (id, some m) :: post → m ≤ n → ∃ e ∈ pre, e.2 = none

theorem Inv.lmidAdvanced (h : t.Inv) {n : ℕ} (hn : t.currentMutationID ≤ n) :
    ∃ t' notify, t.lmidAdvanced n = .ok (t', notify) ∧ t'.Inv ∧ t'.currentMutationID = n ∧
      t'.largestOutstandingMutationID = t.largestOutstandingMutationID ∧
      t'.outstandingMutations.entries.Sublist t.outstandingMutations.entries ∧
      (notify = true ↔ t.currentMutationID < n ∧ t.largestOutstandingMutationID ≤ n) ∧
      (t.currentMutationID < n → t'.Overtaken n) ∧ (t.currentMutationID = n → t' = t) := by
  unfold MutationTracker.lmidAdvanced
  rw [if_neg (Nat.not_lt.mpr hn)]
  by_cases heq : n = t.currentMutationID
  · rw [if_pos heq]
    exact ⟨t, false, rfl, h, heq.symm, rfl, List.Sublist.refl _, by simp [heq], fun hlt => by omega, fun _ => rfl⟩
  · rw [if_neg heq]
    obtain ⟨hinv, hshrinks, hhead⟩ := Inv.resolveMutations (t := { t with currentMutationID := n }) n
      (h.congr rfl rfl rfl rfl rfl) rfl
    refine ⟨_, _, rfl, hinv, hshrinks.current, hshrinks.largest, hshrinks.entries, ?_, fun _ => ?_, fun he => absurd he.symm heq⟩
    · rw [decide_eq_true_iff, hshrinks.largest]
      exact ⟨fun hle => ⟨by omega, hle⟩, And.right⟩
    · intro pre id m post hentries hm
      cases pre with
      | nil => exact absurd (hhead _ _ hentries m rfl) (Nat.not_lt.mpr hm)
      | cons e pre =>
        cases he : e.2 with
        | none => exact ⟨e, List.mem_cons_self .., he⟩
        | some k =>
          have hk := hhead e _ hentries k he
          have hpairs := hinv.increasing
          rw [hentries, List.cons_append, List.pairwise_cons] at hpairs
          have hkm := hpairs.1 (id, some m) (List.mem_append_right _ (List.mem_cons_self ..)) k m he rfl
          omega

end MutationTracker

end ZeroSync
