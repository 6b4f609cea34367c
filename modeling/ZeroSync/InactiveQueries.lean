/-
`getInactiveQueries` and `nextEvictionTime` of `view-syncer/cvr.ts`, and `expired` of
`view-syncer.ts`: when a query that all clients have inactivated is to be removed.

The clock and the TTLs are exact numbers. The two loops over the clients of a query agree,
whatever the order of the clients and of the queries (`getInactiveQueries_spec`).
-/
import ZeroSync.CVRConfig
import Mathlib.Tactic.Linarith

namespace ZeroSync

structure InactiveQuery where
  hash : String
  inactivatedAt : ℚ
  ttl : ℚ
  deriving DecidableEq

/-- `inactivatedAt + ttl`. -/
def InactiveQuery.expire (q : InactiveQuery) : ℚ := q.inactivatedAt + q.ttl

/-- The loop of `getInactiveQueries` over the client states of a query. -/
def inactivate (queryID : String) : List ClientState → OrderedMap String InactiveQuery → OrderedMap String InactiveQuery
  | [], inactive => inactive
  | clientState :: clientStates, inactive =>
    match clientState.inactivatedAt, inactive.get? queryID with
    -- `break`
    | none, some _ => inactive.erase queryID
    | none, none => inactive
    | some inactivatedAt, existing? =>
      let clampedTTL := clampTTL clientState.ttl
      match existing? with
      | some existing =>
        if clampTTL existing.ttl + existing.inactivatedAt < inactivatedAt + clampedTTL then
          inactivate queryID clientStates (inactive.set queryID { existing with ttl := clampedTTL, inactivatedAt })
        else inactivate queryID clientStates inactive
      | none =>
        inactivate queryID clientStates (inactive.set queryID { hash := queryID, inactivatedAt, ttl := clampedTTL })

/-- The comparator of the sort. -/
def compareInactive (a b : InactiveQuery) : ℚ :=
  if a.ttl = b.ttl then a.inactivatedAt - b.inactivatedAt else a.inactivatedAt + a.ttl - b.inactivatedAt - b.ttl

section
variable {α : Type}

def getInactiveQueries (cvr : ConfigCVR α) : List InactiveQuery :=
  let inactive := cvr.queries.entries.foldl (fun inactive e =>
    if e.2.internal then inactive else inactivate e.1 e.2.clientState.values inactive) ∅
  inactive.values.mergeSort fun a b => compareInactive a b ≤ 0

/-- The loop of `nextEvictionTime`. -/
def nextEvictionLoop : List InactiveQuery → Option ℚ → Option ℚ
  | [], next => next
  | q :: queries, next =>
    let expire := q.inactivatedAt + q.ttl
    match next with
    | none => nextEvictionLoop queries (some expire)
    | some next => nextEvictionLoop queries (some (if expire < next then expire else next))

def nextEvictionTime (cvr : ConfigCVR α) : Option ℚ := nextEvictionLoop (getInactiveQueries cvr) none

/-- The loop of `expired`. -/
def expiredLoop (ttlClock : ℚ) : List ClientState → Bool
  | [] => true
  | clientState :: clientStates =>
    match clientState.inactivatedAt with
    | none => false
    | some inactivatedAt =>
      if inactivatedAt + clampTTL clientState.ttl > ttlClock then false else expiredLoop ttlClock clientStates

def expired (ttlClock : ℚ) (q : ConfigQuery α) : Bool :=
  if q.internal then false else expiredLoop ttlClock q.clientState.values

end

/-! ## The loops over the clients -/

theorem clampTTL_clampTTL (ttl : ℚ) : clampTTL (clampTTL ttl) = clampTTL ttl := by
  have hmax : MAX_TTL_MS = 600000 := by
    rw [MAX_TTL_MS]
    norm_num
  unfold clampTTL parseTTL
  rw [hmax]
  split_ifs <;> simp_all

/-- What is listed of a query after some of its client states. -/
def latest (queryID : String) : List ClientState → Option InactiveQuery → Option InactiveQuery
  | [], existing => existing
  | clientState :: clientStates, existing =>
    match clientState.inactivatedAt, existing with
    | none, _ => none
    | some inactivatedAt, none => latest queryID clientStates (some ⟨queryID, inactivatedAt, clampTTL clientState.ttl⟩)
    | some inactivatedAt, some existing =>
      latest queryID clientStates (some
        (if clampTTL existing.ttl + existing.inactivatedAt < inactivatedAt + clampTTL clientState.ttl then
          { existing with ttl := clampTTL clientState.ttl, inactivatedAt }
        else existing))

theorem get?_inactivate (queryID id : String) (clientStates : List ClientState)
    (inactive : OrderedMap String InactiveQuery) :
    (inactivate queryID clientStates inactive).get? id =
      if queryID = id then latest queryID clientStates (inactive.get? id) else inactive.get? id := by
  induction clientStates generalizing inactive with
  | nil =>
    rw [inactivate, latest]
    split <;> rfl
  | cons clientState clientStates ih =>
    rw [inactivate]
    by_cases hid : queryID = id
    · subst hid
      cases hat : clientState.inactivatedAt with
      | none =>
        cases hget : inactive.get? queryID with
        | none => simp [latest, hat, hget]
        | some existing => simp [latest, hat, OrderedMap.get?_erase]
      | some inactivatedAt =>
        cases hget : inactive.get? queryID with
        | none => simp [latest, hat, ih]
        | some existing =>
          dsimp only
          split
          · next hlt => simp [latest, hat, ih, hlt]
          · next hlt => simp [latest, hat, ih, hlt, hget]
    · rw [if_neg hid]
      cases hat : clientState.inactivatedAt with
      | none =>
        cases hget : inactive.get? queryID with
        | none => rfl
        | some existing => simp [OrderedMap.get?_erase, hid]
      | some inactivatedAt =>
        cases hget : inactive.get? queryID with
        | none => simp [ih, hid, OrderedMap.get?_set_of_ne]
        | some existing =>
          dsimp only
          split
          · simp [ih, hid, OrderedMap.get?_set_of_ne]
          · simp [ih, hid]

/-- The clamped expiry for one client. -/
def ClientState.expire? (s : ClientState) : Option ℚ := s.inactivatedAt.map (· + clampTTL s.ttl)

/-- What is listed is there if all clients have inactivated the query, and is of the client with the latest expiry. -/
theorem latest_spec {queryID : String} (clientStates : List ClientState) {existing : Option InactiveQuery}
    (hexisting : ∀ q ∈ existing, q.hash = queryID ∧ clampTTL q.ttl = q.ttl) :
    ((latest queryID clientStates existing).isSome ↔
      (existing.isSome ∨ clientStates ≠ []) ∧ ∀ s ∈ clientStates, s.inactivatedAt.isSome) ∧
    ∀ q ∈ latest queryID clientStates existing, q.hash = queryID ∧
      (q ∈ existing ∨ ∃ s ∈ clientStates, s.inactivatedAt = some q.inactivatedAt ∧ clampTTL s.ttl = q.ttl) ∧
      (∀ q' ∈ existing, q'.expire ≤ q.expire) ∧ ∀ s ∈ clientStates, ∀ expire ∈ s.expire?, expire ≤ q.expire := by
  induction clientStates generalizing existing with
  | nil =>
    refine ⟨by simp [latest], fun q hq => ?_⟩
    rw [latest] at hq
    refine ⟨(hexisting q hq).1, .inl hq, fun q' hq' => ?_, fun s hs => (by cases hs)⟩
    rw [Option.mem_unique hq hq']
  | cons s clientStates ih =>
    cases hat : s.inactivatedAt with
    | none =>
      refine ⟨?_, fun q hq => ?_⟩
      · simp [latest, hat]
      · simp only [latest, hat] at hq
        cases hq
    | some inactivatedAt =>
      have hs : ∀ expire ∈ s.expire?, expire = inactivatedAt + clampTTL s.ttl := by
        intro expire hexpire
        rw [ClientState.expire?, hat] at hexpire
        exact (Option.some.inj hexpire).symm
      -- what is listed after this client
      obtain ⟨next, hnext, hlatest, hspec⟩ : ∃ next : InactiveQuery, (next.hash = queryID ∧ clampTTL next.ttl = next.ttl) ∧
          latest queryID (s :: clientStates) existing = latest queryID clientStates (some next) ∧
          (next ∈ existing ∨ (inactivatedAt = next.inactivatedAt ∧ clampTTL s.ttl = next.ttl)) ∧
          (∀ q ∈ existing, q.expire ≤ next.expire) ∧ inactivatedAt + clampTTL s.ttl ≤ next.expire := by
        cases existing with
        | none =>
          refine ⟨⟨queryID, inactivatedAt, clampTTL s.ttl⟩, ⟨rfl, clampTTL_clampTTL _⟩, ?_, .inr ⟨rfl, rfl⟩, by simp,
            le_rfl⟩
          simp only [latest, hat]
        | some q =>
          obtain ⟨hhash, hclamp⟩ := hexisting q rfl
          by_cases hlt : clampTTL q.ttl + q.inactivatedAt < inactivatedAt + clampTTL s.ttl
          · refine ⟨{ q with ttl := clampTTL s.ttl, inactivatedAt }, ⟨hhash, clampTTL_clampTTL _⟩, ?_, .inr ⟨rfl, rfl⟩,
              fun q' hq' => ?_, le_rfl⟩
            · simp only [latest, hat, hlt, if_true]
            · rw [← Option.some.inj hq', InactiveQuery.expire, InactiveQuery.expire]
              rw [hclamp] at hlt
              linarith
          · refine ⟨q, ⟨hhash, hclamp⟩, ?_, .inl rfl, fun q' hq' => ?_, ?_⟩
            · simp only [latest, hat, hlt, if_false]
            · rw [← Option.some.inj hq']
            · rw [hclamp] at hlt
              rw [InactiveQuery.expire]
              linarith
      obtain ⟨hfrom, hold, hthis⟩ := hspec
      have hnext' : ∀ q ∈ some next, q.hash = queryID ∧ clampTTL q.ttl = q.ttl := by
        intro q hq
        rw [← Option.some.inj hq]
        exact hnext
      obtain ⟨hsome, hmax⟩ := ih hnext'
      rw [hlatest]
      refine ⟨?_, fun q hq => ?_⟩
      · rw [hsome]
        simp [hat]
      · obtain ⟨hhash, horigin, hnextle, hall⟩ := hmax q hq
        have hle := hnextle next rfl
        refine ⟨hhash, ?_, fun q' hq' => (hold q' hq').trans hle, fun s' hs' expire hexpire => ?_⟩
        · obtain horigin | ⟨s', hs', horigin⟩ := horigin
          · obtain rfl := Option.some.inj horigin
            obtain hfrom | ⟨hfrom, httl⟩ := hfrom
            · exact .inl hfrom
            · exact .inr ⟨s, List.mem_cons_self, by rw [hat, hfrom], httl⟩
          · exact .inr ⟨s', List.mem_cons_of_mem _ hs', horigin⟩
        · obtain rfl | hs' := List.mem_cons.1 hs'
          · rw [hs expire hexpire]
            exact hthis.trans hle
          · exact hall s' hs' expire hexpire

theorem latest_none_spec (queryID : String) (clientStates : List ClientState) :
    ((latest queryID clientStates none).isSome ↔ clientStates ≠ [] ∧ ∀ s ∈ clientStates, s.inactivatedAt.isSome) ∧
    ∀ q ∈ latest queryID clientStates none, q.hash = queryID ∧
      (∃ s ∈ clientStates, s.inactivatedAt = some q.inactivatedAt ∧ clampTTL s.ttl = q.ttl) ∧
      ∀ s ∈ clientStates, ∀ expire ∈ s.expire?, expire ≤ q.expire := by
  have hnone : ∀ q ∈ (none : Option InactiveQuery), q.hash = queryID ∧ clampTTL q.ttl = q.ttl := fun q hq => by cases hq
  obtain ⟨hsome, hspec⟩ := latest_spec clientStates hnone
  refine ⟨by simpa using hsome, fun q hq => ?_⟩
  obtain ⟨hhash, horigin, -, hall⟩ := hspec q hq
  obtain horigin | horigin := horigin
  · cases horigin
  · exact ⟨hhash, horigin, hall⟩

theorem expiredLoop_iff (ttlClock : ℚ) (clientStates : List ClientState) :
    expiredLoop ttlClock clientStates = true ↔
      ∀ s ∈ clientStates, ∃ expire ∈ s.expire?, expire ≤ ttlClock := by
  induction clientStates with
  | nil => simp [expiredLoop]
  | cons s clientStates ih =>
    rw [expiredLoop, List.forall_mem_cons, ← ih]
    cases hat : s.inactivatedAt with
    | none => simp [ClientState.expire?, hat]
    | some inactivatedAt =>
      by_cases hlt : inactivatedAt + clampTTL s.ttl > ttlClock
      · simp [ClientState.expire?, hat, hlt]
      · simp [ClientState.expire?, hat, hlt, not_lt.1 hlt]

/-! ## The list -/

section
variable {α : Type} (cvr : ConfigCVR α)

/-- The entries of the map that `getInactiveQueries` sorts. -/
theorem get?_inactive (id : String) :
    (cvr.queries.entries.foldl (fun inactive e =>
        if e.2.internal then inactive else inactivate e.1 e.2.clientState.values inactive) ∅ :
      OrderedMap String InactiveQuery).get? id =
      (cvr.queries.get? id).bind fun query =>
        if query.internal then none else latest id query.clientState.values none := by
  rw [OrderedMap.get?_foldl (g := fun k query existing =>
    if query.internal then existing else latest k query.clientState.values existing)]
  · cases cvr.queries.get? id with
    | none => rfl
    | some query => rfl
  · intro m e k
    cases e.2.internal with
    | true => simp
    | false =>
      rw [if_neg Bool.false_ne_true, if_neg Bool.false_ne_true, get?_inactivate]
      split
      · next hkey => rw [hkey]
      · rfl

theorem mem_getInactiveQueries {q : InactiveQuery} : q ∈ getInactiveQueries cvr ↔
    ∃ query, cvr.queries.get? q.hash = some query ∧ query.internal = false ∧
      latest q.hash query.clientState.values none = some q := by
  rw [getInactiveQueries, List.mem_mergeSort, OrderedMap.mem_values_iff]
  simp only [get?_inactive, Option.bind_eq_some_iff]
  constructor
  · rintro ⟨id, query, hquery, hlatest⟩
    cases hinternal : query.internal with
    | true => simp [hinternal] at hlatest
    | false =>
      rw [hinternal, if_neg Bool.false_ne_true] at hlatest
      obtain ⟨hhash, -⟩ := (latest_none_spec id query.clientState.values).2 q hlatest
      subst hhash
      exact ⟨query, hquery, hinternal, hlatest⟩
  · rintro ⟨query, hquery, hinternal, hlatest⟩
    exact ⟨q.hash, query, hquery, by rwa [hinternal, if_neg Bool.false_ne_true]⟩

theorem compareInactive_eq (a b : InactiveQuery) : compareInactive a b = a.expire - b.expire := by
  unfold compareInactive InactiveQuery.expire
  split
  · next h =>
    rw [h]
    ring
  · ring

theorem pairwise_getInactiveQueries : (getInactiveQueries cvr).Pairwise fun a b => a.expire ≤ b.expire := by
  have htrans : ∀ a b c : InactiveQuery, decide (compareInactive a b ≤ 0) = true →
      decide (compareInactive b c ≤ 0) = true → decide (compareInactive a c ≤ 0) = true := by
    intro a b c hab hbc
    simp only [compareInactive_eq, decide_eq_true_eq, sub_nonpos] at *
    exact hab.trans hbc
  have htotal : ∀ a b : InactiveQuery, (decide (compareInactive a b ≤ 0) || decide (compareInactive b a ≤ 0)) = true := by
    intro a b
    simp only [compareInactive_eq, Bool.or_eq_true, decide_eq_true_eq, sub_nonpos]
    exact le_total _ _
  refine (List.pairwise_mergeSort htrans htotal _).imp fun {a b} hab => ?_
  simpa [compareInactive_eq] using hab

theorem nodup_getInactiveQueries : ((getInactiveQueries cvr).map (·.hash)).Nodup := by
  rw [getInactiveQueries]
  generalize hinactive : (cvr.queries.entries.foldl (fun inactive e =>
        if e.2.internal then inactive else inactivate e.1 e.2.clientState.values inactive) ∅ :
      OrderedMap String InactiveQuery) = inactive
  have hkeys : inactive.values.map (·.hash) = inactive.keys := by
    rw [OrderedMap.values, OrderedMap.keys, List.map_map]
    refine List.map_congr_left fun e he => ?_
    have hget := (OrderedMap.mem_entries_iff inactive e.1 e.2).1 he
    rw [← hinactive, get?_inactive, Option.bind_eq_some_iff] at hget
    obtain ⟨query, -, hlatest⟩ := hget
    cases hinternal : query.internal with
    | true => simp [hinternal] at hlatest
    | false =>
      rw [hinternal, if_neg Bool.false_ne_true] at hlatest
      exact ((latest_none_spec e.1 query.clientState.values).2 e.2 hlatest).1
  refine ((List.mergeSort_perm _ _).map _).nodup_iff.2 ?_
  rw [hkeys]
  exact inactive.nodup

theorem nextEvictionLoop_spec (queries : List InactiveQuery) (next : Option ℚ) :
    (nextEvictionLoop queries next = none ↔ queries = [] ∧ next = none) ∧
    ∀ least ∈ nextEvictionLoop queries next, (least ∈ next ∨ ∃ q ∈ queries, q.expire = least) ∧
      (∀ e ∈ next, least ≤ e) ∧ ∀ q ∈ queries, least ≤ q.expire := by
  induction queries generalizing next with
  | nil =>
    refine ⟨by simp [nextEvictionLoop], fun least hleast => ⟨.inl hleast, fun e he => ?_, by simp⟩⟩
    rw [Option.mem_unique hleast he]
  | cons q queries ih =>
    obtain ⟨next', hloop, hfrom, hle, hq⟩ : ∃ next',
        nextEvictionLoop (q :: queries) next = nextEvictionLoop queries (some next') ∧
        (next' ∈ next ∨ q.expire = next') ∧ (∀ e ∈ next, next' ≤ e) ∧ next' ≤ q.expire := by
      cases next with
      | none => exact ⟨q.expire, rfl, .inr rfl, by simp, le_rfl⟩
      | some e =>
        rw [nextEvictionLoop]
        refine ⟨_, rfl, ?_⟩
        split
        · next hlt => exact ⟨.inr rfl, fun e' he' => (Option.some.inj he' ▸ hlt.le), le_rfl⟩
        · next hlt => exact ⟨.inl rfl, fun e' he' => (Option.some.inj he' ▸ le_rfl), not_lt.1 hlt⟩
    obtain ⟨hnone, hspec⟩ := ih (some next')
    rw [hloop]
    refine ⟨by simp [hnone], fun least hleast => ?_⟩
    obtain ⟨horigin, hnext, hall⟩ := hspec least hleast
    have hleast' := hnext next' rfl
    refine ⟨?_, fun e he => hleast'.trans (hle e he), List.forall_mem_cons.2 ⟨hleast'.trans hq, hall⟩⟩
    obtain horigin | ⟨q', hq', horigin⟩ := horigin
    · obtain rfl := Option.some.inj horigin
      obtain hfrom | hfrom := hfrom
      · exact .inl hfrom
      · exact .inr ⟨q, List.mem_cons_self, hfrom⟩
    · exact .inr ⟨q', List.mem_cons_of_mem _ hq', horigin⟩

/-- **The inactive queries** are those that all their clients have inactivated, each with the latest expiry, soonest
first; a query has expired when its listed expiry is past, and the next eviction is at the soonest. -/
theorem getInactiveQueries_spec :
    (∀ id query t, cvr.queries.get? id = some query → query.internal = false → query.clientState.values ≠ [] →
      (expired t query = true ↔ ∃ q ∈ getInactiveQueries cvr, q.hash = id ∧ q.inactivatedAt + q.ttl ≤ t)) ∧
    (nextEvictionTime cvr = none ↔ getInactiveQueries cvr = []) ∧
    (∀ next ∈ nextEvictionTime cvr, (∃ q ∈ getInactiveQueries cvr, q.inactivatedAt + q.ttl = next) ∧
      ∀ q ∈ getInactiveQueries cvr, next ≤ q.inactivatedAt + q.ttl) ∧
    (∀ id, (∃ q ∈ getInactiveQueries cvr, q.hash = id) ↔ ∃ query, cvr.queries.get? id = some query ∧
      query.internal = false ∧ query.clientState.values ≠ [] ∧
      ∀ s ∈ query.clientState.values, s.inactivatedAt.isSome) ∧
    ((getInactiveQueries cvr).map (·.hash)).Nodup ∧
    (∀ q ∈ getInactiveQueries cvr, ∀ query, cvr.queries.get? q.hash = some query →
      (∃ s ∈ query.clientState.values, s.inactivatedAt = some q.inactivatedAt ∧ clampTTL s.ttl = q.ttl) ∧
      ∀ s ∈ query.clientState.values, ∀ inactivatedAt, s.inactivatedAt = some inactivatedAt →
        inactivatedAt + clampTTL s.ttl ≤ q.inactivatedAt + q.ttl) ∧
    (getInactiveQueries cvr).Pairwise fun a b => a.inactivatedAt + a.ttl ≤ b.inactivatedAt + b.ttl := by
  have hlisted : ∀ id query, cvr.queries.get? id = some query → query.internal = false →
      query.clientState.values ≠ [] → (∀ s ∈ query.clientState.values, s.inactivatedAt.isSome) →
      ∃ q ∈ getInactiveQueries cvr, q.hash = id := by
    intro id query hquery hinternal hne hall
    obtain ⟨q, hq⟩ := Option.isSome_iff_exists.1 ((latest_none_spec id query.clientState.values).1.2 ⟨hne, hall⟩)
    obtain ⟨hhash, -⟩ := (latest_none_spec id query.clientState.values).2 q hq
    subst hhash
    exact ⟨q, (mem_getInactiveQueries cvr).2 ⟨query, hquery, hinternal, hq⟩, rfl⟩
  have hmem : ∀ q ∈ getInactiveQueries cvr, ∀ query, cvr.queries.get? q.hash = some query → query.internal = false ∧
      latest q.hash query.clientState.values none = some q := by
    intro q hq query hquery
    obtain ⟨query', hquery', h⟩ := (mem_getInactiveQueries cvr).1 hq
    obtain rfl := Option.some.inj (hquery.symm.trans hquery')
    exact h
  obtain ⟨hnone, hnext⟩ := nextEvictionLoop_spec (getInactiveQueries cvr) none
  refine ⟨fun id query t hquery hinternal hne => ?_, hnone.trans (by simp), fun next hmin => ?_, fun id => ⟨?_, ?_⟩,
    nodup_getInactiveQueries cvr, fun q hq query hquery => ?_, pairwise_getInactiveQueries cvr⟩
  · rw [expired, hinternal, if_neg Bool.false_ne_true, expiredLoop_iff]
    constructor
    · intro hexpired
      have hall : ∀ s ∈ query.clientState.values, s.inactivatedAt.isSome := by
        intro s hs
        obtain ⟨expire, hexpire, -⟩ := hexpired s hs
        obtain ⟨inactivatedAt, hat, -⟩ := Option.map_eq_some_iff.1 hexpire
        rw [hat]
        rfl
      obtain ⟨q, hq, rfl⟩ := hlisted id query hquery hinternal hne hall
      refine ⟨q, hq, rfl, ?_⟩
      obtain ⟨-, ⟨s, hs, hat, httl⟩, -⟩ := (latest_none_spec _ _).2 q (hmem q hq query hquery).2
      obtain ⟨expire, hexpire, hle⟩ := hexpired s hs
      rw [ClientState.expire?, hat, httl] at hexpire
      rwa [← Option.some.inj hexpire] at hle
    · intro ⟨q, hq, hid, hle⟩ s hs
      subst hid
      have hlatest := (hmem q hq query hquery).2
      obtain ⟨-, hall⟩ := (latest_none_spec q.hash query.clientState.values).1.1 (by rw [hlatest]; rfl)
      obtain ⟨inactivatedAt, hat⟩ := Option.isSome_iff_exists.1 (hall s hs)
      have hexpire : s.expire? = some (inactivatedAt + clampTTL s.ttl) := by rw [ClientState.expire?, hat]; rfl
      exact ⟨_, hexpire, (((latest_none_spec _ _).2 q hlatest).2.2 s hs _ hexpire).trans hle⟩
  · obtain ⟨horigin | horigin, -, hall⟩ := hnext next hmin
    · cases horigin
    · exact ⟨horigin, hall⟩
  · intro ⟨q, hq, hid⟩
    subst hid
    obtain ⟨query, hquery, hinternal, hlatest⟩ := (mem_getInactiveQueries cvr).1 hq
    obtain ⟨hne, hall⟩ := (latest_none_spec q.hash query.clientState.values).1.1 (by rw [hlatest]; rfl)
    exact ⟨query, hquery, hinternal, hne, hall⟩
  · intro ⟨query, hquery, hinternal, hne, hall⟩
    exact hlisted id query hquery hinternal hne hall
  · obtain ⟨-, horigin, hall⟩ := (latest_none_spec _ _).2 q (hmem q hq query hquery).2
    refine ⟨horigin, fun s hs inactivatedAt hat => hall s hs _ ?_⟩
    rw [ClientState.expire?, hat]
    rfl

end

end ZeroSync
