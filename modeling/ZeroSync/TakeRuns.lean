/-
Runs of a Take: partitions are hydrated by fetches and kept by pushes.

A run tracks the rows of the input, the operator, and what the output holds
of each hydrated partition: the rows it was first given, with the changes
emitted since applied to them. In every state reached the output holds the
first `limit` rows of the partition, no push fails, and at each change handed
over a fetch sees what the output then holds.
-/
import ZeroSync.TakePush

namespace ZeroSync

open SortedList

namespace Take

/-! ## Partitions -/

/-- The rows of a partition. -/
def partitionRows (partitionKey : Option (List String)) (key : TakeStateKey) (rows : List Row) : List Row :=
  rows.filter fun r => getTakeStateKey partitionKey r = key

/-- The constraint is one a partition is fetched with: it names the columns of
the partition key and, as `buildJoinConstraint` sees to, no null. -/
structure NamesPartition (partitionKey : Option (List String)) (constraint : Option Constraint) : Prop where
  matches_key : constraintMatchesPartitionKey constraint partitionKey = true
  columns : ∀ c, constraint = some c → ∀ e ∈ c.entries, e.1 ∈ partitionKey.getD []
  not_null : ∀ c, constraint = some c → ∀ e ∈ c.entries, e.2 ≠ .undefined ∧ e.2 ≠ .null

/-- No value of the key is null. -/
def NotNull (key : TakeStateKey) : Prop := ∀ v ∈ key, v ≠ .null

theorem normalizeUndefined_of_ne {v : Value} (h : v ≠ .undefined) : normalizeUndefined v = v := by
  cases v <;> simp_all [normalizeUndefined]

theorem valuesEqual_iff_normalize {v w : Value} (h₁ : w ≠ .undefined) (h₂ : w ≠ .null) :
    valuesEqual v w = true ↔ normalizeUndefined v = w := by
  rw [valuesEqual_iff]
  cases v <;> cases w <;> simp_all [normalizeUndefined]

section
variable {partitionKey : Option (List String)} {constraint : Option Constraint}

theorem namesPartition_none : NamesPartition none none where
  matches_key := rfl
  columns _ h := nomatch h
  not_null _ h := nomatch h

theorem NamesPartition.get (h : NamesPartition partitionKey constraint) {column : String}
    (hmem : column ∈ partitionKey.getD []) :
    ∃ c v, constraint = some c ∧ (column, v) ∈ c.entries ∧ Constraint.read constraint column = v := by
  have hm := h.matches_key
  cases partitionKey with
  | none => simp at hmem
  | some keys =>
    cases constraint with
    | none => simp [constraintMatchesPartitionKey] at hm
    | some c =>
      simp only [constraintMatchesPartitionKey, Bool.and_eq_true, List.all_eq_true] at hm
      obtain ⟨v, hv⟩ := Option.isSome_iff_exists.mp (hm.2 _ hmem)
      exact ⟨c, v, rfl, (OrderedMap.mem_entries_iff ..).mpr hv, by simp [Constraint.read, hv]⟩

theorem NamesPartition.matches_iff (h : NamesPartition partitionKey constraint) (r : Row) :
    constraint.all (constraintMatchesRow · r) = true ↔
      getTakeStateKey partitionKey r = getTakeStateKey partitionKey (Constraint.read constraint) := by
  simp only [getTakeStateKey, List.map_inj_left]
  constructor
  · intro hr column hmem
    obtain ⟨c, v, rfl, hv, hread⟩ := h.get hmem
    obtain ⟨hn₁, hn₂⟩ := h.not_null c rfl _ hv
    rw [Option.all_some, constraintMatchesRow, List.all_eq_true] at hr
    rw [hread, normalizeUndefined_of_ne hn₁]
    exact (valuesEqual_iff_normalize hn₁ hn₂).mp (hr _ hv)
  · intro hr
    cases hc : constraint with
    | none => rfl
    | some c =>
    rw [Option.all_some, constraintMatchesRow, List.all_eq_true]
    rintro ⟨column, v⟩ hv
    obtain ⟨hn₁, hn₂⟩ := h.not_null c hc _ hv
    have hcol := hr column (h.columns c hc _ hv)
    rw [hc, Constraint.read, Option.bind_some, (OrderedMap.mem_entries_iff ..).mp hv] at hcol
    refine (valuesEqual_iff_normalize hn₁ hn₂).mpr ?_
    rw [hcol, Option.getD_some, normalizeUndefined_of_ne hn₁]

theorem NamesPartition.notNull (h : NamesPartition partitionKey constraint) :
    NotNull (getTakeStateKey partitionKey (Constraint.read constraint)) := by
  intro v hv
  obtain ⟨column, hmem, rfl⟩ := List.mem_map.mp hv
  obtain ⟨c, v, rfl, hv, hread⟩ := h.get hmem
  obtain ⟨hn₁, hn₂⟩ := h.not_null c rfl _ hv
  rwa [hread, normalizeUndefined_of_ne hn₁]

theorem partitionConstraint_matches_iff {r : Row} (hr : NotNull (getTakeStateKey partitionKey r)) (r' : Row) :
    (partitionConstraint partitionKey r).all (constraintMatchesRow · r') = true ↔
      getTakeStateKey partitionKey r' = getTakeStateKey partitionKey r := by
  cases partitionKey with
  | none => simp [partitionConstraint, getTakeStateKey]
  | some keys =>
    have hnull : ∀ key ∈ keys, r key ≠ .undefined ∧ r key ≠ .null := fun key hkey => by
      have := hr _ (List.mem_map_of_mem hkey)
      cases hv : r key <;> simp_all [normalizeUndefined]
    simp only [partitionConstraint, Option.map_some, Option.all_some, constraintMatchesRow, List.all_eq_true,
      getTakeStateKey, Option.getD_some, List.map_inj_left]
    constructor
    · intro h key hkey
      obtain ⟨hn₁, hn₂⟩ := hnull key hkey
      rw [(valuesEqual_iff_normalize hn₁ hn₂).mp (h (key, r key) ((OrderedMap.mem_entries_ofList_map ..).mpr ⟨hkey, rfl⟩)),
        normalizeUndefined_of_ne hn₁]
    · rintro h ⟨key, v⟩ he
      obtain ⟨hkey, rfl⟩ := (OrderedMap.mem_entries_ofList_map ..).mp he
      obtain ⟨hn₁, hn₂⟩ := hnull key hkey
      rw [valuesEqual_iff_normalize hn₁ hn₂, h key hkey, normalizeUndefined_of_ne hn₁]

theorem answers_of_reflects {cmp : Comparator} {input : Input} {rows : List Row} {key : TakeStateKey}
    (hr : input.Reflects cmp rows)
    (hc : ∀ r, constraint.all (constraintMatchesRow · r) = true ↔ getTakeStateKey partitionKey r = key) :
    Answers cmp input constraint (partitionRows partitionKey key rows) := by
  intro start reverse
  have hp : ∀ r, (FetchRequest.admits cmp { constraint, start, reverse } r) =
      (decide (getTakeStateKey partitionKey r = key) && start.all fun s => s.admits (directed cmp reverse) r) := by
    intro r
    rw [FetchRequest.admits, FetchRequest.matches, Bool.eq_iff_iff]
    simp only [List.all_nil, Bool.and_true, Bool.and_eq_true, decide_eq_true_eq, hc]
  rw [hr, FetchRequest.order, List.filter_congr fun r _ => hp r]
  cases reverse
  · simp [partitionRows, List.filter_filter, Bool.and_comm]
  · simp [partitionRows, List.filter_filter, Bool.and_comm, List.filter_reverse]

end

/-! ## Runs -/

/-- The rows of the input, the operator, and what its output holds of each
partition hydrated. -/
structure TakeRun where
  rows : List Row
  take : Take
  held : TakeStateKey → Option (List Row)

/-- A change pushed into a Take: it applies to the rows of the input, whose
sort tells its rows apart, keeps the partition of an edited row, and the
input's fetches reflect it. -/
structure Pushes (s : TakeRun) (input : Input) (change : Change) (rows' : List Row) : Prop where
  applies : change.delta.Applies s.rows rows'
  sorted : Sorted s.take.compareRows rows'
  reflects : input.Reflects s.take.compareRows rows'
  partition : ∀ n o, change = .edit n o →
    getTakeStateKey s.take.partitionKey o.row = getTakeStateKey s.take.partitionKey n.row

/-- The partition a change is about. -/
abbrev TakeRun.keyOf (s : TakeRun) (change : Change) : TakeStateKey :=
  getTakeStateKey s.take.partitionKey change.node.row

/-- The states reached by hydrating partitions and pushing changes, in any order. -/
inductive Reached (limit : ℕ) (partitionKey : Option (List String)) (sort : SortOrder) : TakeRun → Prop
  | start {rows} : Sorted (makeComparator sort) rows →
      Reached limit partitionKey sort ⟨rows, { limit, partitionKey, compareRows := makeComparator sort }, fun _ => none⟩
  | hydrate {s input constraint nodes take'} : Reached limit partitionKey sort s →
      input.Reflects s.take.compareRows s.rows → NamesPartition s.take.partitionKey constraint →
      s.held (getTakeStateKey s.take.partitionKey (Constraint.read constraint)) = none →
      s.take.fetch input { constraint } = .ok (nodes, take') →
      Reached limit partitionKey sort ⟨s.rows, take', fun key =>
        if key = getTakeStateKey s.take.partitionKey (Constraint.read constraint) then some (nodes.map (·.row))
        else s.held key⟩
  | push {s input change rows' emitted take' held'} : Reached limit partitionKey sort s →
      Pushes s input change rows' → s.take.push input change = .ok (emitted, take') →
      (∀ key, Option.Rel (Applied (fun _ _ => True) (if key = s.keyOf change then deltas emitted else []))
        (s.held key) (held' key)) →
      Reached limit partitionKey sort ⟨rows', take', held'⟩

/-- The output holds the first `limit` rows of the partition, and the take state describes them. -/
structure Keeps (s : TakeRun) (key : TakeStateKey) (held : List Row) : Prop where
  notNull : NotNull key
  held : held.Perm ((partitionRows s.take.partitionKey key s.rows).take s.take.limit)
  state : ∃ state, s.take.states key = some state ∧
    Describes s.take.limit s.take.compareRows (partitionRows s.take.partitionKey key s.rows) state

/-- What every state reached satisfies. -/
structure Inv (limit : ℕ) (partitionKey : Option (List String)) (sort : SortOrder) (s : TakeRun) : Prop where
  limit : s.take.limit = limit
  partitionKey : s.take.partitionKey = partitionKey
  compareRows : s.take.compareRows = makeComparator sort
  hidden : s.take.rowHiddenFromFetch = none
  sorted : Sorted (makeComparator sort) s.rows
  keeps : ∀ key held, s.held key = some held → Keeps s key held
  unheld : ∀ key, s.held key = none → s.take.states key = none

/-! ## A step of a run -/

section
variable {limit : ℕ} {partitionKey : Option (List String)} {sort : SortOrder} {s : TakeRun} {input : Input}
  {change : Change} {rows' : List Row}

theorem Inv.transCmp (h : Inv limit partitionKey sort s) : Std.TransCmp s.take.compareRows := by
  rw [h.compareRows]
  infer_instance

theorem Pushes.names (h : Pushes s input change rows') :
    ∀ r ∈ change.delta.names, getTakeStateKey s.take.partitionKey r = s.keyOf change := by
  cases change <;> simp only [Change.delta, Delta.names, List.mem_cons, List.not_mem_nil, or_false]
  case edit n o =>
    rintro r (rfl | rfl)
    · rfl
    · exact h.partition _ _ rfl
  all_goals
    rintro r rfl
    rfl

theorem Pushes.applies_partition (h : Pushes s input change rows') : change.delta.Applies
    (partitionRows s.take.partitionKey (s.keyOf change) s.rows)
    (partitionRows s.take.partitionKey (s.keyOf change) rows') :=
  h.applies.filter fun r hr => by simpa using h.names r hr

theorem Pushes.other_partition (h : Pushes s input change rows') (hs : Sorted s.take.compareRows s.rows)
    [Std.TransCmp s.take.compareRows] {key : TakeStateKey} (hkey : key ≠ s.keyOf change) :
    partitionRows s.take.partitionKey key rows' = partitionRows s.take.partitionKey key s.rows := by
  refine Sorted.eq_of_perm (h.sorted.filter _) (hs.filter _) (h.applies.filter_of_not fun r hr => ?_)
  simpa [h.names r hr] using hkey.symm

theorem push_unhydrated (h : Pushes s input change rows') (hstate : s.take.states (s.keyOf change) = none) :
    s.take.push input change = .ok ([], s.take) := by
  cases change with
  | edit n o =>
    have hkey := h.partition n o rfl
    rw [TakeRun.keyOf, Change.node, ← hkey] at hstate
    rw [push, pushEditChange, hstate, if_neg]
    cases hpk : s.take.partitionKey with
    | none => simp
    | some keys =>
      rw [hpk] at hkey
      simpa using makePartitionKeyComparator_eq_iff.mpr hkey
  | _ => simp only [push, hstate]

/-- **Step.** A push never fails; a partition not hydrated is left alone, one that is settles. -/
theorem Inv.push (hlimit : 1 ≤ limit) (hinv : Inv limit partitionKey sort s) (h : Pushes s input change rows') :
    ∃ pushed, s.take.push input change = .ok pushed ∧
      (s.held (s.keyOf change) = none ∧ pushed = ([], s.take) ∨
        (∃ held, s.held (s.keyOf change) = some held) ∧ Settled s.take (s.keyOf change)
          (partitionRows s.take.partitionKey (s.keyOf change) s.rows)
          (partitionRows s.take.partitionKey (s.keyOf change) rows') pushed) := by
  have := hinv.transCmp
  cases hheld : s.held (s.keyOf change) with
  | none => exact ⟨_, push_unhydrated h (hinv.unheld _ hheld), .inl ⟨rfl, rfl⟩⟩
  | some held =>
    obtain ⟨hnull, -, state, hstate, hdesc⟩ := hinv.keeps _ _ hheld
    have hs : Sorted s.take.compareRows s.rows := hinv.compareRows ▸ hinv.sorted
    have hans : ∀ r, getTakeStateKey s.take.partitionKey r = s.keyOf change →
        Answers s.take.compareRows input (partitionConstraint s.take.partitionKey r)
          (partitionRows s.take.partitionKey (s.keyOf change) rows') := fun r hr =>
      answers_of_reflects h.reflects fun r' => by
        rw [partitionConstraint_matches_iff (hr ▸ hnull), hr]
    obtain ⟨pushed, hok, hset⟩ := push_settled (hinv.limit ▸ hlimit) hinv.hidden (hs.filter _) (h.sorted.filter _)
      hdesc rfl hstate hans h.applies_partition fun n o he => he ▸ h.partition n o he
    exact ⟨pushed, hok, .inr ⟨⟨held, rfl⟩, hset⟩⟩

/-! ## Every state reached -/

theorem NamesPartition.guard {constraint : Option Constraint} (h : NamesPartition partitionKey constraint) :
    (partitionKey.isNone || (constraint.isSome && constraintMatchesPartitionKey constraint partitionKey)) = true := by
  have hm := h.matches_key
  cases partitionKey <;> cases constraint <;> simp_all [constraintMatchesPartitionKey]

theorem Inv.hydrate {constraint : Option Constraint} {nodes : List Node} {take' : Take} (hlimit : 1 ≤ limit)
    (hinv : Inv limit partitionKey sort s) (hr : input.Reflects s.take.compareRows s.rows)
    (hn : NamesPartition s.take.partitionKey constraint)
    (hheld : s.held (getTakeStateKey s.take.partitionKey (Constraint.read constraint)) = none)
    (hok : s.take.fetch input { constraint } = .ok (nodes, take')) :
    Inv limit partitionKey sort ⟨s.rows, take', fun key =>
      if key = getTakeStateKey s.take.partitionKey (Constraint.read constraint) then some (nodes.map (·.row))
      else s.held key⟩ := by
  have := hinv.transCmp
  have hans := answers_of_reflects hr hn.matches_iff
  have hpos : s.take.limit ≠ 0 := by rw [hinv.limit]; omega
  rw [fetch, if_pos hn.guard] at hok
  generalize hkey : getTakeStateKey s.take.partitionKey (Constraint.read constraint) = key at hheld hok hans ⊢
  have hstate := hinv.unheld _ hheld
  simp only [hstate, initialFetch, Option.isSome_none, Bool.false_eq_true, if_false, hpos, hn.matches_key, hkey,
    Bool.not_true, Except.ok.injEq, Prod.mk.injEq] at hok
  obtain ⟨hnodes, rfl⟩ := hok
  have hrows : nodes.map (·.row) = (partitionRows s.take.partitionKey key s.rows).take s.take.limit := by
    have h := hans none false
    simp only [Option.all_none, List.filter_true, Bool.false_eq_true, if_false] at h
    rw [← hnodes, List.map_take, h]
  refine ⟨hinv.limit, hinv.partitionKey, hinv.compareRows, hinv.hidden, hinv.sorted, fun k held hk => ?_,
    fun k hk => ?_⟩
  · by_cases hkk : k = key
    · subst hkk
      simp only [if_pos, Option.some.injEq] at hk
      subst hk
      refine ⟨hkey ▸ hn.notNull, .of_eq hrows, _, setTakeState_self .., ?_, ?_⟩
      · change _ = ((List.take s.take.limit (partitionRows s.take.partitionKey k s.rows)).length : ℤ)
        rw [← hrows, hnodes, List.length_map]
      · change Option.Rel _ (List.take s.take.limit (partitionRows s.take.partitionKey k s.rows)).getLast? _
        rw [← hrows, hnodes, List.getLast?_map]
        cases nodes.getLast? with
        | none => exact .none
        | some n =>
          have hself : s.take.compareRows n.row n.row = .eq := Std.ReflCmp.compare_self
          exact .some hself
    · change (if k = key then _ else s.held k) = some held at hk
      rw [if_neg hkk] at hk
      obtain ⟨hnull, hheld, state, hst, hdesc⟩ := hinv.keeps _ _ hk
      exact ⟨hnull, hheld, state, (setTakeState_of_ne _ _ _ _ _ hkk).trans hst, hdesc⟩
  · change (if k = key then _ else s.held k) = none at hk
    by_cases hkk : k = key
    · rw [if_pos hkk] at hk
      cases hk
    · rw [if_neg hkk] at hk
      exact (setTakeState_of_ne _ _ _ _ _ hkk).trans (hinv.unheld _ hk)

theorem Inv.pushed {emitted : List (Change × Take)} {take' : Take} {held' : TakeStateKey → Option (List Row)}
    (hlimit : 1 ≤ limit) (hinv : Inv limit partitionKey sort s) (h : Pushes s input change rows')
    (hok : s.take.push input change = .ok (emitted, take'))
    (hheld : ∀ key, Option.Rel (Applied (fun _ _ => True) (if key = s.keyOf change then deltas emitted else []))
      (s.held key) (held' key)) : Inv limit partitionKey sort ⟨rows', take', held'⟩ := by
  have := hinv.transCmp
  have hs : Sorted s.take.compareRows s.rows := hinv.compareRows ▸ hinv.sorted
  have hs' : Sorted (makeComparator sort) rows' := hinv.compareRows ▸ h.sorted
  obtain ⟨pushed, hok', hcases⟩ := hinv.push hlimit h
  obtain rfl : (emitted, take') = pushed := by simpa [hok] using hok'
  -- Only the states and `maxBound` of the operator change, and only the changed partition's state.
  have hfixed : take' = { s.take with states := take'.states, maxBound := take'.maxBound } := by
    rcases hcases with ⟨-, heq⟩ | ⟨-, hset⟩
    · cases heq; rfl
    · exact hset.fixed
  have hothers : ∀ key, key ≠ s.keyOf change → take'.states key = s.take.states key := by
    rcases hcases with ⟨-, heq⟩ | ⟨-, hset⟩
    · cases heq; exact fun _ _ => rfl
    · exact hset.others
  have hlim : take'.limit = s.take.limit := by rw [hfixed]
  have hkey : take'.partitionKey = s.take.partitionKey := by rw [hfixed]
  have hcmp : take'.compareRows = s.take.compareRows := by rw [hfixed]
  have hhid : take'.rowHiddenFromFetch = s.take.rowHiddenFromFetch := by rw [hfixed]
  refine ⟨hlim.trans hinv.limit, hkey.trans hinv.partitionKey, hcmp.trans hinv.compareRows, hhid.trans hinv.hidden,
    hs', fun key held hk => ?_, fun key hk => ?_⟩
  · have hrel := hheld key
    change held' key = some held at hk
    rw [hk] at hrel
    cases hold : s.held key with
    | none => rw [hold] at hrel; cases hrel
    | some old =>
    rw [hold, Option.rel_some_some] at hrel
    obtain ⟨hnull, hperm, state, hstate, hdesc⟩ := hinv.keeps _ _ hold
    by_cases hkc : key = s.keyOf change
    · subst hkc
      rw [if_pos rfl] at hrel
      rcases hcases with ⟨hnone, -⟩ | ⟨-, hset⟩
      · rw [hold] at hnone; cases hnone
      · obtain ⟨state', hstate', hdesc'⟩ := hset.state
        have hemits := hset.emits
        refine ⟨hnull, ?_, state', hstate', ?_⟩
        · rw [hlim, hkey]
          exact hrel.det hemits rfl hperm
        · rw [hlim, hkey, hcmp]
          exact hdesc'
    · rw [if_neg hkc] at hrel
      have hrows := h.other_partition hs hkc
      refine ⟨hnull, ?_, state, (hothers _ hkc).trans hstate, ?_⟩
      · rw [hlim, hkey, hrows]
        cases hrel with
        | nil hp => exact hp.trans hperm
      · rw [hlim, hkey, hcmp, hrows]
        exact hdesc
  · have hrel := hheld key
    change held' key = none at hk
    rw [hk] at hrel
    have hold : s.held key = none := by
      cases hold : s.held key with
      | none => rfl
      | some _ => rw [hold] at hrel; cases hrel
    by_cases hkc : key = s.keyOf change
    · subst hkc
      rcases hcases with ⟨-, heq⟩ | ⟨⟨_, hsome⟩, -⟩
      · cases heq; exact hinv.unheld _ hold
      · rw [hold] at hsome; cases hsome
    · exact (hothers _ hkc).trans (hinv.unheld _ hold)

/-- **Every state reached satisfies the invariant.** -/
theorem Reached.inv (hlimit : 1 ≤ limit) (h : Reached limit partitionKey sort s) : Inv limit partitionKey sort s := by
  induction h with
  | start hs => exact ⟨rfl, rfl, rfl, rfl, hs, (fun _ _ h => by cases h), fun _ _ => rfl⟩
  | hydrate _ hr hn hheld hok ih => exact ih.hydrate hlimit hr hn hheld hok
  | push _ hp hok hheld ih => exact ih.pushed hlimit hp hok hheld

theorem Shows.fetch {t t' : Take} [Std.TransCmp t.compareRows] {constraint : Option Constraint}
    {key : TakeStateKey} {rows shown : List Row} (h : Shows t key rows t' shown) (hs : Sorted t.compareRows rows)
    (hans : Answers t.compareRows input constraint rows) (hn : NamesPartition t.partitionKey constraint)
    (hkey : getTakeStateKey t.partitionKey (Constraint.read constraint) = key) :
    ∃ nodes, t'.fetch input { constraint } = .ok (nodes, t') ∧ (nodes.map (·.row)).Perm shown := by
  obtain ⟨hfixed, ⟨state, hstate, hperm⟩, -⟩ := h
  have hpk : t'.partitionKey = t.partitionKey := by rw [hfixed]
  have hcmp : t'.compareRows = t.compareRows := by rw [hfixed]
  have hrows := hans none false
  simp only [Option.all_none, List.filter_true, Bool.false_eq_true, if_false] at hrows
  rw [Take.fetch, hpk, if_pos hn.guard, hkey, hstate, hcmp]
  cases hb : state.bound with
  | none =>
    rw [visible, hb] at hperm
    obtain ⟨size, bound⟩ := state
    obtain rfl : bound = none := hb
    exact ⟨[], rfl, hperm.symm⟩
  | some b =>
    rw [visible, hb] at hperm
    obtain ⟨size, bound⟩ := state
    obtain rfl : bound = some b := hb
    refine ⟨_, rfl, .trans (.of_eq ?_) hperm.symm⟩
    have hle : ∀ r, decide (t.compareRows b r ≠ .lt) = (t.compareRows r b).isLE := fun r => by
      have hswap : t.compareRows b r = (t.compareRows r b).swap := Std.OrientedCmp.eq_swap
      rw [hswap]
      cases t.compareRows r b <;> rfl
    simp only [hle]
    rw [← hs.takeWhile_eq_below, ← hrows, List.takeWhile_map, List.filter_map]
    rfl

/-! ## What the output holds -/

/-- **The output of a Take holds the first `limit` rows of every hydrated
partition**, and the take state their number and a row that compares equal to
the last of them. No push fails, and none takes the output past the limit on
the way. -/
theorem reached_holds_limit (hlimit : 1 ≤ limit) (h : Reached limit partitionKey sort s) :
    (∀ key held, s.held key = some held →
      held.Perm ((partitionRows partitionKey key s.rows).take limit) ∧
      ∃ state, s.take.states key = some state ∧
        state.size = (min limit (partitionRows partitionKey key s.rows).length : ℕ) ∧
        Option.Rel (fun last bound => makeComparator sort last bound = .eq)
          ((partitionRows partitionKey key s.rows).take limit).getLast? state.bound) ∧
    ∀ input change rows', Pushes s input change rows' →
      ∃ emitted take', s.take.push input change = .ok (emitted, take') ∧
        (s.held (s.keyOf change) = none → emitted = []) ∧
        ∀ held, s.held (s.keyOf change) = some held →
          ∃ held', Applied (fun _ shown => shown.length ≤ limit) (deltas emitted) held held' ∧
            held'.Perm ((partitionRows partitionKey (s.keyOf change) rows').take limit) := by
  have hinv := h.inv hlimit
  refine ⟨fun key held hk => ?_, fun input change rows' hp => ?_⟩
  · obtain ⟨-, hperm, state, hstate, hdesc⟩ := hinv.keeps _ _ hk
    rw [hinv.limit, hinv.partitionKey] at hperm hdesc
    rw [hinv.compareRows] at hdesc
    exact ⟨hperm, state, hstate, by rw [hdesc.size, List.length_take], hdesc.bound⟩
  · obtain ⟨⟨emitted, take'⟩, hok, hcases⟩ := hinv.push hlimit hp
    refine ⟨emitted, take', hok, fun hnone => ?_, fun held hheld => ?_⟩
    · rcases hcases with ⟨-, heq⟩ | ⟨⟨_, hsome⟩, -⟩
      · exact (Prod.mk.inj heq).1
      · rw [hnone] at hsome; cases hsome
    · rcases hcases with ⟨hnone, -⟩ | ⟨-, hset⟩
      · rw [hnone] at hheld; cases hheld
      · have hperm := (hinv.keeps _ _ hheld).held
        refine ⟨_, (hset.emits.imp fun e _ k hshows => ?_).congr hperm (.refl _), ?_⟩
        · exact hinv.limit ▸ hshows.length
        · rw [hinv.limit, hinv.partitionKey]

/-- In this state of the operator a fetch of the partition returns the rows held. -/
def FetchSees (input : Input) (key : TakeStateKey) (t : Take) (held : List Row) : Prop :=
  ∀ constraint, NamesPartition t.partitionKey constraint →
    getTakeStateKey t.partitionKey (Constraint.read constraint) = key →
    ∃ nodes, t.fetch input { constraint } = .ok (nodes, t) ∧ (nodes.map (·.row)).Perm held

/-- **A fetch made while a change is handed over sees what the output then
holds.** While the REMOVE of a REMOVE and ADD is handed over it sees neither
the row removed nor the row to be added. -/
theorem reached_fetch_sees {held : List Row} {emitted : List (Change × Take)} {take' : Take} (hlimit : 1 ≤ limit)
    (h : Reached limit partitionKey sort s) (hp : Pushes s input change rows')
    (hok : s.take.push input change = .ok (emitted, take')) (hheld : s.held (s.keyOf change) = some held) :
    (∃ held', Applied (FetchSees input (s.keyOf change)) (deltas emitted) held held') ∧
    ∀ removed added t₁ t₂, emitted = [(.remove removed, t₁), (.add added, t₂)] →
      ∀ constraint, NamesPartition t₁.partitionKey constraint →
        getTakeStateKey t₁.partitionKey (Constraint.read constraint) = s.keyOf change →
        ∃ nodes, t₁.fetch input { constraint } = .ok (nodes, t₁) ∧
          removed.row ∉ nodes.map (·.row) ∧ added.row ∉ nodes.map (·.row) := by
  have hinv := h.inv hlimit
  have := hinv.transCmp
  have hperm := (hinv.keeps _ _ hheld).held
  have hs : Sorted s.take.compareRows s.rows := hinv.compareRows ▸ hinv.sorted
  have hsorted : Sorted s.take.compareRows ((partitionRows s.take.partitionKey (s.keyOf change) s.rows).take
      s.take.limit) := (hs.filter _).sublist (List.take_sublist ..)
  have hnodup : held.Nodup := hperm.nodup_iff.mpr hsorted.nodup
  obtain ⟨pushed, hok', hcases⟩ := hinv.push hlimit hp
  obtain rfl : (emitted, take') = pushed := by simpa [hok] using hok'
  have hset := (hcases.resolve_left fun hnone => by rw [hheld] at hnone; cases hnone.1).2
  have hsees : Applied (FetchSees input (s.keyOf change)) (deltas emitted) held
      ((partitionRows s.take.partitionKey (s.keyOf change) rows').take s.take.limit) := by
    refine (hset.emits.imp fun e _ k hshows => ?_).congr hperm (.refl _)
    intro constraint hn hkey
    have hpk : e.2.partitionKey = s.take.partitionKey := by rw [hshows.fixed]
    rw [hpk] at hn hkey
    exact hshows.fetch (hp.sorted.filter _) (answers_of_reflects hp.reflects (hkey ▸ hn.matches_iff)) hn hkey
  refine ⟨⟨_, hsees⟩, ?_⟩
  rintro removed added t₁ t₂ rfl constraint hn hkey
  cases hsees with
  | cons hremove hq hrest =>
  obtain ⟨nodes, hfetch, hnodes⟩ := hq constraint hn hkey
  refine ⟨nodes, hfetch, fun hmem => ?_, fun hmem => ?_⟩
  · exact (List.nodup_cons.mp (hremove.nodup_iff.mp hnodup)).1 (hnodes.subset hmem)
  · cases hrest with
    | cons hadd _ _ => exact hadd.1 (hnodes.subset hmem)

end

/-! ## An edit in place

The row taken is edited in a column the sort does not read. -/

/-- The row with key 1 and this priority. -/
def issue (priority : ℚ) : Row
  | "id" => .num 1
  | "priority" => .num priority
  | _ => .undefined

/-- Issues by key. -/
def issueSchema : SourceSchema where
  tableName := "issue"
  primaryKey := ["id"]
  sort := some [("id", .asc)]
  compareRows := makeComparator [("id", .asc)]

theorem issue_eq (a b : ℚ) : makeComparator [("id", .asc)] (issue a) (issue b) = .eq := by
  rw [makeComparator_eq_iff]
  simp [issue, compareValues_eq_iff]

theorem issue_ne : issue 1 ≠ issue 0 := fun h => by
  have := congrFun h "priority"
  simp [issue] at this

/-- A run that hydrates the one row. -/
def hydrated : TakeRun where
  rows := [issue 0]
  take := { limit := 1, partitionKey := none, compareRows := makeComparator [("id", .asc)]
            states := fun key => if key = [] then some ⟨1, some (issue 0)⟩ else none
            maxBound := some (issue 0) }
  held key := if key = [] then some [issue 0] else none

theorem fetch_hydrates : Take.fetch { limit := 1, partitionKey := none, compareRows := makeComparator [("id", .asc)] }
    (Input.ofRows issueSchema [issue 0]) { constraint := none } = .ok ([.ofRow (issue 0)], hydrated.take) := rfl

theorem reached_hydrated : Reached 1 none [("id", .asc)] hydrated :=
  .hydrate (.start (List.pairwise_singleton _ _)) (Input.reflects_ofRows issueSchema [issue 0])
    namesPartition_none rfl fetch_hydrates

theorem pushes_edit : Pushes hydrated (Input.ofRows issueSchema [issue 1])
    (.edit (.ofRow (issue 1)) (.ofRow (issue 0))) [issue 1] where
  applies := ⟨[], .refl _, .refl _⟩
  sorted := List.pairwise_singleton _ _
  reflects := Input.reflects_ofRows issueSchema [issue 1]
  partition n o h := by cases h; rfl

theorem push_edit : hydrated.take.push (Input.ofRows issueSchema [issue 1])
    (.edit (.ofRow (issue 1)) (.ofRow (issue 0))) =
      .ok ([(.edit (.ofRow (issue 1)) (.ofRow (issue 0)), hydrated.take)], hydrated.take) := by
  simp [push, pushEditChange, hydrated, getTakeStateKey, pushEditAtBound, issue_eq, output]

theorem reached_edited : Reached 1 none [("id", .asc)] { hydrated with
    rows := [issue 1]
    held := fun key => if key = [] then some [issue 1] else none } := by
  refine .push reached_hydrated pushes_edit push_edit fun key => ?_
  by_cases hkey : key = []
  · subst hkey
    exact .some (.cons ⟨[], .refl _, .refl _⟩ trivial (.nil (.refl _)))
  · simp [hydrated, hkey]

/-- **The bound stored is not always the last row taken**: after the edit it is still the old row. -/
theorem reached_stale_bound : ∃ s, Reached 1 none [("id", .asc)] s ∧ ∃ held state,
    s.held [] = some held ∧ s.take.states [] = some state ∧
      ((partitionRows none [] s.rows).take 1).getLast? = some (issue 1) ∧
      state.bound = some (issue 0) ∧ issue 1 ≠ issue 0 :=
  ⟨_, reached_edited, [issue 1], ⟨1, some (issue 0)⟩, rfl, rfl, rfl, rfl, issue_ne⟩

theorem reached_holds_limit_edited : (∃ state, hydrated.take.states [] = some state ∧ state.size = 1) ∧
    [issue 1].Perm ((partitionRows none [] [issue 1]).take 1) := by
  have h := (reached_holds_limit le_rfl reached_edited).1 [] [issue 1] rfl
  obtain ⟨hperm, state, hstate, hsize, -⟩ := h
  exact ⟨⟨state, hstate, hsize⟩, hperm⟩

theorem reached_fetch_sees_edit : ∃ held', Applied (FetchSees (Input.ofRows issueSchema [issue 1]) [])
    [(.edit (issue 1) (issue 0), hydrated.take)] [issue 0] held' :=
  (reached_fetch_sees le_rfl reached_hydrated pushes_edit push_edit rfl).1

end Take

end ZeroSync
