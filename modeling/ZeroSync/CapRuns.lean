/-
Runs of a Cap: partitions are hydrated by fetches and kept by pushes.

A run tracks the rows of the input, the operator, and the rows its output
holds of each hydrated partition. In every state reached the output holds the
rows the cap state names, `min limit n` of the partition's `n`, and a fetch
of the partition returns them, also while a change is handed over.
-/
import ZeroSync.CapFacts

namespace ZeroSync

open Take (partitionRows partitionConstraint NamesPartition NotNull)

/-- The input answers a fetch by a constraint with the rows it matches, in some order. -/
def Input.Holds (input : Input) (rows : List Row) : Prop :=
  ∀ constraint : Option Constraint, ((input.fetch { constraint }).map (·.row)).Perm
    (rows.filter fun r => constraint.all (constraintMatchesRow · r))

namespace Cap

/-- The rows of the input, the operator, and what its output holds of each
partition hydrated. -/
structure CapRun where
  rows : List Row
  cap : Cap
  held : TakeStateKey → Option (List Row)

/-- The partition a change is about. -/
abbrev CapRun.keyOf (s : CapRun) (change : Change) : TakeStateKey :=
  getCapStateKey s.cap.partitionKey change.node.row

/-- A change pushed into a Cap: it applies to the rows of the input, keeps
their keys apart and the partition of an edited row, and the input's fetches
reflect it. -/
structure Pushes (s : CapRun) (input : Input) (change : Change) (rows' : List Row) : Prop where
  applies : change.delta.Applies s.rows rows'
  keys : DistinctKeys s.cap.primaryKey rows'
  holds : input.Holds rows'
  partition : ∀ n o, change = .edit n o →
    getCapStateKey s.cap.partitionKey o.row = getCapStateKey s.cap.partitionKey n.row

/-- The states reached by hydrating partitions and pushing changes, in any order. -/
inductive Reached (limit : ℕ) (partitionKey : Option (List String)) (primaryKey : List String) : CapRun → Prop
  | start {rows} : DistinctKeys primaryKey rows →
      Reached limit partitionKey primaryKey ⟨rows, { limit, partitionKey, primaryKey }, fun _ => none⟩
  | hydrate {s input constraint nodes cap'} : Reached limit partitionKey primaryKey s →
      input.Holds s.rows → NamesPartition s.cap.partitionKey constraint →
      s.held (getCapStateKey s.cap.partitionKey (Constraint.read constraint)) = none →
      s.cap.fetch input { constraint } = .ok (nodes, cap') →
      Reached limit partitionKey primaryKey ⟨s.rows, cap', fun key =>
        if key = getCapStateKey s.cap.partitionKey (Constraint.read constraint) then some (nodes.map (·.row))
        else s.held key⟩
  | push {s input change rows' emitted cap' held'} : Reached limit partitionKey primaryKey s →
      Pushes s input change rows' → s.cap.push input change = .ok (emitted, cap') →
      (∀ key, Option.Rel (Applied (fun _ _ => True) (if key = s.keyOf change then deltas emitted else []))
        (s.held key) (held' key)) →
      Reached limit partitionKey primaryKey ⟨rows', cap', held'⟩

/-- The output holds the rows the cap state names. -/
structure Keeps (s : CapRun) (key : TakeStateKey) (held : List Row) : Prop where
  notNull : NotNull key
  state : ∃ state, s.cap.states key = some state ∧
    Tracks s.cap.limit s.cap.primaryKey (partitionRows s.cap.partitionKey key s.rows) state ∧
    held.Perm (named s.cap.primaryKey state.pks (partitionRows s.cap.partitionKey key s.rows))

/-- What every state reached satisfies. -/
structure Inv (limit : ℕ) (partitionKey : Option (List String)) (primaryKey : List String) (s : CapRun) : Prop where
  limit : s.cap.limit = limit
  partitionKey : s.cap.partitionKey = partitionKey
  primaryKey : s.cap.primaryKey = primaryKey
  keys : DistinctKeys s.cap.primaryKey s.rows
  keeps : ∀ key held, s.held key = some held → Keeps s key held
  unheld : ∀ key, s.held key = none → s.cap.states key = none

section
variable {limit : ℕ} {partitionKey : Option (List String)} {primaryKey : List String} {s : CapRun} {input : Input}
  {change : Change} {rows rows' : List Row} {constraint : Option Constraint} {key : TakeStateKey}

/-! ## Fetches -/

theorem partition_keys (h : DistinctKeys primaryKey rows) :
    ((partitionRows partitionKey key rows).map (serializePK primaryKey)).Nodup :=
  h.distinct.sublist (List.filter_sublist.map _)

theorem holds_partition (h : input.Holds rows)
    (hc : ∀ r, constraint.all (constraintMatchesRow · r) = true ↔ getTakeStateKey partitionKey r = key) :
    ((input.fetch { constraint }).map (·.row)).Perm (partitionRows partitionKey key rows) := by
  refine (h constraint).trans (.of_eq (List.filter_congr fun r _ => ?_))
  rw [Bool.eq_iff_iff, hc, decide_eq_true_eq]

theorem deserializePK_matches (h : DistinctKeys primaryKey rows) {r : Row} (hr : r ∈ rows) (r' : Row) :
    constraintMatchesRow (deserializePKToConstraint (serializePK primaryKey r) primaryKey) r' = true ↔
      serializePK primaryKey r' = serializePK primaryKey r := by
  have hnull : NotNull (getTakeStateKey (some primaryKey) r) := h.notNull r hr
  have hvalues : serializePK primaryKey r = primaryKey.map r := by
    refine List.map_congr_left fun k hk => ?_
    have hne : normalizeUndefined (r k) ≠ .null := hnull _ (List.mem_map_of_mem hk)
    cases hv : r k <;> simp_all [normalizeUndefined]
  have hzip : primaryKey.zip (primaryKey.map r) = primaryKey.map fun k => (k, r k) := by
    have hmap : (primaryKey.map id).zip (primaryKey.map r) = primaryKey.map fun k => (id k, r k) := List.zip_map'
    simpa using hmap
  have hiff := Take.partitionConstraint_matches_iff hnull r'
  rw [deserializePKToConstraint, hvalues, hzip]
  rw [← hvalues]
  exact hiff

theorem lookups_perm {pks : List SerializedPK} {part : List Row} (hk : DistinctKeys primaryKey rows)
    (hpart : part.Sublist rows) (hnames : Names primaryKey part pks) (hholds : input.Holds rows) :
    ((pks.flatMap fun pk => input.fetch { constraint := some (deserializePKToConstraint pk primaryKey) }).map
      (·.row)).Perm (named primaryKey pks part) := by
  have hkeys : (part.map (serializePK primaryKey)).Nodup := hk.distinct.sublist (hpart.map _)
  induction pks with
  | nil => simp [named]
  | cons pk pks ih =>
    obtain ⟨hpk, hnodup⟩ := List.nodup_cons.mp hnames.nodup
    obtain ⟨r, hr, rfl⟩ := hnames.mem pk (List.mem_cons_self ..)
    have hone : (rows.filter fun r' => constraintMatchesRow
        (deserializePKToConstraint (serializePK primaryKey r) primaryKey) r').Perm [r] := by
      obtain ⟨rest, hrest⟩ := exists_perm_cons (hpart.subset hr)
      refine (hrest.filter _).trans ?_
      rw [List.filter_cons_of_pos ((deserializePK_matches hk (hpart.subset hr) r).mpr rfl),
        List.filter_eq_nil_iff.mpr fun r' hr' => ?_]
      rw [deserializePK_matches hk (hpart.subset hr)]
      exact key_ne_of_perm_cons hk.distinct hrest hr'
    obtain ⟨rest, hrest⟩ := exists_perm_cons hr
    have hnamed : (named primaryKey (serializePK primaryKey r :: pks) part).Perm (r :: named primaryKey pks part) := by
      refine (named_perm hrest).trans ?_
      have hsame : named primaryKey (serializePK primaryKey r :: pks) rest = named primaryKey pks rest :=
        named_congr fun r' hr' => by simp [key_ne_of_perm_cons hkeys hrest hr']
      have hcons : named primaryKey pks (r :: rest) = named primaryKey pks rest := named_cons_of_not hpk
      rw [named_cons_of_mem (by simp), hsame]
      exact .cons _ (hcons ▸ named_perm hrest).symm
    have ih := ih ⟨hnodup, fun p hp => hnames.mem p (List.mem_cons_of_mem _ hp)⟩
    rw [List.flatMap_cons, List.map_append]
    have hlookup := hholds (some (deserializePKToConstraint (serializePK primaryKey r) primaryKey))
    exact ((hlookup.trans hone).append ih).trans hnamed.symm

theorem fetch_guard {partitionKey : Option (List String)} (hn : NamesPartition partitionKey constraint) :
    (partitionKey.isSome && !(constraint.isSome && constraintMatchesPartitionKey constraint partitionKey)) = false := by
  have hg := hn.guard
  revert hg
  generalize (constraint.isSome && constraintMatchesPartitionKey constraint partitionKey) = named
  cases partitionKey <;> cases named <;> simp

theorem fetch_shows {c : Cap} {shown : List Row} (h : ∃ state, c.states key = some state ∧
      state.size = state.pks.length ∧ Names c.primaryKey (partitionRows c.partitionKey key rows) state.pks ∧
      shown.Perm (named c.primaryKey state.pks (partitionRows c.partitionKey key rows)))
    (hk : DistinctKeys c.primaryKey rows) (hholds : input.Holds rows) (hn : NamesPartition c.partitionKey constraint)
    (hkey : getCapStateKey c.partitionKey (Constraint.read constraint) = key) :
    ∃ nodes, c.fetch input { constraint } = .ok (nodes, c) ∧ (nodes.map (·.row)).Perm shown := by
  obtain ⟨state, hstate, hsize, hnames, hshown⟩ := h
  have hperm := lookups_perm hk List.filter_sublist hnames hholds
  simp only [fetch, Option.isSome_none, Bool.false_eq_true, if_false, fetch_guard hn, hkey, hstate]
  split
  · next hzero =>
    obtain hnil : state.pks = [] := List.eq_nil_of_length_eq_zero (by omega)
    rw [hnil] at hshown
    exact ⟨[], rfl, by simpa [named] using hshown.symm⟩
  · exact ⟨_, rfl, hperm.trans hshown.symm⟩

/-! ## Steps -/

theorem Pushes.names (h : Pushes s input change rows') :
    ∀ r ∈ change.delta.names, getCapStateKey s.cap.partitionKey r = s.keyOf change := by
  cases change <;> simp only [Change.delta, Delta.names, List.mem_cons, List.not_mem_nil, or_false]
  case edit n o =>
    intro r hr
    rcases hr with rfl | rfl
    · rfl
    · exact h.partition _ _ rfl
  all_goals
    intro r hr
    rw [hr]
    rfl

theorem Pushes.applies_partition (h : Pushes s input change rows') : change.delta.Applies
    (partitionRows s.cap.partitionKey (s.keyOf change) s.rows)
    (partitionRows s.cap.partitionKey (s.keyOf change) rows') :=
  h.applies.filter fun r hr => by simpa using h.names r hr

theorem Pushes.other_partition (h : Pushes s input change rows') (hkey : key ≠ s.keyOf change) :
    (partitionRows s.cap.partitionKey key rows').Perm (partitionRows s.cap.partitionKey key s.rows) :=
  h.applies.filter_of_not fun r hr => by simpa [h.names r hr] using hkey.symm

theorem push_unhydrated (h : Pushes s input change rows') (hstate : s.cap.states (s.keyOf change) = none) :
    s.cap.push input change = .ok ([], s.cap) := by
  cases change with
  | edit n o =>
    have hkey := h.partition n o rfl
    have hstate' : s.cap.states (getCapStateKey s.cap.partitionKey o.row) = none := hkey ▸ hstate
    have hguard : (s.cap.partitionKey.any fun keys =>
        makePartitionKeyComparator keys o.row n.row ≠ .eq) = false := by
      cases hpk : s.cap.partitionKey with
      | none => rfl
      | some keys =>
        rw [hpk] at hkey
        simpa using Take.makePartitionKeyComparator_eq_iff.mpr hkey
    rw [push, pushEditChange, hguard, if_neg Bool.false_ne_true]
    simp only [hstate']
  | _ => simp only [push, hstate]

/-- **Step.** A push never fails; a partition not hydrated is left alone, one that is settles. -/
theorem Inv.push (hinv : Inv limit partitionKey primaryKey s) (h : Pushes s input change rows') :
    ∃ pushed, s.cap.push input change = .ok pushed ∧
      (s.held (s.keyOf change) = none ∧ pushed = ([], s.cap) ∨
        ∃ held state, s.held (s.keyOf change) = some held ∧ s.cap.states (s.keyOf change) = some state ∧
          held.Perm (named s.cap.primaryKey state.pks (partitionRows s.cap.partitionKey (s.keyOf change) s.rows)) ∧
          Settled s.cap (s.keyOf change) state.pks
            (partitionRows s.cap.partitionKey (s.keyOf change) s.rows)
            (partitionRows s.cap.partitionKey (s.keyOf change) rows') pushed) := by
  cases hheld : s.held (s.keyOf change) with
  | none => exact ⟨_, push_unhydrated h (hinv.unheld _ hheld), .inl ⟨rfl, rfl⟩⟩
  | some held =>
    obtain ⟨hnull, state, hstate, htracks, hperm⟩ := hinv.keeps _ _ hheld
    have hfetch := holds_partition h.holds fun r' => Take.partitionConstraint_matches_iff hnull r'
    obtain ⟨pushed, hok, hset⟩ := push_settled rfl hstate htracks (partition_keys hinv.keys) (partition_keys h.keys)
      h.applies_partition hfetch h.partition
    exact ⟨pushed, hok, .inr ⟨held, state, rfl, hstate, hperm, hset⟩⟩

/-! ## Every state reached -/

theorem Inv.hydrate {nodes : List Node} {cap' : Cap} (hlimit : 1 ≤ limit)
    (hinv : Inv limit partitionKey primaryKey s) (hholds : input.Holds s.rows)
    (hn : NamesPartition s.cap.partitionKey constraint)
    (hheld : s.held (getCapStateKey s.cap.partitionKey (Constraint.read constraint)) = none)
    (hok : s.cap.fetch input { constraint } = .ok (nodes, cap')) :
    Inv limit partitionKey primaryKey ⟨s.rows, cap', fun key =>
      if key = getCapStateKey s.cap.partitionKey (Constraint.read constraint) then some (nodes.map (·.row))
      else s.held key⟩ := by
  have hpos : s.cap.limit ≠ 0 := by rw [hinv.limit]; omega
  have hpart : ((input.fetch { constraint }).map (·.row)).Perm (partitionRows s.cap.partitionKey
      (getCapStateKey s.cap.partitionKey (Constraint.read constraint)) s.rows) := holds_partition hholds hn.matches_iff
  generalize hkey : getCapStateKey s.cap.partitionKey (Constraint.read constraint) = key at hheld hpart ⊢
  have hstate := hinv.unheld _ hheld
  simp only [fetch, Option.isSome_none, Bool.false_eq_true, if_false, fetch_guard hn, hkey, hstate] at hok
  simp only [initialFetch, Option.isSome_none, Bool.false_eq_true, if_false, hkey, hstate, hpos, hn.matches_key,
    Bool.not_true, Except.ok.injEq, Prod.mk.injEq] at hok
  obtain ⟨rfl, rfl⟩ := hok
  generalize hfetched : input.fetch { constraint } = fetched at hpart
  have hkeys : ((partitionRows s.cap.partitionKey key s.rows).map (serializePK s.cap.primaryKey)).Nodup :=
    partition_keys hinv.keys
  have hsub : ((fetched.take s.cap.limit).map (·.row)).Sublist (fetched.map (·.row)) := (List.take_sublist ..).map _
  have hnodup : (((fetched.take s.cap.limit).map (·.row)).map (serializePK s.cap.primaryKey)).Nodup :=
    ((hpart.map _).nodup_iff.mpr hkeys).sublist (hsub.map _)
  obtain ⟨hnames, hheld'⟩ := names_map hkeys (fun r hr => hpart.subset (hsub.subset hr)) hnodup
  have hmap : (fetched.take s.cap.limit).map (fun n => serializePK s.cap.primaryKey n.row) =
      ((fetched.take s.cap.limit).map (·.row)).map (serializePK s.cap.primaryKey) := by
    rw [List.map_map]
    rfl
  have hlen : (fetched.take s.cap.limit).length = min s.cap.limit
      (partitionRows s.cap.partitionKey key s.rows).length := by
    rw [List.length_take, ← hpart.length_eq, List.length_map]
  rw [hmap]
  refine ⟨hinv.limit, hinv.partitionKey, hinv.primaryKey, hinv.keys, fun k held hk => ?_, fun k hk => ?_⟩
  · by_cases hkk : k = key
    · subst hkk
      simp only [if_pos, Option.some.injEq] at hk
      subst hk
      have hlength : (((fetched.take s.cap.limit).map (·.row)).map (serializePK s.cap.primaryKey)).length =
          min s.cap.limit (partitionRows s.cap.partitionKey k s.rows).length := by
        rw [List.length_map, List.length_map, hlen]
      exact ⟨hkey ▸ hn.notNull, _, setCapState_self _, ⟨hnames, by simp, hlength⟩, hheld'⟩
    · change (if k = key then _ else s.held k) = some held at hk
      rw [if_neg hkk] at hk
      obtain ⟨hnull, state, hst, hrest⟩ := hinv.keeps _ _ hk
      exact ⟨hnull, state, (setCapState_of_ne _ hkk).trans hst, hrest⟩
  · change (if k = key then _ else s.held k) = none at hk
    by_cases hkk : k = key
    · rw [if_pos hkk] at hk
      cases hk
    · rw [if_neg hkk] at hk
      exact (setCapState_of_ne _ hkk).trans (hinv.unheld _ hk)

theorem Inv.pushed {emitted : List (Change × Cap)} {cap' : Cap} {held' : TakeStateKey → Option (List Row)}
    (hinv : Inv limit partitionKey primaryKey s) (h : Pushes s input change rows')
    (hok : s.cap.push input change = .ok (emitted, cap'))
    (hheld : ∀ key, Option.Rel (Applied (fun _ _ => True) (if key = s.keyOf change then deltas emitted else []))
      (s.held key) (held' key)) : Inv limit partitionKey primaryKey ⟨rows', cap', held'⟩ := by
  obtain ⟨pushed, hok', hcases⟩ := hinv.push h
  obtain rfl : (emitted, cap') = pushed := by simpa [hok] using hok'
  have hothers : ∀ k, k ≠ s.keyOf change → cap'.states k = s.cap.states k := fun k hk => by
    rcases hcases with ⟨-, heq⟩ | ⟨_, _, -, -, -, hset⟩
    · cases heq; rfl
    · exact hset.others k hk
  have hfixed : cap' = { s.cap with states := cap'.states } := by
    rcases hcases with ⟨-, heq⟩ | ⟨_, _, -, -, -, hset⟩
    · cases heq; rfl
    · exact hset.fixed
  have hlim : cap'.limit = s.cap.limit := by rw [hfixed]
  have hkey : cap'.partitionKey = s.cap.partitionKey := by rw [hfixed]
  have hpk : cap'.primaryKey = s.cap.primaryKey := by rw [hfixed]
  refine ⟨hlim.trans hinv.limit, hkey.trans hinv.partitionKey, hpk.trans hinv.primaryKey, hpk ▸ h.keys,
    fun key held hk => ?_, fun key hk => ?_⟩
  · have hrel := hheld key
    change held' key = some held at hk
    rw [hk] at hrel
    cases hold : s.held key with
    | none => rw [hold] at hrel; cases hrel
    | some old =>
    rw [hold, Option.rel_some_some] at hrel
    obtain ⟨hnull, state, hstate, htracks, hperm⟩ := hinv.keeps _ _ hold
    by_cases hkc : key = s.keyOf change
    · subst hkc
      rw [if_pos rfl] at hrel
      rcases hcases with ⟨hnone, -⟩ | ⟨held₀, state₀, hheld₀, -, hperm₀, hset⟩
      · rw [hold] at hnone; cases hnone
      · obtain rfl := Option.some.inj (hold.symm.trans hheld₀)
        obtain ⟨state', hstate', htracks', hemits⟩ := hset.state
        refine ⟨hnull, state', hstate', ?_, ?_⟩
        · rw [hlim, hkey, hpk]
          exact htracks'
        · rw [hkey, hpk]
          exact hrel.det hemits rfl hperm₀
    · rw [if_neg hkc] at hrel
      have hrows := h.other_partition hkc
      obtain ⟨hnames, hsize, hlength⟩ := htracks
      refine ⟨hnull, state, (hothers _ hkc).trans hstate, ?_, ?_⟩
      · rw [hlim, hkey, hpk]
        exact ⟨hnames.perm hrows.symm, hsize, by rw [hlength, hrows.length_eq]⟩
      · rw [hkey, hpk]
        cases hrel with
        | nil hp => exact hp.trans (hperm.trans (named_perm hrows.symm))
  · have hrel := hheld key
    change held' key = none at hk
    rw [hk] at hrel
    have hold : s.held key = none := by
      cases hold : s.held key with
      | none => rfl
      | some _ => rw [hold] at hrel; cases hrel
    by_cases hkc : key = s.keyOf change
    · subst hkc
      rcases hcases with ⟨-, heq⟩ | ⟨_, _, hsome, -⟩
      · cases heq; exact hinv.unheld _ hold
      · rw [hold] at hsome; cases hsome
    · exact (hothers _ hkc).trans (hinv.unheld _ hold)

/-- **Every state reached satisfies the invariant.** -/
theorem Reached.inv (hlimit : 1 ≤ limit) (h : Reached limit partitionKey primaryKey s) :
    Inv limit partitionKey primaryKey s := by
  induction h with
  | start hk => exact ⟨rfl, rfl, rfl, hk, (fun _ _ h => by cases h), fun _ _ => rfl⟩
  | hydrate _ hholds hn hheld hok ih => exact ih.hydrate hlimit hholds hn hheld hok
  | push _ hp hok hheld ih => exact ih.pushed hp hok hheld

/-- In this state of the operator a fetch of the partition returns the rows held. -/
def FetchSees (input : Input) (key : TakeStateKey) (c : Cap) (held : List Row) : Prop :=
  ∀ constraint, NamesPartition c.partitionKey constraint →
    getCapStateKey c.partitionKey (Constraint.read constraint) = key →
    ∃ nodes, c.fetch input { constraint } = .ok (nodes, c) ∧ (nodes.map (·.row)).Perm held

/-- **A Cap tracks its partitions.** The keys stored are distinct keys of
`min limit n` rows of the partition, the output holds these rows, some when
there are any, and a fetch of the partition returns them. No push fails, and
a fetch made while a change is handed over returns what the output then
holds. -/
theorem reached_tracks (hlimit : 1 ≤ limit) (h : Reached limit partitionKey primaryKey s) :
    (∀ key held, s.held key = some held →
      (∃ state, s.cap.states key = some state ∧ state.pks.Nodup ∧
        (∀ pk ∈ state.pks, ∃ r ∈ partitionRows partitionKey key s.rows, serializePK primaryKey r = pk) ∧
        state.size = state.pks.length ∧
        state.size = (min limit (partitionRows partitionKey key s.rows).length : ℕ) ∧
        held.Perm ((partitionRows partitionKey key s.rows).filter fun r => serializePK primaryKey r ∈ state.pks)) ∧
      (held ≠ [] ↔ partitionRows partitionKey key s.rows ≠ []) ∧
      ∀ input, input.Holds s.rows → FetchSees input key s.cap held) ∧
    ∀ input change rows', Pushes s input change rows' →
      ∃ emitted cap', s.cap.push input change = .ok (emitted, cap') ∧
        (s.held (s.keyOf change) = none → emitted = []) ∧
        ∀ held, s.held (s.keyOf change) = some held →
          ∃ held', Applied (FetchSees input (s.keyOf change)) (deltas emitted) held held' ∧
            ∃ state, cap'.states (s.keyOf change) = some state ∧
              held'.Perm ((partitionRows partitionKey (s.keyOf change) rows').filter fun r =>
                serializePK primaryKey r ∈ state.pks) := by
  have hinv := h.inv hlimit
  refine ⟨fun key held hk => ?_, fun input change rows' hp => ?_⟩
  · obtain ⟨-, state, hstate, ⟨hnames, hsize, hlength⟩, hperm⟩ := hinv.keeps _ _ hk
    have hsees : ∀ input, input.Holds s.rows → FetchSees input key s.cap held := fun input hholds constraint hn hkey =>
      fetch_shows ⟨state, hstate, hsize, hnames, hperm⟩ hinv.keys hholds hn hkey
    have hlen := (hperm.map (serializePK s.cap.primaryKey)).length_eq.trans
      (hnames.perm_keys (partition_keys hinv.keys)).length_eq
    rw [List.length_map, hlength, hinv.limit, hinv.partitionKey] at hlen
    rw [hinv.limit, hinv.partitionKey] at hlength
    rw [hinv.primaryKey, hinv.partitionKey] at hnames hperm
    refine ⟨⟨state, hstate, hnames.nodup, hnames.mem, hsize, by rw [hsize, hlength], hperm⟩, ?_, hsees⟩
    rw [← List.length_pos_iff, ← List.length_pos_iff]
    omega
  · obtain ⟨⟨emitted, cap'⟩, hok, hcases⟩ := hinv.push hp
    refine ⟨emitted, cap', hok, fun hnone => ?_, fun held hheld => ?_⟩
    · rcases hcases with ⟨-, heq⟩ | ⟨_, _, hsome, -⟩
      · exact (Prod.mk.inj heq).1
      · rw [hnone] at hsome; cases hsome
    · rcases hcases with ⟨hnone, -⟩ | ⟨held₀, state₀, hheld₀, -, hperm₀, hset⟩
      · rw [hheld] at hnone; cases hnone
      · obtain rfl := Option.some.inj (hheld.symm.trans hheld₀)
        obtain ⟨state', hstate', -, hemits⟩ := hset.state
        refine ⟨_, (hemits.imp fun e _ k hshows => ?_).congr hperm₀ (.refl _), state', hstate', ?_⟩
        · intro constraint hn hkey
          have hpk : e.2.partitionKey = s.cap.partitionKey := by rw [hshows.fixed]
          have hprim : e.2.primaryKey = s.cap.primaryKey := by rw [hshows.fixed]
          refine fetch_shows ?_ (hprim ▸ hp.keys) hp.holds hn hkey
          rw [hprim, hpk]
          exact hshows.state
        · rw [← hinv.partitionKey, ← hinv.primaryKey]
          exact .refl _

end

/-! ## A run that hydrates one row -/

theorem holds_ofRows (schema : SourceSchema) (rows : List Row) : (Input.ofRows schema rows).Holds rows := by
  intro constraint
  rw [Input.reflects_ofRows]
  exact .of_eq (List.filter_congr fun r _ => by simp [FetchRequest.admits, FetchRequest.matches])

/-- The issue 1, read by a Cap of limit 1. -/
def hydrated : CapRun where
  rows := [Take.issue 0]
  cap := { limit := 1, partitionKey := none, primaryKey := ["id"]
           states := fun key => if key = [] then some ⟨1, [[.num 1]]⟩ else none }
  held key := if key = [] then some [Take.issue 0] else none

theorem fetch_hydrates : fetch { limit := 1, partitionKey := none, primaryKey := ["id"] }
    (Input.ofRows Take.issueSchema [Take.issue 0]) { constraint := none } =
      .ok ([.ofRow (Take.issue 0)], hydrated.cap) := rfl

theorem distinctKeys_issue : DistinctKeys ["id"] [Take.issue 0] := by
  refine ⟨List.nodup_singleton _, fun r hr v hv => ?_⟩
  obtain rfl := List.mem_singleton.mp hr
  obtain rfl := List.mem_singleton.mp hv
  decide

theorem reached_hydrated : Reached 1 none ["id"] hydrated :=
  .hydrate (.start distinctKeys_issue) (holds_ofRows Take.issueSchema [Take.issue 0]) Take.namesPartition_none rfl
    fetch_hydrates

/-- The removal of the issue leaves nothing. -/
theorem reached_tracks_remove : (∃ state, hydrated.cap.states [] = some state ∧ state.size = 1) ∧
    ∃ emitted cap', hydrated.cap.push (Input.ofRows Take.issueSchema []) (.remove (.ofRow (Take.issue 0))) =
      .ok (emitted, cap') ∧
    ∃ held', Applied (FetchSees (Input.ofRows Take.issueSchema []) []) (deltas emitted) [Take.issue 0] held' := by
  have hpushes : Pushes hydrated (Input.ofRows Take.issueSchema []) (.remove (.ofRow (Take.issue 0))) [] :=
    { applies := .refl _
      keys := ⟨List.nodup_nil, by simp⟩
      holds := holds_ofRows _ _
      partition := fun n o h => by cases h }
  obtain ⟨hheld, hpush⟩ := reached_tracks le_rfl reached_hydrated
  obtain ⟨⟨state, hstate, -, -, -, hsize, -⟩, -⟩ := hheld [] _ rfl
  obtain ⟨emitted, cap', hok, -, hrest⟩ := hpush _ _ _ hpushes
  obtain ⟨held', happlied, -⟩ := hrest _ rfl
  exact ⟨⟨state, hstate, hsize⟩, emitted, cap', hok, held', happlied⟩

end Cap

end ZeroSync
