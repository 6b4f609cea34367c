/-
What one push does to a hydrated partition of a Cap.

A cap state tracks the rows of a partition when it names `min limit n` of
them, each once, by its primary key (`Tracks`). A push whose change takes the
partition from `rows` to `rows'` is `Settled`: the changes it emits take the
rows named before to the rows named after, at each change handed over the
state names exactly what the changes so far leave, and it tracks `rows'` in
the end.
-/
import ZeroSync.Cap
import ZeroSync.TakeRuns

namespace ZeroSync

open Take (partitionRows partitionConstraint)

/-- Rows told apart by their primary keys, which have no nulls. -/
structure DistinctKeys (primaryKey : List String) (rows : List Row) : Prop where
  distinct : (rows.map (serializePK primaryKey)).Nodup
  notNull : ∀ r ∈ rows, ∀ v ∈ serializePK primaryKey r, v ≠ .null

namespace Cap

/-- The rows whose primary keys are listed. -/
def named (primaryKey : List String) (pks : List SerializedPK) (rows : List Row) : List Row :=
  rows.filter fun r => serializePK primaryKey r ∈ pks

/-- The keys are primary keys of rows, each once. -/
structure Names (primaryKey : List String) (rows : List Row) (pks : List SerializedPK) : Prop where
  nodup : pks.Nodup
  mem : ∀ pk ∈ pks, ∃ r ∈ rows, serializePK primaryKey r = pk

/-- A cap state of a partition with these rows. -/
structure Tracks (limit : ℕ) (primaryKey : List String) (rows : List Row) (state : CapState) : Prop where
  names : Names primaryKey rows state.pks
  size : state.size = state.pks.length
  length : state.pks.length = min limit rows.length

/-- In the state `s` the operator `c` is in during a push, the partition's cap
state names the rows `shown`. -/
structure Shows (c : Cap) (key : TakeStateKey) (rows : List Row) (s : Cap) (shown : List Row) : Prop where
  fixed : s = { c with states := s.states }
  state : ∃ state, s.states key = some state ∧ state.size = state.pks.length ∧
    Names c.primaryKey rows state.pks ∧ shown.Perm (named c.primaryKey state.pks rows)

/-- The emitted changes as deltas of the rows. -/
def deltas (emitted : List (Change × Cap)) : List (Delta Row × Cap) := emitted.map fun e => (e.1.delta, e.2)

/-- A push took a partition from `rows` to `rows'`, and the keys it names from `pks` to others. -/
structure Settled (c : Cap) (key : TakeStateKey) (pks : List SerializedPK) (rows rows' : List Row)
    (pushed : CapPushed) : Prop where
  state : ∃ state, pushed.2.states key = some state ∧ Tracks c.limit c.primaryKey rows' state ∧
    Applied (Shows c key rows') (deltas pushed.1) (named c.primaryKey pks rows) (named c.primaryKey state.pks rows')
  others : ∀ k, k ≠ key → pushed.2.states k = c.states k
  fixed : pushed.2 = { c with states := pushed.2.states }

/-! ## The rows named -/

section
variable {primaryKey : List String} {pks pks' : List SerializedPK} {rows rows' : List Row} {r : Row}

theorem named_perm (h : rows.Perm rows') : (named primaryKey pks rows).Perm (named primaryKey pks rows') := h.filter _

theorem named_cons_of_mem (h : serializePK primaryKey r ∈ pks) :
    named primaryKey pks (r :: rows) = r :: named primaryKey pks rows := by
  simp [named, h]

theorem named_cons_of_not (h : serializePK primaryKey r ∉ pks) :
    named primaryKey pks (r :: rows) = named primaryKey pks rows := by
  simp [named, h]

theorem named_congr (h : ∀ r ∈ rows, serializePK primaryKey r ∈ pks ↔ serializePK primaryKey r ∈ pks') :
    named primaryKey pks rows = named primaryKey pks' rows :=
  List.filter_congr fun r hr => by simp [h r hr]

theorem Names.perm_keys (h : Names primaryKey rows pks) (hk : (rows.map (serializePK primaryKey)).Nodup) :
    ((named primaryKey pks rows).map (serializePK primaryKey)).Perm pks := by
  refine (List.perm_ext_iff_of_nodup (hk.sublist (List.filter_sublist.map _)) h.nodup).mpr fun pk => ?_
  simp only [List.mem_map, List.mem_filter, decide_eq_true_eq]
  constructor
  · intro ⟨r, ⟨_, hmem⟩, hr⟩
    rwa [hr] at hmem
  · intro hpk
    obtain ⟨r, hr, rfl⟩ := h.mem pk hpk
    exact ⟨r, ⟨hr, hpk⟩, rfl⟩

theorem Names.length_le (h : Names primaryKey rows pks) (hk : (rows.map (serializePK primaryKey)).Nodup) :
    pks.length ≤ rows.length := by
  rw [← (h.perm_keys hk).length_eq, List.length_map]
  exact List.length_filter_le _ _

theorem Names.perm (h : Names primaryKey rows pks) (hp : rows.Perm rows') : Names primaryKey rows' pks where
  nodup := h.nodup
  mem pk hpk := by
    obtain ⟨r, hr, heq⟩ := h.mem pk hpk
    exact ⟨r, hp.subset hr, heq⟩

theorem names_map {held : List Row} (hk : (rows.map (serializePK primaryKey)).Nodup) (hsub : held ⊆ rows)
    (hnodup : (held.map (serializePK primaryKey)).Nodup) :
    Names primaryKey rows (held.map (serializePK primaryKey)) ∧
      held.Perm (named primaryKey (held.map (serializePK primaryKey)) rows) := by
  refine ⟨⟨hnodup, fun pk hpk => ?_⟩, ?_⟩
  · obtain ⟨r, hr, heq⟩ := List.mem_map.mp hpk
    exact ⟨r, hsub hr, heq⟩
  · refine (List.perm_ext_iff_of_nodup hnodup.of_map (hk.of_map.filter _)).mpr fun r => ?_
    simp only [List.mem_filter, decide_eq_true_eq]
    constructor
    · intro hr
      exact ⟨hsub hr, List.mem_map_of_mem hr⟩
    · intro ⟨hr, hmem⟩
      obtain ⟨r', hr', heq⟩ := List.mem_map.mp hmem
      exact List.inj_on_of_nodup_map hk (hsub hr') hr heq ▸ hr'

theorem key_ne_of_perm_cons {r' : Row} (hk : (rows.map (serializePK primaryKey)).Nodup) (hp : rows.Perm (r :: rows'))
    (hr' : r' ∈ rows') : serializePK primaryKey r' ≠ serializePK primaryKey r := by
  have hnodup := (hp.map (serializePK primaryKey)).nodup_iff.mp hk
  rw [List.map_cons, List.nodup_cons] at hnodup
  intro heq
  exact hnodup.1 (heq ▸ List.mem_map_of_mem hr')

theorem exists_perm_cons (h : r ∈ rows) : ∃ rest, rows.Perm (r :: rest) := by
  obtain ⟨a, b, rfl⟩ := List.mem_iff_append.mp h
  exact ⟨a ++ b, List.perm_middle⟩

theorem named_concat (hk : (rows.map (serializePK primaryKey)).Nodup) (hp : rows.Perm (r :: rows')) :
    (named primaryKey (pks ++ [serializePK primaryKey r]) rows).Perm (r :: named primaryKey pks rows') := by
  refine (named_perm hp).trans ?_
  rw [named_cons_of_mem (by simp)]
  refine .of_eq (congrArg _ (named_congr fun r' hr' => ?_))
  simp [key_ne_of_perm_cons hk hp hr']

theorem Names.concat (h : Names primaryKey rows pks) (hr : r ∈ rows) (hnew : serializePK primaryKey r ∉ pks) :
    Names primaryKey rows (pks ++ [serializePK primaryKey r]) where
  nodup := by
    rw [List.nodup_append]
    refine ⟨h.nodup, List.nodup_singleton _, fun a ha b hb => ?_⟩
    rw [List.mem_singleton] at hb
    subst hb
    exact fun heq => hnew (heq ▸ ha)
  mem pk hpk := by
    rcases List.mem_append.mp hpk with hpk | hpk
    · exact h.mem pk hpk
    · exact ⟨r, hr, (List.mem_singleton.mp hpk).symm⟩

theorem replacePK_self (pk : SerializedPK) : replacePK pk pk pks = pks := by
  have hid : (fun p => if p = pk then pk else p) = (id : SerializedPK → SerializedPK) := by
    funext p
    split
    · next h => exact h.symm
    · rfl
  rw [replacePK, hid, List.map_id]

theorem mem_replacePK {oldPK newPK : SerializedPK} (h : oldPK ∈ pks) : newPK ∈ replacePK oldPK newPK pks :=
  List.mem_map.mpr ⟨oldPK, h, if_pos rfl⟩

theorem mem_replacePK_of_ne {oldPK newPK pk : SerializedPK} (hold : pk ≠ oldPK) (hnew : pk ≠ newPK) :
    pk ∈ pks ↔ pk ∈ replacePK oldPK newPK pks := by
  rw [replacePK, List.mem_map]
  constructor
  · intro h
    exact ⟨pk, h, if_neg hold⟩
  · intro ⟨p, hp, heq⟩
    split at heq
    · exact absurd heq.symm hnew
    · exact heq ▸ hp

theorem Names.replacePK {kept : List Row} {old new : Row} (h : Names primaryKey rows pks)
    (hperm : rows.Perm (old :: kept)) (hperm' : rows'.Perm (new :: kept))
    (hnew : serializePK primaryKey new ∈ pks → serializePK primaryKey new = serializePK primaryKey old) :
    Names primaryKey rows' (Cap.replacePK (serializePK primaryKey old) (serializePK primaryKey new) pks) where
  nodup := by
    refine List.Nodup.map_on (fun p hp q hq heq => ?_) h.nodup
    split at heq
    · next hpo =>
      split at heq
      · next hqo => rw [hpo, hqo]
      · subst heq
        rw [hpo, hnew hq]
    · split at heq
      · next hqo =>
        subst heq
        rw [hqo, hnew hp]
      · exact heq
  mem pk hpk := by
    obtain ⟨p, hp, rfl⟩ := List.mem_map.mp hpk
    split
    · exact ⟨new, hperm'.mem_iff.mpr (List.mem_cons_self ..), rfl⟩
    · next hne =>
      obtain ⟨r, hr, rfl⟩ := h.mem p hp
      rcases List.mem_cons.mp (hperm.mem_iff.mp hr) with rfl | hr
      · exact absurd rfl hne
      · exact ⟨r, hperm'.mem_iff.mpr (List.mem_cons_of_mem _ hr), rfl⟩

end

/-! ## Adds, removes, edits and children -/

section
variable {c : Cap} {key : TakeStateKey} {rows rows' : List Row} {state : CapState} {node oldNode : Node}

@[simp] theorem setCapState_self (state : CapState) : (c.setCapState key state).states key = some state := by
  simp [setCapState]

theorem setCapState_of_ne {k : TakeStateKey} (state : CapState) (h : k ≠ key) :
    (c.setCapState key state).states k = c.states k := by
  simp [setCapState, h]

theorem settled_nil (hstate : c.states key = some state) (htracks : Tracks c.limit c.primaryKey rows' state)
    (hnamed : (named c.primaryKey state.pks rows').Perm (named c.primaryKey state.pks rows)) :
    Settled c key state.pks rows rows' ([], c) where
  state := ⟨state, hstate, htracks, .nil hnamed⟩
  others _ _ := rfl
  fixed := rfl

theorem shows_of_names {pks : List SerializedPK} {size : ℤ} (hnames : Names c.primaryKey rows' pks)
    (hsize : size = pks.length) :
    Shows c key rows' (c.setCapState key ⟨size, pks⟩) (named c.primaryKey pks rows') where
  fixed := rfl
  state := ⟨⟨size, pks⟩, setCapState_self _, hsize, hnames, .refl _⟩

theorem pushAdd_settled (hkey : getCapStateKey c.partitionKey node.row = key) (hstate : c.states key = some state)
    (htracks : Tracks c.limit c.primaryKey rows state) (hk : (rows'.map (serializePK c.primaryKey)).Nodup)
    (hperm : rows'.Perm (node.row :: rows)) : Settled c key state.pks rows rows' (c.pushAdd state node) := by
  subst hkey
  obtain ⟨hnames, hsize, hlength⟩ := htracks
  have hnames' : Names c.primaryKey rows' state.pks :=
    { nodup := hnames.nodup
      mem := fun pk hpk => by
        obtain ⟨r, hr, heq⟩ := hnames.mem pk hpk
        exact ⟨r, hperm.mem_iff.mpr (List.mem_cons_of_mem _ hr), heq⟩ }
  -- The new row has a key of its own.
  have hnew : serializePK c.primaryKey node.row ∉ state.pks := fun hmem => by
    obtain ⟨r, hr, heq⟩ := hnames.mem _ hmem
    exact key_ne_of_perm_cons hk hperm hr heq
  have hlen := hperm.length_eq
  rw [List.length_cons] at hlen
  rw [pushAdd]
  split
  · next hlt =>
    have hnode : node.row ∈ rows' := hperm.mem_iff.mpr (List.mem_cons_self ..)
    have hconcat := hnames'.concat hnode hnew
    have hadd : (Delta.add node.row).Applies (named c.primaryKey state.pks rows)
        (named c.primaryKey (state.pks ++ [serializePK c.primaryKey node.row]) rows') := by
      refine ⟨fun hmem => ?_, named_concat hk hperm⟩
      exact key_ne_of_perm_cons hk hperm (List.mem_filter.mp hmem).1 rfl
    have hsize' : state.size + 1 = (state.pks ++ [serializePK c.primaryKey node.row]).length := by
      rw [hsize, List.length_append, List.length_singleton]
      rfl
    refine ⟨⟨_, setCapState_self _, ⟨hconcat, hsize', ?_⟩, ?_⟩, fun k hne => setCapState_of_ne _ hne, rfl⟩
    · simp only [List.length_append, List.length_singleton]
      omega
    · exact .cons hadd (shows_of_names hconcat hsize') (.nil (.refl _))
  · next hfull =>
    refine settled_nil hstate ⟨hnames', hsize, by omega⟩ ?_
    have hcons : named c.primaryKey state.pks (node.row :: rows) = named c.primaryKey state.pks rows :=
      named_cons_of_not hnew
    exact hcons ▸ named_perm hperm

theorem pushEdit_settled (hkey : getCapStateKey c.partitionKey oldNode.row = key)
    (hpart : getCapStateKey c.partitionKey node.row = getCapStateKey c.partitionKey oldNode.row)
    (hstate : c.states key = some state) (htracks : Tracks c.limit c.primaryKey rows state)
    (hk : (rows.map (serializePK c.primaryKey)).Nodup) (hk' : (rows'.map (serializePK c.primaryKey)).Nodup)
    {kept : List Row} (hperm : rows.Perm (oldNode.row :: kept)) (hperm' : rows'.Perm (node.row :: kept)) :
    ∃ pushed, c.pushEditChange node oldNode = .ok pushed ∧ Settled c key state.pks rows rows' pushed := by
  subst hkey
  obtain ⟨hnames, hsize, hlength⟩ := htracks
  have hlen := hperm.length_eq.trans hperm'.length_eq.symm
  have hkept : ∀ r ∈ kept, serializePK c.primaryKey r ≠ serializePK c.primaryKey oldNode.row ∧
      serializePK c.primaryKey r ≠ serializePK c.primaryKey node.row := fun r hr =>
    ⟨key_ne_of_perm_cons hk hperm hr, key_ne_of_perm_cons hk' hperm' hr⟩
  -- The new key is named only when it is the old one.
  have hnew : serializePK c.primaryKey node.row ∈ state.pks →
      serializePK c.primaryKey node.row = serializePK c.primaryKey oldNode.row := fun hmem => by
    obtain ⟨r, hr, heq⟩ := hnames.mem _ hmem
    rcases List.mem_cons.mp (hperm.mem_iff.mp hr) with rfl | hr
    · exact heq.symm
    · exact absurd heq (hkept r hr).2
  have hguard : (c.partitionKey.any fun keys => makePartitionKeyComparator keys oldNode.row node.row ≠ .eq) = false := by
    cases hpk : c.partitionKey with
    | none => rfl
    | some keys =>
      rw [hpk] at hpart
      simpa using Take.makePartitionKeyComparator_eq_iff.mpr hpart.symm
  rw [pushEditChange, hguard, if_neg Bool.false_ne_true]
  simp only [hstate]
  split
  · next hmem =>
    have hnames' := hnames.replacePK hperm hperm' hnew
    have hedit : (Delta.edit node.row oldNode.row).Applies (named c.primaryKey state.pks rows)
        (named c.primaryKey (replacePK (serializePK c.primaryKey oldNode.row) (serializePK c.primaryKey node.row)
          state.pks) rows') := by
      refine ⟨named c.primaryKey state.pks kept, ?_, ?_⟩
      · rw [← named_cons_of_mem hmem]
        exact named_perm hperm
      · refine (named_perm hperm').trans ?_
        rw [named_cons_of_mem (mem_replacePK hmem)]
        exact .of_eq (congrArg _ (named_congr fun r hr => (mem_replacePK_of_ne (hkept r hr).1 (hkept r hr).2).symm))
    have hlen' : (replacePK (serializePK c.primaryKey oldNode.row) (serializePK c.primaryKey node.row)
        state.pks).length = state.pks.length := List.length_map _
    have hsize' : state.size = (replacePK (serializePK c.primaryKey oldNode.row) (serializePK c.primaryKey node.row)
        state.pks).length := by rw [hlen', hsize]
    split
    · exact ⟨_, rfl, ⟨_, setCapState_self _, ⟨hnames', hsize', hlen'.trans (hlength.trans (congrArg _ hlen))⟩,
        .cons hedit (shows_of_names hnames' hsize') (.nil (.refl _))⟩, fun k hne => setCapState_of_ne _ hne, rfl⟩
    · next heq =>
      rw [not_not.mp heq, replacePK_self] at hedit hnames'
      exact ⟨_, rfl, ⟨state, hstate, ⟨hnames', hsize, by rw [hlength, hlen]⟩,
        .cons hedit ⟨rfl, state, hstate, hsize, hnames', .refl _⟩ (.nil (.refl _))⟩, fun _ _ => rfl, rfl⟩
  · next hmem =>
    refine ⟨_, rfl, settled_nil hstate ⟨⟨hnames.nodup, fun pk hpk => ?_⟩, hsize, by rw [hlength, hlen]⟩ ?_⟩
    · obtain ⟨r, hr, rfl⟩ := hnames.mem pk hpk
      rcases List.mem_cons.mp (hperm.mem_iff.mp hr) with rfl | hr
      · exact absurd hpk hmem
      · exact ⟨r, hperm'.mem_iff.mpr (List.mem_cons_of_mem _ hr), rfl⟩
    · have hold : named c.primaryKey state.pks (oldNode.row :: kept) = named c.primaryKey state.pks kept :=
        named_cons_of_not hmem
      have hnode : named c.primaryKey state.pks (node.row :: kept) = named c.primaryKey state.pks kept :=
        named_cons_of_not fun h => hmem (hnew h ▸ h)
      exact (hnode ▸ named_perm hperm').trans (hold ▸ named_perm hperm).symm

theorem Names.erase {primaryKey : List String} {pks : List SerializedPK} {r : Row}
    (h : Names primaryKey rows pks) (hperm : rows.Perm (r :: rows')) :
    Names primaryKey rows' (pks.erase (serializePK primaryKey r)) where
  nodup := h.nodup.erase _
  mem pk hpk := by
    rw [h.nodup.mem_erase_iff] at hpk
    obtain ⟨r', hr', rfl⟩ := h.mem pk hpk.2
    rcases List.mem_cons.mp (hperm.mem_iff.mp hr') with rfl | hr'
    · exact absurd rfl hpk.1
    · exact ⟨r', hr', rfl⟩

theorem pushRemove_settled {input : Input} (hkey : getCapStateKey c.partitionKey node.row = key)
    (hstate : c.states key = some state) (htracks : Tracks c.limit c.primaryKey rows state)
    (hk : (rows.map (serializePK c.primaryKey)).Nodup) (hperm : rows.Perm (node.row :: rows'))
    (hfetch : ((input.fetch { constraint := partitionConstraint c.partitionKey node.row }).map (·.row)).Perm rows') :
    Settled c key state.pks rows rows' (c.pushRemove input state node) := by
  subst hkey
  obtain ⟨hnames, hsize, hlength⟩ := htracks
  have hlen := hperm.length_eq
  rw [List.length_cons] at hlen
  have hk' : (rows'.map (serializePK c.primaryKey)).Nodup := by
    have hnodup := (hperm.map (serializePK c.primaryKey)).nodup_iff.mp hk
    exact (List.nodup_cons.mp hnodup).2
  rw [pushRemove]
  split
  · next hmem =>
    have hcons : named c.primaryKey state.pks (node.row :: rows') = named c.primaryKey state.pks rows' :=
      named_cons_of_not hmem
    have hnames' : Names c.primaryKey rows' state.pks := by
      rw [← List.erase_of_not_mem hmem]
      exact hnames.erase hperm
    have hle := hnames'.length_le hk'
    exact settled_nil hstate ⟨hnames', hsize, by omega⟩ (hcons ▸ named_perm hperm).symm
  · next hmem =>
    rw [not_not] at hmem
    have heraseIdx : state.pks.eraseIdx (state.pks.idxOf (serializePK c.primaryKey node.row)) =
        state.pks.erase (serializePK c.primaryKey node.row) := (List.erase_eq_eraseIdx_of_idxOf rfl).symm
    simp only [heraseIdx]
    have hnames' := hnames.erase hperm
    have hle := hnames'.length_le hk'
    have herase := List.length_erase_of_mem hmem
    have hpos := List.length_pos_of_mem hmem
    have hsize' : state.size - 1 = (state.pks.erase (serializePK c.primaryKey node.row)).length := by omega
    have hremove : (Delta.remove node.row).Applies (named c.primaryKey state.pks rows)
        (named c.primaryKey (state.pks.erase (serializePK c.primaryKey node.row)) rows') := by
      refine (named_perm hperm).trans ?_
      rw [named_cons_of_mem hmem]
      refine .of_eq (congrArg _ (named_congr fun r hr => ?_))
      rw [hnames.nodup.mem_erase_iff]
      exact ⟨fun h => ⟨key_ne_of_perm_cons hk hperm hr, h⟩, fun h => h.2⟩
    split
    · next replacement hfind =>
      -- A row of the partition that is not named takes the place.
      have hnew := List.find?_some hfind
      rw [decide_eq_true_eq] at hnew
      have hrow : replacement.row ∈ rows' := hfetch.subset (List.mem_map_of_mem (List.mem_of_find?_eq_some hfind))
      have hconcat := hnames'.concat hrow hnew
      have hle' := hconcat.length_le hk'
      rw [List.length_append, List.length_singleton] at hle'
      have hsize'' : state.size - 1 + 1 = (state.pks.erase (serializePK c.primaryKey node.row) ++
          [serializePK c.primaryKey replacement.row]).length := by
        rw [List.length_append, List.length_singleton]
        omega
      obtain ⟨rest, hrest⟩ := exists_perm_cons hrow
      have hadd : (Delta.add replacement.row).Applies
          (named c.primaryKey (state.pks.erase (serializePK c.primaryKey node.row)) rows')
          (named c.primaryKey (state.pks.erase (serializePK c.primaryKey node.row) ++
            [serializePK c.primaryKey replacement.row]) rows') := by
        refine ⟨fun h => hnew (by simpa [named] using (List.mem_filter.mp h).2), ?_⟩
        refine (named_concat hk' hrest).trans (.cons _ ?_)
        have hcons : named c.primaryKey (state.pks.erase (serializePK c.primaryKey node.row)) (replacement.row :: rest) =
            named c.primaryKey (state.pks.erase (serializePK c.primaryKey node.row)) rest := named_cons_of_not hnew
        exact (hcons ▸ named_perm hrest).symm
      refine ⟨⟨_, setCapState_self _, ⟨hconcat, hsize'', ?_⟩, .cons hremove (shows_of_names hnames' hsize')
        (.cons hadd ⟨rfl, _, setCapState_self _, hsize'', hconcat, .refl _⟩ (.nil (.refl _)))⟩, fun k hne => ?_, rfl⟩
      · rw [List.length_append, List.length_singleton]
        omega
      · exact (setCapState_of_ne _ hne).trans (setCapState_of_ne _ hne)
    · next hfind =>
      -- Every row left is named.
      have hall : rows'.map (serializePK c.primaryKey) ⊆ state.pks.erase (serializePK c.primaryKey node.row) := by
        intro pk hpk
        obtain ⟨r, hr, rfl⟩ := List.mem_map.mp hpk
        obtain ⟨n, hn, rfl⟩ := List.mem_map.mp (hfetch.mem_iff.mpr hr)
        simpa using List.find?_eq_none.mp hfind n hn
      have hge := (List.subperm_of_subset hk' hall).length_le
      rw [List.length_map] at hge
      have hlength' : (state.pks.erase (serializePK c.primaryKey node.row)).length = min c.limit rows'.length := by
        omega
      exact ⟨⟨_, setCapState_self _, ⟨hnames', hsize', hlength'⟩,
        .cons hremove (shows_of_names hnames' hsize') (.nil (.refl _))⟩, fun k hne => setCapState_of_ne _ hne, rfl⟩

theorem pushChild_settled (hstate : c.states key = some state) (htracks : Tracks c.limit c.primaryKey rows state)
    (hmem : node.row ∈ rows) (hperm : rows'.Perm rows) (name : String) (change : Change) :
    Settled c key state.pks rows rows' (if serializePK c.primaryKey node.row ∈ state.pks then
      ([c.output (.child node name change)], c) else ([], c)) := by
  obtain ⟨hnames, hsize, hlength⟩ := htracks
  have htracks' : Tracks c.limit c.primaryKey rows' state :=
    ⟨hnames.perm hperm.symm, hsize, by rw [hlength, hperm.length_eq]⟩
  split
  · next hpk =>
    have htouch : (Delta.touch node.row).Applies (named c.primaryKey state.pks rows)
        (named c.primaryKey state.pks rows') :=
      ⟨List.mem_filter.mpr ⟨hmem, by simpa using hpk⟩, named_perm hperm⟩
    exact ⟨⟨state, hstate, htracks', .cons htouch ⟨rfl, state, hstate, hsize, htracks'.names, .refl _⟩
      (.nil (.refl _))⟩, fun _ _ => rfl, rfl⟩
  · exact settled_nil hstate htracks' (named_perm hperm)

/-- **One push** of a hydrated partition never fails, and settles. -/
theorem push_settled {input : Input} {change : Change}
    (hkey : getCapStateKey c.partitionKey change.node.row = key) (hstate : c.states key = some state)
    (htracks : Tracks c.limit c.primaryKey rows state) (hk : (rows.map (serializePK c.primaryKey)).Nodup)
    (hk' : (rows'.map (serializePK c.primaryKey)).Nodup) (happlies : change.delta.Applies rows rows')
    (hfetch : ((input.fetch { constraint := partitionConstraint c.partitionKey change.node.row }).map (·.row)).Perm rows')
    (hpart : ∀ n o, change = .edit n o → getCapStateKey c.partitionKey o.row = getCapStateKey c.partitionKey n.row) :
    ∃ pushed, c.push input change = .ok pushed ∧ Settled c key state.pks rows rows' pushed := by
  cases change with
  | add node =>
    obtain ⟨-, hperm⟩ := happlies
    refine ⟨_, ?_, pushAdd_settled hkey hstate htracks hk' hperm⟩
    have hstate' : c.states (getCapStateKey c.partitionKey node.row) = some state := hkey ▸ hstate
    simp only [push, Change.node, hstate']
  | remove node =>
    refine ⟨_, ?_, pushRemove_settled hkey hstate htracks hk happlies hfetch⟩
    have hstate' : c.states (getCapStateKey c.partitionKey node.row) = some state := hkey ▸ hstate
    simp only [push, Change.node, hstate']
  | child node name change =>
    obtain ⟨hmem, hperm⟩ := happlies
    refine ⟨_, ?_, pushChild_settled hstate htracks hmem hperm name change⟩
    have hstate' : c.states (getCapStateKey c.partitionKey node.row) = some state := hkey ▸ hstate
    simp only [push, Change.node, hstate']
    split
    · next hpk => exact if_pos hpk
    · next hpk => exact if_neg hpk
  | edit node oldNode =>
    obtain ⟨kept, hperm, hperm'⟩ := happlies
    have hkeys := hpart node oldNode rfl
    exact pushEdit_settled (hkeys.trans hkey) hkeys.symm hstate htracks hk hk' hperm hperm'

end

end Cap

end ZeroSync
