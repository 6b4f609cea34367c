/-
Bulk insertion and insertion one by one (`putMany_iff`): `putMany` returns, and
leaves what the puts in turn leave, when the keys ascend by `<` and, for an
empty tree, no level is cut into single entries (`Alone`), after which the
levels stay as they are.
-/
import ZeroSync.BTreePutManyFacts
import Mathlib

namespace ZeroSync

open BinarySearch SortedList Blocks NodeImpl

variable {V α β : Type} {next next' n level i : ℕ} {tree : BTreeSizes V} {entries : List (BTreeEntry (NodeImpl V))}
  {keys : List String}

namespace NodeImpl

/-! ## `partition` of values that stand for others -/

/-- The partitioning of the images. -/
def Partitioning.map (f : α → β) (p : Partitioning α) : Partitioning β where
  results := p.results.map (List.map f)
  sum := p.sum
  accum := p.accum.map f
  lastPartition := p.lastPartition.map fun last => (last.1.map f, last.2)

theorem Partitioning.map_commitLast (f : α → β) (p : Partitioning α) : (p.map f).commitLast = p.commitLast.map f := by
  cases h : p.lastPartition <;> simp [Partitioning.map, Partitioning.commitLast, h]

theorem Partitioning.map_push (f : α → β) (getSizeOfEntry : β → ℚ) (min max : ℚ) (p : Partitioning α) (value : α) :
    (p.map f).push getSizeOfEntry min max (f value) = (p.push (fun x => getSizeOfEntry (f x)) min max value).map f := by
  have hlen : (p.map f).accum.length = p.accum.length := List.length_map f
  have hlast := p.map_commitLast f
  unfold Partitioning.push
  dsimp only
  rw [hlen]
  split
  · split
    · rw [hlast]
      simp [Partitioning.map, Partitioning.commitLast]
    · rw [hlast]
      simp [Partitioning.map]
  · rw [show (p.map f).sum = p.sum from rfl]
    split
    · rw [hlast]
      simp [Partitioning.map]
    · simp [Partitioning.map]

theorem Partitioning.map_finish (f : α → β) (max : ℚ) (p : Partitioning α) :
    (p.map f).finish max = (p.finish max).map (List.map f) := by
  have hlast := p.map_commitLast f
  unfold Partitioning.finish
  rw [hlast, show (p.map f).sum = p.sum from rfl]
  split
  · cases h : p.lastPartition with
    | none => simp [Partitioning.map, h]
    | some last =>
      have hmap : (p.map f).lastPartition = some (last.1.map f, last.2) := by simp [Partitioning.map, h]
      rw [hmap]
      dsimp only
      split <;> simp [Partitioning.map]
  · simp [Partitioning.map]

theorem partition_map (f : α → β) (getSizeOfEntry : β → ℚ) (min max : ℚ) (values : List α) :
    partition (values.map f) getSizeOfEntry min max =
      (partition values (fun x => getSizeOfEntry (f x)) min max).map (List.map f) := by
  have hloop : ∀ (values : List α) (p : Partitioning α),
      (values.map f).foldl (Partitioning.push getSizeOfEntry min max) (p.map f) =
        (values.foldl (Partitioning.push (fun x => getSizeOfEntry (f x)) min max) p).map f := by
    intro values
    induction values with
    | nil => exact fun p => rfl
    | cons value values ih =>
      intro p
      rw [List.map_cons, List.foldl_cons, List.foldl_cons, p.map_push, ih]
  have h := hloop values { results := [], sum := 0, accum := [], lastPartition := none }
  rw [partition, partition, ← Partitioning.map_finish, ← h]
  rfl

theorem partition_congr {size size' : α → ℚ} {values : List α} (h : ∀ value ∈ values, size value = size' value) (min max : ℚ) :
    partition values size min max = partition values size' min max := by
  have hloop : ∀ (values : List α) (p : Partitioning α), (∀ value ∈ values, size value = size' value) →
      values.foldl (Partitioning.push size min max) p = values.foldl (Partitioning.push size' min max) p := by
    intro values
    induction values with
    | nil => exact fun p _ => rfl
    | cons value values ih =>
      intro p h
      have hpush : p.push size min max value = p.push size' min max value := by
        unfold Partitioning.push
        rw [h value (List.mem_cons_self ..)]
      rw [List.foldl_cons, List.foldl_cons, hpush, ih _ fun v hv => h v (List.mem_cons_of_mem _ hv)]
  rw [partition, partition, hloop values _ h]

/-! ## The keys of the levels -/

/-- The parts of the entries for nodes with these largest keys. -/
def keyParts (tree : BTreeSizes V) (keys : List String) : List (List String) :=
  partition keys (fun key => tree.getHashSize key BTreeWrite.emptyHash) (tree.minSize - tree.chunkHeaderSize)
    (tree.maxSize - tree.chunkHeaderSize)

/-- The largest keys of the nodes of the level above. -/
def parentKeys (tree : BTreeSizes V) (keys : List String) : List String := (keyParts tree keys).filterMap (·.getLast?)

/-- Each of two or more nodes would be the only child of a parent. -/
def Alone (tree : BTreeSizes V) (keys : List String) : Prop :=
  1 < keys.length ∧ ∀ part ∈ keyParts tree keys, part.length = 1

theorem keyParts_spec (tree : BTreeSizes V) (keys : List String) :
    (keyParts tree keys).flatten = keys ∧ ∀ part ∈ keyParts tree keys, part ≠ [] :=
  partition_spec (fun _ _ => tree.getHashSize_pos _ _) _ _

theorem length_parentKeys (tree : BTreeSizes V) (keys : List String) :
    (parentKeys tree keys).length = (keyParts tree keys).length := by
  have hne := (keyParts_spec tree keys).2
  rw [parentKeys]
  generalize keyParts tree keys = parts at hne
  induction parts with
  | nil => rfl
  | cons part parts ih =>
    obtain ⟨hpart, hparts⟩ := List.forall_mem_cons.mp hne
    obtain ⟨init, key, rfl⟩ := (List.eq_nil_or_concat part).resolve_left hpart
    rw [List.filterMap_cons_some (b := key) (by simp), List.length_cons, List.length_cons, ih hparts]

/-- A list in parts that are not empty has no more parts than elements, and as many only when they are single. -/
theorem length_le_flatten {parts : List (List α)} (hne : ∀ part ∈ parts, part ≠ []) :
    parts.length ≤ parts.flatten.length ∧ (parts.length = parts.flatten.length → ∀ part ∈ parts, part.length = 1) := by
  induction parts with
  | nil => simp
  | cons part parts ih =>
    obtain ⟨hpart, hparts⟩ := List.forall_mem_cons.mp hne
    obtain ⟨hle, heq⟩ := ih hparts
    have hpos : 0 < part.length := List.length_pos_iff.mpr hpart
    rw [List.flatten_cons, List.length_append, List.length_cons]
    refine ⟨by omega, fun h => List.forall_mem_cons.mpr ⟨by omega, heq (by omega)⟩⟩

theorem length_parentKeys_le (tree : BTreeSizes V) (keys : List String) : (parentKeys tree keys).length ≤ keys.length := by
  obtain ⟨hflat, hne⟩ := keyParts_spec tree keys
  have h := (length_le_flatten hne).1
  rwa [hflat, ← length_parentKeys] at h

theorem length_parentKeys_lt (hlen : 1 < keys.length) (h : ¬ Alone tree keys) :
    (parentKeys tree keys).length < keys.length := by
  obtain ⟨hflat, hne⟩ := keyParts_spec tree keys
  refine lt_of_le_of_ne (length_parentKeys_le tree keys) fun heq => h ⟨hlen, ?_⟩
  rw [length_parentKeys] at heq
  exact (length_le_flatten hne).2 (by rwa [hflat])

theorem Alone.parentKeys_eq (h : Alone tree keys) : parentKeys tree keys = keys := by
  have hflat := (keyParts_spec tree keys).1
  have hone := h.2
  rw [parentKeys]
  revert hflat
  generalize keyParts tree keys = parts at hone
  intro hflat
  rw [← hflat]
  clear hflat h
  induction parts with
  | nil => rfl
  | cons part parts ih =>
    obtain ⟨hpart, hparts⟩ := List.forall_mem_cons.mp hone
    obtain ⟨key, rfl⟩ := List.length_eq_one_iff.mp hpart
    have htail : (List.filterMap (fun part : List String => part.getLast?) ([key] :: parts)) =
        key :: parts.filterMap (·.getLast?) := rfl
    rw [htail, ih hparts, List.flatten_cons, List.singleton_append]

theorem not_alone_of_length (h : keys.length ≤ 1) : ¬ Alone tree ((parentKeys tree)^[i] keys) := by
  have hle : ((parentKeys tree)^[i] keys).length ≤ 1 := by
    induction i with
    | zero => exact h
    | succ i ih =>
      rw [Function.iterate_succ_apply']
      exact (length_parentKeys_le tree _).trans ih
  exact fun h => absurd h.1 (by omega)

/-! ## Levels -/

/-- The entries for the nodes of a level of the new tree, whose hashes are from `first` on. -/
structure LevelOf (tree : BTreeSizes V) (first next n : ℕ) (entries : List (BTreeEntry (NodeImpl V))) : Prop where
  valid : ValidEntries next n entries
  made : (entries.map (·.value)).mapM (createNewInternalEntryForNode tree) = some entries
  fresh : ∀ e ∈ entries, first ≤ e.value.hash
  size : ∀ e ∈ entries, e.sizeOfEntry = tree.getHashSize e.key e.value.hash

/-- `createNodes` makes the nodes, and then the entries for them. -/
theorem createNodes_newNodes {newNode : List (BTreeEntry α) → ℕ → NodeImpl V × ℕ}
    (hnew : ∀ part next, (newNode part next).1.hash = next ∧ (newNode part next).2 = next + 1 ∧
      (newNode part next).1.maxKey = part.getLast?.map (·.key))
    {parts : List (List (BTreeEntry α))} (h : createNodes tree newNode parts next = some (entries, next')) :
    newNodes newNode parts next = (entries.map (·.value), next') ∧
      (entries.map (·.value)).mapM (createNewInternalEntryForNode tree) = some entries ∧
      (∀ e ∈ entries, next ≤ e.value.hash) ∧ (∀ e ∈ entries, e.sizeOfEntry = tree.getHashSize e.key e.value.hash) ∧
      entries.map (·.key) = parts.filterMap fun part => part.getLast?.map (·.key) := by
  induction parts generalizing next entries with
  | nil =>
    cases h
    exact ⟨rfl, rfl, by simp, by simp, rfl⟩
  | cons part parts ih =>
    obtain ⟨hhash, hnext, hmax⟩ := hnew part next
    rw [createNodes] at h
    rw [newNodes]
    generalize newNode part next = r at h hhash hnext hmax
    obtain ⟨node, m⟩ := r
    dsimp only at h hhash hnext hmax
    subst hnext
    obtain ⟨e, he, h⟩ := Option.bind_eq_some_iff.mp h
    obtain ⟨⟨rest, next''⟩, hrest, h⟩ := Option.bind_eq_some_iff.mp h
    cases h
    obtain ⟨hnodes, hmap, hfresh, hsize, hkeys⟩ := ih hrest
    rw [createNewInternalEntryForNode, hmax] at he
    obtain ⟨key, hkey, rfl⟩ := Option.map_eq_some_iff.mp he
    refine ⟨?_, ?_, List.forall_mem_cons.mpr ⟨hhash.ge, fun e' he' => (Nat.le_succ next).trans (hfresh e' he')⟩,
      List.forall_mem_cons.mpr ⟨rfl, hsize⟩, ?_⟩
    · dsimp only
      rw [hnodes]
      rfl
    · have hone : createNewInternalEntryForNode tree node =
          some { key, value := node, sizeOfEntry := tree.getHashSize key node.hash } := by
        rw [createNewInternalEntryForNode, hmax, hkey]
        rfl
      rw [List.map_cons, List.mapM_cons, hmap, hone]
      rfl
    · rw [List.map_cons, hkeys, List.filterMap_cons, hkey]

/-- The level above: its nodes hold the same entries, under the keys of `parentKeys`. -/
theorem LevelOf.parent {first : ℕ} (h : LevelOf tree first next n entries) (hle : first ≤ next)
    (hhash : ∀ key hash hash', tree.getHashSize key hash = tree.getHashSize key hash') :
    ∃ entries' next', newNodes (newInternalNodeImpl (n + 1)) (partition entries (·.sizeOfEntry)
        (tree.minSize - tree.chunkHeaderSize) (tree.maxSize - tree.chunkHeaderSize)) next =
          (entries'.map (·.value), next') ∧
      next ≤ next' ∧ LevelOf tree first next' (n + 1) entries' ∧ entriesBelow entries' = entriesBelow entries ∧
      entries'.map (·.key) = parentKeys tree (entries.map (·.key)) := by
  obtain ⟨entries', next', hnew, hle', hv, hbelow⟩ := partitionNodes_spec (.internal h.valid) tree
  rw [partitionNodes] at hnew
  obtain ⟨hnodes, hmap, hfresh, hsize, hkeys⟩ := createNodes_newNodes (fun part next => ⟨rfl, rfl, rfl⟩) hnew
  refine ⟨entries', next', hnodes, hle', ⟨hv, hmap, fun e he => hle.trans (hfresh e he), hsize⟩, hbelow, ?_⟩
  have hsizes : ∀ e ∈ entries, e.sizeOfEntry = tree.getHashSize e.key BTreeWrite.emptyHash := fun e he => by
    rw [h.size e he]
    exact hhash _ _ _
  rw [hkeys, parentKeys, keyParts, partition_map, ← partition_congr hsizes, List.filterMap_map]
  simp [List.getLast?_map]

theorem buildLevels_succ (hlen : 1 < entries.length)
    (hmade : (entries.map (·.value)).mapM (createNewInternalEntryForNode tree) = some entries)
    {nodes : List (NodeImpl V)} (hnodes : newNodes (newInternalNodeImpl (level + 1)) (partition entries (·.sizeOfEntry)
      (tree.minSize - tree.chunkHeaderSize) (tree.maxSize - tree.chunkHeaderSize)) next = (nodes, next')) (fuel : ℕ) :
    buildLevels tree (fuel + 1) level (entries.map (·.value)) next = buildLevels tree fuel (level + 1) nodes next' := by
  rw [buildLevels, if_pos (by rwa [List.length_map]), hmade]
  simp only [Option.bind_eq_bind, Option.bind_some, hnodes]

theorem LevelOf.root {first : ℕ} {r : NodeImpl V × ℕ} (h : LevelOf tree first next n entries) (hle : first ≤ next)
    (hlen : ¬ 1 < entries.length) (hr : (entries.map (·.value))[0]?.map (fun node => (node, next)) = some r) :
    Made first n (entriesBelow entries) r := by
  obtain ⟨node, hnode, rfl⟩ := Option.map_eq_some_iff.mp hr
  rw [List.getElem?_map] at hnode
  obtain ⟨e, he, rfl⟩ := Option.map_eq_some_iff.mp hnode
  obtain ⟨hzero, -⟩ := List.getElem?_eq_some_iff.mp he
  obtain ⟨e', rfl⟩ := List.length_eq_one_iff.mp (show entries.length = 1 by omega)
  obtain rfl := Option.some.inj he
  exact ⟨hle, h.fresh e' (by simp), h.valid.child e' (by simp), (List.flatMap_singleton ..).symm⟩

theorem LevelOf.built {first fuel : ℕ} {r : NodeImpl V × ℕ} (h : LevelOf tree first next n entries) (hle : first ≤ next)
    (hhash : ∀ key hash hash', tree.getHashSize key hash = tree.getHashSize key hash')
    (hr : buildLevels tree fuel n (entries.map (·.value)) next = some r) :
    ∃ m, Made first m (entriesBelow entries) r := by
  induction fuel generalizing n next entries with
  | zero =>
    rw [buildLevels] at hr
    split at hr
    · cases hr
    · next hlen => exact ⟨n, h.root hle (by rwa [List.length_map] at hlen) hr⟩
  | succ fuel ih =>
    by_cases hlen : 1 < entries.length
    · obtain ⟨entries', next', hnodes, hle', hlevel, hbelow, -⟩ := h.parent hle hhash
      rw [buildLevels_succ hlen h.made hnodes] at hr
      exact hbelow ▸ ih hlevel (hle.trans hle') hr
    · rw [buildLevels, if_neg (by rwa [List.length_map])] at hr
      exact ⟨n, h.root hle hlen hr⟩

theorem LevelOf.ends {first : ℕ} (h : LevelOf tree first next n entries) (hle : first ≤ next)
    (hhash : ∀ key hash hash', tree.getHashSize key hash = tree.getHashSize key hash') (hne : entries ≠ [])
    (hshrink : ∀ i, ¬ Alone tree ((parentKeys tree)^[i] (entries.map (·.key)))) :
    ∃ fuel r, buildLevels tree fuel n (entries.map (·.value)) next = some r := by
  induction hk : entries.length using Nat.strong_induction_on generalizing n next entries with
  | _ k ih =>
    subst hk
    by_cases hlen : 1 < entries.length
    · obtain ⟨entries', next', hnodes, hle', hlevel, hbelow, hkeys⟩ := h.parent hle hhash
      have hlt : entries'.length < entries.length := by
        have hlt := length_parentKeys_lt (by rwa [Function.iterate_zero_apply, List.length_map]) (hshrink 0)
        rwa [Function.iterate_zero_apply, ← hkeys, List.length_map, List.length_map] at hlt
      have hne' : entries' ≠ [] := by
        rintro rfl
        exact hne ((Named.flatMap_eq_nil h.valid.key).mp hbelow.symm)
      obtain ⟨fuel, r, hr⟩ := ih _ hlt hlevel (hle.trans hle') hne' (fun i => by
        rw [hkeys, ← Function.iterate_succ_apply]
        exact hshrink (i + 1)) rfl
      exact ⟨fuel + 1, r, by rw [buildLevels_succ hlen h.made hnodes, hr]⟩
    · obtain ⟨e, entries', rfl⟩ := List.exists_cons_of_ne_nil hne
      refine ⟨0, (e.value, next), ?_⟩
      rw [buildLevels, if_neg (by rwa [List.length_map])]
      rfl

theorem LevelOf.never {first : ℕ} (h : LevelOf tree first next n entries) (hle : first ≤ next)
    (hhash : ∀ key hash hash', tree.getHashSize key hash = tree.getHashSize key hash') (i : ℕ)
    (halone : Alone tree ((parentKeys tree)^[i] (entries.map (·.key)))) (fuel : ℕ) :
    buildLevels tree fuel n (entries.map (·.value)) next = none := by
  induction fuel generalizing n next entries i with
  | zero =>
    have hlen : 1 < entries.length := by
      by_contra hlen
      exact not_alone_of_length (by rw [List.length_map]; omega) halone
    rw [buildLevels, if_pos (by rwa [List.length_map])]
  | succ fuel ih =>
    have hlen : 1 < entries.length := by
      by_contra hlen
      exact not_alone_of_length (by rw [List.length_map]; omega) halone
    obtain ⟨entries', next', hnodes, hle', hlevel, -, hkeys⟩ := h.parent hle hhash
    rw [buildLevels_succ hlen h.made hnodes]
    cases i with
    | zero =>
      -- The level above has the same keys.
      refine ih hlevel (hle.trans hle') 0 ?_
      rw [Function.iterate_zero_apply] at halone ⊢
      rwa [hkeys, halone.parentKeys_eq]
    | succ i =>
      refine ih hlevel (hle.trans hle') i ?_
      rwa [hkeys, ← Function.iterate_succ_apply]

end NodeImpl

/-! ## Trees -/

namespace BTreeWrite

variable {t : BTreeWrite V} {es : List (String × V)}

/-- Well-formed trees: the leaves at one depth and the keys right, the entries in order, and nothing below `emptyHash`. -/
structure WellFormed (t : BTreeWrite V) : Prop where
  level : ∃ n, Valid t.nextHash n t.root
  sorted : t.entries.Pairwise fun a b => compare a.key b.key = .lt
  empty : t.root.hash = emptyHash → t.entries = []

/-- The largest keys of the leaves that an empty tree gets. -/
def leafKeys (tree : BTreeSizes V) (es : List (String × V)) : List String :=
  (partition (sizedEntries tree es) (·.sizeOfEntry) (tree.minSize - tree.chunkHeaderSize)
    (tree.maxSize - tree.chunkHeaderSize)).filterMap fun part => part.getLast?.map (·.key)

/-- Entry by entry. -/
def putEach (tree : BTreeSizes V) (es : List (String × V)) (t : BTreeWrite V) : Option (BTreeWrite V) :=
  es.foldlM (fun t e => t.put tree e.1 e.2) t

theorem sorted_sizedEntries (hasc : es.Pairwise fun a b => compare a.1 b.1 = .lt) :
    Sorted byKey (sizedEntries tree es) := List.pairwise_map.mpr hasc

theorem sizedEntries_pos (tree : BTreeSizes V) (es : List (String × V)) :
    ∀ e ∈ sizedEntries tree es, 0 < e.sizeOfEntry :=
  List.forall_mem_map.mpr fun _ _ => tree.getEntrySize_pos _ _

/-- **The puts in turn** put each entry in its place. -/
theorem putEach_spec (h : Valid t.nextHash n t.root) (hs : Sorted byKey t.entries) (tree : BTreeSizes V)
    (es : List (String × V)) :
    ∃ t', t.putEach tree es = some t' ∧ t'.entries = insertKeys byKey (sizedEntries tree es) t.entries := by
  induction es generalizing t n with
  | nil => exact ⟨t, rfl, rfl⟩
  | cons e es ih =>
    obtain ⟨t₁, m, hput, hv, hentries⟩ := put_spec h hs tree e.1 e.2
    obtain ⟨t', hrest, hentries'⟩ := ih hv (hentries ▸ hs.insertKey _)
    refine ⟨t', ?_, by rw [hentries', hentries]; rfl⟩
    rw [putEach, List.foldlM_cons, hput]
    exact hrest

theorem wellFormed_of_made {r : NodeImpl V × ℕ} (hnext : 0 < t.nextHash) (hs : Sorted byKey t.entries)
    {sized : List (BTreeEntry V)} (hmade : Made t.nextHash n (insertKeys byKey sized t.entries) r) :
    WellFormed { root := r.1, nextHash := r.2 } where
  level := ⟨n, hmade.valid⟩
  sorted := by
    rw [entries, hmade.below]
    exact hs.insertKeys sized
  empty hempty := by
    have hle : t.nextHash ≤ r.1.hash := hmade.fresh
    have hzero : r.1.hash = 0 := hempty
    omega

theorem putMany_merge (h : Valid t.nextHash n t.root) (hs : Sorted byKey t.entries) (hroot : t.root.hash ≠ emptyHash)
    (hne : es ≠ []) (hasc : es.Pairwise fun a b => compare a.1 b.1 = .lt) (hsorted : AssertSorted es) (fuel : ℕ) :
    ∃ r m, t.putMany tree fuel es = some { root := r.1, nextHash := r.2 } ∧
      Made t.nextHash m (insertKeys byKey (sizedEntries tree es) t.entries) r := by
  have hsized : sizedEntries tree es ≠ [] := by simpa [sizedEntries] using hne
  obtain ⟨⟨rootNode, next⟩, hput, hmade⟩ := putMany_spec h hs tree hsized (sorted_sizedEntries hasc)
    (sizedEntries_pos tree es)
  obtain ⟨hfits, hbelow⟩ := hmade.valid.fits
  rw [BTreeWrite.putMany, if_neg (by rwa [List.length_eq_zero_iff]), if_neg (not_not.mpr hsorted), if_neg hroot, hput]
  simp only [Option.bind_eq_bind, Option.bind_some, hmade.valid.level_eq]
  split
  · obtain ⟨newEntries, next', hnew, hle, hv, hflat⟩ := partitionNodes_spec hfits tree
    rw [hbelow, hmade.below] at hflat
    have hnil : newEntries ≠ [] := by
      rintro rfl
      exact insertKeys_ne_nil hsized _ hflat.symm
    have hnew' := hv.made hnil hle
    rw [hflat] at hnew'
    rw [hnew]
    exact ⟨_, _, rfl, hnew'.from hmade.mono⟩
  · exact ⟨_, _, rfl, hmade⟩

theorem putMany_empty (tree : BTreeSizes V) (hroot : t.root.hash = emptyHash) (hne : es ≠ []) (hsorted : AssertSorted es) (fuel : ℕ) :
    t.putMany tree fuel es =
      match partition (sizedEntries tree es) (·.sizeOfEntry) (tree.minSize - tree.chunkHeaderSize)
        (tree.maxSize - tree.chunkHeaderSize) with
      | [] => some t
      | [part] => some { root := data t.nextHash true part, nextHash := t.nextHash + 1 }
      | leafPartitions => do
        let (currentLevel, next) := newNodes newDataNodeImpl leafPartitions t.nextHash
        let (root, next) ← buildLevels tree fuel 0 currentLevel next
        return { root, nextHash := next } := by
  rw [BTreeWrite.putMany, if_neg (by rwa [List.length_eq_zero_iff]), if_neg (not_not.mpr hsorted), if_pos hroot]
  rfl

theorem putMany_build (tree : BTreeSizes V) (hroot : t.root.hash = emptyHash) (hne : es ≠ []) (hsorted : AssertSorted es) :
    (∃ leaf, leafKeys tree es = [leaf] ∧ ∀ fuel, t.putMany tree fuel es =
      some { root := data t.nextHash true (sizedEntries tree es), nextHash := t.nextHash + 1 }) ∨
    ∃ leaves next, LevelOf tree t.nextHash next 0 leaves ∧ t.nextHash ≤ next ∧
      entriesBelow leaves = sizedEntries tree es ∧ leaves.map (·.key) = leafKeys tree es ∧
      ∀ fuel, t.putMany tree fuel es = (buildLevels tree fuel 0 (leaves.map (·.value)) next).map
        fun r => { root := r.1, nextHash := r.2 } := by
  have hsized : sizedEntries tree es ≠ [] := by simpa [sizedEntries] using hne
  obtain ⟨hflat, hparts⟩ := partition_spec (sizedEntries_pos tree es) (tree.minSize - tree.chunkHeaderSize)
    (tree.maxSize - tree.chunkHeaderSize)
  have hfits : Fits t.nextHash 0 (.data (sizedEntries tree es)) := .data (sizedEntries_pos tree es)
  obtain ⟨leaves, next, hnew, hle, hv, hbelow⟩ := partitionNodes_spec hfits tree
  rw [partitionNodes] at hnew
  obtain ⟨hnodes, hmap, hfresh, hsize, hkeys⟩ := createNodes_newNodes (fun part next => ⟨rfl, rfl, rfl⟩) hnew
  obtain ⟨parts, hp⟩ : ∃ parts, partition (sizedEntries tree es) (·.sizeOfEntry) (tree.minSize - tree.chunkHeaderSize)
    (tree.maxSize - tree.chunkHeaderSize) = parts := ⟨_, rfl⟩
  have hput (fuel : ℕ) := putMany_empty tree hroot hne hsorted fuel
  rw [leafKeys]
  rw [hp] at hflat hparts hnodes hkeys ⊢
  simp only [hp] at hput
  match parts, hparts with
  | [], _ => exact absurd hflat.symm hsized
  | [part], hparts =>
    rw [List.flatten_singleton] at hflat
    subst hflat
    obtain ⟨init, e, hinit⟩ := (List.eq_nil_or_concat (sizedEntries tree es)).resolve_left hsized
    exact .inl ⟨e.key, by simp [hinit], hput⟩
  | part :: part' :: parts, _ =>
    refine .inr ⟨leaves, next, ⟨hv, hmap, hfresh, hsize⟩, hle, hbelow, hkeys, fun fuel => ?_⟩
    rw [hput fuel]
    dsimp only
    rw [hnodes, Option.bind_eq_bind, Option.map_eq_bind]
    rfl

/-- **`putMany` returns** what the puts in turn leave. -/
theorem WellFormed.putMany (h : t.WellFormed) (hhash : ∀ key hash hash', tree.getHashSize key hash = tree.getHashSize key hash')
    (hasc : es.Pairwise fun a b => compare a.1 b.1 = .lt) (hsorted : AssertSorted es)
    (hshrink : t.root.hash = emptyHash → ∀ i, ¬ Alone tree ((parentKeys tree)^[i] (leafKeys tree es))) :
    ∃ fuel t', t.putMany tree fuel es = some t' ∧ t'.WellFormed ∧
      t'.entries = insertKeys byKey (sizedEntries tree es) t.entries := by
  obtain ⟨n, hv⟩ := h.level
  have hnext : 0 < t.nextHash := Nat.zero_lt_of_lt hv.hash_lt
  by_cases hne : es = []
  · subst hne
    exact ⟨0, t, by rw [BTreeWrite.putMany]; rfl, h, rfl⟩
  have hfresh {m : ℕ} {r : NodeImpl V × ℕ} (hr : Made t.nextHash m (insertKeys byKey (sizedEntries tree es) t.entries) r) :
      WellFormed { root := r.1, nextHash := r.2 } ∧
        r.1.entriesIter = insertKeys byKey (sizedEntries tree es) t.entries :=
    ⟨wellFormed_of_made hnext h.sorted hr, hr.below⟩
  by_cases hroot : t.root.hash = emptyHash
  · have hbuilt : insertKeys byKey (sizedEntries tree es) t.entries = sizedEntries tree es := by
      rw [h.empty hroot, insertKeys_after (sorted_sizedEntries hasc) (by simp)]
      rfl
    rcases putMany_build tree hroot hne hsorted with ⟨leaf, -, hput⟩ | ⟨leaves, next, hlevel, hle, hbelow, hkeys, hput⟩
    · have hmade : Made t.nextHash 0 (insertKeys byKey (sizedEntries tree es) t.entries)
          (newDataNodeImpl (sizedEntries tree es) t.nextHash) := by
        rw [hbuilt]
        exact made_data (sizedEntries_pos tree es)
      obtain ⟨hw, hentries⟩ := hfresh hmade
      exact ⟨0, _, hput 0, hw, hentries⟩
    · have hleaves : leaves ≠ [] := by
        rintro rfl
        exact hne (List.map_eq_nil_iff.mp hbelow.symm)
      obtain ⟨fuel, r, hr⟩ := hlevel.ends hle hhash hleaves (by rw [hkeys]; exact hshrink hroot)
      obtain ⟨m, hmade⟩ := hlevel.built hle hhash hr
      rw [hbelow, ← hbuilt] at hmade
      obtain ⟨hw, hentries⟩ := hfresh hmade
      exact ⟨fuel, _, by rw [hput, hr]; rfl, hw, hentries⟩
  · obtain ⟨r, m, hput, hmade⟩ := putMany_merge hv h.sorted hroot hne hasc hsorted 0
    obtain ⟨hw, hentries⟩ := hfresh hmade
    exact ⟨0, _, hput, hw, hentries⟩

/-- **`putMany` never returns** when a level is cut into single entries. -/
theorem putMany_never (hhash : ∀ key hash hash', tree.getHashSize key hash = tree.getHashSize key hash')
    (hroot : t.root.hash = emptyHash) (hsorted : AssertSorted es) {i : ℕ}
    (halone : Alone tree ((parentKeys tree)^[i] (leafKeys tree es))) (fuel : ℕ) : t.putMany tree fuel es = none := by
  have hne : es ≠ [] := by
    rintro rfl
    exact not_alone_of_length (by simp [leafKeys, sizedEntries, partition, Partitioning.finish, Partitioning.commitLast]) halone
  rcases putMany_build tree hroot hne hsorted with ⟨leaf, hleaf, -⟩ | ⟨leaves, next, hlevel, hle, -, hkeys, hput⟩
  · rw [hleaf] at halone
    exact absurd halone (not_alone_of_length (by simp))
  · rw [← hkeys] at halone
    rw [hput, hlevel.never hle hhash i halone]
    rfl

/-- **Bulk insertion** succeeds with what insertion one by one leaves, exactly
when the keys ascend by `<` too and no level that an empty tree gets is cut
into single entries. -/
theorem putMany_iff (tree : BTreeSizes V) (hhash : ∀ key hash hash', tree.getHashSize key hash = tree.getHashSize key hash')
    (t : BTreeWrite V) (h : t.WellFormed) (es : List (String × V)) (hasc : es.Pairwise fun a b => compare a.1 b.1 = .lt) :
    (∃ fuel t' t'', t.putMany tree fuel es = some t' ∧ t.putEach tree es = some t'' ∧ t'.WellFormed ∧
      t'.entries = t''.entries) ↔
    AssertSorted es ∧ (t.root.hash = emptyHash → ∀ i, ¬ Alone tree ((parentKeys tree)^[i] (leafKeys tree es))) := by
  obtain ⟨n, hv⟩ := h.level
  obtain ⟨t'', heach, hentries''⟩ := putEach_spec hv h.sorted tree es
  constructor
  · rintro ⟨fuel, t', -, hput, -⟩
    have hsorted : AssertSorted es := by
      by_contra hsorted
      have hne : es.length ≠ 0 := by
        intro hlen
        rw [List.length_eq_zero_iff.mp hlen] at hsorted
        exact hsorted .nil
      rw [BTreeWrite.putMany, if_neg hne, if_pos hsorted] at hput
      cases hput
    refine ⟨hsorted, fun hroot i halone => ?_⟩
    rw [putMany_never hhash hroot hsorted halone] at hput
    cases hput
  · rintro ⟨hsorted, hshrink⟩
    obtain ⟨fuel, t', hput, hw, hentries⟩ := h.putMany hhash hasc hsorted hshrink
    exact ⟨fuel, t', t'', hput, heach, hw, hentries.trans hentries''.symm⟩

theorem wellFormed_empty : (empty : BTreeWrite V).WellFormed :=
  ⟨⟨0, .data Nat.zero_lt_one (by simp)⟩, by simp [entries, empty, emptyDataNodeImpl], fun _ => rfl⟩

/-- Sizes of a tree of numbers, each internal entry of one size. -/
def hashSizes (hashSize : ℚ) (h : 0 < hashSize) : BTreeSizes ℕ where
  minSize := 10
  maxSize := 20
  chunkHeaderSize := 1
  getEntrySize _ _ := 30
  getHashSize _ _ := hashSize
  getEntrySize_pos _ _ := by norm_num
  getHashSize_pos _ _ := h

theorem leafKeys_hashSizes (hashSize : ℚ) (h : 0 < hashSize) :
    leafKeys (hashSizes hashSize h) [("a", 1), ("b", 2)] = ["a", "b"] := by
  norm_num [leafKeys, sizedEntries, hashSizes, partition, Partitioning.push, Partitioning.commitLast, Partitioning.finish]
  rfl

theorem putMany_iff_two : ∃ fuel t' t'', (empty : BTreeWrite ℕ).putMany (hashSizes 1 (by norm_num)) fuel [("a", 1), ("b", 2)] =
    some t' ∧ empty.putEach (hashSizes 1 (by norm_num)) [("a", 1), ("b", 2)] = some t'' ∧ t'.WellFormed ∧
      t'.entries = t''.entries := by
  refine (putMany_iff (hashSizes 1 (by norm_num)) (fun _ _ _ => rfl) empty wellFormed_empty [("a", 1), ("b", 2)]
    (by decide +kernel)).mpr ⟨by decide +kernel, fun _ i => ?_⟩
  rw [leafKeys_hashSizes]
  cases i with
  | zero => norm_num [Alone, keyParts, hashSizes, partition, Partitioning.push, Partitioning.commitLast, Partitioning.finish]
  | succ i =>
    rw [Function.iterate_succ_apply]
    refine not_alone_of_length ?_
    norm_num [parentKeys, keyParts, hashSizes, partition, Partitioning.push, Partitioning.commitLast, Partitioning.finish]
    exact le_rfl

/-- Keys in the order of the tree that the assertion rejects, and keys whose internal entries are too large to share a node. -/
theorem putMany_fails :
    ([("～", 1), ("😀", 2)] : List (String × ℕ)).Pairwise (fun a b => compare a.1 b.1 = .lt) ∧
    (∀ fuel, (empty : BTreeWrite ℕ).putMany (hashSizes 1 (by norm_num)) fuel [("～", 1), ("😀", 2)] = none) ∧
    ([("a", 1), ("b", 2)] : List (String × ℕ)).Pairwise (fun a b => compare a.1 b.1 = .lt) ∧
    ∀ fuel, (empty : BTreeWrite ℕ).putMany (hashSizes 30 (by norm_num)) fuel [("a", 1), ("b", 2)] = none := by
  refine ⟨by decide +kernel, fun fuel => ?_, by decide +kernel, fun fuel => ?_⟩
  · rw [BTreeWrite.putMany, if_neg (by decide), if_pos (by decide +kernel)]
  · have halone : Alone (hashSizes 30 (by norm_num)) ((parentKeys (hashSizes 30 (by norm_num)))^[0]
        (leafKeys (hashSizes 30 (by norm_num)) [("a", 1), ("b", 2)])) := by
      rw [leafKeys_hashSizes]
      norm_num [Alone, keyParts, hashSizes, partition, Partitioning.push, Partitioning.commitLast, Partitioning.finish]
    exact putMany_never (fun _ _ _ => rfl) rfl (by decide +kernel) halone fuel

end BTreeWrite

end ZeroSync
