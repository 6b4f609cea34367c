/-
`set` puts an entry in its place among those below a node (`set_spec`).

A child that has grown too large, or is too small, is joined with a sibling
and cut into new nodes of its level (`mergeAndPartition_spec`); only the root
grows a level.
-/
import ZeroSync.BTreeWriteNodes

namespace ZeroSync

open BinarySearch SortedList Blocks

namespace NodeImpl

variable {V α : Type} {next next' n hash level : ℕ} {modified : Bool} {node child : NodeImpl V}
  {entries A B : List (BTreeEntry (NodeImpl V))} {tree : BTreeSizes V} {key : String}

/-- Entries by their keys, in the order of `compareUTF8`. -/
abbrev byKey : BTreeEntry α → BTreeEntry α → Ordering := compareOn (·.key)

/-- An entry and a key. -/
abbrev toKey (e : BTreeEntry α) (key : String) : Ordering := compare e.key key

/-! ## Searching -/

theorem place_located {entries : List (BTreeEntry α)} (hs : Sorted byKey entries) (key : String) :
    Located toKey key entries (place key entries) := by
  have hasc : Ascending toKey key entries := .of_sorted (f := BTreeEntry.key) hs key
  refine search_located hasc (fun low high hlt => by omega) (fun i hi => ?_) (Nat.sub_le _ _) (Nat.zero_le _)
    le_rfl (fun _ _ hj => absurd hj (by omega)) (fun _ _ hj => absurd hj (by omega))
  rw [List.getElem?_eq_getElem hi]
  exact Std.OrientedCmp.eq_swap.symm

theorem binarySearchFound_place {entries : List (BTreeEntry α)} (hs : Sorted byKey entries) (key : String) :
    binarySearchFound (binarySearch key entries) entries key = (place key entries).isFound := by
  have hloc := place_located hs key
  rw [binarySearch, binarySearchFound]
  generalize place key entries = p at hloc
  cases hloc with
  | @found a x b ha hx hb =>
    have hkey : x.key = key := Std.LawfulEqCmp.eq_of_compare hx
    simp [Position.index, Position.isFound, hkey]
  | @missing a b ha hb =>
    cases b with
    | nil => simp [Position.index, Position.isFound]
    | cons y b =>
      have hne : y.key ≠ key := by
        rintro rfl
        have hself : compare y.key y.key = .eq := Std.ReflCmp.compare_self
        exact absurd (hself.symm.trans (hb y (by simp))) (by decide)
      simp [Position.index, Position.isFound, hne]

theorem readonlySplice_append (a m b items : List α) :
    readonlySplice (a ++ (m ++ b)) a.length m.length items = a ++ (items ++ b) := by
  rw [readonlySplice, List.take_left, ← List.drop_drop, List.drop_left, List.drop_left, List.append_assoc]

theorem readonlySplice_one (a : List α) (x : α) (b items : List α) :
    readonlySplice (a ++ x :: b) a.length 1 items = a ++ (items ++ b) := readonlySplice_append a [x] b items

theorem sorted_below (hs : Sorted byKey (entries.flatMap fun e => e.value.entriesIter)) :
    Sorted compare ((entries.flatMap fun e => e.value.entriesIter).map (·.key)) := List.pairwise_map.mpr hs

theorem ValidEntries.route (h : ValidEntries next n entries)
    (hs : Sorted byKey (entries.flatMap fun e => e.value.entriesIter)) (key : String) :
    (binarySearch key entries = entries.length ∧
      ∀ x ∈ entries.flatMap fun e => e.value.entriesIter, toKey x key = .lt) ∨
    ∃ A e B, entries = A ++ e :: B ∧ binarySearch key entries = A.length ∧
      (∀ x ∈ A.flatMap fun e => e.value.entriesIter, toKey x key = .lt) ∧
      ∀ x ∈ B.flatMap fun e => e.value.entriesIter, toKey x key = .gt := by
  have hs := sorted_below hs
  have hnames : Sorted byKey entries := List.pairwise_map.mp (hs.sublist (Named.sublist h.key))
  have hloc := @Located.map _ _ compare _ key BTreeEntry.key _ _ (place_located hnames key)
  rcases Named.route h.key hs hloc with hend | ⟨A, e, B, heq, hindex, hlt, -, hgt⟩
  · exact .inl hend
  · exact .inr ⟨A, e, B, heq, hindex, hlt, hgt⟩

theorem ValidEntries.childIndex (h : ValidEntries next n entries) (hne : entries ≠ [])
    (hs : Sorted byKey (entries.flatMap fun e => e.value.entriesIter)) (key : String) :
    ∃ A e B, entries = A ++ e :: B ∧ childIndex key entries = A.length ∧
      (∀ x ∈ A.flatMap fun e => e.value.entriesIter, toKey x key = .lt) ∧
      ∀ x ∈ B.flatMap fun e => e.value.entriesIter, toKey x key = .gt := by
  rcases h.route hs key with ⟨hindex, hlt⟩ | ⟨A, e, B, rfl, hindex, hlt, hgt⟩
  · obtain ⟨init, e, rfl⟩ := (List.eq_nil_or_concat entries).resolve_left hne
    rw [List.concat_eq_append] at *
    refine ⟨init, e, [], rfl, ?_, fun x hx => hlt x ?_, by simp⟩
    · rw [NodeImpl.childIndex]
      simp [hindex]
    · rw [List.flatMap_append]
      exact List.mem_append_left _ hx
  · refine ⟨A, e, B, rfl, ?_, hlt, hgt⟩
    rw [NodeImpl.childIndex]
    simp [hindex]

/-! ## New nodes over changed children -/

/-- A node made with hashes from `next` on, over the entries `l`. -/
structure Made (next n : ℕ) (l : List (BTreeEntry V)) (r : NodeImpl V × ℕ) : Prop where
  mono : next ≤ r.2
  fresh : next ≤ r.1.hash
  valid : Valid r.2 n r.1
  below : r.1.entriesIter = l

theorem Made.from {l : List (BTreeEntry V)} {r : NodeImpl V × ℕ} (h : Made next' n l r) (hle : next ≤ next') :
    Made next n l r :=
  ⟨hle.trans h.mono, hle.trans h.fresh, h.valid, h.below⟩

theorem made_data {l : List (BTreeEntry V)} (h : ∀ e ∈ l, 0 < e.sizeOfEntry) : Made next 0 l (newDataNodeImpl l next) :=
  ⟨Nat.le_succ _, le_rfl, .data (Nat.lt_succ_self _) h, entriesIter_data _ _ _⟩

theorem ValidEntries.made (h : ValidEntries next' n entries) (hne : entries ≠ []) (hle : next ≤ next') :
    Made next (n + 1) (entries.flatMap fun e => e.value.entriesIter) (newInternalNodeImpl (n + 1) entries next') :=
  ⟨hle.trans (Nat.le_succ _), hle, (h.mono (Nat.le_succ _)).valid (Nat.lt_succ_self _) hne, entriesIter_internal _ _ _ _⟩

/-- `#replaceChild` puts the new child in the place of the old one. -/
theorem replaceChild_spec {e : BTreeEntry (NodeImpl V)} (h : ValidEntries next n (A ++ e :: B)) (hle : next ≤ next')
    (hc : Valid next' n child) (hne : child.entriesIter ≠ []) (tree : BTreeSizes V) :
    ∃ newEntry, createNewInternalEntryForNode tree child = some newEntry ∧
      Made next' (n + 1) ((A.flatMap fun e => e.value.entriesIter) ++ (child.entriesIter ++
        B.flatMap fun e => e.value.entriesIter)) (replaceChild (n + 1) (A ++ e :: B) A.length newEntry next') := by
  obtain ⟨newEntry, hentry, rfl, hv⟩ := hc.entry hne tree
  obtain ⟨hA, hB⟩ := validEntries_append.mp (h.mono hle)
  have hall : ValidEntries next' n (A ++ ([newEntry] ++ B)) :=
    validEntries_append.mpr ⟨hA, validEntries_append.mpr ⟨hv, (validEntries_cons.mp hB).2⟩⟩
  have hmade := hall.made (by simp) le_rfl
  rw [List.flatMap_append, List.flatMap_append, List.flatMap_singleton] at hmade
  refine ⟨newEntry, hentry, ?_⟩
  rw [replaceChild, readonlySplice_one]
  exact hmade

theorem partition_splice {m b : List (BTreeEntry (NodeImpl V))} {values : Entries V} (hA : ValidEntries next n A)
    (hb : ValidEntries next n b) (hv : Fits next n values) (hne : values.below ≠ []) (tree : BTreeSizes V) :
    ∃ newEntries next', partitionNodes tree n values next = some (newEntries, next') ∧
      Made next (n + 1) ((A.flatMap fun e => e.value.entriesIter) ++ (values.below ++
        b.flatMap fun e => e.value.entriesIter))
        (newInternalNodeImpl (n + 1) (readonlySplice (A ++ (m ++ b)) A.length m.length newEntries) next') := by
  obtain ⟨newEntries, next', hnew, hle, hvn, hflat⟩ := partitionNodes_spec hv tree
  have hall : ValidEntries next' n (A ++ (newEntries ++ b)) :=
    validEntries_append.mpr ⟨hA.mono hle, validEntries_append.mpr ⟨hvn, hb.mono hle⟩⟩
  have hnil : newEntries ≠ [] := by
    rintro rfl
    exact hne hflat.symm
  have hmade := hall.made (by simp [hnil]) hle
  rw [List.flatMap_append, List.flatMap_append, hflat] at hmade
  refine ⟨newEntries, next', hnew, ?_⟩
  rw [readonlySplice_append]
  exact hmade

/-- `#mergeAndPartition` keeps what is below. -/
theorem mergeAndPartition_spec {e : BTreeEntry (NodeImpl V)} (h : ValidEntries next n (A ++ e :: B)) (hle : next ≤ next')
    (hc : Valid next' n child) (hne : child.entriesIter ≠ []) (tree : BTreeSizes V) :
    ∃ r, mergeAndPartition tree (n + 1) (A ++ e :: B) A.length child next' = some r ∧
      Made next' (n + 1) ((A.flatMap fun e => e.value.entriesIter) ++ (child.entriesIter ++
        B.flatMap fun e => e.value.entriesIter)) r := by
  obtain ⟨hA, hB⟩ := validEntries_append.mp (h.mono hle)
  obtain ⟨hfits, hbelow⟩ := hc.fits
  have hB := (validEntries_cons.mp hB).2
  rcases List.eq_nil_or_concat A with rfl | ⟨init, p, rfl⟩
  · cases B with
    | nil =>
      obtain ⟨newEntries, next'', hnew, hmade⟩ :=
        partition_splice (m := [e]) hA hB hfits (by rwa [hbelow]) tree
      refine ⟨_, ?_, hbelow ▸ hmade⟩
      simp [mergeAndPartition, hnew]
    | cons s B =>
      obtain ⟨⟨-, hs, -⟩, hB⟩ := validEntries_cons.mp hB
      obtain ⟨hsfits, hsbelow⟩ := hs.fits
      obtain ⟨values, hjoin, hvfits, hvbelow⟩ := joinIterables_spec hfits hsfits
      rw [hbelow, hsbelow] at hvbelow
      obtain ⟨newEntries, next'', hnew, hmade⟩ :=
        partition_splice (m := [e, s]) hA hB hvfits (by rw [hvbelow]; simp [hne]) tree
      rw [hvbelow, List.append_assoc] at hmade
      refine ⟨_, ?_, hmade⟩
      simp [mergeAndPartition, hjoin, hnew]
  · -- There is a sibling on the left.
    rw [List.concat_eq_append] at *
    obtain ⟨hI, hp⟩ := validEntries_append.mp hA
    obtain ⟨⟨-, hp, -⟩, -⟩ := validEntries_cons.mp hp
    obtain ⟨hpfits, hpbelow⟩ := hp.fits
    obtain ⟨values, hjoin, hvfits, hvbelow⟩ := joinIterables_spec hpfits hfits
    rw [hbelow, hpbelow] at hvbelow
    obtain ⟨newEntries, next'', hnew, hmade⟩ :=
      partition_splice (m := [p, e]) hI hB hvfits (by rw [hvbelow]; simp [hne]) tree
    rw [hvbelow] at hmade
    refine ⟨_, ?_, by simpa using hmade⟩
    simp [mergeAndPartition, hjoin, hnew]

/-! ## `set` -/

theorem insertKey_ne_nil (e : BTreeEntry V) (l : List (BTreeEntry V)) : insertKey byKey e l ≠ [] :=
  List.ne_nil_of_mem (mem_insertKey.mpr (.inl rfl))

/-- **`set`** puts the entry in its place. -/
theorem set_spec (h : Valid next n node) (hs : Sorted byKey node.entriesIter) (tree : BTreeSizes V) (key : String)
    (value : V) {entrySize : ℚ} (hpos : 0 < entrySize) : ∃ r, node.set tree key value entrySize next = some r ∧
      Made next n (insertKey byKey { key, value, sizeOfEntry := entrySize } node.entriesIter) r := by
  induction n generalizing node next with
  | zero =>
    cases h with
    | @data hash modified entries hhash hsize =>
      rw [entriesIter_data] at hs ⊢
      have hloc := place_located hs key
      rw [NodeImpl.set]
      simp only [binarySearchFound_place hs key]
      rw [binarySearch]
      generalize place key entries = p at hloc
      cases hloc with
      | @found a x b ha hx hb =>
        refine ⟨_, rfl, ?_⟩
        simp only [Position.isFound, if_true, Position.index]
        rw [insertKey_replace (x := ({ key, value, sizeOfEntry := entrySize } : BTreeEntry V)) ha hx hb, readonlySplice_one]
        obtain ⟨hsa, hsb⟩ := List.forall_mem_append.mp hsize
        exact made_data (List.forall_mem_append.mpr
          ⟨hsa, List.forall_mem_cons.mpr ⟨hpos, (List.forall_mem_cons.mp hsb).2⟩⟩)
      | @missing a b ha hb =>
        have hsplice := readonlySplice_append a [] b [({ key, value, sizeOfEntry := entrySize } : BTreeEntry V)]
        refine ⟨_, rfl, ?_⟩
        simp only [Position.isFound, Bool.false_eq_true, if_false, Position.index]
        rw [insertKey_between (x := ({ key, value, sizeOfEntry := entrySize } : BTreeEntry V)) ha hb]
        rw [List.nil_append, List.length_nil] at hsplice
        rw [hsplice]
        obtain ⟨hsa, hsb⟩ := List.forall_mem_append.mp hsize
        exact made_data (List.forall_mem_append.mpr ⟨hsa, List.forall_mem_cons.mpr ⟨hpos, hsb⟩⟩)
  | succ n ih =>
    cases h with
    | @internal hash modified _ entries hhash hne hsize hchild hkey =>
      have hv : ValidEntries next n entries := ⟨hsize, hchild, hkey⟩
      rw [entriesIter_internal] at hs ⊢
      obtain ⟨A, e, B, rfl, hindex, hlt, hgt⟩ := hv.childIndex hne hs key
      have hin : childIndex key (A ++ e :: B) < (A ++ e :: B).length := by
        rw [hindex]
        simp
      rw [List.flatMap_append, List.flatMap_cons] at hs ⊢
      obtain ⟨⟨child, next'⟩, hset, hmade⟩ :=
        ih (hchild e (by simp)) (sorted_append.mp (sorted_append.mp hs).2.1).1
      have hcne : child.entriesIter ≠ [] := by
        rw [hmade.below]
        exact insertKey_ne_nil _ _
      rw [insertKey_within (x := ({ key, value, sizeOfEntry := entrySize } : BTreeEntry V)) hlt hgt, ← hmade.below]
      rw [NodeImpl.set]
      dsimp only
      rw [dif_pos hin, getElem_length_append hindex hin, hset, hindex, Option.bind_eq_bind, Option.bind_some]
      split
      · obtain ⟨r, hmerge, hr⟩ := mergeAndPartition_spec hv hmade.mono hmade.valid hcne tree
        exact ⟨r, hmerge, hr.from hmade.mono⟩
      · obtain ⟨newEntry, hentry, hr⟩ := replaceChild_spec hv hmade.mono hmade.valid hcne tree
        rw [hentry]
        exact ⟨_, rfl, hr.from hmade.mono⟩

end NodeImpl

/-! ## `put` -/

namespace BTreeWrite

open NodeImpl

variable {V : Type} {n : ℕ} {t : BTreeWrite V}

/-- **`put`** puts the entry in its place; the root may grow a level. -/
theorem put_spec (h : Valid t.nextHash n t.root) (hs : Sorted byKey t.entries) (tree : BTreeSizes V) (key : String)
    (value : V) : ∃ t' m, t.put tree key value = some t' ∧ Valid t'.nextHash m t'.root ∧
      t'.entries = insertKey byKey { key, value, sizeOfEntry := tree.getEntrySize key value } t.entries := by
  obtain ⟨⟨rootNode, next⟩, hset, hmade⟩ := set_spec h hs tree key value (tree.getEntrySize_pos key value)
  obtain ⟨hfits, hbelow⟩ := hmade.valid.fits
  have hne : rootNode.entriesIter ≠ [] := by
    rw [hmade.below]
    exact insertKey_ne_nil _ _
  rw [put, hset]
  simp only [Option.bind_eq_bind, Option.bind_some, hmade.valid.level_eq]
  split
  · obtain ⟨newEntries, next', hnew, hle, hv, hflat⟩ := partitionNodes_spec hfits tree
    rw [hbelow] at hflat
    have hnil : newEntries ≠ [] := by
      rintro rfl
      exact hne hflat.symm
    have hroot := hv.made hnil hle
    rw [hnew]
    exact ⟨_, _, rfl, hroot.valid, by rw [entries, hroot.below, hflat, hmade.below]; rfl⟩
  · exact ⟨_, _, rfl, hmade.valid, hmade.below⟩

end BTreeWrite

end ZeroSync
