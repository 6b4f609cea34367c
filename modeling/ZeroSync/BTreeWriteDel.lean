/-
`del` takes an entry out of those below a node (`del_missing`, `del_spec`).

A child that has become empty is dropped, and a node whose only child has not
gives way to it. Under the root alone is this the end of a level: below a node
with more entries the child stands a level too low (`keepsLevel`), and the root
of a tree that has become empty is still internal (`keepsRoot`).
-/
import ZeroSync.BTreeWritePut

namespace ZeroSync

open BinarySearch SortedList Blocks

namespace NodeImpl

variable {V α : Type} {next next' n hash level : ℕ} {modified : Bool} {node child : NodeImpl V}
  {entries A B : List (BTreeEntry (NodeImpl V))} {tree : BTreeSizes V} {key : String}

/-! ## When the levels are kept -/

/-- Under a node with more entries, no node on the way to the key gives way to
its only child: where there is a single entry, the key is the only one below. -/
def keepsLevel (key : String) : NodeImpl V → Bool
  | data _ _ _ => true
  | internal hash modified level entries =>
    let i := binarySearch key entries
    (internal hash modified level entries).entriesIter.length = 1 ||
      (entries.length ≠ 1 && if h : i < entries.length then entries[i].value.keepsLevel key else true)
termination_by node => sizeOf node
decreasing_by exact sizeOf_getElem h

/-- From the root: a key is not the only one below an internal node, and below
the first node with more entries than one the levels are kept. -/
def keepsRoot (key : String) : NodeImpl V → Bool
  | data _ _ _ => true
  | internal hash modified level entries =>
    let i := binarySearch key entries
    (internal hash modified level entries).entriesIter.length ≠ 1 &&
      if h : i < entries.length then
        if entries.length = 1 then entries[i].value.keepsRoot key else entries[i].value.keepsLevel key
      else true
termination_by node => sizeOf node
decreasing_by all_goals exact sizeOf_getElem h

theorem keepsLevel_internal {e : BTreeEntry (NodeImpl V)} (hindex : binarySearch key (A ++ e :: B) = A.length) :
    (internal hash modified level (A ++ e :: B)).keepsLevel key =
      (((A ++ e :: B).flatMap fun e => e.value.entriesIter).length = 1 ||
        (A ++ e :: B).length ≠ 1 && e.value.keepsLevel key) := by
  have hin : binarySearch key (A ++ e :: B) < (A ++ e :: B).length := by
    rw [hindex]
    simp
  rw [keepsLevel]
  rw [dif_pos hin, getElem_length_append hindex hin, entriesIter_internal]

theorem keepsRoot_internal {e : BTreeEntry (NodeImpl V)} (hindex : binarySearch key (A ++ e :: B) = A.length) :
    (internal hash modified level (A ++ e :: B)).keepsRoot key =
      (((A ++ e :: B).flatMap fun e => e.value.entriesIter).length ≠ 1 &&
        if (A ++ e :: B).length = 1 then e.value.keepsRoot key else e.value.keepsLevel key) := by
  have hin : binarySearch key (A ++ e :: B) < (A ++ e :: B).length := by
    rw [hindex]
    simp
  rw [keepsRoot]
  rw [dif_pos hin, getElem_length_append hindex hin, entriesIter_internal]

/-! ## One step down -/

/-- `del` of an internal node after its child has changed. -/
theorem del_internal {e : BTreeEntry (NodeImpl V)} (hindex : binarySearch key (A ++ e :: B) = A.length)
    (hdel : e.value.del tree key next = some (child, next')) :
    (internal hash modified level (A ++ e :: B)).del tree key next =
      if child.hash = e.value.hash then some (internal hash modified level (A ++ e :: B), next')
      else if child.length = 0 then some (newInternalNodeImpl level (A ++ B) next')
      else if A.length = 0 ∧ (A ++ e :: B).length = 1 then some (child, next')
      else if child.getChildNodeSize tree > tree.minSize then
        (createNewInternalEntryForNode tree child).bind fun entry =>
          some (replaceChild level (A ++ e :: B) A.length entry next')
      else mergeAndPartition tree level (A ++ e :: B) A.length child next' := by
  have hin : binarySearch key (A ++ e :: B) < (A ++ e :: B).length := by
    rw [hindex]
    simp
  have hsplice := readonlySplice_one A e B []
  rw [del]
  dsimp only
  rw [dif_pos hin, getElem_length_append hindex hin, hdel, hindex, Option.bind_eq_bind, Option.bind_some, hsplice]
  rfl

/-! ## What is not below -/

theorem isFound_place {entries : List (BTreeEntry α)} (hs : Sorted byKey entries) (key : String) :
    (place key entries).isFound = true ↔ ∃ x ∈ entries, x.key = key := by
  have hloc := place_located hs key
  generalize place key entries = p at hloc
  cases hloc with
  | @found a x b ha hx hb =>
    exact ⟨fun _ => ⟨x, by simp, Std.LawfulEqCmp.eq_of_compare hx⟩, fun _ => rfl⟩
  | @missing a b ha hb =>
    refine ⟨(fun h => nomatch h), ?_⟩
    rintro ⟨x, hx, rfl⟩
    have hself : toKey x x.key = .eq := Std.ReflCmp.compare_self
    rcases List.mem_append.mp hx with hx | hx
    · exact absurd (hself.symm.trans (ha x hx)) (by decide)
    · exact absurd (hself.symm.trans (hb x hx)) (by decide)

/-- **`del` of a key that is not there** returns the node. -/
theorem del_missing (h : Valid next n node) (hs : Sorted byKey node.entriesIter) (hno : ∀ x ∈ node.entriesIter, x.key ≠ key)
    (tree : BTreeSizes V) : node.del tree key next = some (node, next) := by
  induction n generalizing node with
  | zero =>
    cases h with
    | @data hash modified entries hhash hsize =>
      rw [entriesIter_data] at hs hno
      have hfound : (place key entries).isFound = false := by
        rw [← Bool.not_eq_true, isFound_place hs]
        exact fun ⟨x, hx, heq⟩ => hno x hx heq
      rw [del]
      simp only [binarySearchFound_place hs key, hfound, Bool.false_eq_true, if_false]
  | succ n ih =>
    cases h with
    | @internal hash modified _ entries hhash hne hsize hchild hkey =>
      have hv : ValidEntries next n entries := ⟨hsize, hchild, hkey⟩
      rw [entriesIter_internal] at hs hno
      rcases hv.route hs key with ⟨hindex, -⟩ | ⟨A, e, B, rfl, hindex, -, -⟩
      · rw [del]
        dsimp only
        rw [dif_neg (by rw [hindex]; exact lt_irrefl _)]
      · rw [List.flatMap_append, List.flatMap_cons] at hs hno
        have hdel := ih (hchild e (by simp)) (sorted_append.mp (sorted_append.mp hs).2.1).1
          fun x hx => hno x (by simp [hx])
        rw [del_internal hindex hdel, if_pos rfl]

/-! ## What is below -/

/-- A node with nothing below it. -/
structure Emptied (next : ℕ) (r : NodeImpl V × ℕ) : Prop where
  mono : next ≤ r.2
  fresh : next ≤ r.1.hash
  length : r.1.length = 0

theorem ValidEntries.route_mem (h : ValidEntries next n entries)
    (hs : Sorted byKey (entries.flatMap fun e => e.value.entriesIter))
    (hmem : ∃ x ∈ entries.flatMap fun e => e.value.entriesIter, x.key = key) :
    ∃ A e B, entries = A ++ e :: B ∧ binarySearch key entries = A.length ∧ (∃ x ∈ e.value.entriesIter, x.key = key) ∧
      (∀ x ∈ A.flatMap fun e => e.value.entriesIter, toKey x key = .lt) ∧
      ∀ x ∈ B.flatMap fun e => e.value.entriesIter, toKey x key = .gt := by
  obtain ⟨x, hx, rfl⟩ := hmem
  have hself : toKey x x.key = .eq := Std.ReflCmp.compare_self
  rcases h.route hs x.key with ⟨-, hlt⟩ | ⟨A, e, B, rfl, hindex, hlt, hgt⟩
  · exact absurd (hself.symm.trans (hlt x hx)) (by decide)
  · refine ⟨A, e, B, rfl, hindex, ⟨x, ?_, rfl⟩, hlt, hgt⟩
    rw [List.flatMap_append, List.flatMap_cons] at hx
    rcases List.mem_append.mp hx with hx | hx
    · exact absurd (hself.symm.trans (hlt x hx)) (by decide)
    · rcases List.mem_append.mp hx with hx | hx
      · exact hx
      · exact absurd (hself.symm.trans (hgt x hx)) (by decide)

theorem eraseKey_eq_nil {l : List (BTreeEntry V)} (hs : Sorted byKey l) (hmem : ∃ x ∈ l, x.key = key) :
    eraseKey toKey key l = [] ↔ l.length = 1 := by
  have hfound := (isFound_place hs key).mpr hmem
  have hloc := place_located hs key
  generalize place key l = p at hloc hfound
  cases hloc with
  | @found a x b ha hx hb =>
    rw [eraseKey_found ha hx hb, List.length_append, List.length_cons, List.append_eq_nil_iff,
      ← List.length_eq_zero_iff, ← List.length_eq_zero_iff]
    omega
  | missing => cases hfound

/-- What `del` makes of a node with the entries `l` left below it. -/
structure Deletes (next n : ℕ) (l : List (BTreeEntry V)) (r : NodeImpl V × ℕ) : Prop where
  emptied : l = [] → Emptied next r
  made : l ≠ [] → Made next n l r

theorem Deletes.hash_ne {l : List (BTreeEntry V)} {r : NodeImpl V × ℕ} (h : Deletes next n l r)
    (hv : Valid next n node) : r.1.hash ≠ node.hash := by
  have hfresh : next ≤ r.1.hash := by
    by_cases hl : l = []
    · exact (h.emptied hl).fresh
    · exact (h.made hl).fresh
  have hold := hv.hash_lt
  omega

/-- `del` from a leaf. -/
theorem del_data {entries : List (BTreeEntry V)} (hsize : ∀ e ∈ entries, 0 < e.sizeOfEntry) (hs : Sorted byKey entries)
    (hmem : ∃ x ∈ entries, x.key = key) (tree : BTreeSizes V) : ∃ r,
      (data hash modified entries).del tree key next = some r ∧ Made next 0 (eraseKey toKey key entries) r := by
  have hfound := (isFound_place hs key).mpr hmem
  have hloc := place_located hs key
  rw [del]
  simp only [binarySearchFound_place hs key]
  rw [binarySearch]
  generalize place key entries = p at hloc hfound
  cases hloc with
  | @found a x b ha hx hb =>
    obtain ⟨hsa, hsb⟩ := List.forall_mem_append.mp hsize
    have hsplice := readonlySplice_one a x b []
    rw [List.nil_append] at hsplice
    refine ⟨_, if_pos hfound, ?_⟩
    rw [eraseKey_found ha hx hb, Position.index, hsplice]
    exact made_data (List.forall_mem_append.mpr ⟨hsa, (List.forall_mem_cons.mp hsb).2⟩)
  | missing => cases hfound

theorem Made.emptied {l : List (BTreeEntry V)} {r : NodeImpl V × ℕ} (h : Made next n l r) (hl : l = []) : Emptied next r :=
  ⟨h.mono, h.fresh, by rw [h.valid.length_eq_zero, h.below, hl]⟩

/-- `del` under a node with more entries than one, when the child keeps its level. -/
theorem ValidEntries.del_child {e : BTreeEntry (NodeImpl V)} {l : List (BTreeEntry V)} {r : NodeImpl V × ℕ}
    (h : ValidEntries next n (A ++ e :: B)) (hindex : binarySearch key (A ++ e :: B) = A.length)
    (hlen : (A ++ e :: B).length ≠ 1) (hdel : e.value.del tree key next = some r) (hr : Deletes next n l r) :
    ∃ r', (internal hash modified (n + 1) (A ++ e :: B)).del tree key next = some r' ∧
      Made next (n + 1) ((A.flatMap fun e => e.value.entriesIter) ++ (l ++ B.flatMap fun e => e.value.entriesIter)) r' := by
  obtain ⟨child, next'⟩ := r
  have hne : child.hash ≠ e.value.hash := hr.hash_ne (h.child e (by simp))
  rw [del_internal hindex hdel, if_neg hne]
  by_cases hl : l = []
  · obtain ⟨hmono, hfresh, hzero⟩ := hr.emptied hl
    obtain ⟨hA, hB⟩ := validEntries_append.mp h
    have hAB : ValidEntries next n (A ++ B) := validEntries_append.mpr ⟨hA, (validEntries_cons.mp hB).2⟩
    have hne : A ++ B ≠ [] := by
      rw [ne_eq, ← List.length_eq_zero_iff, List.length_append]
      rw [List.length_append, List.length_cons] at hlen
      omega
    rw [if_pos hzero, hl, List.nil_append, ← List.flatMap_append]
    exact ⟨_, rfl, (hAB.mono hmono).made hne hmono⟩
  · have hmade := hr.made hl
    have hcne : child.entriesIter ≠ [] := by rwa [hmade.below]
    have hzero : child.length ≠ 0 := by rwa [ne_eq, hmade.valid.length_eq_zero]
    rw [if_neg hzero, if_neg fun hone => hlen hone.2, ← hmade.below]
    split
    · obtain ⟨newEntry, hentry, hr⟩ := replaceChild_spec h hmade.mono hmade.valid hcne tree
      rw [hentry]
      exact ⟨_, rfl, hr.from hmade.mono⟩
    · obtain ⟨r, hmerge, hr⟩ := mergeAndPartition_spec h hmade.mono hmade.valid hcne tree
      exact ⟨r, hmerge, hr.from hmade.mono⟩

theorem keepsLevel_of_length (h : Valid next n node) (hone : node.entriesIter.length = 1) :
    node.keepsLevel key = true := by
  cases h with
  | data _ _ => rw [keepsLevel]
  | internal _ _ _ _ _ =>
    rw [keepsLevel, decide_eq_true hone, Bool.true_or]

/-- `del` under a node with more entries. -/
theorem del_level (h : Valid next n node) (hs : Sorted byKey node.entriesIter) (hmem : ∃ x ∈ node.entriesIter, x.key = key)
    (hkeep : node.keepsLevel key = true) (tree : BTreeSizes V) : ∃ r, node.del tree key next = some r ∧
      Deletes next n (eraseKey toKey key node.entriesIter) r := by
  induction n generalizing node with
  | zero =>
    cases h with
    | @data hash modified entries hhash hsize =>
      rw [entriesIter_data] at hs hmem ⊢
      obtain ⟨r, hdel, hr⟩ := del_data hsize hs hmem tree
      exact ⟨r, hdel, hr.emptied, fun _ => hr⟩
  | succ n ih =>
    cases h with
    | @internal hash modified _ entries hhash hne hsize hchild hkey =>
      have hv : ValidEntries next n entries := ⟨hsize, hchild, hkey⟩
      rw [entriesIter_internal] at hs hmem ⊢
      obtain ⟨A, e, B, rfl, hindex, hin, hlt, hgt⟩ := hv.route_mem hs hmem
      have hnil := eraseKey_eq_nil hs hmem
      rw [keepsLevel_internal hindex] at hkeep
      rw [List.flatMap_append, List.flatMap_cons] at hs hnil hkeep ⊢
      have hse := (sorted_append.mp (sorted_append.mp hs).2.1).1
      rw [eraseKey_within hlt hgt] at hnil ⊢
      by_cases hone : ((A.flatMap fun e => e.value.entriesIter) ++ (e.value.entriesIter ++
          B.flatMap fun e => e.value.entriesIter)).length = 1
      · -- The child is the only one, and becomes empty.
        have hpos : 0 < e.value.entriesIter.length := by
          obtain ⟨x, hx, -⟩ := hin
          exact List.length_pos_of_mem hx
        have hsum := hone
        simp only [List.length_append] at hsum
        have hA : A = [] := by
          rw [← Named.flatMap_eq_nil (named_append.mp hkey).1, ← List.length_eq_zero_iff]
          omega
        have hB : B = [] := by
          rw [← Named.flatMap_eq_nil (named_cons.mp (named_append.mp hkey).2).2, ← List.length_eq_zero_iff]
          omega
        subst hA hB
        have hchildLength : e.value.entriesIter.length = 1 := by simpa using hone
        have hve : Valid next n e.value := hchild e (by simp)
        obtain ⟨⟨child, next'⟩, hdel, hr⟩ := ih hve hse hin (keepsLevel_of_length hve hchildLength)
        obtain ⟨hmono, hfresh, hzero⟩ := hr.emptied ((eraseKey_eq_nil hse hin).mpr hchildLength)
        rw [del_internal hindex hdel, if_neg (hr.hash_ne hve), if_pos hzero]
        exact ⟨_, rfl, fun _ => ⟨hmono.trans (Nat.le_succ _), hmono, rfl⟩, fun hl => absurd (hnil.mpr hone) hl⟩
      · rw [decide_eq_false hone, Bool.false_or, Bool.and_eq_true, decide_eq_true_eq] at hkeep
        obtain ⟨r, hdel, hr⟩ := ih (hchild e (by simp)) hse hin hkeep.2
        obtain ⟨r', hdel', hr'⟩ := hv.del_child hindex hkeep.1 hdel hr
        exact ⟨r', hdel', fun hl => absurd (hnil.mp hl) hone, fun _ => hr'⟩

/-- **`del`** takes the entry of a key out of those below the root. -/
theorem del_spec (h : Valid next n node) (hs : Sorted byKey node.entriesIter) (hmem : ∃ x ∈ node.entriesIter, x.key = key)
    (hkeep : node.keepsRoot key = true) (tree : BTreeSizes V) : ∃ r m, node.del tree key next = some r ∧
      Made next m (eraseKey toKey key node.entriesIter) r := by
  induction n generalizing node with
  | zero =>
    cases h with
    | @data hash modified entries hhash hsize =>
      rw [entriesIter_data] at hs hmem ⊢
      obtain ⟨r, hdel, hr⟩ := del_data hsize hs hmem tree
      exact ⟨r, 0, hdel, hr⟩
  | succ n ih =>
    cases h with
    | @internal hash modified _ entries hhash hne hsize hchild hkey =>
      have hv : ValidEntries next n entries := ⟨hsize, hchild, hkey⟩
      rw [entriesIter_internal] at hs hmem ⊢
      obtain ⟨A, e, B, rfl, hindex, hin, hlt, hgt⟩ := hv.route_mem hs hmem
      have hnil := eraseKey_eq_nil hs hmem
      rw [keepsRoot_internal hindex, Bool.and_eq_true, decide_eq_true_eq] at hkeep
      obtain ⟨hone, hkeep⟩ := hkeep
      rw [List.flatMap_append, List.flatMap_cons] at hs hnil hone ⊢
      have hse := (sorted_append.mp (sorted_append.mp hs).2.1).1
      have hve : Valid next n e.value := hchild e (by simp)
      rw [eraseKey_within hlt hgt] at hnil ⊢
      by_cases hlen : (A ++ e :: B).length = 1
      · -- The node gives way to its child.
        rw [if_pos hlen] at hkeep
        obtain ⟨⟨child, next'⟩, m, hdel, hr⟩ := ih hve hse hin hkeep
        obtain ⟨rfl, rfl⟩ : A = [] ∧ B = [] := by
          rw [List.length_append, List.length_cons] at hlen
          exact ⟨List.length_eq_zero_iff.mp (by omega), List.length_eq_zero_iff.mp (by omega)⟩
        have hnil : eraseKey toKey key e.value.entriesIter = [] ↔ e.value.entriesIter.length = 1 := by simpa using hnil
        have hone : e.value.entriesIter.length ≠ 1 := by simpa using hone
        have hold := hve.hash_lt
        have hfresh : next ≤ child.hash := hr.fresh
        have hzero : child.length ≠ 0 := by
          rw [ne_eq, hr.valid.length_eq_zero, hr.below, hnil]
          exact hone
        refine ⟨(child, next'), m, ?_, by simpa using hr⟩
        rw [del_internal hindex hdel, if_neg (by omega), if_neg hzero, if_pos ⟨rfl, rfl⟩]
      · rw [if_neg hlen] at hkeep
        obtain ⟨r, hdel, hr⟩ := del_level hve hse hin hkeep tree
        obtain ⟨r', hdel', hr'⟩ := hv.del_child hindex hlen hdel hr
        exact ⟨r', n + 1, hdel', hr'⟩

end NodeImpl

end ZeroSync
