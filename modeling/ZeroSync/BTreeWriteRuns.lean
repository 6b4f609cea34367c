/-
Runs of operations on a `BTreeWrite`: the tree holds what a plain map under
the same operations holds (`kept_run_holds`), as long as each `del` keeps the
levels (`KeepsLevels`).
-/
import ZeroSync.BTreeWriteDel
import Mathlib

namespace ZeroSync

open BinarySearch SortedList Blocks NodeImpl

variable {V : Type} {next next' n : ℕ} {node : NodeImpl V} {key : String}

/-! ## Lookups -/

namespace NodeImpl

/-- `findLeaf` finds the leaf of a key. -/
theorem findLeaf_spec (h : Valid next n node) (hs : Sorted byKey node.entriesIter) (key : String) :
    ∃ leaf, node.findLeaf key = some leaf ∧ Sorted byKey leaf ∧
      ∀ x, (x ∈ leaf ∧ x.key = key) ↔ (x ∈ node.entriesIter ∧ x.key = key) := by
  induction n generalizing node with
  | zero =>
    cases h with
    | @data hash modified entries hhash hsize =>
      rw [entriesIter_data] at hs ⊢
      exact ⟨entries, by rw [findLeaf], hs, fun x => Iff.rfl⟩
  | succ n ih =>
    cases h with
    | @internal hash modified _ entries hhash hne hsize hchild hkey =>
      have hv : ValidEntries next n entries := ⟨hsize, hchild, hkey⟩
      rw [entriesIter_internal] at hs ⊢
      obtain ⟨A, e, B, rfl, hindex, hlt, hgt⟩ := hv.childIndex hne hs key
      have hin : childIndex key (A ++ e :: B) < (A ++ e :: B).length := by
        rw [hindex]
        simp
      rw [List.flatMap_append, List.flatMap_cons] at hs ⊢
      obtain ⟨leaf, hleaf, hsl, hmem⟩ := ih (hchild e (by simp)) (sorted_append.mp (sorted_append.mp hs).2.1).1
      refine ⟨leaf, ?_, hsl, fun x => ?_⟩
      · rw [findLeaf, dif_pos hin, getElem_length_append hindex hin, hleaf]
      · rw [hmem x]
        have hself : toKey x x.key = .eq := Std.ReflCmp.compare_self
        constructor
        · rintro ⟨hx, rfl⟩
          exact ⟨by simp [hx], rfl⟩
        · rintro ⟨hx, rfl⟩
          refine ⟨?_, rfl⟩
          rcases List.mem_append.mp hx with hx | hx
          · exact absurd (hself.symm.trans (hlt x hx)) (by decide)
          · rcases List.mem_append.mp hx with hx | hx
            · exact hx
            · exact absurd (hself.symm.trans (hgt x hx)) (by decide)

/-! ## `gatherNewChunks` -/

/-- A node written with hashes from `next` on, over the entries `l`. -/
structure Gathered (next n : ℕ) (l : List (BTreeEntry V)) (r : NodeImpl V × ℕ) : Prop where
  mono : next ≤ r.2
  valid : Valid r.2 n r.1
  below : r.1.entriesIter = l

theorem gatherChildren_spec {entries : List (BTreeEntry (NodeImpl V))} (h : ValidEntries next n entries)
    (hgather : ∀ (node : NodeImpl V) next, Valid next n node →
      Gathered next n node.entriesIter (gatherNewChunks node next)) :
    ∃ newEntries next', gatherChildren entries next = (newEntries, next') ∧ next ≤ next' ∧
      ValidEntries next' n newEntries ∧ newEntries.length = entries.length ∧
      (newEntries.flatMap fun e => e.value.entriesIter) = (entries.flatMap fun e => e.value.entriesIter) := by
  induction entries generalizing next with
  | nil => exact ⟨[], next, by rw [gatherChildren], le_rfl, validEntries_nil, rfl, rfl⟩
  | cons e entries ih =>
    obtain ⟨⟨hsize, hchild, hkey⟩, hrest⟩ := validEntries_cons.mp h
    have hg := hgather e.value next hchild
    generalize hnode : gatherNewChunks e.value next = r at hg
    obtain ⟨child, next₁⟩ := r
    obtain ⟨hle, hv, hiter⟩ := hg
    obtain ⟨newEntries, next', hnew, hle', hv', hlen, hflat⟩ := ih (hrest.mono hle)
    refine ⟨⟨e.key, child, e.sizeOfEntry⟩ :: newEntries, next', ?_, hle.trans hle', ?_, ?_, ?_⟩
    · rw [gatherChildren, hnode]
      dsimp only
      rw [hnew]
    · refine validEntries_cons.mpr ⟨⟨hsize, hv.mono hle', ?_⟩, hv'⟩
      rw [← hkey, ← hiter]
    · rw [List.length_cons, List.length_cons, hlen]
    · rw [List.flatMap_cons, List.flatMap_cons, hflat, ← hiter]

/-- **`gatherNewChunks`** gives new hashes to what it writes, and keeps the rest. -/
theorem gatherNewChunks_spec (h : Valid next n node) : Gathered next n node.entriesIter (gatherNewChunks node next) := by
  induction n generalizing node next with
  | zero =>
    cases h with
    | @data hash modified entries hhash hsize =>
      rw [gatherNewChunks]
      split
      · exact ⟨Nat.le_succ _, .data (Nat.lt_succ_self _) hsize, by rw [entriesIter_data, entriesIter_data]⟩
      · exact ⟨le_rfl, .data hhash hsize, rfl⟩
  | succ n ih =>
    cases h with
    | @internal hash modified _ entries hhash hne hsize hchild hkey =>
      obtain ⟨newEntries, next', hnew, hle, hv, hlen, hflat⟩ := gatherChildren_spec ⟨hsize, hchild, hkey⟩
        fun node next h => ih h
      rw [gatherNewChunks, hnew]
      split
      · have hne' : newEntries ≠ [] := by rwa [ne_eq, ← List.length_eq_zero_iff, hlen, List.length_eq_zero_iff]
        exact ⟨hle.trans (Nat.le_succ _), (hv.mono (Nat.le_succ _)).valid (Nat.lt_succ_self _) hne',
          by rw [entriesIter_internal, entriesIter_internal, hflat]⟩
      · exact ⟨le_rfl, .internal hhash hne hsize hchild hkey, rfl⟩

end NodeImpl

/-! ## The tree holds a map -/

namespace BTreeWrite

variable {t : BTreeWrite V} {m : String → Option V} {tree : BTreeSizes V}

/-- The tree is well formed, its leaves at one depth, and its entries are those of a map, by key. -/
structure Holds (t : BTreeWrite V) (m : String → Option V) : Prop where
  level : ∃ n, Valid t.nextHash n t.root
  sorted : t.entries.Pairwise fun a b => compare a.key b.key = .lt
  mem : ∀ key value, (∃ x ∈ t.entries, x.key = key ∧ x.value = value) ↔ m key = some value

/-- A `del` keeps the levels when the key is not there; else it must not be the
only key of a tree whose root is internal, nor make an internal node below one
with more entries give way to its only child. -/
def KeepsLevels (key : String) (t : BTreeWrite V) : Prop :=
  (∃ x ∈ t.entries, x.key = key) → t.root.keepsRoot key = true

theorem holds_empty : (empty : BTreeWrite V).Holds fun _ => none where
  level := ⟨0, .data Nat.zero_lt_one (by simp)⟩
  sorted := by simp [entries, empty, emptyDataNodeImpl]
  mem key value := by simp [entries, empty, emptyDataNodeImpl]

theorem Holds.mem_key (h : t.Holds m) : (∃ x ∈ t.entries, x.key = key) ↔ (m key).isSome = true := by
  rw [Option.isSome_iff_exists]
  constructor
  · rintro ⟨x, hx, rfl⟩
    exact ⟨x.value, (h.mem x.key x.value).mp ⟨x, hx, rfl, rfl⟩⟩
  · rintro ⟨value, hvalue⟩
    obtain ⟨x, hx, hkey, -⟩ := (h.mem key value).mpr hvalue
    exact ⟨x, hx, hkey⟩

/-- **`put`** sets the value of the key. -/
theorem Holds.put (h : t.Holds m) (tree : BTreeSizes V) (key : String) (value : V) :
    ∃ t', t.put tree key value = some t' ∧ t'.Holds (Function.update m key (some value)) := by
  obtain ⟨n, hv⟩ := h.level
  obtain ⟨t', n', hput, hv', hentries⟩ := put_spec hv h.sorted tree key value
  have hs : Sorted byKey t.entries := h.sorted
  refine ⟨t', hput, ⟨n', hv'⟩, ?_, fun k v => ?_⟩
  · rw [hentries]
    exact hs.insertKey _
  · rw [hentries]
    simp only [mem_insertKey, ne_eq, compareOn, compare_eq_iff_eq]
    by_cases hk : k = key
    · subst hk
      rw [Function.update_self, Option.some.injEq]
      constructor
      · rintro ⟨x, rfl | ⟨-, hne⟩, hkey, rfl⟩
        · rfl
        · exact absurd hkey hne
      · rintro rfl
        exact ⟨_, .inl rfl, rfl, rfl⟩
    · rw [Function.update_of_ne hk, ← h.mem]
      constructor
      · rintro ⟨x, rfl | ⟨hx, -⟩, hkey, hvalue⟩
        · exact absurd hkey.symm hk
        · exact ⟨x, hx, hkey, hvalue⟩
      · rintro ⟨x, hx, rfl, hvalue⟩
        exact ⟨x, .inr ⟨hx, hk⟩, rfl, hvalue⟩

theorem flatten_spec (h : Valid next n node) :
    ∃ m, Valid next m (flatten node) ∧ (flatten node).entriesIter = node.entriesIter := by
  cases h with
  | data hhash hsize => exact ⟨0, .data hhash hsize, rfl⟩
  | @internal hash modified n entries hhash hne hsize hchild hkey =>
    match entries, hne, hsize, hchild, hkey with
    | [e], _, _, hchild, _ => exact ⟨n, hchild e (by simp), by simp [flatten]⟩
    | e :: e' :: entries, hne, hsize, hchild, hkey => exact ⟨n + 1, .internal hhash hne hsize hchild hkey, rfl⟩

/-- **`del`** takes the key out, and says whether it was there. -/
theorem Holds.del (h : t.Holds m) (hkeep : KeepsLevels key t) (tree : BTreeSizes V) :
    ∃ t', t.del tree key = some (t', (m key).isSome) ∧ t'.Holds (Function.update m key none) := by
  obtain ⟨n, hv⟩ := h.level
  rw [BTreeWrite.del]
  by_cases hmem : ∃ x ∈ t.entries, x.key = key
  · obtain ⟨⟨node, next⟩, n', hdel, hmade⟩ := NodeImpl.del_spec hv h.sorted hmem (hkeep hmem) tree
    obtain ⟨n'', hflat, hentries⟩ := flatten_spec hmade.valid
    have hhash : t.root.hash ≠ node.hash := by
      have hlt := hv.hash_lt
      have hle : t.nextHash ≤ node.hash := hmade.fresh
      omega
    rw [hdel, h.mem_key.mp hmem]
    simp only [Option.bind_eq_bind, Option.bind_some, hhash, ne_eq, not_false_eq_true, if_true]
    refine ⟨_, rfl, ⟨n'', hflat⟩, ?_, fun k v => ?_⟩
    · rw [entries, hentries, hmade.below]
      exact Sorted.eraseKey h.sorted key
    · rw [entries, hentries, hmade.below]
      simp only [mem_eraseKey, ne_eq, toKey, compare_eq_iff_eq]
      by_cases hk : k = key
      · subst hk
        rw [Function.update_self]
        refine ⟨?_, fun hvalue => (by cases hvalue)⟩
        rintro ⟨x, ⟨-, hne⟩, hkey, -⟩
        exact absurd hkey hne
      · rw [Function.update_of_ne hk, ← h.mem]
        constructor
        · rintro ⟨x, ⟨hx, -⟩, hkey, hvalue⟩
          exact ⟨x, hx, hkey, hvalue⟩
        · rintro ⟨x, hx, rfl, hvalue⟩
          exact ⟨x, ⟨hx, hk⟩, rfl, hvalue⟩
  · have hdel := NodeImpl.del_missing hv h.sorted (fun x hx heq => hmem ⟨x, hx, heq⟩) tree
    have hnone : m key = none := by
      rw [← Option.not_isSome_iff_eq_none, ← h.mem_key]
      exact hmem
    rw [hdel, hnone]
    simp only [Option.bind_eq_bind, Option.bind_some, ne_eq, not_true_eq_false, if_false]
    refine ⟨_, rfl, ?_⟩
    rwa [← hnone, Function.update_eq_self]

/-- **`clear`** leaves nothing. -/
theorem Holds.clear (h : t.Holds m) : t.clear.Holds fun _ => none := by
  obtain ⟨n, hv⟩ := h.level
  exact ⟨⟨0, .data (Nat.zero_lt_of_lt hv.hash_lt) (by simp)⟩, by simp [entries, BTreeWrite.clear, emptyDataNodeImpl],
    fun key value => by simp [entries, BTreeWrite.clear, emptyDataNodeImpl]⟩

/-- **`flush`** keeps what the tree holds. -/
theorem Holds.flush (h : t.Holds m) : t.flush.Holds m := by
  rw [BTreeWrite.flush]
  split
  · exact h
  · obtain ⟨n, hv⟩ := h.level
    have hg := gatherNewChunks_spec hv
    exact ⟨⟨n, hg.valid⟩, by rw [entries, hg.below]; exact h.sorted, by rw [entries, hg.below]; exact h.mem⟩

/-- **`get`** and **`has`** look up the map. -/
theorem Holds.get_eq (h : t.Holds m) (key : String) : t.get key = some (m key) ∧ t.has key = some (m key).isSome := by
  obtain ⟨n, hv⟩ := h.level
  obtain ⟨leaf, hleaf, hsl, hmem⟩ := findLeaf_spec hv h.sorted key
  have hloc := place_located hsl key
  rw [BTreeWrite.get, BTreeWrite.has, hleaf]
  simp only [Option.bind_eq_bind, Option.bind_some, binarySearchFound_place hsl key]
  rw [binarySearch]
  by_cases hin : ∃ x ∈ leaf, x.key = key
  · have hfound := (isFound_place hsl key).mpr hin
    generalize place key leaf = p at hloc hfound
    cases hloc with
    | @found a x b ha hx hb =>
      obtain rfl : x.key = key := Std.LawfulEqCmp.eq_of_compare hx
      have hvalue : m x.key = some x.value :=
        (h.mem x.key x.value).mp ⟨x, ((hmem x).mp ⟨by simp, rfl⟩).1, rfl, rfl⟩
      rw [hvalue]
      simp [Position.isFound, Position.index]
    | missing => cases hfound
  · have hfound : (place key leaf).isFound = false := by
      rwa [← Bool.not_eq_true, isFound_place hsl]
    have hnone : m key = none := by
      rw [← Option.not_isSome_iff_eq_none, ← h.mem_key]
      rintro ⟨x, hx⟩
      exact hin ⟨x, (hmem x).mpr hx⟩
    rw [hfound, hnone]
    exact ⟨rfl, rfl⟩

/-! ## Runs -/

/-- An operation. -/
inductive Operation (V : Type) where
  | put (key : String) (value : V)
  | del (key : String)
  | clear
  | flush

/-- The operation on the tree. -/
def Operation.run (tree : BTreeSizes V) (t : BTreeWrite V) : Operation V → Option (BTreeWrite V)
  | put key value => t.put tree key value
  | del key => (t.del tree key).map (·.1)
  | clear => some t.clear
  | flush => some t.flush

/-- The operation on a plain map. -/
def Operation.plain (m : String → Option V) : Operation V → String → Option V
  | put key value => Function.update m key (some value)
  | del key => Function.update m key none
  | clear => fun _ => none
  | flush => m

/-- Each `del` of the run keeps the levels of the tree it meets. -/
def KeepsAll (tree : BTreeSizes V) : List (Operation V) → BTreeWrite V → Prop
  | [], _ => True
  | op :: ops, t => (∀ key, op = .del key → KeepsLevels key t) ∧ ∀ t', op.run tree t = some t' → KeepsAll tree ops t'

theorem Holds.run (h : t.Holds m) (tree : BTreeSizes V) (op : Operation V)
    (hkeep : ∀ key, op = .del key → KeepsLevels key t) : ∃ t', op.run tree t = some t' ∧ t'.Holds (op.plain m) := by
  cases op with
  | put key value => exact h.put tree key value
  | del key =>
    obtain ⟨t', hdel, h'⟩ := h.del (hkeep key rfl) tree
    exact ⟨t', by rw [Operation.run, hdel]; rfl, h'⟩
  | clear => exact ⟨t.clear, rfl, h.clear⟩
  | flush => exact ⟨t.flush, rfl, h.flush⟩

theorem runs_hold {ops : List (Operation V)} (hkeep : KeepsAll tree ops t) (h : t.Holds m) :
    ∃ t', ops.foldlM (Operation.run tree) t = some t' ∧ t'.Holds (ops.foldl Operation.plain m) := by
  induction ops generalizing t m with
  | nil => exact ⟨t, rfl, h⟩
  | cons op ops ih =>
    obtain ⟨t₁, hrun, h₁⟩ := h.run tree op hkeep.1
    obtain ⟨t', hrest, h'⟩ := ih (hkeep.2 t₁ hrun) h₁
    exact ⟨t', by rw [List.foldlM_cons, hrun]; exact hrest, h'⟩

/-- **A tree holds what a plain map holds** after the same operations, when
each `del` keeps the levels: no operation throws, its nodes are well formed,
its entries are in order, lookups agree with the map, and the next `del` says
whether the key is there. -/
theorem kept_run_holds (tree : BTreeSizes V) (ops : List (Operation V)) (hkeep : KeepsAll tree ops empty) :
    ∃ t, ops.foldlM (Operation.run tree) empty = some t ∧ t.Holds (ops.foldl Operation.plain fun _ => none) ∧
      (∀ key, t.get key = some (ops.foldl Operation.plain (fun _ => none) key) ∧
        t.has key = some (ops.foldl Operation.plain (fun _ => none) key).isSome) ∧
      ∀ key, KeepsLevels key t →
        ∃ t', t.del tree key = some (t', (ops.foldl Operation.plain (fun _ => none) key).isSome) := by
  obtain ⟨t, hrun, h⟩ := runs_hold hkeep holds_empty
  refine ⟨t, hrun, h, h.get_eq, fun key hkey => ?_⟩
  obtain ⟨t', hdel, -⟩ := h.del hkey tree
  exact ⟨t', hdel⟩

/-- Sizes of a tree of numbers, all entries of one size. -/
def sizes (entrySize : ℚ) (h : 0 < entrySize) : BTreeSizes ℕ where
  minSize := 10
  maxSize := 20
  chunkHeaderSize := 1
  getEntrySize _ _ := entrySize
  getHashSize _ _ := 1
  getEntrySize_pos _ _ := h
  getHashSize_pos _ _ := by norm_num

theorem kept_run_holds_small : ∃ t, [Operation.put "a" 1, .del "a", .flush, .put "b" 2].foldlM
    (Operation.run (sizes 1 (by norm_num))) empty = some t ∧ t.get "b" = some (some 2) ∧ t.get "a" = some none := by
  have hput : (empty : BTreeWrite ℕ).put (sizes 1 (by norm_num)) "a" 1 =
      some { root := data 1 true [⟨"a", 1, 1⟩], nextHash := 2 } := by
    norm_num [put, empty, emptyDataNodeImpl, NodeImpl.set, binarySearch, place, search, binarySearchFound,
      Position.index, newDataNodeImpl, readonlySplice, getChildNodeSize, sizes]
  have hkeep : KeepsAll (sizes 1 (by norm_num)) [Operation.put "a" 1, .del "a", .flush, .put "b" 2] empty := by
    refine ⟨fun _ h => (by cases h), fun t ht => ?_⟩
    obtain rfl := Option.some.inj (hput.symm.trans ht)
    -- The root is a leaf when the `del` comes.
    refine ⟨fun _ _ _ => by rw [keepsRoot], fun t _ => ⟨fun _ h => (by cases h), fun t _ => ?_⟩⟩
    exact ⟨fun _ h => (by cases h), fun t _ => trivial⟩
  obtain ⟨t, hrun, -, hget, -⟩ := kept_run_holds _ _ hkeep
  refine ⟨t, hrun, ?_, ?_⟩
  · rw [(hget "b").1]
    rfl
  · rw [(hget "a").1]
    rfl

/-- The leaf of an entry that is too large gets a root above it, which is
left without entries. -/
theorem run_del_throws : ∃ t, [Operation.put "a" 1, .del "a"].foldlM (Operation.run (sizes 30 (by norm_num))) empty =
    some t ∧ t.get "b" = none ∧ t.put (sizes 30 (by norm_num)) "b" 2 = none := by
  have hput : (empty : BTreeWrite ℕ).put (sizes 30 (by norm_num)) "a" 1 = some
      { root := internal 3 true 1 [⟨"a", data 2 true [⟨"a", 1, 30⟩], 1⟩], nextHash := 4 } := by
    norm_num [put, empty, emptyDataNodeImpl, NodeImpl.set, binarySearch, place, search, binarySearchFound,
      Position.index, newDataNodeImpl, readonlySplice, getChildNodeSize, sizes, NodeImpl.level, NodeImpl.entries,
      partitionNodes, partition, Partitioning.push, Partitioning.commitLast, Partitioning.finish, createNodes,
      createNewInternalEntryForNode, NodeImpl.maxKey, newInternalNodeImpl]
  have hdel : BTreeWrite.del (sizes 30 (by norm_num)) "a"
      { root := internal 3 true 1 [⟨"a", data 2 true [⟨"a", (1 : ℕ), 30⟩], 1⟩], nextHash := 4 } =
      some ({ root := internal 5 true 1 [], nextHash := 6 }, true) := by
    simp [BTreeWrite.del, NodeImpl.del, binarySearch, place, search, binarySearchFound, Position.index,
      newDataNodeImpl, newInternalNodeImpl, readonlySplice, NodeImpl.hash, NodeImpl.length, flatten]
  refine ⟨{ root := internal 5 true 1 [], nextHash := 6 }, ?_, ?_, ?_⟩
  · rw [List.foldlM_cons, Operation.run, hput, Option.bind_eq_bind, Option.bind_some, List.foldlM_cons, Operation.run, hdel]
    rfl
  · simp [BTreeWrite.get, findLeaf]
  · simp [BTreeWrite.put, NodeImpl.set]

end BTreeWrite

end ZeroSync
