/-
Well-formed nodes of a `BTreeWrite`.

`Valid` says that a node is well formed: its leaves at one depth, the children
of a node one level below it, and each key the largest key of its child.
`partition` cuts the entries of nodes into the entries of new ones
(`partitionNodes_spec`).
-/
import ZeroSync.BTreeWrite
import ZeroSync.Blocks
import Mathlib.Tactic.Linarith

namespace ZeroSync

open BinarySearch SortedList Blocks

namespace NodeImpl

variable {V α : Type}

/-! ## `partition` -/

/-- The values so far, in parts that are not empty; `sum` says whether there are any in `accum`. -/
structure Partitioned (values : List α) (p : Partitioning α) : Prop where
  values : p.results.flatten ++ ((p.lastPartition.map (·.1)).getD [] ++ p.accum) = values
  results : ∀ part ∈ p.results, part ≠ []
  last : ∀ part ∈ p.lastPartition, part.1 ≠ []
  sum : (p.accum = [] ∧ p.sum = 0) ∨ (p.accum ≠ [] ∧ 0 < p.sum)

theorem Partitioned.commitLast {values : List α} {p : Partitioning α} (h : Partitioned values p) :
    Partitioned values p.commitLast ∧ p.commitLast.lastPartition = none ∧ p.commitLast.accum = p.accum ∧
      p.commitLast.sum = p.sum := by
  have hvalues := h.values
  unfold Partitioning.commitLast
  cases hlast : p.lastPartition with
  | none => exact ⟨h, hlast, rfl, rfl⟩
  | some part =>
    rw [hlast] at hvalues
    refine ⟨⟨by simpa using hvalues, fun part' hp => ?_, by simp, h.sum⟩, rfl, rfl, rfl⟩
    rcases List.mem_append.mp hp with hp | hp
    · exact h.results part' hp
    · rw [List.mem_singleton.mp hp]
      exact h.last part hlast

/-- A new last part of what is in `accum` and more, when there was none. -/
theorem Partitioned.setLast {values rest : List α} {p : Partitioning α} (h : Partitioned values p)
    (hlast : p.lastPartition = none) (hne : p.accum ++ rest ≠ []) (size : ℚ) :
    Partitioned (values ++ rest) { p with lastPartition := some (p.accum ++ rest, size), accum := [], sum := 0 } := by
  have hvalues := h.values
  rw [hlast] at hvalues
  refine ⟨by simp [← hvalues], h.results, fun part hp => ?_, .inl ⟨rfl, rfl⟩⟩
  rw [← Option.some.inj hp]
  exact hne

theorem Partitioned.push {values : List α} {p : Partitioning α} (h : Partitioned values p) {getSizeOfEntry : α → ℚ}
    {value : α} (hpos : 0 < getSizeOfEntry value) (min max : ℚ) :
    Partitioned (values ++ [value]) (p.push getSizeOfEntry min max value) := by
  unfold Partitioning.push
  dsimp only
  split
  · -- The value is a part of its own, after what was in `accum`.
    have hflush : ∃ q : Partitioning α, q = (if p.accum.length > 0 then
        { p.commitLast with lastPartition := some (p.accum, p.sum), accum := [], sum := 0 } else p) ∧
        Partitioned values q ∧ q.accum = [] := by
      refine ⟨_, rfl, ?_⟩
      split
      · next hacc =>
        obtain ⟨hc, hlast, haccum, -⟩ := h.commitLast
        have hne : p.commitLast.accum ++ [] ≠ [] := by
          rw [haccum, List.append_nil]
          exact List.length_pos_iff.mp hacc
        have hp := hc.setLast hlast hne p.sum
        rw [List.append_nil, List.append_nil, haccum] at hp
        exact ⟨hp, rfl⟩
      · next hacc => exact ⟨h, List.length_eq_zero_iff.mp (by omega)⟩
    obtain ⟨q, hq, hqp, hqa⟩ := hflush
    rw [← hq]
    obtain ⟨hc, hlast, haccum, -⟩ := hqp.commitLast
    rw [hqa] at haccum
    have hzero : q.commitLast.sum = 0 := by
      rcases hc.sum with ⟨-, hz⟩ | ⟨hne, -⟩
      · exact hz
      · exact absurd haccum hne
    have hp := hc.setLast hlast (by simp : q.commitLast.accum ++ [value] ≠ []) (getSizeOfEntry value)
    rw [haccum, List.nil_append] at hp
    rw [haccum, hzero]
    exact hp
  · split
    · obtain ⟨hc, hlast, haccum, -⟩ := h.commitLast
      have hp := hc.setLast hlast (by simp : p.commitLast.accum ++ [value] ≠ []) (p.sum + getSizeOfEntry value)
      rwa [haccum] at hp
    · refine ⟨by rw [← h.values]; simp, h.results, h.last, .inr ⟨by simp, ?_⟩⟩
      rcases h.sum with ⟨-, hsum⟩ | ⟨-, hsum⟩
      · rw [hsum, zero_add]
        exact hpos
      · exact add_pos hsum hpos

theorem Partitioned.finish {values : List α} {p : Partitioning α} (h : Partitioned values p) (max : ℚ) :
    (p.finish max).flatten = values ∧ ∀ part ∈ p.finish max, part ≠ [] := by
  have hvalues := h.values
  have hcons {results : List (List α)} {part : List α} (hr : ∀ part ∈ results, part ≠ []) (hne : part ≠ []) :
      ∀ part' ∈ results ++ [part], part' ≠ [] := by
    intro part' hp
    rcases List.mem_append.mp hp with hp | hp
    · exact hr part' hp
    · rwa [List.mem_singleton.mp hp]
  obtain ⟨hc, hcl, hca, -⟩ := h.commitLast
  have hcv := hc.values
  rw [hcl, hca] at hcv
  unfold Partitioning.finish
  split
  · next hpos =>
    have hne : p.accum ≠ [] := by
      rcases h.sum with ⟨-, hz⟩ | ⟨hne, -⟩
      · rw [hz] at hpos
        exact absurd hpos (lt_irrefl 0)
      · exact hne
    split
    · next part lastSize hlast =>
      split
      · rw [hlast] at hvalues
        exact ⟨by simpa using hvalues, hcons h.results (by simp [hne])⟩
      · exact ⟨by simpa using hcv, hcons hc.results hne⟩
    · next hlast =>
      rw [hlast] at hvalues
      exact ⟨by simpa using hvalues, hcons h.results hne⟩
  · next hpos =>
    have hnil : p.accum = [] := by
      rcases h.sum with ⟨hnil, -⟩ | ⟨-, hp⟩
      · exact hnil
      · exact absurd hp hpos
    rw [hnil] at hcv
    exact ⟨by simpa using hcv, hc.results⟩

/-- **`partition`** cuts the values into parts that are not empty. -/
theorem partition_spec {values : List α} {getSizeOfEntry : α → ℚ} (hpos : ∀ value ∈ values, 0 < getSizeOfEntry value)
    (min max : ℚ) : (partition values getSizeOfEntry min max).flatten = values ∧
      ∀ part ∈ partition values getSizeOfEntry min max, part ≠ [] := by
  have hloop : ∀ (rest values : List α) (p : Partitioning α), Partitioned values p →
      (∀ value ∈ rest, 0 < getSizeOfEntry value) →
      Partitioned (values ++ rest) (rest.foldl (Partitioning.push getSizeOfEntry min max) p) := by
    intro rest
    induction rest with
    | nil => exact fun values p h _ => by rwa [List.append_nil]
    | cons value rest ih =>
      intro values p h hpos
      have h' := ih _ _ (h.push (hpos value (List.mem_cons_self ..)) min max) fun v hv => hpos v (List.mem_cons_of_mem _ hv)
      rwa [List.append_assoc, List.singleton_append] at h'
  exact (hloop values [] _ ⟨rfl, by simp, by simp, .inl ⟨rfl, rfl⟩⟩ hpos).finish max

/-! ## The entries below a node -/

@[simp] theorem entriesIter_data (hash : ℕ) (modified : Bool) (entries : List (BTreeEntry V)) :
    (data hash modified entries).entriesIter = entries := by rw [entriesIter]

theorem childrenIter_eq (entries : List (BTreeEntry (NodeImpl V))) :
    childrenIter entries = entries.flatMap fun e => e.value.entriesIter := by
  induction entries with
  | nil => rw [childrenIter]; rfl
  | cons e entries ih => rw [childrenIter, ih]; rfl

@[simp] theorem entriesIter_internal (hash : ℕ) (modified : Bool) (level : ℕ) (entries : List (BTreeEntry (NodeImpl V))) :
    (internal hash modified level entries).entriesIter = entries.flatMap fun e => e.value.entriesIter := by
  rw [entriesIter, childrenIter_eq]

/-! ## Well-formed nodes -/

/-- The children are blocks of the entries below, named by their largest keys. -/
abbrev Keyed (entries : List (BTreeEntry (NodeImpl V))) : Prop :=
  Named (fun e => e.value.entriesIter) (·.key) (·.key) entries

/-- A node at a level, the leaves at 0: its children at the level below, each
key the last below its child; with hashes before `next`. -/
inductive Valid (next : ℕ) : ℕ → NodeImpl V → Prop
  | data {hash modified entries} : hash < next → (∀ e ∈ entries, 0 < e.sizeOfEntry) →
      Valid next 0 (data hash modified entries)
  | internal {hash modified n entries} : hash < next → entries ≠ [] → (∀ e ∈ entries, 0 < e.sizeOfEntry) →
      (∀ e ∈ entries, Valid next n e.value) → Keyed entries →
      Valid next (n + 1) (internal hash modified (n + 1) entries)

/-- The entries of an internal node at the level above `n`. -/
structure ValidEntries (next n : ℕ) (entries : List (BTreeEntry (NodeImpl V))) : Prop where
  size : ∀ e ∈ entries, 0 < e.sizeOfEntry
  child : ∀ e ∈ entries, Valid next n e.value
  key : Keyed entries

variable {next next' n hash level : ℕ} {modified : Bool} {node child : NodeImpl V}
  {entries A B : List (BTreeEntry (NodeImpl V))}

theorem Valid.mono (h : Valid next n node) (hle : next ≤ next') : Valid next' n node := by
  induction h with
  | data hhash hsize => exact .data (hhash.trans_le hle) hsize
  | internal hhash hne hsize _ hkey ih => exact .internal (hhash.trans_le hle) hne hsize ih hkey

theorem ValidEntries.mono (h : ValidEntries next n entries) (hle : next ≤ next') : ValidEntries next' n entries :=
  ⟨h.size, fun e he => (h.child e he).mono hle, h.key⟩

theorem ValidEntries.valid (h : ValidEntries next n entries) (hhash : hash < next) (hne : entries ≠ []) :
    Valid next (n + 1) (internal hash modified (n + 1) entries) :=
  .internal hhash hne h.size h.child h.key

theorem Valid.hash_lt (h : Valid next n node) : node.hash < next := by
  cases h with
  | data hhash _ => exact hhash
  | internal hhash _ _ _ _ => exact hhash

theorem Valid.level_eq (h : Valid next n node) : node.level = n := by
  cases h with
  | data _ _ => rfl
  | internal _ _ _ _ _ => rfl

theorem validEntries_nil : ValidEntries next n ([] : List (BTreeEntry (NodeImpl V))) := ⟨by simp, by simp, by simp [Named]⟩

theorem validEntries_cons {e : BTreeEntry (NodeImpl V)} : ValidEntries next n (e :: B) ↔
    (0 < e.sizeOfEntry ∧ Valid next n e.value ∧ e.value.entriesIter.getLast?.map (·.key) = some e.key) ∧
      ValidEntries next n B := by
  constructor
  · intro h
    obtain ⟨hsize, hsizes⟩ := List.forall_mem_cons.mp h.size
    obtain ⟨hchild, hchildren⟩ := List.forall_mem_cons.mp h.child
    obtain ⟨hkey, hkeys⟩ := named_cons.mp h.key
    exact ⟨⟨hsize, hchild, hkey⟩, hsizes, hchildren, hkeys⟩
  · intro ⟨⟨hsize, hchild, hkey⟩, h⟩
    exact ⟨List.forall_mem_cons.mpr ⟨hsize, h.size⟩, List.forall_mem_cons.mpr ⟨hchild, h.child⟩,
      named_cons.mpr ⟨hkey, h.key⟩⟩

theorem validEntries_append : ValidEntries next n (A ++ B) ↔ ValidEntries next n A ∧ ValidEntries next n B := by
  induction A with
  | nil => simp [validEntries_nil]
  | cons e A ih => rw [List.cons_append, validEntries_cons, validEntries_cons, ih, and_assoc (c := ValidEntries next n B)]

theorem ValidEntries.sublist (h : ValidEntries next n entries) (hs : ∀ e ∈ A, e ∈ entries) : ValidEntries next n A :=
  ⟨fun e he => h.size e (hs e he), fun e he => h.child e (hs e he), fun e he => h.key e (hs e he)⟩

theorem Valid.maxKey (h : Valid next n node) : node.maxKey = node.entriesIter.getLast?.map (·.key) := by
  cases h with
  | data _ _ => rw [entriesIter_data]; rfl
  | @internal _ _ _ entries _ _ _ _ hkey =>
    rw [entriesIter_internal, ← Named.getLast? hkey, List.getLast?_map]
    rfl

theorem Valid.length_eq_zero (h : Valid next n node) : node.length = 0 ↔ node.entriesIter = [] := by
  cases h with
  | data _ _ => rw [entriesIter_data, length, List.length_eq_zero_iff]
  | internal _ _ _ _ hkey => rw [entriesIter_internal, Named.flatMap_eq_nil hkey, length, List.length_eq_zero_iff]

theorem Valid.entry (h : Valid next n node) (hne : node.entriesIter ≠ []) (tree : BTreeSizes V) :
    ∃ e, createNewInternalEntryForNode tree node = some e ∧ e.value = node ∧ ValidEntries next n [e] := by
  cases hlast : node.entriesIter.getLast? with
  | none => exact absurd (List.getLast?_eq_none_iff.mp hlast) hne
  | some m =>
    have hkey : node.maxKey = some m.key := by rw [h.maxKey, hlast]; rfl
    refine ⟨{ key := m.key, value := node, sizeOfEntry := tree.getHashSize m.key node.hash }, ?_, rfl, ?_⟩
    · rw [createNewInternalEntryForNode, hkey]
      rfl
    · exact validEntries_cons.mpr ⟨⟨tree.getHashSize_pos _ _, h, by rw [hlast]; rfl⟩, validEntries_nil⟩

/-! ## New nodes -/

/-- The entries of a node at a level. -/
inductive Fits (next : ℕ) : ℕ → Entries V → Prop
  | data {es : List (BTreeEntry V)} : (∀ e ∈ es, 0 < e.sizeOfEntry) → Fits next 0 (.data es)
  | internal {m es} : ValidEntries next m es → Fits next (m + 1) (.internal es)

/-- The entries below entries of either kind. -/
def Entries.below : Entries V → List (BTreeEntry V)
  | .data entries => entries
  | .internal entries => entries.flatMap fun e => e.value.entriesIter

theorem Valid.fits (h : Valid next n node) : Fits next n node.entries ∧ node.entries.below = node.entriesIter := by
  cases h with
  | data _ hsize => exact ⟨.data hsize, by rw [entriesIter_data]; rfl⟩
  | internal _ _ hsize hchild hkey => exact ⟨.internal ⟨hsize, hchild, hkey⟩, by rw [entriesIter_internal]; rfl⟩

theorem joinIterables_spec {a b : Entries V} (ha : Fits next n a) (hb : Fits next n b) :
    ∃ c, joinIterables a b = some c ∧ Fits next n c ∧ c.below = a.below ++ b.below := by
  cases ha with
  | data hsa =>
    cases hb with
    | data hsb => exact ⟨_, rfl, .data (List.forall_mem_append.mpr ⟨hsa, hsb⟩), rfl⟩
  | internal hva =>
    cases hb with
    | internal hvb => exact ⟨_, rfl, .internal (validEntries_append.mpr ⟨hva, hvb⟩), List.flatMap_append⟩

theorem createNodes_spec {below : List α → List (BTreeEntry V)} {ok : List α → ℕ → Prop}
    {newNode : List α → ℕ → NodeImpl V × ℕ} (hmono : ∀ part next next', ok part next → next ≤ next' → ok part next')
    (hnew : ∀ part next, ok part next → part ≠ [] → ∃ node, newNode part next = (node, next + 1) ∧
      Valid (next + 1) n node ∧ node.entriesIter = below part ∧ below part ≠ [])
    (tree : BTreeSizes V) {parts : List (List α)} (hok : ∀ part ∈ parts, ok part next ∧ part ≠ []) :
    ∃ entries next', createNodes tree newNode parts next = some (entries, next') ∧ next ≤ next' ∧
      ValidEntries next' n entries ∧ (entries.flatMap fun e => e.value.entriesIter) = parts.flatMap below := by
  induction parts generalizing next with
  | nil => exact ⟨[], next, rfl, le_rfl, validEntries_nil, rfl⟩
  | cons part parts ih =>
    obtain ⟨hpart, hne⟩ := hok part (List.mem_cons_self ..)
    obtain ⟨node, hnode, hvalid, hiter, hbelow⟩ := hnew part next hpart hne
    obtain ⟨e, hentry, rfl, he⟩ := hvalid.entry (by rwa [hiter]) tree
    obtain ⟨rest, next', hrest, hle, hv, hflat⟩ := @ih (next + 1) fun part hp =>
      ⟨hmono part _ _ (hok part (List.mem_cons_of_mem _ hp)).1 (Nat.le_succ _),
        (hok part (List.mem_cons_of_mem _ hp)).2⟩
    refine ⟨e :: rest, next', ?_, (Nat.le_succ _).trans hle, ?_, ?_⟩
    · rw [createNodes, hnode]
      simp [hentry, hrest]
    · exact validEntries_cons.mpr ⟨(validEntries_cons.mp (he.mono hle)).1, hv⟩
    · rw [List.flatMap_cons, List.flatMap_cons, hflat, hiter]

/-- **New nodes** of a level hold the entries they are made from. -/
theorem partitionNodes_spec {values : Entries V} (h : Fits next n values) (tree : BTreeSizes V) :
    ∃ entries next', partitionNodes tree n values next = some (entries, next') ∧ next ≤ next' ∧
      ValidEntries next' n entries ∧ (entries.flatMap fun e => e.value.entriesIter) = values.below := by
  cases h with
  | @data entries hsize =>
    obtain ⟨hflat, hparts⟩ := partition_spec hsize (tree.minSize - tree.chunkHeaderSize) (tree.maxSize - tree.chunkHeaderSize)
    have hnew : ∀ (part : List (BTreeEntry V)) next, (∀ e ∈ part, 0 < e.sizeOfEntry) → part ≠ [] →
        ∃ node, newDataNodeImpl part next = (node, next + 1) ∧ Valid (next + 1) 0 node ∧ node.entriesIter = id part ∧
          id part ≠ [] :=
      fun part next hsize hne => ⟨_, rfl, .data (Nat.lt_succ_self _) hsize, entriesIter_data _ _ _, hne⟩
    have hok : ∀ part ∈ partition entries (·.sizeOfEntry) (tree.minSize - tree.chunkHeaderSize)
        (tree.maxSize - tree.chunkHeaderSize), (∀ e ∈ part, 0 < e.sizeOfEntry) ∧ part ≠ [] :=
      fun part hp => ⟨fun e he => hsize e (hflat ▸ List.mem_flatten_of_mem hp he), hparts part hp⟩
    obtain ⟨es, next', hes, hle, hv, hbelow⟩ := createNodes_spec (fun _ _ _ h _ => h) hnew tree hok
    exact ⟨es, next', hes, hle, hv, by rw [hbelow, List.flatMap_id, hflat]; rfl⟩
  | @internal m entries hv =>
    obtain ⟨hflat, hparts⟩ := partition_spec hv.size (tree.minSize - tree.chunkHeaderSize) (tree.maxSize - tree.chunkHeaderSize)
    have hnew : ∀ (part : List (BTreeEntry (NodeImpl V))) next, ValidEntries next m part → part ≠ [] →
        ∃ node, newInternalNodeImpl (m + 1) part next = (node, next + 1) ∧ Valid (next + 1) (m + 1) node ∧
          node.entriesIter = (part.flatMap fun e => e.value.entriesIter) ∧ (part.flatMap fun e => e.value.entriesIter) ≠ [] := by
      intro part next hv hne
      refine ⟨_, rfl, (hv.mono (Nat.le_succ _)).valid (Nat.lt_succ_self _) hne, entriesIter_internal _ _ _ _, ?_⟩
      rwa [ne_eq, Named.flatMap_eq_nil hv.key]
    have hok : ∀ part ∈ partition entries (·.sizeOfEntry) (tree.minSize - tree.chunkHeaderSize)
        (tree.maxSize - tree.chunkHeaderSize), ValidEntries next m part ∧ part ≠ [] :=
      fun part hp => ⟨hv.sublist fun e he => hflat ▸ List.mem_flatten_of_mem hp he, hparts part hp⟩
    obtain ⟨es, next', hes, hle, hv', hbelow⟩ := createNodes_spec (fun _ _ _ h hle => h.mono hle) hnew tree hok
    refine ⟨es, next', hes, hle, hv', ?_⟩
    have hjoin : ∀ parts : List (List (BTreeEntry (NodeImpl V))),
        parts.flatMap (List.flatMap fun e => e.value.entriesIter) = parts.flatten.flatMap fun e => e.value.entriesIter := by
      intro parts
      rw [List.flatten_eq_flatMap, List.flatMap_assoc]
      rfl
    rw [hbelow, hjoin, hflat]
    rfl

end NodeImpl

end ZeroSync
