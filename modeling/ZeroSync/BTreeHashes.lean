/-
The nodes of a `BTreeWrite` by their hashes.

An operation puts a new root over nodes that were below the old one and nodes
with hashes of its own (`Renewed`): a hash leads to one node (`Hashed`), and
one that has left the tree does not come back (`Gone`).
-/
import ZeroSync.BTreeWriteRuns

namespace ZeroSync

open NodeImpl

variable {V α : Type}

/-- A node is a child of a node. -/
def Child (node child : NodeImpl V) : Prop := ∃ entries e, node.entries = .internal entries ∧ e ∈ entries ∧ e.value = child

/-- A node is somewhere below a node. -/
abbrev Below (node a : NodeImpl V) : Prop := Relation.TransGen Child node a

/-- A node is a node, or somewhere below it. -/
abbrev Within (node a : NodeImpl V) : Prop := Relation.ReflTransGen Child node a

variable {node child a b : NodeImpl V} {next next' mid level hash : ℕ} {modified : Bool} {old old' : NodeImpl V → Prop}
  {nodes : List (NodeImpl V)} {es : List (BTreeEntry (NodeImpl V))}

theorem child_internal : Child (internal hash modified level es) child ↔ ∃ e ∈ es, e.value = child := by
  constructor
  · rintro ⟨_, e, hes, he, rfl⟩
    cases hes
    exact ⟨e, he, rfl⟩
  · rintro ⟨e, he, rfl⟩
    exact ⟨es, e, rfl, he, rfl⟩

theorem not_child_data {entries : List (BTreeEntry V)} : ¬ Child (data hash modified entries) child := by
  rintro ⟨_, _, hes, -⟩
  cases hes

theorem within_data {entries : List (BTreeEntry V)} : Within (data hash modified entries) a ↔ a = data hash modified entries := by
  refine Relation.ReflTransGen.cases_head_iff.trans ?_
  constructor
  · rintro (rfl | ⟨_, hchild, _⟩)
    · rfl
    · exact absurd hchild not_child_data
  · rintro rfl
    exact .inl rfl

theorem within_internal : Within (internal hash modified level es) a ↔
    a = internal hash modified level es ∨ ∃ e ∈ es, Within e.value a := by
  refine Relation.ReflTransGen.cases_head_iff.trans ?_
  constructor
  · rintro (rfl | ⟨c, hchild, hwithin⟩)
    · exact .inl rfl
    · obtain ⟨e, he, rfl⟩ := child_internal.mp hchild
      exact .inr ⟨e, he, hwithin⟩
  · rintro (rfl | ⟨e, he, hwithin⟩)
    · exact .inl rfl
    · exact .inr ⟨e.value, child_internal.mpr ⟨e, he, rfl⟩, hwithin⟩

theorem below_internal : Below (internal hash modified level es) a ↔ ∃ e ∈ es, Within e.value a := by
  refine Relation.TransGen.head'_iff.trans ?_
  constructor
  · rintro ⟨c, hchild, hwithin⟩
    obtain ⟨e, he, rfl⟩ := child_internal.mp hchild
    exact ⟨e, he, hwithin⟩
  · rintro ⟨e, he, hwithin⟩
    exact ⟨e.value, child_internal.mpr ⟨e, he, rfl⟩, hwithin⟩

theorem Child.sizeOf_lt (h : Child node child) : sizeOf child < sizeOf node := by
  obtain ⟨es, e, hes, he, rfl⟩ := h
  cases node with
  | data => cases hes
  | internal hash modified level entries =>
    cases hes
    obtain ⟨i, hi, rfl⟩ := List.getElem_of_mem he
    exact sizeOf_getElem hi

theorem Below.sizeOf_lt (h : Below node a) : sizeOf a < sizeOf node := by
  induction h with
  | single hchild => exact hchild.sizeOf_lt
  | tail _ hchild ih => exact hchild.sizeOf_lt.trans ih

/-! ## `partition` -/

/-- What is kept so far is of some values. -/
structure Partitioning.Of (values : List α) (p : Partitioning α) : Prop where
  results : ∀ part ∈ p.results, ∀ x ∈ part, x ∈ values
  last : ∀ part ∈ p.lastPartition, ∀ x ∈ part.1, x ∈ values
  accum : ∀ x ∈ p.accum, x ∈ values

variable {values : List α} {p : Partitioning α}

theorem Partitioning.Of.commitLast (h : Of values p) : Of values p.commitLast := by
  obtain ⟨hresults, hlast, haccum⟩ := h
  unfold Partitioning.commitLast
  cases hp : p.lastPartition with
  | none => exact ⟨hresults, by rwa [hp] at hlast ⊢, haccum⟩
  | some part =>
    refine ⟨fun part' hpart => ?_, by simp, haccum⟩
    rcases List.mem_append.mp hpart with hpart | hpart
    · exact hresults part' hpart
    · rw [List.mem_singleton.mp hpart]
      exact hlast part hp

theorem Partitioning.Of.setLast (h : Of values p) {part : List α} (hpart : ∀ x ∈ part, x ∈ values) (size : ℚ) :
    Of values { p with lastPartition := some (part, size) } :=
  ⟨h.results, by simpa using hpart, h.accum⟩

theorem Partitioning.Of.reset (h : Of values p) (sum : ℚ) : Of values { p with accum := [], sum } :=
  ⟨h.results, h.last, by simp⟩

theorem Partitioning.Of.push (h : Of values p) {value : α} (hvalue : value ∈ values) (getSizeOfEntry : α → ℚ) (min max : ℚ) :
    Of values (p.push getSizeOfEntry min max value) := by
  have haccum : ∀ x ∈ p.accum ++ [value], x ∈ values :=
    List.forall_mem_append.mpr ⟨h.accum, List.forall_mem_singleton.mpr hvalue⟩
  unfold Partitioning.push
  dsimp only
  split
  · refine Of.setLast ?_ (List.forall_mem_singleton.mpr hvalue) _
    refine Of.commitLast ?_
    split
    · exact (h.commitLast.setLast h.accum _).reset 0
    · exact h
  · split
    · exact (h.commitLast.setLast haccum _).reset 0
    · exact ⟨h.results, h.last, haccum⟩

theorem Partitioning.Of.finish (h : Of values p) (max : ℚ) : ∀ part ∈ p.finish max, ∀ x ∈ part, x ∈ values := by
  unfold Partitioning.finish
  split
  · split
    · next part size hlast =>
      split
      · refine List.forall_mem_append.mpr ⟨h.results, List.forall_mem_singleton.mpr ?_⟩
        exact List.forall_mem_append.mpr ⟨h.last (part, size) hlast, h.accum⟩
      · exact List.forall_mem_append.mpr ⟨h.commitLast.results, List.forall_mem_singleton.mpr h.accum⟩
    · exact List.forall_mem_append.mpr ⟨h.results, List.forall_mem_singleton.mpr h.accum⟩
  · exact h.commitLast.results

theorem mem_partition (values : List α) (getSizeOfEntry : α → ℚ) (min max : ℚ) :
    ∀ part ∈ partition values getSizeOfEntry min max, ∀ x ∈ part, x ∈ values := by
  have hloop : ∀ (rest : List α) (p : Partitioning α), Partitioning.Of values p → (∀ x ∈ rest, x ∈ values) →
      Partitioning.Of values (rest.foldl (Partitioning.push getSizeOfEntry min max) p) := by
    intro rest
    induction rest with
    | nil => exact fun p h _ => h
    | cons value rest ih =>
      intro p h hrest
      obtain ⟨hvalue, hrest⟩ := List.forall_mem_cons.mp hrest
      exact ih _ (h.push hvalue _ _ _) hrest
  exact (hloop values _ ⟨by simp, by simp, by simp⟩ fun _ hx => hx).finish max

/-! ## New hashes -/

/-- Nodes made with the hashes from `next` on, over old nodes. -/
structure Renewed (next : ℕ) (old : NodeImpl V → Prop) (nodes : List (NodeImpl V)) (next' : ℕ) : Prop where
  mono : next ≤ next'
  old_lt : ∀ a, old a → a.hash < next
  within : ∀ node ∈ nodes, ∀ a, Within node a → old a ∨ next ≤ a.hash ∧ a.hash < next'
  unique : ∀ node ∈ nodes, ∀ node' ∈ nodes, ∀ a b, Within node a → Within node' b → next ≤ a.hash → a.hash = b.hash → a = b

theorem Renewed.imp (h : Renewed next old nodes next') (himp : ∀ a, old a → old' a) (hlt : ∀ a, old' a → a.hash < next) :
    Renewed next old' nodes next' :=
  ⟨h.mono, hlt, fun node hnode a ha => (h.within node hnode a ha).imp_left (himp a), h.unique⟩

theorem Renewed.sub {nodes' : List (NodeImpl V)} (h : Renewed next old nodes next')
    (hsub : ∀ node' ∈ nodes', ∃ node ∈ nodes, Within node node') : Renewed next old nodes' next' := by
  refine ⟨h.mono, h.old_lt, fun node' hnode a ha => ?_, fun n' hn' m' hm' a b ha hb => ?_⟩
  · obtain ⟨node, hmem, hwithin⟩ := hsub node' hnode
    exact h.within node hmem a (hwithin.trans ha)
  · obtain ⟨n, hn, hwn⟩ := hsub n' hn'
    obtain ⟨m, hm, hwm⟩ := hsub m' hm'
    exact h.unique n hn m hm a b (hwn.trans ha) (hwm.trans hb)

theorem Renewed.subset {nodes' : List (NodeImpl V)} (h : Renewed next old nodes next') (hsub : ∀ node ∈ nodes', node ∈ nodes) :
    Renewed next old nodes' next' := h.sub fun node hnode => ⟨node, hsub node hnode, .refl⟩

theorem Renewed.lt (h : Renewed next old nodes next') (hnode : node ∈ nodes) (ha : Within node a) : a.hash < next' := by
  rcases h.within node hnode a ha with hold | ⟨-, hlt⟩
  · exact (h.old_lt a hold).trans_le h.mono
  · exact hlt

theorem Renewed.append {nodes' : List (NodeImpl V)} (h : Renewed next old nodes next')
    (hnodes : ∀ node ∈ nodes', ∀ a, Within node a → old a) : Renewed next old (nodes ++ nodes') next' := by
  refine ⟨h.mono, h.old_lt, fun node hnode a ha => ?_, fun node hnode node' hnode' a b ha hb hfresh heq => ?_⟩
  · rcases List.mem_append.mp hnode with hnode | hnode
    · exact h.within node hnode a ha
    · exact .inl (hnodes node hnode a ha)
  · rcases List.mem_append.mp hnode with hnode | hnode
    · rcases List.mem_append.mp hnode' with hnode' | hnode'
      · exact h.unique node hnode node' hnode' a b ha hb hfresh heq
      · have hlt := h.old_lt b (hnodes node' hnode' b hb)
        omega
    · have hlt := h.old_lt a (hnodes node hnode a ha)
      omega

theorem renewed_old (hold : ∀ a, old a → a.hash < next) (hnodes : ∀ node ∈ nodes, ∀ a, Within node a → old a) :
    Renewed next old nodes next := by
  have h : Renewed next old ([] : List (NodeImpl V)) next := ⟨le_rfl, hold, by simp, by simp⟩
  exact h.append hnodes

theorem Renewed.cons (h : Renewed next old nodes next') (hhash : node.hash = next')
    (hnode : ∀ a, Within node a → a = node ∨ ∃ n ∈ nodes, Within n a) : Renewed next old (node :: nodes) (next' + 1) := by
  have hmono := h.mono
  have hwithin {n a : NodeImpl V} (hn : n ∈ node :: nodes) (ha : Within n a) : a = node ∨ ∃ n ∈ nodes, Within n a := by
    rcases List.mem_cons.mp hn with rfl | hn
    · exact hnode a ha
    · exact .inr ⟨n, hn, ha⟩
  refine ⟨hmono.trans (Nat.le_succ _), h.old_lt, fun n hn a ha => ?_, fun n hn n' hn' a b ha hb hfresh heq => ?_⟩
  · rcases hwithin hn ha with rfl | ⟨n, hn, ha⟩
    · exact .inr ⟨by omega, by omega⟩
    · exact (h.within n hn a ha).imp_right fun hlt => ⟨hlt.1, by omega⟩
  · rcases hwithin hn ha with ha | ⟨c, hc, hca⟩ <;> rcases hwithin hn' hb with hb | ⟨c', hc', hcb⟩
    · rw [ha, hb]
    · have hlt := h.lt hc' hcb
      rw [← heq, ha] at hlt
      omega
    · have hlt := h.lt hc hca
      rw [heq, hb] at hlt
      omega
    · exact h.unique c hc c' hc' a b hca hcb hfresh heq

theorem Renewed.internal (h : Renewed next old nodes next') (hes : ∀ e ∈ es, e.value ∈ nodes) (level : ℕ) :
    Renewed next old [NodeImpl.internal next' true level es] (next' + 1) := by
  have hcons : Renewed next old (.internal next' true level es :: nodes) (next' + 1) := h.cons rfl fun a ha =>
    (within_internal.mp ha).imp_right fun ⟨e, he, ha⟩ => ⟨e.value, hes e he, ha⟩
  exact hcons.subset (by simp)

theorem Renewed.createNodes {tree : BTreeSizes V} {newNode : List α → ℕ → NodeImpl V × ℕ} {parts : List (List α)}
    (h : Renewed next old nodes mid)
    (hnew : ∀ part ∈ parts, ∀ mid, (newNode part mid).2 = mid + 1 ∧ (newNode part mid).1.hash = mid ∧
      ∀ a, Within (newNode part mid).1 a → a = (newNode part mid).1 ∨ ∃ n ∈ nodes, Within n a)
    (hcreate : createNodes tree newNode parts mid = some (es, next')) :
    Renewed next old (es.map (·.value) ++ nodes) next' := by
  induction parts generalizing nodes mid es with
  | nil =>
    cases hcreate
    exact h
  | cons part parts ih =>
    obtain ⟨hpart, hparts⟩ := List.forall_mem_cons.mp hnew
    obtain ⟨hnext, hhash, hwithin⟩ := hpart mid
    rw [NodeImpl.createNodes] at hcreate
    obtain ⟨e, hentry, hcreate⟩ := Option.bind_eq_some_iff.mp hcreate
    obtain ⟨⟨rest, next''⟩, hrest, hes⟩ := Option.bind_eq_some_iff.mp hcreate
    cases hes
    obtain ⟨key, -, rfl⟩ := Option.map_eq_some_iff.mp hentry
    rw [hnext] at hrest
    have hcons := ih (h.cons hhash hwithin) (fun part' hp mid' => ?_) hrest
    · refine hcons.subset fun n hn => ?_
      simp only [List.map_cons, List.cons_append, List.mem_cons, List.mem_append] at hn ⊢
      tauto
    · obtain ⟨h1, h2, h3⟩ := hparts part' hp mid'
      exact ⟨h1, h2, fun a ha => (h3 a ha).imp_right (Exists.imp fun n hn => ⟨List.mem_cons_of_mem _ hn.1, hn.2⟩)⟩

/-! ## Operations of a node -/

/-- The nodes that entries lead to. -/
def entryNodes : Entries V → List (NodeImpl V)
  | .data _ => []
  | .internal entries => entries.map (·.value)

theorem Renewed.partitionNodes {tree : BTreeSizes V} {values : Entries V} (h : Renewed next old nodes mid)
    (hvalues : ∀ node ∈ entryNodes values, node ∈ nodes) (hpartition : partitionNodes tree level values mid = some (es, next')) :
    Renewed next old (es.map (·.value) ++ nodes) next' := by
  unfold NodeImpl.partitionNodes at hpartition
  dsimp only at hpartition
  split at hpartition
  · split at hpartition
    · refine h.createNodes (fun part _ mid' => ⟨rfl, rfl, fun a ha => .inl ?_⟩) hpartition
      exact within_data.mp ha
    · cases hpartition
  · split at hpartition
    · cases hpartition
    · next entries _ =>
      refine h.createNodes (fun part hp mid' => ⟨rfl, rfl, fun a ha => ?_⟩) hpartition
      refine (within_internal.mp ha).imp_right fun ⟨e, he, hea⟩ => ⟨e.value, ?_, hea⟩
      exact hvalues _ (List.mem_map_of_mem (mem_partition _ _ _ _ part hp e he))

theorem mem_readonlySplice {array items : List α} {start deleteCount : ℕ} {x : α}
    (h : x ∈ readonlySplice array start deleteCount items) : x ∈ array ∨ x ∈ items := by
  rw [readonlySplice] at h
  simp only [List.mem_append] at h
  rcases h with (h | h) | h
  · exact .inl (List.mem_of_mem_take h)
  · exact .inr h
  · exact .inl (List.mem_of_mem_drop h)

theorem Renewed.splice {items : List (BTreeEntry (NodeImpl V))} {start deleteCount : ℕ}
    (h : Renewed next old (items.map (·.value) ++ nodes) mid) (hold : ∀ e ∈ es, ∀ a, Within e.value a → old a) (level : ℕ) :
    Renewed next old [NodeImpl.internal mid true level (readonlySplice es start deleteCount items)] (mid + 1) := by
  have happend : Renewed next old ((items.map (·.value) ++ nodes) ++ es.map (·.value)) mid := by
    refine h.append fun node hnode => ?_
    obtain ⟨e, he, rfl⟩ := List.mem_map.mp hnode
    exact hold e he
  refine happend.internal (fun e he => ?_) level
  rcases mem_readonlySplice he with he | he
  · exact List.mem_append_right _ (List.mem_map_of_mem he)
  · exact List.mem_append_left _ (List.mem_append_left _ (List.mem_map_of_mem he))

theorem child_of_mem_entryNodes (h : child ∈ entryNodes node.entries) : Child node child := by
  cases node with
  | data => cases h
  | internal hash modified level entries =>
    obtain ⟨e, he, rfl⟩ := List.mem_map.mp h
    exact ⟨entries, e, rfl, he, rfl⟩

theorem mem_joinIterables {x y values : Entries V} (h : joinIterables x y = some values) (hnode : node ∈ entryNodes values) :
    node ∈ entryNodes x ∨ node ∈ entryNodes y := by
  cases x <;> cases y <;> cases h
  · cases hnode
  · rw [entryNodes, List.map_append] at hnode
    exact List.mem_append.mp hnode

theorem Renewed.mergeAndPartition {tree : BTreeSizes V} {i : ℕ} {r : NodeImpl V × ℕ} (h : Renewed next old [child] mid)
    (hold : ∀ e ∈ es, ∀ a, Within e.value a → old a) (hmerge : mergeAndPartition tree level es i child mid = some r) :
    Renewed next old [r.1] r.2 := by
  have hchild : Renewed next old (entryNodes child.entries) mid :=
    h.sub fun node hnode => ⟨child, List.mem_singleton_self _, .single (child_of_mem_entryNodes hnode)⟩
  have hsibling {e : BTreeEntry (NodeImpl V)} (he : e ∈ es) :
      Renewed next old (entryNodes child.entries ++ entryNodes e.value.entries) mid :=
    hchild.append fun node hnode a ha => hold e he a (.head (child_of_mem_entryNodes hnode) ha)
  -- New nodes of the values, in the place of some of the children.
  have hfinish {values : Entries V} {nodes : List (NodeImpl V)} {startIndex removeCount : ℕ} (hn : Renewed next old nodes mid)
      (hmem : ∀ node ∈ entryNodes values, node ∈ nodes) (hr : (NodeImpl.partitionNodes tree (level - 1) values mid).bind
        (fun p => some (newInternalNodeImpl level (readonlySplice es startIndex removeCount p.1) p.2)) = some r) :
      Renewed next old [r.1] r.2 := by
    obtain ⟨⟨newEntries, next''⟩, hnew, hr⟩ := Option.bind_eq_some_iff.mp hr
    cases hr
    exact (hn.partitionNodes hmem hnew).splice hold level
  rw [NodeImpl.mergeAndPartition] at hmerge
  dsimp only at hmerge
  split at hmerge
  · obtain ⟨e, he, hmerge⟩ := Option.bind_eq_some_iff.mp hmerge
    obtain ⟨joined, hjoin, hmerge⟩ := Option.bind_eq_some_iff.mp hmerge
    refine hfinish (hsibling (List.mem_of_getElem? he)) (fun node hnode => ?_) hmerge
    exact List.mem_append.mpr (mem_joinIterables hjoin hnode).symm
  · split at hmerge
    · obtain ⟨e, he, hmerge⟩ := Option.bind_eq_some_iff.mp hmerge
      obtain ⟨joined, hjoin, hmerge⟩ := Option.bind_eq_some_iff.mp hmerge
      refine hfinish (hsibling (List.mem_of_getElem? he)) (fun node hnode => ?_) hmerge
      exact List.mem_append.mpr (mem_joinIterables hjoin hnode)
    · exact hfinish hchild (fun _ hnode => hnode) hmerge

theorem Renewed.replaceChild {e : BTreeEntry (NodeImpl V)} {index : ℕ} (h : Renewed next old [e.value] mid)
    (hold : ∀ e ∈ es, ∀ a, Within e.value a → old a) :
    Renewed next old [(replaceChild level es index e mid).1] (replaceChild level es index e mid).2 := by
  have hitems : Renewed next old ([e].map (·.value) ++ []) mid := by simpa using h
  exact hitems.splice hold level

theorem value_of_createNewInternalEntryForNode {tree : BTreeSizes V} {e : BTreeEntry (NodeImpl V)}
    (h : createNewInternalEntryForNode tree node = some e) : e.value = node := by
  obtain ⟨key, -, rfl⟩ := Option.map_eq_some_iff.mp h
  rfl

/-- The nodes from a node on have hashes before `next`. -/
def HashesLt (next : ℕ) (node : NodeImpl V) : Prop := ∀ a, Within node a → a.hash < next

theorem HashesLt.below (h : HashesLt next node) (a : NodeImpl V) (ha : Below node a) : a.hash < next :=
  h a ha.to_reflTransGen

theorem renewed_data (hlt : HashesLt next node) (entries : List (BTreeEntry V)) :
    Renewed next (Below node) [data next true entries] (next + 1) := by
  have h : Renewed next (Below node) [] next := renewed_old hlt.below (by simp)
  exact h.cons rfl fun a ha => .inl (within_data.mp ha)

theorem Renewed.parent (h : Renewed next (Below child) nodes next') (hchild : Child node child) (hlt : HashesLt next node) :
    Renewed next (Below node) nodes next' := h.imp (fun _ ha => .head hchild ha) hlt.below

/-- **`set`** puts new nodes over nodes from below. -/
theorem set_renewed {tree : BTreeSizes V} {key : String} {value : V} {entrySize : ℚ} {r : NodeImpl V × ℕ}
    (hlt : HashesLt next node) (h : node.set tree key value entrySize next = some r) : Renewed next (Below node) [r.1] r.2 := by
  induction hn : sizeOf node using Nat.strong_induction_on generalizing node r with
  | _ n ih =>
  cases node with
  | data hash modified entries =>
    rw [NodeImpl.set] at h
    cases h
    exact renewed_data hlt _
  | internal hash modified level entries =>
    rw [NodeImpl.set] at h
    dsimp only at h
    split at h
    · next hi =>
      have hchild : Child (NodeImpl.internal hash modified level entries) (entries.get ⟨childIndex key entries, hi⟩).value :=
        child_internal.mpr ⟨_, List.getElem_mem hi, rfl⟩
      obtain ⟨⟨childNode, next'⟩, hset, h⟩ := Option.bind_eq_some_iff.mp h
      have hrenewed := (ih _ (hn ▸ hchild.sizeOf_lt) (fun a ha => hlt a (.head hchild ha)) hset rfl).parent hchild hlt
      have hold : ∀ e ∈ entries, ∀ a, Within e.value a → Below (NodeImpl.internal hash modified level entries) a :=
        fun e he a ha => below_internal.mpr ⟨e, he, ha⟩
      split at h
      · exact hrenewed.mergeAndPartition hold h
      · obtain ⟨e, hentry, h⟩ := Option.bind_eq_some_iff.mp h
        cases h
        rw [← value_of_createNewInternalEntryForNode hentry] at hrenewed
        exact hrenewed.replaceChild hold
    · cases h

/-- **`del`** leaves the node, or puts new nodes over nodes from below. -/
theorem del_renewed {tree : BTreeSizes V} {key : String} {r : NodeImpl V × ℕ} (hlt : HashesLt next node)
    (h : node.del tree key next = some r) : (r.1 = node ∧ next ≤ r.2) ∨ Renewed next (Below node) [r.1] r.2 := by
  induction hn : sizeOf node using Nat.strong_induction_on generalizing node r with
  | _ n ih =>
  cases node with
  | data hash modified entries =>
    rw [NodeImpl.del] at h
    split at h
    · cases h
      exact .inr (renewed_data hlt _)
    · cases h
      exact .inl ⟨rfl, le_rfl⟩
  | internal hash modified level entries =>
    rw [NodeImpl.del] at h
    dsimp only at h
    split at h
    · next hi =>
      have hchild : Child (NodeImpl.internal hash modified level entries) (entries.get ⟨binarySearch key entries, hi⟩).value :=
        child_internal.mpr ⟨_, List.getElem_mem hi, rfl⟩
      obtain ⟨⟨childNode, next'⟩, hdel, h⟩ := Option.bind_eq_some_iff.mp h
      have hold : ∀ e ∈ entries, ∀ a, Within e.value a → Below (NodeImpl.internal hash modified level entries) a :=
        fun e he a ha => below_internal.mpr ⟨e, he, ha⟩
      have hih := ih _ (hn ▸ hchild.sizeOf_lt) (fun a ha => hlt a (.head hchild ha)) hdel rfl
      split at h
      · cases h
        exact .inl ⟨rfl, hih.elim (fun h => h.2) fun h => h.mono⟩
      · next hhash =>
        have hrenewed := (hih.resolve_left fun h => hhash (congrArg NodeImpl.hash h.1)).parent hchild hlt
        refine .inr ?_
        split at h
        · cases h
          have hitems : Renewed next (Below (NodeImpl.internal hash modified level entries))
              (([] : List (BTreeEntry (NodeImpl V))).map (·.value) ++ [childNode]) next' := hrenewed
          exact hitems.splice hold level
        · split at h
          · cases h
            exact hrenewed
          · split at h
            · obtain ⟨e, hentry, h⟩ := Option.bind_eq_some_iff.mp h
              cases h
              rw [← value_of_createNewInternalEntryForNode hentry] at hrenewed
              exact hrenewed.replaceChild hold
            · exact hrenewed.mergeAndPartition hold h
    · cases h
      exact .inl ⟨rfl, le_rfl⟩

/-! ## The tree -/

namespace BTreeWrite

variable {t t' : BTreeWrite V} {tree : BTreeSizes V} {key : String}

/-- Each hash leads to one node, the hash of the empty tree to an empty one, and the next hash is new. -/
structure Hashed (t : BTreeWrite V) : Prop where
  lt : HashesLt t.nextHash t.root
  unique : ∀ a b, Within t.root a → Within t.root b → a.hash = b.hash → a = b
  empty : ∀ a, Within t.root a → a.hash = emptyHash → a.entriesIter = []

/-- A hash that was used, and leads to no node of the tree. -/
structure Gone (hash : ℕ) (t : BTreeWrite V) : Prop where
  lt : hash < t.nextHash
  ne : ∀ a, Within t.root a → a.hash ≠ hash

theorem Gone.mono {hash : ℕ} (h : Gone hash t) (hroot : t'.root = t.root) (hle : t.nextHash ≤ t'.nextHash) : Gone hash t' :=
  ⟨h.lt.trans_le hle, by rw [hroot]; exact h.ne⟩

/-- The root was replaced: its hash is gone, and no hash comes back. -/
structure Replaced (t t' : BTreeWrite V) : Prop where
  hashed : t'.Hashed
  root : Gone t.root.hash t'
  gone : ∀ hash, Gone hash t → Gone hash t'

theorem Hashed.replaced (h : t.Hashed) (hrenewed : Renewed t.nextHash (Below t.root) [t'.root] t'.nextHash) :
    Replaced t t' := by
  have hroot : t.root.hash < t.nextHash := h.lt _ .refl
  have hmono := hrenewed.mono
  have hwithin {a : NodeImpl V} (ha : Within t'.root a) : Below t.root a ∨ t.nextHash ≤ a.hash :=
    (hrenewed.within _ (List.mem_singleton_self _) a ha).imp_right fun hlt => hlt.1
  have hgone {hash : ℕ} (hlt : hash < t.nextHash) (hne : ∀ a, Below t.root a → a.hash ≠ hash) : Gone hash t' := by
    refine ⟨hlt.trans_le hmono, fun a ha heq => ?_⟩
    rcases hwithin ha with hbelow | hfresh
    · exact hne a hbelow heq
    · omega
  have hunique {a b : NodeImpl V} (ha : Within t'.root a) (hb : Within t'.root b) (hfresh : t.nextHash ≤ a.hash)
      (heq : a.hash = b.hash) : a = b :=
    hrenewed.unique _ (List.mem_singleton_self _) _ (List.mem_singleton_self _) a b ha hb hfresh heq
  refine ⟨⟨fun a ha => hrenewed.lt (List.mem_singleton_self _) ha, fun a b ha hb heq => ?_, fun a ha heq => ?_⟩, ?_, ?_⟩
  · rcases hwithin ha with hold | hfresh
    · rcases hwithin hb with hold' | hfresh
      · exact h.unique a b hold.to_reflTransGen hold'.to_reflTransGen heq
      · exact (hunique hb ha hfresh heq.symm).symm
    · exact hunique ha hb hfresh heq
  · rcases hwithin ha with hold | hfresh
    · exact h.empty a hold.to_reflTransGen heq
    · rw [heq] at hfresh
      exact absurd hroot (by rw [Nat.le_zero.mp hfresh]; exact Nat.not_lt_zero _)
  · refine hgone hroot fun a ha heq => ?_
    have hself := ha.sizeOf_lt
    rw [h.unique a t.root ha.to_reflTransGen .refl heq] at hself
    exact lt_irrefl _ hself
  · exact fun hash hg => hgone hg.lt fun a ha => hg.ne a ha.to_reflTransGen

/-- **`put`** replaces the root. -/
theorem Hashed.put (h : t.Hashed) {value : V} (hput : t.put tree key value = some t') : Replaced t t' := by
  refine h.replaced ?_
  rw [BTreeWrite.put] at hput
  obtain ⟨⟨rootNode, next⟩, hset, hput⟩ := Option.bind_eq_some_iff.mp hput
  have hrenewed := set_renewed h.lt hset
  dsimp only at hput
  split at hput
  · obtain ⟨⟨entries, next'⟩, hpartition, hput⟩ := Option.bind_eq_some_iff.mp hput
    cases hput
    have hentries : Renewed t.nextHash (Below t.root) (entryNodes rootNode.entries) next :=
      hrenewed.sub fun node hnode => ⟨rootNode, List.mem_singleton_self _, .single (child_of_mem_entryNodes hnode)⟩
    exact (hentries.partitionNodes (fun _ hnode => hnode) hpartition).internal
      (fun e he => List.mem_append_left _ (List.mem_map_of_mem he)) _
  · cases hput
    exact hrenewed

theorem within_flatten {node a : NodeImpl V} (h : Within (flatten node) a) : Within node a := by
  unfold flatten at h
  split at h
  · exact .head (child_internal.mpr ⟨_, List.mem_singleton_self _, rfl⟩) h
  · exact h

/-- **`del`** replaces the root, or leaves it. -/
theorem Hashed.del (h : t.Hashed) {found : Bool} (hdel : t.del tree key = some (t', found)) :
    Replaced t t' ∨ t'.root = t.root ∧ t.nextHash ≤ t'.nextHash := by
  rw [BTreeWrite.del] at hdel
  obtain ⟨⟨node, next⟩, hnode, hdel⟩ := Option.bind_eq_some_iff.mp hdel
  have hrenewed := del_renewed h.lt hnode
  dsimp only at hdel
  split at hdel
  · next hne =>
    cases hdel
    have hroot := hrenewed.resolve_left fun hsame => hne (congrArg NodeImpl.hash hsame.1.symm)
    refine .inl (h.replaced (hroot.sub fun n hn => ⟨node, List.mem_singleton_self _, ?_⟩))
    rw [List.mem_singleton.mp hn]
    exact within_flatten .refl
  · cases hdel
    exact .inr ⟨rfl, hrenewed.elim (fun h => h.2) fun h => h.mono⟩

end BTreeWrite

end ZeroSync
