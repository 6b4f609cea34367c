/-
`putMany` of a node puts each of the entries in its place (`putMany_spec`).

`Spread` says which of the entries go to which child. A child that has its
entries is a `Slot`: its entry is in `newEntries`, or its node waits to be
rebalanced. The groups are the runs of waiting slots (`Runs`), and taking them
from right to left leaves the slots before a group as they were.
-/
import ZeroSync.BTreePutMany
import ZeroSync.BTreeWritePut

namespace ZeroSync

open BinarySearch SortedList Blocks

namespace NodeImpl

variable {V α : Type} {next next' n hash level k i : ℕ} {modified : Bool} {node child : NodeImpl V}
  {cs A B : List (BTreeEntry (NodeImpl V))} {tree : BTreeSizes V} {key : String} {e : BTreeEntry V}
  {es : List (BTreeEntry V)}

/-! ## Leaves -/

/-- **The merge** of a leaf with new entries puts each in its place. -/
theorem mergeEntries_eq {thisEntries entries : List (BTreeEntry V)} (ht : Sorted byKey thisEntries)
    (he : Sorted byKey entries) : mergeEntries thisEntries entries = insertKeys byKey entries thisEntries := by
  induction thisEntries, entries using mergeEntries.induct with
  | case1 entries =>
    rw [mergeEntries, insertKeys_after he (by simp)]
    rfl
  | case2 thisEntries hne =>
    rw [mergeEntries]
    · rfl
    · exact hne
  | case3 x xs e es hcmp ih =>
    obtain ⟨hx, hxs⟩ := sorted_cons.mp ht
    have hlt : ∀ z ∈ e :: es, ∀ y ∈ [x], byKey y z = .lt := by
      intro z hz y hy
      rw [List.mem_singleton.mp hy]
      rcases List.mem_cons.mp hz with rfl | hz
      · exact hcmp
      · exact Std.TransCmp.lt_trans hcmp ((sorted_cons.mp he).1 z hz)
    rw [mergeEntries, hcmp]
    dsimp only
    rw [ih hxs he, ← List.singleton_append, ← insertKeys_append_right hlt, List.singleton_append]
  | case4 x xs e es hcmp ih =>
    obtain ⟨hes, hs⟩ := sorted_cons.mp he
    have hgt : ∀ y ∈ x :: xs, byKey y e = .gt := by
      intro y hy
      rcases List.mem_cons.mp hy with rfl | hy
      · exact hcmp
      · exact Std.OrientedCmp.gt_of_lt
          (Std.TransCmp.lt_trans (Std.OrientedCmp.lt_of_gt hcmp) ((sorted_cons.mp ht).1 y hy))
    have hlt : ∀ z ∈ es, ∀ y ∈ [e], byKey y z = .lt := by
      intro z hz y hy
      rw [List.mem_singleton.mp hy]
      exact hes z hz
    have hput : insertKey byKey e (x :: xs) = e :: x :: xs := insertKey_between (a := []) (by simp) hgt
    rw [mergeEntries, hcmp]
    dsimp only
    rw [ih ht hs, insertKeys_cons, hput, ← List.singleton_append, ← insertKeys_append_right hlt, List.singleton_append]
  | case5 x xs e es hcmp ih =>
    obtain ⟨hes, hs⟩ := sorted_cons.mp he
    obtain ⟨hx, hxs⟩ := sorted_cons.mp ht
    have hgt : ∀ y ∈ xs, byKey y e = .gt := fun y hy =>
      Std.OrientedCmp.gt_of_lt (Std.TransCmp.lt_of_eq_of_lt (Std.OrientedCmp.eq_symm hcmp) (hx y hy))
    have hlt : ∀ z ∈ es, ∀ y ∈ [e], byKey y z = .lt := by
      intro z hz y hy
      rw [List.mem_singleton.mp hy]
      exact hes z hz
    have hput : insertKey byKey e (x :: xs) = e :: xs := insertKey_replace (a := []) (by simp) hcmp hgt
    rw [mergeEntries, hcmp]
    dsimp only
    rw [ih hxs hs, insertKeys_cons, hput, ← List.singleton_append, ← insertKeys_append_right hlt, List.singleton_append]

/-! ## Entries by child -/

/-- The entries below the children. -/
abbrev entriesBelow (cs : List (BTreeEntry (NodeImpl V))) : List (BTreeEntry V) := cs.flatMap fun c => c.value.entriesIter

/-- A key goes to the child at an index, the children counted from `k` on. -/
structure Goes (k : ℕ) (cs : List (BTreeEntry (NodeImpl V))) (key : String) (i : ℕ) : Prop where
  split : ∃ A c B, cs = A ++ c :: B ∧ i = k + A.length ∧ (∀ x ∈ entriesBelow A, toKey x key = .lt) ∧
    ∀ x ∈ entriesBelow B, toKey x key = .gt

theorem Goes.tail {c : BTreeEntry (NodeImpl V)} (h : Goes k (c :: cs) key i) (hlt : k < i) :
    Goes (k + 1) cs key i ∧ ∀ x ∈ c.value.entriesIter, toKey x key = .lt := by
  obtain ⟨A, c', B, heq, rfl, hbefore, hafter⟩ := h.split
  cases A with
  | nil => exact absurd hlt (by simp)
  | cons a A =>
    obtain ⟨rfl, rfl⟩ := List.cons.inj heq
    refine ⟨⟨A, c', B, rfl, ?_, fun x hx => hbefore x (by simp [hx]), hafter⟩, fun x hx => hbefore x (by simp [hx])⟩
    rw [List.length_cons]
    omega

theorem Goes.head_after {c : BTreeEntry (NodeImpl V)} (h : Goes k (c :: cs) key k) :
    ∀ x ∈ entriesBelow cs, toKey x key = .gt := by
  obtain ⟨A, c', B, heq, hk, -, hafter⟩ := h.split
  obtain rfl : A = [] := List.length_eq_zero_iff.mp (by omega)
  obtain ⟨-, rfl⟩ := List.cons.inj heq
  exact hafter

/-- The entries in groups, each for the child it goes to, the children counted from `k` on. -/
inductive Spread : ℕ → List (BTreeEntry (NodeImpl V)) → List (ℕ × List (BTreeEntry V)) → Prop
  | done {k : ℕ} {cs : List (BTreeEntry (NodeImpl V))} : Spread k cs []
  | skip {k : ℕ} {c : BTreeEntry (NodeImpl V)} {cs : List (BTreeEntry (NodeImpl V))}
      {groups : List (ℕ × List (BTreeEntry V))} : (∀ e ∈ groups.flatMap (·.2), ∀ x ∈ c.value.entriesIter, byKey x e = .lt) →
      Spread (k + 1) cs groups → Spread k (c :: cs) groups
  | child {k : ℕ} {c : BTreeEntry (NodeImpl V)} {cs : List (BTreeEntry (NodeImpl V))} {group : List (BTreeEntry V)}
      {groups : List (ℕ × List (BTreeEntry V))} : group ≠ [] →
      (∀ e ∈ groups.flatMap (·.2), ∀ x ∈ c.value.entriesIter, byKey x e = .lt) →
      (∀ e ∈ group, ∀ x ∈ entriesBelow cs, byKey x e = .gt) → Spread (k + 1) cs groups →
      Spread k (c :: cs) ((k, group) :: groups)

theorem Spread.le {groups : List (ℕ × List (BTreeEntry V))} (h : Spread k cs groups) : ∀ group ∈ groups, k ≤ group.1 := by
  induction h with
  | done => simp
  | skip _ _ ih => exact fun group hg => Nat.le_of_succ_le (ih group hg)
  | child _ _ _ _ ih =>
    intro group hg
    rcases List.mem_cons.mp hg with rfl | hg
    · exact le_rfl
    · exact Nat.le_of_succ_le (ih group hg)

theorem Spread.single (h : Goes k cs e.key i) : Spread k cs [(i, [e])] := by
  obtain ⟨A, c, B, rfl, rfl, hlt, hgt⟩ := h.split
  induction A generalizing k with
  | nil => exact .child (by simp) (by simp) (fun e' he' => by rwa [List.mem_singleton.mp he']) .done
  | cons a A ih =>
    have hrest : Spread (k + 1) (A ++ c :: B) [(k + 1 + A.length, [e])] :=
      ih ⟨A, c, B, rfl, rfl, fun x hx => hlt x (by simp [hx]), hgt⟩ fun x hx => hlt x (by simp [hx])
    rw [show k + (a :: A).length = k + 1 + A.length by simp only [List.length_cons]; omega]
    refine .skip (fun e' he' x hx => ?_) hrest
    obtain rfl : e' = e := by simpa using he'
    exact hlt x (by simp [hx])

theorem Spread.push {groups : List (ℕ × List (BTreeEntry V))} (h : Spread k cs groups) (hgoes : Goes k cs e.key i)
    (hle : ∀ group ∈ groups, group.1 ≤ i) : Spread k cs (pushGroup i e groups) ∧
      (pushGroup i e groups).flatMap (·.2) = groups.flatMap (·.2) ++ [e] ∧
      ∀ group ∈ pushGroup i e groups, group.1 ≤ i := by
  induction h with
  | done => exact ⟨.single hgoes, by simp [pushGroup], by simp [pushGroup]⟩
  | @skip k c cs groups hbefore hrest ih =>
    cases groups with
    | nil => exact ⟨.single hgoes, by simp [pushGroup], by simp [pushGroup]⟩
    | cons group groups =>
      have hki : k < i := (hrest.le group (by simp)).trans (hle group (by simp))
      obtain ⟨hgoes', hlt⟩ := hgoes.tail hki
      obtain ⟨hs, hflat, hall⟩ := ih hgoes' hle
      refine ⟨.skip (fun e' he' x hx => ?_) hs, hflat, hall⟩
      rw [hflat] at he'
      rcases List.mem_append.mp he' with he' | he'
      · exact hbefore e' he' x hx
      · rw [List.mem_singleton.mp he']
        exact hlt x hx
  | @child k c cs group groups hne hbefore hafter hrest ih =>
    rw [pushGroup]
    split
    · next hki =>
      subst hki
      -- The groups after this one would be after the child the key goes to.
      obtain rfl : groups = [] := by
        rw [List.eq_nil_iff_forall_not_mem]
        intro group hg
        have h₁ := hrest.le group hg
        have h₂ := hle group (List.mem_cons_of_mem _ hg)
        omega
      have hgt := hgoes.head_after
      refine ⟨.child (by simp) (by simp) (fun e' he' x hx => ?_) .done, by simp, by simp⟩
      rcases List.mem_append.mp he' with he' | he'
      · exact hafter e' he' x hx
      · rw [List.mem_singleton.mp he']
        exact hgt x hx
    · next hki =>
      have hlt : k < i := lt_of_le_of_ne (hle _ (List.mem_cons_self ..)) hki
      obtain ⟨hgoes', hlt'⟩ := hgoes.tail hlt
      obtain ⟨hs, hflat, hall⟩ := ih hgoes' fun group hg => hle group (List.mem_cons_of_mem _ hg)
      refine ⟨.child hne (fun e' he' x hx => ?_) hafter hs, by simp [hflat], ?_⟩
      · rw [hflat] at he'
        rcases List.mem_append.mp he' with he' | he'
        · exact hbefore e' he' x hx
        · rw [List.mem_singleton.mp he']
          exact hlt' x hx
      · exact List.forall_mem_cons.mpr ⟨hlt.le, hall⟩

/-- The loop so far: what is below the children before the next search is before the entries to come. -/
structure Grouped (cs : List (BTreeEntry (NodeImpl V))) (done es : List (BTreeEntry V)) (s : ChildGroups V) : Prop where
  spread : Spread 0 cs s.groups
  flat : s.groups.flatMap (·.2) = done
  le : ∀ group ∈ s.groups, group.1 ≤ s.searchStart
  start : s.searchStart < cs.length
  before : ∀ e ∈ es, ∀ x ∈ entriesBelow (cs.take s.searchStart), byKey x e = .lt

theorem Grouped.push {done : List (BTreeEntry V)} {s : ChildGroups V} (h : Grouped cs done (e :: es) s)
    (hv : ValidEntries next n cs) (hs : Sorted byKey (entriesBelow cs)) (he : Sorted byKey (e :: es)) :
    Grouped cs (done ++ [e]) es (s.push cs e) := by
  have hdrop : cs.drop s.searchStart ≠ [] := by
    rw [ne_eq, List.drop_eq_nil_iff]
    exact not_le.mpr h.start
  have hsplit : entriesBelow cs = entriesBelow (cs.take s.searchStart) ++ entriesBelow (cs.drop s.searchStart) := by
    rw [← List.flatMap_append, List.take_append_drop]
  have hsd : Sorted byKey (entriesBelow (cs.drop s.searchStart)) := (sorted_append.mp (hsplit ▸ hs)).2.1
  obtain ⟨A, c, B, hcs, hindex, hlt, hgt⟩ :=
    (hv.sublist fun c hc => List.mem_of_mem_drop hc).childIndex hdrop hsd e.key
  have hlen : (cs.take s.searchStart).length = s.searchStart := List.length_take_of_le h.start.le
  have hall : cs = (cs.take s.searchStart ++ A) ++ c :: B := by
    rw [List.append_assoc, ← hcs, List.take_append_drop]
  -- The index is that of the child, among all of them.
  have hi : (if binarySearchFrom e.key cs s.searchStart = cs.length then binarySearchFrom e.key cs s.searchStart - 1
      else binarySearchFrom e.key cs s.searchStart) = s.searchStart + A.length := by
    have hstart := h.start
    rw [← hindex, binarySearchFrom, childIndex, List.length_drop]
    generalize binarySearch e.key (cs.drop s.searchStart) = j
    by_cases hj : j = cs.length - s.searchStart
    · rw [if_pos (by omega), if_pos hj]
      omega
    · rw [if_neg (by omega), if_neg hj]
  have hgoes : Goes 0 cs e.key (s.searchStart + A.length) :=
    ⟨_, c, B, hall, by rw [List.length_append, hlen, Nat.zero_add], fun x hx => by
      rw [entriesBelow, List.flatMap_append] at hx
      exact (List.mem_append.mp hx).elim (h.before e (by simp) x) (hlt x), hgt⟩
  obtain ⟨hsp, hflat, hle⟩ := h.spread.push hgoes fun group hg => (h.le group hg).trans (Nat.le_add_right _ _)
  unfold ChildGroups.push
  dsimp only
  rw [hi]
  refine ⟨hsp, by rw [hflat, h.flat], hle, ?_, fun e' he' x hx => ?_⟩
  · have hlen' := congrArg List.length hall
    simp only [List.length_append, List.length_cons, hlen] at hlen'
    dsimp only
    omega
  · obtain ⟨A', c', B', hcs', hA', hlt', -⟩ := hgoes.split
    rw [hcs', List.take_left' (by rw [hA', Nat.zero_add])] at hx
    exact Std.TransCmp.lt_trans (hlt' x hx) ((sorted_cons.mp he).1 e' he')

/-- **The groups** hold the entries, each with the child it goes to. -/
theorem childGroups_spec (hv : ValidEntries next n cs) (hne : cs ≠ []) (hs : Sorted byKey (entriesBelow cs))
    (he : Sorted byKey es) : Spread 0 cs (childGroups cs es) ∧ (childGroups cs es).flatMap (·.2) = es := by
  have hloop : ∀ (es done : List (BTreeEntry V)) (s : ChildGroups V), Grouped cs done es s → Sorted byKey es →
      Grouped cs (done ++ es) [] (es.foldl (ChildGroups.push cs) s) := by
    intro es
    induction es with
    | nil => exact fun done s h _ => by rwa [List.append_nil]
    | cons e es ih =>
      intro done s h he
      have h' := ih _ _ (h.push hv hs he) (sorted_cons.mp he).2
      rwa [List.append_assoc, List.singleton_append] at h'
  have hstart : Grouped cs [] es { groups := [], searchStart := 0 } :=
    ⟨.done, rfl, by simp, List.length_pos_iff.mpr hne, by simp⟩
  have h := hloop es [] _ hstart he
  exact ⟨h.spread, h.flat⟩

/-! ## Slots -/

/-- The place of a child: its entry in `newEntries`, and its node while that waits to be rebalanced. -/
structure Slot (V : Type) where
  entry : BTreeEntry (NodeImpl V)
  pending : Option (NodeImpl V)

/-- The child as it is now. -/
def Slot.current (s : Slot V) : NodeImpl V := s.pending.getD s.entry.value

/-- The entries below the children as they are now. -/
abbrev slotsBelow (slots : List (Slot V)) : List (BTreeEntry V) := slots.flatMap fun s => s.current.entriesIter

/-- The nodes that wait, with their indices from `k` on. -/
def pendings : ℕ → List (Slot V) → List (ℕ × NodeImpl V)
  | _, [] => []
  | k, s :: slots => s.pending.toList.map (fun node => (k, node)) ++ pendings (k + 1) slots

/-- Well-formed slots of the children at a level. -/
structure Slots (next n : ℕ) (slots : List (Slot V)) : Prop where
  entries : ValidEntries next n (slots.map (·.entry))
  pending : ∀ s ∈ slots, ∀ node ∈ s.pending, Valid next n node ∧ node.entriesIter ≠ []

variable {slots S T P U sep : List (Slot V)} {s : Slot V}

theorem Slots.mono (h : Slots next n slots) (hle : next ≤ next') : Slots next' n slots :=
  ⟨h.entries.mono hle, fun s hs node hnode => ⟨(h.pending s hs node hnode).1.mono hle, (h.pending s hs node hnode).2⟩⟩

theorem slots_append : Slots next n (S ++ T) ↔ Slots next n S ∧ Slots next n T := by
  constructor
  · intro h
    have he := h.entries
    rw [List.map_append] at he
    obtain ⟨hS, hT⟩ := validEntries_append.mp he
    obtain ⟨hpS, hpT⟩ := List.forall_mem_append.mp h.pending
    exact ⟨⟨hS, hpS⟩, hT, hpT⟩
  · intro ⟨hS, hT⟩
    refine ⟨?_, List.forall_mem_append.mpr ⟨hS.pending, hT.pending⟩⟩
    rw [List.map_append]
    exact validEntries_append.mpr ⟨hS.entries, hT.entries⟩

theorem Slots.current (h : Slots next n slots) (hs : s ∈ slots) : Valid next n s.current := by
  rw [Slot.current]
  cases hp : s.pending with
  | none => exact h.entries.child _ (List.mem_map_of_mem hs)
  | some node => exact (h.pending s hs node hp).1

/-- The slots of children that have no new entries. -/
def settledSlots (cs : List (BTreeEntry (NodeImpl V))) : List (Slot V) := cs.map fun c => { entry := c, pending := none }

@[simp] theorem map_entry_settledSlots (cs : List (BTreeEntry (NodeImpl V))) :
    (settledSlots cs).map (·.entry) = cs := by simp [settledSlots, Function.comp_def]

theorem map_entry_append_settledSlots (S : List (Slot V)) (cs : List (BTreeEntry (NodeImpl V))) :
    (S ++ settledSlots cs).map (·.entry) = S.map (·.entry) ++ cs := by rw [List.map_append, map_entry_settledSlots]

@[simp] theorem slotsBelow_settledSlots (cs : List (BTreeEntry (NodeImpl V))) :
    slotsBelow (settledSlots cs) = entriesBelow cs := by simp [settledSlots, slotsBelow, List.flatMap_map, Slot.current]

theorem slots_settledSlots (h : ValidEntries next n cs) : Slots next n (settledSlots cs) :=
  ⟨by rwa [map_entry_settledSlots], by simp [settledSlots]⟩

theorem pendings_append (k : ℕ) (S T : List (Slot V)) :
    pendings k (S ++ T) = pendings k S ++ pendings (k + S.length) T := by
  induction S generalizing k with
  | nil => rfl
  | cons s S ih =>
    rw [List.cons_append, pendings, pendings, ih, List.append_assoc, List.length_cons,
      show k + 1 + S.length = k + (S.length + 1) by omega]

theorem pendings_settled (k : ℕ) (h : ∀ s ∈ slots, s.pending = none) : pendings k slots = [] := by
  induction slots generalizing k with
  | nil => rfl
  | cons s slots ih =>
    rw [pendings, h s (by simp), ih _ fun s hs => h s (List.mem_cons_of_mem _ hs)]
    rfl

theorem pendings_settledSlots (k : ℕ) (cs : List (BTreeEntry (NodeImpl V))) : pendings k (settledSlots cs) = [] :=
  pendings_settled k (by simp [settledSlots])

theorem le_of_mem_pendings {child : ℕ × NodeImpl V} (h : child ∈ pendings k slots) : k ≤ child.1 := by
  induction slots generalizing k with
  | nil => simp [pendings] at h
  | cons s slots ih =>
    rw [pendings] at h
    rcases List.mem_append.mp h with h | h
    · obtain ⟨node, -, rfl⟩ := List.mem_map.mp h
      exact le_rfl
    · exact Nat.le_of_succ_le (ih h)

theorem pendings_sorted (k : ℕ) (slots : List (Slot V)) : (pendings k slots).Pairwise fun a b => a.1 ≤ b.1 := by
  induction slots generalizing k with
  | nil => exact .nil
  | cons s slots ih =>
    rw [pendings]
    refine List.pairwise_append.mpr ⟨?_, ih _, fun a ha b hb => ?_⟩
    · cases s.pending <;> simp
    · obtain ⟨node, -, rfl⟩ := List.mem_map.mp ha
      exact Nat.le_of_succ_le (le_of_mem_pendings hb)

theorem lookup_pendings (k j : ℕ) (slots : List (Slot V)) :
    (pendings k slots).lookup (k + j) = slots[j]?.bind (·.pending) := by
  induction slots generalizing k j with
  | nil => rfl
  | cons s slots ih =>
    rw [pendings]
    cases j with
    | zero =>
      cases hp : s.pending with
      | none =>
        simp only [Option.toList_none, List.map_nil, List.nil_append, List.getElem?_cons_zero, Option.bind_some, hp]
        rw [List.lookup_eq_none_iff]
        intro child hc
        have hle := le_of_mem_pendings hc
        simp only [bne_iff_ne, ne_eq]
        omega
      | some node => simp [hp]
    | succ j =>
      have hne : (k + 1 + j == k) = false := by
        rw [beq_eq_false_iff_ne]
        omega
      rw [List.getElem?_cons_succ, ← ih (k + 1) j, show k + (j + 1) = k + 1 + j by omega]
      cases s.pending with
      | none => rfl
      | some node => simp [List.lookup_cons, hne]

theorem lookup_pendings_lt {j : ℕ} (hlt : j < k) (slots : List (Slot V)) : (pendings k slots).lookup j = none := by
  rw [List.lookup_eq_none_iff]
  intro child hc
  have hle := le_of_mem_pendings hc
  simp only [bne_iff_ne, ne_eq]
  omega

/-! ## Children with their new entries -/

/-- What `putMany` does to a child: the new entries are below it. -/
def Puts (tree : BTreeSizes V) (n : ℕ) (node : NodeImpl V) : Prop :=
  ∀ (next : ℕ) (es : List (BTreeEntry V)), Valid next n node → Sorted byKey node.entriesIter → es ≠ [] →
    Sorted byKey es → (∀ e ∈ es, 0 < e.sizeOfEntry) →
    ∃ r, node.putMany tree es next = some r ∧ Made next n (insertKeys byKey es node.entriesIter) r

/-- The loop over the children from `k` on, when it has ended in `s`: `D` and
`waiting` were there before, and `l` is below the slots of these children. -/
structure PutOver (next n k : ℕ) (D : List (BTreeEntry (NodeImpl V))) (waiting : List (ℕ × NodeImpl V))
    (l : List (BTreeEntry V)) (s : PutChildren V) (slots : List (Slot V)) : Prop where
  entries : s.newEntries = D ++ slots.map (·.entry)
  waits : s.childrenToRebalance = waiting ++ pendings k slots
  mono : next ≤ s.next
  valid : Slots s.next n slots
  below : slotsBelow slots = l

theorem PutChildren.add_spec {s : PutChildren V} {c : BTreeEntry (NodeImpl V)} (hD : s.newEntries = A ++ c :: B)
    (hc : ValidEntries next n [c]) (hv : Valid next n child) (hne : child.entriesIter ≠ []) (tree : BTreeSizes V) :
    ∃ s' slot, s.add tree A.length child next = some s' ∧ s'.newEntries = A ++ slot.entry :: B ∧
      s'.childrenToRebalance = s.childrenToRebalance ++ pendings A.length [slot] ∧ s'.next = next ∧
      Slots next n [slot] ∧ slot.current = child := by
  rw [PutChildren.add]
  split
  · exact ⟨_, { entry := c, pending := some child }, rfl, hD, rfl, rfl,
      ⟨hc, by simpa using ⟨hv, hne⟩⟩, rfl⟩
  · obtain ⟨newEntry, hentry, rfl, he⟩ := hv.entry hne tree
    refine ⟨{ s with newEntries := s.newEntries.set A.length newEntry, next },
      { entry := newEntry, pending := none }, by rw [hentry]; rfl, ?_, (List.append_nil _).symm, rfl,
      ⟨he, by simp⟩, rfl⟩
    dsimp only
    rw [hD, set_length_append]

/-- **The loop over the children** puts the entries below them, each below the child it goes to. -/
theorem putChildren_spec {groups : List (ℕ × List (BTreeEntry V))} (h : Spread k cs groups)
    (step : PutChildren V → ℕ × List (BTreeEntry V) → Option (PutChildren V)) {all : List (BTreeEntry (NodeImpl V))}
    (hstep : ∀ s group c, all[group.1]? = some c → step s group =
      (c.value.putMany tree group.2 s.next).bind fun r => s.add tree group.1 r.1 r.2)
    (hall : all = A ++ cs) (hA : A.length = k) (s : PutChildren V) {D : List (BTreeEntry (NodeImpl V))}
    (hD : s.newEntries = D ++ cs) (hDk : D.length = k) (hv : ValidEntries s.next n cs)
    (hs : Sorted byKey (entriesBelow cs)) (hputs : ∀ c ∈ cs, Puts tree n c.value)
    (hes : Sorted byKey (groups.flatMap (·.2))) (hpos : ∀ e ∈ groups.flatMap (·.2), 0 < e.sizeOfEntry) :
    ∃ s' slots, groups.foldlM step s = some s' ∧ PutOver s.next n k D s.childrenToRebalance
      (insertKeys byKey (groups.flatMap (·.2)) (entriesBelow cs)) s' slots := by
  induction h generalizing A D s with
  | @done k cs =>
    exact ⟨s, settledSlots cs, rfl, by simpa using hD, by rw [pendings_settledSlots, List.append_nil], le_rfl,
      slots_settledSlots hv, slotsBelow_settledSlots cs⟩
  | @skip k c cs groups hbefore _ ih =>
    obtain ⟨hc, hcs⟩ := (validEntries_append (A := [c])).mp hv
    obtain ⟨s', slots, hfold, hput⟩ := ih (A := A ++ [c]) (D := D ++ [c]) (by rw [hall]; simp) (by simp [hA]) s
      (by rw [hD]; simp) (by simp [hDk]) hcs (sorted_append.mp hs).2.1
      (fun c hc => hputs c (List.mem_cons_of_mem _ hc)) hes hpos
    refine ⟨s', settledSlots [c] ++ slots, hfold, ?_, ?_, hput.mono,
      slots_append.mpr ⟨(slots_settledSlots hc).mono hput.mono, hput.valid⟩, ?_⟩
    · rw [hput.entries, List.map_append, map_entry_settledSlots, List.append_assoc]
    · rw [hput.waits, pendings_append, pendings_settledSlots]
      rfl
    · have hright := insertKeys_append_right (b := entriesBelow cs) hbefore
      rw [entriesBelow, List.flatMap_cons, hright, ← hput.below, slotsBelow, List.flatMap_append]
      congr 1
      exact (slotsBelow_settledSlots [c]).trans (List.flatMap_singleton ..)
  | @child k c cs group groups hne hbefore hafter _ ih =>
    obtain ⟨hc, hcs⟩ := (validEntries_append (A := [c])).mp hv
    rw [List.flatMap_cons] at hes hpos ⊢
    obtain ⟨hpg, hpgs⟩ := List.forall_mem_append.mp hpos
    obtain ⟨hsg, hsgs, hlt⟩ := sorted_append.mp hes
    obtain ⟨hsc, hscs, -⟩ := (sorted_append (l := c.value.entriesIter)).mp hs
    obtain ⟨⟨node, next'⟩, hput, hmade⟩ := hputs c (by simp) s.next group (hv.child c (by simp)) hsc hne hsg hpg
    have hnode : node.entriesIter ≠ [] := by
      rw [hmade.below]
      exact insertKeys_ne_nil hne _
    obtain ⟨s₁, slot, hadd, hentries, hwaits, hnext, hslot, hcurrent⟩ :=
      PutChildren.add_spec hD (hc.mono hmade.mono) hmade.valid hnode tree
    have hone : step s (k, group) = some s₁ := by
      rw [hstep s (k, group) c (by simp [hall, hA]), hput, Option.bind_some, ← hDk]
      exact hadd
    obtain ⟨s', slots, hfold, hover⟩ := ih (A := A ++ [c]) (D := D ++ [slot.entry]) (by rw [hall]; simp)
      (by simp [hA]) s₁ (by rw [hentries]; simp) (by simp [hDk]) (hcs.mono (hnext ▸ hmade.mono)) hscs
      (fun c hc => hputs c (List.mem_cons_of_mem _ hc)) hsgs hpgs
    have hle : next' ≤ s'.next := hnext.symm.trans_le hover.mono
    refine ⟨s', [slot] ++ slots, by rw [List.foldlM_cons, hone]; exact hfold, ?_, ?_, hmade.mono.trans hle,
      slots_append.mpr ⟨hslot.mono hle, hover.valid⟩, ?_⟩
    · rw [hover.entries, List.map_append, List.append_assoc]
      rfl
    · rw [hover.waits, hwaits, pendings_append, hDk, List.append_assoc]
      rfl
    · -- The group stays below the child, for the entries of the other groups come after it.
      have hleft := insertKeys_append_left (a := c.value.entriesIter) hafter
      have hright : insertKeys byKey (groups.flatMap (·.2)) (node.entriesIter ++ entriesBelow cs) =
          node.entriesIter ++ insertKeys byKey (groups.flatMap (·.2)) (entriesBelow cs) := by
        refine insertKeys_append_right fun e he x hx => ?_
        rw [hmade.below] at hx
        rcases mem_of_mem_insertKeys hx with hx | hx
        · exact hlt x hx e he
        · exact hbefore e he x hx
      rw [insertKeys_append, entriesBelow, List.flatMap_cons, hleft, ← hmade.below, hright, ← hover.below, slotsBelow,
        List.flatMap_append, List.flatMap_singleton, hcurrent]

/-! ## Groups of children to rebalance -/

/-- None of the slots waits. -/
def Settled (slots : List (Slot V)) : Prop := ∀ s ∈ slots, s.pending = none

/-- The group of the slots `P`, which start at `k`. -/
def groupAt (k : ℕ) (P : List (Slot V)) : RebalanceGroup V :=
  { nodes := pendings k P, minIndex := k, maxIndex := k + P.length - 1 }

/-- The groups, and the slots they are made of: no others wait, and before each
group that is not at the start is a slot that does not wait. -/
inductive Runs : List (Slot V) → List (RebalanceGroup V) → Prop
  | settled {U : List (Slot V)} : Settled U → Runs U []
  | run {T sep P U : List (Slot V)} {groups : List (RebalanceGroup V)} : Runs T groups → Settled sep →
      sep.length ≤ 1 → (sep = [] → T = []) → P ≠ [] → Settled U →
      Runs (T ++ (sep ++ (P ++ U))) (groups ++ [groupAt (T.length + sep.length) P])

theorem Runs.snoc_settled {groups : List (RebalanceGroup V)} (h : Runs S groups) (hs : s.pending = none) :
    Runs (S ++ [s]) groups := by
  have hU {U : List (Slot V)} (h : Settled U) : Settled (U ++ [s]) :=
    List.forall_mem_append.mpr ⟨h, by simpa using hs⟩
  cases h with
  | settled h => exact .settled (hU h)
  | run hT hsep hlen hnil hP h =>
    rw [List.append_assoc, List.append_assoc, List.append_assoc]
    exact .run hT hsep hlen hnil hP (hU h)

theorem Runs.start {groups : List (RebalanceGroup V)} (hU : Settled U) (hrun : ∀ U' u, U = U' ++ [u] → Runs (T ++ U') groups)
    (hnil : U = [] → T = [] ∧ groups = []) (s : Slot V) :
    Runs (T ++ (U ++ [s])) (groups ++ [groupAt (T.length + U.length) [s]]) := by
  rcases List.eq_nil_or_concat U with rfl | ⟨U', u, rfl⟩
  · obtain ⟨rfl, rfl⟩ := hnil rfl
    exact @Runs.run _ [] [] [s] [] [] (.settled (by simp [Settled])) (by simp [Settled]) (by simp) (by simp) (by simp)
      (by simp [Settled])
  · rw [List.concat_eq_append] at *
    have h := @Runs.run _ _ [u] [s] [] _ (hrun U' u rfl) (fun s hs => hU s (List.mem_append_right _ hs)) le_rfl
      (by simp) (by simp) (by simp [Settled])
    simpa [Nat.add_assoc] using h

theorem Runs.snoc_pending {groups : List (RebalanceGroup V)} (h : Runs S groups) (hs : s.pending = some node) :
    Runs (S ++ [s]) (addToGroups groups (S.length, node)) := by
  have hgroup (k : ℕ) : groupAt k [s] = { nodes := [(k, node)], minIndex := k, maxIndex := k } := by
    simp [groupAt, pendings, hs]
  cases h with
  | settled h =>
    have hstart : Runs ([] ++ (S ++ [s])) ([] ++ [groupAt (([] : List (Slot V)).length + S.length) [s]]) := Runs.start h
      (fun U' u hU => .settled fun s hs => h s (by rw [hU]; exact List.mem_append_left _ hs)) (fun _ => ⟨rfl, rfl⟩) s
    rw [hgroup] at hstart
    simpa [addToGroups] using hstart
  | @run T sep P U groups hT hsep hlen hnil hP hU =>
    have hPpos : 0 < P.length := List.length_pos_iff.mpr hP
    rw [addToGroups, List.getLast?_concat]
    dsimp only
    split
    · next hadj =>
      -- There is nothing between the last group and the slot.
      obtain rfl : U = [] := by
        rw [groupAt] at hadj
        simp only [List.length_append] at hadj
        exact List.length_eq_zero_iff.mp (by omega)
      have hrun := Runs.run hT hsep hlen hnil (P := P ++ [s]) (by simp) hU
      rw [List.dropLast_concat]
      have hlast : groupAt (T.length + sep.length) (P ++ [s]) =
          { groupAt (T.length + sep.length) P with
            nodes := (groupAt (T.length + sep.length) P).nodes ++ [((T ++ (sep ++ (P ++ []))).length, node)]
            maxIndex := (T ++ (sep ++ (P ++ []))).length } := by
        simp only [groupAt, pendings_append, List.length_append, List.append_nil, RebalanceGroup.mk.injEq, true_and]
        refine ⟨by simp [pendings, hs, Nat.add_assoc], ?_⟩
        simp only [List.length_cons, List.length_nil]
        omega
      rw [← hlast]
      simpa using hrun
    · next hadj =>
      have hUne : U ≠ [] := by
        rintro rfl
        rw [groupAt] at hadj
        simp only [List.length_append, List.length_nil] at hadj
        omega
      have hstart := Runs.start (T := T ++ (sep ++ P)) hU
        (fun U' u hUU => by
          have h := Runs.run hT hsep hlen hnil hP (U := U')
            fun s hs => hU s (by rw [hUU]; exact List.mem_append_left _ hs)
          simpa using h) (fun h => absurd h hUne) s
      rw [hgroup] at hstart
      simpa [Nat.add_assoc] using hstart

/-- **The groups** of the nodes that wait are their runs. -/
theorem runs_of_pendings (slots : List (Slot V)) :
    Runs slots (((pendings 0 slots).mergeSort fun a b => a.1 ≤ b.1).foldl addToGroups []) := by
  rw [List.mergeSort_of_pairwise (by simpa using pendings_sorted 0 slots)]
  induction slots using List.reverseRecOn with
  | nil => exact .settled (by simp [Settled])
  | append_singleton slots s ih =>
    rw [pendings_append, List.foldl_append, Nat.zero_add]
    cases hp : s.pending with
    | none =>
      have hnone : pendings slots.length [s] = [] := pendings_settled _ (by simpa using hp)
      rw [hnone]
      exact ih.snoc_settled hp
    | some node =>
      have hone : pendings slots.length [s] = [(slots.length, node)] := by simp [pendings, hp]
      rw [hone]
      exact ih.snoc_pending hp

theorem joinAllIterables_spec {allValues : List (Entries V)} (hne : allValues ≠ []) (h : ∀ values ∈ allValues, Fits next n values) :
    ∃ c, joinAllIterables allValues = some c ∧ Fits next n c ∧ c.below = allValues.flatMap (·.below) := by
  induction allValues with
  | nil => exact absurd rfl hne
  | cons values allValues ih =>
    cases allValues with
    | nil => exact ⟨values, rfl, h values (by simp), (List.flatMap_singleton ..).symm⟩
    | cons values' rest =>
      obtain ⟨c, hc, hfits, hbelow⟩ := ih (by simp) fun values hv => h values (List.mem_cons_of_mem _ hv)
      obtain ⟨c', hc', hfits', hbelow'⟩ := joinIterables_spec (h values (by simp)) hfits
      refine ⟨c', ?_, hfits', by rw [hbelow', hbelow, List.flatMap_cons (x := values)]⟩
      rw [joinAllIterables, hc]
      · exact hc'
      · simp

theorem mapM_range_slots {f : ℕ → Option (Entries V)} (hf : ∀ j (hj : j < slots.length), f (k + j) = some slots[j].current.entries) :
    (List.range' k slots.length).mapM f = some (slots.map (·.current.entries)) := by
  induction slots generalizing k with
  | nil => rfl
  | cons s slots ih =>
    have hhead : f k = some s.current.entries := hf 0 (by simp)
    have htail := ih (k := k + 1) fun j hj => by
      rw [Nat.add_assoc, Nat.add_comm 1 j]
      exact hf (j + 1) (by simpa using hj)
    rw [List.length_cons, List.range'_succ, List.mapM_cons, hhead, htail]
    rfl

theorem values_groupAt {R : List (BTreeEntry (NodeImpl V))} {j : ℕ} (hsep : Settled sep)
    (hs : ((sep ++ P) ++ settledSlots R)[j]? = some s) :
    (groupAt (T.length + sep.length) P).values (T.map (·.entry) ++ ((sep ++ P).map (·.entry) ++ R)) (T.length + j) =
      some s.current.entries := by
  have hentry : (T.map (·.entry) ++ ((sep ++ P).map (·.entry) ++ R))[T.length + j]? = some s.entry := by
    rw [List.getElem?_append_right (by simp), List.length_map, Nat.add_sub_cancel_left, ← map_entry_append_settledSlots,
      List.getElem?_map, hs]
    rfl
  have hlookup : (pendings (T.length + sep.length) P).lookup (T.length + j) = s.pending := by
    rcases Nat.lt_or_ge j sep.length with hj | hj
    · rw [lookup_pendings_lt (by omega), hsep s ?_]
      rw [List.append_assoc, List.getElem?_append_left hj] at hs
      exact List.mem_of_getElem? hs
    · obtain ⟨j', rfl⟩ := Nat.exists_eq_add_of_le hj
      rw [List.append_assoc, List.getElem?_append_right hj, Nat.add_sub_cancel_left] at hs
      rw [← Nat.add_assoc, lookup_pendings]
      rcases Nat.lt_or_ge j' P.length with hj' | hj'
      · rw [List.getElem?_append_left hj'] at hs
        rw [hs]
        rfl
      · rw [List.getElem?_append_right hj'] at hs
        obtain ⟨c, -, rfl⟩ := List.mem_map.mp (List.mem_of_getElem? hs)
        rw [List.getElem?_eq_none hj']
        rfl
  rw [RebalanceGroup.values]
  dsimp only [groupAt]
  rw [hlookup, hentry]
  cases hp : s.pending <;> simp [Slot.current, hp]

/-- **A group** makes way for new nodes, and so do a sibling before it and one after it. -/
theorem rebalanceGroup_spec {R : List (BTreeEntry (NodeImpl V))} (hmid : Slots next n (sep ++ P)) (hR : ValidEntries next n R)
    (hsep : Settled sep) (hlen : sep.length ≤ 1) (hnil : sep = [] → T = []) (hP : P ≠ [])
    (tree : BTreeSizes V) : ∃ newEntries next',
      rebalanceGroup tree (n + 1) (groupAt (T.length + sep.length) P)
        (T.map (·.entry) ++ ((sep ++ P).map (·.entry) ++ R), next) =
          some (T.map (·.entry) ++ (newEntries ++ R.drop 1), next') ∧
      next ≤ next' ∧ ValidEntries next' n (newEntries ++ R.drop 1) ∧
      entriesBelow (newEntries ++ R.drop 1) = slotsBelow (sep ++ P) ++ entriesBelow R := by
  have hPpos : 0 < P.length := List.length_pos_iff.mpr hP
  -- The slots that are joined: the sibling after the group is as it is in `R`.
  obtain ⟨Q, hQ⟩ : ∃ Q, Q = (sep ++ P) ++ settledSlots (R.take 1) := ⟨_, rfl⟩
  have hsQ : Slots next n Q := by
    rw [hQ]
    exact slots_append.mpr ⟨hmid, slots_settledSlots (hR.sublist fun e he => List.mem_of_mem_take he)⟩
  have hstart : T.length + sep.length - 1 = T.length := by
    rcases Nat.le_one_iff_eq_zero_or_eq_one.mp hlen with h0 | h1
    · rw [hnil (List.length_eq_zero_iff.mp h0), h0]
      rfl
    · omega
  have hcount : min ((T.map (·.entry) ++ ((sep ++ P).map (·.entry) ++ R)).length - 1)
      (T.length + sep.length + P.length - 1 + 1) - T.length + 1 = Q.length := by
    have hone : (R.take 1).length = min 1 R.length := List.length_take
    rw [hQ]
    simp only [List.length_append, List.length_map, settledSlots, hone]
    omega
  have hvalues : (List.range' T.length Q.length).mapM ((groupAt (T.length + sep.length) P).values
      (T.map (·.entry) ++ ((sep ++ P).map (·.entry) ++ R))) = some (Q.map (·.current.entries)) := by
    refine mapM_range_slots fun j hj => ?_
    refine values_groupAt hsep (R := R) ?_
    have hprefix : Q <+: (sep ++ P) ++ settledSlots R := by
      rw [hQ, List.prefix_append_right_inj, settledSlots, List.map_take]
      exact List.take_prefix _ _
    obtain ⟨rest, hrest⟩ := hprefix
    rw [← hrest, List.getElem?_append_left hj, List.getElem?_eq_getElem hj]
  have hQne : Q ≠ [] := by
    rw [hQ]
    simp [hP]
  have hfitsAll : ∀ values ∈ Q.map (·.current.entries), Fits next n values :=
    List.forall_mem_map.mpr fun s hs => (hsQ.current hs).fits.1
  obtain ⟨merged, hjoin, hfits, hbelow⟩ := joinAllIterables_spec (by simpa using hQne) hfitsAll
  obtain ⟨newEntries, next', hnew, hle, hv, hflat⟩ := partitionNodes_spec hfits tree
  refine ⟨newEntries, next', ?_, hle, validEntries_append.mpr
    ⟨hv, (hR.sublist fun e he => List.mem_of_mem_drop he).mono hle⟩, ?_⟩
  · have hsplice := readonlySplice_append (T.map (·.entry)) (Q.map (·.entry)) (R.drop 1) newEntries
    rw [List.length_map, List.length_map] at hsplice
    have hlist : T.map (·.entry) ++ ((sep ++ P).map (·.entry) ++ R) = T.map (·.entry) ++ (Q.map (·.entry) ++ R.drop 1) := by
      rw [hQ, map_entry_append_settledSlots, List.append_assoc, List.take_append_drop]
    rw [rebalanceGroup]
    dsimp only [groupAt] at hvalues ⊢
    rw [hstart, hcount, hvalues]
    simp only [Option.bind_eq_bind, Option.bind_some, hjoin, Nat.add_sub_cancel, hnew]
    rw [hlist, hsplice]
    rfl
  · rw [entriesBelow, List.flatMap_append, hflat, hbelow, List.flatMap_map]
    have hcurrent : (Q.flatMap fun s => s.current.entries.below) = slotsBelow Q :=
      List.flatMap_congr fun s hs => (hsQ.current hs).fits.2
    rw [hcurrent, hQ, slotsBelow, List.flatMap_append, List.append_assoc]
    congr 1
    rw [← entriesBelow, ← slotsBelow, slotsBelow_settledSlots, ← List.flatMap_append, List.take_append_drop]

theorem slotsBelow_settled (h : Settled slots) : slotsBelow slots = entriesBelow (slots.map (·.entry)) := by
  rw [entriesBelow, List.flatMap_map]
  refine List.flatMap_congr fun s hs => ?_
  rw [Slot.current, h s hs]
  rfl

theorem Runs.rebalanced {groups : List (RebalanceGroup V)} {R : List (BTreeEntry (NodeImpl V))} (h : Runs S groups)
    (hS : Slots next n S) (hR : ValidEntries next n R) (tree : BTreeSizes V) : ∃ newEntries next',
      groups.reverse.foldlM (fun state group => rebalanceGroup tree (n + 1) group state) (S.map (·.entry) ++ R, next) =
        some (newEntries, next') ∧
      next ≤ next' ∧ ValidEntries next' n newEntries ∧
      entriesBelow newEntries = slotsBelow S ++ entriesBelow R := by
  induction h generalizing R next with
  | @settled U hU =>
    refine ⟨_, next, rfl, le_rfl, validEntries_append.mpr ⟨hS.entries, hR⟩, ?_⟩
    rw [slotsBelow_settled hU, entriesBelow, List.flatMap_append]
  | @run T sep P U groups _ hsep hlen hnil hP hU ih =>
    obtain ⟨hT, hrest⟩ := slots_append.mp hS
    rw [← List.append_assoc] at hrest
    obtain ⟨hmid, hUs⟩ := slots_append.mp hrest
    have hafter : ValidEntries next n (U.map (·.entry) ++ R) := validEntries_append.mpr ⟨hUs.entries, hR⟩
    obtain ⟨new, next₁, hgroup, hle₁, hv₁, hbelow₁⟩ := rebalanceGroup_spec (T := T) hmid hafter hsep hlen hnil hP tree
    obtain ⟨newEntries, next', hfold, hle, hv, hbelow⟩ := ih (hT.mono hle₁) hv₁
    refine ⟨newEntries, next', ?_, hle₁.trans hle, hv, ?_⟩
    · have hlist : (T ++ (sep ++ (P ++ U))).map (·.entry) ++ R =
          T.map (·.entry) ++ ((sep ++ P).map (·.entry) ++ (U.map (·.entry) ++ R)) := by
        simp only [List.map_append, List.append_assoc]
      rw [List.reverse_append, List.reverse_singleton, List.singleton_append, List.foldlM_cons, hlist, hgroup]
      exact hfold
    · have hU' := slotsBelow_settled hU
      rw [hbelow, hbelow₁]
      simp only [slotsBelow, entriesBelow, List.flatMap_append, List.append_assoc] at hU' ⊢
      rw [hU']

/-- **`rebalance`** gives the nodes that wait their place. -/
theorem rebalance_spec (hS : Slots next n slots) (tree : BTreeSizes V) : ∃ newEntries next',
    rebalance tree (n + 1) (pendings 0 slots) (slots.map (·.entry)) next = some (newEntries, next') ∧ next ≤ next' ∧
      ValidEntries next' n newEntries ∧ entriesBelow newEntries = slotsBelow slots := by
  obtain ⟨newEntries, next', hfold, hle, hv, hbelow⟩ := (runs_of_pendings slots).rebalanced hS validEntries_nil tree
  rw [List.append_nil] at hfold
  exact ⟨newEntries, next', hfold, hle, hv, by rw [hbelow, entriesBelow, List.flatMap_nil, List.append_nil]⟩

/-! ## `putMany` -/

/-- **`putMany`** puts each entry in its place. -/
theorem putMany_spec (h : Valid next n node) (hs : Sorted byKey node.entriesIter) (tree : BTreeSizes V) (hne : es ≠ [])
    (he : Sorted byKey es) (hpos : ∀ e ∈ es, 0 < e.sizeOfEntry) : ∃ r, node.putMany tree es next = some r ∧
      Made next n (insertKeys byKey es node.entriesIter) r := by
  have hlen : es.length ≠ 0 := by rwa [ne_eq, List.length_eq_zero_iff]
  induction n generalizing node next es with
  | zero =>
    cases h with
    | @data hash modified entries hhash hsize =>
      rw [entriesIter_data] at hs ⊢
      rw [putMany, if_neg hlen, mergeEntries_eq hs he]
      exact ⟨_, rfl, made_data fun e he => (mem_of_mem_insertKeys he).elim (hpos e) (hsize e)⟩
  | succ n ih =>
    cases h with
    | @internal hash modified _ cs hhash hcs hsize hchild hkey =>
      have hv : ValidEntries next n cs := ⟨hsize, hchild, hkey⟩
      rw [entriesIter_internal] at hs ⊢
      obtain ⟨hspread, hflat⟩ := childGroups_spec hv hcs hs he
      have hputs : ∀ c ∈ cs, Puts tree n c.value := fun c _ next es hc hs hne he hpos =>
        ih hc hs hne he hpos (by rwa [ne_eq, List.length_eq_zero_iff])
      rw [putMany, if_neg hlen]
      obtain ⟨s, slots, hloop, hover⟩ := putChildren_spec (A := []) (D := []) hspread
        (fun s group => if h : group.1 < cs.length then
          (cs[group.1].value.putMany tree group.2 s.next).bind fun r => s.add tree group.1 r.1 r.2
        else none) (fun s group c hc => by
          obtain ⟨hin, rfl⟩ := List.getElem?_eq_some_iff.mp hc
          exact dif_pos hin) rfl rfl
        { newEntries := cs, childrenToRebalance := [], next } rfl rfl hv hs hputs (by rwa [hflat]) (by rwa [hflat])
      rw [hflat] at hover
      obtain ⟨newEntries, next', hreb, hle, hvn, hbelow⟩ := rebalance_spec hover.valid tree
      have hnil : newEntries ≠ [] := by
        rintro rfl
        exact insertKeys_ne_nil hne _ (hover.below.symm.trans hbelow.symm)
      have hmade := hvn.made hnil (hover.mono.trans hle)
      rw [← entriesBelow, hbelow, hover.below] at hmade
      have hwaits : s.childrenToRebalance = pendings 0 slots := hover.waits
      have hentries : s.newEntries = slots.map (·.entry) := hover.entries
      refine ⟨_, ?_, hmade⟩
      simp only [Option.bind_eq_bind]
      rw [hloop, Option.bind_some, hwaits, hentries, hreb]
      rfl

end NodeImpl

end ZeroSync
