/-
Sequences of view changes that tell of a multiset of rows, applied one by one
with `applyChange` to a plural relationship that starts empty.

As long as no edit merges the entries show the multiset
(`viewReached_shows`). An edit that merges leaves two entries that compare
equal (`Counted.editInView_merges`): the row after the last reference to the
old row is not looked at before that entry is edited in place.
-/
import ZeroSync.ViewRefs

namespace ZeroSync

open BinarySearch Fallible SortedList

/-- What a view change says of a multiset of rows. An edit moves one reference. -/
inductive ViewStep : List Row → ViewChange → List Row → Prop
  | add {rows : List Row} (node : Node) : ViewStep rows (.add node) (node.row :: rows)
  | remove {rows rows' : List Row} (node : Node) (h : rows.Perm (node.row :: rows')) :
      ViewStep rows (.remove node) rows'
  | edit {rows rows' : List Row} (row oldRow : Row) (h : rows.Perm (oldRow :: rows')) :
      ViewStep rows (.edit row oldRow) (row :: rows')

/-- The change is not an edit that merges. -/
def ViewChange.Separate (compareRows : Comparator) (rows : List Row) : ViewChange → Prop
  | .edit row oldRow => ¬EditMerges compareRows rows row oldRow
  | _ => True

/-- The entries of a relationship are the rows of a multiset, strictly sorted,
each with its multiplicity. -/
def ShowsMultiset (compareRows : Comparator) (relationship : String) (rows : List Row) (root : Entry) : Prop :=
  ∃ view, OrderedMap.lookup relationship root.relations = some (.plural view) ∧
    (view.Pairwise fun a b => compareRows a.row b.row = .lt) ∧
    (∀ e ∈ view, 0 < e.refCount ∧ e.refCount = multiplicity compareRows e.row rows) ∧
    ∀ r ∈ rows, ∃ e ∈ view, compareRows e.row r = .eq

/-- A view that changes have been applied to, each allowed where it came, and
the multiset they tell of. -/
inductive ViewReached (schema : ViewSchema) (relationship : String) (format : Format)
    (Allowed : List Row → ViewChange → Prop) : Entry → List Row → Prop
  | start {root : Entry} (h : OrderedMap.lookup relationship root.relations = some (.plural [])) :
      ViewReached schema relationship format Allowed root []
  | step {root root' : Entry} {rows rows' : List Row} {change : ViewChange}
      (h : ViewReached schema relationship format Allowed root rows) (hstep : ViewStep rows change rows')
      (hallowed : Allowed rows change) (happly : applyChange root schema relationship format change = .ok root') :
      ViewReached schema relationship format Allowed root' rows'

section
variable {schema : ViewSchema} {relationship : String} {format : Format} {rows rows' : List Row} {row oldRow : Row}
  {root root' : Entry} {view view' : List Entry}

theorem lookup_setRelation (value : Relation) :
    OrderedMap.lookup relationship (root.setRelation relationship value).relations = some value := by
  show OrderedMap.lookup relationship (OrderedMap.setEntries relationship value root.relations) = some value
  simp [OrderedMap.lookup_setEntries]

theorem getChildEntryList_ok (h : OrderedMap.lookup relationship root.relations = some (.plural view)) :
    root.getChildEntryList relationship = .ok view := by
  rw [Entry.getChildEntryList, h]

/-- The relationship is a list that counts the rows. -/
def CountsAt (schema : ViewSchema) (relationship : String) (rows : List Row) (root : Entry) : Prop :=
  ∃ view, OrderedMap.lookup relationship root.relations = some (.plural view) ∧
    Counted schema.compareRows rows view

variable [Std.TransCmp schema.compareRows]

theorem Counted.moveRef {compareRows : Comparator} [Std.TransCmp compareRows] (h : Counted compareRows rows view)
    (hperm : rows.Perm (oldRow :: rows')) (hmove : MoveRef compareRows row oldRow view view') :
    Counted compareRows (row :: rows') view' := by
  obtain ⟨mid, hdrop, hadd⟩ := hmove
  exact (h.dropRef hperm hdrop).addRef hadd

/-- An `add` that succeeds adds a reference. -/
theorem CountsAt.add {node : Node} (hhidden : schema.isHidden = false) (hformat : format.singular = false)
    (h : CountsAt schema relationship rows root) (happly : applyAdd root schema relationship format node = .ok root') :
    CountsAt schema relationship (node.row :: rows) root' := by
  obtain ⟨view, hview, hcounted⟩ := h
  obtain ⟨row, relationships⟩ := node
  have hloc := binarySearch_located hcounted.sorted row
  rw [applyAdd, if_neg (by simp [hhidden]), if_neg (by simp [hformat])] at happly
  obtain ⟨view₀, hview₀, happly⟩ := bind_ok happly
  obtain rfl := Except.ok.inj ((getChildEntryList_ok hview).symm.trans hview₀)
  split at happly
  · next pos hpos =>
    cases happly
    rw [hpos] at hloc
    exact ⟨_, lookup_setRelation _, hcounted.addRef (addRef_modify hloc fun e he => ⟨he, rfl⟩)⟩
  · next pos hpos =>
    obtain ⟨newEntry, hnew, happly⟩ := bind_ok happly
    cases happly
    rw [hpos] at hloc
    obtain ⟨hrow, hcount⟩ := initializeRelationships_sameRow hnew
    exact ⟨_, lookup_setRelation _, hcounted.addRef (addRef_insertIdx hloc hrow hcount)⟩

/-- A `remove` of a row that is there succeeds and drops a reference. -/
theorem CountsAt.remove {node : Node} (hhidden : schema.isHidden = false) (hformat : format.singular = false)
    (h : CountsAt schema relationship rows root) (hperm : rows.Perm (node.row :: rows')) :
    ∃ root', applyRemove root schema relationship format node = .ok root' ∧
      CountsAt schema relationship rows' root' := by
  obtain ⟨view, hview, hcounted⟩ := h
  obtain ⟨row, relationships⟩ := node
  have hmem : row ∈ rows := hperm.mem_iff.mpr (List.mem_cons_self ..)
  obtain ⟨view', hremove, hdrop⟩ := hcounted.removeAndUpdateRefCount hmem
  refine ⟨root.setRelation relationship (.plural view'), ?_, view', lookup_setRelation _, hcounted.dropRef hperm hdrop⟩
  rw [applyRemove, if_neg (by simp [hhidden]), if_neg (by simp [hformat]), getChildEntryList_ok hview]
  show removeAndUpdateRefCount view row schema.compareRows >>= _ = _
  rw [hremove]
  rfl

theorem CountsAt.edit (hhidden : schema.isHidden = false) (hformat : format.singular = false)
    (h : CountsAt schema relationship rows root) (hperm : rows.Perm (oldRow :: rows'))
    (hsafe : ¬EditMerges schema.compareRows rows row oldRow) :
    ∃ root', applyChange root schema relationship format (.edit row oldRow) = .ok root' ∧
      CountsAt schema relationship (row :: rows') root' := by
  obtain ⟨view, hview, hcounted⟩ := h
  have hmem : oldRow ∈ rows := hperm.mem_iff.mpr (List.mem_cons_self ..)
  obtain ⟨view', hedit, hmove⟩ := hcounted.editInView hmem hsafe
  refine ⟨root.setRelation relationship (.plural view'), ?_, view', lookup_setRelation _, hcounted.moveRef hperm hmove⟩
  rw [applyChange, if_neg (by simp [hhidden]), if_neg (by simp [hformat]), getChildEntryList_ok hview]
  show editInView view row oldRow schema.compareRows >>= _ = _
  rw [hedit]
  rfl

/-- **One change**, unless it merges, keeps the count. -/
theorem CountsAt.step {change : ViewChange} (hhidden : schema.isHidden = false) (hformat : format.singular = false)
    (h : CountsAt schema relationship rows root) (hstep : ViewStep rows change rows')
    (hsafe : change.Separate schema.compareRows rows)
    (happly : applyChange root schema relationship format change = .ok root') :
    CountsAt schema relationship rows' root' := by
  cases hstep with
  | add node => exact h.add hhidden hformat happly
  | remove node hperm =>
    obtain ⟨root₁, hok, hcounts⟩ := h.remove hhidden hformat hperm
    obtain rfl := Except.ok.inj (hok.symm.trans happly)
    exact hcounts
  | edit row oldRow hperm =>
    obtain ⟨root₁, hok, hcounts⟩ := h.edit hhidden hformat hperm hsafe
    obtain rfl := Except.ok.inj (hok.symm.trans happly)
    exact hcounts

theorem counted_nil {compareRows : Comparator} : Counted compareRows [] [] :=
  ⟨List.Pairwise.nil, by simp, fun _ => rfl⟩

theorem ViewReached.countsAt (hhidden : schema.isHidden = false) (hformat : format.singular = false)
    (h : ViewReached schema relationship format (fun rows change => change.Separate schema.compareRows rows) root rows) :
    CountsAt schema relationship rows root := by
  induction h with
  | start hstart => exact ⟨[], hstart, counted_nil⟩
  | step _ hstep hsafe happly ih => exact ih.step hhidden hformat hstep hsafe happly

/-- **The view shows the multiset** in every state that changes reach of which none merges. -/
theorem viewReached_shows (hhidden : schema.isHidden = false) (hformat : format.singular = false)
    (h : ViewReached schema relationship format (fun rows change => change.Separate schema.compareRows rows) root rows) :
    ShowsMultiset schema.compareRows relationship rows root := by
  obtain ⟨view, hview, hcounted⟩ := h.countsAt hhidden hformat
  refine ⟨view, hview, hcounted.sorted, fun e he => ⟨hcounted.refCount_pos e he, ?_⟩, fun r hr => hcounted.entry hr⟩
  exact (hcounted.multiplicity_eq he Std.ReflCmp.compare_self).symm

end

/-! ## An edit that merges -/

section
variable {schema : ViewSchema} {relationship : String} {format : Format} {rows rows' : List Row} {row oldRow : Row}
  {root : Entry} [Std.TransCmp schema.compareRows]

/-- The last reference to a row moved to the row directly after it: the list
is no longer strictly sorted. -/
theorem CountsAt.not_shows (hhidden : schema.isHidden = false) (hformat : format.singular = false)
    (h : CountsAt schema relationship rows root) (hold : oldRow ∈ rows)
    (hmerge : EditMerges schema.compareRows rows row oldRow) :
    ∃ root', applyChange root schema relationship format (.edit row oldRow) = .ok root' ∧
      ∀ rows', ¬ShowsMultiset schema.compareRows relationship rows' root' := by
  obtain ⟨view, hview, hcounted⟩ := h
  obtain ⟨view', hedit, hunsorted⟩ := hcounted.editInView_merges hold hmerge
  refine ⟨root.setRelation relationship (.plural view'), ?_, fun rows' ⟨view₁, hview₁, hsorted, _⟩ => ?_⟩
  · rw [applyChange, if_neg (by simp [hhidden]), if_neg (by simp [hformat]), getChildEntryList_ok hview]
    show editInView view row oldRow schema.compareRows >>= _ = _
    rw [hedit]
    rfl
  · obtain rfl : view' = view₁ := by simpa using (lookup_setRelation _).symm.trans hview₁
    exact hunsorted hsorted

/-- **The first edit that merges** breaks the view, which shows the multiset until then;
a change of rows that are there does not throw. -/
theorem viewReached_shows_iff {change : ViewChange} (hhidden : schema.isHidden = false) (hformat : format.singular = false)
    (h : ViewReached schema relationship format (fun rows change => change.Separate schema.compareRows rows) root rows)
    (hstep : ViewStep rows change rows') :
    (∀ root', applyChange root schema relationship format change = .ok root' →
      (ShowsMultiset schema.compareRows relationship rows' root' ↔ change.Separate schema.compareRows rows)) ∧
      ((∀ node, change ≠ .add node) → ∃ root', applyChange root schema relationship format change = .ok root') := by
  have hcounts := h.countsAt hhidden hformat
  have hshows (hsafe : change.Separate schema.compareRows rows) (root' : Entry)
      (happly : applyChange root schema relationship format change = .ok root') :
      ShowsMultiset schema.compareRows relationship rows' root' := by
    obtain ⟨view, hview, hcounted⟩ := hcounts.step hhidden hformat hstep hsafe happly
    refine ⟨view, hview, hcounted.sorted, fun e he => ⟨hcounted.refCount_pos e he, ?_⟩, fun r hr => hcounted.entry hr⟩
    exact (hcounted.multiplicity_eq he Std.ReflCmp.compare_self).symm
  cases hstep with
  | add node => exact ⟨fun root' happly => iff_of_true (hshows trivial root' happly) trivial, fun hadd => absurd rfl (hadd node)⟩
  | remove node hperm =>
    obtain ⟨root₁, hok, -⟩ := hcounts.remove hhidden hformat hperm
    exact ⟨fun root' happly => iff_of_true (hshows trivial root' happly) trivial, fun _ => ⟨root₁, hok⟩⟩
  | edit row oldRow hperm =>
    by_cases hmerge : EditMerges schema.compareRows rows row oldRow
    · obtain ⟨root₁, hok, hbreaks⟩ := hcounts.not_shows hhidden hformat (hperm.mem_iff.mpr List.mem_cons_self) hmerge
      refine ⟨fun root' happly => iff_of_false ?_ fun hsafe => hsafe hmerge, fun _ => ⟨root₁, hok⟩⟩
      obtain rfl := Except.ok.inj (hok.symm.trans happly)
      exact hbreaks _
    · obtain ⟨root₁, hok, -⟩ := hcounts.edit hhidden hformat hperm hmerge
      exact ⟨fun root' happly => iff_of_true (hshows hmerge root' happly) hmerge, fun _ => ⟨root₁, hok⟩⟩

end

/-- An issue, sorted by its number. -/
def issueRow (n : ℚ) : Row := fun _ => .num n

def issueSchema : ViewSchema where
  compareRows := makeComparator [("number", .asc)]

def emptyList : Entry := .mk (issueRow 0) 1 [("issues", .plural [])]

instance : Std.TransCmp issueSchema.compareRows :=
  inferInstanceAs (Std.TransCmp (makeComparator [("number", .asc)]))

/-- **Two equal entries.** A row with two references is edited, once for each,
to a row directly after it. The second edit does not find the row the first
one made. -/
theorem viewReached_twice : ∃ root, ViewReached issueSchema "issues" {} (fun _ _ => True) root
    [issueRow 2, issueRow 2] ∧ ¬ShowsMultiset issueSchema.compareRows "issues" [issueRow 2, issueRow 2] root := by
  have hstart : ViewReached issueSchema "issues" {} (fun _ _ => True) emptyList [] := .start rfl
  have hadd := hstart.step (.add (.ofRow (issueRow 1))) trivial rfl
  have hadds := hadd.step (.add (.ofRow (issueRow 1))) trivial rfl
  have hedit := hadds.step (.edit (issueRow 2) (issueRow 1) (List.Perm.refl _)) trivial rfl
  have hedits := hedit.step (.edit (issueRow 2) (issueRow 1) (List.Perm.swap ..)) trivial rfl
  refine ⟨_, hedits, ?_⟩
  rintro ⟨view, hview, hsorted, -⟩
  cases hview
  exact absurd ((List.pairwise_cons.mp hsorted).1 _ (List.mem_cons_self ..)) (by decide)

/-- The first of the two edits: the row's other reference stays behind. -/
theorem viewReached_shows_moved : ∃ root, ViewReached issueSchema "issues" {} (fun rows change =>
    change.Separate issueSchema.compareRows rows) root [issueRow 2, issueRow 1] ∧
    ShowsMultiset issueSchema.compareRows "issues" [issueRow 2, issueRow 1] root := by
  have hstart : ViewReached issueSchema "issues" {} (fun rows change =>
      change.Separate issueSchema.compareRows rows) emptyList [] := .start rfl
  have hadd := hstart.step (.add (.ofRow (issueRow 1))) trivial rfl
  have hadds := hadd.step (.add (.ofRow (issueRow 1))) trivial rfl
  have hedit := hadds.step (.edit (issueRow 2) (issueRow 1) (List.Perm.refl _)) (fun h => absurd h.1 (by decide)) rfl
  exact ⟨_, hedit, viewReached_shows rfl rfl hedit⟩

theorem viewReached_shows_iff_added : ∃ root', applyChange emptyList issueSchema "issues" {} (.add (.ofRow (issueRow 1))) =
    .ok root' ∧ ShowsMultiset issueSchema.compareRows "issues" [issueRow 1] root' := by
  have hiff := viewReached_shows_iff rfl rfl (.start rfl : ViewReached issueSchema "issues" {} (fun rows change =>
    change.Separate issueSchema.compareRows rows) emptyList []) (.add (.ofRow (issueRow 1)))
  exact ⟨_, rfl, (hiff.1 _ rfl).mpr trivial⟩

end ZeroSync
