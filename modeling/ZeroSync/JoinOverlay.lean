/-
What an overlay restores.

A change takes the nodes of an input before it to those after it
(`Change.Applies`). An overlay is its inverse: run over the nodes after, it
yields those before (`generateWithOverlay_restores`), in their order where the
input has one. The node of a nested change gets its relationship restored the
same way.
-/
import ZeroSync.JoinUtils
import ZeroSync.SortedList

namespace ZeroSync

open SortedList

/-- The nodes of an input of a schema: no two compare equal, and they are sorted if the input is. -/
structure Listing (schema : SourceSchema) (nodes : List Node) : Prop where
  total : Std.TransCmp schema.compareRows
  distinct : nodes.Pairwise fun a b => byRow schema.compareRows a b ≠ .eq
  sorted : schema.sort.isSome → Sorted (byRow schema.compareRows) nodes

/-- A change takes the nodes of an input to the nodes after it. -/
def Change.Applies : Change → SourceSchema → List Node → List Node → Prop
  | .add new, _, before, after => after.Perm (new :: before)
  | .remove old, _, before, after => before.Perm (old :: after)
  | .edit new old, _, before, after => ∃ rest, before.Perm (old :: rest) ∧ after.Perm (new :: rest)
  | .child new name change, schema, before, after => ∃ node children children' nested rest,
      node.row = new.row ∧ before.Perm (node :: rest) ∧ after.Perm (node.setRelationship name children' :: rest) ∧
      OrderedMap.lookup name node.relationships = some children ∧
      OrderedMap.lookup name schema.relationships = some nested ∧
      Listing nested children ∧ Listing nested children' ∧ change.Applies nested children children'

/-- The nodes of an input, in its order if it has one. -/
def SameNodes (schema : SourceSchema) (l l' : List Node) : Prop :=
  l'.Perm l ∧ (schema.sort.isSome → l' = l)

/-- `after` is what the change left, `out` what an overlay makes of it: the nodes
before, the relationship of a nested change restored in turn. -/
def Change.Restores : Change → SourceSchema → List Node → List Node → Prop
  | .child _ name change, schema, before, out => ∃ l node r children nested children',
      before = l ++ node :: r ∧ OrderedMap.lookup name node.relationships = some children ∧
      OrderedMap.lookup name schema.relationships = some nested ∧
      SameNodes schema (l ++ node.setRelationship name children' :: r) out ∧
      change.Restores nested children children'
  | _, schema, before, out => SameNodes schema before out

/-- Every input on the way to the change is sorted. -/
def Change.Ordered : Change → SourceSchema → Prop
  | .child _ name change, schema => schema.sort.isSome ∧
      ∀ nested, OrderedMap.lookup name schema.relationships = some nested → change.Ordered nested
  | _, schema => schema.sort.isSome

/-! ## The loop -/

/-- A list with a node left out. -/
def Deletes (node : Node) (l out : List Node) : Prop := ∃ a b, l = a ++ node :: b ∧ out = a ++ b

section
variable (compareRows : Comparator)

/-- A list with a node put in, before nothing it comes after; if `sorted`, after nothing it comes before. -/
def Inserts (node : Node) (sorted : Prop) (l out : List Node) : Prop :=
  ∃ a b, l = a ++ b ∧ out = a ++ node :: b ∧ (∀ x ∈ a, byRow compareRows node x ≠ .lt) ∧
    (sorted → ∀ x ∈ b, byRow compareRows node x = .lt)

variable {compareRows} (overlayChild : Node → Except JoinError Node)

theorem Deletes.cons {node x : Node} {l out : List Node} (h : Deletes node l out) : Deletes node (x :: l) (x :: out) := by
  obtain ⟨a, b, rfl, rfl⟩ := h
  exact ⟨x :: a, b, rfl, rfl⟩

theorem Inserts.cons {node x : Node} {sorted sorted' : Prop} {l out : List Node}
    (h : Inserts compareRows node sorted l out) (hx : byRow compareRows node x ≠ .lt) (hs : sorted' → sorted) :
    Inserts compareRows node sorted' (x :: l) (x :: out) := by
  obtain ⟨a, b, rfl, rfl, ha, hb⟩ := h
  refine ⟨x :: a, b, rfl, rfl, fun y hy => ?_, fun h => hb (hs h)⟩
  rcases List.mem_cons.mp hy with rfl | hy
  · exact hx
  · exact ha y hy

theorem Inserts.here [Std.TransCmp compareRows] {node x : Node} {l : List Node} (hx : byRow compareRows node x = .lt) :
    Inserts compareRows node (Sorted (byRow compareRows) (x :: l)) (x :: l) (node :: x :: l) := by
  refine ⟨[], x :: l, rfl, rfl, by simp, fun hs y hy => ?_⟩
  rcases List.mem_cons.mp hy with rfl | hy
  · exact hx
  · exact Std.TransCmp.lt_trans hx ((sorted_cons.mp hs).1 y hy)

theorem Inserts.last {node : Node} {sorted : Prop} : Inserts compareRows node sorted [] [node] :=
  ⟨[], [], rfl, rfl, by simp, by simp⟩

theorem overlayLoop_applied {overlay : Change} {s : OverlayState} (hs : s.applied = true) (l : List Node) :
    overlayLoop overlay overlayChild compareRows s l = .ok l := by
  induction l with
  | nil => simp [overlayLoop, hs]
  | cons x l ih => simp [overlayLoop, overlayNode, hs, ih, bind, Except.bind, pure, Except.pure]

theorem eq_of_distinct [Std.TransCmp compareRows] {node x : Node} {l : List Node} (hnode : node ∈ x :: l)
    (hx : ∀ y ∈ l, byRow compareRows x y ≠ .eq) (heq : byRow compareRows node x = .eq) : node = x := by
  rcases List.mem_cons.mp hnode with hnode | hnode
  · exact hnode
  · exact absurd (Std.OrientedCmp.eq_symm heq) (hx node hnode)

theorem overlayLoop_add [Std.TransCmp compareRows] {new : Node} {l : List Node} (hnew : new ∈ l)
    (hd : l.Pairwise fun a b => byRow compareRows a b ≠ .eq) :
    ∃ out, overlayLoop (.add new) overlayChild compareRows {} l = .ok out ∧ Deletes new l out := by
  induction l with
  | nil => cases hnew
  | cons x l ih =>
    obtain ⟨hx, hd⟩ := List.pairwise_cons.mp hd
    by_cases heq : compareRows new.row x.row = .eq
    · obtain rfl := eq_of_distinct hnew hx heq
      refine ⟨l, ?_, [], l, rfl, rfl⟩
      simp [overlayLoop, overlayNode, heq, overlayLoop_applied, bind, Except.bind, pure, Except.pure]
    · have hne : new ≠ x := fun h => heq (h ▸ Std.ReflCmp.compare_self)
      obtain ⟨out, hout, hdel⟩ := ih ((List.mem_cons.mp hnew).resolve_left hne) hd
      refine ⟨x :: out, ?_, hdel.cons⟩
      simp [overlayLoop, overlayNode, heq, hout, bind, Except.bind, pure, Except.pure]

variable (compareRows) in
theorem overlayLoop_remove [Std.TransCmp compareRows] (old : Node) (l : List Node) :
    ∃ out, overlayLoop (.remove old) overlayChild compareRows {} l = .ok out ∧
      Inserts compareRows old (Sorted (byRow compareRows) l) l out := by
  induction l with
  | nil => exact ⟨[old], rfl, .last⟩
  | cons x l ih =>
    by_cases hlt : compareRows old.row x.row = .lt
    · refine ⟨old :: x :: l, ?_, .here hlt⟩
      simp [overlayLoop, overlayNode, hlt, overlayLoop_applied, bind, Except.bind, pure, Except.pure]
    · obtain ⟨out, hout, hins⟩ := ih
      refine ⟨x :: out, ?_, hins.cons hlt fun hs => (sorted_cons.mp hs).2⟩
      simp [overlayLoop, overlayNode, hlt, hout, bind, Except.bind, pure, Except.pure]

variable (compareRows) in
theorem overlayLoop_edit_new [Std.TransCmp compareRows] {new : Node} (old : Node) {l : List Node} (hnew : new ∈ l)
    (hd : l.Pairwise fun a b => byRow compareRows a b ≠ .eq) :
    ∃ out, overlayLoop (.edit new old) overlayChild compareRows { editOldApplied := true } l = .ok out ∧
      Deletes new l out := by
  induction l with
  | nil => cases hnew
  | cons x l ih =>
    obtain ⟨hx, hd⟩ := List.pairwise_cons.mp hd
    by_cases heq : compareRows new.row x.row = .eq
    · obtain rfl := eq_of_distinct hnew hx heq
      refine ⟨l, ?_, [], l, rfl, rfl⟩
      simp [overlayLoop, overlayNode, heq, overlayLoop_applied, bind, Except.bind, pure, Except.pure]
    · have hne : new ≠ x := fun h => heq (h ▸ Std.ReflCmp.compare_self)
      obtain ⟨out, hout, hdel⟩ := ih ((List.mem_cons.mp hnew).resolve_left hne) hd
      refine ⟨x :: out, ?_, hdel.cons⟩
      simp [overlayLoop, overlayNode, heq, hout, bind, Except.bind, pure, Except.pure]

variable (compareRows) in
theorem overlayLoop_edit_old [Std.TransCmp compareRows] (new old : Node) (l : List Node) :
    ∃ out, overlayLoop (.edit new old) overlayChild compareRows { editNewApplied := true } l = .ok out ∧
      Inserts compareRows old (Sorted (byRow compareRows) l) l out := by
  induction l with
  | nil => exact ⟨[old], rfl, .last⟩
  | cons x l ih =>
    by_cases hlt : compareRows old.row x.row = .lt
    · refine ⟨old :: x :: l, ?_, .here hlt⟩
      simp [overlayLoop, overlayNode, hlt, overlayLoop_applied, bind, Except.bind, pure, Except.pure]
    · obtain ⟨out, hout, hins⟩ := ih
      refine ⟨x :: out, ?_, hins.cons hlt fun hs => (sorted_cons.mp hs).2⟩
      simp [overlayLoop, overlayNode, hlt, hout, bind, Except.bind, pure, Except.pure]

theorem overlayLoop_edit [Std.TransCmp compareRows] {new : Node} (old : Node) {l : List Node} (hnew : new ∈ l)
    (hd : l.Pairwise fun a b => byRow compareRows a b ≠ .eq) :
    ∃ rest out, overlayLoop (.edit new old) overlayChild compareRows {} l = .ok out ∧ Deletes new l rest ∧
      Inserts compareRows old (Sorted (byRow compareRows) l) rest out := by
  induction l with
  | nil => cases hnew
  | cons x l ih =>
    obtain ⟨hx, hd'⟩ := List.pairwise_cons.mp hd
    by_cases heq : compareRows new.row x.row = .eq
    · obtain rfl := eq_of_distinct hnew hx heq
      by_cases hlt : compareRows old.row new.row = .lt
      · refine ⟨l, old :: l, ?_, ⟨[], l, rfl, rfl⟩, [], l, rfl, rfl, by simp, fun hs y hy => ?_⟩
        · simp [overlayLoop, overlayNode, heq, hlt, overlayLoop_applied, bind, Except.bind, pure, Except.pure]
        · have hlt : byRow compareRows old new = .lt := hlt
          have hny : byRow compareRows new y = .lt := (sorted_cons.mp hs).1 y hy
          exact Std.TransCmp.lt_trans hlt hny
      · obtain ⟨out, hout, hins⟩ := overlayLoop_edit_old compareRows overlayChild new old l
        refine ⟨l, out, ?_, ⟨[], l, rfl, rfl⟩, ?_⟩
        · simp [overlayLoop, overlayNode, heq, hlt, hout, bind, Except.bind, pure, Except.pure]
        · obtain ⟨a, b, hl, hb, ha, hsorted⟩ := hins
          exact ⟨a, b, hl, hb, ha, fun hs => hsorted (sorted_cons.mp hs).2⟩
    · have hne : new ≠ x := fun h => heq (h ▸ Std.ReflCmp.compare_self)
      have hnew := (List.mem_cons.mp hnew).resolve_left hne
      by_cases hlt : compareRows old.row x.row = .lt
      · obtain ⟨out, hout, hdel⟩ := overlayLoop_edit_new compareRows overlayChild old hnew hd'
        refine ⟨x :: out, old :: x :: out, ?_, hdel.cons, [], x :: out, rfl, rfl, by simp, fun hs y hy => ?_⟩
        · simp [overlayLoop, overlayNode, heq, hlt, hout, bind, Except.bind, pure, Except.pure]
        · obtain ⟨a, b, rfl, rfl⟩ := hdel
          rcases List.mem_cons.mp hy with rfl | hy
          · exact hlt
          · have hlt : byRow compareRows old x = .lt := hlt
            refine Std.TransCmp.lt_trans hlt ((sorted_cons.mp hs).1 y ?_)
            simp only [List.mem_append, List.mem_cons] at hy ⊢
            tauto
      · obtain ⟨rest, out, hout, hdel, hins⟩ := ih hnew hd'
        refine ⟨x :: rest, x :: out, ?_, hdel.cons, hins.cons hlt fun hs => (sorted_cons.mp hs).2⟩
        simp [overlayLoop, overlayNode, heq, hlt, hout, bind, Except.bind, pure, Except.pure]

theorem overlayLoop_child [Std.TransCmp compareRows] {new node restored : Node} (name : String) (change : Change)
    (hrow : node.row = new.row) {overlayChild : Node → Except JoinError Node}
    (hchild : overlayChild node = .ok restored) {l : List Node} (hnode : node ∈ l)
    (hd : l.Pairwise fun a b => byRow compareRows a b ≠ .eq) :
    ∃ a b, l = a ++ node :: b ∧
      overlayLoop (.child new name change) overlayChild compareRows {} l = .ok (a ++ restored :: b) := by
  induction l with
  | nil => cases hnode
  | cons x l ih =>
    obtain ⟨hx, hd⟩ := List.pairwise_cons.mp hd
    by_cases heq : compareRows new.row x.row = .eq
    · obtain rfl := eq_of_distinct hnode hx (by rw [byRow, hrow]; exact heq)
      refine ⟨[], l, rfl, ?_⟩
      simp [overlayLoop, overlayNode, heq, hchild, overlayLoop_applied, bind, Except.bind, pure, Except.pure]
    · have hne : node ≠ x := by
        rintro rfl
        rw [hrow] at heq
        exact heq Std.ReflCmp.compare_self
      obtain ⟨a, b, rfl, hout⟩ := ih ((List.mem_cons.mp hnode).resolve_left hne) hd
      refine ⟨x :: a, b, rfl, ?_⟩
      simp [overlayLoop, overlayNode, heq, hout, bind, Except.bind, pure, Except.pure]

end

/-! ## Restoring -/

section
variable {schema : SourceSchema}

theorem distinct_perm {l l' : List Node} {compareRows : Comparator} [Std.TransCmp compareRows] (hp : l.Perm l')
    (h : l.Pairwise fun a b => byRow compareRows a b ≠ .eq) : l'.Pairwise fun a b => byRow compareRows a b ≠ .eq :=
  hp.pairwise h fun hab hba => hab (Std.OrientedCmp.eq_symm hba)

theorem sorted_replace {l r : List Node} {node node' : Node} {compareRows : Comparator} (hrow : node'.row = node.row)
    (h : Sorted (byRow compareRows) (l ++ node :: r)) : Sorted (byRow compareRows) (l ++ node' :: r) := by
  simpa [List.pairwise_append, byRow, hrow] using h

theorem Deletes.sublist {node : Node} {l out : List Node} (h : Deletes node l out) : out.Sublist l := by
  obtain ⟨a, b, rfl, rfl⟩ := h
  exact (List.Sublist.refl a).append (List.sublist_cons_self node b)

theorem Deletes.perm {node : Node} {l out : List Node} (h : Deletes node l out) : l.Perm (node :: out) := by
  obtain ⟨a, b, rfl, rfl⟩ := h
  exact List.perm_middle

theorem Inserts.perm {node : Node} {l out : List Node} {compareRows : Comparator} {sorted : Prop}
    (h : Inserts compareRows node sorted l out) : out.Perm (node :: l) := by
  obtain ⟨a, b, rfl, rfl, -⟩ := h
  exact List.perm_middle

theorem Inserts.sorted {node : Node} {l out : List Node} {compareRows : Comparator} [Std.TransCmp compareRows]
    {sorted : Prop} (h : Inserts compareRows node sorted l out) (hs : sorted) (hl : Sorted (byRow compareRows) l)
    (hd : out.Pairwise fun a b => byRow compareRows a b ≠ .eq) : Sorted (byRow compareRows) out := by
  obtain ⟨a, b, rfl, rfl, ha, hb⟩ := h
  obtain ⟨hla, hlb, hab⟩ := sorted_append.mp hl
  obtain ⟨-, -, hne⟩ := List.pairwise_append.mp hd
  refine sorted_append.mpr ⟨hla, sorted_cons.mpr ⟨hb hs, hlb⟩, fun x hx y hy => ?_⟩
  rcases List.mem_cons.mp hy with rfl | hy
  · have hne := hne x hx y (by simp)
    have hnot := ha x hx
    have hswap : byRow compareRows y x = (byRow compareRows x y).swap := Std.OrientedCmp.eq_swap
    rw [hswap] at hnot
    cases hxy : byRow compareRows x y with
    | lt => rfl
    | eq => exact absurd hxy hne
    | gt => simp [hxy] at hnot
  · exact hab x hx y hy

theorem sameNodes_of_perm (htotal : Std.TransCmp schema.compareRows) {l l' : List Node} (hp : l'.Perm l)
    (hs : schema.sort.isSome → Sorted (byRow schema.compareRows) l ∧ Sorted (byRow schema.compareRows) l') :
    SameNodes schema l l' :=
  ⟨hp, fun h => (hs h).2.eq_of_perm (hs h).1 hp⟩

/-- **An overlay restores** the nodes before a change from those after it. -/
theorem generateWithOverlay_restores (change : Change) {schema : SourceSchema} {before after : List Node}
    (hb : Listing schema before) (ha : Listing schema after) (h : change.Applies schema before after) :
    ∃ out, generateWithOverlay after change schema = .ok out ∧ change.Restores schema before out := by
  induction change generalizing schema before after with
  | add new =>
    obtain ⟨htotal, hd, hs⟩ := ha
    obtain ⟨out, hout, hdel⟩ := overlayLoop_add pure (h.symm.subset List.mem_cons_self) hd
    refine ⟨out, by rw [generateWithOverlay]; exact hout; simp, ?_⟩
    refine sameNodes_of_perm htotal ?_ fun hsort => ⟨hb.sorted hsort, (hs hsort).sublist hdel.sublist⟩
    exact (List.perm_cons new).mp (hdel.perm.symm.trans h)
  | remove old =>
    obtain ⟨htotal, hd, hs⟩ := ha
    obtain ⟨out, hout, hins⟩ := overlayLoop_remove schema.compareRows pure old after
    have hp := hins.perm.trans h.symm
    refine ⟨out, by rw [generateWithOverlay]; exact hout; simp, sameNodes_of_perm htotal hp fun hsort => ?_⟩
    exact ⟨hb.sorted hsort, hins.sorted (hs hsort) (hs hsort) (distinct_perm hp.symm hb.distinct)⟩
  | edit new old =>
    obtain ⟨htotal, hd, hs⟩ := ha
    obtain ⟨rest, hbefore, hafter⟩ := h
    obtain ⟨rest', out, hout, hdel, hins⟩ := overlayLoop_edit pure old (hafter.symm.subset List.mem_cons_self) hd
    have hrest : rest'.Perm rest := (List.perm_cons new).mp (hdel.perm.symm.trans hafter)
    have hp := hins.perm.trans ((hrest.cons old).trans hbefore.symm)
    refine ⟨out, by rw [generateWithOverlay]; exact hout; simp, sameNodes_of_perm htotal hp fun hsort => ?_⟩
    have hsorted := hs hsort
    exact ⟨hb.sorted hsort,
      hins.sorted hsorted (hsorted.sublist hdel.sublist) (distinct_perm hp.symm hb.distinct)⟩
  | child new name change ih =>
    obtain ⟨htotal, hd, hs⟩ := ha
    obtain ⟨node, children, children', nested, rest, hrow, hbefore, hafter, hlookup, hnested, hlb, hla, happ⟩ := h
    obtain ⟨restored, hout, hrestores⟩ := ih hlb hla happ
    have hchild : overlayRelationship (fun nodes nested => generateWithOverlay nodes change nested) name schema
        (node.setRelationship name children') = .ok (node.setRelationship name restored) := by
      simp [overlayRelationship, hnested, hout, bind, Except.bind, pure, Except.pure]
    have hrow : (node.setRelationship name children').row = new.row := hrow
    obtain ⟨a, b, rfl, hloop⟩ := overlayLoop_child name change hrow hchild
      (hafter.symm.subset List.mem_cons_self) hd
    obtain ⟨l, r, rfl⟩ := List.append_of_mem (hbefore.symm.subset List.mem_cons_self)
    have hab : (a ++ b).Perm (l ++ r) :=
      ((List.perm_cons _).mp (List.perm_middle.symm.trans hafter)).trans
        ((List.perm_cons _).mp (List.perm_middle.symm.trans hbefore)).symm
    refine ⟨a ++ node.setRelationship name restored :: b, by rw [generateWithOverlay]; exact hloop, l, node, r, children,
      nested, restored, rfl, hlookup, hnested, sameNodes_of_perm htotal ?_ fun hsort => ⟨?_, ?_⟩, hrestores⟩
    · exact List.perm_middle.trans ((hab.cons _).trans List.perm_middle.symm)
    · exact sorted_replace (Node.row_setRelationship ..) (hb.sorted hsort)
    · have hrows : (node.setRelationship name restored).row = (node.setRelationship name children').row := rfl
      exact sorted_replace hrows (hs hsort)

theorem Change.Restores.eq {change : Change} {schema : SourceSchema} {before out : List Node}
    (h : change.Restores schema before out) (ho : change.Ordered schema) : out = before := by
  induction change generalizing schema before out with
  | add _ | remove _ | edit _ _ => exact h.2 ho
  | child new name change ih =>
    obtain ⟨l, node, r, children, nested, children', rfl, hlookup, hnested, hsame, hrestores⟩ := h
    rw [hsame.2 ho.1, ih hrestores (ho.2 nested hnested), Node.setRelationship_self hlookup]

/-! ## Inputs without an order -/

/-- The comparator of an input without an order tells rows apart by the primary key. -/
def ComparesKeys (schema : SourceSchema) : Prop :=
  ∀ a b, rowEqualsForCompoundKey a b schema.primaryKey = true ↔ schema.compareRows a b = .eq

theorem comparesKeys_of_primaryKey {schema : SourceSchema} (direction : Direction)
    (h : schema.compareRows = makeComparator (schema.primaryKey.map fun k => (k, direction))) : ComparesKeys schema := by
  intro a b
  rw [h, makeComparator_eq_iff]
  simp [rowEqualsForCompoundKey]

/-- No two nodes have the same primary key. -/
def KeyDistinct (schema : SourceSchema) (nodes : List Node) : Prop :=
  nodes.Pairwise fun a b => rowEqualsForCompoundKey a.row b.row schema.primaryKey = false

theorem rowEqualsForCompoundKey_comm (a b : Row) (key : List String) :
    rowEqualsForCompoundKey a b key = rowEqualsForCompoundKey b a key := by
  rw [Bool.eq_iff_iff, rowEqualsForCompoundKey, rowEqualsForCompoundKey, List.all_eq_true, List.all_eq_true]
  refine forall₂_congr fun k _ => ?_
  rw [decide_eq_true_iff, decide_eq_true_iff]
  exact ⟨Std.OrientedCmp.eq_symm, Std.OrientedCmp.eq_symm⟩

theorem rowEqualsForCompoundKey_self (a : Row) (key : List String) : rowEqualsForCompoundKey a a key = true := by
  rw [rowEqualsForCompoundKey, List.all_eq_true]
  exact fun k _ => decide_eq_true Std.ReflCmp.compare_self

theorem ComparesKeys.distinct (hkeys : ComparesKeys schema) {nodes : List Node} (h : Listing schema nodes) :
    KeyDistinct schema nodes := by
  refine h.distinct.imp fun {a b} hab => Bool.eq_false_iff.2 fun heq => hab ?_
  rwa [byRow, ← hkeys]

theorem unorderedLoop_found (overlay : Change) (overlayChild : Node → Except JoinError Node) {node : Node} {l : List Node}
    (hnode : node ∈ l) (hrow : node.row = overlay.node.row) (hd : KeyDistinct schema l) :
    (overlay.type = .add ∨ overlay.type = .edit →
      ∃ out, unorderedLoop overlay overlayChild schema.primaryKey l = .ok out ∧ Deletes node l out) ∧
    ∀ restored, overlay.type = .child → overlayChild node = .ok restored →
      ∃ a b, l = a ++ node :: b ∧ unorderedLoop overlay overlayChild schema.primaryKey l = .ok (a ++ restored :: b) := by
  induction l with
  | nil => cases hnode
  | cons x l ih =>
    obtain ⟨hx, hd⟩ := List.pairwise_cons.mp hd
    by_cases heq : rowEqualsForCompoundKey overlay.node.row x.row schema.primaryKey = true
    · have hnx : node = x := by
        obtain hnx | hmem := List.mem_cons.mp hnode
        · exact hnx
        · rw [← hrow, rowEqualsForCompoundKey_comm, hx node hmem] at heq
          cases heq
      subst hnx
      refine ⟨fun htype => ⟨l, ?_, [], l, rfl, rfl⟩, fun restored htype hchild => ⟨[], l, rfl, ?_⟩⟩
      · cases overlay <;> simp_all [unorderedLoop, Change.node, Change.type]
      · cases overlay <;> simp_all [unorderedLoop, Change.node, Change.type, bind, Except.bind, pure, Except.pure]
    · have hne : node ≠ x := by
        rintro rfl
        rw [hrow] at heq
        exact heq (rowEqualsForCompoundKey_self _ _)
      obtain ⟨hdel, hrestore⟩ := ih ((List.mem_cons.mp hnode).resolve_left hne) hd
      refine ⟨fun htype => ?_, fun restored htype hchild => ?_⟩
      · obtain ⟨out, hout, hdel⟩ := hdel htype
        refine ⟨x :: out, ?_, hdel.cons⟩
        cases overlay <;> simp_all [unorderedLoop, Change.node, Change.type, bind, Except.bind, pure, Except.pure]
      · obtain ⟨a, b, rfl, hout⟩ := hrestore restored htype hchild
        refine ⟨x :: a, b, rfl, ?_⟩
        cases overlay <;> simp_all [unorderedLoop, Change.node, Change.type, bind, Except.bind, pure, Except.pure]

theorem unorderedLoop_remove (overlayChild : Node → Except JoinError Node) (primaryKey : List String) (old : Node)
    (l : List Node) : unorderedLoop (.remove old) overlayChild primaryKey l = .ok l := by
  induction l with
  | nil => rfl
  | cons x l ih => simp [unorderedLoop, ih, bind, Except.bind, pure, Except.pure]

/-- **Without an order, an overlay restores** the nodes before a change, a node put back coming first. -/
theorem generateWithOverlayUnordered_restores (change : Change) {before after : List Node}
    (hsort : schema.sort = none) (hd : KeyDistinct schema after) (h : change.Applies schema before after) :
    ∃ out, generateWithOverlayUnordered after change schema = .ok out ∧ change.Restores schema before out := by
  have hsame : ∀ {l l' : List Node}, l'.Perm l → SameNodes schema l l' := fun hp => ⟨hp, by simp [hsort]⟩
  cases change with
  | add new =>
    obtain ⟨out, hout, hdel⟩ := (unorderedLoop_found (.add new) pure
      (h.symm.subset List.mem_cons_self) rfl hd).1 (.inl rfl)
    exact ⟨out, hout, hsame ((List.perm_cons new).mp (hdel.perm.symm.trans h))⟩
  | remove old =>
    refine ⟨old :: after, ?_, hsame h.symm⟩
    simp [generateWithOverlayUnordered, unorderedLoop_remove, bind, Except.bind, pure, Except.pure]
  | edit new old =>
    obtain ⟨rest, hbefore, hafter⟩ := h
    obtain ⟨out, hout, hdel⟩ := (unorderedLoop_found (.edit new old) pure
      (hafter.symm.subset List.mem_cons_self) rfl hd).1 (.inr rfl)
    have hrest : out.Perm rest := (List.perm_cons new).mp (hdel.perm.symm.trans hafter)
    refine ⟨old :: out, ?_, hsame ((hrest.cons old).trans hbefore.symm)⟩
    rw [generateWithOverlayUnordered, hout]
    rfl
  | child new name change =>
    obtain ⟨node, children, children', nested, rest, hrow, hbefore, hafter, hlookup, hnested, hlb, hla, happ⟩ := h
    obtain ⟨restored, hout, hrestores⟩ := generateWithOverlay_restores change hlb hla happ
    have hchild : overlayRelationship (fun nodes nested => generateWithOverlay nodes change nested) name schema
        (node.setRelationship name children') = .ok (node.setRelationship name restored) := by
      simp [overlayRelationship, hnested, hout, bind, Except.bind, pure, Except.pure]
    have hrow : (node.setRelationship name children').row = (Change.child new name change).node.row := hrow
    obtain ⟨a, b, rfl, hloop⟩ := (unorderedLoop_found (.child new name change) _
      (hafter.symm.subset List.mem_cons_self) hrow hd).2 (node.setRelationship name restored) rfl hchild
    obtain ⟨l, r, rfl⟩ := List.append_of_mem (hbefore.symm.subset List.mem_cons_self)
    have hab : (a ++ b).Perm (l ++ r) :=
      ((List.perm_cons _).mp (List.perm_middle.symm.trans hafter)).trans
        ((List.perm_cons _).mp (List.perm_middle.symm.trans hbefore)).symm
    exact ⟨a ++ node.setRelationship name restored :: b, hloop, l, node, r, children, nested, restored, rfl, hlookup,
      hnested, hsame (List.perm_middle.trans ((hab.cons _).trans List.perm_middle.symm)), hrestores⟩

/-! ## Inverting a change -/

theorem Change.Applies.perm_after {change : Change} {before after after' : List Node}
    (h : change.Applies schema before after) (hp : after'.Perm after) : change.Applies schema before after' := by
  cases change with
  | add new => exact hp.trans h
  | remove old => exact h.trans (hp.symm.cons old)
  | edit new old =>
    obtain ⟨rest, hbefore, hafter⟩ := h
    exact ⟨rest, hbefore, hp.trans hafter⟩
  | child new name change =>
    obtain ⟨node, children, children', nested, rest, hrow, hbefore, hafter, hrest⟩ := h
    exact ⟨node, children, children', nested, rest, hrow, hbefore, hp.trans hafter, hrest⟩

theorem generateWithOverlayUnordered_sort (stream : List Node) (change : Change) (schema : SourceSchema) :
    generateWithOverlayUnordered stream change { schema with sort := none } =
      generateWithOverlayUnordered stream change schema := by
  cases change <;> rfl

/-- **An overlay inverts a change**: over the sorted nodes after a change it yields the nodes before it, and without an
order, over the nodes after it in any order, the same nodes in some order. -/
theorem generateWithOverlay_inverts (change : Change) {before after : List Node} (ho : change.Ordered schema)
    (hb : Listing schema before) (ha : Listing schema after) (h : change.Applies schema before after) :
    generateWithOverlay after change schema = .ok before ∧
    ∀ after', after'.Perm after → KeyDistinct schema after' →
      ∃ out, generateWithOverlayUnordered after' change schema = .ok out ∧ out.Perm before := by
  constructor
  · obtain ⟨out, hout, hrestores⟩ := generateWithOverlay_restores change hb ha h
    rw [hout, hrestores.eq ho]
  · intro after' hp hkeys
    have happlies : change.Applies { schema with sort := none } before after' := by
      have happlies := h.perm_after hp
      cases change <;> exact happlies
    have hkeys' : KeyDistinct { schema with sort := none } after' := hkeys
    obtain ⟨out, hout, hrestores⟩ := generateWithOverlayUnordered_restores change rfl hkeys' happlies
    rw [generateWithOverlayUnordered_sort] at hout
    refine ⟨out, hout, ?_⟩
    cases change with
    | add _ | remove _ | edit _ _ => exact hrestores.1
    | child new name change =>
      obtain ⟨l, node, r, children, nested, children', rfl, hlookup, hnested, hsame, hrestores⟩ := hrestores
      have hnode := Node.setRelationship_self hlookup
      rw [hrestores.eq (ho.2 nested hnested), hnode] at hsame
      exact hsame.1

/-- A table with an `id`, and the tables of its relationships. -/
def keyedSchema (tableName : String) (relationships : List (String × SourceSchema)) : SourceSchema :=
  { tableName, primaryKey := ["id"], sort := some [("id", .asc)], compareRows := makeComparator [("id", .asc)],
    relationships }

def keyedRow (id : String) : Row := fun name => if name = "id" then .str id else .undefined

/-- A comment is added to an issue, and the overlay takes it out. -/
theorem generateWithOverlay_inverts_comment :
    generateWithOverlay
        [.mk (keyedRow "i") [("comments", [.ofRow (keyedRow "a"), .ofRow (keyedRow "b")])]]
        (.child (.ofRow (keyedRow "i")) "comments" (.add (.ofRow (keyedRow "b"))))
        (keyedSchema "issue" [("comments", keyedSchema "comment" [])]) =
      .ok [.mk (keyedRow "i") [("comments", [.ofRow (keyedRow "a")])]] := by
  have hlt : makeComparator [("id", .asc)] (keyedRow "a") (keyedRow "b") = .lt := by decide
  have hone : ∀ (tableName : String) relationships (node : Node), Listing (keyedSchema tableName relationships) [node] :=
    fun tableName relationships node =>
      ⟨inferInstanceAs (Std.TransCmp (makeComparator _)), List.pairwise_singleton .., fun _ => List.pairwise_singleton ..⟩
  have htwo : Listing (keyedSchema "comment" []) [.ofRow (keyedRow "a"), .ofRow (keyedRow "b")] := by
    refine ⟨inferInstanceAs (Std.TransCmp (makeComparator _)), List.pairwise_pair.mpr fun heq => ?_, fun _ =>
      List.pairwise_pair.mpr hlt⟩
    have heq : makeComparator [("id", .asc)] (keyedRow "a") (keyedRow "b") = .eq := heq
    cases hlt.symm.trans heq
  have ho : (Change.child (.ofRow (keyedRow "i")) "comments" (.add (.ofRow (keyedRow "b")))).Ordered
      (keyedSchema "issue" [("comments", keyedSchema "comment" [])]) := by
    refine ⟨rfl, fun nested hnested => ?_⟩
    rw [← Option.some.inj hnested]
    rfl
  have happlies : (Change.child (.ofRow (keyedRow "i")) "comments" (.add (.ofRow (keyedRow "b")))).Applies
      (keyedSchema "issue" [("comments", keyedSchema "comment" [])])
      [.mk (keyedRow "i") [("comments", [.ofRow (keyedRow "a")])]]
      [.mk (keyedRow "i") [("comments", [.ofRow (keyedRow "a"), .ofRow (keyedRow "b")])]] :=
    ⟨.mk (keyedRow "i") [("comments", [.ofRow (keyedRow "a")])], _, _, keyedSchema "comment" [], [], rfl, .refl _,
      .refl _, rfl, rfl, hone .., htwo, .swap ..⟩
  exact (generateWithOverlay_inverts _ ho (hone ..) (hone ..) happlies).1

/-! ## Parts of an input -/

theorem Listing.filter {nodes : List Node} (h : Listing schema nodes) (p : Row → Bool) :
    Listing schema (nodes.filter fun n => p n.row) :=
  ⟨h.total, h.distinct.sublist List.filter_sublist, fun hs => (h.sorted hs).sublist List.filter_sublist⟩

theorem Change.Applies.filter {change : Change} {before after : List Node} {p : Row → Bool}
    (h : change.Applies schema before after) (hp : p change.node.row = true)
    (hold : ∀ new old, change = .edit new old → p old.row = true) :
    change.Applies schema (before.filter fun n => p n.row) (after.filter fun n => p n.row) := by
  cases change with
  | add new =>
    have hp : p new.row = true := hp
    simpa [Change.Applies, hp] using List.Perm.filter (fun n : Node => p n.row) h
  | remove old =>
    have hp : p old.row = true := hp
    simpa [Change.Applies, hp] using List.Perm.filter (fun n : Node => p n.row) h
  | edit new old =>
    have hnew : p new.row = true := hp
    have hold := hold new old rfl
    obtain ⟨rest, hbefore, hafter⟩ := h
    refine ⟨rest.filter fun n => p n.row, ?_, ?_⟩
    · simpa [hold] using hbefore.filter fun n => p n.row
    · simpa [hnew] using hafter.filter fun n => p n.row
  | child new name change =>
    have hp : p new.row = true := hp
    obtain ⟨node, children, children', nested, rest, hrow, hbefore, hafter, hrest⟩ := h
    refine ⟨node, children, children', nested, rest.filter fun n => p n.row, hrow, ?_, ?_, hrest⟩
    · simpa [hrow, hp] using hbefore.filter fun n => p n.row
    · simpa [hrow, hp] using hafter.filter fun n => p n.row

theorem Change.Applies.filter_of_not {change : Change} {before after : List Node} {p : Row → Bool}
    (h : change.Applies schema before after) (hp : p change.node.row = false)
    (hedit : ∀ new old, change ≠ .edit new old) :
    (after.filter fun n => p n.row).Perm (before.filter fun n => p n.row) := by
  cases change with
  | add new =>
    have hp : p new.row = false := hp
    simpa [hp] using List.Perm.filter (fun n : Node => p n.row) h
  | remove old =>
    have hp : p old.row = false := hp
    simpa [hp] using (List.Perm.filter (fun n : Node => p n.row) h).symm
  | edit new old => exact absurd rfl (hedit new old)
  | child new name change =>
    have hp : p new.row = false := hp
    obtain ⟨node, children, children', nested, rest, hrow, hbefore, hafter, -⟩ := h
    have hbefore := hbefore.filter fun n => p n.row
    have hafter := hafter.filter fun n => p n.row
    simp only [List.filter_cons, Node.row_setRelationship, hrow, hp, Bool.false_eq_true, if_false] at hbefore hafter
    exact hafter.trans hbefore.symm

end

end ZeroSync
