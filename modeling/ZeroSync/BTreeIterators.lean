/-
What the iterators of a `BTreeSet` yield (`valuesFrom_spec`,
`valuesFromReversed_spec`).

An iterator holds the path to a leaf. What it has still to yield is the rest
of the leaf and what is below the nodes beside the path (`after`, or `before`
when it goes backward); moving to the next leaf takes that leaf's keys from
them (`advance_spec`, `retreat_spec`).
-/
import ZeroSync.BTreeInsert

namespace ZeroSync

open BinarySearch SortedList BNode

namespace BTreeIterator

variable {K : Type} {levels levels' above : List (List (BNode K) × ℕ)} {n : ℕ}

/-! ## Paths -/

/-- The keys after the path. -/
def after : List (List (BNode K) × ℕ) → List K
  | [] => []
  | (queue, index) :: above => (queue.drop (index + 1)).flatMap BNode.toList ++ after above

/-- The keys before the path. -/
def before : List (List (BNode K) × ℕ) → List K
  | [] => []
  | (queue, index) :: above => before above ++ (queue.take index).flatMap BNode.toList

/-- A path of well-formed nodes that have keys, from level `n` up. -/
def Path : ℕ → List (List (BNode K) × ℕ) → Prop
  | _, [] => True
  | n, (queue, index) :: above => (∀ child ∈ queue, Filled n child) ∧ index < queue.length ∧ Path (n + 1) above

theorem flatMap_children (entries : List (K × BNode K)) :
    (entries.map (·.2)).flatMap BNode.toList = entriesToList entries := by
  induction entries with
  | nil => rfl
  | cons e entries ih => rw [List.map_cons, List.flatMap_cons, entriesToList_cons, ih]

theorem ValidEntries.filled_children {entries : List (K × BNode K)} (h : ValidEntries n entries) :
    ∀ child ∈ entries.map (·.2), Filled n child := by
  intro child hc
  obtain ⟨e, he, rfl⟩ := List.mem_map.mp hc
  refine ⟨h.child e he, fun hnil => ?_⟩
  have hk := h.key e he
  rw [hnil] at hk
  cases hk

theorem children_spec {node : BNode K} (h : Filled (n + 1) node) :
    (∀ child ∈ node.children, Filled n child) ∧ node.children ≠ [] ∧
      node.children.flatMap BNode.toList = node.toList := by
  obtain ⟨hv, hne⟩ := h
  cases hv with
  | @internal _ entries hlen hchild hkey =>
    have hv : ValidEntries n entries := ⟨hchild, hkey⟩
    rw [toList_internal] at hne ⊢
    refine ⟨ValidEntries.filled_children hv, ?_, ?_⟩
    · intro hnil
      exact hne (hv.entriesToList_eq_nil.mpr (List.map_eq_nil_iff.mp hnil))
    · exact flatMap_children entries

theorem advance_spec (h : Path n levels) : (advance levels = none ∧ after levels = []) ∨
    ∃ levels' node, advance levels = some levels' ∧ current levels' = some node ∧ Filled n node ∧ Path n levels' ∧
      node.toList ++ after levels' = after levels := by
  induction levels generalizing n with
  | nil => exact .inl ⟨rfl, rfl⟩
  | cons level above ih =>
    obtain ⟨queue, index⟩ := level
    obtain ⟨hqueue, hindex, habove⟩ := h
    rw [advance]
    split
    · next hlt =>
      refine .inr ⟨_, queue[index + 1], rfl, List.getElem?_eq_getElem hlt, hqueue _ (List.getElem_mem hlt),
        ⟨hqueue, hlt, habove⟩, ?_⟩
      rw [after, after, ← List.append_assoc, ← List.flatMap_cons, List.getElem_cons_drop]
    · next hlt =>
      have hdrop : queue.drop (index + 1) = [] := List.drop_eq_nil_of_le (not_lt.mp hlt)
      rcases ih habove with ⟨hnone, hnil⟩ | ⟨above', node, hsome, hcur, hnode, hpath, hlist⟩
      · refine .inl ⟨by rw [hnone]; rfl, ?_⟩
        rw [after, hdrop, hnil]
        rfl
      · obtain ⟨hchildren, hne, hflat⟩ := children_spec hnode
        obtain ⟨child, rest, hcons⟩ := List.exists_cons_of_ne_nil hne
        rw [hcons] at hchildren hflat
        refine .inr ⟨(node.children, 0) :: above', child, ?_, ?_, hchildren child (by simp), ?_, ?_⟩
        · rw [hsome, Option.map_some, hcur]
          rfl
        · rw [BTreeIterator.current, hcons]
          rfl
        · refine ⟨?_, ?_, hpath⟩
          · rw [hcons]
            exact hchildren
          · rw [hcons]
            exact Nat.succ_pos _
        · rw [after, after, hdrop, ← hlist, ← hflat, hcons]
          simp

theorem flatMap_take_succ {queue : List (BNode K)} {i : ℕ} (h : i < queue.length) :
    (queue.take (i + 1)).flatMap BNode.toList = (queue.take i).flatMap BNode.toList ++ queue[i].toList := by
  rw [← List.take_append_getElem h, List.flatMap_append, List.flatMap_singleton]

theorem retreat_spec (h : Path n levels) : (retreat levels = none ∧ before levels = []) ∨
    ∃ levels' node, retreat levels = some levels' ∧ current levels' = some node ∧ Filled n node ∧ Path n levels' ∧
      before levels' ++ node.toList = before levels := by
  induction levels generalizing n with
  | nil => exact .inl ⟨rfl, rfl⟩
  | cons level above ih =>
    obtain ⟨queue, index⟩ := level
    obtain ⟨hqueue, hindex, habove⟩ := h
    rw [retreat]
    split
    · next hpos =>
      have hlt : index - 1 < queue.length := by omega
      refine .inr ⟨_, queue[index - 1], rfl, List.getElem?_eq_getElem hlt, hqueue _ (List.getElem_mem hlt),
        ⟨hqueue, hlt, habove⟩, ?_⟩
      have htake := flatMap_take_succ hlt
      rw [Nat.sub_add_cancel hpos] at htake
      rw [before, before, htake, List.append_assoc]
    · next hpos =>
      obtain rfl : index = 0 := by omega
      rcases ih habove with ⟨hnone, hnil⟩ | ⟨above', node, hsome, hcur, hnode, hpath, hlist⟩
      · refine .inl ⟨by rw [hnone]; rfl, ?_⟩
        rw [before, hnil]
        rfl
      · obtain ⟨hchildren, hne, hflat⟩ := children_spec hnode
        have hlast : node.children.length - 1 < node.children.length := by
          have hpos := List.length_pos_iff.mpr hne
          omega
        refine .inr ⟨(node.children, node.children.length - 1) :: above', node.children[node.children.length - 1],
          ?_, List.getElem?_eq_getElem hlast, hchildren _ (List.getElem_mem hlast), ⟨hchildren, hlast, hpath⟩, ?_⟩
        · rw [hsome, Option.map_some, hcur]
          rfl
        · have htake := flatMap_take_succ hlast
          rw [Nat.sub_add_cancel (List.length_pos_iff.mpr hne), List.take_length] at htake
          rw [before, before, ← hlist, ← hflat, htake]
          simp only [List.take_zero, List.flatMap_nil, List.append_nil, List.append_assoc]

/-! ## What is yielded -/

theorem keys_of_valid {leaf : BNode K} (h : Valid 0 leaf) : leaf.keys = leaf.toList := by
  cases h with
  | leaf _ => rw [toList_leaf]; rfl

/-- Within a leaf: the keys from `i` on, then what the iterator yields at the end of the leaf. -/
theorem yields_leaf {leaf : BNode K} {rest : List K}
    (h : Yields forward { levels, leaf, i := leaf.keys.length } rest) {i : ℕ} (hi : i ≤ leaf.keys.length) :
    Yields forward { levels, leaf, i } (leaf.keys.drop i ++ rest) := by
  induction hj : leaf.keys.length - i generalizing i with
  | zero =>
    obtain rfl : i = leaf.keys.length := by omega
    rwa [List.drop_length, List.nil_append]
  | succ j ih =>
    have hlt : i < leaf.keys.length := by omega
    rw [← List.getElem_cons_drop hlt]
    refine .value ?_ (ih (i := i + 1) hlt (by omega))
    rw [forward]
    simp only [List.getElem?_eq_getElem hlt]

theorem yields_leaf_reversed {leaf : BNode K} {rest : List K}
    (h : Yields backward { levels, leaf, i := 0 } rest) {i : ℕ} (hi : i ≤ leaf.keys.length) :
    Yields backward { levels, leaf, i } ((leaf.keys.take i).reverse ++ rest) := by
  induction i with
  | zero => rwa [List.take_zero, List.reverse_nil, List.nil_append]
  | succ i ih =>
    have hlt : i < leaf.keys.length := hi
    rw [← List.take_append_getElem hlt, List.reverse_append]
    refine .value ?_ (ih hlt.le)
    rw [backward]
    simp only [List.getElem?_eq_getElem hlt]

theorem yields_forward {leaf : BNode K} (h : Path 0 levels) {i : ℕ} (hi : i ≤ leaf.keys.length) :
    Yields forward { levels, leaf, i } (leaf.keys.drop i ++ after levels) := by
  induction hlen : (after levels).length using Nat.strong_induction_on generalizing levels leaf i with
  | _ len ih =>
    refine yields_leaf ?_ hi
    have hend : leaf.keys[leaf.keys.length]? = none := List.getElem?_eq_none le_rfl
    rcases advance_spec h with ⟨hnone, hnil⟩ | ⟨levels', node, hsome, hcur, hnode, hpath, hlist⟩
    · rw [hnil]
      refine .done ?_
      rw [forward]
      simp only [hend, hnone]
    · have hlt : (after levels').length < len := by
        rw [← hlen, ← hlist, List.length_append]
        have hpos := List.length_pos_iff.mpr hnode.2
        omega
      rw [← hlist, ← keys_of_valid hnode.1, ← List.drop_zero (l := node.keys)]
      refine .next ?_ (ih _ hlt hpath (Nat.zero_le _) rfl)
      rw [forward]
      simp only [hend, hsome, hcur]

theorem yields_backward {leaf : BNode K} (h : Path 0 levels) {i : ℕ} (hi : i ≤ leaf.keys.length) :
    Yields backward { levels, leaf, i } ((leaf.keys.take i).reverse ++ (before levels).reverse) := by
  induction hlen : (before levels).length using Nat.strong_induction_on generalizing levels leaf i with
  | _ len ih =>
    refine yields_leaf_reversed ?_ hi
    rcases retreat_spec h with ⟨hnone, hnil⟩ | ⟨levels', node, hsome, hcur, hnode, hpath, hlist⟩
    · rw [hnil]
      refine .done ?_
      rw [backward]
      simp only [hnone]
    · have hlt : (before levels').length < len := by
        rw [← hlen, ← hlist, List.length_append]
        have hpos := List.length_pos_iff.mpr hnode.2
        omega
      rw [← hlist, ← keys_of_valid hnode.1, List.reverse_append, ← List.take_length (l := node.keys)]
      refine .next ?_ (ih _ hlt hpath le_rfl rfl)
      rw [backward]
      simp only [hsome, hcur]

/-! ## The path to a key -/

section
variable {cmp : K → K → Ordering} [Std.TransCmp cmp] {node : BNode K}

/-- The path to a leaf: what is before it is before the key, and what is after it is after the key. -/
structure Leads (cmp : K → K → Ordering) (key : Option K) (l : List K) (levels levels' : List (List (BNode K) × ℕ))
    (leaf : BNode K) (a b : List K) : Prop where
  valid : Valid 0 leaf
  path : Path 0 levels'
  before : before levels' = before levels ++ a
  after : after levels' = b ++ after levels
  toList : l = a ++ (leaf.toList ++ b)
  lt : ∀ k, key = some k → ∀ x ∈ a, cmp x k = .lt
  gt : ∀ k, key = some k → ∀ x ∈ b, cmp x k = .gt
  first : key = none → a = []

theorem pathRoute {entries : List (K × BNode K)} (h : ValidEntries n entries) (hs : Sorted cmp (entriesToList entries))
    (hne : entries ≠ []) (key : Option K) :
    (entries.length ≤ (key.map fun key => (indexOf cmp key (entryKeys entries)).index).getD 0 ∧
      ∃ k, key = some k ∧ ∀ x ∈ entriesToList entries, cmp x k = .lt) ∨
    ∃ A e B, entries = A ++ e :: B ∧
      (key.map fun key => (indexOf cmp key (entryKeys entries)).index).getD 0 = A.length ∧
      (∀ k, key = some k → (∀ x ∈ entriesToList A, cmp x k = .lt) ∧ (cmp e.1 k).isGE ∧
        ∀ x ∈ entriesToList B, cmp x k = .gt) ∧ (key = none → A = []) := by
  cases key with
  | none =>
    obtain ⟨e, B, rfl⟩ := List.exists_cons_of_ne_nil hne
    exact .inr ⟨[], e, B, rfl, rfl, (fun k hk => nomatch hk), fun _ => rfl⟩
  | some key =>
    rcases h.route hs key with ⟨hindex, hlt⟩ | ⟨A, e, B, rfl, hindex, hlt, hge, hgt⟩
    · exact .inl ⟨hindex.ge, key, rfl, hlt⟩
    · refine .inr ⟨A, e, B, rfl, hindex, fun k hk => ?_, (fun hk => nomatch hk)⟩
      obtain rfl := Option.some.inj hk
      exact ⟨hlt, hge, hgt⟩

theorem findPath_spec (h : Valid n node) (hne : n = 0 ∨ node.toList ≠ []) (hs : Sorted cmp node.toList)
    (hpath : Path n levels) (key : Option K) :
    (findPath cmp key node levels = none ∧ ∃ k, key = some k ∧ ∀ x ∈ node.toList, cmp x k = .lt) ∨
    ∃ levels' leaf a b, findPath cmp key node levels = some (levels', leaf) ∧
      Leads cmp key node.toList levels levels' leaf a b := by
  induction n generalizing node levels with
  | zero =>
    cases h with
    | @leaf keys hlen =>
      refine .inr ⟨levels, .leaf keys, [], [], by rw [findPath], .leaf hlen, hpath, by simp, by simp, by simp, ?_, ?_,
        fun _ => rfl⟩
      · intro k _ x hx
        cases hx
      · intro k _ x hx
        cases hx
  | succ n ih =>
    cases h with
    | @internal _ entries hlen hchild hkey =>
      have hv : ValidEntries n entries := ⟨hchild, hkey⟩
      rw [toList_internal] at hs hne ⊢
      have hne : entries ≠ [] := by simpa [hv.entriesToList_eq_nil] using hne
      rcases pathRoute hv hs hne key with ⟨hindex, k, rfl, hlt⟩ | ⟨A, e, B, rfl, hindex, hkeys, hfirst⟩
      · refine .inl ⟨?_, k, rfl, hlt⟩
        rw [findPath, dif_neg (not_lt.mpr hindex)]
      · obtain ⟨hA, heB⟩ := validEntries_append.mp hv
        obtain ⟨⟨he, hek⟩, hB⟩ := validEntries_cons.mp heB
        have hi : (key.map fun key => (indexOf cmp key (entryKeys (A ++ e :: B))).index).getD 0 <
            (A ++ e :: B).length := by
          rw [hindex]
          simp
        have hfind : findPath cmp key (internal (A ++ e :: B)) levels =
            findPath cmp key e.2 (((A ++ e :: B).map (·.2), A.length) :: levels) := by
          rw [findPath, dif_pos hi, getElem_length_append hindex hi, hindex]
        have hpath' : Path n (((A ++ e :: B).map (·.2), A.length) :: levels) :=
          ⟨ValidEntries.filled_children hv, by simp, hpath⟩
        rw [entriesToList_append, entriesToList_cons] at hs
        rw [hfind]
        rcases ih he (.inr fun hnil => by rw [hnil] at hek; cases hek)
          (sorted_append.mp (sorted_append.mp hs).2.1).1 hpath' with
          ⟨-, k, rfl, hlt⟩ | ⟨levels', leaf, a, b, hsome, hleads⟩
        · -- The key of the child is not before the bound.
          have hge := (hkeys k rfl).2.1
          rw [hlt e.1 (List.mem_of_getLast? hek)] at hge
          cases hge
        · refine .inr ⟨levels', leaf, entriesToList A ++ a, b ++ entriesToList B, hsome, hleads.valid, hleads.path,
            ?_, ?_, ?_, ?_, ?_, ?_⟩
          · rw [hleads.before, BTreeIterator.before, ← List.map_take, flatMap_children, List.take_left, List.append_assoc]
          · have hdrop : (A ++ e :: B).drop (A.length + 1) = B := by simp
            rw [hleads.after, BTreeIterator.after, ← List.map_drop, flatMap_children, hdrop, List.append_assoc]
          · rw [entriesToList_append, entriesToList_cons, hleads.toList]
            simp
          · intro k hk x hx
            exact (List.mem_append.mp hx).elim ((hkeys k hk).1 x) (hleads.lt k hk x)
          · intro k hk x hx
            exact (List.mem_append.mp hx).elim (hleads.gt k hk x) ((hkeys k hk).2.2 x)
          · intro hk
            rw [hfirst hk, hleads.first hk]
            rfl

end

end BTreeIterator

end ZeroSync
