/-
Well-formed nodes of a `BTreeSet`.

`Valid` says that a node is well formed, its leaves at one depth. The keys
below such a node are `toList`, and a key belongs to one of its children:
what the others hold is before it or after it (`ValidEntries.route`).
-/
import ZeroSync.BTreeSet
import ZeroSync.Blocks

namespace ZeroSync

open BinarySearch SortedList Blocks

namespace BNode

variable {K : Type}

/-! ## The keys below a node -/

mutual

/-- The keys of the leaves, in order. -/
def toList : BNode K → List K
  | leaf keys => keys
  | internal entries => entriesToList entries

def entriesToList : List (K × BNode K) → List K
  | [] => []
  | (_, child) :: entries => toList child ++ entriesToList entries

end

@[simp] theorem toList_leaf (keys : List K) : (leaf keys).toList = keys := by rw [toList]

@[simp] theorem toList_internal (entries : List (K × BNode K)) :
    (internal entries).toList = entriesToList entries := by rw [toList]

@[simp] theorem entriesToList_nil : entriesToList ([] : List (K × BNode K)) = [] := by rw [entriesToList]

@[simp] theorem entriesToList_cons (e : K × BNode K) (entries : List (K × BNode K)) :
    entriesToList (e :: entries) = e.2.toList ++ entriesToList entries := by
  rw [entriesToList]

@[simp] theorem entriesToList_append (A B : List (K × BNode K)) :
    entriesToList (A ++ B) = entriesToList A ++ entriesToList B := by
  induction A with
  | nil => simp
  | cons e A ih => simp [ih]

theorem entriesToList_eq (entries : List (K × BNode K)) :
    entriesToList entries = entries.flatMap fun e => e.2.toList := by
  induction entries with
  | nil => simp
  | cons e entries ih => simp [ih]

/-! ## Well-formed nodes -/

/-- A node at a level, the leaves at 0: no larger than `MAX_NODE_SIZE`, its
children at the level below, and each key the last below its child. -/
inductive Valid : ℕ → BNode K → Prop
  | leaf {keys} : keys.length ≤ MAX_NODE_SIZE → Valid 0 (leaf keys)
  | internal {n entries} : entries.length ≤ MAX_NODE_SIZE → (∀ e ∈ entries, Valid n e.2) →
      (∀ e ∈ entries, e.2.toList.getLast? = some e.1) → Valid (n + 1) (internal entries)

variable {cmp : K → K → Ordering} {key : K} {n : ℕ} {node : BNode K} {entries A B : List (K × BNode K)}

/-- The entries of an internal node at the level above `n`. -/
structure ValidEntries (n : ℕ) (entries : List (K × BNode K)) : Prop where
  child : ∀ e ∈ entries, Valid n e.2
  key : ∀ e ∈ entries, e.2.toList.getLast? = some e.1

theorem Valid.length_le (h : Valid n (BNode.internal entries)) : entries.length ≤ MAX_NODE_SIZE := by
  cases h with
  | internal hlen _ _ => exact hlen

theorem ValidEntries.valid (h : ValidEntries n entries) (hlen : entries.length ≤ MAX_NODE_SIZE) :
    Valid (n + 1) (internal entries) :=
  .internal hlen h.child h.key

theorem ValidEntries.sublist (h : ValidEntries n entries) {entries' : List (K × BNode K)}
    (hs : ∀ e ∈ entries', e ∈ entries) : ValidEntries n entries' :=
  ⟨fun e he => h.child e (hs e he), fun e he => h.key e (hs e he)⟩

theorem validEntries_append : ValidEntries n (A ++ B) ↔ ValidEntries n A ∧ ValidEntries n B := by
  constructor
  · intro h
    exact ⟨h.sublist fun e he => List.mem_append_left _ he, h.sublist fun e he => List.mem_append_right _ he⟩
  · intro ⟨hA, hB⟩
    constructor
    · intro e he
      exact (List.mem_append.mp he).elim (hA.child e) (hB.child e)
    · intro e he
      exact (List.mem_append.mp he).elim (hA.key e) (hB.key e)

theorem validEntries_cons {e : K × BNode K} :
    ValidEntries n (e :: B) ↔ (Valid n e.2 ∧ e.2.toList.getLast? = some e.1) ∧ ValidEntries n B := by
  rw [← List.singleton_append, validEntries_append]
  refine and_congr_left fun _ => ⟨fun h => ⟨h.child e (by simp), h.key e (by simp)⟩, fun h => ⟨?_, ?_⟩⟩
  · intro e' he
    rw [List.mem_singleton.mp he]
    exact h.1
  · intro e' he
    rw [List.mem_singleton.mp he]
    exact h.2

theorem validEntries_nil : ValidEntries n ([] : List (K × BNode K)) := ⟨by simp, by simp⟩

theorem ValidEntries.named (h : ValidEntries n entries) : Named (fun e => e.2.toList) (·.1) id entries :=
  fun e he => by rw [h.key e he]; rfl

theorem ValidEntries.getLast? (h : ValidEntries n entries) :
    (entryKeys entries).getLast? = (entriesToList entries).getLast? := by
  rw [entryKeys, h.named.getLast?, entriesToList_eq, Option.map_id_fun, id]

theorem Valid.maxKey (h : Valid n node) : node.maxKey = node.toList.getLast? := by
  cases h with
  | leaf _ => rw [toList_leaf]; rfl
  | internal _ hchild hkey =>
    rw [toList_internal]
    exact ValidEntries.getLast? ⟨hchild, hkey⟩

theorem ValidEntries.entriesToList_eq_nil (h : ValidEntries n entries) : entriesToList entries = [] ↔ entries = [] := by
  rw [entriesToList_eq, h.named.flatMap_eq_nil]

theorem Valid.size_eq_zero (h : Valid n node) : node.size = 0 ↔ node.toList = [] := by
  cases h with
  | leaf _ => simp [size]
  | internal _ hchild hkey =>
    rw [toList_internal, ValidEntries.entriesToList_eq_nil ⟨hchild, hkey⟩, size, List.length_eq_zero_iff]

theorem Valid.size_le (h : Valid n node) : node.size ≤ MAX_NODE_SIZE := by
  cases h with
  | leaf hlen => exact hlen
  | internal hlen _ _ => exact hlen

theorem Valid.entry (h : Valid n node) (hne : node.toList ≠ []) :
    ∃ k, node.entry = some (k, node) ∧ node.toList.getLast? = some k := by
  cases hlast : node.toList.getLast? with
  | none => exact absurd (List.getLast?_eq_none_iff.mp hlast) hne
  | some k =>
    refine ⟨k, ?_, rfl⟩
    rw [BNode.entry, h.maxKey, hlast]
    rfl

theorem ValidEntries.keys_sublist (h : ValidEntries n entries) : (entryKeys entries).Sublist (entriesToList entries) := by
  have hsub := h.named.sublist
  rwa [List.map_id, ← entriesToList_eq] at hsub

/-! ## The child a key belongs to -/

section
variable [Std.TransCmp cmp]

theorem indexOf_located {keys : List K} (h : Sorted cmp keys) (key : K) :
    Located cmp key keys (indexOf cmp key keys) := by
  have hasc : Ascending cmp key keys := @Ascending.of_sorted _ _ cmp _ id keys h key
  refine search_located hasc (fun low high hlt => by omega) (fun i hi => ?_) (Nat.sub_le _ _) (Nat.zero_le _)
    le_rfl (fun _ _ hj => absurd hj (by omega)) (fun _ _ hj => absurd hj (by omega))
  rw [List.getElem?_eq_getElem hi]

theorem ValidEntries.route (h : ValidEntries n entries) (hs : Sorted cmp (entriesToList entries)) (key : K) :
    ((indexOf cmp key (entryKeys entries)).index = entries.length ∧ ∀ x ∈ entriesToList entries, cmp x key = .lt) ∨
    ∃ A e B, entries = A ++ e :: B ∧ (indexOf cmp key (entryKeys entries)).index = A.length ∧
      (∀ x ∈ entriesToList A, cmp x key = .lt) ∧ (cmp e.1 key).isGE ∧
      ∀ x ∈ entriesToList B, cmp x key = .gt := by
  have hloc := indexOf_located (hs.sublist h.keys_sublist) key
  have hs' : Sorted cmp ((entries.flatMap fun e => e.2.toList).map id) := by rwa [List.map_id, ← entriesToList_eq]
  simp only [entriesToList_eq]
  exact h.named.route hs' hloc

/-! ## Lookups -/

omit [Std.TransCmp cmp] in
theorem get_internal {e : K × BNode K} (hindex : (indexOf cmp key (entryKeys (A ++ e :: B))).index = A.length) :
    (internal (A ++ e :: B)).get cmp key = e.2.get cmp key := by
  have hlt : (indexOf cmp key (entryKeys (A ++ e :: B))).index < (A ++ e :: B).length := by
    rw [hindex]
    simp
  rw [BNode.get, dif_pos hlt, getElem_length_append hindex hlt]

/-- **`get`** finds the key that compares equal. -/
theorem get_spec (h : Valid n node) (hs : Sorted cmp node.toList) (key x : K) :
    node.get cmp key = some x ↔ x ∈ node.toList ∧ cmp x key = .eq := by
  induction n generalizing node with
  | zero =>
    cases h with
    | @leaf keys hlen =>
      rw [toList_leaf] at hs ⊢
      have hloc := indexOf_located hs key
      rw [BNode.get]
      generalize indexOf cmp key keys = p at hloc
      cases hloc with
      | @found a y b ha hy hb =>
        have hget : (a ++ y :: b)[a.length]? = some y := by simp
        simp only [hget, Option.some.injEq]
        constructor
        · rintro rfl
          exact ⟨by simp, hy⟩
        · rintro ⟨hx, heq⟩
          exact hs.eq_of_cmp_eq (by simp) hx (Std.TransCmp.eq_trans hy (Std.OrientedCmp.eq_symm heq))
      | @missing a b ha hb =>
        refine ⟨fun hx => (by cases hx), ?_⟩
        rintro ⟨hx, heq⟩
        rcases List.mem_append.mp hx with hx | hx
        · rw [ha x hx] at heq
          cases heq
        · rw [hb x hx] at heq
          cases heq
  | succ n ih =>
    cases h with
    | @internal _ entries hlen hchild hkey =>
      have hv : ValidEntries n entries := ⟨hchild, hkey⟩
      rw [toList_internal] at hs ⊢
      rcases hv.route hs key with ⟨hindex, hlt⟩ | ⟨A, e, B, rfl, hindex, hlt, -, hgt⟩
      · rw [BNode.get, dif_neg (by rw [hindex]; omega)]
        refine ⟨fun hx => (by cases hx), ?_⟩
        rintro ⟨hx, heq⟩
        rw [hlt x hx] at heq
        cases heq
      · rw [get_internal hindex]
        have hsplit : entriesToList (A ++ e :: B) = entriesToList A ++ (e.2.toList ++ entriesToList B) := by simp
        rw [hsplit] at hs ⊢
        rw [ih (hchild e (by simp)) (sorted_append.mp (sorted_append.mp hs).2.1).1]
        constructor
        · rintro ⟨hx, heq⟩
          exact ⟨by simp [hx], heq⟩
        · rintro ⟨hx, heq⟩
          simp only [List.mem_append] at hx
          rcases hx with hx | hx | hx
          · rw [hlt x hx] at heq
            cases heq
          · exact ⟨hx, heq⟩
          · rw [hgt x hx] at heq
            cases heq

theorem has_eq (h : Valid n node) (hs : Sorted cmp node.toList) (key : K) :
    node.has cmp key = (node.get cmp key).isSome := by
  induction n generalizing node with
  | zero =>
    cases h with
    | @leaf keys hlen =>
      rw [toList_leaf] at hs
      have hloc := indexOf_located hs key
      rw [BNode.get, BNode.has]
      generalize indexOf cmp key keys = p at hloc
      cases hloc with
      | found => simp [Position.isFound]
      | missing => rfl
  | succ n ih =>
    cases h with
    | @internal _ entries hlen hchild hkey =>
      have hv : ValidEntries n entries := ⟨hchild, hkey⟩
      rw [toList_internal] at hs
      rcases hv.route hs key with ⟨hindex, -⟩ | ⟨A, e, B, rfl, hindex, -, -, -⟩
      · have hnot : ¬(indexOf cmp key (entryKeys entries)).index < entries.length := by omega
        rw [BNode.get, BNode.has, dif_neg hnot, dif_neg hnot]
        rfl
      · have hlt : (indexOf cmp key (entryKeys (A ++ e :: B))).index < (A ++ e :: B).length := by
          rw [hindex]
          simp
        rw [entriesToList_append, entriesToList_cons] at hs
        rw [get_internal hindex, BNode.has, dif_pos hlt, getElem_length_append hindex hlt]
        exact ih (hchild e (by simp)) (sorted_append.mp (sorted_append.mp hs).2.1).1

end

end BNode

end ZeroSync
