/-
`delete` takes a key out of the keys below a node (`delete_spec`).

A child that has lost a key is merged with its right sibling when both fit
in one node, or removed when it is empty; neither changes what is below.
-/
import ZeroSync.BTreeNodes

namespace ZeroSync

open BinarySearch SortedList

namespace BNode

variable {K : Type} {cmp : K → K → Ordering} {key : K} {n : ℕ} {node : BNode K} {entries A B : List (K × BNode K)}

/-! ## Merging -/

/-- Entries after children were merged or removed: the same keys below. -/
structure Merged (n : ℕ) (entries merged : List (K × BNode K)) : Prop where
  valid : ValidEntries n merged
  toList : entriesToList merged = entriesToList entries
  length_le : merged.length ≤ entries.length
  le_length : entries.length ≤ merged.length + 1

theorem Merged.refl (h : ValidEntries n entries) : Merged n entries entries :=
  ⟨h, rfl, le_rfl, Nat.le_succ _⟩

/-- `mergeSibling` is right at a level. -/
def Merges (K : Type) (n : ℕ) : Prop :=
  ∀ lhs rhs : BNode K, Valid n lhs → Valid n rhs → lhs.size + rhs.size ≤ MAX_NODE_SIZE →
    ∃ merged, mergeSibling lhs rhs = some merged ∧ Valid n merged ∧ merged.toList = lhs.toList ++ rhs.toList

theorem tryMerge_of_merges (hmerge : Merges K n) (h : ValidEntries n entries) (i : ℕ) :
    ∃ merged, tryMerge entries i = some merged ∧ Merged n entries merged := by
  rw [tryMerge]
  split
  · next hi =>
    split
    · next hsize =>
      obtain ⟨A, e, f, B, hA, rfl⟩ : ∃ A e f B, A.length = i ∧ entries = A ++ e :: f :: B := by
        refine ⟨entries.take i, entries[i], entries[i + 1], entries.drop (i + 2), ?_, ?_⟩
        · exact List.length_take_of_le (by omega)
        · rw [List.getElem_cons_drop, List.getElem_cons_drop, List.take_append_drop]
      subst hA
      have hgetf : (A ++ e :: f :: B)[A.length + 1] = f := by simp
      have hgete : (A ++ e :: f :: B)[A.length] = e := by simp
      rw [hgetf, hgete] at hsize ⊢
      obtain ⟨hA, hef⟩ := validEntries_append.mp h
      obtain ⟨⟨hev, hek⟩, hfB⟩ := validEntries_cons.mp hef
      obtain ⟨⟨hfv, hfk⟩, hB⟩ := validEntries_cons.mp hfB
      obtain ⟨m, hm, hmv, hml⟩ := hmerge e.2 f.2 hev hfv hsize
      have hne : m.toList ≠ [] := by
        intro hnil
        rw [hml, List.append_eq_nil_iff] at hnil
        rw [hnil.1] at hek
        cases hek
      obtain ⟨k, hentry, hk⟩ := hmv.entry hne
      refine ⟨A ++ (k, m) :: B, ?_, ?_, ?_, by simp, by simp; omega⟩
      · have herase : (A ++ e :: f :: B).eraseIdx (A.length + 1) = A ++ e :: B := by
          have h := eraseIdx_length_append (A ++ [e]) f B
          simpa using h
        simp only [hm, hentry, Option.bind_eq_bind, Option.bind_some, Option.pure_def, herase, set_length_append]
      · exact validEntries_append.mpr ⟨hA, validEntries_cons.mpr ⟨⟨hmv, hk⟩, hB⟩⟩
      · simp [hml]
    · exact ⟨entries, rfl, .refl h⟩
  · exact ⟨entries, rfl, .refl h⟩

theorem mergeSibling_spec (n : ℕ) : Merges K n := by
  induction n with
  | zero =>
    intro lhs rhs hl hr hsize
    cases hl with
    | @leaf keys _ =>
      cases hr with
      | @leaf rkeys _ =>
        rw [mergeSibling]
        refine ⟨_, rfl, .leaf ?_, by simp⟩
        rw [List.length_append]
        exact hsize
  | succ n ih =>
    intro lhs rhs hl hr hsize
    cases hl with
    | @internal _ entries hlen hchild hkey =>
      cases hr with
      | @internal _ rentries hrlen hrchild hrkey =>
        have hv : ValidEntries n (entries ++ rentries) :=
          validEntries_append.mpr ⟨⟨hchild, hkey⟩, ⟨hrchild, hrkey⟩⟩
        have hle : (entries ++ rentries).length ≤ MAX_NODE_SIZE := by
          rw [List.length_append]
          exact hsize
        rw [mergeSibling]
        split
        · exact ⟨_, rfl, hv.valid hle, by simp⟩
        · obtain ⟨merged, hm, hmerged⟩ := tryMerge_of_merges ih hv (entries.length - 1)
          rw [hm]
          refine ⟨_, rfl, hmerged.valid.valid (hmerged.length_le.trans hle), ?_⟩
          rw [toList_internal, hmerged.toList, entriesToList_append, toList_internal, toList_internal]

theorem tryMerge_spec (h : ValidEntries n entries) (i : ℕ) :
    ∃ merged, tryMerge entries i = some merged ∧ Merged n entries merged :=
  tryMerge_of_merges (mergeSibling_spec n) h i

/-! ## The children that may have lost keys -/

theorem mergeChild_spec {e : K × BNode K} (hA : ValidEntries n A) (he : Valid n e.2)
    (hkey : e.2.toList ≠ [] → e.2.toList.getLast? = some e.1) (hB : ValidEntries n B) :
    ∃ merged, mergeChild (A ++ e :: B) A.length = some merged ∧ Merged n (A ++ e :: B) merged := by
  have hget : (A ++ e :: B)[A.length]? = some e := by simp
  have hv (hne : e.2.toList ≠ []) : ValidEntries n (A ++ e :: B) :=
    validEntries_append.mpr ⟨hA, validEntries_cons.mpr ⟨⟨he, hkey hne⟩, hB⟩⟩
  unfold mergeChild
  rw [hget]
  simp only
  split
  · split
    · next hsize => exact tryMerge_spec (hv fun hnil => hsize (he.size_eq_zero.mpr hnil)) A.length
    · next hsize =>
      have hnil : e.2.toList = [] := he.size_eq_zero.mp (not_not.mp hsize)
      rw [eraseIdx_length_append]
      refine ⟨_, rfl, validEntries_append.mpr ⟨hA, hB⟩, ?_, by simp, by simp; omega⟩
      simp [hnil]
  · next hsize =>
    refine ⟨_, rfl, .refl (hv fun hnil => hsize ?_)⟩
    rw [he.size_eq_zero.mpr hnil]
    exact Nat.zero_le _

theorem mergeChildren_spec {e : K × BNode K} (hA : ValidEntries n A) (he : Valid n e.2)
    (hkey : e.2.toList ≠ [] → e.2.toList.getLast? = some e.1) (hB : ValidEntries n B) :
    ∃ merged, mergeChildren (A ++ e :: B) A.length = some merged ∧ ValidEntries n merged ∧
      entriesToList merged = entriesToList (A ++ e :: B) ∧ merged.length ≤ (A ++ e :: B).length := by
  obtain ⟨merged, hm, hmerged⟩ := mergeChild_spec hA he hkey hB
  cases hlen : A.length with
  | zero =>
    rw [hlen] at hm
    exact ⟨merged, hm, hmerged.valid, hmerged.toList, hmerged.length_le⟩
  | succ i =>
    rw [hlen] at hm
    have hi : i < merged.length := by
      have hle := hmerged.le_length
      rw [List.length_append, List.length_cons] at hle
      omega
    obtain ⟨A', f, B', hA', rfl⟩ : ∃ A' f B', A'.length = i ∧ merged = A' ++ f :: B' := by
      refine ⟨merged.take i, merged[i], merged.drop (i + 1), List.length_take_of_le hi.le, ?_⟩
      rw [List.getElem_cons_drop, List.take_append_drop]
    subst hA'
    obtain ⟨hvA, hvf⟩ := validEntries_append.mp hmerged.valid
    obtain ⟨⟨hf, hfk⟩, hvB⟩ := validEntries_cons.mp hvf
    obtain ⟨merged', hm', hmerged'⟩ := mergeChild_spec hvA hf (fun _ => hfk) hvB
    refine ⟨merged', ?_, hmerged'.valid, hmerged'.toList.trans hmerged.toList,
      hmerged'.length_le.trans hmerged.length_le⟩
    rw [mergeChildren, hm, Option.bind_eq_bind, Option.bind_some, hm']

/-! ## `delete` -/

/-- What `delete` makes of a node with the keys `l` below it. -/
structure Deletes (cmp : K → K → Ordering) (key : K) (n : ℕ) (l : List K) (node : BNode K) (deleted : Bool) :
    Prop where
  valid : Valid n node
  toList : node.toList = eraseKey cmp key l
  count : node.toList.length + (if deleted then 1 else 0) = l.length
  deleted : deleted = true ↔ ∃ x ∈ l, cmp x key = .eq

theorem Deletes.none (h : Valid n node) (hne : ∀ x ∈ node.toList, cmp x key ≠ .eq) :
    Deletes cmp key n node.toList node false where
  valid := h
  toList := (eraseKey_missing hne).symm
  count := by simp
  deleted := by simpa using hne

section
variable [Std.TransCmp cmp]

theorem deleteLeaf_spec {keys : List K} (h : Valid 0 (leaf keys)) (hs : Sorted cmp keys) (key : K) :
    ∃ node deleted, (leaf keys).delete cmp key = some (node, deleted) ∧ Deletes cmp key 0 keys node deleted := by
  have hloc := indexOf_located hs key
  rw [BNode.delete]
  generalize indexOf cmp key keys = p at hloc
  cases hloc with
  | @found a x b ha hx hb =>
    have herase : (a ++ x :: b).eraseIdx a.length = a ++ b := eraseIdx_length_append a x b
    refine ⟨leaf (a ++ b), true, by simp only [herase], .leaf ?_, ?_, ?_, ?_⟩
    · have hle := h.size_le
      simp only [size, List.length_append, List.length_cons] at hle ⊢
      omega
    · rw [toList_leaf, eraseKey_found ha hx hb]
    · simp
      omega
    · simp only [true_iff]
      exact ⟨x, by simp, hx⟩
  | @missing a b ha hb =>
    refine ⟨_, _, rfl, ?_⟩
    rw [← toList_leaf (a ++ b)]
    refine Deletes.none h fun x hx => ?_
    rw [toList_leaf] at hx
    rcases List.mem_append.mp hx with hx | hx
    · simp [ha x hx]
    · simp [hb x hx]

omit [Std.TransCmp cmp] in
theorem delete_internal {e : K × BNode K} (hindex : (indexOf cmp key (entryKeys (A ++ e :: B))).index = A.length) :
    (internal (A ++ e :: B)).delete cmp key = (e.2.delete cmp key).bind fun r =>
      (mergeChildren (A ++ (r.1.maxKey.getD e.1, r.1) :: B) A.length).bind fun entries =>
        some (internal entries, r.2) := by
  have hlt : (indexOf cmp key (entryKeys (A ++ e :: B))).index < (A ++ e :: B).length := by
    rw [hindex]
    simp
  have hget := getElem_length_append hindex hlt
  rw [BNode.delete, dif_pos hlt, hget, hindex]
  simp only [set_length_append]
  rfl

/-- **`delete`** takes the key out. -/
theorem delete_spec (h : Valid n node) (hs : Sorted cmp node.toList) (key : K) :
    ∃ node' deleted, node.delete cmp key = some (node', deleted) ∧
      Deletes cmp key n node.toList node' deleted := by
  induction n generalizing node with
  | zero =>
    cases h with
    | leaf hlen =>
      rw [toList_leaf] at hs ⊢
      exact deleteLeaf_spec (.leaf hlen) hs key
  | succ n ih =>
    cases h with
    | @internal _ entries hlen hchild hkey =>
      have hv : ValidEntries n entries := ⟨hchild, hkey⟩
      rw [toList_internal] at hs ⊢
      rcases hv.route hs key with ⟨hindex, hlt⟩ | ⟨A, e, B, rfl, hindex, hlt, -, hgt⟩
      · refine ⟨internal entries, false, ?_, ?_⟩
        · rw [BNode.delete, dif_neg (by rw [hindex]; omega)]
        · rw [← toList_internal]
          refine Deletes.none (hv.valid hlen) fun x hx => ?_
          rw [toList_internal] at hx
          simp [hlt x hx]
      · obtain ⟨hA, heB⟩ := validEntries_append.mp hv
        obtain ⟨⟨he, hek⟩, hB⟩ := validEntries_cons.mp heB
        have hsplit : entriesToList (A ++ e :: B) = entriesToList A ++ (e.2.toList ++ entriesToList B) := by simp
        rw [hsplit] at hs ⊢
        obtain ⟨child, deleted, hdel, hd⟩ := ih he (sorted_append.mp (sorted_append.mp hs).2.1).1
        have hck (hne : child.toList ≠ []) : child.toList.getLast? = some (child.maxKey.getD e.1) := by
          obtain ⟨k, -, hk⟩ := hd.valid.entry hne
          rw [hd.valid.maxKey, hk]
          rfl
        obtain ⟨merged, hm, hmv, hml, hmlen⟩ := mergeChildren_spec (e := (child.maxKey.getD e.1, child)) hA hd.valid hck hB
        refine ⟨internal merged, deleted, ?_, hmv.valid (hmlen.trans (by simpa using hlen)), ?_, ?_, ?_⟩
        · rw [delete_internal hindex, hdel, Option.bind_some, hm, Option.bind_some]
        · rw [toList_internal, hml, eraseKey_within hlt hgt, ← hd.toList]
          simp
        · have hcount := hd.count
          rw [toList_internal, hml]
          simp only [entriesToList_append, entriesToList_cons, List.length_append]
          omega
        · rw [hd.deleted]
          constructor
          · rintro ⟨x, hx, heq⟩
            exact ⟨x, by simp [hx], heq⟩
          · rintro ⟨x, hx, heq⟩
            simp only [List.mem_append] at hx
            rcases hx with hx | hx | hx
            · rw [hlt x hx] at heq
              cases heq
            · exact ⟨x, hx, heq⟩
            · rw [hgt x hx] at heq
              cases heq

end

end BNode

end ZeroSync
