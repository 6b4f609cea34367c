/-
A sorted list kept in blocks, each named by the key it ends with.

A key has its place in one block: what the blocks before it hold is before the
key, and what those after it hold is after the key (`Named.route`).
-/
import ZeroSync.BinarySearch

namespace Blocks

open BinarySearch SortedList

variable {ε α κ : Type*} {items : ε → List α} {name : ε → κ} {key : α → κ} {A B : List ε}

variable (items name key) in
/-- The name of a block is the last key in it. -/
def Named (blocks : List ε) : Prop := ∀ e ∈ blocks, (items e).getLast?.map key = some (name e)

theorem named_cons {e : ε} : Named items name key (e :: B) ↔
    (items e).getLast?.map key = some (name e) ∧ Named items name key B := List.forall_mem_cons

theorem named_append : Named items name key (A ++ B) ↔ Named items name key A ∧ Named items name key B :=
  List.forall_mem_append

theorem Named.getLast? (h : Named items name key A) :
    (A.map name).getLast? = (A.flatMap items).getLast?.map key := by
  rcases List.eq_nil_or_concat A with rfl | ⟨init, e, rfl⟩
  · rfl
  · obtain ⟨x, hx, hkey⟩ := Option.map_eq_some_iff.mp (h e (by simp))
    rw [List.concat_eq_append, List.flatMap_append, List.flatMap_singleton, List.getLast?_append, hx, List.map_append,
      List.getLast?_append]
    simp [hkey]

theorem Named.flatMap_eq_nil (h : Named items name key A) : A.flatMap items = [] ↔ A = [] := by
  rw [← List.getLast?_eq_none_iff, ← Option.map_eq_none_iff, ← h.getLast?, List.getLast?_eq_none_iff, List.map_eq_nil_iff]

theorem Named.sublist (h : Named items name key A) : (A.map name).Sublist ((A.flatMap items).map key) := by
  induction A with
  | nil => simp
  | cons e A ih =>
    obtain ⟨hkey, h⟩ := named_cons.mp h
    obtain ⟨x, hx, hname⟩ := Option.map_eq_some_iff.mp hkey
    rw [List.flatMap_cons, List.map_append, List.map_cons, ← hname]
    exact (List.singleton_sublist.mpr (List.mem_map_of_mem (List.mem_of_getLast? hx))).append (ih h)

variable {cmp : κ → κ → Ordering} [Std.TransCmp cmp] {target : κ}

theorem Named.all_lt (h : Named items name key A) (hs : Sorted cmp ((A.flatMap items).map key))
    (hlt : ∀ e ∈ A, cmp (name e) target = .lt) : ∀ x ∈ A.flatMap items, cmp (key x) target = .lt := by
  intro x hx
  have hmem : key x ∈ (A.flatMap items).map key := List.mem_map_of_mem hx
  cases hlast : ((A.flatMap items).map key).getLast? with
  | none =>
    rw [List.getLast?_eq_none_iff.mp hlast] at hmem
    cases hmem
  | some m =>
    rw [List.getLast?_map, ← h.getLast?, List.getLast?_map] at hlast
    obtain ⟨e, he, rfl⟩ := Option.map_eq_some_iff.mp hlast
    refine Std.TransCmp.lt_of_isLE_of_lt (hs.isLE_getLast ?_ hmem) (hlt e (List.mem_of_getLast? he))
    rw [List.getLast?_map, ← h.getLast?, List.getLast?_map, he]
    rfl

theorem Named.route {blocks : List ε} (h : Named items name key blocks)
    (hs : Sorted cmp ((blocks.flatMap items).map key)) {p : Position} (hloc : Located cmp target (blocks.map name) p) :
    (p.index = blocks.length ∧ ∀ x ∈ blocks.flatMap items, cmp (key x) target = .lt) ∨
    ∃ A e B, blocks = A ++ e :: B ∧ p.index = A.length ∧ (∀ x ∈ A.flatMap items, cmp (key x) target = .lt) ∧
      (cmp (name e) target).isGE ∧ ∀ x ∈ B.flatMap items, cmp (key x) target = .gt := by
  -- The block at the place has a name at or after the key.
  have hsplit : ∀ A e B, blocks = A ++ e :: B → (∀ k ∈ A.map name, cmp k target = .lt) →
      (cmp (name e) target).isGE → (∀ x ∈ A.flatMap items, cmp (key x) target = .lt) ∧
        ∀ x ∈ B.flatMap items, cmp (key x) target = .gt := by
    intro A e B heq hA he
    subst heq
    obtain ⟨hnA, hn⟩ := named_append.mp h
    obtain ⟨hkey, -⟩ := named_cons.mp hn
    obtain ⟨last, hlast, hname⟩ := Option.map_eq_some_iff.mp hkey
    rw [List.flatMap_append, List.flatMap_cons, List.map_append, List.map_append, sorted_append] at hs
    refine ⟨hnA.all_lt hs.1 fun e' he' => hA _ (List.mem_map_of_mem he'), fun x hx => ?_⟩
    have hlt : cmp (name e) (key x) = .lt := by
      rw [← hname]
      exact (sorted_append.mp hs.2.1).2.2 _ (List.mem_map_of_mem (List.mem_of_getLast? hlast)) _ (List.mem_map_of_mem hx)
    refine Std.OrientedCmp.gt_of_lt (Std.TransCmp.lt_of_isLE_of_lt ?_ hlt)
    rwa [Std.OrientedCmp.isGE_iff_isLE] at he
  generalize hks : blocks.map name = ks at hloc
  cases hloc with
  | @found a x b ha hx hb =>
    obtain ⟨A, E, rfl, rfl, hE⟩ := List.map_eq_append_iff.mp hks
    obtain ⟨e, B, rfl, rfl, hB⟩ := List.map_eq_cons_iff.mp hE
    have he : (cmp (name e) target).isGE := by rw [hx]; rfl
    obtain ⟨hlt, hgt⟩ := hsplit A e B rfl ha he
    exact .inr ⟨A, e, B, rfl, by rw [Position.index, List.length_map], hlt, he, hgt⟩
  | @missing a b ha hb =>
    obtain ⟨A, E, rfl, rfl, hE⟩ := List.map_eq_append_iff.mp hks
    cases E with
    | nil =>
      rw [List.append_nil] at h hs ⊢
      exact .inl ⟨by rw [Position.index, List.length_map], h.all_lt hs fun e he => ha _ (List.mem_map_of_mem he)⟩
    | cons e B =>
      have he : (cmp (name e) target).isGE := by rw [hb (name e) (by rw [← hE]; simp)]; rfl
      obtain ⟨hlt, hgt⟩ := hsplit A e B rfl ha he
      exact .inr ⟨A, e, B, rfl, by rw [Position.index, List.length_map], hlt, he, hgt⟩

end Blocks
