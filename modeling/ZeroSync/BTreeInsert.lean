/-
`set` puts a key in its place among the keys below a node (`set_spec`).

A full child first gives a key to its left sibling, which keeps the keys
below; what splits is cut in half, and the half the new sibling goes to is
the one where it belongs (`half_of_max`).
-/
import ZeroSync.BTreeNodes

namespace ZeroSync

open BinarySearch SortedList

namespace BNode

variable {K : Type} {cmp : K → K → Ordering} {key : K} {n : ℕ} {node : BNode K} {entries A B : List (K × BNode K)}

/-! ## `set` -/

/-- The keys below a node and the sibling it was split from. -/
def SetResult.toList (r : SetResult K) : List K := r.node.toList ++ (r.sibling.map BNode.toList).getD []

/-- A node that has keys. -/
def Filled (n : ℕ) (node : BNode K) : Prop := Valid n node ∧ node.toList ≠ []

/-- What `set` makes of a node with the keys `l` below it. -/
structure Sets (cmp : K → K → Ordering) (key : K) (n : ℕ) (l : List K) (r : SetResult K) : Prop where
  node : Filled n r.node
  sibling : ∀ s, r.sibling = some s → Filled n s
  toList : r.toList = insertKey cmp key l
  count : r.toList.length = l.length + if r.added then 1 else 0

theorem half_insert {α : Type} (l : List α) (half i : ℕ) (x : α) (hhalf : half ≤ l.length) :
    (i ≤ half → (l.take half).insertIdx i x ++ l.drop half = l.insertIdx i x) ∧
    (half ≤ i → l.take half ++ (l.drop half).insertIdx (i - half) x = l.insertIdx i x) := by
  have hlen : (l.take half).length = half := List.length_take_of_le hhalf
  constructor
  · intro hi
    rw [← insertIdx_append_left (by omega), List.take_append_drop]
  · intro hi
    have h := insertIdx_append_right (l.take half) (i - half) x (l.drop half)
    rw [hlen, Nat.add_sub_cancel' hi, List.take_append_drop] at h
    exact h.symm

theorem filled_leaf {keys : List K} (hlen : keys.length ≤ MAX_NODE_SIZE) (hne : keys ≠ []) : Filled 0 (leaf keys) :=
  ⟨.leaf hlen, by rwa [toList_leaf]⟩

theorem sets_split {keys left right : List K} (hfull : keys.length = MAX_NODE_SIZE)
    (hkeys : left ++ right = insertKey cmp key keys) (hcount : (left ++ right).length = keys.length + 1)
    (hhalf : left.length = 16 ∨ right.length = 16) :
    Sets cmp key 0 keys { node := leaf left, sibling := some (leaf right), added := true } := by
  unfold MAX_NODE_SIZE at hfull
  rw [List.length_append] at hcount
  have hne {l : List K} (h : 0 < l.length) : l ≠ [] := List.length_pos_iff.mp h
  refine ⟨filled_leaf (by unfold MAX_NODE_SIZE; omega) (hne (by omega)), ?_, by simpa [SetResult.toList] using hkeys, ?_⟩
  · intro s hs
    obtain rfl := Option.some.inj hs
    exact filled_leaf (by unfold MAX_NODE_SIZE; omega) (hne (by omega))
  · simp only [SetResult.toList, toList_leaf, Option.map_some, Option.getD_some, List.length_append, if_true]
    omega

section
variable [Std.TransCmp cmp]

theorem setLeaf_spec {keys : List K} (h : Sorted cmp keys) (hlen : keys.length ≤ MAX_NODE_SIZE) (key : K) :
    Sets cmp key 0 keys (setLeaf cmp key keys) := by
  have hloc := indexOf_located h key
  unfold setLeaf
  generalize indexOf cmp key keys = p at hloc
  cases hloc with
  | @found a x b ha hx hb =>
    have hset : (a ++ x :: b).set a.length key = a ++ key :: b := set_length_append a key x b
    simp only [hset]
    refine ⟨filled_leaf (by simpa using hlen) (by simp), by simp, ?_, by simp [SetResult.toList]⟩
    rw [insertKey_replace ha hx hb]
    simp [SetResult.toList]
  | @missing a b ha hb =>
    have hinsert : (a ++ b).insertIdx a.length key = a ++ key :: b := insertIdx_length_append a key b
    have hkey : insertKey cmp key (a ++ b) = a ++ key :: b := insertKey_between ha hb
    have hcount : (a ++ key :: b).length = (a ++ b).length + 1 := by
      rw [List.length_append, List.length_cons, List.length_append, Nat.add_assoc]
    simp only
    split
    · next hroom =>
      rw [hinsert]
      refine ⟨filled_leaf (by omega) (by simp), by simp, ?_, by simpa [SetResult.toList] using hcount⟩
      rw [hkey]
      simp [SetResult.toList]
    · next hfull =>
      have hfull : (a ++ b).length = MAX_NODE_SIZE := le_antisymm hlen (not_lt.mp hfull)
      have hhalf : (a ++ b).length / 2 = 16 := by rw [hfull]; rfl
      have hle : 16 ≤ (a ++ b).length := by rw [hfull]; decide
      have hleft : ((a ++ b).take 16).length = 16 := List.length_take_of_le hle
      have hright : ((a ++ b).drop 16).length = 16 := by rw [List.length_drop, hfull]; rfl
      obtain ⟨hl, hr⟩ := half_insert (a ++ b) 16 a.length key hle
      rw [hinsert] at hl hr
      rw [hhalf, hleft]
      split
      · next hlt =>
        have hkeys := hr (by omega)
        exact sets_split hfull (hkeys.trans hkey.symm) (by rw [hkeys, hcount]) (.inl hleft)
      · next hlt =>
        have hkeys := hl (by omega)
        exact sets_split hfull (hkeys.trans hkey.symm) (by rw [hkeys, hcount]) (.inr hright)

omit [Std.TransCmp cmp] in
theorem takeFromRight_spec {lhs rhs : BNode K} (hl : Valid n lhs) (hr : Valid n rhs) (hroom : lhs.size < MAX_NODE_SIZE)
    (hsize : 2 ≤ rhs.size) : ∃ lhs' rhs' moved, lhs.takeFromRight rhs = some (lhs', rhs') ∧ Filled n lhs' ∧
      Filled n rhs' ∧ lhs'.toList = lhs.toList ++ moved ∧ moved ++ rhs'.toList = rhs.toList ∧
      moved.getLast? = rhs.keys.head? := by
  cases hl with
  | @leaf keys hlen =>
    cases hr with
    | @leaf rkeys hrlen =>
      match rkeys, hrlen, hsize with
      | key :: key' :: rest, hrlen, _ =>
        refine ⟨_, _, [key], rfl, filled_leaf ?_ (by simp), filled_leaf ?_ (by simp), by simp, by simp, rfl⟩
        · rw [List.length_append]
          exact hroom
        · exact Nat.le_of_succ_le hrlen
  | @internal m entries hlen hchild hkey =>
    cases hr with
    | @internal _ rentries hrlen hrchild hrkey =>
      match rentries, hrlen, hrchild, hrkey, hsize with
      | e :: e' :: rest, hrlen, hrchild, hrkey, _ =>
        have hrv : ValidEntries m (e :: e' :: rest) := ⟨hrchild, hrkey⟩
        obtain ⟨he, hrest⟩ := validEntries_cons.mp hrv
        have hlv : ValidEntries m (entries ++ [e]) :=
          validEntries_append.mpr ⟨⟨hchild, hkey⟩, validEntries_cons.mpr ⟨he, validEntries_nil⟩⟩
        refine ⟨_, _, e.2.toList, rfl, ⟨hlv.valid ?_, ?_⟩, ⟨hrest.valid ?_, ?_⟩, by simp, by simp, he.2⟩
        · rw [List.length_append]
          exact hroom
        · rw [toList_internal, ne_eq, hlv.entriesToList_eq_nil]
          simp
        · exact Nat.le_of_succ_le hrlen
        · rw [toList_internal, ne_eq, hrest.entriesToList_eq_nil]
          simp

omit [Std.TransCmp cmp] in
theorem roomRight_eq_none {e : K × BNode K} (he : Valid n e.2) (hkey : e.2.toList.getLast? = some e.1)
    (hge : B = [] ∨ (cmp e.1 key).isGE) : roomRight cmp key (A ++ e :: B) A.length e.2 = none := by
  unfold roomRight
  rw [he.maxKey, hkey, List.getElem?_append_right (by omega), Nat.add_sub_cancel_left]
  cases B with
  | nil => rfl
  | cons f B =>
    have hnot : cmp e.1 key ≠ .lt := by
      rcases hge with hge | hge
      · cases hge
      · intro hlt
        rw [hlt] at hge
        cases hge
    simp [hnot]

theorem shiftFull_spec {e : K × BNode K} (hA : ValidEntries n A) (he : Filled n e.2)
    (hkey : e.2.toList.getLast? = some e.1) (hs : Sorted cmp e.2.toList)
    (hlt : ∀ x ∈ entriesToList A, cmp x key = .lt) (hge : B = [] ∨ (cmp e.1 key).isGE) :
    ∃ A' child, shiftFull cmp key (A ++ e :: B) A.length e.2 = some (A' ++ e :: B, child) ∧ A'.length = A.length ∧
      ValidEntries n A' ∧ Filled n child ∧ entriesToList A' ++ child.toList = entriesToList A ++ e.2.toList ∧
      ∀ x ∈ entriesToList A', cmp x key = .lt := by
  have hkeep : ∃ A' child, some (A ++ e :: B, e.2) = some (A' ++ e :: B, child) ∧ A'.length = A.length ∧
      ValidEntries n A' ∧ Filled n child ∧ entriesToList A' ++ child.toList = entriesToList A ++ e.2.toList ∧
      ∀ x ∈ entriesToList A', cmp x key = .lt := ⟨A, e.2, rfl, rfl, hA, he, rfl, hlt⟩
  unfold shiftFull
  split
  · exact hkeep
  · next hfull =>
    rw [roomRight_eq_none he.1 hkey hge]
    rcases List.eq_nil_or_concat A with rfl | ⟨init, f, rfl⟩
    · exact hkeep
    · rw [List.concat_eq_append] at *
      have hroom : roomLeft cmp key (init ++ [f] ++ e :: B) (init ++ [f]).length e.2 =
          e.2.keys.head?.elim none fun first =>
            if f.2.size < MAX_NODE_SIZE ∧ cmp first key = .lt then some f.2 else none := by
        rw [List.length_append, List.length_singleton, roomLeft, List.append_assoc,
          List.getElem?_append_right le_rfl, Nat.sub_self]
        simp only [List.cons_append, List.getElem?_cons_zero]
        cases e.2.keys.head? <;> rfl
      rw [hroom]
      cases hhead : e.2.keys.head? with
      | none => exact hkeep
      | some first =>
        rw [Option.elim_some]
        split
        · next other hother =>
          split at hother
          · next hcond =>
            obtain rfl := Option.some.inj hother
            obtain ⟨hinit, hf⟩ := validEntries_append.mp hA
            obtain ⟨⟨hfv, -⟩, -⟩ := validEntries_cons.mp hf
            have hsize : 2 ≤ e.2.size := by
              unfold MAX_NODE_SIZE at hfull
              omega
            obtain ⟨other', child, moved, htake, ho, hc, hol, hcl, hmoved⟩ :=
              takeFromRight_spec hfv he.1 hcond.1 hsize
            obtain ⟨k, hentry, hk⟩ := ho.1.entry ho.2
            refine ⟨init ++ [(k, other')], child, ?_, by simp, ?_, hc, ?_, ?_⟩
            · simp only [htake, hentry, Option.bind_eq_bind, Option.bind_some, Option.pure_def,
                List.length_append, List.length_singleton, Nat.add_sub_cancel, List.append_assoc, List.singleton_append,
                set_length_append]
            · exact validEntries_append.mpr ⟨hinit, validEntries_cons.mpr ⟨⟨ho.1, hk⟩, validEntries_nil⟩⟩
            · simp [hol, ← hcl]
            · intro x hx
              simp only [entriesToList_append, entriesToList_cons, hol, entriesToList_nil, List.append_nil,
                List.mem_append] at hx
              rcases hx with hx | hx | hx
              · exact hlt x (by simp [hx])
              · exact hlt x (by simp [hx])
              · have hsorted : Sorted cmp moved := by
                  rw [← hcl] at hs
                  exact (sorted_append.mp hs).1
                exact Std.TransCmp.lt_of_isLE_of_lt (hsorted.isLE_getLast (hmoved.trans hhead) hx) hcond.2
          · cases hother
        · exact hkeep

omit [Std.TransCmp cmp] in
theorem ValidEntries.filled (h : ValidEntries n entries) (hlen : entries.length ≤ MAX_NODE_SIZE) (hne : entries ≠ []) :
    Filled (n + 1) (internal entries) :=
  ⟨h.valid hlen, by rwa [toList_internal, ne_eq, h.entriesToList_eq_nil]⟩

omit [Std.TransCmp cmp] in
theorem filled_split {left right : List (K × BNode K)} (h : ValidEntries n (left ++ right))
    (hlen : (left ++ right).length = MAX_NODE_SIZE + 1) (hhalf : left.length = 16 ∨ right.length = 16) :
    Filled (n + 1) (internal left) ∧ Filled (n + 1) (internal right) := by
  obtain ⟨hl, hr⟩ := validEntries_append.mp h
  rw [List.length_append, MAX_NODE_SIZE] at hlen
  have hne {l : List (K × BNode K)} (h : 0 < l.length) : l ≠ [] := List.length_pos_iff.mp h
  exact ⟨hl.filled (by unfold MAX_NODE_SIZE; omega) (hne (by omega)),
    hr.filled (by unfold MAX_NODE_SIZE; omega) (hne (by omega))⟩

theorem half_of_max {e s : K × BNode K} {m : K} (hB : ValidEntries n B) (hs : s.1 ∈ s.2.toList)
    (hsorted : Sorted cmp (entriesToList A ++ (e.2.toList ++ (s.2.toList ++ entriesToList B))))
    (hlen : (A ++ e :: B).length = MAX_NODE_SIZE)
    (hm : (entriesToList ((A ++ e :: B).take 16)).getLast? = some m) :
    if cmp s.1 m = .gt then 16 ≤ A.length + 1 else A.length + 1 ≤ 16 := by
  have hlen : A.length + (B.length + 1) = 32 := by simpa [MAX_NODE_SIZE] using hlen
  rw [sorted_append, sorted_append, sorted_append] at hsorted
  obtain ⟨-, ⟨-, ⟨-, -, hsB⟩, -⟩, hAall⟩ := hsorted
  split
  · next hgt =>
    by_contra hlt
    -- The left half ends with an entry after the sibling.
    obtain ⟨j, hj⟩ : ∃ j, 16 - A.length = j + 2 := ⟨16 - A.length - 2, by omega⟩
    have htake : (A ++ e :: B).take 16 = A ++ e :: B.take (j + 1) := by
      rw [List.take_append, List.take_of_length_le (by omega), hj, List.take_succ_cons]
    have hBtake : ValidEntries n (B.take (j + 1)) := hB.sublist fun e he => List.mem_of_mem_take he
    have hne : entriesToList (B.take (j + 1)) ≠ [] := by
      rw [ne_eq, hBtake.entriesToList_eq_nil]
      intro hnil
      have hl := congrArg List.length hnil
      rw [List.length_take, List.length_nil] at hl
      omega
    rw [htake, entriesToList_append, entriesToList_cons, List.getLast?_append, List.getLast?_append] at hm
    cases hlast : (entriesToList (B.take (j + 1))).getLast? with
    | none => exact hne (List.getLast?_eq_none_iff.mp hlast)
    | some m' =>
      rw [hlast] at hm
      obtain rfl : m' = m := by simpa using hm
      have hmem : m' ∈ entriesToList B := by
        rw [← List.take_append_drop (j + 1) B, entriesToList_append]
        exact List.mem_append_left _ (List.mem_of_getLast? hlast)
      rw [hsB _ hs m' hmem] at hgt
      cases hgt
  · next hgt =>
    by_contra hlt
    -- The left half ends with an entry before the sibling.
    have htake : (A ++ e :: B).take 16 = A.take 16 := List.take_append_of_le_length (by omega)
    rw [htake] at hm
    have hmem : m ∈ entriesToList A := by
      rw [← List.take_append_drop 16 A, entriesToList_append]
      exact List.mem_append_left _ (List.mem_of_getLast? hm)
    exact hgt (Std.OrientedCmp.gt_of_lt (hAall m hmem s.1 (by simp [hs])))

/-- `insertSibling` puts what `set` made of a child in its place. -/
theorem insertSibling_spec {e : K × BNode K} {r : SetResult K} {l : List K} (hA : ValidEntries n A)
    (hB : ValidEntries n B) (hlen : (A ++ e :: B).length ≤ MAX_NODE_SIZE) (hr : Sets cmp key n l r)
    (hs : Sorted cmp (entriesToList A ++ (r.toList ++ entriesToList B))) :
    ∃ r', insertSibling cmp (A ++ e :: B) A.length r = some r' ∧ r'.added = r.added ∧ Filled (n + 1) r'.node ∧
      (∀ s, r'.sibling = some s → Filled (n + 1) s) ∧
      r'.toList = entriesToList A ++ (r.toList ++ entriesToList B) := by
  obtain ⟨k, hentry, hk⟩ := hr.node.1.entry hr.node.2
  unfold insertSibling
  simp only [hentry, Option.bind_eq_bind, Option.bind_some, set_length_append]
  cases hsib : r.sibling with
  | none =>
    have hv : ValidEntries n (A ++ (k, r.node) :: B) :=
      validEntries_append.mpr ⟨hA, validEntries_cons.mpr ⟨⟨hr.node.1, hk⟩, hB⟩⟩
    refine ⟨_, rfl, rfl, hv.filled (by simpa using hlen) (by simp), by simp, ?_⟩
    simp [SetResult.toList, hsib]
  | some s =>
    obtain ⟨hsv, hsne⟩ := hr.sibling s hsib
    obtain ⟨k', hsentry, hk'⟩ := hsv.entry hsne
    have hv : ValidEntries n (A ++ (k, r.node) :: (k', s) :: B) := validEntries_append.mpr
      ⟨hA, validEntries_cons.mpr ⟨⟨hr.node.1, hk⟩, validEntries_cons.mpr ⟨⟨hsv, hk'⟩, hB⟩⟩⟩
    have hinsert : (A ++ (k, r.node) :: B).insertIdx (A.length + 1) (k', s) =
        A ++ (k, r.node) :: (k', s) :: B := by
      have h := insertIdx_length_append (A ++ [(k, r.node)]) (k', s) B
      simpa using h
    have hlist : entriesToList (A ++ (k, r.node) :: (k', s) :: B) =
        entriesToList A ++ (r.toList ++ entriesToList B) := by
      simp [SetResult.toList, hsib]
    simp only [hsentry, Option.bind_some]
    split
    · next hroom =>
      rw [hinsert]
      refine ⟨_, rfl, rfl, hv.filled ?_ (by simp), by simp, ?_⟩
      · simp only [List.length_append, List.length_cons] at hroom ⊢
        omega
      · simpa [SetResult.toList] using hlist
    · next hfull =>
      have hfull : (A ++ (k, r.node) :: B).length = MAX_NODE_SIZE := by
        refine le_antisymm ?_ (not_lt.mp hfull)
        simpa using hlen
      have hhalf : (A ++ (k, r.node) :: B).length / 2 = 16 := by rw [hfull]; rfl
      have hle : 16 ≤ (A ++ (k, r.node) :: B).length := by rw [hfull]; decide
      have hleft : ((A ++ (k, r.node) :: B).take 16).length = 16 := List.length_take_of_le hle
      have hright : ((A ++ (k, r.node) :: B).drop 16).length = 16 := by rw [List.length_drop, hfull]; rfl
      have hcount : (A ++ (k, r.node) :: (k', s) :: B).length = MAX_NODE_SIZE + 1 := by
        rw [← hfull]
        simp only [List.length_append, List.length_cons]
        omega
      have hv' : ValidEntries n (A ++ (k, r.node) :: B) :=
        validEntries_append.mpr ⟨hA, validEntries_cons.mpr ⟨⟨hr.node.1, hk⟩, hB⟩⟩
      have hlv : ValidEntries n ((A ++ (k, r.node) :: B).take 16) := hv'.sublist fun e he => List.mem_of_mem_take he
      have hlf : Filled (n + 1) (internal ((A ++ (k, r.node) :: B).take 16)) := by
        refine hlv.filled (by rw [hleft]; decide) ?_
        rw [ne_eq, ← List.length_eq_zero_iff, hleft]
        decide
      obtain ⟨m, -, hm⟩ := hlf.1.entry hlf.2
      have hmax : (internal ((A ++ (k, r.node) :: B).take 16)).maxKey = some m := hlf.1.maxKey.trans hm
      rw [toList_internal] at hm
      have hside := half_of_max (e := (k, r.node)) (s := (k', s)) hB (List.mem_of_getLast? hk')
        (by rw [← hlist] at hs; simpa using hs) hfull hm
      obtain ⟨hl, hr'⟩ := half_insert (A ++ (k, r.node) :: B) 16 (A.length + 1) (k', s) hle
      rw [hinsert] at hl hr'
      simp only [hhalf, hmax, hleft, Option.bind_some]
      split
      · next hgt =>
        rw [if_pos hgt] at hside
        have heq := hr' hside
        rw [← heq] at hv hcount
        obtain ⟨hnode, hsibling⟩ := filled_split hv hcount (.inl hleft)
        refine ⟨_, rfl, rfl, hnode, fun s' hs' => Option.some.inj hs' ▸ hsibling, ?_⟩
        rw [← hlist, ← heq]
        simp [SetResult.toList]
      · next hgt =>
        rw [if_neg hgt] at hside
        have heq := hl hside
        rw [← heq] at hv hcount
        obtain ⟨hnode, hsibling⟩ := filled_split hv hcount (.inr hright)
        refine ⟨_, rfl, rfl, hnode, fun s' hs' => Option.some.inj hs' ▸ hsibling, ?_⟩
        rw [← hlist, ← heq]
        simp [SetResult.toList]

/-- The child that `set` goes on with. -/
theorem ValidEntries.setRoute (h : ValidEntries n entries) (hs : Sorted cmp (entriesToList entries))
    (hne : entries ≠ []) (key : K) : ∃ A e B, entries = A ++ e :: B ∧
      min (indexOf cmp key (entryKeys entries)).index (entries.length - 1) = A.length ∧
      (∀ x ∈ entriesToList A, cmp x key = .lt) ∧ (B = [] ∨ (cmp e.1 key).isGE) ∧
      ∀ x ∈ entriesToList B, cmp x key = .gt := by
  rcases h.route hs key with ⟨hindex, hlt⟩ | ⟨A, e, B, rfl, hindex, hlt, hge, hgt⟩
  · -- The key comes after all; it belongs to the last child.
    obtain ⟨A, e, rfl⟩ := (List.eq_nil_or_concat entries).resolve_left hne
    rw [List.concat_eq_append] at hlt hindex ⊢
    refine ⟨A, e, [], rfl, ?_, fun x hx => hlt x (by simp [hx]), .inl rfl, by simp⟩
    rw [hindex]
    simp
  · refine ⟨A, e, B, rfl, ?_, hlt, .inr hge, hgt⟩
    rw [hindex]
    simp

omit [Std.TransCmp cmp] in
theorem set_internal {e : K × BNode K}
    (hindex : min (indexOf cmp key (entryKeys (A ++ e :: B))).index ((A ++ e :: B).length - 1) = A.length) :
    (internal (A ++ e :: B)).set cmp key = (shiftFull cmp key (A ++ e :: B) A.length e.2).bind fun shifted =>
      (shifted.2.set cmp key).bind (insertSibling cmp shifted.1 A.length) := by
  have hlt : min (indexOf cmp key (entryKeys (A ++ e :: B))).index ((A ++ e :: B).length - 1) <
      (A ++ e :: B).length := by
    rw [hindex]
    simp
  have hget := getElem_length_append hindex hlt
  rw [BNode.set, dif_pos hlt]
  split
  · next hs =>
    rw [hget, hindex] at hs
    rw [hs]
    rfl
  · next hs =>
    rw [hget, hindex] at hs
    rw [hs, hindex]
    rfl

/-- **`set`** puts the key in its place. -/
theorem set_spec (h : Valid n node) (hne : n = 0 ∨ node.toList ≠ []) (hs : Sorted cmp node.toList) (key : K) :
    ∃ r, node.set cmp key = some r ∧ Sets cmp key n node.toList r := by
  induction n generalizing node with
  | zero =>
    cases h with
    | leaf hlen =>
      rw [BNode.set, toList_leaf]
      exact ⟨_, rfl, setLeaf_spec (by simpa using hs) hlen key⟩
  | succ n ih =>
    cases h with
    | @internal _ entries hlen hchild hkey =>
      have hv : ValidEntries n entries := ⟨hchild, hkey⟩
      rw [toList_internal] at hs hne ⊢
      have hne : entries ≠ [] := by simpa [hv.entriesToList_eq_nil] using hne
      obtain ⟨A, e, B, rfl, hindex, hlt, hge, hgt⟩ := hv.setRoute hs hne key
      obtain ⟨hA, heB⟩ := validEntries_append.mp hv
      obtain ⟨⟨he, hek⟩, hB⟩ := validEntries_cons.mp heB
      have hef : Filled n e.2 := ⟨he, fun hnil => by rw [hnil] at hek; cases hek⟩
      have hsplit : entriesToList (A ++ e :: B) = entriesToList A ++ (e.2.toList ++ entriesToList B) := by simp
      rw [hsplit] at hs ⊢
      obtain ⟨-, hse, -⟩ := sorted_append.mp hs
      obtain ⟨A', child, hshift, hlenA, hA', hc, hkeys, hlt'⟩ :=
        shiftFull_spec hA hef hek (sorted_append.mp hse).1 hlt hge
      have hkeys' : entriesToList A ++ (e.2.toList ++ entriesToList B) =
          entriesToList A' ++ (child.toList ++ entriesToList B) := by
        rw [← List.append_assoc, ← hkeys, List.append_assoc]
      rw [hkeys'] at hs ⊢
      obtain ⟨r, hset, hr⟩ := ih hc.1 (.inr hc.2) (sorted_append.mp (sorted_append.mp hs).2.1).1
      have hresult : insertKey cmp key (entriesToList A' ++ (child.toList ++ entriesToList B)) =
          entriesToList A' ++ (r.toList ++ entriesToList B) := by
        rw [insertKey_within hlt' hgt, hr.toList]
      obtain ⟨r', hins, hadded, hnode, hsib, hlist⟩ := insertSibling_spec (e := e) hA' hB
        (by simpa [hlenA] using hlen) hr (hresult ▸ hs.insertKey key)
      refine ⟨r', ?_, hnode, hsib, hlist.trans hresult.symm, ?_⟩
      · rw [set_internal hindex, hshift, Option.bind_some, hset, Option.bind_some, ← hlenA]
        exact hins
      · rw [hlist, hadded]
        have hcount := hr.count
        simp only [List.length_append]
        omega

end

end BNode

end ZeroSync
