/-
Runs of operations on a `BTreeSet`: the tree holds what a plain set under the
same operations holds (`run_holds`), whatever order they come in.

A key compares equal to at most one key of the set; adding it replaces that
one.
-/
import ZeroSync.BTreeDelete
import ZeroSync.BTreeIterators
import Mathlib.Data.Set.Card

namespace ZeroSync

open BinarySearch SortedList BNode BTreeIterator

/-! ## A plain set -/

section
variable {K : Type} (cmp : K → K → Ordering)

/-- The set with a key, in place of one that compares equal to it. -/
def plainAdd (S : Set K) (key : K) : Set K := {x | x = key ∨ (x ∈ S ∧ cmp x key ≠ .eq)}

/-- The set without what compares equal to the key. -/
def plainDelete (S : Set K) (key : K) : Set K := {x | x ∈ S ∧ cmp x key ≠ .eq}

/-- At or after the bound; after it when it is not inclusive. -/
def fromBound (bound : Option K) (inclusive : Bool) (x : K) : Prop :=
  ∀ key, bound = some key → cmp x key = .gt ∨ (inclusive = true ∧ cmp x key = .eq)

/-- At or before the bound; before it when it is not inclusive. -/
def toBound (bound : Option K) (inclusive : Bool) (x : K) : Prop :=
  ∀ key, bound = some key → cmp x key = .lt ∨ (inclusive = true ∧ cmp x key = .eq)

end

/-- The tree is well formed and holds the set. -/
structure BTreeSet.Holds {K : Type} (cmp : K → K → Ordering) (t : BTreeSet K) (S : Set K) : Prop where
  level : ∃ n, Valid n t.root ∧ (n = 0 ∨ t.root.toList ≠ [])
  sorted : Sorted cmp t.root.toList
  mem : ∀ key, key ∈ t.root.toList ↔ key ∈ S
  size : t.size = t.root.toList.length

namespace BTreeSet

variable {K : Type} {cmp : K → K → Ordering} {S : Set K} {t : BTreeSet K} {n : ℕ}

theorem holds_empty : Holds cmp (empty : BTreeSet K) ∅ where
  level := ⟨0, .leaf (Nat.zero_le _), .inl rfl⟩
  sorted := by simp [empty]
  mem key := by simp [empty]
  size := by simp [empty]

section
variable [Std.TransCmp cmp]

/-! ## `add` and `delete` -/

/-- **`add`** adds to the set. -/
theorem Holds.add (h : t.Holds cmp S) (key : K) :
    ∃ t', t.add cmp key = some t' ∧ t'.Holds cmp (plainAdd cmp S key) := by
  obtain ⟨n, hv, hne⟩ := h.level
  obtain ⟨r, hset, hr⟩ := set_spec hv hne h.sorted key
  have hsize : (if r.added then t.size + 1 else t.size) = r.toList.length := by
    rw [hr.count, h.size]
    split <;> simp
  have hmem (x : K) : x ∈ r.toList ↔ x ∈ plainAdd cmp S key := by
    rw [hr.toList, mem_insertKey, h.mem]
    rfl
  have hsorted : Sorted cmp r.toList := by
    rw [hr.toList]
    exact h.sorted.insertKey key
  unfold BTreeSet.add
  rw [hset, Option.bind_eq_bind, Option.bind_some]
  cases hsib : r.sibling with
  | none =>
    have hlist : r.node.toList = r.toList := by simp [SetResult.toList, hsib]
    exact ⟨_, rfl, ⟨n, hr.node.1, .inr hr.node.2⟩, by rwa [hlist], fun x => by rw [hlist, hmem], by rw [hlist, hsize]⟩
  | some s =>
    obtain ⟨hsv, hsne⟩ := hr.sibling s hsib
    obtain ⟨k, hentry, hk⟩ := hr.node.1.entry hr.node.2
    obtain ⟨k', hentry', hk'⟩ := hsv.entry hsne
    have hlist : (BNode.internal [(k, r.node), (k', s)]).toList = r.toList := by simp [SetResult.toList, hsib]
    have hroot : ValidEntries n [(k, r.node), (k', s)] :=
      validEntries_cons.mpr ⟨⟨hr.node.1, hk⟩, validEntries_cons.mpr ⟨⟨hsv, hk'⟩, validEntries_nil⟩⟩
    simp only [hentry, hentry', Option.bind_eq_bind, Option.bind_some, Option.pure_def]
    refine ⟨_, rfl, ⟨n + 1, hroot.valid (by unfold MAX_NODE_SIZE; simp), .inr ?_⟩, ?_, fun x => ?_, ?_⟩
    · rw [toList_internal, ne_eq, hroot.entriesToList_eq_nil]
      simp
    · rwa [hlist]
    · rw [hlist, hmem]
    · rw [hlist, hsize]

omit [Std.TransCmp cmp] in
theorem collapse_spec {node : BNode K} (h : Valid n node) :
    ∃ m, Valid m (collapse node) ∧ (m = 0 ∨ (collapse node).toList ≠ []) ∧ (collapse node).toList = node.toList := by
  induction n generalizing node with
  | zero =>
    cases h with
    | leaf hlen => exact ⟨0, .leaf hlen, .inl rfl, rfl⟩
  | succ n ih =>
    cases h with
    | @internal _ entries hlen hchild hkey =>
      match entries with
      | [] => exact ⟨0, .leaf (Nat.zero_le _), .inl rfl, by simp [collapse]⟩
      | [(k, child)] =>
        obtain ⟨m, hm, hne, hlist⟩ := ih (hchild (k, child) (by simp))
        rw [collapse]
        exact ⟨m, hm, hne, by simp [hlist]⟩
      | e :: e' :: entries =>
        have hv : ValidEntries n (e :: e' :: entries) := ⟨hchild, hkey⟩
        refine ⟨n + 1, hv.valid hlen, .inr ?_, rfl⟩
        show (BNode.internal (e :: e' :: entries)).toList ≠ []
        rw [toList_internal, ne_eq, hv.entriesToList_eq_nil]
        simp

/-- **`delete`** deletes from the set, and says whether the key was there. -/
theorem Holds.delete (h : t.Holds cmp S) (key : K) :
    ∃ t' deleted, t.delete cmp key = some (t', deleted) ∧ t'.Holds cmp (plainDelete cmp S key) ∧
      (deleted = true ↔ ∃ x ∈ S, cmp x key = .eq) := by
  obtain ⟨n, hv, -⟩ := h.level
  obtain ⟨node, deleted, hdel, hd⟩ := delete_spec hv h.sorted key
  obtain ⟨m, hm, hne, hlist⟩ := collapse_spec hd.valid
  unfold BTreeSet.delete
  rw [hdel, Option.bind_eq_bind, Option.bind_some]
  refine ⟨_, _, rfl, ⟨⟨m, hm, hne⟩, ?_, fun x => ?_, ?_⟩, ?_⟩
  · rw [hlist, hd.toList]
    exact h.sorted.eraseKey key
  · rw [hlist, hd.toList, mem_eraseKey, h.mem]
    rfl
  · rw [hlist, h.size, ← hd.count]
    split <;> simp
  · rw [hd.deleted]
    simp only [h.mem]

/-- **`get`** and **`has`** look up the set. -/
theorem Holds.get_iff (h : t.Holds cmp S) (key x : K) : t.get cmp key = some x ↔ x ∈ S ∧ cmp x key = .eq := by
  obtain ⟨n, hv, -⟩ := h.level
  rw [BTreeSet.get, get_spec hv h.sorted, h.mem]

theorem Holds.has_iff (h : t.Holds cmp S) (key : K) : t.has cmp key = true ↔ ∃ x ∈ S, cmp x key = .eq := by
  obtain ⟨n, hv, -⟩ := h.level
  rw [BTreeSet.has, has_eq hv h.sorted, Option.isSome_iff_exists]
  exact exists_congr fun x => h.get_iff key x

theorem holds_new (entries : List K) :
    ∃ t, new cmp entries = some t ∧ t.Holds cmp (entries.foldl (plainAdd cmp) ∅) := by
  have hloop : ∀ (t : BTreeSet K) (S : Set K), t.Holds cmp S →
      ∃ t', entries.foldlM (BTreeSet.add cmp) t = some t' ∧ t'.Holds cmp (entries.foldl (plainAdd cmp) S) := by
    induction entries with
    | nil => exact fun t S h => ⟨t, rfl, h⟩
    | cons key entries ih =>
      intro t S h
      obtain ⟨t₁, hadd, h₁⟩ := h.add key
      obtain ⟨t', hrest, h'⟩ := ih t₁ _ h₁
      exact ⟨t', by rw [List.foldlM_cons, hadd]; exact hrest, h'⟩
  exact hloop empty ∅ holds_empty

/-! ## `fromSorted` -/

end

/-- The leaves so far, all full, and the keys of the next one. -/
structure Pushed (processed : List K) (s : List (List K) × List K) : Prop where
  full : ∀ keys ∈ s.1, keys.length = MAX_NODE_SIZE
  room : s.2.length < MAX_NODE_SIZE
  keys : s.1.flatten ++ s.2 = processed

theorem Pushed.pushKey {processed : List K} {s : List (List K) × List K} (h : Pushed processed s) (key : K) :
    Pushed (processed ++ [key]) (BTreeSet.pushKey s key) := by
  have hroom := h.room
  unfold BTreeSet.pushKey
  simp only [List.length_append, List.length_singleton]
  split
  · next hfull =>
    refine ⟨fun keys hk => ?_, Nat.zero_lt_succ _, by simp [← h.keys]⟩
    rcases List.mem_append.mp hk with hk | hk
    · exact h.full keys hk
    · rw [List.mem_singleton.mp hk, List.length_append, List.length_singleton, hfull]
  · next hfull =>
    refine ⟨h.full, ?_, by simp [← h.keys]⟩
    simp only [List.length_append, List.length_singleton]
    omega

theorem leaves_spec (entries : List K) :
    (∀ leaf ∈ leaves entries, Filled 0 leaf) ∧ (leaves entries).flatMap BNode.toList = entries := by
  have hpushed : Pushed entries (entries.foldl BTreeSet.pushKey ([], [])) := by
    have hloop : ∀ (rest processed : List K) (s : List (List K) × List K), Pushed processed s →
        Pushed (processed ++ rest) (rest.foldl BTreeSet.pushKey s) := by
      intro rest
      induction rest with
      | nil => exact fun processed s h => by rwa [List.append_nil]
      | cons key rest ih =>
        intro processed s h
        have h' := ih _ _ (h.pushKey key)
        rwa [List.append_assoc, List.singleton_append] at h'
    exact hloop entries [] ([], []) ⟨by simp, Nat.zero_lt_succ _, rfl⟩
  have hfull : ∀ keys ∈ (entries.foldl BTreeSet.pushKey ([], [])).1, Filled 0 (BNode.leaf keys) := by
    intro keys hk
    have hlen := hpushed.full keys hk
    refine filled_leaf hlen.le fun hnil => ?_
    rw [hnil] at hlen
    cases hlen
  have hflat (l : List (List K)) : (l.map BNode.leaf).flatMap BNode.toList = l.flatten := by
    induction l with
    | nil => rfl
    | cons keys l ih => rw [List.map_cons, List.flatMap_cons, ih, toList_leaf, List.flatten_cons]
  unfold leaves
  simp only
  split
  · next hrest =>
    refine ⟨fun leaf hl => ?_, ?_⟩
    · obtain ⟨keys, hk, rfl⟩ := List.mem_map.mp hl
      rcases List.mem_append.mp hk with hk | hk
      · exact hfull keys hk
      · rw [List.mem_singleton.mp hk]
        exact filled_leaf hpushed.room.le (List.length_pos_iff.mp hrest)
    · rw [hflat, List.flatten_append, List.flatten_singleton, hpushed.keys]
  · next hrest =>
    refine ⟨fun leaf hl => ?_, ?_⟩
    · obtain ⟨keys, hk, rfl⟩ := List.mem_map.mp hl
      exact hfull keys hk
    · have hnil : (entries.foldl BTreeSet.pushKey ([], [])).2 = [] := by
        rw [← List.length_eq_zero_iff]
        omega
      have hkeys := hpushed.keys
      rw [hnil, List.append_nil] at hkeys
      rw [hflat, hkeys]

theorem nextLevel_spec (level : List (BNode K)) (h : ∀ child ∈ level, Filled n child) :
    ∃ next, nextLevel level = some next ∧ (∀ node ∈ next, Filled (n + 1) node) ∧
      next.flatMap BNode.toList = level.flatMap BNode.toList ∧ next.length * 32 < level.length + 32 ∧
      (level ≠ [] → next ≠ []) := by
  induction hlen : level.length using Nat.strong_induction_on generalizing level with
  | _ len ih =>
    subst hlen
    rw [nextLevel]
    split
    · next hzero =>
      obtain rfl := List.length_eq_zero_iff.mp hzero
      exact ⟨[], rfl, by simp, rfl, by simp, fun hne => hne⟩
    · next hpos =>
      have hdrop : (level.drop MAX_NODE_SIZE).length = level.length - 32 := List.length_drop
      obtain ⟨rest, hrest, hfilled, hflat, hcount, -⟩ :=
        ih _ (by omega) (level.drop MAX_NODE_SIZE) (fun child hc => h child (List.mem_of_mem_drop hc)) rfl
      have hentries : ∀ children : List (BNode K), (∀ child ∈ children, Filled n child) →
          ∃ entries, children.mapM BNode.entry = some entries ∧ ValidEntries n entries ∧
            entriesToList entries = children.flatMap BNode.toList ∧ entries.length = children.length := by
        intro children hc
        induction children with
        | nil => exact ⟨[], rfl, validEntries_nil, rfl, rfl⟩
        | cons child children ih' =>
          obtain ⟨entries, hm, hv, hl, hlen⟩ := ih' fun c hmem => hc c (List.mem_cons_of_mem _ hmem)
          obtain ⟨hcv, hcne⟩ := hc child (List.mem_cons_self ..)
          obtain ⟨k, hentry, hk⟩ := hcv.entry hcne
          refine ⟨(k, child) :: entries, ?_, validEntries_cons.mpr ⟨⟨hcv, hk⟩, hv⟩, ?_, ?_⟩
          · rw [List.mapM_cons, hentry, hm]
            rfl
          · rw [entriesToList_cons, hl, List.flatMap_cons]
          · rw [List.length_cons, hlen, List.length_cons]
      obtain ⟨entries, hm, hv, hl, hlen⟩ :=
        hentries (level.take MAX_NODE_SIZE) fun child hc => h child (List.mem_of_mem_take hc)
      have hne : entries ≠ [] := by
        rw [ne_eq, ← List.length_eq_zero_iff, hlen, List.length_take]
        unfold MAX_NODE_SIZE
        omega
      refine ⟨.internal entries :: rest, ?_, fun node hnode => ?_, ?_, ?_, fun _ => List.cons_ne_nil _ _⟩
      · rw [hm, hrest]
        rfl
      · rcases List.mem_cons.mp hnode with rfl | hnode
        · exact hv.filled (by rw [hlen, List.length_take]; exact Nat.min_le_left ..) hne
        · exact hfilled node hnode
      · rw [List.flatMap_cons, toList_internal, hl, hflat, ← List.flatMap_append, List.take_append_drop]
      · rw [List.length_cons]
        omega

theorem buildRoot_spec (fuel : ℕ) {level : List (BNode K)} (h : ∀ child ∈ level, Filled n child) (hne : level ≠ [])
    (hfuel : level.length ≤ fuel + 1) : ∃ root m, buildRoot fuel level = some root ∧ Filled m root ∧
      root.toList = level.flatMap BNode.toList := by
  induction fuel generalizing n level with
  | zero =>
    obtain ⟨root, rfl⟩ : ∃ root, level = [root] := by
      refine List.length_eq_one_iff.mp (le_antisymm hfuel (List.length_pos_iff.mpr hne))
    exact ⟨root, n, rfl, h root (by simp), by simp⟩
  | succ fuel ih =>
    match level with
    | [] => exact absurd rfl hne
    | [root] => exact ⟨root, n, rfl, h root (by simp), by simp⟩
    | child :: child' :: level =>
      obtain ⟨next, hnext, hfilled, hflat, hcount, hnne⟩ := nextLevel_spec (child :: child' :: level) h
      rw [List.length_cons, List.length_cons] at hcount hfuel
      obtain ⟨root, m, hroot, hrf, hrl⟩ := ih hfilled (hnne (by simp)) (by omega)
      refine ⟨root, m, ?_, hrf, hrl.trans hflat⟩
      rw [buildRoot, hnext]
      · exact hroot
      · simp

/-- **`fromSorted`** holds the keys of a sorted list. -/
theorem holds_fromSorted {entries : List K} (hs : Sorted cmp entries) :
    ∃ t, fromSorted entries = some t ∧ t.Holds cmp {x | x ∈ entries} := by
  obtain ⟨hfilled, hflat⟩ := leaves_spec entries
  unfold fromSorted
  split
  · next hzero =>
    rw [List.length_eq_zero_iff.mp hzero] at hflat
    obtain rfl : entries = [] := hflat.symm
    refine ⟨empty, rfl, ?_⟩
    have h : {x : K | x ∈ ([] : List K)} = ∅ := by simp
    rw [h]
    exact holds_empty
  · next hne =>
    have hle : (leaves entries).length ≤ entries.length := by
      have hcount : ∀ l : List (BNode K), (∀ leaf ∈ l, Filled 0 leaf) →
          l.length ≤ (l.flatMap BNode.toList).length := by
        intro l hl
        induction l with
        | nil => exact le_rfl
        | cons leaf l ih =>
          have hpos := List.length_pos_iff.mpr (hl leaf (List.mem_cons_self ..)).2
          have hrest := ih fun leaf hmem => hl leaf (List.mem_cons_of_mem _ hmem)
          rw [List.flatMap_cons, List.length_append, List.length_cons]
          omega
      have h := hcount _ hfilled
      rwa [hflat] at h
    obtain ⟨root, m, hroot, hrf, hrl⟩ :=
      buildRoot_spec entries.length hfilled (fun hnil => hne (by rw [hnil]; rfl)) (by omega)
    rw [hroot]
    rw [hflat] at hrl
    exact ⟨_, rfl, ⟨m, hrf.1, .inr hrf.2⟩, by rwa [hrl], fun x => by rw [hrl]; rfl, by rw [hrl]⟩

/-! ## Iterating -/

/-- A comparison with the bound that `valuesFrom` lets through. -/
def passesFrom (inclusive : Bool) (o : Ordering) : Bool := o = .gt || (inclusive && o = .eq)

/-- A comparison with the bound that `valuesFromReversed` lets through. -/
def passesTo (inclusive : Bool) (o : Ordering) : Bool := o = .lt || (inclusive && o = .eq)

section
variable [Std.TransCmp cmp]

/-- **`valuesFrom`** yields the keys of the set from the bound on. -/
theorem Holds.valuesFrom (h : t.Holds cmp S) (bound : Option K) (inclusive : Bool) :
    ∃ l, Yields forward (t.valuesFrom cmp bound inclusive) l ∧ Sorted cmp l ∧
      ∀ x, x ∈ l ↔ x ∈ S ∧ fromBound cmp bound inclusive x := by
  obtain ⟨n, hv, hne⟩ := h.level
  have hpath : Path n ([] : List (List (BNode K) × ℕ)) := trivial
  unfold BTreeSet.valuesFrom
  rcases findPath_spec hv hne h.sorted hpath bound with ⟨hnone, k, rfl, hlt⟩ | ⟨levels, leaf, a, b, hsome, hleads⟩
  · refine ⟨[], by rw [hnone]; exact .done rfl, .nil, fun x => ⟨fun hx => (List.not_mem_nil hx).elim, ?_⟩⟩
    rintro ⟨hx, hb⟩
    have hx := hlt x ((h.mem x).mpr hx)
    rcases hb k rfl with hb | ⟨-, hb⟩
    · rw [hx] at hb
      cases hb
    · rw [hx] at hb
      cases hb
  · have hafter : after levels = b := by rw [hleads.after]; simp [after]
    have hkeys : leaf.keys = leaf.toList := keys_of_valid hleads.valid
    have hsorted := h.sorted
    rw [hleads.toList] at hsorted
    rw [hsome]
    simp only
    cases bound with
    | none =>
      have hyields := yields_forward hleads.path (Nat.zero_le leaf.keys.length)
      rw [List.drop_zero, hafter, hkeys] at hyields
      have hlist : t.root.toList = leaf.toList ++ b := by rw [hleads.toList, hleads.first rfl, List.nil_append]
      refine ⟨_, hyields, hlist ▸ h.sorted, fun x => ?_⟩
      rw [← hlist, h.mem]
      exact ⟨fun hx => ⟨hx, fun k hk => (by cases hk)⟩, fun hx => hx.1⟩
    | some k =>
      have hsl : Sorted cmp leaf.keys := hkeys ▸ (sorted_append.mp (sorted_append.mp hsorted).2.1).1
      have hloc := indexOf_located hsl k
      dsimp only
      generalize indexOf cmp k leaf.keys = p at hloc ⊢
      have hskip : leaf.keys[p.index]?.any (fun x => decide (cmp x k = .eq)) = p.isFound :=
        hloc.getElem?_any (fun o => o = .eq) rfl rfl
      have hdrop := hloc.filter_drop (passesFrom inclusive) (by cases inclusive <;> rfl) rfl
      have hindex : (if (!inclusive && p.isFound) = true then p.index + 1 else p.index) =
          if (p.isFound && !passesFrom inclusive .eq) = true then p.index + 1 else p.index := by
        cases inclusive <;> cases p.isFound <;> rfl
      have hle : (if (!inclusive && p.isFound) = true then p.index + 1 else p.index) ≤ leaf.keys.length := by
        split
        · next hfound => exact hloc.lt_of_isFound (Bool.and_eq_true_iff.mp hfound).2
        · exact hloc.index_le
      have hyields := yields_forward hleads.path hle
      rw [hindex, ← hdrop, hafter, hkeys] at hyields
      simp only [hskip, hindex]
      refine ⟨_, hyields, ?_, fun x => ?_⟩
      · refine hsorted.sublist (List.Sublist.trans ?_ (List.sublist_append_right a _))
        exact List.filter_sublist.append (List.Sublist.refl b)
      · rw [← h.mem, hleads.toList]
        simp only [List.mem_append, List.mem_filter, fromBound, Option.some.injEq, forall_eq', passesFrom, Bool.or_eq_true,
          decide_eq_true_eq, Bool.and_eq_true]
        constructor
        · rintro (⟨hx, hpass⟩ | hx)
          · exact ⟨.inr (.inl hx), hpass⟩
          · exact ⟨.inr (.inr hx), .inl (hleads.gt k rfl x hx)⟩
        · rintro ⟨hx | hx | hx, hpass⟩
          · rw [hleads.lt k rfl x hx] at hpass
            simp at hpass
          · exact .inl ⟨hx, hpass⟩
          · exact .inr hx

/-- What `valuesFromReversed` yields from the key it goes by. -/
theorem Holds.yields_reversed (h : t.Holds cmp S) {bound : Option K} {key : K}
    (hkey : bound.or t.root.maxKey = some key) (inclusive : Bool) :
    ∃ it, t.valuesFromReversed cmp bound inclusive = some it ∧
      Yields backward it (t.root.toList.filter fun x => passesTo inclusive (cmp x key)).reverse := by
  obtain ⟨n, hv, hne⟩ := h.level
  have hpath : Path n ([] : List (List (BNode K) × ℕ)) := trivial
  -- A path to a leaf with nothing before the key after it, nothing after it before.
  obtain ⟨levels, leaf, b, hfind, hleaf, hlevels, hlist, hlt, hgt⟩ : ∃ levels leaf b,
      ((findPath cmp (some key) t.root []).or (findPath cmp t.root.maxKey t.root [])) = some (levels, leaf) ∧
      Valid 0 leaf ∧ Path 0 levels ∧ t.root.toList = before levels ++ (leaf.toList ++ b) ∧
      (∀ x ∈ before levels, cmp x key = .lt) ∧ ∀ x ∈ b, cmp x key = .gt := by
    rcases findPath_spec hv hne h.sorted hpath (some key) with
      ⟨hnone, k, hk, hlt⟩ | ⟨levels, leaf, a, b, hsome, hleads⟩
    · obtain rfl := Option.some.inj hk
      have hroot : t.root.toList ≠ [] := by
        rcases hne with rfl | hne
        · cases hroot : t.root with
          | leaf keys =>
            rw [hroot, findPath] at hnone
            cases hnone
          | internal entries =>
            rw [hroot] at hv
            cases hv
        · exact hne
      obtain ⟨m, -, hm⟩ := hv.entry hroot
      rw [hnone, hv.maxKey, hm, Option.none_or]
      rcases findPath_spec hv hne h.sorted hpath (some m) with
        ⟨-, m', hm', hlt'⟩ | ⟨levels, leaf, a, b, hsome, hleads⟩
      · obtain rfl := Option.some.inj hm'
        exact absurd (hlt' m (List.mem_of_getLast? hm)) lt_irrefl
      · have ha : before levels = a := by rw [hleads.before]; simp [before]
        refine ⟨levels, leaf, b, hsome, hleads.valid, hleads.path, ha ▸ hleads.toList, fun x hx => hlt x ?_,
          fun x hx => ?_⟩
        · rw [hleads.toList, ← ha]
          exact List.mem_append_left _ hx
        · have hle := h.sorted.isLE_getLast hm (by rw [hleads.toList]; simp [hx] : x ∈ t.root.toList)
          rw [hleads.gt m rfl x hx] at hle
          cases hle
    · have ha : before levels = a := by rw [hleads.before]; simp [before]
      rw [hsome, Option.some_or]
      exact ⟨levels, leaf, b, rfl, hleads.valid, hleads.path, ha ▸ hleads.toList, ha ▸ hleads.lt key rfl,
        hleads.gt key rfl⟩
  have hkeys : leaf.keys = leaf.toList := keys_of_valid hleaf
  have hsorted := h.sorted
  rw [hlist] at hsorted
  have hsl : Sorted cmp leaf.keys := hkeys ▸ (sorted_append.mp (sorted_append.mp hsorted).2.1).1
  unfold BTreeSet.valuesFromReversed
  rw [hkey]
  simp only [hfind, Option.bind_eq_bind, Option.bind_some, Option.pure_def]
  have hloc := indexOf_located hsl key
  generalize indexOf cmp key leaf.keys = p at hloc ⊢
  have hreached : leaf.keys[p.index]?.any (fun x => (cmp x key).isLE) = p.isFound :=
    hloc.getElem?_any (fun o => o.isLE) rfl rfl
  have htake := hloc.filter_take (passesTo inclusive) rfl (by cases inclusive <;> rfl)
  have hindex : (if (inclusive && p.isFound) = true then p.index + 1 else p.index) =
      if (p.isFound && passesTo inclusive .eq) = true then p.index + 1 else p.index := by
    cases inclusive <;> cases p.isFound <;> rfl
  have hle : (if (inclusive && p.isFound) = true then p.index + 1 else p.index) ≤ leaf.keys.length := by
    split
    · next hfound => exact hloc.lt_of_isFound (Bool.and_eq_true_iff.mp hfound).2
    · exact hloc.index_le
  have hyields := yields_backward hlevels hle
  rw [hindex, ← htake, hkeys] at hyields
  simp only [hreached, hindex]
  refine ⟨_, rfl, ?_⟩
  have ha : (before levels).filter (fun x => passesTo inclusive (cmp x key)) = before levels :=
    List.filter_eq_self.mpr fun x hx => by rw [hlt x hx]; rfl
  have hb : b.filter (fun x => passesTo inclusive (cmp x key)) = [] :=
    filter_within fun x hx => by rw [hgt x hx]; cases inclusive <;> rfl
  rw [hlist, List.filter_append, List.filter_append, ha, hb, List.append_nil, List.reverse_append]
  exact hyields

omit [Std.TransCmp cmp] in
theorem yields_det {next : BTreeIterator K → IteratorStep K} {it : BTreeIterator K} {l l' : List K}
    (h : Yields next it l) (h' : Yields next it l') : l = l' := by
  induction h generalizing l' with
  | done hd =>
    cases h' with
    | done _ => rfl
    | value hv _ => rw [hd] at hv; cases hv
    | next hn _ => rw [hd] at hn; cases hn
  | value hv _ ih =>
    cases h' with
    | done hd => rw [hv] at hd; cases hd
    | value hv' hrest =>
      rw [hv] at hv'
      obtain ⟨rfl, rfl⟩ := IteratorStep.value.inj hv'
      rw [ih hrest]
    | next hn _ => rw [hv] at hn; cases hn
  | next hn _ ih =>
    cases h' with
    | done hd => rw [hn] at hd; cases hd
    | value hv _ => rw [hn] at hv; cases hv
    | next hn' hrest =>
      rw [hn] at hn'
      obtain rfl := IteratorStep.next.inj hn'
      exact ih hrest

/-- The keys of the set up to the bound are yielded from the last to the first. -/
def YieldsReversed (cmp : K → K → Ordering) (t : BTreeSet K) (S : Set K) (bound : Option K) (inclusive : Bool) : Prop :=
  ∃ it l, t.valuesFromReversed cmp bound inclusive = some it ∧ Yields backward it l ∧
    Sorted (fun a b => cmp b a) l ∧ ∀ x, x ∈ l ↔ x ∈ S ∧ toBound cmp bound inclusive x

/-- **`valuesFromReversed`** yields the keys of the set up to the bound, but
for the last one when there is no bound and it is not inclusive. -/
theorem Holds.yieldsReversed_iff (h : t.Holds cmp S) (bound : Option K) (inclusive : Bool) :
    YieldsReversed cmp t S bound inclusive ↔ ¬(bound = none ∧ inclusive = false ∧ S.Nonempty) := by
  obtain ⟨n, hv, -⟩ := h.level
  have hsorted (p : K → Bool) : Sorted (fun a b => cmp b a) (t.root.toList.filter p).reverse :=
    Sorted.reverse (List.Pairwise.filter _ h.sorted)
  constructor
  · rintro ⟨it, l, hit, hyields, -, hmem⟩ ⟨rfl, rfl, x, hx⟩
    have hx := (h.mem x).mpr hx
    obtain ⟨m, -, hm⟩ := hv.entry (List.ne_nil_of_mem hx)
    have hkey : (none : Option K).or t.root.maxKey = some m := by rw [Option.none_or, hv.maxKey, hm]
    obtain ⟨it', hit', hyields'⟩ := h.yields_reversed hkey false
    obtain rfl := Option.some.inj (hit.symm.trans hit')
    have hml : m ∈ l := (hmem m).mpr ⟨(h.mem m).mp (List.mem_of_getLast? hm), fun k hk => nomatch hk⟩
    have hself : cmp m m = .eq := Std.ReflCmp.compare_self
    rw [yields_det hyields hyields', List.mem_reverse, List.mem_filter, hself] at hml
    exact absurd hml.2 (by decide)
  · intro hcond
    cases hkey : bound.or t.root.maxKey with
    | none =>
      obtain ⟨rfl, hmax⟩ := Option.or_eq_none_iff.mp hkey
      have hnil : t.root.toList = [] := by rw [← List.getLast?_eq_none_iff, ← hv.maxKey, hmax]
      refine ⟨.finished, [], ?_, .done rfl, .nil, fun x => ?_⟩
      · unfold BTreeSet.valuesFromReversed
        rw [hkey]
      · rw [← h.mem, hnil]
        simp
    | some key =>
      obtain ⟨it, hit, hyields⟩ := h.yields_reversed hkey inclusive
      refine ⟨it, _, hit, hyields, hsorted _, fun x => ?_⟩
      rw [List.mem_reverse, List.mem_filter, ← h.mem]
      refine and_congr_right fun hx => ?_
      cases bound with
      | some k =>
        obtain rfl := Option.some.inj hkey
        simp [toBound, passesTo]
      | none =>
        have hmax : t.root.toList.getLast? = some key := by rw [← hv.maxKey]; exact hkey
        have hle := h.sorted.isLE_getLast hmax hx
        have hinclusive : inclusive = true := by
          by_contra hne
          exact hcond ⟨rfl, Bool.not_eq_true _ ▸ hne, x, (h.mem x).mp hx⟩
        subst hinclusive
        refine ⟨(fun _ k hk => nomatch hk), fun _ => ?_⟩
        cases hx : cmp x key with
        | lt => rfl
        | eq => rfl
        | gt =>
          rw [hx] at hle
          cases hle

end

/-! ## Runs -/

/-- An operation; the constructors make a new tree. -/
inductive Operation (K : Type) where
  | new (entries : List K)
  | fromSorted (entries : List K)
  | add (key : K)
  | delete (key : K)

/-- The operation on the tree. -/
def Operation.run (cmp : K → K → Ordering) (t : BTreeSet K) : Operation K → Option (BTreeSet K)
  | new entries => BTreeSet.new cmp entries
  | fromSorted entries => BTreeSet.fromSorted entries
  | add key => t.add cmp key
  | delete key => (t.delete cmp key).map (·.1)

/-- The operation on a plain set. -/
def Operation.plain (cmp : K → K → Ordering) (S : Set K) : Operation K → Set K
  | new entries => entries.foldl (plainAdd cmp) ∅
  | fromSorted entries => {x | x ∈ entries}
  | add key => plainAdd cmp S key
  | delete key => plainDelete cmp S key

section
variable [Std.TransCmp cmp]

theorem Holds.run (h : t.Holds cmp S) (op : Operation K) (hop : ∀ entries, op = .fromSorted entries → Sorted cmp entries) :
    ∃ t', op.run cmp t = some t' ∧ t'.Holds cmp (op.plain cmp S) := by
  cases op with
  | new entries => exact holds_new entries
  | fromSorted entries => exact holds_fromSorted (hop entries rfl)
  | add key => exact h.add key
  | delete key =>
    obtain ⟨t', deleted, hdel, h', -⟩ := h.delete key
    exact ⟨t', by rw [Operation.run, hdel]; rfl, h'⟩

theorem runs_hold {ops : List (Operation K)} (hops : ∀ entries, .fromSorted entries ∈ ops → Sorted cmp entries)
    (h : t.Holds cmp S) : ∃ t', ops.foldlM (Operation.run cmp) t = some t' ∧
      t'.Holds cmp (ops.foldl (Operation.plain cmp) S) := by
  induction ops generalizing t S with
  | nil => exact ⟨t, rfl, h⟩
  | cons op ops ih =>
    obtain ⟨t₁, hrun, h₁⟩ := h.run op fun entries heq => hops entries (by simp [heq])
    obtain ⟨t', hrest, h'⟩ := ih (fun entries hmem => hops entries (List.mem_cons_of_mem _ hmem)) h₁
    exact ⟨t', by rw [List.foldlM_cons, hrun]; exact hrest, h'⟩

/-- **A tree holds what a plain set holds** after the same operations, and its
iterators yield the keys from or up to a bound; backward without a bound and
not inclusive, they leave out the last one. -/
theorem run_holds (ops : List (Operation K)) (hops : ∀ entries, .fromSorted entries ∈ ops → Sorted cmp entries) :
    ∃ t, ops.foldlM (Operation.run cmp) empty = some t ∧
      t.Holds cmp (ops.foldl (Operation.plain cmp) ∅) ∧
      (∀ key, ∃ t' deleted, t.delete cmp key = some (t', deleted) ∧
        (deleted = true ↔ ∃ x ∈ ops.foldl (Operation.plain cmp) ∅, cmp x key = .eq)) ∧
      (∀ bound inclusive, ∃ l, Yields forward (t.valuesFrom cmp bound inclusive) l ∧ Sorted cmp l ∧
        ∀ x, x ∈ l ↔ x ∈ ops.foldl (Operation.plain cmp) ∅ ∧ fromBound cmp bound inclusive x) ∧
      ∀ bound inclusive, YieldsReversed cmp t (ops.foldl (Operation.plain cmp) ∅) bound inclusive ↔
        ¬(bound = none ∧ inclusive = false ∧ (ops.foldl (Operation.plain cmp) ∅).Nonempty) := by
  have hempty : Holds cmp (empty : BTreeSet K) ∅ := holds_empty
  obtain ⟨t, hrun, h⟩ := runs_hold hops hempty
  refine ⟨t, hrun, h, fun key => ?_, h.valuesFrom, h.yieldsReversed_iff⟩
  obtain ⟨t', deleted, hdel, -, hdeleted⟩ := h.delete key
  exact ⟨t', deleted, hdel, hdeleted⟩

/-- **A tree is looked up as a plain set** after the same operations, and its size is the set's. -/
theorem run_looks_up (ops : List (Operation K)) (hops : ∀ entries, .fromSorted entries ∈ ops → Sorted cmp entries) :
    ∃ t, ops.foldlM (Operation.run cmp) empty = some t ∧ t.size = (ops.foldl (Operation.plain cmp) ∅).ncard ∧
      ∀ key, (∀ x, t.get cmp key = some x ↔ x ∈ ops.foldl (Operation.plain cmp) ∅ ∧ cmp x key = .eq) ∧
        (t.has cmp key = true ↔ ∃ x ∈ ops.foldl (Operation.plain cmp) ∅, cmp x key = .eq) := by
  classical
  obtain ⟨t, hrun, h⟩ := runs_hold hops (holds_empty : Holds cmp (empty : BTreeSet K) ∅)
  refine ⟨t, hrun, ?_, fun key => ⟨h.get_iff key, h.has_iff key⟩⟩
  have hset : ops.foldl (Operation.plain cmp) ∅ = (t.root.toList.toFinset : Set K) := by
    ext x
    simp [h.mem]
  have hnodup : t.root.toList.Nodup := h.sorted.imp fun {a b} hlt heq => by
    subst heq
    cases hlt.symm.trans (Std.ReflCmp.compare_self : cmp a a = .eq)
  rw [hset, Set.ncard_coe_finset, List.toFinset_card_of_nodup hnodup, h.size]

end

theorem run_holds_numbers : ∃ t : BTreeSet ℕ,
    [Operation.new [2, 1, 2], .fromSorted [1, 2, 5], .add 3, .delete 1].foldlM (Operation.run compare) empty = some t ∧
      t.Holds compare {2, 3, 5} := by
  obtain ⟨t, hrun, h, -⟩ := @run_holds ℕ compare _
    [Operation.new [2, 1, 2], .fromSorted [1, 2, 5], .add 3, .delete 1] (by simp [Nat.compare_eq_lt])
  refine ⟨t, hrun, ?_⟩
  convert h using 1
  ext x
  simp [Operation.plain, plainAdd, plainDelete]
  omega

theorem run_looks_up_numbers : ∃ t : BTreeSet ℕ,
    [Operation.fromSorted [1, 2, 5], .add 3].foldlM (Operation.run compare) empty = some t ∧ t.has compare 3 = true := by
  obtain ⟨t, hrun, -, hlook⟩ := @run_looks_up ℕ compare _ [Operation.fromSorted [1, 2, 5], .add 3] (by simp [Nat.compare_eq_lt])
  exact ⟨t, hrun, (hlook 3).2.mpr ⟨3, by simp [Operation.plain, plainAdd], rfl⟩⟩

/-- The one key is not yielded. -/
theorem run_reversed_misses : ∃ t : BTreeSet ℕ, [Operation.add 1].foldlM (Operation.run compare) empty = some t ∧
    ¬YieldsReversed compare t {1} none false := by
  have hempty : Holds compare (empty : BTreeSet ℕ) ∅ := holds_empty
  obtain ⟨t, hadd, h⟩ := hempty.add 1
  refine ⟨t, by rw [List.foldlM_cons, Operation.run, hadd]; rfl, ?_⟩
  have hset : plainAdd compare (∅ : Set ℕ) 1 = {1} := by
    ext x
    simp [plainAdd]
  rw [hset] at h
  rw [h.yieldsReversed_iff]
  simp

end BTreeSet

end ZeroSync
