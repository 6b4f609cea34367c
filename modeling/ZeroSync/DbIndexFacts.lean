/-
When the secondary indexes of a write stay exact.

The lock takes a call of the removing loop and one of the adding loop in turn
(`serve_pair`). So a key that both touch is in the index afterwards if it is
last added no earlier, in its list, than it is last removed in the other
(`Outlasts`); an update keeps an exact index exact if and only if its lists do
that (`updateIndex_exact`).
-/
import ZeroSync.DbIndex
import ZeroSync.PatchFacts

namespace ZeroSync

variable {N : Type} {map : ValueMap N} {x : String} {v : FrozenJSONValue N}

/-! ## The lock -/

/-- The calls of two loops in turn. -/
def inTurn : List (IndexCall N) → List (IndexCall N) → List (IndexCall N)
  | c :: l, c' :: l' => c :: c' :: inTurn l l'
  | l, [] => l
  | [], l' => l'

theorem inTurn_nil_left (l : List (IndexCall N)) : inTurn [] l = l := by cases l <;> rfl

theorem inTurn_nil_right (l : List (IndexCall N)) : inTurn l [] = l := by cases l <;> rfl

theorem serve_nil : serve map [] = map := by rw [serve]

theorem serve_single (l : List (IndexCall N)) : serve map [l] = l.foldl IndexCall.run map := by
  induction l generalizing map with
  | nil => rw [serve, serve_nil, List.foldl_nil]
  | cons c l ih => rw [serve, List.nil_append, ih, List.foldl_cons]

/-- **Two loops are served in turn**. -/
theorem serve_pair (l l' : List (IndexCall N)) : serve map [l, l'] = (inTurn l l').foldl IndexCall.run map := by
  induction l, l' using inTurn.induct generalizing map with
  | case1 c l c' l' ih =>
    rw [serve, List.cons_append, List.nil_append, serve, List.cons_append, List.nil_append, ih, inTurn, List.foldl_cons,
      List.foldl_cons]
  | case2 l =>
    cases l with
    | nil => rw [serve, serve_single, inTurn]
    | cons c l => rw [serve, List.cons_append, List.nil_append, serve, serve_single, inTurn, List.foldl_cons]
  | case3 l' hne =>
    rw [serve, serve_single]
    cases l' with
    | nil => exact absurd rfl hne
    | cons c' l' => rfl

/-- A key of both lists is last added no earlier than it is last removed. -/
def Outlasts (removed added : List String) : Prop :=
  ∀ i < removed.length, ∀ x ∈ removed.drop i, x ∈ added → x ∈ added.drop i

instance (removed added : List String) : Decidable (Outlasts removed added) := by
  unfold Outlasts
  infer_instance

theorem outlasts_iff {removed added : List String} :
    Outlasts removed added ↔ ∀ x ∈ added, ¬∃ i, x ∈ removed.drop i ∧ x ∉ added.drop i := by
  refine ⟨fun h x hx ⟨i, hi, hnot⟩ => hnot (h i ?_ x hi hx), fun h i _ x hi hx => ?_⟩
  · by_contra hlen
    rw [List.drop_eq_nil_of_le (not_lt.mp hlen)] at hi
    cases hi
  · by_contra hnot
    exact h x hx ⟨i, hi, hnot⟩

open Classical in
theorem foldl_inTurn (D P : List String) (x : String) :
    (inTurn (D.map IndexCall.del) (P.map fun entry => .put entry v)).foldl IndexCall.run map x =
      if ∃ i, x ∈ D.drop i ∧ x ∉ P.drop i then none else if x ∈ P then some v else map x := by
  induction D generalizing P map with
  | nil =>
    have hnone : ¬∃ i, x ∈ ([] : List String).drop i ∧ x ∉ P.drop i := by simp
    rw [if_neg hnone]
    rw [List.map_nil, inTurn_nil_left]
    clear hnone
    induction P generalizing map with
    | nil => simp
    | cons p P ih =>
      rw [List.map_cons, List.foldl_cons, ih]
      by_cases hx : x ∈ P
      · simp [hx]
      · simp [hx, IndexCall.run]
  | cons d D ih =>
    cases P with
    | nil =>
      have hnext : List.foldl IndexCall.run (IndexCall.run map (.del d)) _ x = _ := ih []
      rw [List.map_nil, inTurn_nil_right] at hnext ⊢
      rw [List.map_cons, List.foldl_cons, hnext]
      by_cases hx : x ∈ D
      · have h₀ : ∃ i, x ∈ D.drop i ∧ x ∉ ([] : List String).drop i := ⟨0, hx, by simp⟩
        have h₁ : ∃ i, x ∈ (d :: D).drop i ∧ x ∉ ([] : List String).drop i := ⟨0, List.mem_cons_of_mem _ hx, by simp⟩
        rw [if_pos h₀, if_pos h₁]
      · have h₀ : ¬∃ i, x ∈ D.drop i ∧ x ∉ ([] : List String).drop i := fun ⟨i, hi, _⟩ => hx (List.mem_of_mem_drop hi)
        rw [if_neg h₀, if_neg (List.not_mem_nil)]
        simp only [IndexCall.run]
        by_cases heq : x = d
        · have h₁ : ∃ i, x ∈ (d :: D).drop i ∧ x ∉ ([] : List String).drop i := ⟨0, by simp [heq], by simp⟩
          rw [if_pos heq, if_pos h₁]
        · have h₁ : ¬∃ i, x ∈ (d :: D).drop i ∧ x ∉ ([] : List String).drop i := fun ⟨i, hi, _⟩ => by
            have hmem := List.mem_of_mem_drop hi
            simp [heq, hx] at hmem
          rw [if_neg heq, if_neg h₁, if_neg (List.not_mem_nil)]
    | cons p P =>
      rw [List.map_cons, List.map_cons, inTurn, List.foldl_cons, List.foldl_cons, ih]
      by_cases hlost : ∃ i, x ∈ D.drop i ∧ x ∉ P.drop i
      · obtain ⟨i, hi⟩ := hlost
        have h₁ : ∃ i, x ∈ (d :: D).drop i ∧ x ∉ (p :: P).drop i := ⟨i + 1, hi⟩
        rw [if_pos ⟨i, hi⟩, if_pos h₁]
      · rw [if_neg hlost]
        by_cases hx : x ∈ P
        · have h₁ : ¬∃ i, x ∈ (d :: D).drop i ∧ x ∉ (p :: P).drop i := by
            rintro ⟨_ | i, hi, hnot⟩
            · exact hnot (List.mem_cons_of_mem _ hx)
            · exact hlost ⟨i, hi, hnot⟩
          rw [if_pos hx, if_neg h₁, if_pos (List.mem_cons_of_mem _ hx)]
        · have hD : x ∉ D := fun hmem => hlost ⟨0, hmem, hx⟩
          rw [if_neg hx]
          simp only [IndexCall.run]
          by_cases hp : x = p
          · have h₁ : ¬∃ i, x ∈ (d :: D).drop i ∧ x ∉ (p :: P).drop i := by
              rintro ⟨_ | i, hi, hnot⟩
              · exact hnot (by simp [hp])
              · exact hD (List.mem_of_mem_drop hi)
            rw [if_pos hp, if_neg h₁, if_pos (by simp [hp])]
          · have hnotP : x ∉ p :: P := by simp [hp, hx]
            rw [if_neg hp, if_neg hnotP]
            by_cases hd : x = d
            · have h₁ : ∃ i, x ∈ (d :: D).drop i ∧ x ∉ (p :: P).drop i := ⟨0, by simp [hd], hnotP⟩
              rw [if_pos hd, if_pos h₁]
            · have h₁ : ¬∃ i, x ∈ (d :: D).drop i ∧ x ∉ (p :: P).drop i := fun ⟨i, hi, _⟩ => by
                have hmem := List.mem_of_mem_drop hi
                simp [hd, hD] at hmem
              rw [if_neg hd, if_neg h₁]

/-! ## The keys of a value -/

/-- A value is indexed by a string: it has the string, or an array with it, at
the pointer, and nothing there that is unsupported. -/
def ChunkIndexDefinition.Indexes (definition : ChunkIndexDefinition) (value : FrozenJSONValue N) (s : String) : Prop :=
  ∃ target, evaluateJSONPointer value definition.jsonPointer = .ok (some target) ∧
    (∀ e ∈ targetValues target, ∃ s, e = .string s ∧ '\x00' ∉ s.toList) ∧ .string s ∈ targetValues target

/-- The keys that a value is indexed by. -/
def ChunkIndexDefinition.keys (definition : ChunkIndexDefinition) (key : String) (value : FrozenJSONValue N) : List String :=
  match getIndexKeys key value definition.jsonPointer (definition.allowEmpty.getD false) with
  | .ok keys => keys
  | .error _ => []

theorem encodeIndexKey_eq {secondary primary : String} (h : encodeIndexKey secondary primary = .ok x) :
    '\x00' ∉ secondary.toList ∧ x.toList = '\x00' :: secondary.toList ++ '\x00' :: primary.toList := by
  rw [encodeIndexKey] at h
  split at h
  · cases h
  · next hnot =>
    cases h
    exact ⟨hnot, String.toList_ofList⟩

theorem encodeIndexKey_inj {s s' k k' : String} (h : encodeIndexKey s k = .ok x) (h' : encodeIndexKey s' k' = .ok x) :
    s = s' ∧ k = k' := by
  obtain ⟨hs, hx⟩ := encodeIndexKey_eq h
  obtain ⟨hs', hx'⟩ := encodeIndexKey_eq h'
  have hsplit : ∀ {a a' b b' : List Char}, '\x00' ∉ a → '\x00' ∉ a' → a ++ '\x00' :: b = a' ++ '\x00' :: b' →
      a = a' ∧ b = b' := by
    intro a
    induction a with
    | nil =>
      intro a' b b' _ ha' heq
      cases a' with
      | nil => exact ⟨rfl, (List.cons.inj heq).2⟩
      | cons c a' =>
        have hc := (List.cons.inj heq).1
        exact absurd (hc ▸ List.mem_cons_self ..) ha'
    | cons c a ih =>
      intro a' b b' ha ha' heq
      cases a' with
      | nil =>
        have hc := (List.cons.inj heq).1
        exact absurd (hc ▸ List.mem_cons_self ..) ha
      | cons c' a' =>
        obtain ⟨hc, hrest⟩ := List.cons.inj heq
        obtain ⟨hab, hbb⟩ := ih (fun h => ha (List.mem_cons_of_mem _ h)) (fun h => ha' (List.mem_cons_of_mem _ h)) hrest
        exact ⟨by rw [hc, hab], hbb⟩
  rw [hx, List.cons_append, List.cons_append] at hx'
  obtain ⟨hss, hkk⟩ := hsplit hs hs' (List.cons.inj hx').2
  exact ⟨String.toList_injective hss, String.toList_injective hkk⟩

theorem mapM_indexKey (primary : String) (values : List (FrozenJSONValue N)) :
    match values.mapM (indexKey primary) with
    | .ok keys => (∀ e ∈ values, ∃ s, e = .string s ∧ '\x00' ∉ s.toList) ∧
        ∀ x, x ∈ keys ↔ ∃ s, .string s ∈ values ∧ encodeIndexKey s primary = .ok x
    | .error _ => ¬∀ e ∈ values, ∃ s, e = .string s ∧ '\x00' ∉ s.toList := by
  induction values with
  | nil => exact ⟨List.forall_mem_nil _, by simp⟩
  | cons e values ih =>
    rw [List.mapM_cons]
    cases hkey : indexKey primary e with
    | error err =>
      refine fun hall => ?_
      obtain ⟨s, rfl, hs⟩ := hall e (List.mem_cons_self ..)
      rw [indexKey, encodeIndexKey, if_neg hs] at hkey
      cases hkey
    | ok x =>
      obtain ⟨s, rfl, hs⟩ : ∃ s, e = .string s ∧ encodeIndexKey s primary = .ok x := by
        cases e <;> first | cases hkey | exact ⟨_, rfl, hkey⟩
      cases hrest : values.mapM (indexKey primary) with
      | error err =>
        rw [hrest] at ih
        exact fun hall => ih fun e he => hall e (List.mem_cons_of_mem _ he)
      | ok keys =>
        rw [hrest] at ih
        obtain ⟨hall, hmem⟩ := ih
        refine ⟨List.forall_mem_cons.mpr ⟨⟨s, rfl, (encodeIndexKey_eq hs).1⟩, hall⟩, fun y => ?_⟩
        rw [List.mem_cons, hmem]
        constructor
        · rintro (rfl | ⟨s', hs', henc⟩)
          · exact ⟨s, List.mem_cons_self .., hs⟩
          · exact ⟨s', List.mem_cons_of_mem _ hs', henc⟩
        · rintro ⟨s', hs', henc⟩
          rcases List.mem_cons.mp hs' with heq | hs'
          · cases heq
            left
            rw [hs] at henc
            cases henc
            rfl
          · exact .inr ⟨s', hs', henc⟩

theorem mem_keys {definition : ChunkIndexDefinition} {key : String} {value : FrozenJSONValue N} :
    x ∈ definition.keys key value ↔ ∃ s, definition.Indexes value s ∧ encodeIndexKey s key = .ok x := by
  simp only [ChunkIndexDefinition.keys, ChunkIndexDefinition.Indexes, getIndexKeys]
  cases hvalue : evaluateJSONPointer value definition.jsonPointer with
  | error e => simp [bind, Except.bind]
  | ok target =>
    cases target with
    | none => cases definition.allowEmpty.getD false <;> simp [bind, Except.bind, pure, Except.pure, throw, throwThe, MonadExceptOf.throw]
    | some target =>
      have hkeys := mapM_indexKey key (targetValues target)
      simp only [bind, Except.bind]
      cases hmap : (targetValues target).mapM (indexKey key) with
      | error e =>
        rw [hmap] at hkeys
        refine iff_of_false List.not_mem_nil ?_
        rintro ⟨s, ⟨target', heq, hall, -⟩, -⟩
        cases heq
        exact hkeys hall
      | ok keys =>
        rw [hmap] at hkeys
        refine (hkeys.2 x).trans (exists_congr fun s => and_congr_left fun _ => ?_)
        exact ⟨fun hs => ⟨target, rfl, hkeys.1, hs⟩, fun ⟨target', heq, _, hs⟩ => by cases heq; exact hs⟩

/-! ## Updates -/

/-- An index is exact: it has the keys of the entries that it covers, with their values. -/
def ChunkIndexDefinition.Exact (definition : ChunkIndexDefinition) (index map : ValueMap N) : Prop :=
  ∀ x v, index x = some v ↔
    ∃ key s, map key = some v ∧ definition.covers key ∧ definition.Indexes v s ∧ encodeIndexKey s key = .ok x

/-- The keys of an optional value. -/
def ChunkIndexDefinition.optionKeys (definition : ChunkIndexDefinition) (key : String) (value : Option (FrozenJSONValue N)) :
    List String :=
  value.elim [] (definition.keys key)

/-- The update of an entry does not remove, after adding it, a key that is to stay. -/
def ChunkIndexDefinition.Keeps (definition : ChunkIndexDefinition) (map : ValueMap N) (key : String)
    (newVal : Option (FrozenJSONValue N)) : Prop :=
  definition.covers key → Outlasts (definition.optionKeys key (map key)) (definition.optionKeys key newVal)

/-- The map when an entry is put, or deleted. -/
def ValueMap.update (map : ValueMap N) (key : String) (newVal : Option (FrozenJSONValue N)) : ValueMap N :=
  fun k => if k = key then newVal else map k

variable {definition : ChunkIndexDefinition} {idx : IndexWrite N} {key : String} {newVal : Option (FrozenJSONValue N)}

theorem calls_remove (value : FrozenJSONValue N) :
    definition.calls .remove key value = (definition.keys key value).map .del := by
  rw [ChunkIndexDefinition.calls, indexValue, ChunkIndexDefinition.keys]
  cases getIndexKeys key value definition.jsonPointer (definition.allowEmpty.getD false) <;> rfl

theorem calls_add (value : FrozenJSONValue N) :
    definition.calls .add key value = (definition.keys key value).map fun entry => .put entry value := by
  rw [ChunkIndexDefinition.calls, indexValue, ChunkIndexDefinition.keys]
  cases getIndexKeys key value definition.jsonPointer (definition.allowEmpty.getD false) <;> rfl

open Classical in
theorem updateIndex_map (hcovers : idx.definition.covers key) (x : String) :
    (updateIndex map key newVal idx).map x =
      if ∃ i, x ∈ (idx.definition.optionKeys key (map key)).drop i ∧ x ∉ (idx.definition.optionKeys key newVal).drop i then none
      else if x ∈ idx.definition.optionKeys key newVal then newVal else idx.map x := by
  rw [updateIndex, if_pos hcovers]
  cases newVal with
  | none =>
    have hturn : List.foldl IndexCall.run idx.map _ x = _ :=
      foldl_inTurn (v := .null) (idx.definition.optionKeys key (map key)) [] x
    rw [if_neg List.not_mem_nil, List.map_nil, inTurn_nil_right] at hturn
    have hnone : idx.definition.optionKeys (N := N) key none = [] := rfl
    rw [hnone, if_neg List.not_mem_nil]
    refine Eq.trans ?_ hturn
    cases map key with
    | none => simp [serve_nil, ChunkIndexDefinition.optionKeys]
    | some old => simp [serve_single, calls_remove, ChunkIndexDefinition.optionKeys]
  | some new =>
    have hturn : List.foldl IndexCall.run idx.map _ x = _ :=
      foldl_inTurn (v := new) (idx.definition.optionKeys key (map key)) (idx.definition.optionKeys key (some new)) x
    refine Eq.trans ?_ hturn
    cases map key with
    | none => simp [serve_single, calls_add, inTurn_nil_left, ChunkIndexDefinition.optionKeys]
    | some old => simp [serve_pair, calls_remove, calls_add, ChunkIndexDefinition.optionKeys]

theorem mem_optionKeys {value : Option (FrozenJSONValue N)} :
    x ∈ definition.optionKeys key value ↔ ∃ v s, value = some v ∧ definition.Indexes v s ∧ encodeIndexKey s key = .ok x := by
  cases value with
  | none => simp [ChunkIndexDefinition.optionKeys]
  | some v => simp [ChunkIndexDefinition.optionKeys, mem_keys]

/-- **An update keeps an exact index exact** if and only if it removes no key that is to stay. -/
theorem updateIndex_exact (h : idx.definition.Exact idx.map map) :
    idx.definition.Exact (updateIndex map key newVal idx).map (map.update key newVal) ↔
      idx.definition.Keeps map key newVal := by
  by_cases hcovers : idx.definition.covers key
  · set D := idx.definition.optionKeys key (map key) with hD
    set P := idx.definition.optionKeys key newVal with hP
    have hkeeps : idx.definition.Keeps map key newVal ↔ Outlasts D P := ⟨fun hk => hk hcovers, fun hk _ => hk⟩
    have hother {k : String} {v : FrozenJSONValue N} (hk : k ≠ key) : map.update key newVal k = some v ↔ map k = some v := by
      rw [ValueMap.update, if_neg hk]
    have hself {v : FrozenJSONValue N} : map.update key newVal key = some v ↔ newVal = some v := by
      rw [ValueMap.update, if_pos rfl]
    rw [hkeeps, outlasts_iff]
    constructor
    · intro hexact x hx hlost
      obtain ⟨v, s, hnew, hindexes, henc⟩ := mem_optionKeys.mp hx
      have hsome := (hexact x v).mpr ⟨key, s, hself.mpr hnew, hcovers, hindexes, henc⟩
      rw [updateIndex_map hcovers, if_pos hlost] at hsome
      cases hsome
    · intro houtlasts x v
      rw [updateIndex_map hcovers]
      -- The index keys of another entry are in neither list.
      have hforeign {k s : String} (hk : k ≠ key) (henc : encodeIndexKey s k = .ok x) : x ∉ D := fun hmem => by
        obtain ⟨_, s', -, -, henc'⟩ := mem_optionKeys.mp hmem
        exact hk (encodeIndexKey_inj henc henc').2
      by_cases hxP : x ∈ P
      · rw [if_neg (houtlasts x hxP), if_pos hxP]
        obtain ⟨new, s, hnew, hindexes, henc⟩ := mem_optionKeys.mp hxP
        constructor
        · intro hv
          cases hnew.symm.trans hv
          exact ⟨key, s, hself.mpr hnew, hcovers, hindexes, henc⟩
        · rintro ⟨k, s', hk, -, -, henc'⟩
          rw [(encodeIndexKey_inj henc' henc).2] at hk
          exact hself.mp hk
      · have hnotSelf {s : String} (hnew : newVal = some v) (hindexes : idx.definition.Indexes v s)
            (henc : encodeIndexKey s key = .ok x) : False := hxP (mem_optionKeys.mpr ⟨v, s, hnew, hindexes, henc⟩)
        by_cases hlost : ∃ i, x ∈ D.drop i ∧ x ∉ P.drop i
        · rw [if_pos hlost]
          obtain ⟨i, hi, -⟩ := hlost
          refine iff_of_false nofun ?_
          rintro ⟨k, s, hk, -, hindexes, henc⟩
          by_cases heq : k = key
          · subst heq
            exact hnotSelf (hself.mp hk) hindexes henc
          · exact hforeign heq henc (List.mem_of_mem_drop hi)
        · have hxD : x ∉ D := fun hmem => hlost ⟨0, hmem, hxP⟩
          rw [if_neg hlost, if_neg hxP, h x v]
          refine exists_congr fun k => exists_congr fun s => ?_
          by_cases heq : k = key
          · subst heq
            refine iff_of_false ?_ ?_
            · rintro ⟨hk, -, hindexes, henc⟩
              exact hxD (mem_optionKeys.mpr ⟨v, s, hk, hindexes, henc⟩)
            · rintro ⟨hk, -, hindexes, henc⟩
              exact hnotSelf (hself.mp hk) hindexes henc
          · rw [hother heq]
  · have hsame : updateIndex map key newVal idx = idx := by rw [updateIndex, if_neg hcovers]
    rw [hsame]
    refine iff_of_true (fun x v => (h x v).trans (exists_congr fun k => exists_congr fun s => ?_)) fun hc => absurd hc hcovers
    by_cases hk : k = key
    · subst hk
      simp [hcovers]
    · simp [ValueMap.update, hk]

/-! ## Runs -/

namespace DbWrite

variable {w w' : DbWrite N} {value : FrozenJSONValue N}

/-- The indexes of a write are exact. -/
def Exact (w : DbWrite N) : Prop := ∀ idx ∈ w.indexes, idx.definition.Exact idx.map w.map

/-- An operation removes no index key, after adding it, that is to stay. -/
def KeepsOrder (w : DbWrite N) : WriteOperation N → Prop
  | .put key value => ∀ idx ∈ w.indexes, idx.definition.Keeps w.map key (some value)
  | .putMany entries => ∀ e ∈ entries, ∀ idx ∈ w.indexes, idx.definition.Keeps w.map e.1 (some e.2)
  | .del _ | .clear => True

theorem updateIndex_definition (idx : IndexWrite N) : (updateIndex map key newVal idx).definition = idx.definition := by
  rw [updateIndex]
  split <;> rfl

/-- **After an update the indexes are exact** if and only if each keeps what is to stay. -/
theorem updateIndexes_exact (h : w.Exact) :
    DbWrite.Exact ⟨w.map.update key newVal, updateIndexes w.map w.indexes key newVal⟩ ↔
      ∀ idx ∈ w.indexes, idx.definition.Keeps w.map key newVal := by
  have hiff (idx : IndexWrite N) (hidx : idx ∈ w.indexes) :
      (updateIndex w.map key newVal idx).definition.Exact (updateIndex w.map key newVal idx).map (w.map.update key newVal) ↔
        idx.definition.Keeps w.map key newVal := by
    rw [updateIndex_definition]
    exact updateIndex_exact (h idx hidx)
  constructor
  · exact fun hexact idx hidx => (hiff idx hidx).mp (hexact _ (List.mem_map_of_mem hidx))
  · intro hkeeps idx' hidx'
    obtain ⟨idx, hidx, rfl⟩ := List.mem_map.mp hidx'
    exact (hiff idx hidx).mpr (hkeeps idx hidx)

theorem put_exact (h : w.Exact) : (w.put key value).Exact ↔ w.KeepsOrder (.put key value) := updateIndexes_exact h

theorem del_exact (h : w.Exact) : (w.del key).Exact :=
  (updateIndexes_exact h).mpr fun _ _ _ _ _ _ _ hx => absurd hx List.not_mem_nil

theorem clear_exact (w : DbWrite N) : w.clear.Exact := by
  intro idx' hidx'
  obtain ⟨idx, -, rfl⟩ := List.mem_map.mp hidx'
  refine fun x v => iff_of_false nofun ?_
  rintro ⟨k, s, hk, -⟩
  cases hk

theorem foldl_update_exact (map : ValueMap N) (entries : List (String × FrozenJSONValue N))
    (hnodup : (entries.map (·.1)).Nodup) (h : w.Exact) (hsame : ∀ e ∈ entries, w.map e.1 = map e.1)
    (hkeeps : ∀ e ∈ entries, ∀ idx ∈ w.indexes, idx.definition.Keeps map e.1 (some e.2)) :
    DbWrite.Exact ⟨entries.foldl (fun m e => m.update e.1 (some e.2)) w.map,
      entries.foldl (fun indexes e => updateIndexes map indexes e.1 (some e.2)) w.indexes⟩ := by
  induction entries generalizing w with
  | nil => exact h
  | cons e entries ih =>
    rw [List.map_cons, List.nodup_cons] at hnodup
    have hmap : updateIndexes map w.indexes e.1 (some e.2) = updateIndexes w.map w.indexes e.1 (some e.2) := by
      refine List.map_congr_left fun idx _ => ?_
      rw [updateIndex, updateIndex, hsame e (List.mem_cons_self ..)]
    have hfirst : DbWrite.Exact ⟨w.map.update e.1 (some e.2), updateIndexes map w.indexes e.1 (some e.2)⟩ := by
      rw [hmap]
      refine (updateIndexes_exact h).mpr fun idx hidx hcovers => ?_
      rw [hsame e (List.mem_cons_self ..)]
      exact hkeeps e (List.mem_cons_self ..) idx hidx hcovers
    rw [List.foldl_cons, List.foldl_cons]
    refine ih (w := ⟨_, _⟩) hnodup.2 hfirst (fun e' he' => ?_) fun e' he' idx' hidx' => ?_
    · have hne : e'.1 ≠ e.1 := fun heq => hnodup.1 (heq ▸ List.mem_map_of_mem (f := (·.1)) he')
      change (if e'.1 = e.1 then some e.2 else w.map e'.1) = map e'.1
      rw [if_neg hne]
      exact hsame e' (List.mem_cons_of_mem _ he')
    · obtain ⟨idx, hidx, rfl⟩ := List.mem_map.mp hidx'
      rw [updateIndex_definition]
      exact hkeeps e' (List.mem_cons_of_mem _ he') idx hidx

theorem nodup_of_ascending {keys : List String} (h : View.ascending keys = true) : keys.Nodup := by
  refine ((ascending_iff keys).mp h).imp fun hlt heq => ?_
  rw [heq, stringLt_self] at hlt
  cases hlt

theorem putMany_exact {entries : List (String × FrozenJSONValue N)} (h : w.Exact) (hrun : w.putMany entries = some w')
    (hkeeps : w.KeepsOrder (.putMany entries)) : w'.Exact := by
  rw [putMany] at hrun
  split at hrun
  · cases hrun
    exact h
  · dsimp only at hrun
    split at hrun
    · next hascending =>
      cases hrun
      exact foldl_update_exact w.map entries (nodup_of_ascending hascending) h (fun _ _ => rfl) hkeeps
    · cases hrun

/-- A write after operations each of which removes no key that is to stay. -/
inductive KeptRun (w : DbWrite N) : DbWrite N → Prop
  | start : KeptRun w w
  | step {w₁ w₂ : DbWrite N} (op : WriteOperation N) (from_ : KeptRun w w₁) (keeps : w₁.KeepsOrder op)
      (run : w₁.run op = some w₂) : KeptRun w w₂

/-- A write without entries, and with an index of the values themselves. -/
def emptyWrite : DbWrite Unit := ⟨fun _ => none, [⟨⟨"", "", none⟩, fun _ => none⟩]⟩

theorem emptyWrite_put {value : FrozenJSONValue Unit} {idx : IndexWrite Unit} (h : idx ∈ (emptyWrite.put "k" value).indexes) :
    idx.definition = ⟨"", "", none⟩ := by
  obtain ⟨idx', hidx', rfl⟩ := List.mem_map.mp h
  rw [updateIndex_definition, List.mem_singleton.mp hidx']

theorem emptyWrite_kept (value : FrozenJSONValue Unit) : KeptRun emptyWrite (emptyWrite.put "k" value) := by
  refine .step (.put "k" value) .start (fun idx hidx _ => ?_) rfl
  intro i hi
  cases hi

end DbWrite

end ZeroSync
