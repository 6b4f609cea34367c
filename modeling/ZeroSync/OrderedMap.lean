/-
Finite maps that remember the order their keys were first set in: a JS
`Map`, and a JS object whose keys are not array indexes.

Setting a key that is there keeps its place; erasing it and setting it again
puts it last. Lookups say nothing of the order: `get?_set` and `get?_erase`
are those of any finite map, and a fold over the entries is read through
`mem_entries`.
-/
import Mathlib.Data.List.Induction
import Mathlib.Data.List.Nodup

/-- A finite map in insertion order. -/
structure OrderedMap (κ : Type*) (α : Type*) where
  entries : List (κ × α)
  nodup : (entries.map (·.1)).Nodup

namespace OrderedMap

variable {κ α β : Type*}

instance [DecidableEq κ] [DecidableEq α] : DecidableEq (OrderedMap κ α) := fun m n =>
  decidable_of_iff (m.entries = n.entries) ⟨fun h => by cases m; cases n; simp_all, fun h => by rw [h]⟩

def empty : OrderedMap κ α := ⟨[], List.nodup_nil⟩

instance : EmptyCollection (OrderedMap κ α) := ⟨empty⟩

def keys (m : OrderedMap κ α) : List κ := m.entries.map (·.1)

def values (m : OrderedMap κ α) : List α := m.entries.map (·.2)

def mapValues (f : α → β) (m : OrderedMap κ α) : OrderedMap κ β :=
  ⟨m.entries.map fun e => (e.1, f e.2), by simpa [Function.comp_def] using m.nodup⟩

theorem nodup_entries (m : OrderedMap κ α) : m.entries.Nodup := m.nodup.of_map _

variable [DecidableEq κ]

/-- The value of `k` in a list of entries. -/
def lookup (k : κ) : List (κ × α) → Option α
  | [] => none
  | (k', v) :: l => if k' = k then some v else lookup k l

/-- Replaces the value of `k` where it stands, else adds it at the end. -/
def setEntries (k : κ) (v : α) : List (κ × α) → List (κ × α)
  | [] => [(k, v)]
  | (k', v') :: l => if k' = k then (k, v) :: l else (k', v') :: setEntries k v l

theorem keys_setEntries (k : κ) (v : α) (l : List (κ × α)) :
    (setEntries k v l).map (·.1) = if k ∈ l.map (·.1) then l.map (·.1) else l.map (·.1) ++ [k] := by
  induction l with
  | nil => simp [setEntries]
  | cons e l ih =>
    by_cases h : e.1 = k
    · simp [setEntries, h]
    · have h' : ¬ k = e.1 := fun he => h he.symm
      simp only [setEntries, h, if_false, List.map_cons, ih, List.mem_cons, h', false_or]
      split <;> rfl

def get? (m : OrderedMap κ α) (k : κ) : Option α := lookup k m.entries

def contains (m : OrderedMap κ α) (k : κ) : Bool := (m.get? k).isSome

def set (m : OrderedMap κ α) (k : κ) (v : α) : OrderedMap κ α :=
  ⟨setEntries k v m.entries, by
    rw [keys_setEntries]
    split
    · exact m.nodup
    · next h => exact m.nodup.append (by simp) (by simpa using h)⟩

def erase (m : OrderedMap κ α) (k : κ) : OrderedMap κ α :=
  ⟨m.entries.filter fun e => decide (e.1 ≠ k),
    m.nodup.sublist (List.filter_sublist.map _)⟩

/-- `Object.fromEntries`: of two entries with one key, the last wins. -/
def ofList (l : List (κ × α)) : OrderedMap κ α :=
  l.foldl (fun m e => m.set e.1 e.2) empty

/-! ## Lookups -/

theorem lookup_setEntries (k k' : κ) (v : α) (l : List (κ × α)) :
    lookup k' (setEntries k v l) = if k = k' then some v else lookup k' l := by
  induction l with
  | nil => simp [setEntries, lookup]
  | cons e l ih =>
    by_cases h : e.1 = k
    · by_cases hk : k = k'
      · simp [setEntries, h, hk, lookup]
      · simp [setEntries, h, hk, lookup]
    · simp only [setEntries, h, if_false, lookup, ih]
      by_cases hk : k = k'
      · subst hk; simp [h]
      · simp [hk]

theorem setEntries_setEntries (k : κ) (v v' : α) (l : List (κ × α)) :
    setEntries k v' (setEntries k v l) = setEntries k v' l := by
  induction l with
  | nil => simp [setEntries]
  | cons e l ih =>
    by_cases h : e.1 = k
    · simp [setEntries, h]
    · simp [setEntries, h, ih]

theorem setEntries_lookup {k : κ} {v : α} {l : List (κ × α)} (h : lookup k l = some v) : setEntries k v l = l := by
  induction l with
  | nil => cases h
  | cons e l ih =>
    by_cases hk : e.1 = k
    · simp only [lookup, hk, if_true, Option.some.injEq] at h
      simp [setEntries, ← hk, ← h]
    · simp only [lookup, hk, if_false] at h
      simp [setEntries, hk, ih h]

theorem lookup_of_notMem {k : κ} {l : List (κ × α)} (h : k ∉ l.map (·.1)) : lookup k l = none := by
  induction l with
  | nil => rfl
  | cons e l ih =>
    rw [List.map_cons, List.mem_cons, not_or] at h
    rw [lookup, if_neg (Ne.symm h.1)]
    exact ih h.2

@[simp] theorem get?_empty (k : κ) : (∅ : OrderedMap κ α).get? k = none := rfl

theorem get?_set (m : OrderedMap κ α) (k k' : κ) (v : α) :
    (m.set k v).get? k' = if k = k' then some v else m.get? k' :=
  lookup_setEntries k k' v m.entries

@[simp] theorem get?_set_self (m : OrderedMap κ α) (k : κ) (v : α) : (m.set k v).get? k = some v := by
  simp [get?_set]

theorem get?_set_of_ne (m : OrderedMap κ α) {k k' : κ} (v : α) (h : k ≠ k') :
    (m.set k v).get? k' = m.get? k' := by
  simp [get?_set, h]

theorem get?_erase (m : OrderedMap κ α) (k k' : κ) :
    (m.erase k).get? k' = if k = k' then none else m.get? k' := by
  show lookup k' (m.entries.filter fun e => decide (e.1 ≠ k)) = if k = k' then none else lookup k' m.entries
  induction m.entries with
  | nil => simp [lookup]
  | cons e l ih =>
    by_cases h : e.1 = k
    · by_cases hk : k = k'
      · simpa [h, hk, List.filter_cons, lookup] using ih
      · simpa [h, hk, List.filter_cons, lookup] using ih
    · by_cases hk : k = k'
      · subst hk; simpa [h, List.filter_cons, lookup] using ih
      · simp only [List.filter_cons, h, lookup, ne_eq, not_false_eq_true, decide_true, if_true, ih, hk, if_false]

theorem mem_entries_iff (m : OrderedMap κ α) (k : κ) (v : α) : (k, v) ∈ m.entries ↔ m.get? k = some v := by
  obtain ⟨l, hl⟩ := m
  simp only [get?]
  induction l with
  | nil => simp [lookup]
  | cons e l ih =>
    simp only [List.map_cons, List.nodup_cons] at hl
    by_cases h : e.1 = k
    · have hnot : (k, v) ∉ l := fun hm => hl.1 (h ▸ List.mem_map_of_mem (f := (·.1)) hm)
      simp only [List.mem_cons, hnot, or_false, lookup, h, if_true, Option.some.injEq]
      rw [Prod.ext_iff]
      simp [h, eq_comm]
    · have hne : (k, v) ≠ e := fun he => h (by rw [← he])
      simp only [List.mem_cons, hne, false_or, lookup, h, if_false]
      exact ih hl.2

theorem mem_keys_iff (m : OrderedMap κ α) (k : κ) : k ∈ m.keys ↔ (m.get? k).isSome := by
  simp only [keys, List.mem_map, Prod.exists, exists_and_right, exists_eq_right, mem_entries_iff,
    Option.isSome_iff_exists]

theorem mem_values_iff (m : OrderedMap κ α) (v : α) : v ∈ m.values ↔ ∃ k, m.get? k = some v := by
  simp only [values, List.mem_map, Prod.exists, exists_eq_right, mem_entries_iff]

theorem entries_perm {m : OrderedMap κ α} {k : κ} {v : α} (h : m.get? k = some v) :
    m.entries.Perm ((k, v) :: (m.erase k).entries) := by
  have hnot : (k, v) ∉ (m.erase k).entries := by simp [mem_entries_iff, get?_erase]
  refine (List.perm_ext_iff_of_nodup m.nodup_entries (List.nodup_cons.mpr ⟨hnot, nodup_entries _⟩)).mpr fun e => ?_
  obtain ⟨k', v'⟩ := e
  rw [List.mem_cons, mem_entries_iff, mem_entries_iff, get?_erase, Prod.mk.injEq]
  by_cases hk : k = k'
  · subst hk
    simp [h, eq_comm]
  · simp [hk, Ne.symm hk]

theorem entries_erase_of_none {m : OrderedMap κ α} {k : κ} (h : m.get? k = none) : (m.erase k).entries = m.entries := by
  refine List.filter_eq_self.mpr fun e he => decide_eq_true fun hk => ?_
  have hsome := (mem_entries_iff m e.1 e.2).mp he
  rw [hk, h] at hsome
  cases hsome

theorem entries_set_perm (m : OrderedMap κ α) (k : κ) (v : α) :
    (m.set k v).entries.Perm ((k, v) :: (m.erase k).entries) := by
  refine (entries_perm (get?_set_self m k v)).trans (List.Perm.cons _ ?_)
  refine (List.perm_ext_iff_of_nodup (nodup_entries _) (nodup_entries _)).mpr fun e => ?_
  obtain ⟨k', v'⟩ := e
  rw [mem_entries_iff, mem_entries_iff, get?_erase, get?_erase, get?_set]
  by_cases hk : k = k' <;> simp [hk]

theorem get?_mapValues (f : α → β) (m : OrderedMap κ α) (k : κ) :
    (m.mapValues f).get? k = (m.get? k).map f := by
  simp only [get?, mapValues]
  induction m.entries with
  | nil => rfl
  | cons e l ih =>
    by_cases h : e.1 = k
    · simp [lookup, h]
    · simp [lookup, h, ih]

/-- The last entry of a key decides what `ofList` holds for it. -/
theorem get?_ofList (l : List (κ × α)) (k : κ) :
    (ofList l).get? k = (l.reverse.find? (fun e => decide (e.1 = k))).map (·.2) := by
  suffices h : ∀ m : OrderedMap κ α, (l.foldl (fun m e => m.set e.1 e.2) m).get? k =
      ((l.reverse.find? (fun e => decide (e.1 = k))).map (·.2)).or (m.get? k) by
    have hk : (empty : OrderedMap κ α).get? k = none := rfl
    simpa [ofList, hk] using h empty
  induction l with
  | nil => simp
  | cons e l ih =>
    intro m
    rw [List.foldl_cons, ih, List.reverse_cons, List.find?_append, get?_set]
    cases l.reverse.find? (fun e => decide (e.1 = k)) with
    | some e' => simp
    | none => by_cases h : e.1 = k <;> simp [h]

theorem setEntries_of_notMem {k : κ} {v : α} {l : List (κ × α)} (h : k ∉ l.map (·.1)) :
    setEntries k v l = l ++ [(k, v)] := by
  induction l with
  | nil => rfl
  | cons e l ih =>
    simp only [List.map_cons, List.mem_cons, not_or] at h
    simp [setEntries, Ne.symm h.1, ih h.2]

theorem entries_ofList {l : List (κ × α)} (h : (l.map (·.1)).Nodup) : (ofList l).entries = l := by
  induction l using List.reverseRecOn with
  | nil => rfl
  | append_singleton l e ih =>
    rw [List.map_append, List.nodup_append] at h
    have hnot : e.1 ∉ l.map (·.1) := fun hm => h.2.2 e.1 hm e.1 (by simp) rfl
    have hset : (ofList (l ++ [e])).entries = setEntries e.1 e.2 (ofList l).entries := by
      rw [ofList, List.foldl_append]
      rfl
    rw [hset, ih h.1, setEntries_of_notMem hnot]

theorem mem_entries_ofList_map (ks : List κ) (f : κ → α) (k : κ) (v : α) :
    (k, v) ∈ (ofList (ks.map fun k => (k, f k))).entries ↔ k ∈ ks ∧ v = f k := by
  rw [mem_entries_iff, get?_ofList, ← List.map_reverse, List.find?_map]
  cases h : ks.reverse.find? ((fun e : κ × α => decide (e.1 = k)) ∘ fun k => (k, f k)) with
  | none =>
    simp only [List.find?_eq_none, List.mem_reverse, Function.comp_apply, decide_eq_true_eq] at h
    simp only [Option.map_none, reduceCtorEq, false_iff, not_and]
    exact fun hk => absurd rfl (h k hk)
  | some k' =>
    obtain rfl : k' = k := by simpa using List.find?_some h
    have hk : k' ∈ ks := List.mem_reverse.mp (List.mem_of_find?_eq_some h)
    simp [hk, eq_comm]

theorem mem_entries_ofList_key {l : List α} {key : α → κ} (hinj : ∀ a ∈ l, ∀ b ∈ l, key a = key b → a = b)
    (k : κ) (v : α) : (k, v) ∈ (ofList (l.map fun a => (key a, a))).entries ↔ v ∈ l ∧ key v = k := by
  rw [mem_entries_iff, get?_ofList, ← List.map_reverse, List.find?_map]
  cases h : l.reverse.find? ((fun e : κ × α => decide (e.1 = k)) ∘ fun a => (key a, a)) with
  | none =>
    simp only [List.find?_eq_none, List.mem_reverse, Function.comp_apply, decide_eq_true_eq] at h
    simp only [Option.map_none, reduceCtorEq, false_iff, not_and]
    exact fun hv => h v hv
  | some a =>
    have hk : key a = k := by simpa using List.find?_some h
    have ha : a ∈ l := List.mem_reverse.mp (List.mem_of_find?_eq_some h)
    simp only [Option.map_some, Option.some.injEq]
    constructor
    · rintro rfl
      exact ⟨ha, hk⟩
    · exact fun ⟨hv, hvk⟩ => hinj a ha v hv (hk.trans hvk.symm)

/-- A loop over the entries of a map whose steps each set what their own key holds. -/
theorem get?_foldl {γ : Type*} {step : OrderedMap κ γ → κ × α → OrderedMap κ γ} {g : κ → α → Option γ → Option γ}
    (hstep : ∀ m e k, (step m e).get? k = if e.1 = k then g k e.2 (m.get? k) else m.get? k)
    (o : OrderedMap κ α) (m : OrderedMap κ γ) (k : κ) :
    (o.entries.foldl step m).get? k = match o.get? k with | some v => g k v (m.get? k) | none => m.get? k := by
  obtain ⟨l, hl⟩ := o
  simp only [get?]
  induction l generalizing m with
  | nil => rfl
  | cons e l ih =>
    rw [List.map_cons, List.nodup_cons] at hl
    have h := ih (step m e) hl.2
    have hk := hstep m e k
    simp only [get?] at hk
    rw [List.foldl_cons, h, hk, lookup]
    by_cases he : e.1 = k
    · subst he
      simp [lookup_of_notMem hl.1]
    · simp [he]

theorem lookup_append (k : κ) (l l' : List (κ × α)) : lookup k (l ++ l') = (lookup k l).or (lookup k l') := by
  induction l with
  | nil => rfl
  | cons e l ih => by_cases h : e.1 = k <;> simp [lookup, h, ih]

theorem entries_split {m : OrderedMap κ α} {k : κ} {v : α} (h : m.get? k = some v) :
    ∃ pre post, m.entries = pre ++ (k, v) :: post ∧ ∀ v', (m.set k v').entries = pre ++ (k, v') :: post := by
  obtain ⟨l, hl⟩ := m
  simp only [get?, set] at h ⊢
  clear hl
  induction l with
  | nil => cases h
  | cons e l ih =>
    by_cases he : e.1 = k
    · obtain ⟨k', v'⟩ := e
      subst he
      obtain rfl : v' = v := by simpa [lookup] using h
      exact ⟨[], l, rfl, fun v' => by simp [setEntries]⟩
    · obtain ⟨pre, post, hl, hset⟩ := ih (by simpa [lookup, he] using h)
      exact ⟨e :: pre, post, by rw [hl, List.cons_append], fun v' => by simp [setEntries, he, hset v']⟩

theorem entries_erase_head {m : OrderedMap κ α} {e : κ × α} {l : List (κ × α)} (h : m.entries = e :: l) :
    (m.erase e.1).entries = l := by
  have hnodup := m.nodup
  rw [h, List.map_cons, List.nodup_cons] at hnodup
  show m.entries.filter _ = l
  rw [h, List.filter_cons_of_neg (by simp), List.filter_eq_self]
  exact fun e' he' => decide_eq_true fun heq => hnodup.1 (heq ▸ List.mem_map_of_mem he')

end OrderedMap
