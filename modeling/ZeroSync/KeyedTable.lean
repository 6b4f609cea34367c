/-
A table with a primary key: its rows in the order of the key, no two with the
same, and the statements that change it. An insert or an update that leaves two
rows with one key fails.
-/
import Mathlib.Data.List.Sort
import Mathlib.Data.List.Nodup

structure KeyedTable {ρ κ : Type*} [LinearOrder κ] (key : ρ → κ) where
  rows : List ρ
  sorted : rows.Pairwise fun a b => key a < key b

namespace KeyedTable

variable {ρ κ : Type*} [LinearOrder κ] {key : ρ → κ}

def empty : KeyedTable key := ⟨[], .nil⟩

/-- Rows in the order of the key. -/
def order (key : ρ → κ) (l : List ρ) : List ρ := l.insertionSort fun a b => key a ≤ key b

theorem mem_order {l : List ρ} {r : ρ} : r ∈ order key l ↔ r ∈ l := List.mem_insertionSort _

theorem order_sorted {l : List ρ} (h : (l.map key).Nodup) : (order key l).Pairwise fun a b => key a < key b := by
  have : IsTrans ρ fun a b => key a ≤ key b := ⟨fun _ _ _ hab hbc => hab.trans hbc⟩
  have : Std.Total fun a b : ρ => key a ≤ key b := ⟨fun a b => le_total (key a) (key b)⟩
  have hperm : (order key l).Perm l := List.perm_insertionSort _ l
  have hle : (order key l).Pairwise fun a b => key a ≤ key b := List.pairwise_insertionSort _ l
  have hne : (order key l).Pairwise fun a b => key a ≠ key b :=
    List.pairwise_map.mp (((hperm.map key).nodup_iff).mpr h)
  exact (hle.and hne).imp fun h => lt_of_le_of_ne h.1 h.2

/-- The table of some rows, unless two have one key. -/
def ofRows? (l : List ρ) : Option (KeyedTable key) :=
  if h : (l.map key).Nodup then some ⟨order key l, order_sorted h⟩ else none

theorem rows_ofRows? {l : List ρ} {t : KeyedTable key} (h : ofRows? l = some t) :
    (l.map key).Nodup ∧ t.rows = order key l := by
  unfold ofRows? at h
  split at h
  · rename_i hn
    obtain rfl := Option.some.inj h
    exact ⟨hn, rfl⟩
  · cases h

theorem mem_ofRows? {l : List ρ} {t : KeyedTable key} (h : ofRows? l = some t) (r : ρ) : r ∈ t.rows ↔ r ∈ l := by
  rw [(rows_ofRows? h).2, mem_order]

/-- `INSERT` -/
def insert? (t : KeyedTable key) (r : ρ) : Option (KeyedTable key) := ofRows? (t.rows ++ [r])

theorem insert?_last {t : KeyedTable key} {r : ρ} (hlast : ∀ x ∈ t.rows, key x < key r) :
    ∃ t', t.insert? r = some t' ∧ t'.rows = t.rows ++ [r] := by
  have hsorted : (t.rows ++ [r]).Pairwise fun a b => key a < key b :=
    List.pairwise_append.mpr ⟨t.sorted, List.pairwise_singleton .., fun x hx y hy => List.mem_singleton.mp hy ▸ hlast x hx⟩
  have hnodup : ((t.rows ++ [r]).map key).Nodup := List.pairwise_map.mpr (hsorted.imp ne_of_lt)
  exact ⟨_, dif_pos hnodup, (hsorted.imp le_of_lt).insertionSort_eq⟩

/-- `DELETE … WHERE` -/
def deleteWhere (t : KeyedTable key) (p : ρ → Bool) : KeyedTable key :=
  ⟨t.rows.filter fun r => !p r, t.sorted.filter _⟩

/-- `UPDATE … WHERE` -/
def update? (t : KeyedTable key) (p : ρ → Bool) (f : ρ → ρ) : Option (KeyedTable key) :=
  ofRows? (t.rows.map fun r => if p r then f r else r)

/-- `INSERT … ON CONFLICT DO UPDATE` -/
def upsert (t : KeyedTable key) (r : ρ) : KeyedTable key :=
  ⟨order key (r :: t.rows.filter fun x => key x ≠ key r), order_sorted <| by
    refine List.nodup_cons.mpr ⟨fun hmem => ?_, ?_⟩
    · obtain ⟨x, hx, heq⟩ := List.mem_map.mp hmem
      exact (of_decide_eq_true (List.mem_filter.mp hx).2) heq
    · exact (List.pairwise_map.mpr (t.sorted.imp ne_of_lt)).sublist (List.filter_sublist.map key)⟩

theorem nodup_keys (t : KeyedTable key) : (t.rows.map key).Nodup := List.pairwise_map.mpr (t.sorted.imp ne_of_lt)

theorem eq_of_key (t : KeyedTable key) {a b : ρ} (ha : a ∈ t.rows) (hb : b ∈ t.rows) (h : key a = key b) : a = b :=
  List.inj_on_of_nodup_map t.nodup_keys ha hb h

theorem mem_upsert {t : KeyedTable key} {r x : ρ} :
    x ∈ (t.upsert r).rows ↔ x = r ∨ (x ∈ t.rows ∧ key x ≠ key r) := by
  change x ∈ order key _ ↔ _
  rw [mem_order, List.mem_cons, List.mem_filter, decide_eq_true_iff]

theorem mem_deleteWhere {t : KeyedTable key} {p : ρ → Bool} {r : ρ} :
    r ∈ (t.deleteWhere p).rows ↔ r ∈ t.rows ∧ p r = false := by
  change r ∈ t.rows.filter _ ↔ _
  rw [List.mem_filter, Bool.not_eq_true']

theorem mem_update? {t t' : KeyedTable key} {p : ρ → Bool} {f : ρ → ρ} (h : t.update? p f = some t') {r : ρ} :
    r ∈ t'.rows ↔ ∃ x ∈ t.rows, (if p x then f x else x) = r :=
  (mem_ofRows? h r).trans List.mem_map

theorem update?_inj {t t' : KeyedTable key} {p : ρ → Bool} {f : ρ → ρ} (h : t.update? p f = some t') {x y : ρ}
    (hx : x ∈ t.rows) (hy : y ∈ t.rows) (hkey : key (if p x then f x else x) = key (if p y then f y else y)) : x = y := by
  have hnodup := (rows_ofRows? h).1
  rw [List.map_map] at hnodup
  exact List.inj_on_of_nodup_map hnodup hx hy hkey

theorem exists_update? {t : KeyedTable key} {p : ρ → Bool} {f : ρ → ρ}
    (h : ∀ x ∈ t.rows, ∀ y ∈ t.rows, key (if p x then f x else x) = key (if p y then f y else y) → x = y) :
    ∃ t', t.update? p f = some t' := by
  have hnodup : ((t.rows.map fun r => if p r then f r else r).map key).Nodup := by
    rw [List.map_map]
    exact List.Nodup.map_on h (List.Nodup.of_map _ t.nodup_keys)
  unfold update? ofRows?
  rw [dif_pos hnodup]
  exact ⟨_, rfl⟩

end KeyedTable
