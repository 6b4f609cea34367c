/-
Grouping a list by a key, in a `Map` from each key to the list of its elements.

The groups come in the order their keys are first met, and an element keeps its
place among those of its group (`entries_foldl_add`). Read group by group, the
list keeps its elements, and keeps its order where it meets its keys in that
order already (`flatMap_filter_eq`).
-/
import ZeroSync.OrderedMap
import Mathlib.Data.List.Flatten

namespace Grouping

variable {α β κ : Type*} [DecidableEq κ]

/-- Adds `a` to the group of its key, which it starts where there is none. -/
def add (key : α → κ) (m : OrderedMap κ (List α)) (a : α) : OrderedMap κ (List α) :=
  match m.get? (key a) with
  | some existing => m.set (key a) (existing ++ [a])
  | none => m.set (key a) [a]

/-- The elements of a key. -/
def ofKey (key : α → κ) (l : List α) (k : κ) : List α := l.filter fun a => decide (key a = k)

/-! ## The order keys are first met in -/

theorem eraseDups_concat (l : List κ) (a : κ) : (l ++ [a]).eraseDups = l.eraseDups ++ if a ∈ l then [] else [a] := by
  rw [List.eraseDups_append]
  by_cases h : a ∈ l <;> simp [List.removeAll, h, List.eraseDups_cons]

theorem eraseDups_pairwise (l : List κ) : l.eraseDups.Pairwise fun a b => l.idxOf a < l.idxOf b := by
  induction l using List.reverseRecOn with
  | nil => simp
  | append_singleton l a ih =>
    have hold : l.eraseDups.Pairwise fun b c => (l ++ [a]).idxOf b < (l ++ [a]).idxOf c := by
      refine ih.imp_of_mem fun hb hc h => ?_
      rwa [List.idxOf_append_of_mem (List.mem_eraseDups.mp hb), List.idxOf_append_of_mem (List.mem_eraseDups.mp hc)]
    rw [eraseDups_concat]
    by_cases ha : a ∈ l
    · simpa [ha] using hold
    · rw [if_neg ha]
      refine List.pairwise_append.mpr ⟨hold, by simp, fun b hb c hc => ?_⟩
      obtain rfl := List.mem_singleton.mp hc
      have hb := List.mem_eraseDups.mp hb
      rw [List.idxOf_append_of_mem hb, List.idxOf_append_of_notMem ha]
      have hlt := List.idxOf_lt_length_of_mem hb
      omega

theorem nodup_eraseDups (l : List κ) : l.eraseDups.Nodup :=
  (eraseDups_pairwise l).imp fun h he => by rw [he] at h; exact Nat.lt_irrefl _ h

/-! ## The groups -/

theorem lookup_map (ks : List κ) (f : κ → α) (k : κ) :
    OrderedMap.lookup k (ks.map fun k => (k, f k)) = if k ∈ ks then some (f k) else none := by
  induction ks with
  | nil => rfl
  | cons k' ks ih =>
    by_cases h : k' = k
    · simp [OrderedMap.lookup, h]
    · have h' : ¬ k = k' := fun he => h he.symm
      simp [OrderedMap.lookup, h, h', ih]

theorem setEntries_map {ks : List κ} (hks : ks.Nodup) (f : κ → α) {k : κ} (hk : k ∈ ks) (v : α) :
    OrderedMap.setEntries k v (ks.map fun k => (k, f k)) = ks.map fun k' => (k', if k' = k then v else f k') := by
  induction ks with
  | nil => cases hk
  | cons k' ks ih =>
    obtain ⟨hnot, hks⟩ := List.nodup_cons.mp hks
    by_cases h : k' = k
    · subst h
      have hrest : (ks.map fun k => (k, f k)) = ks.map fun k => (k, if k = k' then v else f k) := by
        refine List.map_congr_left fun k hk => ?_
        have hne : k ≠ k' := fun he => hnot (he ▸ hk)
        rw [if_neg hne]
      simp [OrderedMap.setEntries, hrest]
    · have hk : k ∈ ks := (List.mem_cons.mp hk).resolve_left fun he => h he.symm
      simp [OrderedMap.setEntries, h, ih hks hk]

theorem ofKey_concat (key : α → κ) (l : List α) (a : α) (k : κ) :
    ofKey key (l ++ [a]) k = ofKey key l k ++ if k = key a then [a] else [] := by
  rw [ofKey, List.filter_append]
  by_cases h : key a = k
  · simp [ofKey, h]
  · have h' : ¬ k = key a := fun he => h he.symm
    simp [ofKey, h, h']

/-- **The groups: their keys as they are first met, their elements as they stand.** -/
theorem entries_foldl_add (key : α → κ) (l : List α) :
    (l.foldl (add key) ∅).entries = (l.map key).eraseDups.map fun k => (k, ofKey key l k) := by
  induction l using List.reverseRecOn with
  | nil => rfl
  | append_singleton l a ih =>
    rw [List.foldl_append, List.map_append, List.map_singleton, eraseDups_concat]
    have hget : (l.foldl (add key) ∅).get? (key a) = if key a ∈ l.map key then some (ofKey key l (key a)) else none := by
      rw [OrderedMap.get?, ih, lookup_map]
      simp only [List.mem_eraseDups]
    simp only [List.foldl_cons, List.foldl_nil, add, hget]
    by_cases ha : key a ∈ l.map key
    · simp only [if_pos ha, OrderedMap.set, List.append_nil]
      rw [ih, setEntries_map (nodup_eraseDups _) _ (List.mem_eraseDups.mpr ha)]
      refine List.map_congr_left fun k _ => ?_
      rw [ofKey_concat]
      by_cases hk : k = key a <;> simp [hk]
    · have hnot : key a ∉ (l.foldl (add key) ∅).entries.map (·.1) := by
        rw [ih, List.map_map]
        simpa [Function.comp_def] using ha
      simp only [if_neg ha, OrderedMap.set]
      rw [OrderedMap.setEntries_of_notMem hnot, ih, List.map_append, List.map_singleton]
      have hnil : ofKey key l (key a) = [] := by
        refine List.filter_eq_nil_iff.mpr fun b hb he => ha ?_
        rw [← of_decide_eq_true he]
        exact List.mem_map_of_mem hb
      congr 1
      · refine List.map_congr_left fun k hk => ?_
        have hne : k ≠ key a := fun he => ha (he ▸ List.mem_eraseDups.mp hk)
        rw [ofKey_concat, if_neg hne, List.append_nil]
      · rw [ofKey_concat, if_pos rfl, hnil, List.nil_append]

/-! ## A list read group by group -/

theorem ofKey_filter_ne (key : α → κ) (l : List α) {k k' : κ} (h : k' ≠ k) :
    ofKey key (l.filter fun a => decide (key a ≠ k)) k' = ofKey key l k' := by
  rw [ofKey, ofKey, List.filter_filter]
  refine List.filter_congr fun a _ => ?_
  by_cases ha : key a = k'
  · simp [ha, h]
  · simp [ha]

theorem flatMap_ofKey_filter_ne (key : α → κ) (l : List α) {k : κ} {ks : List κ} (h : k ∉ ks) :
    ks.flatMap (ofKey key (l.filter fun a => decide (key a ≠ k))) = ks.flatMap (ofKey key l) :=
  List.flatMap_congr fun _ hk' => ofKey_filter_ne key l fun he => h (he ▸ hk')

theorem flatMap_ofKey_perm (key : α → κ) {l : List α} {ks : List κ} (hks : ks.Nodup) (hmem : ∀ a ∈ l, key a ∈ ks) :
    (ks.flatMap (ofKey key l)).Perm l := by
  induction ks generalizing l with
  | nil =>
    obtain rfl : l = [] := List.eq_nil_iff_forall_not_mem.mpr fun a ha => nomatch hmem a ha
    simp
  | cons k ks ih =>
    obtain ⟨hnot, hks⟩ := List.nodup_cons.mp hks
    have hrest : ∀ a ∈ l.filter (fun a => decide (key a ≠ k)), key a ∈ ks := fun a ha =>
      (List.mem_cons.mp (hmem a (List.mem_filter.mp ha).1)).resolve_left (of_decide_eq_true (List.mem_filter.mp ha).2)
    have hperm := ih hks hrest
    rw [flatMap_ofKey_filter_ne key l hnot] at hperm
    rw [List.flatMap_cons]
    refine (hperm.append_left _).trans ?_
    have hsplit := List.filter_append_perm (fun a => decide (key a = k)) l
    simpa [ofKey] using hsplit

theorem filter_append_filter_eq {p : α → Bool} {l : List α} (h : l.Pairwise fun a b => p b = true → p a = true) :
    (l.filter p ++ l.filter fun a => !p a) = l := by
  induction l with
  | nil => rfl
  | cons a l ih =>
    obtain ⟨hhead, htail⟩ := List.pairwise_cons.mp h
    cases ha : p a with
    | true => simpa [ha] using ih htail
    | false =>
      have hnone : l.filter p = [] :=
        List.filter_eq_nil_iff.mpr fun b hb hpb => Bool.false_ne_true (ha.symm.trans (hhead b hb hpb))
      have hall : (l.filter fun a => !p a) = l :=
        List.filter_eq_self.mpr fun b hb => by
          rw [Bool.not_eq_true', ← Bool.not_eq_true]
          exact fun hpb => Bool.false_ne_true (ha.symm.trans (hhead b hb hpb))
      simp [ha, hnone, hall]

/-- **A list that meets its keys in the order of its groups is its groups, one after another.** -/
theorem flatMap_ofKey_eq (key : α → κ) (rank : κ → ℕ) {l : List α} {ks : List κ}
    (hks : ks.Pairwise fun a b => rank a < rank b) (hmem : ∀ a ∈ l, key a ∈ ks)
    (hl : l.Pairwise fun a b => rank (key a) ≤ rank (key b)) : ks.flatMap (ofKey key l) = l := by
  induction ks generalizing l with
  | nil => exact (List.eq_nil_iff_forall_not_mem.mpr fun a ha => nomatch hmem a ha).symm
  | cons k ks ih =>
    obtain ⟨hfirst, hks⟩ := List.pairwise_cons.mp hks
    have hnot : k ∉ ks := fun hk => Nat.lt_irrefl _ (hfirst k hk)
    have hrest : ∀ a ∈ l.filter (fun a => decide (key a ≠ k)), key a ∈ ks := fun a ha =>
      (List.mem_cons.mp (hmem a (List.mem_filter.mp ha).1)).resolve_left (of_decide_eq_true (List.mem_filter.mp ha).2)
    have hprefix : l.Pairwise fun a b => decide (key b = k) = true → decide (key a = k) = true := by
      refine hl.imp_of_mem fun {a b} ha _ hab hb => decide_eq_true ?_
      rcases List.mem_cons.mp (hmem a ha) with hk | hk
      · exact hk
      · have hlt := hfirst _ hk
        rw [of_decide_eq_true hb] at hab
        exact absurd hlt (Nat.not_lt.mpr hab)
    have hih := ih hks hrest (hl.sublist List.filter_sublist)
    rw [flatMap_ofKey_filter_ne key l hnot] at hih
    rw [List.flatMap_cons, hih]
    simpa [ofKey] using filter_append_filter_eq hprefix

/-- Where a value is first met among the keys, when another function tells the keys apart as well. -/
theorem idxOf_map_congr [DecidableEq β] {f : α → κ} {g : α → β} {l : List α} {a : α}
    (h : ∀ b ∈ l, f b = f a ↔ g b = g a) : (l.map f).idxOf (f a) = (l.map g).idxOf (g a) := by
  induction l with
  | nil => rfl
  | cons b l ih =>
    obtain ⟨hb, hl⟩ := List.forall_mem_cons.mp h
    rw [List.map_cons, List.map_cons, List.idxOf_cons, List.idxOf_cons, ih hl]
    by_cases hba : f b = f a
    · rw [hba, hb.mp hba, beq_self_eq_true, beq_self_eq_true]
    · have hgba : ¬ g b = g a := fun hg => hba (hb.mpr hg)
      rw [beq_false_of_ne hba, beq_false_of_ne hgba]

theorem filter_flatMap_ofKey (key : α → κ) (p : α → Bool) (l : List α) (ks : List κ) :
    (ks.flatMap (ofKey key l)).filter p = ks.flatMap (ofKey key (l.filter p)) := by
  rw [List.filter_flatMap]
  refine List.flatMap_congr fun k _ => ?_
  rw [ofKey, ofKey, List.filter_filter, List.filter_filter]
  exact List.filter_congr fun a _ => Bool.and_comm ..

/-! ## Two elements of different groups -/

omit [DecidableEq κ] in
theorem pair_sublist {rank : κ → ℕ} {ks : List κ} (hks : ks.Pairwise fun a b => rank a < rank b) {a b : κ}
    (ha : a ∈ ks) (hb : b ∈ ks) (hab : rank a < rank b) : [a, b].Sublist ks := by
  induction ks with
  | nil => cases ha
  | cons k ks ih =>
    obtain ⟨hfirst, hks⟩ := List.pairwise_cons.mp hks
    rcases List.mem_cons.mp ha with rfl | ha'
    · have hb' : b ∈ ks := (List.mem_cons.mp hb).resolve_left fun he => by rw [he] at hab; exact Nat.lt_irrefl _ hab
      exact (List.singleton_sublist.mpr hb').cons_cons _
    · rcases List.mem_cons.mp hb with rfl | hb'
      · exact absurd (hfirst a ha') (Nat.not_lt.mpr (Nat.le_of_lt hab))
      · exact (ih hks ha' hb').cons _

omit [DecidableEq κ] in
theorem pair_sublist_flatMap {f : κ → List α} {ks : List κ} {k k' : κ} {a b : α} (hks : [k, k'].Sublist ks)
    (ha : a ∈ f k) (hb : b ∈ f k') : [a, b].Sublist (ks.flatMap f) := by
  have hpair : [a, b].Sublist ([k, k'].flatMap f) := by
    have h := (List.singleton_sublist.mpr ha).append (List.singleton_sublist.mpr hb)
    simpa using h
  exact hpair.trans (hks.flatMap f)

omit [DecidableEq κ] in
theorem not_pair_sublist_swap {l : List α} (hl : l.Nodup) {a b : α} (h : [a, b].Sublist l) : ¬ [b, a].Sublist l := by
  intro h'
  induction l with
  | nil => cases h
  | cons c l ih =>
    obtain ⟨hnot, hl⟩ := List.nodup_cons.mp hl
    cases h with
    | cons _ h =>
      cases h' with
      | cons _ h' => exact ih hl h h'
      | cons_cons _ h' => exact hnot (h.subset (by simp))
    | cons_cons _ h =>
      cases h' with
      | cons _ h' => exact hnot (h'.subset (by simp))
      | cons_cons _ h' => exact hnot (h.subset (by simp))

end Grouping
