/-
`apply` of a patch leaves what its operations leave one after another, when the
keys that it loads in bulk ascend by their code units; otherwise it fails.

The last operation of each key decides (`runPatch_plain`), in whatever order
the others come; the leading puts go to `putMany`, whose assertion compares
strings as JS does and not as the tree and `optimizePatch` order them.
-/
import ZeroSync.Patch
import Mathlib.Data.List.Sort

namespace ZeroSync

open PatchOperation

variable {α : Type} {view view' : View α} {patch rest ops : List (PatchOperation α)} {p : PatchOperation α} {key : String}

namespace PatchOperation

/-- A put or a delete. -/
def isPlain : PatchOperation α → Bool
  | put _ _ | del _ => true
  | _ => false

/-- `op === 'update'`. -/
def isUpdate : PatchOperation α → Bool
  | update _ _ _ => true
  | _ => false

/-- What a put or a delete leaves at its key. -/
def effect : PatchOperation α → Option (JSONValue α)
  | put _ value => some value
  | _ => none

end PatchOperation

/-- The last operation on a key. -/
def lastOp (key : String) : List (PatchOperation α) → Option (PatchOperation α)
  | [] => none
  | p :: patch => (lastOp key patch).or (if p.key? = some key then some p else none)

/-- The operations after the last clear. -/
def afterClear (patch : List (PatchOperation α)) : List (PatchOperation α) :=
  match clearIndex patch with
  | none => patch
  | some i => patch.drop (i + 1)

/-! ## The last clear -/

theorem clearIndex_none (h : clearIndex patch = none) : ∀ p ∈ patch, p.isClear = false := by
  induction patch with
  | nil => simp
  | cons q patch ih =>
    rw [clearIndex] at h
    split at h
    · cases h
    · next hrest =>
      split at h
      · cases h
      · next hq => exact List.forall_mem_cons.mpr ⟨by simpa using hq, ih hrest⟩

theorem clearIndex_some {i : ℕ} (h : clearIndex patch = some i) : ∃ A B, patch = A ++ .clear :: B ∧ A.length = i ∧
    ∀ p ∈ B, p.isClear = false := by
  induction patch generalizing i with
  | nil => cases h
  | cons q patch ih =>
    rw [clearIndex] at h
    split at h
    · next j hj =>
      obtain ⟨A, B, rfl, rfl, hB⟩ := ih hj
      cases h
      exact ⟨q :: A, B, rfl, rfl, hB⟩
    · next hrest =>
      split at h
      · next hq =>
        cases h
        cases q with
        | clear => exact ⟨[], patch, rfl, rfl, clearIndex_none hrest⟩
        | _ => simp [isClear] at hq
      · cases h

/-! ## The operations that are kept -/

theorem lastOp_mem (h : lastOp key patch = some p) : p ∈ patch ∧ p.key? = some key := by
  induction patch with
  | nil => cases h
  | cons q patch ih =>
    rw [lastOp, Option.or_eq_some_iff] at h
    rcases h with h | ⟨-, h⟩
    · exact ⟨List.mem_cons_of_mem _ (ih h).1, (ih h).2⟩
    · split at h
      · next hq => cases h; exact ⟨List.mem_cons_self .., hq⟩
      · cases h

theorem lastOp_none (h : lastOp key patch = none) : ∀ p ∈ patch, p.key? ≠ some key := by
  induction patch with
  | nil => simp
  | cons q patch ih =>
    rw [lastOp, Option.or_eq_none_iff] at h
    refine List.forall_mem_cons.mpr ⟨fun hq => ?_, ih h.1⟩
    rw [if_pos hq] at h
    cases h.2

theorem lastOp_of_mem (hnodup : (ops.map (·.key?)).Nodup) (hp : p ∈ ops) (hkey : p.key? = some key) :
    lastOp key ops = some p := by
  cases hlast : lastOp key ops with
  | none => exact absurd hkey (lastOp_none hlast p hp)
  | some q =>
    obtain ⟨hq, hqkey⟩ := lastOp_mem hlast
    rw [List.inj_on_of_nodup_map hnodup hq hp (hqkey.trans hkey.symm)]

theorem collectKeyOps_none (keyOps : OrderedMap String (PatchOperation α)) :
    collectKeyOps keyOps rest = none ↔ rest.any isUpdate = true := by
  induction rest generalizing keyOps with
  | nil => simp [collectKeyOps]
  | cons q rest ih => cases q <;> simp [collectKeyOps, isUpdate, ih]

theorem collectKeyOps_get? {keyOps result : OrderedMap String (PatchOperation α)} (hclear : ∀ p ∈ rest, p.isClear = false)
    (h : collectKeyOps keyOps rest = some result) (key : String) :
    result.get? key = (lastOp key rest).or (keyOps.get? key) := by
  induction rest generalizing keyOps with
  | nil =>
    cases h
    rfl
  | cons q rest ih =>
    obtain ⟨hq, hrest⟩ := List.forall_mem_cons.mp hclear
    cases q with
    | put k v | del k =>
      rw [collectKeyOps] at h
      rw [ih hrest h, OrderedMap.get?_set, lastOp, Option.or_assoc]
      simp only [key?, Option.some.injEq]
      split <;> simp
    | update k m c => cases h
    | clear => cases hq

theorem collectKeyOps_entries {keyOps result : OrderedMap String (PatchOperation α)}
    (hkept : ∀ e ∈ keyOps.entries, e.2.key? = some e.1 ∧ e.2.isPlain = true) (h : collectKeyOps keyOps rest = some result) :
    ∀ e ∈ result.entries, e.2.key? = some e.1 ∧ e.2.isPlain = true := by
  induction rest generalizing keyOps with
  | nil =>
    cases h
    exact hkept
  | cons q rest ih =>
    cases q with
    | put k v | del k =>
      rw [collectKeyOps] at h
      refine ih (fun e he => ?_) h
      obtain ⟨k', q⟩ := e
      rw [OrderedMap.mem_entries_iff, OrderedMap.get?_set] at he
      split at he
      · next heq =>
        cases he
        exact ⟨congrArg some heq, rfl⟩
      · exact hkept _ ((OrderedMap.mem_entries_iff ..).mpr he)
    | update k m c => cases h
    | clear => exact ih hkept h

/-! ## Running plain operations -/

/-- The view after puts and deletes. -/
def View.after (view : View α) (ops : List (PatchOperation α)) : View α := fun key =>
  match lastOp key ops with
  | some p => p.effect
  | none => view key

/-- **The last operation decides** what a key holds. -/
theorem runPatch_plain (hplain : ∀ p ∈ ops, p.isPlain = true) : runPatch view ops = .ok (view.after ops) := by
  induction ops generalizing view with
  | nil => rfl
  | cons q ops ih =>
    obtain ⟨hq, hops⟩ := List.forall_mem_cons.mp hplain
    rw [runPatch, List.foldlM_cons]
    have hstep : q.run view = .ok (view.after [q]) := by
      cases q with
      | put k v =>
        refine congrArg Except.ok (funext fun key => ?_)
        by_cases hk : k = key
        · simp [View.after, View.put, lastOp, key?, effect, hk]
        · simp [View.after, View.put, lastOp, key?, hk, Ne.symm hk]
      | del k =>
        refine congrArg Except.ok (funext fun key => ?_)
        by_cases hk : k = key
        · simp [View.after, View.del, lastOp, key?, effect, hk]
        · simp [View.after, View.del, lastOp, key?, hk, Ne.symm hk]
      | update k m c => cases hq
      | clear => cases hq
    rw [hstep]
    refine (ih hops).trans (congrArg Except.ok (funext fun key => ?_))
    simp only [View.after, lastOp, Option.none_or]
    cases lastOp key ops <;> rfl

/-! ## Loading in bulk -/

theorem stringLt_trans {a b c : String} (hab : stringLt a b = true) (hbc : stringLt b c = true) : stringLt a c = true := by
  simp only [stringLt, decide_eq_true_eq] at hab hbc ⊢
  exact lt_trans hab hbc

/-- The assertion of `putMany`, for any two keys. -/
theorem ascending_iff (keys : List String) :
    View.ascending keys = true ↔ keys.Pairwise fun key key' => stringLt key key' = true := by
  induction keys with
  | nil => simp [View.ascending]
  | cons key keys ih =>
    cases keys with
    | nil => simp [View.ascending]
    | cons key' keys =>
      rw [View.ascending, Bool.and_eq_true, ih, List.pairwise_cons (a := key)]
      refine and_congr_left fun hrest => ?_
      rw [List.forall_mem_cons]
      refine ⟨fun h => ⟨h, fun x hx => stringLt_trans h ((List.pairwise_cons.mp hrest).1 x hx)⟩, fun h => h.1⟩

/-- The puts that come first. -/
def leadingPuts (ops : List (PatchOperation α)) : List (String × JSONValue α) :=
  (ops.takeWhile (·.asPut.isSome)).filterMap (·.asPut)

theorem applyOne_eq_run (h : p.isClear = false) : applyOne view p = p.run view := by
  cases p with
  | put k v => rfl
  | update k m c => rfl
  | del k =>
    rw [applyOne, PatchOperation.run]
    refine congrArg Except.ok (funext fun key => ?_)
    split
    · rfl
    · next hnone =>
      rw [Option.not_isSome_iff_eq_none] at hnone
      rw [View.del]
      split
      · next heq => rw [heq, hnone]
      · rfl
  | clear => cases h

theorem foldlM_applyOne (hclear : ∀ p ∈ ops, p.isClear = false) : ops.foldlM applyOne view = runPatch view ops := by
  induction ops generalizing view with
  | nil => rfl
  | cons q ops ih =>
    obtain ⟨hq, hops⟩ := List.forall_mem_cons.mp hclear
    rw [runPatch, List.foldlM_cons, List.foldlM_cons, applyOne_eq_run hq]
    exact congrArg _ (funext fun view => ih hops)

theorem runPatch_puts (hputs : ∀ p ∈ ops, p.asPut.isSome = true) :
    runPatch view ops = .ok ((ops.filterMap (·.asPut)).foldl (fun view e => view.put e.1 e.2) view) := by
  induction ops generalizing view with
  | nil => rfl
  | cons q ops ih =>
    obtain ⟨hq, hops⟩ := List.forall_mem_cons.mp hputs
    cases q with
    | put k v => exact ih hops
    | _ => cases hq

/-- **Bulk loading** the leading puts, and the rest one by one. -/
theorem load_spec (hclear : ∀ p ∈ ops, p.isClear = false) :
    (do
      let view ← bulkLoadPuts view (ops.takeWhile (·.asPut.isSome))
      (ops.drop (ops.takeWhile (·.asPut.isSome)).length).foldlM applyOne view) =
    if View.ascending ((leadingPuts ops).map (·.1)) then runPatch view ops else .error .notSorted := by
  rw [bulkLoadPuts, View.putMany]
  show (if View.ascending ((leadingPuts ops).map (·.1)) then _ else _) >>= _ = _
  split
  · have hsplit : ops.takeWhile (·.asPut.isSome) ++ ops.dropWhile (·.asPut.isSome) = ops := List.takeWhile_append_dropWhile
    have hdrop : ops.drop (ops.takeWhile (·.asPut.isSome)).length = ops.dropWhile (·.asPut.isSome) := by
      conv_lhs => rw [← hsplit]
      rw [List.drop_left']
      rw [hsplit]
    have hputs : runPatch view (ops.takeWhile (·.asPut.isSome)) = _ :=
      runPatch_puts fun p hp => List.all_eq_true.mp List.all_takeWhile p hp
    rw [hdrop]
    show List.foldlM applyOne _ _ = _
    rw [foldlM_applyOne fun p hp => hclear p (List.dropWhile_sublist _ |>.subset hp)]
    conv_rhs => rw [← hsplit, runPatch, List.foldlM_append]
    show _ = runPatch view _ >>= _
    rw [hputs]
    rfl
  · rfl

/-! ## The sorted result -/

instance : IsTrans (PatchOperation α) before where
  trans a b c hab hbc := by
    cases ha : a.key? <;> cases hb : b.key? <;> cases hc : c.key? <;> simp_all [before]
    exact le_trans hab hbc

instance : Std.Total (before (α := α)) where
  total a b := by
    cases ha : a.key? <;> cases hb : b.key? <;> simp [before, ha, hb]
    exact le_total _ _

/-- The keys of plain operations in order. -/
def Ascends (ops : List (PatchOperation α)) : Prop := ops.Pairwise fun p q => ∃ k k', p.key? = some k ∧ q.key? = some k' ∧ k < k'

theorem ascends_insertionSort (hplain : ∀ p ∈ ops, p.isPlain = true) (hnodup : (ops.map (·.key?)).Nodup) :
    Ascends (ops.insertionSort before) := by
  have hperm := List.perm_insertionSort before ops
  have hdistinct : (ops.insertionSort before).Pairwise fun p q => p.key? ≠ q.key? := by
    rw [← List.pairwise_map]
    exact (hperm.map _).nodup_iff.mpr hnodup
  refine ((List.pairwise_insertionSort before ops).and hdistinct).imp_of_mem fun {p q} hp hq hpq => ?_
  have hp := hplain p (hperm.mem_iff.mp hp)
  have hq := hplain q (hperm.mem_iff.mp hq)
  obtain ⟨k, hk⟩ : ∃ k, p.key? = some k := by cases p <;> simp [key?, isPlain] at hp ⊢
  obtain ⟨k', hk'⟩ : ∃ k, q.key? = some k := by cases q <;> simp [key?, isPlain] at hq ⊢
  refine ⟨k, k', hk, hk', ?_⟩
  simp only [before, hk, hk', ne_eq, Option.some.injEq] at hpq
  exact lt_of_le_of_ne hpq.1 hpq.2

theorem mem_leadingPuts (hplain : ∀ p ∈ ops, p.isPlain = true) (h : Ascends ops) (key : String) :
    key ∈ (leadingPuts ops).map (·.1) ↔
      (∃ value, .put key value ∈ ops) ∧ ∀ key' < key, .del key' ∉ ops := by
  induction ops with
  | nil => simp [leadingPuts]
  | cons q ops ih =>
    obtain ⟨hq, hops⟩ := List.forall_mem_cons.mp hplain
    obtain ⟨hfirst, hrest⟩ := List.pairwise_cons.mp h
    have hlater : ∀ {k k' : String} {p : PatchOperation α}, q.key? = some k → p ∈ ops → p.key? = some k' → k < k' := by
      intro k k' p hk hp hk'
      obtain ⟨x, y, hx, hy, hxy⟩ := hfirst p hp
      rw [hk] at hx
      rw [hk'] at hy
      cases hx
      cases hy
      exact hxy
    cases q with
    | put k v =>
      have hcons : leadingPuts (.put k v :: ops) = (k, v) :: leadingPuts ops := rfl
      rw [hcons, List.map_cons, List.mem_cons, ih hops hrest]
      constructor
      · rintro (rfl | ⟨⟨value, hmem⟩, hdel⟩)
        · refine ⟨⟨v, List.mem_cons_self ..⟩, fun key' hlt hmem => ?_⟩
          rcases List.mem_cons.mp hmem with heq | hmem
          · cases heq
          · exact lt_asymm hlt (hlater rfl hmem rfl)
        · exact ⟨⟨value, List.mem_cons_of_mem _ hmem⟩, fun key' hlt hmem =>
            hdel key' hlt ((List.mem_cons.mp hmem).resolve_left fun heq => by cases heq)⟩
      · rintro ⟨⟨value, hmem⟩, hdel⟩
        rcases List.mem_cons.mp hmem with heq | hmem
        · cases heq
          exact .inl rfl
        · exact .inr ⟨⟨value, hmem⟩, fun key' hlt hmem => hdel key' hlt (List.mem_cons_of_mem _ hmem)⟩
    | del k =>
      refine iff_of_false (by simp [leadingPuts, asPut]) ?_
      rintro ⟨⟨value, hmem⟩, hdel⟩
      rcases List.mem_cons.mp hmem with heq | hmem
      · cases heq
      · exact hdel k (hlater rfl hmem rfl) (List.mem_cons_self ..)
    | update k m c => cases hq
    | clear => cases hq

theorem ascends_leadingPuts (h : Ascends ops) : ((leadingPuts ops).map (·.1)).Pairwise (· < ·) := by
  have htake := h.sublist (List.takeWhile_sublist (fun p => p.asPut.isSome))
  rw [leadingPuts, List.pairwise_map, List.pairwise_filterMap]
  refine htake.imp fun {p q} hpq x hx y hy => ?_
  obtain ⟨k, k', hk, hk', hlt⟩ := hpq
  cases p <;> cases hx
  cases q <;> cases hy
  cases hk
  cases hk'
  exact hlt

theorem pairwise_iff_of_ascending {keys : List String} (h : keys.Pairwise (· < ·)) {R : String → String → Prop} :
    keys.Pairwise R ↔ ∀ key ∈ keys, ∀ key' ∈ keys, key < key' → R key key' := by
  constructor
  · intro hR key hkey key' hkey' hlt
    have hand := List.Pairwise.and h hR
    exact List.Pairwise.forall_of_forall_of_flip (R := fun a b => a < b → R a b) (fun _ _ hlt => absurd hlt (lt_irrefl _))
      (hand.imp fun hab _ => hab.2) (hand.imp fun {a b} hab hlt => absurd hlt (lt_asymm hab.1)) hkey hkey' hlt
  · intro hall
    exact h.imp_of_mem fun ha hb hlt => hall _ ha _ hb hlt

/-! ## The operations that are left -/

variable {keyOps : OrderedMap String (PatchOperation α)}

theorem mem_keyOps_values (hclear : ∀ p ∈ rest, p.isClear = false) (h : collectKeyOps ∅ rest = some keyOps) :
    p ∈ keyOps.values ↔ ∃ key, lastOp key rest = some p := by
  rw [OrderedMap.mem_values_iff]
  refine exists_congr fun key => ?_
  rw [collectKeyOps_get? hclear h, OrderedMap.get?_empty, Option.or_none]

theorem keyOps_values_plain (h : collectKeyOps ∅ rest = some keyOps) : ∀ p ∈ keyOps.values, p.isPlain = true := by
  intro p hp
  obtain ⟨e, he, rfl⟩ := List.mem_map.mp hp
  exact (collectKeyOps_entries (fun e he => absurd he List.not_mem_nil) h e he).2

theorem keyOps_values_nodup (h : collectKeyOps ∅ rest = some keyOps) : (keyOps.values.map (·.key?)).Nodup := by
  have hkeys : keyOps.values.map (·.key?) = keyOps.keys.map some := by
    rw [OrderedMap.values, OrderedMap.keys, List.map_map, List.map_map]
    exact List.map_congr_left fun e he => (collectKeyOps_entries (fun e he => absurd he List.not_mem_nil) h e he).1
  rw [hkeys]
  exact keyOps.nodup.map (Option.some_injective _)

/-- The operations that `optimizePatch` leaves of those after the last clear;
deletes are dropped after a clear. -/
structure Left (dropped : Bool) (rest ops : List (PatchOperation α)) : Prop where
  plain : ∀ p ∈ ops, p.isPlain = true
  ascends : Ascends ops
  nodup : (ops.map (·.key?)).Nodup
  mem : ∀ p, p ∈ ops ↔ (∃ key, lastOp key rest = some p) ∧ (dropped = true → p.isDel = false)

theorem left_of_collect (dropped : Bool) (hclear : ∀ p ∈ rest, p.isClear = false) (h : collectKeyOps ∅ rest = some keyOps) :
    Left dropped rest ((keyOps.values.filter fun p => !dropped || !p.isDel).insertionSort before) := by
  have hperm := List.perm_insertionSort before (keyOps.values.filter fun p => !dropped || !p.isDel)
  have hplain : ∀ p ∈ keyOps.values.filter fun p => !dropped || !p.isDel, p.isPlain = true :=
    fun p hp => keyOps_values_plain h p (List.mem_filter.mp hp).1
  have hnodup : ((keyOps.values.filter fun p => !dropped || !p.isDel).map (·.key?)).Nodup :=
    (keyOps_values_nodup h).sublist (List.filter_sublist.map _)
  refine ⟨fun p hp => hplain p (hperm.mem_iff.mp hp), ascends_insertionSort hplain hnodup, (hperm.map _).nodup_iff.mpr hnodup,
    fun p => ?_⟩
  rw [hperm.mem_iff, List.mem_filter, mem_keyOps_values hclear h]
  refine and_congr_right fun _ => ?_
  cases dropped <;> simp

/-- **What is left does what the operations did**; without its deletes, on the empty view. -/
theorem Left.after {dropped : Bool} (h : Left dropped rest ops)
    (hview : dropped = true → view = View.clear) : view.after ops = view.after rest := by
  funext key
  rw [View.after, View.after]
  cases hlast : lastOp key rest with
  | none =>
    have hnone : lastOp key ops = none := by
      by_contra hne
      obtain ⟨q, hq⟩ := Option.ne_none_iff_exists'.mp hne
      obtain ⟨hmem, hkey⟩ := lastOp_mem hq
      obtain ⟨⟨k, hk⟩, -⟩ := (h.mem q).mp hmem
      obtain ⟨hqrest, -⟩ := lastOp_mem hk
      exact lastOp_none hlast q hqrest hkey
    rw [hnone]
  | some p =>
    obtain ⟨hp, hkey⟩ := lastOp_mem hlast
    by_cases hdel : dropped = true → p.isDel = false
    · rw [lastOp_of_mem h.nodup ((h.mem p).mpr ⟨⟨key, hlast⟩, hdel⟩) hkey]
    · -- A delete that was dropped: the key is not there.
      rw [Classical.not_imp] at hdel
      have hnone : lastOp key ops = none := by
        by_contra hne
        obtain ⟨q, hq⟩ := Option.ne_none_iff_exists'.mp hne
        obtain ⟨hmem, hqkey⟩ := lastOp_mem hq
        obtain ⟨⟨k, hk⟩, hqdel⟩ := (h.mem q).mp hmem
        have hsame : k = key := Option.some.inj ((lastOp_mem hk).2.symm.trans hqkey)
        rw [hsame, hlast] at hk
        cases hk
        exact hdel.2 (hqdel hdel.1)
      rw [hnone, hview hdel.1]
      cases p with
      | del k => rfl
      | _ => exact absurd rfl hdel.2

/-! ## Applying a patch -/

/-- A key is loaded in bulk: the last operation on it is a put and, without a
clear, no key before it is deleted. -/
structure Loaded (patch : List (PatchOperation α)) (key : String) : Prop where
  put : ∃ value, lastOp key (afterClear patch) = some (.put key value)
  first : clearIndex patch = none → ∀ key' < key, lastOp key' (afterClear patch) ≠ some (.del key')

/-- The keys that are loaded in bulk ascend by their code units. With an update
after the last clear these are the keys of the puts that come first, as they stand. -/
def LoadsInOrder (patch : List (PatchOperation α)) : Prop :=
  if (afterClear patch).any isUpdate then
    ((leadingPuts (afterClear patch)).map (·.1)).Pairwise fun key key' => stringLt key key' = true
  else ∀ key key', Loaded patch key → Loaded patch key' → key < key' → stringLt key key' = true

theorem Left.loaded {dropped : Bool} (h : Left dropped (afterClear patch) ops)
    (hdropped : dropped = true ↔ clearIndex patch ≠ none) (key : String) :
    key ∈ (leadingPuts ops).map (·.1) ↔ Loaded patch key := by
  rw [mem_leadingPuts h.plain h.ascends]
  have hput {value : JSONValue α} :
      .put key value ∈ ops ↔ lastOp key (afterClear patch) = some (.put key value) := by
    rw [h.mem]
    refine ⟨fun ⟨⟨k, hk⟩, _⟩ => ?_, fun hlast => ⟨⟨key, hlast⟩, fun _ => rfl⟩⟩
    obtain rfl := Option.some.inj (lastOp_mem hk).2
    exact hk
  have hdel {key' : String} : .del key' ∈ ops ↔
      lastOp key' (afterClear patch) = some (.del key') ∧ dropped = false := by
    rw [h.mem]
    refine ⟨fun ⟨⟨k, hk⟩, hno⟩ => ?_, fun ⟨hlast, hno⟩ => ⟨⟨key', hlast⟩, fun hd => absurd hd (by simp [hno])⟩⟩
    obtain rfl := Option.some.inj (lastOp_mem hk).2
    exact ⟨hk, Bool.eq_false_iff.mpr fun hd => absurd (hno hd) (by simp [isDel])⟩
  simp only [hput, hdel, ← Bool.not_eq_true, hdropped, not_and, not_not]
  constructor
  · rintro ⟨hputs, hfirst⟩
    exact ⟨hputs, fun hnone key' hlt hlast => hfirst key' hlt hlast hnone⟩
  · rintro ⟨hputs, hfirst⟩
    exact ⟨hputs, fun key' hlt hlast hnone => hfirst hnone key' hlt hlast⟩

/-- What `apply` does with an optimized patch: from a view, the operations `ops`. -/
structure Applies (view : View α) (patch : List (PatchOperation α)) (start : View α) (ops : List (PatchOperation α)) :
    Prop where
  apply : applyPatch view patch = if View.ascending ((leadingPuts ops).map (·.1)) then runPatch start ops else .error .notSorted
  run : ∀ view', runPatch view patch = .ok view' → runPatch start ops = .ok view'
  ascending : View.ascending ((leadingPuts ops).map (·.1)) = true ↔ LoadsInOrder patch

theorem applyPatch_load (h : optimizePatch patch = ops) (hclear : ∀ p ∈ ops, p.isClear = false) :
    applyPatch view patch =
      if View.ascending ((leadingPuts ops).map (·.1)) then runPatch view ops else .error .notSorted := by
  rw [← load_spec hclear, applyPatch, h]
  cases ops with
  | nil => rfl
  | cons q ops =>
    cases q with
    | clear => cases hclear _ (List.mem_cons_self ..)
    | _ => rfl

theorem applyPatch_clear (h : optimizePatch patch = .clear :: ops) (hclear : ∀ p ∈ ops, p.isClear = false) :
    applyPatch view patch =
      if View.ascending ((leadingPuts ops).map (·.1)) then runPatch View.clear ops else .error .notSorted := by
  rw [← load_spec hclear, applyPatch, h]

theorem isPlain_of_not_update (hclear : ∀ p ∈ rest, p.isClear = false) (hno : rest.any isUpdate = false) :
    ∀ p ∈ rest, p.isPlain = true := by
  intro p hp
  have hc := hclear p hp
  have hu := List.any_eq_false.mp hno p hp
  cases p <;> simp_all [isClear, isUpdate, isPlain]

theorem Left.isClear {dropped : Bool} (h : Left dropped rest ops) : ∀ p ∈ ops, p.isClear = false := by
  intro p hp
  have hplain := h.plain p hp
  cases p <;> simp_all [PatchOperation.isClear, isPlain]

theorem Left.ascending {dropped : Bool} (h : Left dropped (afterClear patch) ops)
    (hdropped : dropped = true ↔ clearIndex patch ≠ none) (hno : (afterClear patch).any isUpdate = false) :
    View.ascending ((leadingPuts ops).map (·.1)) = true ↔ LoadsInOrder patch := by
  rw [ascending_iff, pairwise_iff_of_ascending (ascends_leadingPuts h.ascends), LoadsInOrder, hno]
  simp only [Bool.false_eq_true, if_false, h.loaded hdropped]
  exact ⟨fun hall key key' hkey hkey' => hall key hkey key' hkey', fun hall key hkey key' hkey' => hall key key' hkey hkey'⟩

theorem runPatch_clear {A B : List (PatchOperation α)} (h : runPatch view (A ++ .clear :: B) = .ok view') :
    runPatch View.clear B = .ok view' := by
  rw [runPatch, List.foldlM_append] at h
  cases hA : A.foldlM PatchOperation.run view with
  | error e =>
    rw [hA] at h
    cases h
  | ok mid =>
    rw [hA] at h
    exact h

/-- **`apply` runs a patch that is equivalent**, from the view or from the empty one. -/
theorem applyPatch_spec (view : View α) (patch : List (PatchOperation α)) : ∃ start ops, Applies view patch start ops := by
  cases hindex : clearIndex patch with
  | none =>
    have hclear := clearIndex_none hindex
    have hrest : afterClear patch = patch := by rw [afterClear, hindex]
    cases hcollect : collectKeyOps ∅ patch with
    | none =>
      have hoptimize : optimizePatch patch = patch := by rw [optimizePatch, hindex, hcollect]
      refine ⟨view, patch, applyPatch_load hoptimize hclear, fun _ h => h, ?_⟩
      rw [ascending_iff, LoadsInOrder, hrest, (collectKeyOps_none _).mp hcollect, if_pos rfl]
    | some keyOps =>
      have hno : patch.any isUpdate = false := by
        rw [← Bool.not_eq_true, ← collectKeyOps_none ∅, hcollect]
        exact Option.some_ne_none _
      have hleft := left_of_collect false hclear hcollect
      have hoptimize : optimizePatch patch = (keyOps.values.filter fun p => !false || !p.isDel).insertionSort before := by
        rw [optimizePatch, hindex, hcollect]
        simp
      refine ⟨view, _, applyPatch_load hoptimize hleft.isClear, fun view' hrun => ?_,
        Left.ascending (hrest.symm ▸ hleft) (by simp [hindex]) (hrest.symm ▸ hno)⟩
      rw [runPatch_plain hleft.plain, hleft.after nofun, ← runPatch_plain (isPlain_of_not_update hclear hno)]
      exact hrun
  | some i =>
    obtain ⟨A, B, hpatch, hA, hclear⟩ := clearIndex_some hindex
    have hdrop : patch.drop i = .clear :: B := by rw [hpatch, ← hA, List.drop_left]
    have hdrop' : patch.drop (i + 1) = B := by rw [← List.drop_drop, hdrop]; rfl
    have hrest : afterClear patch = B := by rw [afterClear, hindex]; exact hdrop'
    have hrun {view' : View α} (h : runPatch view patch = .ok view') : runPatch View.clear B = .ok view' :=
      runPatch_clear (hpatch ▸ h)
    cases hcollect : collectKeyOps ∅ B with
    | none =>
      have hoptimize : optimizePatch patch = .clear :: B := by
        simp only [optimizePatch, hindex, hdrop', hcollect, hdrop]
      refine ⟨View.clear, B, applyPatch_clear hoptimize hclear, fun _ h => hrun h, ?_⟩
      rw [ascending_iff, LoadsInOrder, hrest, (collectKeyOps_none _).mp hcollect, if_pos rfl]
    | some keyOps =>
      have hno : B.any isUpdate = false := by
        rw [← Bool.not_eq_true, ← collectKeyOps_none ∅, hcollect]
        exact Option.some_ne_none _
      have hleft := left_of_collect true hclear hcollect
      have hoptimize : optimizePatch patch =
          .clear :: (keyOps.values.filter fun p => !true || !p.isDel).insertionSort before := by
        simp only [optimizePatch, hindex, hdrop', hcollect, Bool.not_true, Bool.false_or]
        refine List.insertionSort_cons_of_forall_rel (r := before) fun q hq => ?_
        simp [before, key?]
      refine ⟨View.clear, _, applyPatch_clear hoptimize hleft.isClear, fun view' h => ?_,
        Left.ascending (hrest.symm ▸ hleft) (by simp [hindex]) (hrest.symm ▸ hno)⟩
      rw [runPatch_plain hleft.plain, hleft.after fun _ => rfl, ← runPatch_plain (isPlain_of_not_update hclear hno)]
      exact hrun h

/-- A clear, then a delete and two puts out of order. -/
def shuffled : List (PatchOperation ℕ) := [.put "c" (.other 1), .clear, .put "b" (.other 2), .del "c", .put "a" (.other 3)]

theorem loadsInOrder_shuffled : LoadsInOrder shuffled := by
  have hkey {key : String} (h : Loaded shuffled key) : key = "b" ∨ key = "a" := by
    obtain ⟨value, hlast⟩ := h.put
    have hmem : PatchOperation.put key value ∈ [.put "b" (.other 2), .del "c", .put "a" (.other 3)] := (lastOp_mem hlast).1
    simp only [List.mem_cons, PatchOperation.put.injEq, reduceCtorEq, List.not_mem_nil, or_false, false_or] at hmem
    exact hmem.imp (·.1) (·.1)
  rw [LoadsInOrder, if_neg (by decide)]
  intro key key' h h' hlt
  rcases hkey h with rfl | rfl <;> rcases hkey h' with rfl | rfl
  · exact absurd hlt (lt_irrefl _)
  · exact absurd hlt (by decide)
  · decide
  · exact absurd hlt (lt_irrefl _)

end ZeroSync
