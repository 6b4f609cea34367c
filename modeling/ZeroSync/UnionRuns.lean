/-
Runs of a union of branches: changes enter it through the fan-out, and come
from within, from a branch whose own child input changed.

A run tracks the rows that enter, the fan-in, the rows each branch holds, and
those the output holds: the rows first fetched, with the changes emitted since
applied to them. In every state reached the output holds the union of the
branches' rows.
-/
import Mathlib.Data.List.Dedup
import ZeroSync.Streams
import ZeroSync.UnionPush

namespace ZeroSync

open SortedList

/-! ## A change that entered, at a collection -/

/-- What a change that entered does to a collection it reaches as one of a
type, or does not reach. -/
structure Reaches (entered : Change) (type : Option ChangeType) (l l' : List Row) : Prop where
  old : entered.oldRow ∈ l ↔ ∃ t, type = some t ∧ t ≠ .add
  new : entered.node.row ∈ l' ↔ ∃ t, type = some t ∧ t ≠ .remove
  other : ∀ r, r ≠ entered.oldRow → r ≠ entered.node.row → (r ∈ l' ↔ r ∈ l)
  fresh : entered.node.row ≠ entered.oldRow → entered.node.row ∉ l ∧ entered.oldRow ∉ l'

section
variable {entered : Change} {l l' : List Row}

theorem Change.oldRow_eq (h : entered.type ≠ .edit) : entered.oldRow = entered.node.row := by
  cases entered <;> simp_all [oldRow, node, type]

theorem exists_perm_cons {r : Row} (h : r ∈ l) : ∃ k, l.Perm (r :: k) := by
  obtain ⟨a, b, rfl⟩ := List.append_of_mem h
  exact ⟨a ++ b, List.perm_middle⟩

theorem Reaches.perm (h : Reaches entered none l l') (hl : l.Nodup) (hl' : l'.Nodup) : l'.Perm l := by
  refine (List.perm_ext_iff_of_nodup hl' hl).mpr fun r => ?_
  have hold : entered.oldRow ∉ l := fun hm => by simpa using h.old.mp hm
  have hnew : entered.node.row ∉ l' := fun hm => by simpa using h.new.mp hm
  by_cases hne : entered.node.row = entered.oldRow
  · by_cases hr : r = entered.oldRow
    · rw [hr]
      exact iff_of_false (hne ▸ hnew) hold
    · exact h.other r hr (hne ▸ hr)
  · obtain ⟨hnew', hold'⟩ := h.fresh hne
    by_cases hr : r = entered.oldRow
    · rw [hr]
      exact iff_of_false hold' hold
    · by_cases hr' : r = entered.node.row
      · rw [hr']
        exact iff_of_false hnew hnew'
      · exact h.other r hr hr'

theorem Reaches.applies {type : ChangeType} (h : Reaches entered (some type) l l') (hl : l.Nodup) (hl' : l'.Nodup)
    (hmay : entered.type.mayBecome type) : (entered.as type).Applies l l' := by
  have hold : entered.oldRow ∈ l ↔ type ≠ .add := by simpa using h.old
  have hnew : entered.node.row ∈ l' ↔ type ≠ .remove := by simpa using h.new
  cases type with
  | add =>
    have hnot : entered.oldRow ∉ l := fun hm => hold.mp hm rfl
    have hnew' : entered.node.row ∉ l := fun hm => by
      by_cases hne : entered.node.row = entered.oldRow
      · exact hnot (hne ▸ hm)
      · exact (h.fresh hne).1 hm
    refine ⟨hnew', (List.perm_ext_iff_of_nodup hl' (List.nodup_cons.mpr ⟨hnew', hl⟩)).mpr fun r => ?_⟩
    rw [List.mem_cons]
    by_cases hr : r = entered.node.row
    · exact iff_of_true (hr ▸ hnew.mpr (by decide)) (.inl hr)
    · by_cases hr' : r = entered.oldRow
      · rw [hr'] at hr ⊢
        exact iff_of_false (h.fresh (Ne.symm hr)).2 (by simp [hr, hnot])
      · simpa [hr] using h.other r hr' hr
  | remove =>
    have hnot : entered.oldRow ∉ l' := fun hm => by
      by_cases hne : entered.node.row = entered.oldRow
      · exact hnew.mp (hne ▸ hm) rfl
      · exact (h.fresh hne).2 hm
    refine (List.perm_ext_iff_of_nodup hl (List.nodup_cons.mpr ⟨hnot, hl'⟩)).mpr fun r => ?_
    rw [List.mem_cons]
    by_cases hr : r = entered.oldRow
    · exact iff_of_true (hr ▸ hold.mpr (by decide)) (.inl hr)
    · by_cases hr' : r = entered.node.row
      · rw [hr'] at hr ⊢
        exact iff_of_false (h.fresh hr).1 (by simpa [hr] using fun hm => hnew.mp hm rfl)
      · simpa [hr] using (h.other r hr hr').symm
  | edit =>
    obtain ⟨k, hk⟩ := exists_perm_cons (hold.mpr (by decide))
    obtain ⟨holdk, hnodup⟩ := List.nodup_cons.mp (hk.nodup_iff.mp hl)
    have hmem : ∀ r, r ∈ l ↔ r = entered.oldRow ∨ r ∈ k := fun r => by rw [hk.mem_iff, List.mem_cons]
    have hnewk : entered.node.row ∉ k := fun hm => by
      by_cases hne : entered.node.row = entered.oldRow
      · exact holdk (hne ▸ hm)
      · exact (h.fresh hne).1 ((hmem _).mpr (.inr hm))
    refine ⟨k, hk, (List.perm_ext_iff_of_nodup hl' (List.nodup_cons.mpr ⟨hnewk, hnodup⟩)).mpr fun r => ?_⟩
    rw [List.mem_cons]
    by_cases hr : r = entered.node.row
    · exact iff_of_true (hr ▸ hnew.mpr (by decide)) (.inl hr)
    · by_cases hr' : r = entered.oldRow
      · rw [hr'] at hr ⊢
        exact iff_of_false (h.fresh (Ne.symm hr)).2 (by simp [hr, holdk])
      · rw [h.other r hr' hr, hmem]
        simp [hr, hr']
  | child =>
    have hne : entered.oldRow = entered.node.row := by
      refine Change.oldRow_eq fun he => ?_
      simp [he, ChangeType.mayBecome] at hmay
    have hin : entered.node.row ∈ l := hne ▸ hold.mpr (by decide)
    refine ⟨hin, (List.perm_ext_iff_of_nodup hl' hl).mpr fun r => ?_⟩
    by_cases hr : r = entered.node.row
    · exact iff_of_true (hr ▸ hnew.mpr (by decide)) (hr ▸ hin)
    · exact h.other r (hne ▸ hr) hr

/-- What a branch makes of a change that entered: it passes it on, as a change
of a type that may be; or, if it does not hold the row, it stops it. -/
inductive Responds (entered : Change) (before : List Row) : Option Change → List Row → Prop
  | pass {c after} : Carries entered c → entered.type.mayBecome c.type → c.delta.Applies before after →
      Responds entered before (some c) after
  | stop {after} : entered.oldRow ∉ before → after.Perm before → Responds entered before none after

theorem edit_fresh {rows rows' : List Row} (happlies : entered.delta.Applies rows rows') (hrows : rows.Nodup)
    (hrows' : rows'.Nodup) (hne : entered.node.row ≠ entered.oldRow) :
    entered.node.row ∉ rows ∧ entered.oldRow ∉ rows' := by
  cases entered with
  | add _ | remove _ | child _ _ _ => exact absurd rfl hne
  | edit new old =>
    obtain ⟨k, hk, hk'⟩ := happlies
    have hold := (List.nodup_cons.mp (hk.nodup_iff.mp hrows)).1
    have hnew := (List.nodup_cons.mp (hk'.nodup_iff.mp hrows')).1
    exact ⟨fun hm => hnew ((List.mem_cons.mp (hk.subset hm)).resolve_left hne),
      fun hm => hold ((List.mem_cons.mp (hk'.subset hm)).resolve_left (Ne.symm hne))⟩

theorem Responds.reaches {rows rows' before after : List Row} {c : Option Change}
    (h : Responds entered before c after) (happlies : entered.delta.Applies rows rows') (hrows : rows.Nodup)
    (hrows' : rows'.Nodup) (hbefore : before ⊆ rows) (hnodup : before.Nodup) (hafter : after ⊆ rows') :
    Reaches entered (c.map Change.type) before after := by
  have hfresh : entered.node.row ≠ entered.oldRow → entered.node.row ∉ before ∧ entered.oldRow ∉ after :=
    fun hne => ⟨fun hm => (edit_fresh happlies hrows hrows' hne).1 (hbefore hm),
      fun hm => (edit_fresh happlies hrows hrows' hne).2 (hafter hm)⟩
  cases h with
  | stop hnot hp =>
    refine ⟨by simpa using hnot, ?_, fun r _ _ => hp.mem_iff, hfresh⟩
    simp only [Option.map_none, reduceCtorEq, false_and, exists_false, iff_false, hp.mem_iff]
    intro hm
    by_cases hne : entered.node.row = entered.oldRow
    · exact hnot (hne ▸ hm)
    · exact (hfresh hne).1 hm
  | pass hcarries hmay hc =>
    next c =>
    rw [hcarries] at hc
    simp only [Option.map_some]
    cases htype : c.type with
    | add =>
      rw [htype] at hc
      obtain ⟨hnew, hp⟩ := hc
      have hold : entered.oldRow ∉ before := fun hm => by
        by_cases hne : entered.node.row = entered.oldRow
        · exact hnew (hne ▸ hm)
        · exact (hfresh hne).2 (hp.mem_iff.mpr (List.mem_cons_of_mem _ hm))
      refine ⟨by simpa using hold, by simp [hp.mem_iff], fun r _ hr => ?_, hfresh⟩
      rw [hp.mem_iff, List.mem_cons, or_iff_right hr]
    | remove =>
      rw [htype] at hc
      have hp : before.Perm (entered.oldRow :: after) := hc
      have hnew : entered.node.row ∉ after := fun hm => by
        by_cases hne : entered.node.row = entered.oldRow
        · exact (List.nodup_cons.mp (hp.nodup_iff.mp hnodup)).1 (hne ▸ hm)
        · exact (hfresh hne).1 (hp.mem_iff.mpr (List.mem_cons_of_mem _ hm))
      refine ⟨by simp [hp.mem_iff], by simpa using hnew, fun r hr _ => ?_, hfresh⟩
      rw [hp.mem_iff, List.mem_cons, or_iff_right hr]
    | edit =>
      rw [htype] at hc
      obtain ⟨k, hp, hp'⟩ := hc
      refine ⟨by simp [hp.mem_iff], by simp [hp'.mem_iff], fun r hr hr' => ?_, hfresh⟩
      rw [hp.mem_iff, hp'.mem_iff, List.mem_cons, List.mem_cons, or_iff_right hr, or_iff_right hr']
    | child =>
      rw [htype] at hc
      obtain ⟨hin, hp⟩ := hc
      have heq : entered.oldRow = entered.node.row := by
        refine Change.oldRow_eq fun he => ?_
        simp [he, htype, ChangeType.mayBecome] at hmay
      exact ⟨by simpa [heq] using hin, by simpa [hp.mem_iff] using hin, fun r _ _ => hp.mem_iff, hfresh⟩

/-! ## The union of the branches -/

/-- The rows that some list holds. -/
def IsUnion (lists : List (List Row)) (l : List Row) : Prop := l.Nodup ∧ ∀ r, r ∈ l ↔ ∃ held ∈ lists, r ∈ held

theorem IsUnion.of_perm {lists : List (List Row)} (h : IsUnion lists l) (hp : l'.Perm l) : IsUnion lists l' :=
  ⟨hp.nodup_iff.mpr h.1, fun r => by rw [hp.mem_iff, h.2]⟩

open Classical in
theorem exists_isUnion (lists : List (List Row)) : ∃ l, IsUnion lists l :=
  ⟨lists.flatten.dedup, List.nodup_dedup _, fun r => by simp⟩

theorem exists_iff_of_forall₂ {α β : Type*} {P : α → Prop} {Q : β → Prop} {l : List α} {l' : List β}
    (h : List.Forall₂ (fun a b => P a ↔ Q b) l l') : (∃ a ∈ l, P a) ↔ ∃ b ∈ l', Q b := by
  induction h with
  | nil => simp
  | cons hab _ ih => simp [hab, ih]

theorem leavesAs_iff {entered : ChangeType} {types : List ChangeType} (hne : types ≠ [])
    (hmay : ∀ t ∈ types, entered.mayBecome t)
    (hchild : entered = .child → (types.filter fun t => decide (t ≠ .child)).length ≤ 1) :
    ((∃ t ∈ types, t ≠ .add) ↔ entered.leavesAs types ≠ .add) ∧
      ((∃ t ∈ types, t ≠ .remove) ↔ entered.leavesAs types ≠ .remove) := by
  obtain ⟨t, ht⟩ := List.exists_mem_of_ne_nil _ hne
  cases entered with
  | add | remove =>
    have htypes : ∀ t ∈ types, t = _ := fun t ht => of_decide_eq_true (hmay t ht)
    have := htypes t ht
    constructor
    · simp only [ChangeType.leavesAs]
      grind
    · simp only [ChangeType.leavesAs]
      grind
  | edit =>
    have htypes : ∀ t ∈ types, t = .add ∨ t = .remove ∨ t = .edit := by
      intro t ht
      have hchild : t ≠ .child := of_decide_eq_true (hmay t ht)
      cases t <;> simp_all
    have hadd : (∃ t ∈ types, t ≠ .add) ↔ .edit ∈ types ∨ .remove ∈ types := by grind
    have hremove : (∃ t ∈ types, t ≠ .remove) ↔ .edit ∈ types ∨ .add ∈ types := by grind
    have := htypes t ht
    rw [hadd, hremove, ChangeType.leavesAs]
    constructor
    · split <;> grind
    · split <;> grind
  | child =>
    have htypes : ∀ t ∈ types, t ≠ .edit := fun t ht => of_decide_eq_true (hmay t ht)
    by_cases hc : .child ∈ types
    · simp only [ChangeType.leavesAs, if_pos hc]
      exact ⟨iff_of_true ⟨_, hc, by decide⟩ (by decide), iff_of_true ⟨_, hc, by decide⟩ (by decide)⟩
    · -- One branch at most made something else of it.
      have hall : types.filter (fun t => decide (t ≠ .child)) = types :=
        List.filter_eq_self.mpr fun t ht => decide_eq_true fun h => hc (h ▸ ht)
      have hlen := hchild rfl
      rw [hall] at hlen
      obtain ⟨t, rfl⟩ := List.length_eq_one_iff.mp (le_antisymm hlen (List.length_pos_iff.mpr hne))
      have hedit := htypes t (by simp)
      cases t with
      | add | remove => simp [ChangeType.leavesAs]
      | child => simp at hc
      | edit => exact absurd rfl hedit

/-- What the branches made of a change: the changes passed on. -/
def passed (responses : List (Option Change × List Row)) : List Change := responses.filterMap (·.1)

/-- A change that enters the branches takes the union of their rows to the
union of those after, as the type it leaves as says; if no branch passes it on
the union stays. -/
theorem union_reaches {rows rows' : List Row} {held : List (List Row)} {responses : List (Option Change × List Row)}
    (happlies : entered.delta.Applies rows rows') (hrows : rows.Nodup) (hrows' : rows'.Nodup)
    (hresponds : List.Forall₂ (fun before r => Responds entered before r.1 r.2) held responses)
    (hheld : ∀ before ∈ held, before.Nodup ∧ before ⊆ rows) (hafter : ∀ r ∈ responses, r.2 ⊆ rows')
    (hmay : ∀ c ∈ passed responses, entered.type.mayBecome c.type)
    (hchild : entered.type = .child → ((passed responses).filter fun c => decide (c.type ≠ .child)).length ≤ 1)
    (hl : IsUnion held l) (hl' : IsUnion (responses.map (·.2)) l') :
    Reaches entered (if passed responses = [] then none
      else some (entered.type.leavesAs ((passed responses).map Change.type))) l l' := by
  have hreaches : List.Forall₂ (fun before r => Reaches entered (r.1.map Change.type) before r.2) held responses := by
    refine List.forall₂_iff_get.mpr ⟨hresponds.length_eq, fun i h h' => ?_⟩
    have hbefore := hheld _ (List.get_mem held ⟨i, h⟩)
    exact (hresponds.get h h').reaches happlies hrows hrows' hbefore.2 hbefore.1 (hafter _ (List.get_mem _ _))
  have hafter' : ∀ r, r ∈ l' ↔ ∃ resp ∈ responses, r ∈ resp.2 := by
    intro r
    rw [hl'.2]
    simp only [List.mem_map, exists_exists_and_eq_and]
  -- The branches of whose type something holds.
  have htypes : ∀ p : ChangeType → Prop, (∃ resp ∈ responses, ∃ t, resp.1.map Change.type = some t ∧ p t) ↔
      ∃ t ∈ (passed responses).map Change.type, p t := by
    intro p
    simp only [passed, List.mem_map, List.mem_filterMap, Option.map_eq_some_iff]
    grind
  have hold : entered.oldRow ∈ l ↔ ∃ t ∈ (passed responses).map Change.type, t ≠ .add := by
    rw [hl.2, ← htypes]
    exact exists_iff_of_forall₂ (hreaches.imp fun _ _ h => h.old)
  have hnew : entered.node.row ∈ l' ↔ ∃ t ∈ (passed responses).map Change.type, t ≠ .remove := by
    rw [hafter', ← htypes]
    refine exists_congr fun resp => and_congr_right fun hresp => ?_
    obtain ⟨_, -, h⟩ := hreaches.exists_of_mem hresp
    exact h.new
  have hother : ∀ r, r ≠ entered.oldRow → r ≠ entered.node.row → (r ∈ l' ↔ r ∈ l) := by
    intro r hr hr'
    rw [hl.2, hafter']
    exact (exists_iff_of_forall₂ (hreaches.imp fun _ _ h => (h.other r hr hr').symm)).symm
  have hfresh : entered.node.row ≠ entered.oldRow → entered.node.row ∉ l ∧ entered.oldRow ∉ l' := by
    intro hne
    obtain ⟨hnew, hold⟩ := edit_fresh happlies hrows hrows' hne
    refine ⟨fun hm => ?_, fun hm => ?_⟩
    · obtain ⟨before, hbefore, hin⟩ := (hl.2 _).mp hm
      exact hnew ((hheld before hbefore).2 hin)
    · obtain ⟨resp, hresp, hin⟩ := (hafter' _).mp hm
      exact hold (hafter resp hresp hin)
  by_cases hpassed : passed responses = []
  · rw [if_pos hpassed]
    rw [hpassed] at hold hnew
    exact ⟨by simpa using hold, by simpa using hnew, hother, hfresh⟩
  · have hmay' : ∀ t ∈ (passed responses).map Change.type, entered.type.mayBecome t := by
      intro t ht
      obtain ⟨c, hc, rfl⟩ := List.mem_map.mp ht
      exact hmay c hc
    obtain ⟨hadd, hremove⟩ := leavesAs_iff (by simpa using hpassed) hmay' fun he => by
      simpa [List.filter_map, Function.comp_def] using hchild he
    rw [if_neg hpassed]
    exact ⟨hold.trans (hadd.trans (by simp)), hnew.trans (hremove.trans (by simp)), hother, hfresh⟩

end

/-! ## The code's pushes -/

section
variable {u : UnionFanIn} {inputs : List Input} {change : Change}

theorem UnionFanIn.pushAll_started (h : u.fanOutPushStarted = true) (pushes : List (Change × ℕ)) :
    u.pushAll inputs pushes =
      .ok ([], { u with accumulatedPushes := u.accumulatedPushes ++ pushes.map (·.1) }) := by
  induction pushes generalizing u with
  | nil => simp [pushAll]
  | cons p pushes ih =>
    obtain ⟨change, pusher⟩ := p
    have hpush : u.push inputs change pusher =
        .ok (none, { u with accumulatedPushes := u.accumulatedPushes ++ [change] }) := by
      rw [UnionFanIn.push, if_pos h]
    rw [pushAll, hpush]
    simp [bind, Except.bind, ih (u := { u with accumulatedPushes := u.accumulatedPushes ++ [change] }) h, pure,
      Except.pure]

theorem UnionFanOut.push_eq (hidle : u.fanOutPushStarted = false) (hempty : u.accumulatedPushes = [])
    {pushes : List (Change × ℕ)} {out : Option Change} (hinputs : pushes ≠ [] → inputs ≠ [])
    (hout : pushAccumulatedChanges (pushes.map (·.1)) change.type u.schema = .ok out) :
    UnionFanOut.push u inputs change pushes = .ok (out.toList, u) := by
  obtain ⟨schema, started, accumulated⟩ := u
  obtain rfl : started = false := hidle
  obtain rfl : accumulated = [] := hempty
  rw [UnionFanOut.push, UnionFanIn.fanOutStartedPushing]
  simp only [Bool.false_eq_true, if_false, bind, Except.bind]
  rw [UnionFanIn.pushAll_started rfl]
  simp only [List.nil_append]
  cases hpushes : pushes with
  | nil =>
    subst hpushes
    obtain rfl : none = out := by simpa [pushAccumulatedChanges] using hout
    by_cases hin : inputs.length = 0
    · simp [UnionFanIn.fanOutDonePushing, hin, pure, Except.pure]
    · simp [UnionFanIn.fanOutDonePushing, hin, pure, Except.pure]
  | cons p rest =>
    rw [← hpushes]
    have hin : inputs.length ≠ 0 := by
      have := hinputs (by simp [hpushes])
      simpa using this
    have hlen : (pushes.map (·.1)).length ≠ 0 := by simp [hpushes]
    simp only [UnionFanIn.fanOutDonePushing, Bool.not_true, Bool.false_eq_true, if_false, if_neg hin, if_neg hlen, hout,
      bind, Except.bind, pure, Except.pure]

end

/-! ## Runs -/

/-- A run of the union: the rows that enter it, the fan-in, the rows each branch
holds, and those the output holds. -/
structure UnionState where
  rows : List Row
  fanIn : UnionFanIn
  held : List (List Row)
  output : List Row

/-- The rows are told apart by the primary key, no value of which is null. -/
structure Keyed (primaryKey : List String) (rows : List Row) : Prop where
  nodup : rows.Nodup
  distinct : ∀ a ∈ rows, ∀ b ∈ rows, (∀ k ∈ primaryKey, a k = b k) → a = b
  not_null : ∀ a ∈ rows, ∀ k ∈ primaryKey, a k ≠ .undefined ∧ a k ≠ .null

/-- What the changes pushed make of the rows the output holds. -/
def Emits (emitted : List Change) (l l' : List Row) : Prop :=
  Applied (fun (_ : Unit) _ => True) (emitted.map fun c => (c.delta, ())) l l'

/-- The inputs of the fan-in answer with the rows the branches hold; that of `pusher` is not asked. -/
def Answer (compareRows : Comparator) (pusher : Option ℕ) (held : List (List Row)) (inputs : List Input) : Prop :=
  inputs.length = held.length ∧ ∀ (i : ℕ) input rows, inputs[i]? = some input → held[i]? = some rows →
    some i ≠ pusher → ∃ l, l.Perm rows ∧ Sorted compareRows l ∧ input.Reflects compareRows l

/-- A change enters the union; the branches respond to it. At most one of them
turns a child change into another: its relationship is that of one branch's
exists check. -/
structure Enters (s : UnionState) (change : Change) (rows' : List Row)
    (responses : List (Option Change × List Row)) : Prop where
  applies : change.delta.Applies s.rows rows'
  keyed : Keyed s.fanIn.schema.primaryKey rows'
  responds : List.Forall₂ (fun before r => Responds change before r.1 r.2) s.held responses
  after : ∀ r ∈ responses, r.2.Nodup ∧ r.2 ⊆ rows'
  child : change.type = .child → ((passed responses).filter fun c => decide (c.type ≠ .child)).length ≤ 1

/-- The pushes of the branches, each with the place of its branch. -/
def pushes (responses : List (Option Change × List Row)) : List (Change × ℕ) :=
  responses.zipIdx.filterMap fun e => e.1.1.map fun c => (c, e.2)

/-- A branch whose own child input changed pushes a change. The other branches
are as they are: they may not have seen that change. -/
structure FromWithin (s : UnionState) (change : Change) (pusher : ℕ) (before after : List Row)
    (inputs : List Input) : Prop where
  type : change.type ≠ .edit
  held : s.held[pusher]? = some before
  applies : change.delta.Applies before after
  after : after ⊆ s.rows
  inputs : Answer s.fanIn.schema.compareRows (some pusher) s.held inputs

/-- The states a run reaches. At the start the output holds what it fetched. -/
inductive UnionReached : UnionState → Prop
  | start {rows fanIn held inputs} : fanIn.fanOutPushStarted = false → fanIn.accumulatedPushes = [] →
      Std.TransCmp fanIn.schema.compareRows → Keyed fanIn.schema.primaryKey rows →
      (∀ a ∈ rows, ∀ b ∈ rows, fanIn.schema.compareRows a b = .eq → a = b) → (∀ h ∈ held, h.Nodup ∧ h ⊆ rows) →
      Answer fanIn.schema.compareRows none held inputs →
      UnionReached ⟨rows, fanIn, held, (fanIn.fetch inputs {}).map (·.row)⟩
  | enter {s change rows' responses inputs emitted fanIn' output'} : UnionReached s →
      Enters s change rows' responses → inputs.length = s.held.length →
      UnionFanOut.push s.fanIn inputs change (pushes responses) = .ok (emitted, fanIn') →
      Emits emitted s.output output' → UnionReached ⟨rows', fanIn', responses.map (·.2), output'⟩
  | within {s change pusher before after inputs emitted fanIn' output'} : UnionReached s →
      FromWithin s change pusher before after inputs →
      s.fanIn.push inputs change pusher = .ok (emitted, fanIn') →
      Emits emitted.toList s.output output' → UnionReached ⟨s.rows, fanIn', s.held.set pusher after, output'⟩

/-- What holds in every state reached. -/
structure UnionInv (s : UnionState) : Prop where
  idle : s.fanIn.fanOutPushStarted = false
  empty : s.fanIn.accumulatedPushes = []
  keyed : Keyed s.fanIn.schema.primaryKey s.rows
  held : ∀ h ∈ s.held, h.Nodup ∧ h ⊆ s.rows
  output : IsUnion s.held s.output

theorem emits_some {change : Change} {l l' : List Row} (h : change.delta.Applies l l') :
    Emits (some change).toList l l' := .cons h trivial (.nil (.refl _))

theorem emits_none {l l' : List Row} (h : l'.Perm l) : Emits (none : Option Change).toList l l' := .nil h

theorem Emits.isUnion {emitted : List Change} {lists : List (List Row)} {l l' m : List Row} (h : Emits emitted l m)
    (h' : Emits emitted l l') (hm : IsUnion lists m) : IsUnion lists l' :=
  hm.of_perm (h'.det h rfl (.refl _))

/-! ### A change that enters -/

section
variable {s : UnionState} {change : Change}

theorem pushes_eq (responses : List (Option Change × List Row)) :
    (pushes responses).map (·.1) = passed responses := by
  have hstart : ∀ i, ((responses.zipIdx i).filterMap fun e => e.1.1.map fun c => (c, e.2)).map (·.1) =
      passed responses := by
    induction responses with
    | nil => exact fun _ => rfl
    | cons r responses ih =>
      intro i
      have ih := ih (i + 1)
      rw [passed] at ih ⊢
      obtain ⟨c, after⟩ := r
      cases c with
      | none => simpa using ih
      | some c => simpa using ih
  exact hstart 0

/-- **A change that enters** is pushed on at most once, and takes the union of
the branches' rows to that of the rows after. -/
theorem UnionInv.enters (h : UnionInv s) {rows' : List Row} {responses : List (Option Change × List Row)}
    (he : Enters s change rows' responses) {inputs : List Input} (hinputs : inputs.length = s.held.length) :
    ∃ out, UnionFanOut.push s.fanIn inputs change (pushes responses) = .ok (Option.toList out, s.fanIn) ∧
      ∀ output', IsUnion (responses.map (·.2)) output' → Emits out.toList s.output output' := by
  have hpassed : ∀ c ∈ passed responses, Carries change c ∧ change.type.mayBecome c.type := by
    intro c hc
    obtain ⟨r, hr, hrc⟩ := List.mem_filterMap.mp hc
    obtain ⟨before, -, hresponds⟩ := he.responds.exists_of_mem hr
    rw [hrc] at hresponds
    cases hresponds with
    | pass hcarries hmay _ => exact ⟨hcarries, hmay⟩
  have hreaches : ∀ output', IsUnion (responses.map (·.2)) output' → _ := fun output' hunion =>
    union_reaches he.applies h.keyed.nodup he.keyed.nodup he.responds h.held (fun r hr => (he.after r hr).2)
      (fun c hc => (hpassed c hc).2) he.child h.output hunion
  have hne : pushes responses ≠ [] → inputs ≠ [] := by
    intro hp hin
    have hheld : s.held = [] := List.length_eq_zero_iff.mp (by rw [← hinputs, hin]; rfl)
    have hresponses : responses = [] := by simpa [hheld] using he.responds
    exact hp (by rw [hresponses]; rfl)
  by_cases hnone : passed responses = []
  · refine ⟨none, UnionFanOut.push_eq h.idle h.empty hne ?_, fun output' hunion => ?_⟩
    · rw [pushes_eq, hnone]
      rfl
    · have hreach := hreaches output' hunion
      rw [if_pos hnone] at hreach
      exact emits_none (hreach.perm h.output.1 hunion.1)
  · have haccumulates : Accumulates change (passed responses) :=
      ⟨hnone, fun c hc => (hpassed c hc).1, fun c hc => (hpassed c hc).2, he.child⟩
    obtain ⟨out, hok, hdelta⟩ := haccumulates.pushed s.fanIn.schema
    refine ⟨some out, UnionFanOut.push_eq h.idle h.empty hne (by rw [pushes_eq, hok]), fun output' hunion => ?_⟩
    have hreach := hreaches output' hunion
    rw [if_neg hnone] at hreach
    refine emits_some ?_
    rw [hdelta]
    exact hreach.applies h.output.1 hunion.1 (mayBecome_leavesAs ..)

/-! ### A change from within -/

/-- No other input answers. -/
def NoneAnswers (constraint : Constraint) (pusher i : ℕ) (inputs : List Input) : Prop :=
  ∀ e ∈ inputs.zipIdx i, e.2 ≠ pusher → (e.1.fetch { constraint := some constraint }).isEmpty

theorem noneAnswers_cons {constraint : Constraint} {pusher i : ℕ} {input : Input} {inputs : List Input} :
    NoneAnswers constraint pusher i (input :: inputs) ↔
      (i ≠ pusher → (input.fetch { constraint := some constraint }).isEmpty) ∧
        NoneAnswers constraint pusher (i + 1) inputs := by
  simp only [NoneAnswers, List.zipIdx_cons, List.forall_mem_cons]

theorem pushInternalLoop_spec (constraint : Constraint) (pusher i : ℕ) (inputs : List Input) (hadMatch : Bool) :
    (NoneAnswers constraint pusher i inputs → UnionFanIn.pushInternalLoop constraint pusher i inputs hadMatch =
      some (hadMatch || decide (i ≤ pusher ∧ pusher < i + inputs.length))) ∧
    (¬ NoneAnswers constraint pusher i inputs →
      UnionFanIn.pushInternalLoop constraint pusher i inputs hadMatch = none) := by
  induction inputs generalizing i hadMatch with
  | nil =>
    have hnot : ¬ (i ≤ pusher ∧ pusher < i) := by omega
    simp [UnionFanIn.pushInternalLoop, NoneAnswers, hnot]
  | cons input inputs ih =>
    rw [noneAnswers_cons, UnionFanIn.pushInternalLoop]
    by_cases hi : i = pusher
    · subst hi
      have hin : i ≤ i ∧ i < i + (inputs.length + 1) := by omega
      simpa [hin] using ih (i + 1) true
    · have hrange : (i + 1 ≤ pusher ∧ pusher < i + 1 + inputs.length) ↔
          (i ≤ pusher ∧ pusher < i + (inputs.length + 1)) := by omega
      by_cases hempty : (input.fetch { constraint := some constraint }).isEmpty
      · simpa only [hi, if_false, hempty, if_true, implies_true, true_and, List.length_cons, hrange] using
          ih (i + 1) hadMatch
      · simp [hi, hempty]

theorem Keyed.matches_iff {primaryKey : List String} {rows : List Row} (h : Keyed primaryKey rows) {a b : Row}
    (ha : a ∈ rows) (hb : b ∈ rows) :
    constraintMatchesRow (OrderedMap.ofList (primaryKey.map fun k => (k, a k))) b = true ↔ b = a := by
  rw [constraintMatchesRow, List.all_eq_true]
  constructor
  · intro hall
    refine h.distinct b hb a ha fun k hk => ?_
    exact (valuesEqual_iff.mp (hall (k, a k) ((OrderedMap.mem_entries_ofList_map ..).mpr ⟨hk, rfl⟩))).1
  · rintro rfl ⟨k, v⟩ he
    obtain ⟨hk, rfl⟩ := (OrderedMap.mem_entries_ofList_map ..).mp he
    exact valuesEqual_iff.mpr ⟨rfl, h.not_null b hb k hk⟩

theorem UnionInv.loop (h : UnionInv s) {inputs : List Input} {pusher : ℕ} {row : Row}
    (hanswer : Answer s.fanIn.schema.compareRows (some pusher) s.held inputs) (hpusher : pusher < s.held.length)
    (hrow : row ∈ s.rows) :
    UnionFanIn.pushInternalLoop (OrderedMap.ofList (s.fanIn.schema.primaryKey.map fun k => (k, row k))) pusher 0
        inputs false = some true ∧ (∀ (i : ℕ) held, s.held[i]? = some held → i ≠ pusher → row ∉ held) ∨
    UnionFanIn.pushInternalLoop (OrderedMap.ofList (s.fanIn.schema.primaryKey.map fun k => (k, row k))) pusher 0
        inputs false = none ∧ ∃ (i : ℕ) (held : List Row), s.held[i]? = some held ∧ i ≠ pusher ∧ row ∈ held := by
  have hempty : ∀ (i : ℕ) input held, inputs[i]? = some input → s.held[i]? = some held → i ≠ pusher →
      ((input.fetch { constraint := some (OrderedMap.ofList (s.fanIn.schema.primaryKey.map fun k => (k, row k))) }).isEmpty
        = true ↔ row ∉ held) := by
    intro i input held hinput hheld hi
    obtain ⟨l, hperm, -, hreflects⟩ := hanswer.2 i input held hinput hheld (by simpa using hi)
    have hsub : held ⊆ s.rows := (h.held held (List.mem_of_getElem? hheld)).2
    have hfetch := hreflects.constraint
      (OrderedMap.ofList (s.fanIn.schema.primaryKey.map fun k => (k, row k)))
    rw [← List.isEmpty_map (f := Node.row), hfetch, List.isEmpty_iff, List.filter_eq_nil_iff]
    constructor
    · intro hnone hin
      exact hnone row (hperm.mem_iff.mpr hin) ((h.keyed.matches_iff hrow hrow).mpr rfl)
    · intro hnot r hr hmatch
      have hr' := hperm.subset hr
      rw [h.keyed.matches_iff hrow (hsub hr')] at hmatch
      exact hnot (hmatch ▸ hr')
  obtain ⟨hnone, hsome⟩ := pushInternalLoop_spec
    (OrderedMap.ofList (s.fanIn.schema.primaryKey.map fun k => (k, row k))) pusher 0 inputs false
  have hmatch : (false || decide (0 ≤ pusher ∧ pusher < 0 + inputs.length)) = true := by
    simp [hanswer.1, hpusher]
  rw [hmatch] at hnone
  by_cases hall : ∀ (i : ℕ) held, s.held[i]? = some held → i ≠ pusher → row ∉ held
  · refine .inl ⟨hnone fun e he hne => ?_, hall⟩
    have hinput := List.mk_mem_zipIdx_iff_getElem?.mp he
    have hlt : e.2 < s.held.length := hanswer.1 ▸ (List.getElem?_eq_some_iff.mp hinput).1
    exact (hempty e.2 e.1 _ hinput (List.getElem?_eq_getElem hlt) hne).mpr
      (hall _ _ (List.getElem?_eq_getElem hlt) hne)
  · push Not at hall
    obtain ⟨i, held, hheld, hi, hin⟩ := hall
    refine .inr ⟨hsome fun hnone => ?_, i, held, hheld, hi, hin⟩
    have hlt : i < inputs.length := hanswer.1.symm ▸ (List.getElem?_eq_some_iff.mp hheld).1
    have hinput := List.getElem?_eq_getElem hlt
    exact (hempty i _ held hinput hheld hi).mp
      (hnone (inputs[i], i) (List.mk_mem_zipIdx_iff_getElem?.mpr hinput) hi) hin

theorem exists_set_iff {lists : List (List Row)} {i : ℕ} {after : List Row} (hi : i < lists.length) (r : Row) :
    (∃ l ∈ lists.set i after, r ∈ l) ↔ r ∈ after ∨ ∃ (j : ℕ) (l : List Row), lists[j]? = some l ∧ j ≠ i ∧ r ∈ l := by
  constructor
  · rintro ⟨l, hl, hr⟩
    obtain ⟨j, hj⟩ := List.getElem?_of_mem hl
    rw [List.getElem?_set] at hj
    split at hj
    · next heq =>
      obtain rfl := Option.some.inj hj
      exact .inl hr
    · next hne => exact .inr ⟨j, l, hj, Ne.symm hne, hr⟩
  · rintro (hr | ⟨j, l, hj, hne, hr⟩)
    · exact ⟨after, List.mem_set hi after, hr⟩
    · refine ⟨l, List.mem_of_getElem? (i := j) ?_, hr⟩
      rw [List.getElem?_set_ne (Ne.symm hne), hj]

theorem exists_held_iff {lists : List (List Row)} {i : ℕ} {before : List Row} (hi : lists[i]? = some before) (r : Row) :
    (∃ l ∈ lists, r ∈ l) ↔ r ∈ before ∨ ∃ (j : ℕ) (l : List Row), lists[j]? = some l ∧ j ≠ i ∧ r ∈ l := by
  obtain ⟨hlt, heq⟩ := List.getElem?_eq_some_iff.mp hi
  rw [← exists_set_iff hlt, ← heq, List.set_getElem_self]

section
variable {pusher : ℕ} {before after : List Row} {inputs : List Input}

/-- **A change from within** is pushed on if it is a child change, or if no
other branch holds the row; it takes the union to that of the rows after. -/
theorem UnionInv.within (h : UnionInv s) (hw : FromWithin s change pusher before after inputs) :
    ∃ out, s.fanIn.push inputs change pusher = .ok (out, s.fanIn) ∧
      ∀ output', IsUnion (s.held.set pusher after) output' → Emits out.toList s.output output' := by
  obtain ⟨hlt, hget⟩ := List.getElem?_eq_some_iff.mp hw.held
  have hbefore := h.held before (List.mem_of_getElem? hw.held)
  have hold : ∀ r, r ∈ s.output ↔ _ := fun r => (h.output.2 r).trans (exists_held_iff hw.held r)
  have hnew : ∀ output', IsUnion (s.held.set pusher after) output' → ∀ r, r ∈ output' ↔ _ :=
    fun output' hunion r => (hunion.2 r).trans (exists_set_iff hlt r)
  have hstays : ∀ output', IsUnion (s.held.set pusher after) output' → (∀ r, r ∈ output' ↔ r ∈ s.output) →
      output'.Perm s.output := fun output' hunion hmem => (List.perm_ext_iff_of_nodup hunion.1 h.output.1).mpr hmem
  rw [UnionFanIn.push, if_neg (by rw [h.idle]; decide)]
  have happlies := hw.applies
  cases change with
  | edit _ _ => exact absurd rfl hw.type
  | child n name c =>
    refine ⟨some (.child n name c), rfl, fun output' hunion => emits_some ⟨?_, ?_⟩⟩
    · exact (hold _).mpr (.inl happlies.1)
    · refine hstays output' hunion fun r => ?_
      rw [hnew output' hunion, hold, happlies.2.mem_iff]
  | add n =>
    obtain ⟨hnot, hp⟩ := happlies
    have hrow : n.row ∈ s.rows := hw.after (hp.mem_iff.mpr List.mem_cons_self)
    rcases h.loop hw.inputs hlt hrow with ⟨hloop, hnone⟩ | ⟨hloop, k, held, hheld, hk, hin⟩
    · have hfresh : n.row ∉ s.output := by
        rw [hold]
        rintro (hm | ⟨k, held, hheld, hk, hm⟩)
        · exact hnot hm
        · exact hnone k held hheld hk hm
      refine ⟨some (.add n), by simp [UnionFanIn.pushInternalChange, hloop, bind, Except.bind, pure, Except.pure],
        fun output' hunion => emits_some ⟨hfresh, ?_⟩⟩
      refine (List.perm_ext_iff_of_nodup hunion.1 (List.nodup_cons.mpr ⟨hfresh, h.output.1⟩)).mpr fun r => ?_
      rw [hnew output' hunion, List.mem_cons, hold, hp.mem_iff, List.mem_cons, or_assoc]
    · refine ⟨none, by simp [UnionFanIn.pushInternalChange, hloop, bind, Except.bind, pure, Except.pure],
        fun output' hunion => emits_none (hstays output' hunion fun r => ?_)⟩
      rw [hnew output' hunion, hold, hp.mem_iff, List.mem_cons, or_assoc, or_iff_right_of_imp]
      intro hr
      exact .inr ⟨k, held, hheld, hk, hr ▸ hin⟩
  | remove n =>
    have hp : before.Perm (n.row :: after) := happlies
    have hrow : n.row ∈ s.rows := hbefore.2 (hp.mem_iff.mpr List.mem_cons_self)
    have hgone : n.row ∉ after := (List.nodup_cons.mp (hp.nodup_iff.mp hbefore.1)).1
    rcases h.loop hw.inputs hlt hrow with ⟨hloop, hnone⟩ | ⟨hloop, k, held, hheld, hk, hin⟩
    · refine ⟨some (.remove n), by simp [UnionFanIn.pushInternalChange, hloop, bind, Except.bind, pure, Except.pure],
        fun output' hunion => emits_some ?_⟩
      have hfresh : n.row ∉ output' := by
        rw [hnew output' hunion]
        rintro (hm | ⟨k, held, hheld, hk, hm⟩)
        · exact hgone hm
        · exact hnone k held hheld hk hm
      refine (List.perm_ext_iff_of_nodup h.output.1 (List.nodup_cons.mpr ⟨hfresh, hunion.1⟩)).mpr fun r => ?_
      rw [List.mem_cons, hnew output' hunion, hold, hp.mem_iff, List.mem_cons, or_assoc]
    · refine ⟨none, by simp [UnionFanIn.pushInternalChange, hloop, bind, Except.bind, pure, Except.pure],
        fun output' hunion => emits_none (hstays output' hunion fun r => ?_)⟩
      rw [hnew output' hunion, hold, hp.mem_iff, List.mem_cons, or_assoc, or_iff_right_of_imp (a := r = n.row)]
      intro hr
      exact .inr ⟨k, held, hheld, hk, hr ▸ hin⟩

theorem UnionInv.held_within (h : UnionInv s) (hw : FromWithin s change pusher before after inputs) :
    ∀ held ∈ s.held.set pusher after, held.Nodup ∧ held ⊆ s.rows := by
  intro held hheld
  rcases List.mem_or_eq_of_mem_set hheld with hheld | rfl
  · exact h.held held hheld
  · refine ⟨?_, hw.after⟩
    have hbefore := (h.held before (List.mem_of_getElem? hw.held)).1
    have happlies := hw.applies
    have htype := hw.type
    cases change with
    | edit _ _ => exact absurd rfl htype
    | child n name c => exact happlies.2.nodup_iff.mpr hbefore
    | add n => exact happlies.2.nodup_iff.mpr (List.nodup_cons.mpr ⟨happlies.1, hbefore⟩)
    | remove n => exact (List.nodup_cons.mp (List.Perm.nodup_iff happlies |>.mp hbefore)).2

end

/-! ### What the output holds -/

theorem Answer.fetch {compareRows : Comparator} {held : List (List Row)} {inputs : List Input}
    (h : Answer compareRows none held inputs) :
    List.Forall₂ (fun rows input => ((input.fetch {}).map (·.row)).Perm rows ∧
      Sorted (byRow compareRows) (input.fetch {})) held inputs := by
  refine List.forall₂_iff_get.mpr ⟨h.1.symm, fun i hi hi' => ?_⟩
  obtain ⟨l, hperm, hsorted, hreflects⟩ :=
    h.2 i inputs[i] held[i] (List.getElem?_eq_getElem hi') (List.getElem?_eq_getElem hi) (by simp)
  have hrows : (inputs[i].fetch {}).map (·.row) = l := by
    rw [hreflects]
    exact List.filter_eq_self.mpr fun r _ => rfl
  rw [← hrows] at hperm hsorted
  exact ⟨hperm, List.pairwise_map.mp hsorted⟩

theorem fetch_isUnion {fanIn : UnionFanIn} {rows : List Row} {held : List (List Row)} {inputs : List Input}
    (htotal : Std.TransCmp fanIn.schema.compareRows)
    (hdistinct : ∀ a ∈ rows, ∀ b ∈ rows, fanIn.schema.compareRows a b = .eq → a = b) (hheld : ∀ h ∈ held, h ⊆ rows)
    (hanswer : Answer fanIn.schema.compareRows none held inputs) :
    IsUnion held ((fanIn.fetch inputs {}).map (·.row)) := by
  have hfetch := hanswer.fetch
  have hsorted : ∀ l ∈ inputs.map fun input => input.fetch {}, Sorted (byRow fanIn.schema.compareRows) l := by
    intro l hl
    obtain ⟨input, hinput, rfl⟩ := List.mem_map.mp hl
    obtain ⟨_, -, -, hs⟩ := hfetch.exists_of_mem hinput
    exact hs
  have hmerged : Sorted (byRow fanIn.schema.compareRows) (fanIn.fetch inputs {}) := sorted_merge hsorted
  -- Some branch holds each row merged.
  have hholds : ∀ n, First (byRow fanIn.schema.compareRows) n (inputs.map fun input => input.fetch {}) →
      ∃ h ∈ held, n.row ∈ h := by
    intro n hn
    obtain ⟨l, hl, hnl⟩ := hn.exists_mem
    obtain ⟨input, hinput, rfl⟩ := List.mem_map.mp hl
    obtain ⟨h, hh, hperm, -⟩ := hfetch.exists_of_mem hinput
    exact ⟨h, hh, hperm.subset (List.mem_map_of_mem hnl)⟩
  refine ⟨?_, fun r => ?_⟩
  · have hrows : Sorted fanIn.schema.compareRows ((fanIn.fetch inputs {}).map (·.row)) := List.pairwise_map.mpr hmerged
    exact hrows.nodup
  rw [List.mem_map]
  constructor
  · rintro ⟨n, hn, rfl⟩
    exact hholds n ((mem_merge_iff hsorted n).mp hn)
  · rintro ⟨h, hh, hr⟩
    obtain ⟨input, hinput, hperm, -⟩ := hfetch.flip.exists_of_mem hh
    obtain ⟨n, hn, rfl⟩ := List.mem_map.mp (hperm.mem_iff.mpr hr)
    have hin : input.fetch {} ∈ inputs.map fun input => input.fetch {} := List.mem_map_of_mem hinput
    obtain ⟨m, hm, heq⟩ : ∃ m, First (byRow fanIn.schema.compareRows) m _ ∧
        byRow fanIn.schema.compareRows m n = .eq := exists_first hin hn
    obtain ⟨h', hh', hmh'⟩ := hholds m hm
    exact ⟨m, (mem_merge_iff hsorted m).mpr hm, hdistinct _ (hheld h' hh' hmh') _ (hheld h hh hr) heq⟩

/-- **Every state reached satisfies the invariant.** -/
theorem UnionReached.inv (h : UnionReached s) : UnionInv s := by
  induction h with
  | start hidle hempty htotal hkeyed hdistinct hheld hanswer =>
    exact ⟨hidle, hempty, hkeyed, hheld, fetch_isUnion htotal hdistinct (fun h hh => (hheld h hh).2) hanswer⟩
  | enter _ he hinputs hok hemits ih =>
    obtain ⟨out, hok', hunion⟩ := ih.enters he hinputs
    obtain ⟨rfl, rfl⟩ := Prod.mk.inj (Except.ok.inj (hok.symm.trans hok'))
    refine ⟨ih.idle, ih.empty, he.keyed, fun h hh => ?_, ?_⟩
    · obtain ⟨r, hr, rfl⟩ := List.mem_map.mp hh
      exact he.after r hr
    · obtain ⟨l, hl⟩ := exists_isUnion _
      exact (hunion l hl).isUnion hemits hl
  | within _ hw hok hemits ih =>
    obtain ⟨out, hok', hunion⟩ := ih.within hw
    obtain ⟨rfl, rfl⟩ := Prod.mk.inj (Except.ok.inj (hok.symm.trans hok'))
    refine ⟨ih.idle, ih.empty, ih.keyed, ih.held_within hw, ?_⟩
    obtain ⟨l, hl⟩ := exists_isUnion _
    exact (hunion l hl).isUnion hemits hl

/-- **The output holds the union of the branches' rows**, each once, in every
state a run reaches. No push fails, and at most one change is pushed on for each
that enters. It adds a row that the output does not hold, and removes one that
no branch holds any more. -/
theorem reached_holds_union (h : UnionReached s) :
    IsUnion s.held s.output ∧
    (∀ change rows' responses inputs, Enters s change rows' responses → inputs.length = s.held.length →
      ∃ emitted fanIn', UnionFanOut.push s.fanIn inputs change (pushes responses) = .ok (emitted, fanIn') ∧
        emitted.length ≤ 1 ∧ ∃ output', Emits emitted s.output output' ∧ IsUnion (responses.map (·.2)) output') ∧
    ∀ change pusher before after inputs, FromWithin s change pusher before after inputs →
      ∃ emitted fanIn', s.fanIn.push inputs change pusher = .ok (emitted, fanIn') ∧
        ∃ output', Emits emitted.toList s.output output' ∧ IsUnion (s.held.set pusher after) output' := by
  have hinv := h.inv
  refine ⟨hinv.output, fun change rows' responses inputs he hinputs => ?_,
    fun change pusher before after inputs hw => ?_⟩
  · obtain ⟨out, hok, hunion⟩ := hinv.enters he hinputs
    obtain ⟨l, hl⟩ := exists_isUnion (responses.map (·.2))
    exact ⟨out.toList, _, hok, by cases out <;> simp, l, hunion l hl, hl⟩
  · obtain ⟨out, hok, hunion⟩ := hinv.within hw
    obtain ⟨l, hl⟩ := exists_isUnion (s.held.set pusher after)
    exact ⟨out, _, hok, l, hunion l hl, hl⟩

end

/-! ## Two branches

A row enters both branches of a union, and the child input of the first takes
it away from that branch. The output keeps it. -/

/-- The one row. -/
def ticket : Row := fun column => if column = "id" then .num 1 else .undefined

def ticketSchema : SourceSchema where
  tableName := "ticket"
  primaryKey := ["id"]
  sort := some [("id", .asc)]
  compareRows := makeComparator [("id", .asc)]

/-- Two branches that hold rows. -/
def branches (first second : List Row) : List Input :=
  [Input.ofRows ticketSchema first, Input.ofRows ticketSchema second]

theorem keyed_ticket : Keyed ["id"] [ticket] where
  nodup := List.nodup_singleton _
  distinct a ha b hb _ := (List.mem_singleton.mp ha).trans (List.mem_singleton.mp hb).symm
  not_null a ha k hk := by
    obtain rfl := List.mem_singleton.mp ha
    obtain rfl := List.mem_singleton.mp hk
    decide

theorem answer_branches {first second : List Row} (pusher : Option ℕ)
    (hfirst : Sorted ticketSchema.compareRows first) (hsecond : Sorted ticketSchema.compareRows second) :
    Answer ticketSchema.compareRows pusher [first, second] (branches first second) := by
  refine ⟨rfl, fun i input rows hinput hrows _ => ⟨rows, .refl _, ?_⟩⟩
  match i with
  | 0 =>
    obtain rfl := Option.some.inj hinput
    obtain rfl := Option.some.inj hrows
    exact ⟨hfirst, Input.reflects_ofRows _ _⟩
  | 1 =>
    obtain rfl := Option.some.inj hinput
    obtain rfl := Option.some.inj hrows
    exact ⟨hsecond, Input.reflects_ofRows _ _⟩

theorem reached_entered : UnionReached ⟨[ticket], { schema := ticketSchema }, [[ticket], [ticket]], [ticket]⟩ := by
  have hstart : UnionReached ⟨[], { schema := ticketSchema }, [[], []],
      (UnionFanIn.fetch { schema := ticketSchema } (branches [] []) {}).map (·.row)⟩ :=
    .start rfl rfl (inferInstanceAs (Std.TransCmp (makeComparator _))) ⟨List.nodup_nil, by simp, by simp⟩ (by simp)
      (by simp) (answer_branches none List.Pairwise.nil List.Pairwise.nil)
  have happlies : (Change.add (.ofRow ticket)).delta.Applies [] [ticket] := ⟨by simp, .refl _⟩
  have hresponds : Responds (.add (.ofRow ticket)) [] (some (.add (.ofRow ticket))) [ticket] :=
    .pass rfl rfl happlies
  have henters : Enters ⟨[], { schema := ticketSchema }, [[], []], []⟩ (.add (.ofRow ticket)) [ticket]
      [(some (.add (.ofRow ticket)), [ticket]), (some (.add (.ofRow ticket)), [ticket])] :=
    ⟨happlies, keyed_ticket, .cons hresponds (.cons hresponds .nil), by simp, fun h => by cases h⟩
  have hpush : UnionFanOut.push { schema := ticketSchema } (branches [] []) (.add (.ofRow ticket))
      (pushes [(some (.add (.ofRow ticket)), [ticket]), (some (.add (.ofRow ticket)), [ticket])]) =
        .ok ([.add (.ofRow ticket)], { schema := ticketSchema }) := by rfl
  exact .enter hstart henters rfl hpush (.cons happlies trivial (.nil (.refl _)))

/-- It leaves the first, and the output keeps it. -/
theorem reached_holds_union_ticket :
    UnionReached ⟨[ticket], { schema := ticketSchema }, [[], [ticket]], [ticket]⟩ ∧
      IsUnion [[], [ticket]] [ticket] := by
  have hwithin : FromWithin ⟨[ticket], { schema := ticketSchema }, [[ticket], [ticket]], [ticket]⟩
      (.remove (.ofRow ticket)) 0 [ticket] [] (branches [] [ticket]) := by
    refine ⟨by decide, rfl, .refl _, by simp, rfl, fun i input rows hinput hrows hi => ?_⟩
    match i with
    | 0 => exact absurd rfl hi
    | 1 =>
      exact (answer_branches none List.Pairwise.nil (List.pairwise_singleton ..)).2 1 input rows hinput hrows (by simp)
  have hpush : UnionFanIn.push { schema := ticketSchema } (branches [] [ticket]) (.remove (.ofRow ticket)) 0 =
      .ok (none, { schema := ticketSchema }) := by rfl
  have hreached : UnionReached ⟨[ticket], { schema := ticketSchema }, [[], [ticket]], [ticket]⟩ :=
    .within reached_entered hwithin hpush (.nil (.refl _))
  exact ⟨hreached, (reached_holds_union hreached).1⟩

end ZeroSync
