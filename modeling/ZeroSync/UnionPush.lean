/-
What `pushAccumulatedChanges` makes of the rows.

The changes a fan-in accumulates carry the rows of the change that entered, so
collapsing them to one per type loses nothing of the rows (`collapse_spec`),
and the change pushed is told by the types that are there.
-/
import ZeroSync.UnionFanIn

namespace ZeroSync

/-- The row a change takes away or is about. -/
def Change.oldRow : Change → Row
  | .edit _ old => old.row
  | change => change.node.row

/-- The change to the rows when a change that entered leaves as one of a type. -/
def Change.as (entered : Change) : ChangeType → Delta Row
  | .add => .add entered.node.row
  | .remove => .remove entered.oldRow
  | .edit => .edit entered.node.row entered.oldRow
  | .child => .touch entered.node.row

/-- The change has the rows of the one that entered. -/
def Carries (entered change : Change) : Prop := change.delta = entered.as change.type

/-! ## Relationships are no matter -/

theorem addEmptyRelationships_delta (schema : SourceSchema) (change : Change) :
    (addEmptyRelationships schema change).delta = change.delta := by
  cases change <;> rfl

theorem mergeRelationships_ok {left right : Change} (h : left.type = right.type ∨
    left.type = .edit ∧ (right.type = .add ∨ right.type = .remove)) :
    ∃ merged, mergeRelationships left right = .ok merged ∧ merged.delta = left.delta ∧ merged.type = left.type := by
  cases left <;> cases right <;> simp [Change.type] at h <;> exact ⟨_, rfl, rfl, rfl⟩

/-! ## Collapsing -/

section
variable {entered : Change}

/-- The candidates so far have their types, and the rows of the change that entered. -/
def Collapsed (entered : Change) (candidates : OrderedMap ChangeType Change) : Prop :=
  ∀ type change, candidates.get? type = some change → change.type = type ∧ Carries entered change

theorem collapse_spec {candidates : OrderedMap ChangeType Change} (hcandidates : Collapsed entered candidates)
    {changes : List Change} (hcarries : ∀ c ∈ changes, Carries entered c)
    (hchild : entered.type = .child → ∀ type, type ≠ .child →
      (changes.map Change.type).count type + (if candidates.contains type then 1 else 0) ≤ 1) :
    ∃ collapsed, collapse entered.type candidates changes = .ok collapsed ∧ Collapsed entered collapsed ∧
      ∀ type, (collapsed.get? type).isSome ↔ (candidates.get? type).isSome ∨ ∃ c ∈ changes, c.type = type := by
  induction changes generalizing candidates with
  | nil => exact ⟨candidates, rfl, hcandidates, by simp⟩
  | cons change changes ih =>
    have hfirst : ¬ (entered.type = .child ∧ change.type ≠ .child ∧ candidates.contains change.type = true) := by
      rintro ⟨he, hne, hcontains⟩
      have := hchild he change.type hne
      simp [hcontains] at this
    have hset : ∀ merged : Change, merged.type = change.type → Carries entered merged →
        ∃ collapsed, collapse entered.type (candidates.set change.type merged) changes = .ok collapsed ∧
          Collapsed entered collapsed ∧ ∀ type, (collapsed.get? type).isSome ↔
            (candidates.get? type).isSome ∨ ∃ c ∈ change :: changes, c.type = type := by
      intro merged htype hmerged
      have hcollapsed : Collapsed entered (candidates.set change.type merged) := by
        intro type c hget
        rw [OrderedMap.get?_set] at hget
        split at hget
        · next heq =>
          obtain rfl := Option.some.inj hget
          exact ⟨htype.trans heq, hmerged⟩
        · exact hcandidates type c hget
      obtain ⟨collapsed, hok, hall, hiff⟩ := ih hcollapsed (fun c hc => hcarries c (by simp [hc]))
        fun he type hne => by
          have hcount := hchild he type hne
          have hcontains : (candidates.set change.type merged).contains type =
              (change.type == type || candidates.contains type) := by
            rw [OrderedMap.contains, OrderedMap.get?_set, OrderedMap.contains]
            by_cases heq : change.type = type
            · simp [heq]
            · simp [heq]
          rw [List.map_cons, List.count_cons] at hcount
          rw [hcontains]
          cases hthis : change.type == type with
          | true =>
            have hnot : candidates.contains type = false := by
              rw [← beq_iff_eq.mp hthis]
              exact Bool.eq_false_iff.mpr fun h => hfirst ⟨he, by rw [beq_iff_eq.mp hthis]; exact hne, h⟩
            simp only [hthis, hnot, Bool.or_false, if_true] at hcount ⊢
            omega
          | false =>
            simp only [hthis, Bool.false_or, Bool.false_eq_true, if_false] at hcount ⊢
            omega
      refine ⟨collapsed, hok, hall, fun type => ?_⟩
      rw [hiff, OrderedMap.get?_set]
      by_cases heq : change.type = type
      · simp [heq]
      · simp [heq]
    rw [collapse, if_neg hfirst]
    cases hget : candidates.get? change.type with
    | none =>
      exact hset change rfl (hcarries change (by simp))
    | some existing =>
      obtain ⟨htype, hexisting⟩ := hcandidates _ _ hget
      obtain ⟨merged, hok, hdelta, hmerged⟩ := mergeRelationships_ok (.inl htype)
      have hcarried : Carries entered merged := by rw [Carries, hdelta, hmerged, hexisting]
      obtain ⟨collapsed, hcollapse, hrest⟩ := hset merged (hmerged.trans htype) hcarried
      exact ⟨collapsed, by simp [hok, hcollapse, bind, Except.bind], hrest⟩

/-! ## The change pushed -/

/-- The types that a change of a type may be turned into by a branch. -/
def ChangeType.mayBecome : ChangeType → ChangeType → Bool
  | .add, type => type = .add
  | .remove, type => type = .remove
  | .edit, type => type ≠ .child
  | .child, type => type ≠ .edit

/-- The type the change leaves as, by those the branches made of it. -/
def ChangeType.leavesAs (entered : ChangeType) (types : List ChangeType) : ChangeType :=
  match entered with
  | .add => .add
  | .remove => .remove
  | .edit =>
    if .edit ∈ types ∨ .add ∈ types ∧ .remove ∈ types then .edit
    else if .add ∈ types then .add
    else .remove
  | .child => if .child ∈ types then .child else if .add ∈ types then .add else .remove

/-- The branches' changes are such as may be: at most one of them turns a child change into another. -/
structure Accumulates (entered : Change) (changes : List Change) : Prop where
  nonempty : changes ≠ []
  carries : ∀ c ∈ changes, Carries entered c
  types : ∀ c ∈ changes, entered.type.mayBecome c.type
  child : entered.type = .child → (changes.filter fun c => decide (c.type ≠ .child)).length ≤ 1

theorem keys_eq_singleton {m : OrderedMap ChangeType Change} {type : ChangeType} (h : (m.get? type).isSome)
    (hall : ∀ type', (m.get? type').isSome → type' = type) : m.keys = [type] := by
  have hperm : m.keys.Perm [type] := by
    refine (List.perm_ext_iff_of_nodup m.nodup (List.nodup_singleton _)).mpr fun type' => ?_
    have hmem : type' ∈ m.keys ↔ _ := OrderedMap.mem_keys_iff m type'
    refine hmem.trans ?_
    rw [List.mem_singleton]
    exact ⟨hall type', fun heq => heq ▸ h⟩
  exact List.perm_singleton.mp hperm

theorem Accumulates.collapse {changes : List Change} (h : Accumulates entered changes) :
    ∃ collapsed, ZeroSync.collapse entered.type ∅ changes = .ok collapsed ∧ Collapsed entered collapsed ∧
      ∀ type, (collapsed.get? type).isSome ↔ type ∈ changes.map Change.type := by
  have hempty : Collapsed entered ∅ := fun _ _ hget => by cases hget
  have hchild : entered.type = .child → ∀ type, type ≠ .child → (changes.map Change.type).count type +
      (if (∅ : OrderedMap ChangeType Change).contains type then 1 else 0) ≤ 1 := by
    intro he type hne
    have hcount : (changes.map Change.type).count type ≤
        (changes.filter fun c => decide (c.type ≠ .child)).length := by
      rw [List.count_eq_countP, List.countP_map, ← List.countP_eq_length_filter]
      refine List.countP_mono_left fun c _ hc => ?_
      rw [Function.comp_apply, beq_iff_eq] at hc
      exact decide_eq_true (hc ▸ hne)
    have hnone : (∅ : OrderedMap ChangeType Change).contains type = false := rfl
    simp only [hnone, Bool.false_eq_true, if_false, Nat.add_zero]
    exact hcount.trans (h.child he)
  obtain ⟨collapsed, hok, hall, hiff⟩ := collapse_spec hempty h.carries hchild
  refine ⟨collapsed, hok, hall, fun type => ?_⟩
  rw [hiff]
  simp

theorem Collapsed.get? {collapsed : OrderedMap ChangeType Change} (h : Collapsed entered collapsed)
    {type : ChangeType} (hsome : (collapsed.get? type).isSome) :
    ∃ c, collapsed.get? type = some c ∧ c.type = type ∧ c.delta = entered.as type := by
  obtain ⟨c, hc⟩ := Option.isSome_iff_exists.mp hsome
  obtain ⟨htype, hcarries⟩ := h type c hc
  exact ⟨c, hc, htype, by rw [hcarries, htype]⟩

theorem merge_into_edit {edit : Change} {other : Option Change} (hedit : edit.type = .edit)
    (hother : ∀ c, other = some c → c.type = .add ∨ c.type = .remove) :
    ∃ merged, (match other with
      | some c => mergeRelationships edit c
      | none => pure edit) = .ok merged ∧ merged.delta = edit.delta ∧ merged.type = .edit := by
  cases other with
  | none => exact ⟨edit, rfl, rfl, hedit⟩
  | some c =>
    obtain ⟨merged, hok, hdelta, htype⟩ := mergeRelationships_ok (.inr ⟨hedit, hother c rfl⟩)
    exact ⟨merged, hok, hdelta, htype.trans hedit⟩

variable {changes : List Change} (schema : SourceSchema)

theorem Accumulates.pushed_same (h : Accumulates entered changes)
    (hsame : entered.type = .add ∨ entered.type = .remove) :
    ∃ out, pushAccumulatedChanges changes entered.type schema = .ok (some out) ∧
      out.delta = entered.as entered.type := by
  obtain ⟨collapsed, hok, hall, hiff⟩ := h.collapse
  have htypes : ∀ c ∈ changes, c.type = entered.type := by
    intro c hc
    have := h.types c hc
    rcases hsame with he | he
    · simpa [he, ChangeType.mayBecome] using this
    · simpa [he, ChangeType.mayBecome] using this
  obtain ⟨c, hc⟩ := List.exists_mem_of_ne_nil _ h.nonempty
  have hsome : (collapsed.get? entered.type).isSome :=
    (hiff _).mpr (List.mem_map.mpr ⟨c, hc, htypes c hc⟩)
  have hkeys : collapsed.keys = [entered.type] := by
    refine keys_eq_singleton hsome fun type htype => ?_
    obtain ⟨c, hc, rfl⟩ := List.mem_map.mp ((hiff type).mp htype)
    exact htypes c hc
  obtain ⟨out, hget, -, hdelta⟩ := hall.get? hsome
  refine ⟨addEmptyRelationships schema out, ?_, by rw [addEmptyRelationships_delta, hdelta]⟩
  rw [pushAccumulatedChanges, if_neg (by simpa using h.nonempty), hok]
  rcases hsame with he | he
  · rw [he] at hkeys hget ⊢
    simp [hkeys, hget, bind, Except.bind]
  · rw [he] at hkeys hget ⊢
    simp [hkeys, hget, bind, Except.bind]

theorem Collapsed.or {collapsed : OrderedMap ChangeType Change} (h : Collapsed entered collapsed)
    (hsome : (collapsed.get? .add).isSome ∨ (collapsed.get? .remove).isSome) :
    ∃ c, (collapsed.get? .add).or (collapsed.get? .remove) = some c ∧
      c.delta = entered.as (if (collapsed.get? .add).isSome then .add else .remove) := by
  by_cases hadd : (collapsed.get? .add).isSome
  · obtain ⟨c, hc, -, hdelta⟩ := h.get? hadd
    exact ⟨c, by rw [hc, Option.some_or], by rw [if_pos hadd, hdelta]⟩
  · obtain ⟨c, hc, -, hdelta⟩ := h.get? (hsome.resolve_left hadd)
    have hnone : collapsed.get? .add = none := by simpa using hadd
    exact ⟨c, by rw [hnone, Option.none_or, hc], by rw [if_neg hadd, hdelta]⟩

theorem Accumulates.pushed_edit (h : Accumulates entered changes) (he : entered.type = .edit) :
    ∃ out, pushAccumulatedChanges changes entered.type schema = .ok (some out) ∧
      out.delta = entered.as (ChangeType.leavesAs .edit (changes.map Change.type)) := by
  obtain ⟨collapsed, hok, hall, hiff⟩ := h.collapse
  have htypes : ∀ type, (collapsed.get? type).isSome → type ≠ .child := by
    intro type htype
    obtain ⟨c, hc, rfl⟩ := List.mem_map.mp ((hiff type).mp htype)
    simpa [he, ChangeType.mayBecome] using h.types c hc
  have hkeys : (!collapsed.keys.all fun type => type = .add || type = .remove || type = .edit) = false := by
    rw [Bool.not_eq_false', List.all_eq_true]
    intro type htype
    have := htypes type ((OrderedMap.mem_keys_iff _ _).mp htype)
    cases type <;> simp_all
  rw [pushAccumulatedChanges, if_neg (by simpa using h.nonempty), hok]
  simp only [bind, Except.bind, he, hkeys, Bool.false_eq_true, if_false, ChangeType.leavesAs, ← hiff]
  have hother : ∀ type, type = .add ∨ type = .remove → ∀ c, collapsed.get? type = some c →
      c.type = .add ∨ c.type = .remove := by
    intro type htype c hc
    rwa [(hall type c hc).1]
  by_cases hedit : (collapsed.get? .edit).isSome
  · obtain ⟨edit, hget, htype, hdelta⟩ := hall.get? hedit
    obtain ⟨withAdd, hadd, haddDelta, haddType⟩ := merge_into_edit htype (hother .add (.inl rfl))
    obtain ⟨withBoth, hremove, hbothDelta, -⟩ := merge_into_edit haddType (hother .remove (.inr rfl))
    refine ⟨addEmptyRelationships schema withBoth, ?_, ?_⟩
    · simp only [hget]
      cases hgadd : collapsed.get? .add <;> cases hgremove : collapsed.get? .remove <;>
        simp only [hgadd, hgremove, pure, Except.pure, Except.ok.injEq] at hadd hremove ⊢ <;>
        simp [hadd, hremove]
    · rw [addEmptyRelationships_delta, hbothDelta, haddDelta, hdelta, if_pos (.inl hedit)]
  · have hnone : collapsed.get? .edit = none := by simpa using hedit
    by_cases hboth : (collapsed.get? .add).isSome ∧ (collapsed.get? .remove).isSome
    · obtain ⟨added, hadd, haddType, haddDelta⟩ := hall.get? hboth.1
      obtain ⟨removed, hremove, hremoveType, hremoveDelta⟩ := hall.get? hboth.2
      refine ⟨addEmptyRelationships schema (.edit added.node removed.node), by simp [hnone, hadd, hremove], ?_⟩
      rw [addEmptyRelationships_delta, if_pos (.inr hboth)]
      cases added <;> cases haddType
      cases removed <;> cases hremoveType
      simp only [Change.delta, Change.as, Delta.add.injEq, Delta.remove.injEq] at haddDelta hremoveDelta
      simp only [Change.delta, Change.as, Change.node, haddDelta, hremoveDelta]
    · obtain ⟨c, hc⟩ := List.exists_mem_of_ne_nil _ h.nonempty
      have hone : (collapsed.get? .add).isSome ∨ (collapsed.get? .remove).isSome := by
        have hsome := (hiff c.type).mpr (List.mem_map_of_mem hc)
        have hchild := htypes c.type hsome
        cases htype : c.type <;> simp_all
      obtain ⟨out, hor, hdelta⟩ := hall.or hone
      refine ⟨addEmptyRelationships schema out, ?_, ?_⟩
      · simp only [hnone, hor]
        cases hadd : collapsed.get? .add <;> cases hremove : collapsed.get? .remove <;> simp_all
      · have hnot : ¬ ((collapsed.get? .edit).isSome ∨
            (collapsed.get? .add).isSome ∧ (collapsed.get? .remove).isSome) := not_or.mpr ⟨hedit, hboth⟩
        rw [addEmptyRelationships_delta, hdelta, if_neg hnot]

theorem Accumulates.pushed_child (h : Accumulates entered changes) (he : entered.type = .child) :
    ∃ out, pushAccumulatedChanges changes entered.type schema = .ok (some out) ∧
      out.delta = entered.as (ChangeType.leavesAs .child (changes.map Change.type)) := by
  obtain ⟨collapsed, hok, hall, hiff⟩ := h.collapse
  have htypes : ∀ type, (collapsed.get? type).isSome → type ≠ .edit := by
    intro type htype
    obtain ⟨c, hc, rfl⟩ := List.mem_map.mp ((hiff type).mp htype)
    simpa [he, ChangeType.mayBecome] using h.types c hc
  have hkeys : (!collapsed.keys.all fun type => type = .add || type = .remove || type = .child) = false := by
    rw [Bool.not_eq_false', List.all_eq_true]
    intro type htype
    have := htypes type ((OrderedMap.mem_keys_iff _ _).mp htype)
    cases type <;> simp_all
  -- At most one change is no child change, so an add and a remove are not both there.
  have hnot : ¬ ((collapsed.get? .add).isSome ∧ (collapsed.get? .remove).isSome) := by
    rintro ⟨hadd, hremove⟩
    obtain ⟨a, ha, hatype⟩ := List.mem_map.mp ((hiff _).mp hadd)
    obtain ⟨r, hr, hrtype⟩ := List.mem_map.mp ((hiff _).mp hremove)
    have hsub : [a, r].Subperm (changes.filter fun c => decide (c.type ≠ .child)) := by
      refine List.subperm_of_subset ?_ ?_
      · simp only [List.nodup_cons, List.mem_singleton, List.not_mem_nil, not_false_eq_true, List.nodup_nil, and_true]
        rintro rfl
        cases hatype.symm.trans hrtype
      · intro c hc
        simp only [List.mem_cons, List.not_mem_nil, or_false] at hc
        rcases hc with rfl | rfl
        · exact List.mem_filter.mpr ⟨ha, by simp [hatype]⟩
        · exact List.mem_filter.mpr ⟨hr, by simp [hrtype]⟩
    have hlen := hsub.length_le.trans (h.child he)
    simp at hlen
  have hlength : collapsed.keys.length ≤ 2 := by
    have hsub : collapsed.keys.Subperm [.child, if (collapsed.get? .add).isSome then .add else .remove] := by
      refine List.subperm_of_subset collapsed.nodup fun type htype => ?_
      have hsome := (OrderedMap.mem_keys_iff collapsed type).mp htype
      have := htypes type hsome
      cases type <;> simp_all
    exact hsub.length_le
  rw [pushAccumulatedChanges, if_neg (by simpa using h.nonempty), hok]
  simp only [bind, Except.bind, he, hkeys, hlength, not_true, Bool.false_eq_true, if_false, ChangeType.leavesAs, ← hiff]
  by_cases hchild : (collapsed.get? .child).isSome
  · obtain ⟨out, hget, -, hdelta⟩ := hall.get? hchild
    exact ⟨out, by simp [hget], by rw [hdelta, if_pos hchild]⟩
  · obtain ⟨c, hc⟩ := List.exists_mem_of_ne_nil _ h.nonempty
    have hnone : collapsed.get? .child = none := by simpa using hchild
    have hone : (collapsed.get? .add).isSome ∨ (collapsed.get? .remove).isSome := by
      have hsome := (hiff c.type).mpr (List.mem_map_of_mem hc)
      have := htypes c.type hsome
      cases htype : c.type <;> simp_all
    obtain ⟨out, hor, hdelta⟩ := hall.or hone
    refine ⟨addEmptyRelationships schema out, ?_, ?_⟩
    · simp only [hnone, if_neg hnot, hor]
    · rw [addEmptyRelationships_delta, hdelta, if_neg hchild]

/-- **What the branches made of a change leaves as one change**, with the rows of the change that entered. -/
theorem Accumulates.pushed (h : Accumulates entered changes) :
    ∃ out, pushAccumulatedChanges changes entered.type schema = .ok (some out) ∧
      out.delta = entered.as (entered.type.leavesAs (changes.map Change.type)) := by
  cases he : entered.type with
  | add => simpa only [he, ChangeType.leavesAs] using h.pushed_same schema (.inl he)
  | remove => simpa only [he, ChangeType.leavesAs] using h.pushed_same schema (.inr he)
  | edit => simpa only [he] using h.pushed_edit schema he
  | child => simpa only [he] using h.pushed_child schema he

theorem mayBecome_leavesAs (type : ChangeType) (types : List ChangeType) : type.mayBecome (type.leavesAs types) := by
  cases type with
  | add | remove => rfl
  | edit => rw [ChangeType.leavesAs]; split <;> [rfl; split <;> rfl]
  | child => rw [ChangeType.leavesAs]; split <;> [rfl; split <;> rfl]

end

end ZeroSync
