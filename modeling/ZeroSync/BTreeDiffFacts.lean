/-
When the diff of two trees is exact.

With the order of the trees the merge of two lists is their diff
(`exactDiff_isDiff`), and a list with the same ops in the same order is the
same list. The splices leave pairs of lists that what both trees have keeps
apart (`Separated`), so that the diff of the trees is that of the pairs, one
after another; each pair is merged exactly if the order of UTF-16 places each
key that only one list has before the next key of the other (`Agree`).
-/
import ZeroSync.BTreeDiff
import ZeroSync.BTreeWriteRuns

namespace ZeroSync

variable {V : Type} {deepEqual : DeepEqual V} {L C A B M : List (BTreeEntry V)} {l c : BTreeEntry V} {ops : List (DiffOperation V)}

/-! ## The diff of two lists -/

/-- The keys of entries ascend. -/
def AscendingKeys (L : List (BTreeEntry V)) : Prop := L.Pairwise fun a b => a.key < b.key

/-- What a diff of two lists of entries says of a key. -/
def Differs (deepEqual : DeepEqual V) (L C : List (BTreeEntry V)) : DiffOperation V → Prop
  | .add key newValue => (∀ l ∈ L, l.key ≠ key) ∧ ∃ c ∈ C, c.key = key ∧ c.value = newValue
  | .del key oldValue => (∃ l ∈ L, l.key = key ∧ l.value = oldValue) ∧ ∀ c ∈ C, c.key ≠ key
  | .change key oldValue newValue => (∃ l ∈ L, l.key = key ∧ l.value = oldValue) ∧
      (∃ c ∈ C, c.key = key ∧ c.value = newValue) ∧ deepEqual.equal oldValue newValue = false

/-- **The diff**: an operation for each key that differs, in the order of the keys. -/
structure IsDiff (deepEqual : DeepEqual V) (L C : List (BTreeEntry V)) (ops : List (DiffOperation V)) : Prop where
  ascending : ops.Pairwise fun a b => a.key < b.key
  mem : ∀ op, op ∈ ops ↔ Differs deepEqual L C op

/-- The merge by the order of the trees. -/
def exactDiff (deepEqual : DeepEqual V) : List (BTreeEntry V) → List (BTreeEntry V) → List (DiffOperation V) :=
  diffEntriesBy (fun a b => decide (a < b)) deepEqual

theorem key_mem_of_mem_diff {lt : String → String → Bool} {op : DiffOperation V}
    (h : op ∈ diffEntriesBy lt deepEqual L C) : (∃ l ∈ L, l.key = op.key) ∨ ∃ c ∈ C, c.key = op.key := by
  induction L, C using diffEntriesBy.induct lt with
  | case1 l L c C heq ih =>
    rw [diffEntriesBy, if_pos heq] at h
    rcases List.mem_append.mp h with h | h
    · split at h
      · cases h
      · rw [List.mem_singleton.mp h]
        exact .inl ⟨l, List.mem_cons_self .., rfl⟩
    · exact (ih h).imp (fun ⟨x, hx, hk⟩ => ⟨x, List.mem_cons_of_mem _ hx, hk⟩)
        fun ⟨x, hx, hk⟩ => ⟨x, List.mem_cons_of_mem _ hx, hk⟩
  | case2 l L c C hne hlt ih =>
    rw [diffEntriesBy, if_neg hne, if_pos hlt] at h
    rcases List.mem_cons.mp h with rfl | h
    · exact .inl ⟨l, List.mem_cons_self .., rfl⟩
    · exact (ih h).imp_left fun ⟨x, hx, hk⟩ => ⟨x, List.mem_cons_of_mem _ hx, hk⟩
  | case3 l L c C hne hlt ih =>
    rw [diffEntriesBy, if_neg hne, if_neg hlt] at h
    rcases List.mem_cons.mp h with rfl | h
    · exact .inr ⟨c, List.mem_cons_self .., rfl⟩
    · exact (ih h).imp_right fun ⟨x, hx, hk⟩ => ⟨x, List.mem_cons_of_mem _ hx, hk⟩
  | case4 l L ih =>
    rw [diffEntriesBy] at h
    rcases List.mem_cons.mp h with rfl | h
    · exact .inl ⟨l, List.mem_cons_self .., rfl⟩
    · exact (ih h).imp_left fun ⟨x, hx, hk⟩ => ⟨x, List.mem_cons_of_mem _ hx, hk⟩
  | case5 c C ih =>
    rw [diffEntriesBy] at h
    rcases List.mem_cons.mp h with rfl | h
    · exact .inr ⟨c, List.mem_cons_self .., rfl⟩
    · exact (ih h).imp_right fun ⟨x, hx, hk⟩ => ⟨x, List.mem_cons_of_mem _ hx, hk⟩
  | case6 =>
    rw [diffEntriesBy] at h
    cases h

theorem exactDiff_isDiff (hL : AscendingKeys L) (hC : AscendingKeys C) : IsDiff deepEqual L C (exactDiff deepEqual L C) := by
  induction L, C using diffEntriesBy.induct fun a b => decide (a < b) with
  | case1 l L c C heq ih =>
    obtain ⟨hl, hL⟩ := List.pairwise_cons.mp hL
    obtain ⟨hc, hC⟩ := List.pairwise_cons.mp hC
    obtain ⟨hascending, hmem⟩ := ih hL hC
    rw [exactDiff, diffEntriesBy, if_pos heq]
    have hrest {op : DiffOperation V} (hop : op ∈ exactDiff deepEqual L C) : l.key < op.key := by
      rcases key_mem_of_mem_diff hop with ⟨x, hx, hk⟩ | ⟨x, hx, hk⟩
      · exact hk ▸ hl x hx
      · exact hk ▸ heq ▸ hc x hx
    refine ⟨?_, fun op => ?_⟩
    · split
      · exact hascending
      · exact List.pairwise_cons.mpr ⟨fun op hop => hrest hop, hascending⟩
    · rw [List.mem_append]
      change (_ ∨ op ∈ exactDiff deepEqual L C) ↔ _
      rw [hmem]
      cases op <;> simp only [Differs] <;> grind
  | case2 l L c C hne hlt ih =>
    obtain ⟨hl, hL⟩ := List.pairwise_cons.mp hL
    have hc := (List.pairwise_cons.mp hC).1
    have hlc : l.key < c.key := of_decide_eq_true hlt
    obtain ⟨hascending, hmem⟩ := ih hL hC
    rw [exactDiff, diffEntriesBy, if_neg hne, if_pos hlt]
    refine ⟨List.pairwise_cons.mpr ⟨fun op hop => ?_, hascending⟩, fun op => ?_⟩
    · rcases key_mem_of_mem_diff hop with ⟨x, hx, hk⟩ | ⟨x, hx, hk⟩
      · exact hk ▸ hl x hx
      · rw [← hk]
        rcases List.mem_cons.mp hx with rfl | hx
        · exact hlc
        · exact hlc.trans (hc x hx)
    · rw [List.mem_cons]
      change (_ ∨ op ∈ exactDiff deepEqual L (c :: C)) ↔ _
      rw [hmem]
      cases op <;> simp only [Differs] <;> grind
  | case3 l L c C hne hlt ih =>
    have hl := (List.pairwise_cons.mp hL).1
    obtain ⟨hc, hC⟩ := List.pairwise_cons.mp hC
    have hcl : c.key < l.key := lt_of_le_of_ne (not_lt.mp (by simpa using hlt)) (Ne.symm hne)
    obtain ⟨hascending, hmem⟩ := ih hL hC
    rw [exactDiff, diffEntriesBy, if_neg hne, if_neg hlt]
    refine ⟨List.pairwise_cons.mpr ⟨fun op hop => ?_, hascending⟩, fun op => ?_⟩
    · rcases key_mem_of_mem_diff hop with ⟨x, hx, hk⟩ | ⟨x, hx, hk⟩
      · rw [← hk]
        rcases List.mem_cons.mp hx with rfl | hx
        · exact hcl
        · exact hcl.trans (hl x hx)
      · exact hk ▸ hc x hx
    · rw [List.mem_cons]
      change (_ ∨ op ∈ exactDiff deepEqual (l :: L) C) ↔ _
      rw [hmem]
      cases op <;> simp only [Differs] <;> grind
  | case4 l L ih =>
    obtain ⟨hl, hL⟩ := List.pairwise_cons.mp hL
    obtain ⟨hascending, hmem⟩ := ih hL hC
    rw [exactDiff, diffEntriesBy]
    refine ⟨List.pairwise_cons.mpr ⟨fun op hop => ?_, hascending⟩, fun op => ?_⟩
    · rcases key_mem_of_mem_diff hop with ⟨x, hx, hk⟩ | ⟨x, hx, hk⟩
      · exact hk ▸ hl x hx
      · cases hx
    · rw [List.mem_cons]
      change (_ ∨ op ∈ exactDiff deepEqual L []) ↔ _
      rw [hmem]
      cases op <;> simp only [Differs] <;> grind
  | case5 c C ih =>
    obtain ⟨hc, hC⟩ := List.pairwise_cons.mp hC
    obtain ⟨hascending, hmem⟩ := ih hL hC
    rw [exactDiff, diffEntriesBy]
    refine ⟨List.pairwise_cons.mpr ⟨fun op hop => ?_, hascending⟩, fun op => ?_⟩
    · rcases key_mem_of_mem_diff hop with ⟨x, hx, hk⟩ | ⟨x, hx, hk⟩
      · cases hx
      · exact hk ▸ hc x hx
    · rw [List.mem_cons]
      change (_ ∨ op ∈ exactDiff deepEqual [] C) ↔ _
      rw [hmem]
      cases op <;> simp only [Differs] <;> grind
  | case6 =>
    rw [exactDiff, diffEntriesBy]
    exact ⟨.nil, fun op => by cases op <;> simp [Differs]⟩

theorem IsDiff.eq {ops' : List (DiffOperation V)} (h : IsDiff deepEqual L C ops) (h' : IsDiff deepEqual L C ops') :
    ops = ops' := by
  have hnodup {ops : List (DiffOperation V)} (h : IsDiff deepEqual L C ops) : ops.Nodup := by
    refine h.ascending.imp ?_
    rintro a b hlt rfl
    exact lt_irrefl _ hlt
  have hperm : ops.Perm ops' := (List.perm_ext_iff_of_nodup (hnodup h) (hnodup h')).mpr fun op => by rw [h.mem, h'.mem]
  exact hperm.eq_of_pairwise (fun a b _ _ hab hba => absurd (hab.trans hba) (lt_irrefl _)) h.ascending h'.ascending

/-- The value of a key. -/
def valueAt (L : List (BTreeEntry V)) (key : String) : Option V := (L.find? fun e => e.key == key).map (·.value)

/-- A map after an operation. -/
def DiffOperation.apply (values : String → Option V) : DiffOperation V → String → Option V
  | .add key newValue | .change key _ newValue => Function.update values key (some newValue)
  | .del key _ => Function.update values key none

/-- The diff, and what it makes of one list is the other. -/
structure IsExact (deepEqual : DeepEqual V) (L C : List (BTreeEntry V)) (ops : List (DiffOperation V)) : Prop where
  isDiff : IsDiff deepEqual L C ops
  applies : ∀ key, Option.Rel (fun a b => deepEqual.equal a b = true) (ops.foldl DiffOperation.apply (valueAt L) key)
    (valueAt C key)

theorem AscendingKeys.eq_of_key (h : AscendingKeys M) (hl : l ∈ M) (hc : c ∈ M) (hk : l.key = c.key) : l = c := by
  have hnodup : (M.map (·.key)).Nodup := List.pairwise_map.mpr (h.imp fun hlt => hlt.ne)
  exact List.inj_on_of_nodup_map hnodup hl hc hk

theorem AscendingKeys.valueAt_of_mem (h : AscendingKeys L) (hl : l ∈ L) : valueAt L l.key = some l.value := by
  rw [valueAt]
  cases hfind : L.find? fun e => e.key == l.key with
  | none => exact absurd (beq_self_eq_true l.key) (List.find?_eq_none.mp hfind l hl)
  | some e =>
    have he : e = l := h.eq_of_key (List.mem_of_find?_eq_some hfind) hl (by simpa using List.find?_some hfind)
    rw [he]
    rfl

theorem valueAt_eq_none {key : String} : valueAt L key = none ↔ ∀ l ∈ L, l.key ≠ key := by
  simp [valueAt]

theorem foldl_apply_of_forall_ne {key : String} (h : ∀ op ∈ ops, op.key ≠ key) (values : String → Option V) :
    ops.foldl DiffOperation.apply values key = values key := by
  induction ops generalizing values with
  | nil => rfl
  | cons op ops ih =>
    obtain ⟨hop, hops⟩ := List.forall_mem_cons.mp h
    rw [List.foldl_cons, ih hops]
    cases op <;> exact Function.update_of_ne hop.symm _ _

theorem foldl_apply_of_mem {op : DiffOperation V} (hascending : ops.Pairwise fun a b => a.key < b.key) (hop : op ∈ ops)
    (values : String → Option V) : ops.foldl DiffOperation.apply values op.key = op.apply values op.key := by
  induction ops generalizing values with
  | nil => cases hop
  | cons first ops ih =>
    obtain ⟨hfirst, hascending⟩ := List.pairwise_cons.mp hascending
    rw [List.foldl_cons]
    rcases List.mem_cons.mp hop with rfl | hop
    · exact foldl_apply_of_forall_ne (fun op' hop' => (hfirst op' hop').ne') _
    · rw [ih hascending hop]
      cases op <;> simp [DiffOperation.apply, DiffOperation.key]

theorem IsDiff.isExact (h : IsDiff deepEqual L C ops) (hL : AscendingKeys L) (hC : AscendingKeys C) : IsExact deepEqual L C ops := by
  refine ⟨h, fun key => ?_⟩
  have hrefl (value : Option V) : Option.Rel (fun a b => deepEqual.equal a b = true) value value := by
    cases value with
    | none => exact .none
    | some v => exact .some (deepEqual.refl v)
  by_cases hop : ∃ op ∈ ops, op.key = key
  · obtain ⟨op, hop, rfl⟩ := hop
    have hdiffers := (h.mem op).mp hop
    have hvalue : ops.foldl DiffOperation.apply (valueAt L) op.key = valueAt C op.key := by
      rw [foldl_apply_of_mem h.ascending hop]
      cases op with
      | add key newValue =>
        obtain ⟨-, c, hc, rfl, rfl⟩ := hdiffers
        exact (Function.update_self ..).trans (hC.valueAt_of_mem hc).symm
      | del key oldValue => exact (Function.update_self ..).trans (valueAt_eq_none.mpr hdiffers.2).symm
      | change key oldValue newValue =>
        obtain ⟨-, ⟨c, hc, rfl, rfl⟩, -⟩ := hdiffers
        exact (Function.update_self ..).trans (hC.valueAt_of_mem hc).symm
    rw [hvalue]
    exact hrefl _
  · have hne : ∀ op ∈ ops, op.key ≠ key := fun op hmem heq => hop ⟨op, hmem, heq⟩
    rw [foldl_apply_of_forall_ne hne]
    by_cases hl : ∃ l ∈ L, l.key = key <;> by_cases hc : ∃ c ∈ C, c.key = key
    · obtain ⟨l, hl, rfl⟩ := hl
      obtain ⟨c, hc, heq⟩ := hc
      rw [hL.valueAt_of_mem hl, ← heq, hC.valueAt_of_mem hc]
      refine .some ?_
      by_contra hdiffers
      exact hne (.change l.key l.value c.value) ((h.mem _).mpr ⟨⟨l, hl, rfl, rfl⟩, ⟨c, hc, heq, rfl⟩, by simpa using hdiffers⟩)
        rfl
    · obtain ⟨l, hl, rfl⟩ := hl
      refine absurd rfl (hne (.del l.key l.value) ((h.mem _).mpr ⟨⟨l, hl, rfl, rfl⟩, fun c hmem heq => hc ⟨c, hmem, heq⟩⟩))
    · obtain ⟨c, hc, rfl⟩ := hc
      refine absurd rfl (hne (.add c.key c.value) ((h.mem _).mpr ⟨fun l hmem heq => hl ⟨l, hmem, heq⟩, c, hc, rfl, rfl⟩))
    · rw [valueAt_eq_none.mpr fun l hmem heq => hl ⟨l, hmem, heq⟩, valueAt_eq_none.mpr fun c hmem heq => hc ⟨c, hmem, heq⟩]
      exact .none

/-! ## Order -/

/-- The first key of a list that is after a key. -/
def nextAfter (key : String) (L : List (BTreeEntry V)) : Option (BTreeEntry V) := L.find? fun e => decide (key < e.key)

theorem nextAfter_cons_of_lt {key : String} (h : key < l.key) : nextAfter key (l :: L) = some l :=
  List.find?_cons_of_pos (by simpa using h)

theorem nextAfter_cons_of_not_lt {key : String} (h : ¬ key < l.key) : nextAfter key (l :: L) = nextAfter key L :=
  List.find?_cons_of_neg (by simpa using h)

/-- A key that only one list has is before the next key of the other as `stringLt` has it, too. -/
structure Agree (L C : List (BTreeEntry V)) : Prop where
  last : ∀ l ∈ L, (∀ c ∈ C, c.key ≠ l.key) → ∀ c, nextAfter l.key C = some c → stringLt l.key c.key = true
  current : ∀ c ∈ C, (∀ l ∈ L, l.key ≠ c.key) → ∀ l, nextAfter c.key L = some l → stringLt l.key c.key = false

theorem agree_nil_right (L : List (BTreeEntry V)) : Agree L [] := by
  refine ⟨fun l _ _ c h => ?_, fun c h => ?_⟩ <;> cases h

theorem agree_nil_left (C : List (BTreeEntry V)) : Agree [] C := by
  refine ⟨fun l h => ?_, fun c _ _ l h => ?_⟩ <;> cases h

theorem agree_cons_of_eq (hL : AscendingKeys (l :: L)) (hC : AscendingKeys (c :: C)) (heq : l.key = c.key) :
    Agree (l :: L) (c :: C) ↔ Agree L C := by
  have hl := (List.pairwise_cons.mp hL).1
  have hc := (List.pairwise_cons.mp hC).1
  constructor
  · rintro ⟨hlast, hcurrent⟩
    refine ⟨fun x hx hno y hy => hlast x (List.mem_cons_of_mem _ hx) ?_ y ?_,
      fun x hx hno y hy => hcurrent x (List.mem_cons_of_mem _ hx) ?_ y ?_⟩
    · exact List.forall_mem_cons.mpr ⟨(heq ▸ hl x hx).ne, hno⟩
    · rwa [nextAfter_cons_of_not_lt (not_lt.mpr (heq ▸ hl x hx).le)]
    · exact List.forall_mem_cons.mpr ⟨(heq ▸ hc x hx).ne, hno⟩
    · rwa [nextAfter_cons_of_not_lt (not_lt.mpr (heq ▸ hc x hx).le)]
  · rintro ⟨hlast, hcurrent⟩
    refine ⟨fun x hx hno y hy => ?_, fun x hx hno y hy => ?_⟩
    · rcases List.mem_cons.mp hx with rfl | hx
      · exact absurd heq.symm (hno c (List.mem_cons_self ..))
      · rw [nextAfter_cons_of_not_lt (not_lt.mpr (heq ▸ hl x hx).le)] at hy
        exact hlast x hx (fun z hz => hno z (List.mem_cons_of_mem _ hz)) y hy
    · rcases List.mem_cons.mp hx with rfl | hx
      · exact absurd heq (hno l (List.mem_cons_self ..))
      · rw [nextAfter_cons_of_not_lt (not_lt.mpr (heq ▸ hc x hx).le)] at hy
        exact hcurrent x hx (fun z hz => hno z (List.mem_cons_of_mem _ hz)) y hy

theorem agree_cons_of_lt (hC : AscendingKeys (c :: C)) (hlt : l.key < c.key) :
    Agree (l :: L) (c :: C) ↔ stringLt l.key c.key = true ∧ Agree L (c :: C) := by
  have hc {x : BTreeEntry V} (hx : x ∈ c :: C) : l.key < x.key := by
    rcases List.mem_cons.mp hx with rfl | hx
    · exact hlt
    · exact hlt.trans ((List.pairwise_cons.mp hC).1 x hx)
  constructor
  · rintro ⟨hlast, hcurrent⟩
    refine ⟨hlast l (List.mem_cons_self ..) (fun x hx => (hc hx).ne') c (nextAfter_cons_of_lt hlt),
      fun x hx => hlast x (List.mem_cons_of_mem _ hx), fun x hx hno y hy => hcurrent x hx ?_ y ?_⟩
    · exact List.forall_mem_cons.mpr ⟨(hc hx).ne, hno⟩
    · rwa [nextAfter_cons_of_not_lt (not_lt.mpr (hc hx).le)]
  · rintro ⟨hhead, hlast, hcurrent⟩
    refine ⟨fun x hx hno y hy => ?_, fun x hx hno y hy => ?_⟩
    · rcases List.mem_cons.mp hx with rfl | hx
      · rw [nextAfter_cons_of_lt hlt] at hy
        cases hy
        exact hhead
      · exact hlast x hx hno y hy
    · rw [nextAfter_cons_of_not_lt (not_lt.mpr (hc hx).le)] at hy
      exact hcurrent x hx (fun z hz => hno z (List.mem_cons_of_mem _ hz)) y hy

theorem agree_cons_of_gt (hL : AscendingKeys (l :: L)) (hlt : c.key < l.key) :
    Agree (l :: L) (c :: C) ↔ stringLt l.key c.key = false ∧ Agree (l :: L) C := by
  have hl {x : BTreeEntry V} (hx : x ∈ l :: L) : c.key < x.key := by
    rcases List.mem_cons.mp hx with rfl | hx
    · exact hlt
    · exact hlt.trans ((List.pairwise_cons.mp hL).1 x hx)
  constructor
  · rintro ⟨hlast, hcurrent⟩
    refine ⟨hcurrent c (List.mem_cons_self ..) (fun x hx => (hl hx).ne') l (nextAfter_cons_of_lt hlt),
      fun x hx hno y hy => hlast x hx ?_ y ?_, fun x hx => hcurrent x (List.mem_cons_of_mem _ hx)⟩
    · exact List.forall_mem_cons.mpr ⟨(hl hx).ne, hno⟩
    · rwa [nextAfter_cons_of_not_lt (not_lt.mpr (hl hx).le)]
  · rintro ⟨hhead, hlast, hcurrent⟩
    refine ⟨fun x hx hno y hy => ?_, fun x hx hno y hy => ?_⟩
    · rw [nextAfter_cons_of_not_lt (not_lt.mpr (hl hx).le)] at hy
      exact hlast x hx (fun z hz => hno z (List.mem_cons_of_mem _ hz)) y hy
    · rcases List.mem_cons.mp hx with rfl | hx
      · rw [nextAfter_cons_of_lt hlt] at hy
        cases hy
        exact hhead
      · exact hcurrent x hx hno y hy

/-- **The merge is exact** if and only if the orders agree. -/
theorem diffEntries_eq_iff (hL : AscendingKeys L) (hC : AscendingKeys C) :
    diffEntries deepEqual L C = exactDiff deepEqual L C ↔ Agree L C := by
  induction L, C using diffEntriesBy.induct fun a b => decide (a < b) with
  | case1 l L c C heq ih =>
    rw [agree_cons_of_eq hL hC heq, ← ih (List.pairwise_cons.mp hL).2 (List.pairwise_cons.mp hC).2, diffEntries, exactDiff,
      diffEntriesBy, diffEntriesBy, if_pos heq, if_pos heq, List.append_right_inj]
  | case2 l L c C hne hlt ih =>
    rw [agree_cons_of_lt hC (of_decide_eq_true hlt), ← ih (List.pairwise_cons.mp hL).2 hC, diffEntries, exactDiff,
      diffEntriesBy, diffEntriesBy, if_neg hne, if_neg hne, if_pos hlt]
    by_cases hs : stringLt l.key c.key = true
    · rw [if_pos hs, List.cons_inj_right]
      exact (and_iff_right hs).symm
    · rw [if_neg hs]
      refine ⟨fun h => ?_, fun h => absurd h.1 hs⟩
      cases h
  | case3 l L c C hne hlt ih =>
    have hcl : c.key < l.key := lt_of_le_of_ne (not_lt.mp (by simpa using hlt)) (Ne.symm hne)
    rw [agree_cons_of_gt hL hcl, ← ih hL (List.pairwise_cons.mp hC).2, diffEntries, exactDiff,
      diffEntriesBy, diffEntriesBy, if_neg hne, if_neg hne, if_neg hlt]
    by_cases hs : stringLt l.key c.key = true
    · rw [if_pos hs]
      refine ⟨fun h => ?_, fun h => absurd hs (by rw [h.1]; decide)⟩
      cases h
    · rw [if_neg hs, List.cons_inj_right]
      exact (and_iff_right (by simpa using hs)).symm
  | case4 l L ih =>
    have h := (ih (List.pairwise_cons.mp hL).2 hC).mpr (agree_nil_right L)
    refine iff_of_true ?_ (agree_nil_right _)
    rw [diffEntries, exactDiff, diffEntriesBy, diffEntriesBy, List.cons_inj_right]
    exact h
  | case5 c C ih =>
    have h := (ih hL (List.pairwise_cons.mp hC).2).mpr (agree_nil_left C)
    refine iff_of_true ?_ (agree_nil_left _)
    rw [diffEntries, exactDiff, diffEntriesBy, diffEntriesBy, List.cons_inj_right]
    exact h
  | case6 =>
    refine iff_of_true ?_ (agree_nil_left _)
    rw [diffEntries, exactDiff, diffEntriesBy, diffEntriesBy]

/-! ## Runs -/

theorem mem_of_mem_flatMap_diff {lt : String → String → Bool} {runs : List (List (BTreeEntry V) × List (BTreeEntry V))}
    {op : DiffOperation V} (hL : ∀ r ∈ runs, ∀ x ∈ r.1, x ∈ L) (hC : ∀ r ∈ runs, ∀ x ∈ r.2, x ∈ C)
    (h : op ∈ runs.flatMap fun r => diffEntriesBy lt deepEqual r.1 r.2) :
    (∃ l ∈ L, l.key = op.key) ∨ ∃ c ∈ C, c.key = op.key := by
  obtain ⟨r, hr, hop⟩ := List.mem_flatMap.mp h
  exact (key_mem_of_mem_diff hop).imp (fun ⟨x, hx, hk⟩ => ⟨x, hL r hr x hx, hk⟩) fun ⟨x, hx, hk⟩ => ⟨x, hC r hr x hx, hk⟩

/-- Two lists cut into runs by lists that both have. -/
inductive Cuts : List (BTreeEntry V) → List (BTreeEntry V) → List (List (BTreeEntry V) × List (BTreeEntry V)) → Prop
  | nil : Cuts [] [] []
  | run (L C : List (BTreeEntry V)) : Cuts L C [(L, C)]
  | shared {L C L' C' M runs runs'} : M ≠ [] → Cuts L C runs → Cuts L' C' runs' →
      Cuts (L ++ (M ++ L')) (C ++ (M ++ C')) (runs ++ runs')

variable {runs : List (List (BTreeEntry V) × List (BTreeEntry V))}

theorem Cuts.subset (h : Cuts L C runs) : (∀ r ∈ runs, ∀ x ∈ r.1, x ∈ L) ∧ ∀ r ∈ runs, ∀ x ∈ r.2, x ∈ C := by
  induction h with
  | nil => simp
  | run L C => simp
  | shared _ _ _ ih ih' =>
    refine ⟨fun r hr x hx => ?_, fun r hr x hx => ?_⟩
    · rcases List.mem_append.mp hr with hr | hr
      · exact List.mem_append_left _ (ih.1 r hr x hx)
      · exact List.mem_append_right _ (List.mem_append_right _ (ih'.1 r hr x hx))
    · rcases List.mem_append.mp hr with hr | hr
      · exact List.mem_append_left _ (ih.2 r hr x hx)
      · exact List.mem_append_right _ (List.mem_append_right _ (ih'.2 r hr x hx))

/-- A shared list is between what is before and what is after it. -/
structure Between (L M L' : List (BTreeEntry V)) : Prop where
  before : AscendingKeys L
  after : AscendingKeys L'
  shared : AscendingKeys M
  lt : ∀ x ∈ L, ∀ m ∈ M, x.key < m.key
  gt : ∀ x ∈ L', ∀ m ∈ M, m.key < x.key

theorem AscendingKeys.between {L L' : List (BTreeEntry V)} (h : AscendingKeys (L ++ (M ++ L'))) : Between L M L' := by
  obtain ⟨hL, hML, hlt⟩ := List.pairwise_append.mp h
  obtain ⟨hM, hL', hgt⟩ := List.pairwise_append.mp hML
  exact ⟨hL, hL', hM, fun x hx m hm => hlt x hx m (List.mem_append_left _ hm), fun x hx m hm => hgt m hm x hx⟩

theorem Differs.shared_iff {L L' C C' : List (BTreeEntry V)} (hL : Between L M L') (hC : Between C M C') (hM : M ≠ [])
    (op : DiffOperation V) :
    Differs deepEqual (L ++ (M ++ L')) (C ++ (M ++ C')) op ↔ Differs deepEqual L C op ∨ Differs deepEqual L' C' op := by
  obtain ⟨m, hm⟩ := List.exists_mem_of_ne_nil M hM
  have hne {x y : BTreeEntry V} (hx : x ∈ L ∨ x ∈ C) (hy : y ∈ L' ∨ y ∈ C') : x.key ≠ y.key := by
    have hxm : x.key < m.key := hx.elim (fun hx => hL.lt x hx m hm) fun hx => hC.lt x hx m hm
    have hmy : m.key < y.key := hy.elim (fun hy => hL.gt y hy m hm) fun hy => hC.gt y hy m hm
    exact (hxm.trans hmy).ne
  have hbefore {x y : BTreeEntry V} (hx : x ∈ L ∨ x ∈ C) (hy : y ∈ M) : x.key ≠ y.key :=
    (hx.elim (fun hx => hL.lt x hx y hy) fun hx => hC.lt x hx y hy).ne
  have hafter {x y : BTreeEntry V} (hx : x ∈ L' ∨ x ∈ C') (hy : y ∈ M) : x.key ≠ y.key :=
    (hx.elim (fun hx => hL.gt x hx y hy) fun hx => hC.gt x hx y hy).ne'
  have hM {x y : BTreeEntry V} (hx : x ∈ M) (hy : y ∈ M) (hk : x.key = y.key) : x = y :=
    hL.shared.eq_of_key hx hy hk
  have hrefl := deepEqual.refl
  cases op <;> simp only [Differs, List.mem_append] <;> grind

/-- **The diffs of runs** make the diff of what they are cut from. -/
theorem Cuts.isDiff (h : Cuts L C runs) (hL : AscendingKeys L) (hC : AscendingKeys C) :
    IsDiff deepEqual L C (runs.flatMap fun r => exactDiff deepEqual r.1 r.2) := by
  induction h with
  | nil => exact ⟨.nil, fun op => by cases op <;> simp [Differs]⟩
  | run L C =>
    rw [List.flatMap_singleton]
    exact exactDiff_isDiff hL hC
  | @shared L C L' C' M runs runs' hM h h' ih ih' =>
    have hbL := hL.between
    have hbC := hC.between
    obtain ⟨hascending, hmem⟩ := ih hbL.before hbC.before
    obtain ⟨hascending', hmem'⟩ := ih' hbL.after hbC.after
    rw [List.flatMap_append]
    refine ⟨List.pairwise_append.mpr ⟨hascending, hascending', fun a ha b hb => ?_⟩, fun op => ?_⟩
    · obtain ⟨m, hm⟩ := List.exists_mem_of_ne_nil M hM
      have ham : a.key < m.key := by
        rcases mem_of_mem_flatMap_diff h.subset.1 h.subset.2 ha with ⟨x, hx, hk⟩ | ⟨x, hx, hk⟩
        · exact hk ▸ hbL.lt x hx m hm
        · exact hk ▸ hbC.lt x hx m hm
      have hmb : m.key < b.key := by
        rcases mem_of_mem_flatMap_diff h'.subset.1 h'.subset.2 hb with ⟨x, hx, hk⟩ | ⟨x, hx, hk⟩
        · exact hk ▸ hbL.gt x hx m hm
        · exact hk ▸ hbC.gt x hx m hm
      exact ham.trans hmb
    · rw [List.mem_append, hmem, hmem', Differs.shared_iff hbL hbC hM]

theorem append_inj_of_keys {key : String} {a b a' b' : List (DiffOperation V)} (ha : ∀ op ∈ a, op.key < key)
    (hb : ∀ op ∈ b, op.key < key) (ha' : ∀ op ∈ a', key < op.key) (hb' : ∀ op ∈ b', key < op.key) :
    a ++ a' = b ++ b' ↔ a = b ∧ a' = b' := by
  refine ⟨fun h => ?_, fun ⟨h, h'⟩ => by rw [h, h']⟩
  have hfilter := congrArg (List.filter fun op => decide (op.key < key)) h
  rw [List.filter_append, List.filter_append, List.filter_eq_self.mpr fun op hop => decide_eq_true (ha op hop),
    List.filter_eq_self.mpr fun op hop => decide_eq_true (hb op hop),
    List.filter_eq_nil_iff.mpr fun op hop hlt => lt_asymm (ha' op hop) (of_decide_eq_true hlt),
    List.filter_eq_nil_iff.mpr fun op hop hlt => lt_asymm (hb' op hop) (of_decide_eq_true hlt), List.append_nil,
    List.append_nil] at hfilter
  subst hfilter
  exact ⟨rfl, List.append_cancel_left h⟩

/-- **The merges of runs** are the diff of what they are cut from if and only if the orders agree in each run. -/
theorem Cuts.diff_eq_iff (h : Cuts L C runs) (hL : AscendingKeys L) (hC : AscendingKeys C) :
    (runs.flatMap fun r => diffEntries deepEqual r.1 r.2) = (runs.flatMap fun r => exactDiff deepEqual r.1 r.2) ↔
      ∀ r ∈ runs, Agree r.1 r.2 := by
  induction h with
  | nil => simp
  | run L C =>
    rw [List.flatMap_singleton, List.flatMap_singleton, List.forall_mem_singleton]
    exact diffEntries_eq_iff hL hC
  | @shared L C L' C' M runs runs' hM h h' ih ih' =>
    have hbL := hL.between
    have hbC := hC.between
    obtain ⟨m, hm⟩ := List.exists_mem_of_ne_nil M hM
    have hlt {lt : String → String → Bool} : ∀ op ∈ runs.flatMap fun r => diffEntriesBy lt deepEqual r.1 r.2, op.key < m.key := by
      intro op hop
      rcases mem_of_mem_flatMap_diff h.subset.1 h.subset.2 hop with ⟨x, hx, hk⟩ | ⟨x, hx, hk⟩
      · exact hk ▸ hbL.lt x hx m hm
      · exact hk ▸ hbC.lt x hx m hm
    have hgt {lt : String → String → Bool} : ∀ op ∈ runs'.flatMap fun r => diffEntriesBy lt deepEqual r.1 r.2, m.key < op.key := by
      intro op hop
      rcases mem_of_mem_flatMap_diff h'.subset.1 h'.subset.2 hop with ⟨x, hx, hk⟩ | ⟨x, hx, hk⟩
      · exact hk ▸ hbL.gt x hx m hm
      · exact hk ▸ hbC.gt x hx m hm
    rw [List.flatMap_append, List.flatMap_append, List.forall_mem_append, ← ih hbL.before hbC.before,
      ← ih' hbL.after hbC.after]
    exact append_inj_of_keys hlt hlt hgt hgt

end ZeroSync
