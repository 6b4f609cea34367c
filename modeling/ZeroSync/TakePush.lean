/-
Every push of a Take settles: branch by branch of `take.ts`, for the rows of
the pushed row's partition before and after the change.

Each branch cuts the rows before and after the change at the stored bound. The
change moves at most one row into or out of each part, which gives the
next bound and what the emitted changes do.
-/
import ZeroSync.TakeFacts

namespace ZeroSync

open SortedList

namespace Take

/-! ## The fetches a push makes -/

section
variable {cmp : Comparator} [Std.TransCmp cmp] {input : Input} {constraint : Option Constraint}
  {rows : List Row} (hans : Answers cmp input constraint rows) (hs : Sorted cmp rows) (b : Row)

include hans

omit [Std.TransCmp cmp] in
theorem Answers.after : (input.fetch { constraint, start := some ⟨b, .after⟩ }).map (·.row) = hi cmp b rows := by
  simpa [Start.admits, directed] using hans (some ⟨b, .after⟩) false

include hs

theorem Answers.from : (input.fetch { constraint, start := some ⟨b, .at⟩ }).map (·.row) =
    at' cmp b rows ++ hi cmp b rows := by
  simpa [Start.admits, directed, hs.filter_isGE] using hans (some ⟨b, .at⟩) false

omit hs in
theorem Answers.afterReverse : (input.fetch { constraint, start := some ⟨b, .after⟩, reverse := true }).map (·.row) =
    (lo cmp b rows).reverse := by
  rw [hans (some ⟨b, .after⟩) true, if_pos rfl, List.filter_reverse]
  congr 1
  refine List.filter_congr fun r _ => ?_
  simp only [Start.admits, directed, if_true, Option.all_some, decide_eq_decide]
  exact Std.OrientedCmp.gt_iff_lt

theorem Answers.fromReverse : (input.fetch { constraint, start := some ⟨b, .at⟩, reverse := true }).map (·.row) =
    (lo cmp b rows ++ at' cmp b rows).reverse := by
  rw [hans (some ⟨b, .at⟩) true, if_pos rfl, List.filter_reverse, ← hs.filter_isLE]
  congr 1
  refine List.filter_congr fun r _ => ?_
  simp only [Start.admits, directed, if_true, Option.all_some]
  have hswap : cmp b r = (cmp r b).swap := Std.OrientedCmp.eq_swap
  rw [hswap]
  cases cmp r b <;> rfl

end

section
variable {t : Take} [Std.TransCmp t.compareRows] {input : Input} {key : TakeStateKey} {rows rows' : List Row}
  {state : TakeState} {constraint : Option Constraint}

theorem ne_of_added {r x : Row} (hs' : Sorted t.compareRows rows') (hp : rows'.Perm (r :: rows)) (hx : x ∈ rows) :
    t.compareRows r x ≠ .eq := by
  intro he
  have hr : r ∈ rows' := hp.symm.subset (by simp)
  have hx' : x ∈ rows' := hp.symm.subset (by simp [hx])
  have hnot := (List.nodup_cons.mp (hp.nodup_iff.mp hs'.nodup)).1
  exact hnot (hs'.eq_of_cmp_eq hr hx' he ▸ hx)

theorem exists_concat {l k : List Row} {r : Row} (hp : l.Perm (r :: k)) :
    ∃ p y, l = p ++ [y] ∧ p.length = k.length := by
  rcases l.eq_nil_or_concat with rfl | ⟨p, y, rfl⟩
  · exact absurd hp.symm.eq_nil (by simp)
  · refine ⟨p, y, List.concat_eq_append .., ?_⟩
    simpa using hp.length_eq

/-- A row enters a full partition before the bound: the row at the bound leaves,
the last row before it is the next bound. -/
theorem Settled.overflow {b y : Row} {boundNode node : Node} {p : List Row} (hhid : t.rowHiddenFromFetch = none)
    (hs' : Sorted t.compareRows rows') (htake : rows.take t.limit = lo t.compareRows b rows ++ [boundNode.row])
    (hsize : state.size = t.limit) (hlo : (lo t.compareRows b rows').Perm (node.row :: lo t.compareRows b rows))
    (hat : at' t.compareRows b rows' = [boundNode.row]) (hp : lo t.compareRows b rows' = p ++ [y])
    (hplen : p.length + 1 = t.limit) (maxBound : Option Row) : Settled t key rows rows'
      ([(t.setTakeState key state.size (some y) maxBound).pushWithRowHiddenFromFetch node.row (.remove boundNode),
        (t.setTakeState key state.size (some y) maxBound).output (.add node)],
      t.setTakeState key state.size (some y) maxBound) := by
  have hcut := cut_eq hs' hat
  rw [hp, List.append_assoc, List.singleton_append] at hcut
  have htake' : rows'.take t.limit = p ++ [y] := by rw [hcut]; exact take_of_cut hplen.le (.inl hplen)
  refine Settled.hidden (k := lo t.compareRows b rows) maxBound hhid hs' ?_ ?_ ?_
  · rw [hcut]
    exact describes_of_cut hplen.le (.inl hplen) Std.ReflCmp.compare_self (by rw [hsize, ← hplen]; simp)
  · rw [htake]; exact List.perm_append_singleton ..
  · rw [htake', ← hp]; exact hlo

theorem describes_add {r : Row} (hs : Sorted t.compareRows rows) (hs' : Sorted t.compareRows rows')
    (hdesc : Describes t.limit t.compareRows rows state) (hp : rows'.Perm (r :: rows))
    (hroom : state.size < t.limit) : Describes t.limit t.compareRows rows' ⟨state.size + 1, some (match state.bound with
      | none => r
      | some bound => if t.compareRows bound r = .lt then r else bound)⟩ := by
  have hlimit : 0 < t.limit := by have := hdesc.size; omega
  cases hb : state.bound with
  | none =>
    obtain ⟨rfl, hsize⟩ := hdesc.nil_of_bound hb hlimit
    obtain rfl : rows' = [r] := List.perm_singleton.mp hp
    rw [hsize]
    exact describes_of_cut (p := []) (by simpa) (.inr rfl) Std.ReflCmp.compare_self rfl
  | some b =>
    obtain ⟨x, hxb, hat, hrows, -, hsz, hlen, hfull⟩ := hdesc.cut hs hb
    have hhi : hi t.compareRows b rows = [] := hfull.resolve_left (by omega)
    have hx : x ∈ rows := by rw [hrows]; simp
    cases hc : t.compareRows b r with
    | lt =>
      obtain ⟨hlo', hat', hhi'⟩ := parts_gt hp (Std.OrientedCmp.gt_of_lt hc)
      have hcut := cut_eq hs' (List.perm_singleton.mp (hat ▸ hat'))
      rw [hhi] at hhi'
      rw [List.perm_singleton.mp hhi'] at hcut
      have hassoc : rows' = (lo t.compareRows b rows' ++ [x]) ++ r :: [] := by simpa using hcut
      rw [hassoc]
      refine describes_of_cut ?_ (.inr rfl) (by simp [hc, Std.ReflCmp.compare_self]) ?_
      all_goals
        simp only [List.length_append, List.length_singleton, hlo'.length_eq]
        omega
    | eq =>
      exact absurd (Std.TransCmp.eq_trans (Std.OrientedCmp.eq_symm hc) (Std.OrientedCmp.eq_symm hxb))
        (ne_of_added hs' hp hx)
    | gt =>
      obtain ⟨hlo', hat', hhi'⟩ := parts_lt hp (Std.OrientedCmp.lt_of_gt hc)
      have hcut := cut_eq hs' (List.perm_singleton.mp (hat ▸ hat'))
      rw [hhi] at hhi'
      rw [hhi'.eq_nil] at hcut
      rw [hcut]
      refine describes_of_cut ?_ (.inr rfl) (by simpa [hc] using hxb) ?_
      all_goals
        simp only [hlo'.length_eq, List.length_cons]
        omega

theorem Settled.beyond {b : Row} (hs : Sorted t.compareRows rows)
    (hs' : Sorted t.compareRows rows') (hdesc : Describes t.limit t.compareRows rows state)
    (hstate : t.states key = some state) (hb : state.bound = some b)
    (hfull : (lo t.compareRows b rows).length + 1 = t.limit)
    (hlo : (lo t.compareRows b rows').Perm (lo t.compareRows b rows))
    (hat : (at' t.compareRows b rows').Perm (at' t.compareRows b rows)) : Settled t key rows rows' ([], t) := by
  obtain ⟨x, hxb, hat₀, -, htake, hsize, hlen, -⟩ := hdesc.cut hs hb
  have hlo : lo t.compareRows b rows' = lo t.compareRows b rows :=
    Sorted.eq_of_perm (hs'.filter _) (hs.filter _) hlo
  have hcut := cut_eq hs' (List.perm_singleton.mp (hat₀ ▸ hat))
  rw [hlo] at hcut
  have hst : state = ⟨state.size, some b⟩ := by rw [← hb]
  refine .nothing hstate ?_ ?_
  · rw [hst, hcut]
    exact describes_of_cut hlen (.inl hfull) hxb hsize
  · rw [htake, hcut, take_of_cut hlen (.inl hfull)]

/-- **An ADD settles.** -/
theorem pushAdd_settled {node : Node} (hlimit : 0 < t.limit) (hhid : t.rowHiddenFromFetch = none)
    (hs : Sorted t.compareRows rows) (hs' : Sorted t.compareRows rows')
    (hdesc : Describes t.limit t.compareRows rows state)
    (hstate : t.states (getTakeStateKey t.partitionKey node.row) = some state)
    (hans : Answers t.compareRows input (partitionConstraint t.partitionKey node.row) rows')
    (happ : (Change.add node).delta.Applies rows rows') : ∃ pushed, t.pushAdd input state node = .ok pushed ∧
      Settled t (getTakeStateKey t.partitionKey node.row) rows rows' pushed := by
  obtain ⟨hnew, hp⟩ := happ
  have hsize := hdesc.size
  rw [List.length_take] at hsize
  unfold pushAdd
  by_cases hroom : state.size < t.limit
  · -- Everything is taken, before and after.
    have htake : rows.take t.limit = rows := List.take_of_length_le (by omega)
    have htake' : rows'.take t.limit = rows' := List.take_of_length_le (by rw [hp.length_eq, List.length_cons]; omega)
    rw [if_pos hroom]
    refine ⟨_, rfl, Settled.one t.maxBound (.add node) hhid hs' (describes_add hs hs' hdesc hp hroom) ?_⟩
    rw [htake, htake']
    exact ⟨hnew, hp⟩
  · rw [if_neg hroom]
    cases hb : state.bound with
    | none => exact absurd (hdesc.nil_of_bound hb hlimit).2 (by omega)
    | some b =>
    obtain ⟨x, hxb, hat, hrows, htake, hsz, hlen, -⟩ := hdesc.cut hs hb
    have hfull : (lo t.compareRows b rows).length + 1 = t.limit := by omega
    have hx : x ∈ rows := by rw [hrows]; simp
    cases hc : t.compareRows node.row b with
    | eq => exact absurd (Std.TransCmp.eq_trans hc (Std.OrientedCmp.eq_symm hxb)) (ne_of_added hs' hp hx)
    | gt =>
      obtain ⟨hlo', hat', -⟩ := parts_gt hp hc
      refine ⟨_, by simp [hc], Settled.beyond hs hs' hdesc hstate hb hfull hlo' hat'⟩
    | lt =>
      obtain ⟨hlo', hat', -⟩ := parts_lt hp hc
      have hat' := List.perm_singleton.mp (hat ▸ hat')
      have hsz' : state.size = t.limit := by omega
      obtain ⟨p, y, hpy, hplen⟩ := exists_concat hlo'
      rw [← hplen] at hfull
      by_cases hone : t.limit = 1
      · have hfetch := hans.from hs' b
        rw [hat', List.singleton_append] at hfetch
        obtain ⟨boundNode, rest, hnodes, rfl, -⟩ := List.map_eq_cons_iff.mp hfetch
        -- The row added is the only one before the bound.
        obtain rfl : p = [] := List.eq_nil_of_length_eq_zero (by omega)
        obtain rfl : y = node.row := by
          have := hlo'.symm.subset (List.mem_cons_self ..)
          rw [hpy] at this
          simpa [eq_comm] using this
        exact ⟨_, by simp [hc, hone, hnodes], Settled.overflow hhid hs' htake hsz' hlo' hat' hpy hfull t.maxBound⟩
      · have hfetch := hans.fromReverse hs' b
        rw [hat', hpy] at hfetch
        simp only [List.reverse_append, List.reverse_singleton, List.singleton_append] at hfetch
        obtain ⟨boundNode, rest, hnodes, rfl, hrest⟩ := List.map_eq_cons_iff.mp hfetch
        obtain ⟨before, rest, rfl, rfl, -⟩ := List.map_eq_cons_iff.mp hrest
        -- The row added is before the bound, so at or before the last of those.
        have hle : t.compareRows node.row before.row ≠ .gt := by
          have hmem := hlo'.symm.subset (List.mem_cons_self ..)
          have hsorted : Sorted t.compareRows (lo t.compareRows b rows') := hs'.filter _
          rw [hpy] at hmem hsorted
          rcases List.mem_append.mp hmem with hmem | hmem
          · rw [(sorted_append.mp hsorted).2.2 _ hmem _ (by simp)]
            decide
          · have hself : t.compareRows before.row before.row = .eq := Std.ReflCmp.compare_self
            rw [List.mem_singleton.mp hmem, hself]
            decide
        exact ⟨_, by simp [hc, hone, hnodes, hle], Settled.overflow hhid hs' htake hsz' hlo' hat' hpy hfull t.maxBound⟩

/-! ## REMOVE -/

theorem replacement_append (cmp : Comparator) (b : Row) (nodes rest : List Node) (acc : Option (Node × Bool))
    (h : ∀ n ∈ nodes, cmp n.row b ≠ .gt) : replacement cmp b (nodes ++ rest) acc =
      replacement cmp b rest ((nodes.getLast?.map fun n => (n, false)).or acc) := by
  induction nodes generalizing acc with
  | nil => rfl
  | cons n nodes ih =>
    rw [List.cons_append, replacement, if_neg (h n (by simp)), ih _ fun m hm => h m (by simp [hm])]
    cases nodes with
    | nil => rfl
    | cons m nodes =>
      rw [List.getLast?_cons_cons, List.getLast?_eq_some_getLast (List.cons_ne_nil m nodes)]
      rfl

theorem Describes.take_eq_below {b : Row} (hdesc : Describes t.limit t.compareRows rows state)
    (hs : Sorted t.compareRows rows) (hb : state.bound = some b) :
    rows.take t.limit = below t.compareRows b rows := by
  have := hdesc.visible_eq hs
  simp only [visible, hb, Option.all_none, List.filter_true] at this
  exact this.symm

/-- **A REMOVE settles.** -/
theorem pushRemove_settled {node : Node} (hlimit : 0 < t.limit) (hhid : t.rowHiddenFromFetch = none)
    (hs : Sorted t.compareRows rows) (hs' : Sorted t.compareRows rows')
    (hdesc : Describes t.limit t.compareRows rows state)
    (hstate : t.states (getTakeStateKey t.partitionKey node.row) = some state)
    (hans : Answers t.compareRows input (partitionConstraint t.partitionKey node.row) rows')
    (happ : (Change.remove node).delta.Applies rows rows') : ∃ pushed, t.pushRemove input state node = .ok pushed ∧
      Settled t (getTakeStateKey t.partitionKey node.row) rows rows' pushed := by
  replace happ : rows.Perm (node.row :: rows') := happ
  unfold pushRemove
  cases hb : state.bound with
  | none =>
    obtain ⟨rfl, -⟩ := hdesc.nil_of_bound hb hlimit
    exact absurd happ.symm.eq_nil (by simp)
  | some b =>
  obtain ⟨x, hxb, hat, hrows, htake, hsz, hlen, hfull⟩ := hdesc.cut hs hb
  dsimp only
  by_cases hgt : t.compareRows node.row b = .gt
  · obtain ⟨hlo', hat', hhi'⟩ := parts_gt happ hgt
    have hne : hi t.compareRows b rows ≠ [] := fun h => by rw [h] at hhi'; exact absurd hhi'.symm.eq_nil (by simp)
    rw [if_pos hgt]
    exact ⟨_, rfl, .beyond hs hs' hdesc hstate hb (hfull.resolve_right hne) hlo'.symm hat'.symm⟩
  rw [if_neg hgt]
  -- The removed row is at or before the bound; nothing after the bound moves.
  have hbelow : (below t.compareRows b rows).Perm (node.row :: below t.compareRows b rows') := by
    have hle : (t.compareRows node.row b).isLE := Ordering.isLE_iff_ne_gt.mpr hgt
    simpa [below, hle] using happ.filter fun y => (t.compareRows y b).isLE
  have hhi : hi t.compareRows b rows' = hi t.compareRows b rows := by
    have hp : (hi t.compareRows b rows).Perm (hi t.compareRows b rows') := by
      simpa [hgt] using happ.filter fun y => t.compareRows y b = .gt
    exact Sorted.eq_of_perm (hs'.filter _) (hs.filter _) hp.symm
  have htake' := hdesc.take_eq_below hs hb
  have hcut : rows' = below t.compareRows b rows' ++ hi t.compareRows b rows' := by
    rw [hs'.filter_isLE b, List.append_assoc]
    exact (hs'.cut b).symm
  have hblen := hbelow.length_eq
  rw [← htake', htake, List.length_append, List.length_singleton, List.length_cons] at hblen
  -- The fetch after the bound, reversed, starts with the last row before it.
  have hbefore := hans.afterReverse b
  have hfrom := hans.from hs' b
  obtain ⟨atNodes, hiNodes, hnodes, hatNodes, hhiNodes⟩ := List.map_eq_append_iff.mp hfrom
  have hatle : ∀ n ∈ atNodes, t.compareRows n.row b ≠ .gt := fun n hn => by
    have := hatNodes ▸ List.mem_map_of_mem hn
    simp at this
    rw [this.2]
    decide
  generalize hbn : (input.fetch
    { constraint := partitionConstraint t.partitionKey node.row
      start := some ⟨b, .after⟩
      reverse := true })[0]? = before
  have hbeforeRow : before.map (·.row) = (lo t.compareRows b rows').getLast? := by
    rw [← hbn, ← List.getElem?_map, hbefore, ← List.head?_eq_getElem?, List.head?_reverse]
  have hbeforeFlag : before.map (fun n => (n, decide (t.compareRows n.row b = .gt))) =
      before.map fun n => (n, false) := by
    refine Option.map_congr fun n hn => ?_
    subst hn
    have := List.mem_of_getLast? hbeforeRow.symm
    simp at this
    simp [this.2]
  have hflag : (before.map fun n => (n, false)).any (·.2) = false := by cases before <;> rfl
  rw [hbeforeFlag, hflag, if_neg Bool.false_ne_true, hnodes, replacement_append _ _ _ _ _ hatle]
  cases hiNodes with
  | cons n hiNodes =>
    rw [List.map_cons] at hhiNodes
    have hn : t.compareRows n.row b = .gt := by
      have : n.row ∈ hi t.compareRows b rows' := by rw [← hhiNodes]; simp
      simpa using (List.mem_filter.mp this).2
    have hfull := hfull.resolve_right (by rw [← hhi, ← hhiNodes]; simp)
    rw [← hhiNodes] at hcut
    rw [replacement, if_pos hn]
    refine ⟨_, rfl, Settled.twice t.maxBound node n hstate hb hhid hs' ?_ (htake' ▸ hbelow) ?_⟩
    · conv => arg 3; rw [hcut]
      exact describes_of_cut (by omega) (.inl (by omega)) Std.ReflCmp.compare_self (by omega)
    · conv => arg 1; rw [hcut, take_of_cut (by omega) (.inl (by omega))]
      exact List.perm_append_singleton ..
  | nil =>
    rw [List.map_nil] at hhiNodes
    rw [← hhiNodes, List.append_nil] at hcut
    have hble : below t.compareRows b rows' = lo t.compareRows b rows' ++ at' t.compareRows b rows' :=
      hs'.filter_isLE b
    generalize hX : (atNodes.getLast?.map fun n => (n, false)).or (before.map fun n => (n, false)) = newBound
    have hlast : newBound.map (·.1.row) = rows'.getLast? := by
      rw [hcut, hble, List.getLast?_append, ← hatNodes, ← hbeforeRow, ← hX, List.getLast?_map]
      cases atNodes.getLast? <;> cases before <;> rfl
    have hnot : ∀ m, newBound ≠ some (m, true) := fun m hm => by
      rw [hm] at hX
      cases h : atNodes.getLast? <;> cases before <;> simp [h] at hX
    have hlen' : rows'.length ≤ t.limit := by rw [hcut]; omega
    have hdesc' : Describes t.limit t.compareRows rows' ⟨state.size - 1, newBound.map (·.1.row)⟩ := by
      rw [hlast]
      constructor <;> rw [List.take_of_length_le hlen']
      · have := congrArg List.length hcut
        change state.size - 1 = _
        omega
      · cases rows'.getLast? with
        | none => exact .none
        | some y => exact .some Std.ReflCmp.compare_self
    refine ⟨_, ?_, Settled.one t.maxBound (.remove node) hhid hs' hdesc' ?_⟩
    · rw [replacement]
      cases newBound with
      | none => rfl
      | some m =>
        obtain ⟨m, flag⟩ := m
        cases flag with
        | false => rfl
        | true => exact absurd rfl (hnot m)
    · rw [htake', List.take_of_length_le hlen']
      conv => arg 3; rw [hcut]
      exact hbelow

/-! ## EDIT -/

section
variable {node oldNode : Node} {b : Row} {k : List Row} (hlimit : 0 < t.limit) (hhid : t.rowHiddenFromFetch = none)
  (hs : Sorted t.compareRows rows) (hs' : Sorted t.compareRows rows')
  (hdesc : Describes t.limit t.compareRows rows state)
  (hstate : t.states (getTakeStateKey t.partitionKey oldNode.row) = some state)
  (hans : Answers t.compareRows input (partitionConstraint t.partitionKey oldNode.row) rows')
  (hp : rows.Perm (oldNode.row :: k)) (hp' : rows'.Perm (node.row :: k)) (hb : state.bound = some b)

include hhid hs hs' hdesc hstate hans hp hp' hb

theorem pushEditAtBound_settled (hc : t.compareRows oldNode.row b = .eq) :
    ∃ pushed, t.pushEditAtBound input state b node oldNode = .ok pushed ∧
      Settled t (getTakeStateKey t.partitionKey oldNode.row) rows rows' pushed := by
  obtain ⟨x, hxb, hat, -, htake, hsz, hlen, hfull⟩ := hdesc.cut hs hb
  obtain ⟨hlo, hat₁, hhi⟩ := parts_eq hp hc
  rw [hat] at hat₁
  obtain ⟨hatk, rfl⟩ : at' t.compareRows b k = [] ∧ x = oldNode.row := by
    have h := List.singleton_perm.mp hat₁
    simp only [List.cons.injEq] at h
    exact ⟨h.2.symm ▸ rfl, h.1.symm ▸ rfl⟩
  have hst : state = ⟨state.size, some b⟩ := by rw [← hb]
  have hfull' {h : List Row} (hh : h.Perm (hi t.compareRows b k)) :
      (lo t.compareRows b k).length + 1 = t.limit ∨ h = [] := by
    rw [← hlo.length_eq]
    exact hfull.imp_right fun hnil => (hh.trans (hnil ▸ hhi).symm).eq_nil
  have hold : (rows.take t.limit).Perm (oldNode.row :: lo t.compareRows b k) := by
    rw [htake]
    exact (List.perm_append_singleton ..).trans (hlo.cons _)
  rw [hlo.length_eq] at hsz hlen
  unfold pushEditAtBound
  cases hc' : t.compareRows node.row b with
  | eq =>
    obtain ⟨hlo', hat', hhi'⟩ := parts_eq hp' hc'
    rw [hatk, List.perm_singleton] at hat'
    have hcut := cut_eq hs' hat'
    have hfull' := hfull' hhi'
    rw [← hlo'.length_eq] at hfull' hlen hsz
    refine ⟨_, rfl, .forward hstate hhid hs' ?_ ⟨_, hold, ?_⟩⟩
    · rw [hst, hcut]
      exact describes_of_cut hlen hfull' hc' hsz
    · rw [hcut, take_of_cut hlen hfull']
      exact (List.perm_append_singleton ..).trans (hlo'.cons _)
  | lt =>
    obtain ⟨hlo', hat', hhi'⟩ := parts_lt hp' hc'
    rw [hatk] at hat'
    have hcut := cut_eq_of_nil hs' hat'.eq_nil
    have hfull' := hfull' hhi'
    obtain ⟨p, y, hpy, hplen⟩ := exists_concat hlo'
    rw [← hplen] at hfull' hlen hsz
    rw [hpy, List.append_assoc, List.singleton_append] at hcut
    have hdesc' : Describes t.limit t.compareRows rows' ⟨state.size, some y⟩ := by
      rw [hcut]
      exact describes_of_cut hlen hfull' Std.ReflCmp.compare_self hsz
    have hnew : (rows'.take t.limit).Perm (node.row :: lo t.compareRows b k) := by
      rw [hcut, take_of_cut hlen hfull', ← hpy]
      exact hlo'
    have hset : Settled t (getTakeStateKey t.partitionKey oldNode.row) rows rows' _ :=
      Settled.one t.maxBound (.edit node oldNode) hhid hs' hdesc' ⟨_, hold, hnew⟩
    by_cases hone : t.limit = 1
    · obtain rfl : p = [] := List.eq_nil_of_length_eq_zero (by omega)
      obtain rfl : y = node.row := by
        have := hlo'.symm.subset (List.mem_cons_self ..)
        rw [hpy] at this
        simpa [eq_comm] using this
      exact ⟨_, by simp [hone, replaceBoundAndForwardChange], hset⟩
    · have hfetch := hans.afterReverse b
      rw [hpy, List.reverse_append, List.reverse_singleton, List.singleton_append] at hfetch
      obtain ⟨before, rest, hnodes, rfl, -⟩ := List.map_eq_cons_iff.mp hfetch
      exact ⟨_, by simp [hone, hnodes], hset⟩
  | gt =>
    obtain ⟨hlo', hat', hhi'⟩ := parts_gt hp' hc'
    rw [hatk] at hat'
    have hcut := cut_eq_of_nil hs' hat'.eq_nil
    have hfetch := hans.from hs' b
    rw [hat'.eq_nil, List.nil_append] at hfetch
    obtain ⟨g, h, hgh⟩ := List.exists_cons_of_ne_nil fun hnil : hi t.compareRows b rows' = [] => by
      rw [hnil] at hhi'
      exact absurd hhi'.symm.eq_nil (by simp)
    rw [hgh] at hfetch hcut hhi'
    obtain ⟨newBound, rest, hnodes, rfl, -⟩ := List.map_eq_cons_iff.mp hfetch
    have hfull' : (lo t.compareRows b rows').length + 1 = t.limit ∨ h = [] := by
      rw [hlo'.length_eq, ← hlo.length_eq]
      refine hfull.imp_right fun hnil => ?_
      rw [hnil] at hhi
      rw [hhi.symm.eq_nil] at hhi'
      simpa using hhi'.length_eq
    rw [← hlo'.length_eq] at hlen hsz
    have hdesc' : Describes t.limit t.compareRows rows' ⟨state.size, some newBound.row⟩ := by
      rw [hcut]
      exact describes_of_cut hlen hfull' Std.ReflCmp.compare_self hsz
    have hnew : (rows'.take t.limit).Perm (newBound.row :: lo t.compareRows b k) := by
      rw [hcut, take_of_cut hlen hfull']
      exact (List.perm_append_singleton ..).trans (hlo'.cons _)
    by_cases heq : t.compareRows newBound.row node.row = .eq
    · have hrow : newBound.row = node.row :=
        hs'.eq_of_cmp_eq (by rw [hcut]; simp) (hp'.symm.subset (by simp)) heq
      rw [hrow] at hdesc' hnew
      exact ⟨_, by simp [hnodes, heq, replaceBoundAndForwardChange],
        Settled.one t.maxBound (.edit node oldNode) hhid hs' hdesc' ⟨_, hold, hnew⟩⟩
    · exact ⟨_, by simp [hnodes, heq], Settled.hidden t.maxBound hhid hs' hdesc' hold hnew⟩

theorem pushEditAfterBound_settled (hc : t.compareRows oldNode.row b = .gt) :
    ∃ pushed, t.pushEditAfterBound input state b node oldNode = .ok pushed ∧
      Settled t (getTakeStateKey t.partitionKey oldNode.row) rows rows' pushed := by
  obtain ⟨x, hxb, hat, -, htake, hsz, hlen, hfull⟩ := hdesc.cut hs hb
  obtain ⟨hlo, hatk, hhi⟩ := parts_gt hp hc
  have hatk := List.perm_singleton.mp (hat ▸ hatk.symm)
  have hfull := hfull.resolve_right fun hnil => by
    rw [hnil] at hhi
    exact absurd hhi.symm.eq_nil (by simp)
  unfold pushEditAfterBound
  cases hc' : t.compareRows node.row b with
  | eq =>
    have hx : x ∈ k := List.mem_of_mem_filter (hatk ▸ List.mem_singleton_self x)
    exact absurd (Std.TransCmp.eq_trans hc' (Std.OrientedCmp.eq_symm hxb)) (ne_of_added hs' hp' hx)
  | gt =>
    obtain ⟨hlo', hat', -⟩ := parts_gt hp' hc'
    exact ⟨_, rfl, .beyond hs hs' hdesc hstate hb hfull (hlo'.trans hlo.symm) (by rw [hat, ← hatk]; exact hat')⟩
  | lt =>
    obtain ⟨hlo', hat', -⟩ := parts_lt hp' hc'
    have hat' := List.perm_singleton.mp (hatk ▸ hat')
    obtain ⟨p, y, hpy, hplen⟩ := exists_concat hlo'
    have hplen : p.length + 1 = t.limit := by rw [hplen, ← hlo.length_eq, hfull]
    have hfetch := hans.fromReverse hs' b
    rw [hat', hpy] at hfetch
    simp only [List.reverse_append, List.reverse_singleton, List.singleton_append] at hfetch
    obtain ⟨oldBound, rest, hnodes, rfl, hrest⟩ := List.map_eq_cons_iff.mp hfetch
    obtain ⟨newBound, rest, rfl, rfl, -⟩ := List.map_eq_cons_iff.mp hrest
    have hsz : state.size = t.limit := by omega
    exact ⟨_, by simp [hnodes], Settled.overflow hhid hs' htake hsz (hlo'.trans (hlo.symm.cons _)) hat' hpy hplen
      t.maxBound⟩

theorem pushEditBeforeBound_settled (hc : t.compareRows oldNode.row b = .lt) :
    ∃ pushed, t.pushEditBeforeBound input state b node oldNode = .ok pushed ∧
      Settled t (getTakeStateKey t.partitionKey oldNode.row) rows rows' pushed := by
  obtain ⟨x, hxb, hat, -, htake, hsz, hlen, hfull⟩ := hdesc.cut hs hb
  obtain ⟨hlo, hatk, hhi⟩ := parts_lt hp hc
  have hatk := List.perm_singleton.mp (hat ▸ hatk.symm)
  have hst : state = ⟨state.size, some b⟩ := by rw [← hb]
  have hold : (rows.take t.limit).Perm (oldNode.row :: (lo t.compareRows b k ++ [x])) := by
    rw [htake]
    exact hlo.append_right _
  have hlolen := hlo.length_eq
  rw [List.length_cons] at hlolen
  unfold pushEditBeforeBound
  cases hc' : t.compareRows node.row b with
  | eq =>
    have hx : x ∈ k := List.mem_of_mem_filter (hatk ▸ List.mem_singleton_self x)
    exact absurd (Std.TransCmp.eq_trans hc' (Std.OrientedCmp.eq_symm hxb)) (ne_of_added hs' hp' hx)
  | lt =>
    obtain ⟨hlo', hat', hhi'⟩ := parts_lt hp' hc'
    have hcut := cut_eq hs' (List.perm_singleton.mp (hatk ▸ hat'))
    have hlen' : (lo t.compareRows b rows').length = (lo t.compareRows b rows).length := by
      rw [hlo'.length_eq, hlolen, List.length_cons]
    rw [← hlen'] at hlen hfull hsz
    have hfull' := hfull.imp_right fun hnil => (hhi'.trans (hnil ▸ hhi).symm).eq_nil
    refine ⟨_, rfl, .forward hstate hhid hs' ?_ ⟨_, hold, ?_⟩⟩
    · rw [hst, hcut]
      exact describes_of_cut hlen hfull' hxb hsz
    · rw [hcut, take_of_cut hlen hfull']
      exact hlo'.append_right _
  | gt =>
    obtain ⟨hlo', hat', hhi'⟩ := parts_gt hp' hc'
    have hat' := List.perm_singleton.mp (hatk ▸ hat')
    have hcut := cut_eq hs' hat'
    have hfetch := hans.after b
    obtain ⟨g, h, hgh⟩ := List.exists_cons_of_ne_nil fun hnil : hi t.compareRows b rows' = [] => by
      rw [hnil] at hhi'
      exact absurd hhi'.symm.eq_nil (by simp)
    rw [hgh] at hfetch hcut hhi'
    obtain ⟨after, rest, hnodes, rfl, -⟩ := List.map_eq_cons_iff.mp hfetch
    have hcut : rows' = (lo t.compareRows b rows' ++ [x]) ++ after.row :: h := by simpa using hcut
    have hlen' : (lo t.compareRows b rows' ++ [x]).length = (lo t.compareRows b rows).length := by
      rw [List.length_append, hlo'.length_eq, hlolen, List.length_singleton]
    have hfull' : (lo t.compareRows b rows' ++ [x]).length + 1 = t.limit ∨ h = [] := by
      rw [hlen']
      refine hfull.imp_right fun hnil => ?_
      rw [hnil] at hhi
      rw [hhi.symm.eq_nil] at hhi'
      simpa using hhi'.length_eq
    rw [← hlen'] at hlen hsz
    have hdesc' : Describes t.limit t.compareRows rows' ⟨state.size, some after.row⟩ := by
      rw [hcut]
      exact describes_of_cut hlen hfull' Std.ReflCmp.compare_self hsz
    have htake' : rows'.take t.limit = (lo t.compareRows b rows' ++ [x]) ++ [after.row] := by
      conv_lhs => rw [hcut]
      exact take_of_cut hlen hfull'
    by_cases heq : t.compareRows after.row node.row = .eq
    · have hrow : after.row = node.row :=
        hs'.eq_of_cmp_eq (by rw [hcut]; simp) (hp'.symm.subset (by simp)) heq
      rw [hrow] at hdesc' htake'
      refine ⟨_, by simp [hnodes, heq, replaceBoundAndForwardChange],
        Settled.one t.maxBound (.edit node oldNode) hhid hs' hdesc' ⟨_, hold, ?_⟩⟩
      rw [htake']
      exact (List.perm_append_singleton ..).trans ((hlo'.append_right _).cons _)
    · have hbelow : below t.compareRows b rows' = lo t.compareRows b rows' ++ [x] := by
        rw [hs'.filter_isLE b, ← hat']
      refine ⟨_, by simp [hnodes, heq], Settled.twice t.maxBound oldNode after hstate hb hhid hs' hdesc' ?_ ?_⟩
      · rw [hbelow]
        exact hold.trans ((hlo'.symm.append_right _).cons _)
      · rw [htake', hbelow]
        exact List.perm_append_singleton ..

end

/-! ## Any change -/

omit [Std.TransCmp t.compareRows] in
theorem makePartitionKeyComparator_eq_iff {keys : List String} {a b : Row} :
    makePartitionKeyComparator keys a b = .eq ↔ getTakeStateKey (some keys) a = getTakeStateKey (some keys) b := by
  rw [makePartitionKeyComparator, makeComparator_eq_iff]
  simp [getTakeStateKey, compareValues_eq_iff]

theorem pushChild_settled {node : Node} {name : String} {change : Change} (hhid : t.rowHiddenFromFetch = none)
    (hs : Sorted t.compareRows rows) (hs' : Sorted t.compareRows rows')
    (hdesc : Describes t.limit t.compareRows rows state)
    (hstate : t.states (getTakeStateKey t.partitionKey node.row) = some state)
    (happ : (Change.child node name change).delta.Applies rows rows') :
    ∃ pushed, t.push input (.child node name change) = .ok pushed ∧
      Settled t (getTakeStateKey t.partitionKey node.row) rows rows' pushed := by
  obtain ⟨hmem, hp⟩ := happ
  obtain rfl : rows' = rows := hs'.eq_of_perm hs hp
  by_cases hle : state.bound.any fun bound => (t.compareRows node.row bound).isLE
  · refine ⟨([t.output (.child node name change)], t), by simp [push, Change.node, hstate, hle], ?_⟩
    refine .forward hstate hhid hs hdesc ⟨?_, .refl _⟩
    cases hb : state.bound with
    | none => simp [hb] at hle
    | some b =>
      rw [hdesc.take_eq_below hs hb, mem_below]
      exact ⟨hmem, by simpa [hb] using hle⟩
  · exact ⟨([], t), by simp [push, Change.node, hstate, hle], .nothing hstate hdesc (.refl _)⟩

/-- **Every push of a hydrated partition settles**: no assertion fails, the
changes emitted take the rows shown before to those shown after, and the take
state left describes the rows after. -/
theorem push_settled {change : Change} (hlimit : 0 < t.limit) (hhid : t.rowHiddenFromFetch = none)
    (hs : Sorted t.compareRows rows) (hs' : Sorted t.compareRows rows')
    (hdesc : Describes t.limit t.compareRows rows state)
    (hkey : key = getTakeStateKey t.partitionKey change.node.row) (hstate : t.states key = some state)
    (hans : ∀ r, getTakeStateKey t.partitionKey r = key →
      Answers t.compareRows input (partitionConstraint t.partitionKey r) rows')
    (happ : change.delta.Applies rows rows')
    (hedit : ∀ n o, change = .edit n o → getTakeStateKey t.partitionKey o.row = key) :
    ∃ pushed, t.push input change = .ok pushed ∧ Settled t key rows rows' pushed := by
  subst hkey
  cases change with
  | add node =>
    obtain ⟨pushed, hok, hset⟩ := pushAdd_settled hlimit hhid hs hs' hdesc hstate (hans _ rfl) happ
    change t.states (getTakeStateKey t.partitionKey node.row) = some state at hstate
    refine ⟨pushed, ?_, hset⟩
    simpa only [push, Change.node, hstate] using hok
  | remove node =>
    obtain ⟨pushed, hok, hset⟩ := pushRemove_settled hlimit hhid hs hs' hdesc hstate (hans _ rfl) happ
    change t.states (getTakeStateKey t.partitionKey node.row) = some state at hstate
    refine ⟨pushed, ?_, hset⟩
    simpa only [push, Change.node, hstate] using hok
  | child node name change => exact pushChild_settled hhid hs hs' hdesc hstate happ
  | edit node oldNode =>
    have hkey := hedit _ _ rfl
    simp only [Change.node] at hkey hstate ⊢
    rw [← hkey] at hstate
    obtain ⟨k, hp, hp'⟩ := happ
    have hguard : ¬ (t.partitionKey.any fun keys =>
        makePartitionKeyComparator keys oldNode.row node.row ≠ .eq) = true := by
      cases hpk : t.partitionKey with
      | none => simp
      | some keys =>
        rw [hpk] at hkey
        simpa using makePartitionKeyComparator_eq_iff.mpr hkey
    cases hb : state.bound with
    | none =>
      obtain ⟨rfl, -⟩ := hdesc.nil_of_bound hb hlimit
      exact absurd hp.symm.eq_nil (by simp)
    | some b =>
    have hst : state = ⟨state.size, some b⟩ := by rw [← hb]
    rw [push, pushEditChange, if_neg hguard, hstate, hst, ← hkey]
    dsimp only
    rw [hst] at hdesc hstate
    have hans := hans _ hkey
    cases hc : t.compareRows oldNode.row b with
    | eq => exact pushEditAtBound_settled hhid hs hs' hdesc hstate hans hp hp' rfl hc
    | gt => exact pushEditAfterBound_settled hhid hs hs' hdesc hstate hans hp hp' rfl hc
    | lt => exact pushEditBeforeBound_settled hhid hs hs' hdesc hstate hans hp hp' rfl hc

end

end Take

end ZeroSync
