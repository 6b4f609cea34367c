/-
What one push does to a hydrated partition of a Take.

A take state describes the partition when its size is that of the first
`limit` rows and its bound compares equal to the last of them (`Describes`).
A push whose change takes the partition's rows from `rows` to `rows'` is
`Settled`: the changes it emits take the first `limit` rows of `rows` to
those of `rows'`, a fetch made while one is handed over sees exactly what the
changes so far leave, and the state it ends in describes `rows'`.

Every branch is read through the same cut: the rows before the bound, the row
at it, the rows after it (`Describes.cut`), before and after the change.
-/
import ZeroSync.Take
import ZeroSync.SortedList

namespace ZeroSync

open SortedList

namespace Take

/-- A take state of a partition with these rows. -/
structure Describes (limit : ℕ) (cmp : Comparator) (rows : List Row) (state : TakeState) : Prop where
  size : state.size = (rows.take limit).length
  bound : Option.Rel (fun last bound => cmp last bound = .eq) (rows.take limit).getLast? state.bound

/-- The rows a fetch of a partition sees in a take state. -/
def visible (cmp : Comparator) (state : TakeState) (hidden : Option Row) (rows : List Row) : List Row :=
  match state.bound with
  | none => []
  | some bound => (below cmp bound rows).filter fun r => hidden.all fun h => cmp h r ≠ .eq

/-- In the state `s` the operator `t` is in during a push, a fetch of the
partition sees `shown`, no more than `limit` rows. -/
structure Shows (t : Take) (key : TakeStateKey) (rows : List Row) (s : Take) (shown : List Row) : Prop where
  fixed : s = { t with states := s.states, maxBound := s.maxBound, rowHiddenFromFetch := s.rowHiddenFromFetch }
  state : ∃ state, s.states key = some state ∧
    shown.Perm (visible t.compareRows state s.rowHiddenFromFetch rows)
  length : shown.length ≤ t.limit

/-- The emitted changes as deltas of the rows. -/
def deltas (emitted : List (Change × Take)) : List (Delta Row × Take) :=
  emitted.map fun e => (e.1.delta, e.2)

/-- A push took a partition from `rows` to `rows'`. -/
structure Settled (t : Take) (key : TakeStateKey) (rows rows' : List Row) (pushed : TakePushed) : Prop where
  emits : Applied (Shows t key rows') (deltas pushed.1) (rows.take t.limit) (rows'.take t.limit)
  state : ∃ state, pushed.2.states key = some state ∧ Describes t.limit t.compareRows rows' state
  others : ∀ k, k ≠ key → pushed.2.states k = t.states k
  fixed : pushed.2 = { t with states := pushed.2.states, maxBound := pushed.2.maxBound }

/-- The input answers the fetches of a partition with these rows. -/
def Answers (cmp : Comparator) (input : Input) (constraint : Option Constraint) (rows : List Row) : Prop :=
  ∀ start reverse, (input.fetch { constraint, start, reverse }).map (·.row) =
    (if reverse then rows.reverse else rows).filter fun r =>
      start.all fun s => s.admits (directed cmp reverse) r

/-! ## Take states -/

section
variable (t : Take) (key : TakeStateKey) (size : ℤ) (bound maxBound : Option Row)

@[simp] theorem setTakeState_self : (t.setTakeState key size bound maxBound).states key = some ⟨size, bound⟩ := by
  simp [setTakeState]

theorem setTakeState_of_ne {k : TakeStateKey} (h : k ≠ key) :
    (t.setTakeState key size bound maxBound).states k = t.states k := by
  simp [setTakeState, h]

@[simp] theorem setTakeState_limit : (t.setTakeState key size bound maxBound).limit = t.limit := rfl
@[simp] theorem setTakeState_compareRows :
    (t.setTakeState key size bound maxBound).compareRows = t.compareRows := rfl
@[simp] theorem setTakeState_rowHiddenFromFetch :
    (t.setTakeState key size bound maxBound).rowHiddenFromFetch = t.rowHiddenFromFetch := rfl

end

/-! ## Cutting the rows at the bound -/

section
variable {cmp : Comparator} [Std.TransCmp cmp] {limit : ℕ}

/-- The rows before the bound. -/
abbrev lo (cmp : Comparator) (b : Row) (rows : List Row) : List Row := rows.filter fun y => cmp y b = .lt

/-- The rows after the bound. -/
abbrev hi (cmp : Comparator) (b : Row) (rows : List Row) : List Row := rows.filter fun y => cmp y b = .gt

/-- The rows that compare equal to the bound. -/
abbrev at' (cmp : Comparator) (b : Row) (rows : List Row) : List Row := rows.filter fun y => cmp y b = .eq

/-- The cut of described rows: the row at the bound is the last one taken,
and there are rows after it only when the take is full. -/
theorem Describes.cut {rows : List Row} {state : TakeState} {b : Row} (h : Describes limit cmp rows state)
    (hs : Sorted cmp rows) (hb : state.bound = some b) :
    ∃ x, cmp x b = .eq ∧ at' cmp b rows = [x] ∧ rows = lo cmp b rows ++ x :: hi cmp b rows ∧
      rows.take limit = lo cmp b rows ++ [x] ∧ state.size = (lo cmp b rows).length + 1 ∧
      (lo cmp b rows).length + 1 ≤ limit ∧ ((lo cmp b rows).length + 1 = limit ∨ hi cmp b rows = []) := by
  have hrel := h.bound
  rw [hb] at hrel
  cases hlast : (rows.take limit).getLast? with
  | none => rw [hlast] at hrel; cases hrel
  | some x =>
  rw [hlast] at hrel
  have hxb : cmp x b = .eq := by cases hrel; assumption
  obtain ⟨p, hp⟩ := List.getLast?_eq_some_iff.mp hlast
  have hrows : rows = p ++ x :: rows.drop limit := by
    conv_lhs => rw [← List.take_append_drop limit rows, hp]
    simp
  have hs' : Sorted cmp (p ++ x :: rows.drop limit) := hrows ▸ hs
  have hx : x ∈ rows := by rw [hrows]; simp
  have hbelow : below cmp b rows = p ++ [x] := by
    conv_lhs => rw [hrows]
    exact hs'.below_append_cons hxb
  have hlo : lo cmp b rows = p := by
    have := hs.below_eq_concat hx hxb
    rw [hbelow] at this
    exact (List.append_cancel_right this).symm
  have hat : at' cmp b rows = [x] := by
    have hsorted : Sorted cmp (at' cmp b rows) := hs.filter _
    refine hsorted.eq_of_mem_iff (List.pairwise_singleton _ _) fun y => ?_
    simp only [List.mem_filter, decide_eq_true_eq, List.mem_singleton]
    constructor
    · rintro ⟨hy, hyb⟩
      exact hs.eq_of_cmp_eq hy hx (Std.TransCmp.eq_trans hyb (Std.OrientedCmp.eq_symm hxb))
    · rintro rfl; exact ⟨hx, hxb⟩
  have hcut := hs.cut b
  have hcut' : lo cmp b rows ++ (at' cmp b rows ++ hi cmp b rows) = rows := hcut
  rw [hat, List.singleton_append] at hcut'
  have hsize := h.size
  have hlen := congrArg List.length hp
  simp only [List.length_take, List.length_append, List.length_singleton] at hlen
  refine ⟨x, hxb, hat, hcut'.symm, by rw [hp, hlo], ?_, ?_, ?_⟩
  · rw [hsize, hp, hlo]; simp
  · rw [hlo]; omega
  · rw [hlo]
    rcases Nat.lt_or_ge limit rows.length with hlt | hge
    · left; omega
    · right
      have hdrop : rows.drop limit = [] := List.drop_of_length_le hge
      have : lo cmp b rows ++ x :: hi cmp b rows = p ++ x :: rows.drop limit := by rw [hcut', ← hrows]
      rw [hlo, hdrop] at this
      simpa using this

omit [Std.TransCmp cmp] in
theorem parts_lt {l k : List Row} {r b : Row} (hp : l.Perm (r :: k)) (h : cmp r b = .lt) :
    (lo cmp b l).Perm (r :: lo cmp b k) ∧ (at' cmp b l).Perm (at' cmp b k) ∧ (hi cmp b l).Perm (hi cmp b k) := by
  exact ⟨by simpa [h] using hp.filter fun y => cmp y b = .lt, by simpa [h] using hp.filter fun y => cmp y b = .eq,
    by simpa [h] using hp.filter fun y => cmp y b = .gt⟩

omit [Std.TransCmp cmp] in
theorem parts_eq {l k : List Row} {r b : Row} (hp : l.Perm (r :: k)) (h : cmp r b = .eq) :
    (lo cmp b l).Perm (lo cmp b k) ∧ (at' cmp b l).Perm (r :: at' cmp b k) ∧ (hi cmp b l).Perm (hi cmp b k) := by
  exact ⟨by simpa [h] using hp.filter fun y => cmp y b = .lt, by simpa [h] using hp.filter fun y => cmp y b = .eq,
    by simpa [h] using hp.filter fun y => cmp y b = .gt⟩

omit [Std.TransCmp cmp] in
theorem parts_gt {l k : List Row} {r b : Row} (hp : l.Perm (r :: k)) (h : cmp r b = .gt) :
    (lo cmp b l).Perm (lo cmp b k) ∧ (at' cmp b l).Perm (at' cmp b k) ∧ (hi cmp b l).Perm (r :: hi cmp b k) := by
  exact ⟨by simpa [h] using hp.filter fun y => cmp y b = .lt, by simpa [h] using hp.filter fun y => cmp y b = .eq,
    by simpa [h] using hp.filter fun y => cmp y b = .gt⟩

theorem cut_eq {rows : List Row} (hs : Sorted cmp rows) {b x : Row} (hat : at' cmp b rows = [x]) :
    rows = lo cmp b rows ++ x :: hi cmp b rows := by
  have hcut : lo cmp b rows ++ (at' cmp b rows ++ hi cmp b rows) = rows := hs.cut b
  rw [hat] at hcut
  exact hcut.symm

theorem cut_eq_of_nil {rows : List Row} (hs : Sorted cmp rows) {b : Row} (hat : at' cmp b rows = []) :
    rows = lo cmp b rows ++ hi cmp b rows := by
  have hcut : lo cmp b rows ++ (at' cmp b rows ++ hi cmp b rows) = rows := hs.cut b
  rw [hat] at hcut
  exact hcut.symm

omit [Std.TransCmp cmp] in
theorem Describes.nil_of_bound {rows : List Row} {state : TakeState} (h : Describes limit cmp rows state)
    (hb : state.bound = none) (hlimit : 0 < limit) : rows = [] ∧ state.size = 0 := by
  have hrel := h.bound
  rw [hb] at hrel
  have hnil : rows.take limit = [] := by
    cases hlast : (rows.take limit).getLast? with
    | none => exact List.getLast?_eq_none_iff.mp hlast
    | some x => rw [hlast] at hrel; cases hrel
  refine ⟨?_, by rw [h.size, hnil]; rfl⟩
  rcases List.take_eq_nil_iff.mp hnil with h | h
  · omega
  · exact h

theorem take_of_cut {p r : List Row} {y : Row} (hlen : p.length + 1 ≤ limit)
    (hfull : p.length + 1 = limit ∨ r = []) : (p ++ y :: r).take limit = p ++ [y] := by
  have hassoc : p ++ y :: r = (p ++ [y]) ++ r := by simp
  rcases hfull with hfull | rfl
  · rw [hassoc, List.take_left' (by simpa using hfull)]
  · rw [List.take_of_length_le (by simpa using hlen)]

omit [Std.TransCmp cmp] in
theorem describes_of_cut {p r : List Row} {y b : Row} (hlen : p.length + 1 ≤ limit)
    (hfull : p.length + 1 = limit ∨ r = []) (hyb : cmp y b = .eq) {size : ℤ} (hsize : size = p.length + 1) :
    Describes limit cmp (p ++ y :: r) ⟨size, some b⟩ := by
  have htake := take_of_cut (y := y) hlen hfull
  refine ⟨by rw [htake, hsize]; simp, ?_⟩
  rw [htake]
  simpa using hyb

theorem filter_hidden {k l : List Row} {n : Row} (hs : Sorted cmp k) (hp : k.Perm (n :: l)) :
    l.Perm (k.filter fun r => (some n).all fun h => cmp h r ≠ .eq) := by
  have hn : n ∈ k := hp.symm.subset (by simp)
  have hnot : n ∉ l := (List.nodup_cons.mp (hp.nodup_iff.mp hs.nodup)).1
  have hself : cmp n n = .eq := Std.ReflCmp.compare_self
  have hl : l.filter (fun r => (some n).all fun h => cmp h r ≠ .eq) = l := by
    rw [List.filter_eq_self]
    intro r hr
    have hrk : r ∈ k := hp.symm.subset (by simp [hr])
    have hne : cmp n r ≠ .eq := fun he => hnot (hs.eq_of_cmp_eq hn hrk he ▸ hr)
    simpa using hne
  refine List.Perm.trans ?_ (hp.filter _).symm
  rw [List.filter_cons, hl]
  simp [hself]

theorem Describes.visible_eq {rows : List Row} {state : TakeState} (h : Describes limit cmp rows state)
    (hs : Sorted cmp rows) : visible cmp state none rows = rows.take limit := by
  cases hb : state.bound with
  | none =>
    have hrel := h.bound
    rw [hb] at hrel
    cases hlast : (rows.take limit).getLast? with
    | none => rw [List.getLast?_eq_none_iff.mp hlast, visible, hb]
    | some x => rw [hlast] at hrel; cases hrel
  | some b =>
    obtain ⟨x, hxb, -, hrows, htake, -⟩ := h.cut hs hb
    have hx : x ∈ rows := by rw [hrows]; simp
    rw [htake, ← hs.below_eq_concat hx hxb, visible, hb]
    simp

omit [Std.TransCmp cmp] in
theorem visible_some {rows : List Row} {state : TakeState} {h : Row} : visible cmp state (some h) rows =
    (visible cmp state none rows).filter fun r => (some h).all fun h => cmp h r ≠ .eq := by
  unfold visible
  cases state.bound <;> simp

end

/-! ## Settled pushes -/

section
variable {t : Take} [Std.TransCmp t.compareRows] {key : TakeStateKey} {rows rows' : List Row}

omit [Std.TransCmp t.compareRows] in
theorem Settled.nothing {state : TakeState} (hstate : t.states key = some state)
    (hdesc : Describes t.limit t.compareRows rows' state) (htake : (rows'.take t.limit).Perm (rows.take t.limit)) :
    Settled t key rows rows' ([], t) where
  emits := .nil htake
  state := ⟨state, hstate, hdesc⟩
  others _ _ := rfl
  fixed := rfl

theorem Shows.taken {s : Take} {state : TakeState} (hstate : s.states key = some state)
    (hs' : Sorted t.compareRows rows') (hdesc : Describes t.limit t.compareRows rows' state)
    (hhid : s.rowHiddenFromFetch = none)
    (hfixed : s = { t with states := s.states, maxBound := s.maxBound, rowHiddenFromFetch := s.rowHiddenFromFetch }) :
    Shows t key rows' s (rows'.take t.limit) where
  fixed := hfixed
  state := ⟨state, hstate, by rw [hhid, hdesc.visible_eq hs']⟩
  length := List.length_take_le ..

theorem Settled.forward {state : TakeState} {change : Change} (hstate : t.states key = some state)
    (hhid : t.rowHiddenFromFetch = none) (hs' : Sorted t.compareRows rows')
    (hdesc : Describes t.limit t.compareRows rows' state)
    (happ : change.delta.Applies (rows.take t.limit) (rows'.take t.limit)) :
    Settled t key rows rows' ([t.output change], t) where
  emits := .cons happ (.taken hstate hs' hdesc hhid rfl) (.nil (.refl _))
  state := ⟨state, hstate, hdesc⟩
  others _ _ := rfl
  fixed := rfl

variable {size : ℤ} {bound : Option Row} (maxBound : Option Row)

theorem Settled.one (change : Change) (hhid : t.rowHiddenFromFetch = none) (hs' : Sorted t.compareRows rows')
    (hdesc : Describes t.limit t.compareRows rows' ⟨size, bound⟩)
    (happ : change.delta.Applies (rows.take t.limit) (rows'.take t.limit)) :
    Settled t key rows rows' ([(t.setTakeState key size bound maxBound).output change],
      t.setTakeState key size bound maxBound) where
  emits := .cons happ (.taken (setTakeState_self ..) hs' hdesc hhid rfl) (.nil (.refl _))
  state := ⟨_, setTakeState_self .., hdesc⟩
  others _ hk := setTakeState_of_ne _ _ _ _ _ hk
  fixed := rfl

theorem Settled.hidden {removed added : Node} {k : List Row} (hhid : t.rowHiddenFromFetch = none)
    (hs' : Sorted t.compareRows rows') (hdesc : Describes t.limit t.compareRows rows' ⟨size, bound⟩)
    (hremoved : (rows.take t.limit).Perm (removed.row :: k)) (hadded : (rows'.take t.limit).Perm (added.row :: k)) :
    Settled t key rows rows'
      ([(t.setTakeState key size bound maxBound).pushWithRowHiddenFromFetch added.row (.remove removed),
        (t.setTakeState key size bound maxBound).output (.add added)],
      t.setTakeState key size bound maxBound) where
  emits := by
    have hsorted : Sorted t.compareRows (rows'.take t.limit) := hs'.sublist (List.take_sublist ..)
    have hnew : added.row ∉ k := (List.nodup_cons.mp (hadded.nodup_iff.mp hsorted.nodup)).1
    have hk : k.length ≤ t.limit := by
      have := hremoved.length_eq
      have := List.length_take_le t.limit rows
      simp only [List.length_cons] at *
      omega
    refine .cons hremoved ⟨rfl, ⟨_, setTakeState_self t key size bound maxBound, ?_⟩, hk⟩ (.cons ⟨hnew, hadded⟩
      (.taken (setTakeState_self ..) hs' hdesc hhid rfl) (.nil (.refl _)))
    change k.Perm (visible t.compareRows ⟨size, bound⟩ (some added.row) rows')
    rw [visible_some, hdesc.visible_eq hs']
    exact filter_hidden hsorted hadded
  state := ⟨_, setTakeState_self .., hdesc⟩
  others _ hk := setTakeState_of_ne _ _ _ _ _ hk
  fixed := rfl

theorem Settled.twice (removed added : Node) {state : TakeState} {b : Row} (hstate : t.states key = some state)
    (hb : state.bound = some b) (hhid : t.rowHiddenFromFetch = none)
    (hs' : Sorted t.compareRows rows') (hdesc : Describes t.limit t.compareRows rows' ⟨size, bound⟩)
    (hremoved : (rows.take t.limit).Perm (removed.row :: below t.compareRows b rows'))
    (hadded : (rows'.take t.limit).Perm (added.row :: below t.compareRows b rows')) :
    Settled t key rows rows' ([t.output (.remove removed),
      (t.setTakeState key size bound maxBound).output (.add added)], t.setTakeState key size bound maxBound) where
  emits := by
    have hsorted : Sorted t.compareRows (rows'.take t.limit) := hs'.sublist (List.take_sublist ..)
    have hnew := (List.nodup_cons.mp (hadded.nodup_iff.mp hsorted.nodup)).1
    have hk : (below t.compareRows b rows').length ≤ t.limit := by
      have := hremoved.length_eq
      have := List.length_take_le t.limit rows
      simp only [List.length_cons] at *
      omega
    refine .cons hremoved ⟨rfl, ⟨state, hstate, ?_⟩, hk⟩ (.cons ⟨hnew, hadded⟩
      (.taken (setTakeState_self ..) hs' hdesc hhid rfl) (.nil (.refl _)))
    simp [visible, output, hb, hhid]
  state := ⟨_, setTakeState_self .., hdesc⟩
  others _ hk := setTakeState_of_ne _ _ _ _ _ hk
  fixed := rfl

end

end Take

end ZeroSync
