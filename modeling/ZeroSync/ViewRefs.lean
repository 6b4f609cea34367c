/-
The reference counts of a plural relationship: the entries are the rows of a
multiset, in order, each with its multiplicity (`viewReached_counted`).

Every change adds a reference or drops one (`AddRef`, `DropRef`), an edit
drops one and adds another. The one edit that does not is `EditMerges`: the
last reference to a row moves to the row directly after it, and the entry is
edited in place beside the entry it should have merged with.
-/
import Mathlib.Tactic.Linarith
import ZeroSync.View

namespace ZeroSync

open BinarySearch SortedList

/-- How many of the rows compare equal to a row. -/
def multiplicity (compareRows : Comparator) (row : Row) (rows : List Row) : ℕ :=
  rows.countP fun r => compareRows r row = .eq

/-- How many references the entries that compare equal to a row have. -/
def references (compareRows : Comparator) (row : Row) (view : List Entry) : ℕ :=
  ((view.filter fun e => compareRows e.row row = .eq).map Entry.refCount).sum

/-- The order of entries by their rows. -/
abbrev compareEntries (compareRows : Comparator) (a b : Entry) : Ordering := compareRows a.row b.row

/-- The entries are the rows of the multiset, each with its multiplicity. -/
structure Counted (compareRows : Comparator) (rows : List Row) (view : List Entry) : Prop where
  sorted : Sorted (compareEntries compareRows) view
  refCount_pos : ∀ e ∈ view, 0 < e.refCount
  references_eq : ∀ row, references compareRows row view = multiplicity compareRows row rows

/-- An entry gets a reference more, or a row its first. -/
inductive AddRef (compareRows : Comparator) (row : Row) : List Entry → List Entry → Prop
  | found (a : List Entry) (e e' : Entry) (b : List Entry) (he : compareRows e.row row = .eq)
      (he' : compareRows e'.row row = .eq) (hcount : e'.refCount = e.refCount + 1) :
      AddRef compareRows row (a ++ e :: b) (a ++ e' :: b)
  | missing (a : List Entry) (e : Entry) (b : List Entry) (ha : ∀ y ∈ a, compareRows y.row row = .lt)
      (hb : ∀ y ∈ b, compareRows y.row row = .gt) (hrow : e.row = row) (hcount : e.refCount = 1) :
      AddRef compareRows row (a ++ b) (a ++ e :: b)

/-- An entry loses a reference, with its last one its place. -/
inductive DropRef (compareRows : Comparator) (row : Row) : List Entry → List Entry → Prop
  | last (a : List Entry) (e : Entry) (b : List Entry) (he : compareRows e.row row = .eq) (hcount : e.refCount = 1) :
      DropRef compareRows row (a ++ e :: b) (a ++ b)
  | more (a : List Entry) (e : Entry) (b : List Entry) (he : compareRows e.row row = .eq) (hcount : 1 < e.refCount) :
      DropRef compareRows row (a ++ e :: b) (a ++ e.setRefCount (e.refCount - 1) :: b)

/-- The last reference to `oldRow` moves to the row directly after it. -/
def EditMerges (compareRows : Comparator) (rows : List Row) (row oldRow : Row) : Prop :=
  multiplicity compareRows oldRow rows = 1 ∧ 0 < multiplicity compareRows row rows ∧ compareRows oldRow row = .lt ∧
    ∀ r ∈ rows, ¬(compareRows oldRow r = .lt ∧ compareRows r row = .lt)

/-- A reference moves from `oldRow` to `row`. -/
def MoveRef (compareRows : Comparator) (row oldRow : Row) (view view' : List Entry) : Prop :=
  ∃ mid, DropRef compareRows oldRow view mid ∧ AddRef compareRows row mid view'

section
variable {compareRows : Comparator} {row : Row} {rows : List Row} {view view' : List Entry}

/-! ## Multiplicities and references -/

theorem multiplicity_cons (r : Row) : multiplicity compareRows row (r :: rows) =
    multiplicity compareRows row rows + if compareRows r row = .eq then 1 else 0 := by
  simp [multiplicity, List.countP_cons]

theorem multiplicity_perm {rows' : List Row} (h : rows.Perm rows') :
    multiplicity compareRows row rows = multiplicity compareRows row rows' := h.countP_eq _

theorem multiplicity_pos : 0 < multiplicity compareRows row rows ↔ ∃ r ∈ rows, compareRows r row = .eq := by
  simp [multiplicity, List.countP_pos_iff]

theorem references_append : references compareRows row (view ++ view') =
    references compareRows row view + references compareRows row view' := by
  simp [references, List.filter_append]

theorem references_cons (e : Entry) : references compareRows row (e :: view) =
    (if compareRows e.row row = .eq then e.refCount else 0) + references compareRows row view := by
  unfold references
  rw [List.filter_cons]
  by_cases h : compareRows e.row row = .eq <;> simp [h]

theorem references_of_ne (h : ∀ e ∈ view, compareRows e.row row ≠ .eq) : references compareRows row view = 0 := by
  unfold references
  rw [List.filter_eq_nil_iff.mpr (by simpa using h)]
  rfl

theorem references_pos (h : 0 < references compareRows row view) : ∃ e ∈ view, compareRows e.row row = .eq := by
  by_contra hne
  push Not at hne
  rw [references_of_ne hne] at h
  exact absurd h (by decide)

theorem addRef_modify {i : ℕ} {f : Entry → Entry}
    (h : Located (fun e t => compareRows e.row t) row view (.found i))
    (hf : ∀ e, compareRows e.row row = .eq → compareRows (f e).row row = .eq ∧ (f e).refCount = e.refCount + 1) :
    AddRef compareRows row view (view.modify i f) := by
  cases h with
  | @found a e b ha he hb =>
    rw [modify_length_append]
    exact .found a e _ b he (hf e he).1 (hf e he).2

theorem addRef_insertIdx {i : ℕ} {e : Entry} (h : Located (fun e t => compareRows e.row t) row view (.missing i))
    (hrow : e.row = row) (hcount : e.refCount = 1) : AddRef compareRows row view (view.insertIdx i e) := by
  cases h with
  | @missing a b ha hb =>
    rw [insertIdx_length_append]
    exact .missing a e b ha hb hrow hcount

theorem addRef_located {mid : List Entry} {p : Position} {f : Entry → Entry} {new : Entry}
    (h : Located (fun e t => compareRows e.row t) row mid p)
    (hf : ∀ e, compareRows e.row row = .eq → compareRows (f e).row row = .eq ∧ (f e).refCount = e.refCount + 1) (hrow : new.row = row)
    (hcount : new.refCount = 1) :
    AddRef compareRows row mid (if p.isFound then mid.modify p.index f else mid.insertIdx p.index new) := by
  cases p with
  | found i => exact addRef_modify h hf
  | missing i => exact addRef_insertIdx h hrow hcount

variable {oldRow : Row} {a b : List Entry} {e : Entry}

theorem moveRef_only (he : compareRows e.row oldRow = .eq) (hcount : e.refCount = 1)
    (ha : ∀ y ∈ a, compareRows y.row row = .lt) (hb : ∀ y ∈ b, compareRows y.row row = .gt) :
    MoveRef compareRows row oldRow (a ++ e :: b) (a ++ e.applyEdit row :: b) :=
  ⟨a ++ b, .last a e b he hcount, .missing a _ b ha hb rfl hcount⟩

variable [Std.TransCmp compareRows]

theorem references_mem (h : Sorted (compareEntries compareRows) view) {e : Entry} (he : e ∈ view) :
    references compareRows e.row view = e.refCount := by
  obtain ⟨a, b, rfl⟩ := List.mem_iff_append.mp he
  obtain ⟨-, hb, hab⟩ := sorted_append.mp h
  have ha : references compareRows e.row a = 0 := references_of_ne fun y hy => by
    have hlt : compareRows y.row e.row = .lt := hab y hy e (by simp)
    rw [hlt]
    decide
  have hb : references compareRows e.row b = 0 := references_of_ne fun y hy => by
    have hlt : compareRows e.row y.row = .lt := (sorted_cons.mp hb).1 y hy
    rw [Std.OrientedCmp.gt_of_lt hlt]
    decide
  have hself : compareRows e.row e.row = .eq := Std.ReflCmp.compare_self
  rw [references_append, references_cons, ha, hb, if_pos hself]
  omega

theorem sorted_replaceEntry {a b : List Entry} {e e' : Entry} (h : Sorted (compareEntries compareRows) (a ++ e :: b))
    (he : compareRows e'.row e.row = .eq) : Sorted (compareEntries compareRows) (a ++ e' :: b) := by
  obtain ⟨ha, hb, hab⟩ := sorted_append.mp h
  obtain ⟨heb, hb⟩ := sorted_cons.mp hb
  have heb' : ∀ y ∈ b, compareRows e'.row y.row = .lt := fun y hy => by
    have hlt : compareRows e.row y.row = .lt := heb y hy
    exact Std.TransCmp.lt_of_eq_of_lt he hlt
  refine sorted_append.mpr ⟨ha, sorted_cons.mpr ⟨heb', hb⟩, fun x hx y hy => ?_⟩
  rcases List.mem_cons.mp hy with rfl | hy
  · have hlt : compareRows x.row e.row = .lt := hab x hx e (by simp)
    have hlt' : compareRows x.row y.row = .lt := Std.TransCmp.lt_of_lt_of_eq hlt (Std.OrientedCmp.eq_symm he)
    exact hlt'
  · exact hab x hx y (by simp [hy])

theorem sorted_insertEntry {a b : List Entry} {e : Entry} (h : Sorted (compareEntries compareRows) (a ++ b))
    (ha : ∀ y ∈ a, compareRows y.row e.row = .lt) (hb : ∀ y ∈ b, compareRows y.row e.row = .gt) :
    Sorted (compareEntries compareRows) (a ++ e :: b) := by
  obtain ⟨hsa, hsb, hab⟩ := sorted_append.mp h
  have heb : ∀ y ∈ b, compareRows e.row y.row = .lt := fun y hy => Std.OrientedCmp.lt_of_gt (hb y hy)
  refine sorted_append.mpr ⟨hsa, sorted_cons.mpr ⟨heb, hsb⟩, fun x hx y hy => ?_⟩
  rcases List.mem_cons.mp hy with rfl | hy
  · exact ha x hx
  · exact hab x hx y hy

/-! ## What a reference more or less does -/

theorem Counted.addRef (h : Counted compareRows rows view) (hadd : AddRef compareRows row view view') :
    Counted compareRows (row :: rows) view' := by
  obtain ⟨hsorted, hpos, hrefs⟩ := h
  cases hadd with
  | found a e e' b he he' hcount =>
    have hee : compareRows e'.row e.row = .eq := Std.TransCmp.eq_trans he' (Std.OrientedCmp.eq_symm he)
    refine ⟨sorted_replaceEntry hsorted hee, fun x hx => ?_, fun r => ?_⟩
    · simp only [List.mem_append, List.mem_cons] at hx
      rcases hx with hx | rfl | hx
      · exact hpos x (by simp [hx])
      · omega
      · exact hpos x (by simp [hx])
    · have hr := hrefs r
      have hcr : compareRows e.row r = compareRows row r := Std.TransCmp.congr_left he
      have hcr' : compareRows e'.row r = compareRows row r := Std.TransCmp.congr_left he'
      rw [references_append, references_cons, hcr] at hr
      rw [references_append, references_cons, multiplicity_cons, hcr', hcount]
      split
      · next heq =>
        rw [if_pos heq] at hr
        omega
      · next hne =>
        rw [if_neg hne] at hr
        omega
  | missing a e b ha hb hrow hcount =>
    subst hrow
    refine ⟨sorted_insertEntry hsorted ha hb, fun x hx => ?_, fun r => ?_⟩
    · simp only [List.mem_append, List.mem_cons] at hx
      rcases hx with hx | rfl | hx
      · exact hpos x (by simp [hx])
      · omega
      · exact hpos x (by simp [hx])
    · have hr := hrefs r
      rw [references_append] at hr
      rw [references_append, references_cons, multiplicity_cons, hcount]
      omega

theorem Counted.dropRef {rows' : List Row} (h : Counted compareRows rows view) (hperm : rows.Perm (row :: rows'))
    (hdrop : DropRef compareRows row view view') : Counted compareRows rows' view' := by
  obtain ⟨hsorted, hpos, hrefs⟩ := h
  cases hdrop with
  | last a e b he hcount =>
    refine ⟨hsorted.sublist (by simp), fun x hx => hpos x ?_, fun r => ?_⟩
    · simp only [List.mem_append, List.mem_cons] at hx ⊢
      tauto
    · have hr := hrefs r
      rw [multiplicity_perm hperm, references_append, references_cons, multiplicity_cons, hcount,
        Std.TransCmp.congr_left he] at hr
      rw [references_append]
      omega
  | more a e b he hcount =>
    refine ⟨sorted_replaceEntry hsorted Std.ReflCmp.compare_self, fun x hx => ?_, fun r => ?_⟩
    · simp only [List.mem_append, List.mem_cons] at hx
      rcases hx with hx | rfl | hx
      · exact hpos x (by simp [hx])
      · simp; omega
      · exact hpos x (by simp [hx])
    · have hr := hrefs r
      rw [multiplicity_perm hperm, references_append, references_cons, multiplicity_cons,
        Std.TransCmp.congr_left he] at hr
      have hcr : compareRows (e.setRefCount (e.refCount - 1)).row r = compareRows row r := Std.TransCmp.congr_left he
      rw [references_append, references_cons, hcr, Entry.refCount_setRefCount]
      split
      · next heq =>
        rw [if_pos heq, if_pos heq] at hr
        omega
      · next hne =>
        rw [if_neg hne, if_neg hne] at hr
        omega

/-! ## What the operations on a view do -/

omit [Std.TransCmp compareRows] in
theorem binarySearch_located [Std.TransCmp compareRows] (h : Sorted (compareEntries compareRows) view) (row : Row) :
    Located (fun e t => compareRows e.row t) row view (binarySearch view row compareRows) := by
  have hasc : Ascending (fun (e : Entry) t => compareRows e.row t) row view :=
    @Ascending.of_sorted _ _ compareRows _ Entry.row view h row
  refine search_located hasc (fun low high hlt => ?_) (fun i hi => ?_) (Nat.sub_le _ _) (Nat.zero_le _)
    le_rfl (fun _ _ hj => absurd hj (by omega)) (fun _ _ hj => absurd hj (by omega))
  · omega
  · rw [List.getElem?_eq_getElem hi]

theorem Counted.found (h : Counted compareRows rows view) (hrow : row ∈ rows) :
    ∃ a e b, view = a ++ e :: b ∧ compareRows e.row row = .eq ∧ 0 < e.refCount ∧
      binarySearch view row compareRows = .found a.length := by
  have hpos : 0 < multiplicity compareRows row rows := multiplicity_pos.mpr ⟨row, hrow, Std.ReflCmp.compare_self⟩
  obtain ⟨e', he', heq'⟩ := references_pos (h.references_eq row ▸ hpos)
  have hloc := binarySearch_located h.sorted row
  generalize hp : binarySearch view row compareRows = p at hloc
  cases hloc with
  | @found a e b ha he hb => exact ⟨a, e, b, rfl, he, h.refCount_pos e (by simp), rfl⟩
  | @missing a b ha hb =>
    rcases List.mem_append.mp he' with hmem | hmem
    · exact absurd (heq'.symm.trans (ha e' hmem)) (by decide)
    · exact absurd (heq'.symm.trans (hb e' hmem)) (by decide)

/-- `removeAndUpdateRefCount`: the view with a reference less. -/
theorem Counted.removeAndUpdateRefCount (h : Counted compareRows rows view) (hrow : row ∈ rows) :
    ∃ view', ZeroSync.removeAndUpdateRefCount view row compareRows = .ok view' ∧
      DropRef compareRows row view view' := by
  obtain ⟨a, e, b, rfl, he, hcount, hpos⟩ := h.found hrow
  have hget : (a ++ e :: b)[a.length]? = some e := by simp
  unfold ZeroSync.removeAndUpdateRefCount
  simp only [hpos, hget]
  split
  · next hone =>
    refine ⟨_, rfl, ?_⟩
    rw [eraseIdx_length_append]
    exact .last a e b he hone
  · next hone =>
    refine ⟨_, rfl, ?_⟩
    rw [List.set_append_right _ _ le_rfl, Nat.sub_self, List.set_cons_zero]
    exact .more a e b he (by omega)

theorem moveRef_inPlace (h : Sorted (compareEntries compareRows) (a ++ e :: b)) (he : compareRows e.row oldRow = .eq)
    (heq : compareRows oldRow row = .eq) (hcount : 0 < e.refCount) :
    MoveRef compareRows row oldRow (a ++ e :: b) (a ++ e.applyEdit row :: b) := by
  have her : compareRows e.row row = .eq := Std.TransCmp.eq_trans he heq
  obtain ⟨-, hb, hab⟩ := sorted_append.mp h
  by_cases hone : e.refCount = 1
  · refine moveRef_only he hone (fun y hy => ?_) fun y hy => ?_
    · have hlt : compareRows y.row e.row = .lt := hab y hy e (by simp)
      exact Std.TransCmp.lt_of_lt_of_eq hlt her
    · have hlt : compareRows e.row y.row = .lt := (sorted_cons.mp hb).1 y hy
      exact Std.OrientedCmp.gt_of_lt (Std.TransCmp.lt_of_eq_of_lt (Std.OrientedCmp.eq_symm her) hlt)
  · refine ⟨_, .more a e b he (by omega), .found a _ _ b her Std.ReflCmp.compare_self ?_⟩
    simp only [Entry.refCount_applyEdit, Entry.refCount_setRefCount]
    omega

theorem Counted.entry (h : Counted compareRows rows view) (hrow : row ∈ rows) :
    ∃ e ∈ view, compareRows e.row row = .eq := by
  obtain ⟨a, e, b, rfl, he, -, -⟩ := h.found hrow
  exact ⟨e, by simp, he⟩

theorem Counted.multiplicity_eq (h : Counted compareRows rows view) (he : e ∈ view)
    (heq : compareRows e.row row = .eq) : multiplicity compareRows row rows = e.refCount := by
  rw [← h.references_eq, ← references_mem h.sorted he]
  have hcongr : ∀ x ∈ view, decide (compareRows x.row row = .eq) = decide (compareRows x.row e.row = .eq) :=
    fun x _ => by rw [Std.TransCmp.congr_right heq]
  unfold references
  rw [List.filter_congr hcongr]

/-- The entry after that of `oldRow` has the place of `row`: the edit merges. -/
theorem Counted.editMerges_of_adjacent {y : Entry} (h : Counted compareRows rows (a ++ e :: y :: b))
    (he : compareRows e.row oldRow = .eq) (hcount : e.refCount = 1) (hy : compareRows y.row row = .eq) :
    EditMerges compareRows rows row oldRow := by
  obtain ⟨-, htail, hab⟩ := sorted_append.mp h.sorted
  obtain ⟨hey, htail⟩ := sorted_cons.mp htail
  have hlt : compareRows e.row y.row = .lt := hey y (by simp)
  refine ⟨by rw [h.multiplicity_eq (by simp) he, hcount], ?_, ?_, fun r hr hbetween => ?_⟩
  · rw [h.multiplicity_eq (e := y) (by simp) hy]
    exact h.refCount_pos y (by simp)
  · exact Std.TransCmp.lt_of_eq_of_lt (Std.OrientedCmp.eq_symm he) (Std.TransCmp.lt_of_lt_of_eq hlt hy)
  · obtain ⟨z, hz, hzr⟩ := h.entry hr
    have hez : compareRows e.row z.row = .lt := Std.TransCmp.lt_of_eq_of_lt he
      (Std.TransCmp.lt_of_lt_of_eq hbetween.1 (Std.OrientedCmp.eq_symm hzr))
    have hzy : compareRows z.row y.row = .lt := Std.TransCmp.lt_of_eq_of_lt hzr
      (Std.TransCmp.lt_of_lt_of_eq hbetween.2 (Std.OrientedCmp.eq_symm hy))
    simp only [List.mem_append, List.mem_cons] at hz
    rcases hz with hz | rfl | rfl | hz
    · have hze : compareRows z.row e.row = .lt := hab z hz e (by simp)
      exact absurd hze (Std.OrientedCmp.not_lt_of_lt hez)
    · exact absurd hez lt_irrefl
    · exact absurd hzy lt_irrefl
    · have hyz : compareRows y.row z.row = .lt := (sorted_cons.mp htail).1 z hz
      exact absurd hyz (Std.OrientedCmp.not_lt_of_lt hzy)

/-- A row placed at the entry of `oldRow` or directly after it, unless the
edit merges, lies between the neighbours of the entry. -/
theorem Counted.neighbours {p : Position} (h : Counted compareRows rows (a ++ e :: b))
    (hloc : Located (fun e t => compareRows e.row t) row (a ++ e :: b) p) (hne : compareRows e.row row ≠ .eq)
    (he : compareRows e.row oldRow = .eq) (hsafe : ¬EditMerges compareRows rows row oldRow)
    (hstay : e.refCount = 1 ∧ (p.index = a.length ∨ p.index = a.length + 1)) :
    (∀ y ∈ a, compareRows y.row row = .lt) ∧ ∀ y ∈ b, compareRows y.row row = .gt := by
  rcases hloc.beside hne with ⟨-, ha, q, rfl, hq⟩ | ⟨-, hb, hp⟩
  · have hstart : q.index = 0 := by
      have := hstay.2
      rw [Position.index_shift] at this
      omega
    rcases hq.at_start hstart with ⟨y, d, rfl, hy, -⟩ | ⟨-, hb⟩
    · exact absurd (h.editMerges_of_adjacent he hstay.1 hy) hsafe
    · exact ⟨ha, hb⟩
  · have hend : p.index = a.length := by
      have := hp.index_le
      omega
    exact ⟨hp.at_end hend, hb⟩

/-- The plural `edit` case: the view with a reference moved, unless the edit merges. -/
theorem Counted.editInView (h : Counted compareRows rows view) (hold : oldRow ∈ rows)
    (hsafe : ¬EditMerges compareRows rows row oldRow) :
    ∃ view', ZeroSync.editInView view row oldRow compareRows = .ok view' ∧
      MoveRef compareRows row oldRow view view' := by
  obtain ⟨a, e, b, rfl, he, hcount, hpos⟩ := h.found hold
  have hget : (a ++ e :: b)[a.length]? = some e := by simp
  have hset (e' : Entry) : (a ++ e :: b).set a.length e' = a ++ e' :: b := by simp
  unfold ZeroSync.editInView
  by_cases heq : compareRows oldRow row = .eq
  · rw [if_neg (not_not.mpr heq)]
    simp only [hpos, modify_length_append]
    exact ⟨_, rfl, moveRef_inPlace h.sorted he heq hcount⟩
  · rw [if_pos heq]
    have hloc := binarySearch_located h.sorted row
    have hne : compareRows e.row row ≠ .eq := fun heq' => heq (by rwa [Std.TransCmp.congr_left he] at heq')
    simp only [hpos, hget, hset, eraseIdx_length_append]
    generalize binarySearch (a ++ e :: b) row compareRows = p at hloc
    split
    · next hstay =>
      refine ⟨_, rfl, ?_⟩
      obtain ⟨ha, hb⟩ := h.neighbours hloc hne he hsafe hstay
      exact moveRef_only he hstay.1 ha hb
    · next hmove =>
      -- The entry loses the reference; then the row is placed in what is left.
      have hf (x : Entry) (_ : compareRows x.row row = .eq) :
          compareRows ((x.applyEdit row).setRefCount (x.refCount + 1)).row row = .eq ∧
            ((x.applyEdit row).setRefCount (x.refCount + 1)).refCount = x.refCount + 1 :=
        ⟨Std.ReflCmp.compare_self, rfl⟩
      have hnew : ((e.applyEdit row).setRefCount 1).row = row := rfl
      by_cases hone : e.refCount = 1
      · obtain ⟨q, hq, hfound, hindex⟩ := hloc.erase hne
        have hadd := addRef_located hq hf hnew rfl
        rw [hfound, hindex] at hadd
        refine ⟨_, ?_, a ++ b, .last a e b he hone, hadd⟩
        simp only [hone, Nat.sub_self, if_true]
        split <;> rfl
      · have hmid : Located (fun e t => compareRows e.row t) row (a ++ e.setRefCount (e.refCount - 1) :: b) p :=
          hloc.replace hne rfl
        have hmany : ¬e.refCount - 1 = 0 := by omega
        refine ⟨_, ?_, _, .more a e b he (by omega), addRef_located hmid hf hnew rfl⟩
        simp only [if_neg hmany]
        split <;> rfl

theorem Counted.row_of_entry (h : Counted compareRows rows view) (he : e ∈ view) :
    ∃ r ∈ rows, compareRows r e.row = .eq := by
  rw [← multiplicity_pos, h.multiplicity_eq he Std.ReflCmp.compare_self]
  exact h.refCount_pos e he

/-- **An edit that merges** leaves two entries that compare equal. -/
theorem Counted.editInView_merges (h : Counted compareRows rows view) (hold : oldRow ∈ rows)
    (hmerge : EditMerges compareRows rows row oldRow) :
    ∃ view', ZeroSync.editInView view row oldRow compareRows = .ok view' ∧
      ¬Sorted (compareEntries compareRows) view' := by
  obtain ⟨hone, hrow, hlt, hbetween⟩ := hmerge
  obtain ⟨r, hr, hrr⟩ := multiplicity_pos.mp hrow
  obtain ⟨y, hy, hyr⟩ := h.entry hr
  have hyrow : compareRows y.row row = .eq := Std.TransCmp.eq_trans hyr hrr
  obtain ⟨a, e, b, rfl, he, -, hpos⟩ := h.found hold
  have hcount : e.refCount = 1 := by rw [← h.multiplicity_eq (by simp) he, hone]
  have hlt' : compareRows e.row row = .lt := Std.TransCmp.lt_of_eq_of_lt he hlt
  have hey : compareRows e.row y.row = .lt := Std.TransCmp.lt_of_lt_of_eq hlt' (Std.OrientedCmp.eq_symm hyrow)
  obtain ⟨-, heb, hab⟩ := sorted_append.mp h.sorted
  -- The entry of `row` is after that of `oldRow`, and directly after it.
  have hyb : y ∈ b := by
    simp only [List.mem_append, List.mem_cons] at hy
    rcases hy with hy | rfl | hy
    · have hye : compareRows y.row e.row = .lt := hab y hy e (by simp)
      exact absurd hye (Std.OrientedCmp.not_lt_of_lt hey)
    · exact absurd hey lt_irrefl
    · exact hy
  obtain ⟨z, d, rfl⟩ := List.exists_cons_of_ne_nil (List.ne_nil_of_mem hyb)
  have hzrow : compareRows z.row row = .eq := by
    rcases List.mem_cons.mp hyb with rfl | hyd
    · exact hyrow
    · have hez : compareRows e.row z.row = .lt := (sorted_cons.mp heb).1 z (by simp)
      have hzy : compareRows z.row y.row = .lt := (sorted_cons.mp (sorted_cons.mp heb).2).1 y hyd
      obtain ⟨r', hr', hzr'⟩ := h.row_of_entry (e := z) (by simp)
      refine absurd ⟨?_, ?_⟩ (hbetween r' hr')
      · exact Std.TransCmp.lt_of_eq_of_lt (Std.OrientedCmp.eq_symm he)
          (Std.TransCmp.lt_of_lt_of_eq hez (Std.OrientedCmp.eq_symm hzr'))
      · exact Std.TransCmp.lt_of_eq_of_lt hzr' (Std.TransCmp.lt_of_lt_of_eq hzy hyrow)
  have hget : (a ++ e :: z :: d)[a.length]? = some e := by simp
  have hset (e' : Entry) : (a ++ e :: z :: d).set a.length e' = a ++ e' :: z :: d := by simp
  have hfound : binarySearch (a ++ e :: z :: d) row compareRows = .found (a.length + 1) := by
    rcases (binarySearch_located h.sorted row).beside (by rw [hlt']; decide) with ⟨-, -, q, hq, hloc⟩ | ⟨hgt, -, -⟩
    · rw [hq, hloc.of_head hzrow]
      rfl
    · rw [hlt'] at hgt
      cases hgt
  refine ⟨a ++ e.applyEdit row :: z :: d, ?_, fun hsorted => ?_⟩
  · unfold ZeroSync.editInView
    rw [if_pos (by rw [hlt]; decide)]
    simp only [hpos, hget, hset, hfound]
    rw [if_pos ⟨hcount, .inr rfl⟩]
  · obtain ⟨-, htail, -⟩ := sorted_append.mp hsorted
    have hlt'' : compareRows row z.row = .lt := (sorted_cons.mp htail).1 z (by simp)
    rw [Std.OrientedCmp.eq_symm hzrow] at hlt''
    cases hlt''

end

end ZeroSync
