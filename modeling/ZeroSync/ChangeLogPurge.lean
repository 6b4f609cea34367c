/-
What a batch of the purger deletes (`SQLiteChangeLogPurger.purgeBatch`) and that
purging ends.

Eligible transactions come in the order of their commit times, which need not be that
of the watermarks, but each deletion is of all rows up to a watermark, or of the first
rows of the lowest one: what is left is a suffix of the rows. Each batch that is not the
last deletes a row, whatever its budget, so that the rows bound the batches.
-/
import ZeroSync.ChangeLogStream

namespace ZeroSync.ChangeLogDB

variable {J : Type}

theorem filter_suffix {α : Type} {l : List α} {p : α → Bool} (h : l.Pairwise fun a b => p b = true → p a = true) :
    l.filter (fun a => !p a) <:+ l := by
  induction l with
  | nil => exact List.suffix_rfl
  | cons a l ih =>
    obtain ⟨ha, h⟩ := List.pairwise_cons.mp h
    by_cases hp : p a = true
    · rw [List.filter_cons_of_neg (by simp [hp])]
      exact (ih h).trans (List.suffix_cons a l)
    · have hl : l.filter (fun a => !p a) = l := List.filter_eq_self.mpr fun b hb => by
        have hb : ¬ p b = true := fun hpb => hp (ha b hb hpb)
        simp [hb]
      rw [List.filter_cons_of_pos (by simp [hp]), hl]

namespace StreamTable

variable {t t' : StreamTable} {opts : PurgeBatchOptions} {watermark : Watermark} {r : StreamRow}

/-- Each transaction ends in its commit row; the first rows of any may be gone. -/
def Committed (t : StreamTable) : Prop :=
  ∀ r ∈ t.rows, r.tag = .commit ↔ ∀ x ∈ t.rows, x.watermark = r.watermark → x.pos ≤ r.pos

/-- `t'` is left of `t` by a deletion that purging allows. -/
structure Purges (opts : PurgeBatchOptions) (t t' : StreamTable) : Prop where
  suffix : t'.rows <:+ t.rows
  floor : ∀ r ∈ t.rows, r ∉ t'.rows → r.watermark < opts.externalFloor
  head : ∀ r ∈ t.rows, r ∉ t'.rows → readChangeLogHead t ≠ some r.watermark
  commit : ∀ r ∈ t.rows, r ∉ t'.rows → r.tag = .commit → ∀ x ∈ t'.rows, x.watermark ≠ r.watermark

theorem Purges.refl (opts : PurgeBatchOptions) (t : StreamTable) : Purges opts t t :=
  ⟨List.suffix_rfl, fun _ h hn => absurd h hn, fun _ h hn => absurd h hn, fun _ h hn => absurd h hn⟩

theorem Committed.suffix (h : Committed t) (hsuffix : t'.rows <:+ t.rows) : Committed t' := by
  intro r hr
  rw [h r (hsuffix.mem hr)]
  refine ⟨fun hlast x hx => hlast x (hsuffix.mem hx), fun hlast x hx hw => ?_⟩
  obtain ⟨deleted, hrows⟩ := hsuffix
  rcases List.mem_append.mp (hrows ▸ hx) with hx | hx
  · -- deleted rows come before those that are left
    have hlt := (List.pairwise_append.mp (hrows ▸ t.sorted)).2.2 x hx r hr
    rcases Prod.Lex.toLex_lt_toLex.mp hlt with hlt | ⟨-, hlt⟩
    · exact absurd hw (ne_of_lt hlt)
    · exact hlt.le
  · exact hlast x hx hw

theorem readMinWatermark_eq_some : readMinWatermark t = some watermark ↔
    (∃ r ∈ t.rows, r.watermark = watermark) ∧ ∀ r ∈ t.rows, watermark ≤ r.watermark := by
  unfold readMinWatermark
  rw [List.min?_eq_some_iff]
  simp

theorem readChangeLogHead_eq_some : readChangeLogHead t = some watermark ↔
    (∃ r ∈ t.rows, r.watermark = watermark) ∧ ∀ r ∈ t.rows, r.watermark ≤ watermark := by
  unfold readChangeLogHead
  rw [List.max?_eq_some_iff]
  simp

/-- Below the floor and the head. -/
structure Purgeable (opts : PurgeBatchOptions) (t : StreamTable) (watermark : Watermark) : Prop where
  floor : watermark < opts.externalFloor
  head : ∃ r ∈ t.rows, watermark < r.watermark

theorem Purgeable.of_le {watermark' : Watermark} (h : Purgeable opts t watermark) (hle : watermark' ≤ watermark) :
    Purgeable opts t watermark' :=
  ⟨hle.trans_lt h.floor, h.head.imp fun _ hr => ⟨hr.1, hle.trans_lt hr.2⟩⟩

theorem Purgeable.ne_head (h : Purgeable opts t watermark) : readChangeLogHead t ≠ some watermark := by
  intro heq
  obtain ⟨r, hr, hlt⟩ := h.head
  exact absurd ((readChangeLogHead_eq_some.mp heq).2 r hr) (not_le.mpr hlt)

/-! ## Eligible transactions -/

theorem mem_eligible {writeTimeMs : ℤ} (h : (writeTimeMs, watermark) ∈ eligible t opts) :
    Purgeable opts t watermark ∧ ∃ r ∈ t.rows, r.watermark = watermark := by
  unfold eligible at h
  obtain ⟨r, hr, h⟩ := List.mem_filterMap.mp h
  cases htime : r.writeTimeMs with
  | none =>
    rw [htime] at h
    cases h
  | some time =>
    rw [htime] at h
    dsimp only at h
    split at h
    · rename_i hbounds
      obtain ⟨-, hfloor, hhead⟩ := hbounds
      obtain ⟨-, rfl⟩ := Prod.mk.inj (Option.some.inj h)
      obtain ⟨head, hhead, hlt⟩ := Option.any_eq_true _ _ |>.mp hhead
      obtain ⟨⟨x, hx, hxw⟩, -⟩ := readChangeLogHead_eq_some.mp hhead
      exact ⟨⟨hfloor, x, hx, hxw ▸ of_decide_eq_true hlt⟩, r, hr, rfl⟩
    · cases h

theorem mem_eligibleCommits {limit : ℕ} (h : watermark ∈ eligibleCommits t opts limit) :
    Purgeable opts t watermark ∧ ∃ r ∈ t.rows, r.watermark = watermark := by
  obtain ⟨⟨writeTimeMs, watermark⟩, hmem, rfl⟩ := List.mem_map.mp h
  exact mem_eligible ((List.mem_insertionSort _).mp (List.mem_of_mem_take hmem))

theorem eligibleCommits_isEmpty {limit : ℕ} (h : 0 < limit) :
    (eligibleCommits t opts limit).isEmpty = true ↔ eligible t opts = [] := by
  unfold eligibleCommits
  rw [List.isEmpty_iff, List.map_eq_nil_iff, List.take_eq_nil_iff, or_iff_right (Nat.pos_iff_ne_zero.mp h)]
  exact ⟨fun heq => List.perm_nil.mp (heq ▸ (List.perm_insertionSort _ _).symm), fun heq => by rw [heq]; rfl⟩

theorem anyEligible_eq_false : anyEligible t opts = false ↔ eligible t opts = [] := by
  unfold anyEligible
  rw [Bool.not_eq_false', eligibleCommits_isEmpty Nat.one_pos]

theorem fit_mem {budget rows : ℕ} {deletedThrough : Option Watermark} {candidates : List Watermark}
    (h : fit t budget rows deletedThrough candidates = some watermark) :
    deletedThrough = some watermark ∨ watermark ∈ candidates := by
  induction candidates generalizing rows deletedThrough with
  | nil => exact .inl h
  | cons candidate candidates ih =>
    rw [fit] at h
    split at h
    · exact .inl h
    · rcases ih h with heq | hmem
      · exact .inr (Option.some.inj heq ▸ List.mem_cons_self ..)
      · exact .inr (List.mem_cons_of_mem _ hmem)

/-! ## Deletions -/

theorem Purges.deleteWhere {p : StreamRow → Bool}
    (hfirst : ∀ a ∈ t.rows, ∀ b ∈ t.rows, a.key < b.key → p b = true → p a = true)
    (hpurgeable : ∀ r ∈ t.rows, p r = true → Purgeable opts t r.watermark)
    (hcommit : ∀ r ∈ t.rows, p r = true → r.tag = .commit → ∀ x ∈ t.rows, x.watermark = r.watermark → p x = true) :
    Purges opts t (t.deleteWhere p) := by
  have hdeleted (r : StreamRow) (hr : r ∈ t.rows) (hn : r ∉ (t.deleteWhere p).rows) : p r = true := by
    by_contra hp
    exact hn (KeyedTable.mem_deleteWhere.mpr ⟨hr, by simpa using hp⟩)
  refine ⟨filter_suffix (t.sorted.imp_of_mem fun ha hb hlt => hfirst _ ha _ hb hlt), fun r hr hn => ?_, fun r hr hn => ?_,
    fun r hr hn htag x hx hw => ?_⟩
  · exact (hpurgeable r hr (hdeleted r hr hn)).floor
  · exact (hpurgeable r hr (hdeleted r hr hn)).ne_head
  · obtain ⟨hx, hpx⟩ := KeyedTable.mem_deleteWhere.mp hx
    rw [hcommit r hr (hdeleted r hr hn) htag x hx hw] at hpx
    cases hpx

theorem deleteWhere_length_lt {p : StreamRow → Bool} (h : ∃ r ∈ t.rows, p r = true) :
    (t.deleteWhere p).rows.length < t.rows.length := by
  obtain ⟨r, hr, hp⟩ := h
  refine lt_of_le_of_ne (List.length_filter_le _ _) fun heq => ?_
  have hkept := List.length_filter_eq_length_iff.mp heq r hr
  rw [hp] at hkept
  cases hkept

theorem deleteThrough_purges (h : Purgeable opts t watermark) : Purges opts t (deleteThrough t watermark) := by
  refine Purges.deleteWhere (fun a _ b _ hlt hb => ?_) (fun r _ hr => h.of_le (of_decide_eq_true hr))
    fun r _ hr _ x _ hw => ?_
  · have hle : a.watermark ≤ b.watermark := by
      rcases Prod.Lex.toLex_lt_toLex.mp hlt with hlt | ⟨heq, -⟩
      · exact hlt.le
      · exact le_of_eq heq
    exact decide_eq_true (hle.trans (of_decide_eq_true hb))
  · rw [hw]
    exact hr

theorem deleteThrough_length_lt (h : ∃ r ∈ t.rows, r.watermark = watermark) :
    (deleteThrough t watermark).rows.length < t.rows.length :=
  deleteWhere_length_lt (h.imp fun _ hr => ⟨hr.1, decide_eq_true (le_of_eq hr.2)⟩)

theorem tearBoundary_eq_some {offset pos : ℕ} (h : tearBoundary t watermark (offset + 1) = some pos) :
    (∃ r ∈ t.rows, r.watermark = watermark ∧ r.pos = pos) ∧ ∃ r ∈ t.rows, r.watermark = watermark ∧ r.pos < pos := by
  obtain ⟨r, hr, rfl⟩ := Option.map_eq_some_iff.mp h
  have hmem {x : StreamRow} (hx : x ∈ t.rows.filter fun r => r.watermark = watermark) :
      x ∈ t.rows ∧ x.watermark = watermark := ⟨(List.mem_filter.mp hx).1, of_decide_eq_true (List.mem_filter.mp hx).2⟩
  have hsorted := t.sorted.filter fun r => r.watermark = watermark
  cases hrows : t.rows.filter fun r => r.watermark = watermark with
  | nil =>
    rw [hrows] at hr
    cases hr
  | cons x rest =>
    rw [hrows] at hr hmem hsorted
    rw [List.getElem?_cons_succ] at hr
    have hrest := List.mem_of_getElem? hr
    obtain ⟨hr, hrw⟩ := hmem (List.mem_cons_of_mem _ hrest)
    obtain ⟨hx, hxw⟩ := hmem (List.mem_cons_self ..)
    refine ⟨⟨r, hr, hrw, rfl⟩, x, hx, hxw, ?_⟩
    rcases Prod.Lex.toLex_lt_toLex.mp ((List.pairwise_cons.mp hsorted).1 r hrest) with hlt | ⟨-, hlt⟩
    · exact absurd (hxw.trans hrw.symm) (ne_of_lt hlt)
    · exact hlt

theorem deleteBelowPos_purges (ht : Committed t) (h : Purgeable opts t watermark)
    (hmin : ∀ r ∈ t.rows, watermark ≤ r.watermark) {pos : ℕ} (hpos : ∃ r ∈ t.rows, r.watermark = watermark ∧ r.pos = pos) :
    Purges opts t (deleteBelowPos t watermark pos) := by
  refine Purges.deleteWhere (fun a ha b _ hlt hb => ?_) (fun r _ hr => ?_) fun r hr hbelow htag => ?_
  · obtain ⟨hbw, hbpos⟩ := of_decide_eq_true hb
    have haw := hmin a ha
    rcases Prod.Lex.toLex_lt_toLex.mp hlt with hlt | ⟨heq, hlt⟩
    · exact absurd (hbw ▸ hlt) (not_lt.mpr haw)
    · exact decide_eq_true ⟨heq.trans hbw, lt_trans hlt hbpos⟩
  · exact (of_decide_eq_true hr).1 ▸ h
  · -- the commit row is the last of its transaction, and another row comes after what is deleted
    obtain ⟨hrw, hrpos⟩ := of_decide_eq_true hbelow
    obtain ⟨x, hx, hxw, rfl⟩ := hpos
    exact absurd ((ht r hr).mp htag x hx (hxw.trans hrw.symm)) (not_le.mpr hrpos)

/-! ## A batch -/

/-- What a batch leaves and what it says of it. -/
structure Batch (opts : PurgeBatchOptions) (t : StreamTable) (result : PurgeBatchResult) : Prop where
  purges : Purges opts t result.table
  deletedRows : result.deletedRows = t.rows.length - result.table.rows.length
  progress : result.moreEligible = true → 0 < result.deletedRows
  done : result.moreEligible = false → eligible result.table opts = []

theorem purgeThrough_batch (h : Purgeable opts t watermark) (hrow : ∃ r ∈ t.rows, r.watermark = watermark) :
    Batch opts t (purgeThrough t opts watermark) :=
  ⟨deleteThrough_purges h, rfl, fun _ => Nat.sub_pos_of_lt (deleteThrough_length_lt hrow), anyEligible_eq_false.mp⟩

theorem tear_batch (ht : Committed t) {budget : ℕ} (hbudget : 1 ≤ budget) (h : Purgeable opts t watermark)
    (hrow : ∃ r ∈ t.rows, r.watermark = watermark) : ∃ result, tear t opts budget = .ok result ∧ Batch opts t result := by
  have hne : t.rows.map (·.watermark) ≠ [] := by
    obtain ⟨r, hr, -⟩ := h.head
    exact List.ne_nil_of_mem (List.mem_map_of_mem hr)
  cases hmin : readMinWatermark t with
  | none => exact absurd (List.min?_eq_none_iff.mp hmin) hne
  | some minWatermark =>
    obtain ⟨hminRow, hle⟩ := readMinWatermark_eq_some.mp hmin
    have hpurgeable : Purgeable opts t minWatermark := by
      obtain ⟨r, hr, rfl⟩ := hrow
      exact h.of_le (hle r hr)
    unfold tear
    rw [hmin]
    dsimp only
    obtain ⟨budget, rfl⟩ := Nat.exists_eq_add_of_le' hbudget
    cases hpos : tearBoundary t minWatermark (budget + 1) with
    | none => exact ⟨_, rfl, purgeThrough_batch hpurgeable hminRow⟩
    | some pos =>
      obtain ⟨hboundary, x, hx, hxw, hxpos⟩ := tearBoundary_eq_some hpos
      have hlt : (deleteBelowPos t minWatermark pos).rows.length < t.rows.length :=
        deleteWhere_length_lt ⟨x, hx, decide_eq_true ⟨hxw, hxpos⟩⟩
      exact ⟨_, rfl, deleteBelowPos_purges ht hpurgeable hle hboundary, rfl, fun _ => Nat.sub_pos_of_lt hlt,
        fun hfalse => by cases hfalse⟩

theorem purge_batch (ht : Committed t) (opts : PurgeBatchOptions) {budget : ℕ} (hbudget : 1 ≤ budget) :
    ∃ deletes result, purge t opts budget = .ok (deletes, result) ∧ Batch opts t result := by
  unfold purge
  dsimp only
  split
  · rename_i hnone
    refine ⟨_, _, rfl, Purges.refl opts t, (Nat.sub_self _).symm, (fun h => by cases h), fun _ => ?_⟩
    exact (eligibleCommits_isEmpty (lt_of_lt_of_le Nat.one_pos (le_max_left ..))).mp hnone
  · rename_i hsome
    cases hfit : fit t budget 0 none (eligibleCommits t opts (max 1 ((budget + 1) / 2))) with
    | none =>
      obtain ⟨watermark, hmem⟩ := List.exists_mem_of_ne_nil _ fun hnil => hsome (List.isEmpty_iff.mpr hnil)
      obtain ⟨hpurgeable, hrow⟩ := mem_eligibleCommits hmem
      obtain ⟨result, hresult, hbatch⟩ := tear_batch ht hbudget hpurgeable hrow
      exact ⟨true, result, by rw [hresult]; rfl, hbatch⟩
    | some deletedThrough =>
      rcases fit_mem hfit with hnone | hmem
      · cases hnone
      · obtain ⟨hpurgeable, hrow⟩ := mem_eligibleCommits hmem
        exact ⟨true, _, rfl, purgeThrough_batch hpurgeable hrow⟩

end StreamTable

/-! ## The budget -/

theorem purgeBudget_bounds (opts : PurgeBatchOptions) (hmax : 1 ≤ opts.maxRows) (budgetRows : Option ℕ) :
    1 ≤ purgeBudget opts budgetRows ∧ purgeBudget opts budgetRows ≤ opts.maxRows :=
  ⟨le_max_left .., max_le hmax (min_le_left ..)⟩

theorem timed_bounds {opts : PurgeBatchOptions} {budget : ℕ} (hbudget : 1 ≤ budget) (hmax : budget ≤ opts.maxRows)
    (deletedRows : ℕ) (elapsedMs : ℚ) :
    1 ≤ timed opts budget deletedRows elapsedMs ∧ timed opts budget deletedRows elapsedMs ≤ opts.maxRows := by
  unfold timed
  split
  · exact ⟨le_max_left .., max_le (hbudget.trans hmax) ((Nat.div_le_self ..).trans hmax)⟩
  · split
    · exact ⟨le_min (hbudget.trans hmax) (by omega), min_le_left ..⟩
    · exact ⟨hbudget, hmax⟩

/-! ## Purging -/

/-- A connection with no transaction open to a log that holds `t`. -/
def Holds (c : Connection J) (t : StreamTable) : Prop := c.working = none ∧ c.committed.stream = some t

theorem purgeBatch_ok {c : Connection J} {t : StreamTable} (hc : Holds c t) (ht : t.Committed) {opts : PurgeBatchOptions}
    (hmax : 1 ≤ opts.maxRows) (hduration : 0 < opts.maxDurationMs) (budgetRows : Option ℕ) (elapsedMs : ℚ) :
    ∃ c' budgetRows' result, purgeBatch c budgetRows opts elapsedMs = .ok (c', budgetRows', result) ∧
      Holds c' result.table ∧ t.Batch opts result ∧
      ((∀ b ∈ budgetRows, 1 ≤ b ∧ b ≤ opts.maxRows) → ∀ b ∈ budgetRows', 1 ≤ b ∧ b ≤ opts.maxRows) := by
  obtain ⟨hworking, hstream⟩ := hc
  obtain ⟨hpos, hle⟩ := purgeBudget_bounds opts hmax budgetRows
  obtain ⟨deletes, result, hpurge, hbatch⟩ := StreamTable.purge_batch ht opts hpos
  have hbegin : c.beginImmediate = .ok { c with working := some c.committed } := by
    unfold Connection.beginImmediate Connection.inTransaction
    rw [hworking]
    rfl
  refine ⟨⟨{ c.committed with stream := some result.table }, none⟩,
    if deletes then some (timed opts (purgeBudget opts budgetRows) result.deletedRows elapsedMs) else budgetRows, result,
    ?_, ⟨rfl, rfl⟩, hbatch, fun hbudget b hb => ?_⟩
  · unfold purgeBatch
    rw [if_neg (Nat.one_le_iff_ne_zero.mp hmax), if_neg (not_le.mpr hduration), hbegin]
    simp only [Except.mapError, pure, Except.pure, bind, Except.bind, hstream, hpurge]
  · split at hb
    · obtain rfl := Option.some.inj hb
      exact timed_bounds hpos hle ..
    · exact hbudget b hb

/-- Batches while there is more to delete, of which the deletes take some times; `none`
when there is more after all of them. -/
def purgeWhile (opts : PurgeBatchOptions) : List ℚ → Connection J → Option ℕ →
    Except PurgeError (Option (Connection J × Option ℕ))
  | [], _, _ => .ok none
  | elapsedMs :: durations, c, budgetRows => do
    let (c, budgetRows, result) ← purgeBatch c budgetRows opts elapsedMs
    if result.moreEligible then purgeWhile opts durations c budgetRows else return some (c, budgetRows)

theorem purgeWhile_ends {opts : PurgeBatchOptions} (hmax : 1 ≤ opts.maxRows) (hduration : 0 < opts.maxDurationMs)
    {durations : List ℚ} {c : Connection J} {t : StreamTable} (hc : Holds c t) (ht : t.Committed)
    (hlong : t.rows.length < durations.length) (budgetRows : Option ℕ) :
    ∃ c' budgetRows' t', purgeWhile opts durations c budgetRows = .ok (some (c', budgetRows')) ∧ Holds c' t' ∧
      t'.eligible opts = [] := by
  induction durations generalizing c t budgetRows with
  | nil => cases hlong
  | cons elapsedMs durations ih =>
    obtain ⟨c₁, budgetRows₁, result, hbatch, hc₁, hresult, -⟩ := purgeBatch_ok hc ht hmax hduration budgetRows elapsedMs
    unfold purgeWhile
    rw [hbatch]
    cases hmore : result.moreEligible with
    | false => exact ⟨c₁, budgetRows₁, result.table, by simp [hmore, bind, Except.bind, pure, Except.pure], hc₁,
        hresult.done hmore⟩
    | true =>
      have hlt : result.table.rows.length < durations.length := by
        have hprogress := hresult.progress hmore
        rw [hresult.deletedRows] at hprogress
        simp only [List.length_cons] at hlong
        omega
      obtain ⟨c', budgetRows', t', hrun, hc', hdone⟩ := ih hc₁ (ht.suffix hresult.purges.suffix) hlt budgetRows₁
      exact ⟨c', budgetRows', t', by simpa [hmore, bind, Except.bind] using hrun, hc', hdone⟩

/-- **Purging**: a batch deletes a prefix of the rows, nothing at or above the floor or of
the head and no commit row but with the last rows of its transaction; the budget stays in
its bounds; and batches while there is more to delete end, with nothing eligible left. -/
theorem purgeBatch_bounded {c : Connection J} {t : StreamTable} (hc : Holds c t) (ht : t.Committed)
    {opts : PurgeBatchOptions} (hmax : 1 ≤ opts.maxRows) (hduration : 0 < opts.maxDurationMs) (budgetRows : Option ℕ)
    (hbudget : ∀ b ∈ budgetRows, 1 ≤ b ∧ b ≤ opts.maxRows) :
    (∀ elapsedMs, ∃ c' budgetRows' result, purgeBatch c budgetRows opts elapsedMs = .ok (c', budgetRows', result) ∧
      Holds c' result.table ∧ result.table.Committed ∧ t.Batch opts result ∧
      (1 ≤ purgeBudget opts budgetRows ∧ purgeBudget opts budgetRows ≤ opts.maxRows) ∧
      ∀ b ∈ budgetRows', 1 ≤ b ∧ b ≤ opts.maxRows) ∧
    ∀ durations : List ℚ, t.rows.length < durations.length →
      ∃ c' budgetRows' t', purgeWhile opts durations c budgetRows = .ok (some (c', budgetRows')) ∧ Holds c' t' ∧
        t'.eligible opts = [] := by
  refine ⟨fun elapsedMs => ?_, fun durations hlong => purgeWhile_ends hmax hduration hc ht hlong budgetRows⟩
  obtain ⟨c', budgetRows', result, hok, hc', hbatch, hbounds⟩ := purgeBatch_ok hc ht hmax hduration budgetRows elapsedMs
  exact ⟨c', budgetRows', result, hok, hc', ht.suffix hbatch.purges.suffix, hbatch,
    purgeBudget_bounds opts hmax budgetRows, hbounds hbudget⟩

/-- A log whose second transaction was committed at an earlier time than its first. -/
def skewedLog : StreamTable where
  rows :=
    [streamRow ⟨"01", by decide⟩ 0 .begin "\x7b\x7d", commitRow ⟨"01", by decide⟩ 1 "\x7b\x7d" 20,
      streamRow ⟨"02", by decide⟩ 0 .begin "\x7b\x7d", commitRow ⟨"02", by decide⟩ 1 "\x7b\x7d" 10,
      streamRow ⟨"03", by decide⟩ 0 .begin "\x7b\x7d", commitRow ⟨"03", by decide⟩ 1 "\x7b\x7d" 30]
  sorted := by decide +kernel

theorem purgeBatch_bounded_skewedLog :
    ∃ c' budgetRows' t', purgeWhile ⟨⟨"03", by decide⟩, 100, 1, 5⟩ [7, 7, 7, 7, 7, 7, 7]
        (⟨⟨some skewedLog, none, none, none⟩, none⟩ : Connection ℕ) none = .ok (some (c', budgetRows')) ∧
      Holds c' t' ∧ t'.eligible ⟨⟨"03", by decide⟩, 100, 1, 5⟩ = [] :=
  (purgeBatch_bounded ⟨rfl, rfl⟩ (by unfold StreamTable.Committed; decide +kernel) (by decide) (by decide) none
    (by simp)).2 _ (by decide)

end ZeroSync.ChangeLogDB
