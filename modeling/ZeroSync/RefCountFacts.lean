/-
The ref counts that `computeRefCountUpdates` leaves are exact, in whatever order
its tasks go on.

While it counts up, each count with the changes that are pending is the number
of heads, the old and the new ones, and of refs of the chunks that are counted
(`Counting`). While it counts down, each count is what it will be and the
changes that are pending (`Discounting`); so none is ever negative.
-/
import ZeroSync.RefCountUpdates
import Mathlib.Data.List.Perm.Basic
import Mathlib.Tactic.Linarith

namespace ZeroSync

namespace RefCountUpdates

variable {delegate : RefCountUpdatesDelegate} {stored : Hash → ℤ} {putChunks : List Hash} {s s' : RefCountUpdates} {hash g : Hash}

/-- The counts in the store, where they can be loaded. -/
def Loads (delegate : RefCountUpdatesDelegate) (stored : Hash → ℤ) : Prop :=
  ∀ hash value, delegate.getRefCount hash = .ok value → value.getD 0 = stored hash

/-- The refs of a chunk that are counted with it. -/
def refsOf (delegate : RefCountUpdatesDelegate) (hash : Hash) : List Hash :=
  if hash = emptyHash then [] else (delegate.getRefs hash).getD []

/-- The refs of a chunk are known. -/
def HasRefs (delegate : RefCountUpdatesDelegate) (hash : Hash) : Prop := hash ≠ emptyHash ∧ (delegate.getRefs hash).isSome

/-- The refs of a chunk that had a count were counted before. -/
def AreRefsCounted (delegate : RefCountUpdatesDelegate) (hash : Hash) : Prop := delegate.areRefsCounted.all (· hash) = true

/-- The count of a hash, changed or not. -/
def count (stored : Hash → ℤ) (s : RefCountUpdates) (hash : Hash) : ℤ :=
  (s.refCountUpdates.get? hash).getD (stored hash)

/-- The hashes whose counts a task will change. -/
def targets (delegate : RefCountUpdatesDelegate) : RefCountTask → List Hash
  | .changeRefCount hash _ => [hash]
  | .updateRefsCounts hash _ => refsOf delegate hash
  | .ensureRefCountLoaded _ => []

/-- The changes that are pending. -/
def pending (delegate : RefCountUpdatesDelegate) (tasks : List RefCountTask) : List Hash := tasks.flatMap (targets delegate)

/-- A task with a delta. -/
def HasDelta (delta : ℤ) : RefCountTask → Prop
  | .changeRefCount _ d | .updateRefsCounts _ d => d = delta
  | .ensureRefCountLoaded _ => True

theorem perm_eraseIdx {α : Type} {l : List α} {i : ℕ} {x : α} (h : l[i]? = some x) : l.Perm (x :: l.eraseIdx i) := by
  obtain ⟨hi, rfl⟩ := List.getElem?_eq_some_iff.mp h
  exact (List.getElem_cons_eraseIdx_perm hi).symm

theorem pending_perm {tasks tasks' : List RefCountTask} (h : tasks.Perm tasks') (hash : Hash) :
    (pending delegate tasks).count hash = (pending delegate tasks').count hash :=
  (h.flatMap_right _).count_eq hash

theorem pending_cons (task : RefCountTask) (tasks : List RefCountTask) (hash : Hash) :
    (pending delegate (task :: tasks)).count hash =
      (targets delegate task).count hash + (pending delegate tasks).count hash := by
  rw [pending, List.flatMap_cons, List.count_append]
  rfl

theorem pending_changes (refs : List Hash) (delta : ℤ) (tasks : List RefCountTask) (hash : Hash) :
    (pending delegate (refs.map (.changeRefCount · delta) ++ tasks)).count hash =
      refs.count hash + (pending delegate tasks).count hash := by
  rw [pending, List.flatMap_append, List.count_append, List.flatMap_map]
  simp [targets, pending]

theorem refsOf_eq (hne : hash ≠ emptyHash) {refs : List Hash} (h : delegate.getRefs hash = some refs) :
    refsOf delegate hash = refs := by
  rw [refsOf, if_neg hne, h]
  rfl

theorem refsOf_of_not_hasRefs (h : ¬HasRefs delegate hash) : refsOf delegate hash = [] := by
  rw [refsOf]
  split
  · rfl
  · next hne =>
    have hnone : (delegate.getRefs hash).isSome = false := by simpa [HasRefs, hne] using h
    rw [Option.isSome_eq_false_iff, Option.isNone_iff_eq_none] at hnone
    rw [hnone]
    rfl

theorem load_eq (h : s.load delegate hash = .ok s') : ∃ value, delegate.getRefCount hash = .ok value ∧
    s' = { s with refCountUpdates := s.refCountUpdates.set hash (value.getD 0) } := by
  rw [load] at h
  cases hget : delegate.getRefCount hash with
  | error e =>
    rw [hget] at h
    cases h
  | ok value =>
    rw [hget] at h
    cases h
    exact ⟨value, rfl, rfl⟩

theorem load_count (hloads : Loads delegate stored) (hnone : s.refCountUpdates.get? hash = none)
    (h : s.load delegate hash = .ok s') (x : Hash) : count stored s' x = count stored s x := by
  obtain ⟨value, hget, rfl⟩ := load_eq h
  rw [count, count, OrderedMap.get?_set]
  split
  · next heq =>
    subst heq
    rw [hnone]
    exact hloads hash value hget
  · rfl

theorem load_keeps (h : s.load delegate hash = .ok s') :
    s'.tasks = s.tasks ∧ s'.phase = s.phase ∧ s'.refsCounted = s.refsCounted ∧ (s'.refCountUpdates.get? hash).isSome ∧
      ∀ x, (s.refCountUpdates.get? x).isSome → (s'.refCountUpdates.get? x).isSome := by
  obtain ⟨value, -, rfl⟩ := load_eq h
  refine ⟨rfl, rfl, rfl, by simp, fun x hx => ?_⟩
  rw [OrderedMap.get?_set]
  split
  · rfl
  · exact hx

/-- What a task does when it goes on. -/
inductive Ran (delegate : RefCountUpdatesDelegate) (stored : Hash → ℤ) (s : RefCountUpdates) : RefCountTask → List RefCountTask → RefCountUpdates → Prop
  | loaded {task : RefCountTask} {rest : List RefCountTask} {s' : RefCountUpdates}
      (count : ∀ x, count stored s' x = count stored s x) (tasks : s'.tasks = s.tasks)
      (refsCounted : s'.refsCounted = s.refsCounted) : Ran delegate stored s task rest s'
  | dropped {task : RefCountTask} {rest : List RefCountTask} {s' : RefCountUpdates}
      (count : ∀ x, count stored s' x = count stored s x) (tasks : s'.tasks = rest)
      (refsCounted : s'.refsCounted = s.refsCounted) (targets : targets delegate task = [])
      (norefs : ∀ hash delta, task = .updateRefsCounts hash delta → ¬HasRefs delegate hash) : Ran delegate stored s task rest s'
  | changed {hash : Hash} {delta : ℤ} {rest : List RefCountTask} {s' : RefCountUpdates}
      (count : ∀ x, count stored s' x = if hash = x then count stored s x + delta else count stored s x)
      (tasks : s'.tasks =
        if (RefCountUpdates.count stored s hash = 0 ∧ delta = 1) ∨ (RefCountUpdates.count stored s hash = 1 ∧ delta = -1)
        then .updateRefsCounts hash delta :: rest else rest)
      (refsCounted : s'.refsCounted = s.refsCounted) : Ran delegate stored s (.changeRefCount hash delta) rest s'
  | expanded {hash : Hash} {delta : ℤ} {rest : List RefCountTask} {s' : RefCountUpdates} (refs : HasRefs delegate hash)
      (count : ∀ x, count stored s' x = count stored s x)
      (tasks : s'.tasks = (refsOf delegate hash).map (.changeRefCount · delta) ++ rest)
      (refsCounted : s'.refsCounted = if delegate.areRefsCounted.isSome then hash :: s.refsCounted else s.refsCounted) :
      Ran delegate stored s (.updateRefsCounts hash delta) rest s'

theorem runTask_ran (hloads : Loads delegate stored) {task : RefCountTask} {rest : List RefCountTask}
    (h : s.runTask delegate putChunks task rest = .ok s') : Ran delegate stored s task rest s' := by
  cases task with
  | changeRefCount hash delta =>
    rw [runTask] at h
    split at h
    · next hnone =>
      obtain ⟨htasks, -, hrefs, -⟩ := load_keeps h
      exact .loaded (load_count hloads hnone h) htasks hrefs
    · next oldCount hsome =>
      have hold : count stored s hash = oldCount := by rw [count, hsome]; rfl
      have hset (x : Hash) : (s.refCountUpdates.set hash (oldCount + delta)).get? x =
          if hash = x then some (oldCount + delta) else s.refCountUpdates.get? x := OrderedMap.get?_set ..
      refine .changed (fun x => ?_) ?_ ?_
      · have hs' : s'.refCountUpdates = s.refCountUpdates.set hash (oldCount + delta) := by
          split at h <;> cases h <;> rfl
        rw [count, hs', hset]
        split
        · next heq =>
          subst heq
          rw [hold]
          rfl
        · rfl
      · rw [hold]
        split at h
        · next hcond =>
          cases h
          rw [if_pos hcond]
        · next hcond =>
          cases h
          rw [if_neg hcond]
      · split at h <;> cases h <;> rfl
  | updateRefsCounts hash delta =>
    rw [runTask] at h
    have hdrop (hno : ¬HasRefs delegate hash) (h : Except.ok (ε := RefCountError) { s with tasks := rest } = .ok s') :
        Ran delegate stored s (.updateRefsCounts hash delta) rest s' := by
      cases h
      refine .dropped (fun x => rfl) rfl rfl (refsOf_of_not_hasRefs hno) fun hash' delta' heq => ?_
      cases heq
      exact hno
    split at h
    · next heq => exact hdrop (fun hrefs => hrefs.1 heq) h
    · next hne =>
      split at h
      · next hnone =>
        split at h
        · exact hdrop (fun hrefs => absurd hrefs.2 (by simp [hnone])) h
        · cases h
      · next refs hsome =>
        cases h
        refine .expanded ⟨hne, by simp [hsome]⟩ (fun x => rfl) ?_ rfl
        rw [refsOf_eq hne hsome]
  | ensureRefCountLoaded hash =>
    rw [runTask] at h
    split at h
    · next hnone =>
      obtain ⟨htasks, -, hrefs, -⟩ := load_keeps h
      have hcount := load_count hloads (s := { s with tasks := rest }) hnone h
      exact .dropped hcount htasks hrefs rfl (by simp)
    · cases h
      exact .dropped (fun x => rfl) rfl rfl rfl (by simp)

/-! ## Counting up -/

/-- The counts of a store, before a write: those of the heads and of the refs
of the chunks that are counted. Refs that are known, but not counted, are of put chunks. -/
structure Counted (delegate : RefCountUpdatesDelegate) (stored : Hash → ℤ) (putChunks heads counted : List Hash) : Prop where
  loads : Loads delegate stored
  nodup : counted.Nodup
  mem : ∀ g, g ∈ counted ↔ 0 < stored g ∧ HasRefs delegate g ∧ AreRefsCounted delegate g
  count : ∀ h, stored h = heads.count h + (counted.flatMap (refsOf delegate)).count h
  discovered : ∀ g, 0 < stored g → HasRefs delegate g → ¬AreRefsCounted delegate g → g ∈ putChunks

variable {heads heads₀ counted E left : List Hash}

theorem Counted.nonneg (h : Counted delegate stored putChunks heads counted) (x : Hash) : 0 ≤ stored x := by
  rw [h.count]
  omega

/-- While `compute` counts up: `heads` are the old and the new heads, those of
`left` are still to come, and the chunks `E` have been found. -/
structure Counting (delegate : RefCountUpdatesDelegate) (stored : Hash → ℤ) (heads counted left E : List Hash) (s : RefCountUpdates) : Prop where
  balance : ∀ x, count stored s x + (pending delegate s.tasks).count x + left.count x =
    heads.count x + ((counted ++ E).flatMap (refsOf delegate)).count x
  up : ∀ t ∈ s.tasks, HasDelta 1 t
  nodup : (counted ++ E).Nodup
  mem : ∀ g ∈ E, HasRefs delegate g ∧ 0 < count stored s g
  grows : ∀ x, stored x ≤ count stored s x
  covers : ∀ g, HasRefs delegate g → stored g = 0 → 0 < count stored s g → g ∈ E
  updates : ∀ g delta, .updateRefsCounts g delta ∈ s.tasks → HasRefs delegate g → g ∈ E
  refsCounted : ∀ g ∈ s.refsCounted, g ∈ E
  pends : delegate.areRefsCounted.isSome → ∀ g ∈ E, g ∈ s.refsCounted ∨ ∃ delta, .updateRefsCounts g delta ∈ s.tasks

theorem flatMap_count_concat (l : List Hash) (g x : Hash) :
    ((l ++ [g]).flatMap (refsOf delegate)).count x = (l.flatMap (refsOf delegate)).count x + (refsOf delegate g).count x := by
  rw [List.flatMap_append, List.count_append, List.flatMap_singleton]

/-- **A task counts up.** -/
theorem Counting.ran (h : Counting delegate stored heads counted left E s) (hcounted : Counted delegate stored putChunks heads₀ counted)
    {task : RefCountTask} {rest : List RefCountTask} (hperm : s.tasks.Perm (task :: rest)) (hran : Ran delegate stored s task rest s') :
    ∃ E', Counting delegate stored heads counted left E' s' := by
  have hpending (x : Hash) : (pending delegate s.tasks).count x =
      (targets delegate task).count x + (pending delegate rest).count x := by
    rw [pending_perm hperm, pending_cons]
  have hup : HasDelta 1 task ∧ ∀ t ∈ rest, HasDelta 1 t :=
    List.forall_mem_cons.mp fun t ht => h.up t (hperm.mem_iff.mpr ht)
  have hrest {t : RefCountTask} (ht : t ∈ rest) : t ∈ s.tasks := hperm.mem_iff.mpr (List.mem_cons_of_mem _ ht)
  cases hran with
  | loaded hcount htasks hrefs =>
    refine ⟨E, ?_, ?_, h.nodup, ?_, ?_, ?_, ?_, ?_, ?_⟩
    all_goals simp only [hcount, htasks, hrefs]
    exacts [h.balance, h.up, h.mem, h.grows, h.covers, h.updates, h.refsCounted, h.pends]
  | dropped hcount htasks hrefs htargets hno =>
    refine ⟨E, ?_, ?_, h.nodup, ?_, ?_, ?_, ?_, ?_, ?_⟩
    all_goals simp only [hcount, htasks, hrefs]
    · intro x
      have hbalance := h.balance x
      rw [hpending, htargets, List.count_nil] at hbalance
      omega
    · exact hup.2
    · exact h.mem
    · exact h.grows
    · exact h.covers
    · exact fun g delta hg => h.updates g delta (hrest hg)
    · exact h.refsCounted
    · intro hlazy g hg
      refine (h.pends hlazy g hg).imp_right fun ⟨delta, hmem⟩ => ⟨delta, ?_⟩
      refine (List.mem_cons.mp (hperm.mem_iff.mp hmem)).resolve_left fun heq => ?_
      exact hno g delta heq.symm (h.mem g hg).1
  | @changed hash delta _ _ hcount htasks hrefs =>
    obtain rfl : delta = 1 := hup.1
    have hself := hcount hash
    rw [if_pos rfl] at hself
    have hother {x : Hash} (hx : hash ≠ x) : count stored s' x = count stored s x := by
      rw [hcount, if_neg hx]
    have hge (x : Hash) : count stored s x ≤ count stored s' x := by
      rw [hcount]
      split <;> omega
    have hbalance (x : Hash) : count stored s' x + (pending delegate rest).count x + left.count x =
        heads.count x + ((counted ++ E).flatMap (refsOf delegate)).count x := by
      have hb := h.balance x
      rw [hpending] at hb
      rw [hcount]
      split
      · next heq =>
        subst heq
        simp only [targets, List.count_singleton_self] at hb
        omega
      · next hne =>
        have hzero : [hash].count x = 0 := List.count_eq_zero.mpr (by simpa using Ne.symm hne)
        simp only [targets] at hb
        omega
    have hgrows (x : Hash) : stored x ≤ count stored s' x := (h.grows x).trans (hge x)
    by_cases hzero : count stored s hash = 0
    · -- The chunk has its first ref: its refs are to be counted.
      simp only [hzero, true_and, true_or, if_true] at htasks
      have hstored : stored hash = 0 :=
        le_antisymm (hzero ▸ h.grows hash) (hcounted.nonneg hash)
      have hnotE : hash ∉ E := fun hmem => by
        have hpos := (h.mem hash hmem).2
        omega
      have hnotK : hash ∉ counted := fun hmem => by
        have hpos := ((hcounted.mem hash).mp hmem).1
        omega
      by_cases hhas : HasRefs delegate hash
      · refine ⟨E ++ [hash], ?_, ?_, ?_, ?_, hgrows, ?_, ?_, ?_, ?_⟩
        · intro x
          have hb := hbalance x
          rw [htasks, pending_cons, ← List.append_assoc, flatMap_count_concat]
          simp only [targets]
          omega
        · rw [htasks]
          exact List.forall_mem_cons.mpr ⟨rfl, hup.2⟩
        · rw [← List.append_assoc]
          refine h.nodup.append (List.nodup_singleton _) ?_
          simp [hnotE, hnotK]
        · intro g hg
          rcases List.mem_append.mp hg with hg | hg
          · exact ⟨(h.mem g hg).1, (h.mem g hg).2.trans_le (hge g)⟩
          · obtain rfl := List.mem_singleton.mp hg
            exact ⟨hhas, by omega⟩
        · intro g hrefs hg hpos
          by_cases heq : hash = g
          · simp [heq]
          · rw [hother heq] at hpos
            exact List.mem_append_left _ (h.covers g hrefs hg hpos)
        · intro g delta hg hrefs
          rw [htasks] at hg
          rcases List.mem_cons.mp hg with heq | hg
          · cases heq
            simp
          · exact List.mem_append_left _ (h.updates g delta (hrest hg) hrefs)
        · rw [hrefs]
          exact fun g hg => List.mem_append_left _ (h.refsCounted g hg)
        · intro hlazy g hg
          rw [hrefs, htasks]
          rcases List.mem_append.mp hg with hg | hg
          · refine (h.pends hlazy g hg).imp_right fun ⟨delta, hmem⟩ => ⟨delta, List.mem_cons_of_mem _ ?_⟩
            exact (List.mem_cons.mp (hperm.mem_iff.mp hmem)).resolve_left nofun
          · obtain rfl := List.mem_singleton.mp hg
            exact .inr ⟨1, List.mem_cons_self ..⟩
      · have hnone := refsOf_of_not_hasRefs hhas
        refine ⟨E, ?_, ?_, h.nodup, fun g hg => ⟨(h.mem g hg).1, (h.mem g hg).2.trans_le (hge g)⟩, hgrows, ?_, ?_, ?_, ?_⟩
        · intro x
          have hb := hbalance x
          rw [htasks, pending_cons]
          simp only [targets, hnone, List.count_nil]
          omega
        · rw [htasks]
          exact List.forall_mem_cons.mpr ⟨rfl, hup.2⟩
        · intro g hrefs hg hpos
          have hne : hash ≠ g := fun heq => hhas (heq ▸ hrefs)
          rw [hother hne] at hpos
          exact h.covers g hrefs hg hpos
        · intro g delta hg hrefs
          rw [htasks] at hg
          rcases List.mem_cons.mp hg with heq | hg
          · cases heq
            exact absurd hrefs hhas
          · exact h.updates g delta (hrest hg) hrefs
        · rw [hrefs]
          exact h.refsCounted
        · intro hlazy g hg
          rw [hrefs, htasks]
          refine (h.pends hlazy g hg).imp_right fun ⟨delta, hmem⟩ => ⟨delta, List.mem_cons_of_mem _ ?_⟩
          exact (List.mem_cons.mp (hperm.mem_iff.mp hmem)).resolve_left nofun
    · have hcond : ¬((count stored s hash = 0 ∧ (1 : ℤ) = 1) ∨ (count stored s hash = 1 ∧ (1 : ℤ) = -1)) := by
        omega
      rw [if_neg hcond] at htasks
      refine ⟨E, ?_, ?_, h.nodup, fun g hg => ⟨(h.mem g hg).1, (h.mem g hg).2.trans_le (hge g)⟩, hgrows, ?_, ?_, ?_, ?_⟩
      · rw [htasks]
        exact hbalance
      · rw [htasks]
        exact hup.2
      · intro g hrefs hg hpos
        refine h.covers g hrefs hg ?_
        by_cases heq : hash = g
        · subst heq
          have hle := h.grows hash
          omega
        · rwa [hother heq] at hpos
      · intro g delta hg hrefs
        rw [htasks] at hg
        exact h.updates g delta (hrest hg) hrefs
      · rw [hrefs]
        exact h.refsCounted
      · intro hlazy g hg
        rw [hrefs, htasks]
        refine (h.pends hlazy g hg).imp_right fun ⟨delta, hmem⟩ => ⟨delta, ?_⟩
        exact (List.mem_cons.mp (hperm.mem_iff.mp hmem)).resolve_left nofun
  | @expanded hash delta _ _ hhas hcount htasks hrefs =>
    obtain rfl : delta = 1 := hup.1
    have hmemE : hash ∈ E := h.updates hash 1 (hperm.mem_iff.mpr (List.mem_cons_self ..)) hhas
    refine ⟨E, ?_, ?_, h.nodup, ?_, ?_, ?_, ?_, ?_, ?_⟩
    · intro x
      have hb := h.balance x
      rw [hpending] at hb
      rw [hcount, htasks, pending_changes]
      exact hb
    · rw [htasks]
      intro t ht
      rcases List.mem_append.mp ht with ht | ht
      · obtain ⟨r, -, rfl⟩ := List.mem_map.mp ht
        rfl
      · exact hup.2 t ht
    · simpa only [hcount] using h.mem
    · simpa only [hcount] using h.grows
    · simpa only [hcount] using h.covers
    · intro g delta hg hgrefs
      rw [htasks] at hg
      rcases List.mem_append.mp hg with hg | hg
      · obtain ⟨r, -, heq⟩ := List.mem_map.mp hg
        cases heq
      · exact h.updates g delta (hrest hg) hgrefs
    · rw [hrefs]
      intro g hg
      split at hg
      · rcases List.mem_cons.mp hg with rfl | hg
        · exact hmemE
        · exact h.refsCounted g hg
      · exact h.refsCounted g hg
    · intro hlazy g hg
      rw [hrefs, if_pos hlazy, htasks]
      rcases h.pends hlazy g hg with hc | ⟨delta, hmem⟩
      · exact .inl (List.mem_cons_of_mem _ hc)
      · rcases List.mem_cons.mp (hperm.mem_iff.mp hmem) with heq | hmem
        · cases heq
          exact .inl (List.mem_cons_self ..)
        · exact .inr ⟨delta, List.mem_append_right _ hmem⟩

/-! ## Counting down -/

/-- While `compute` counts down: `heads` are those there will be, `left` the
old ones still to come, and the refs of the chunks `K` are counted. -/
structure Discounting (delegate : RefCountUpdatesDelegate) (stored : Hash → ℤ) (heads K left : List Hash) (s : RefCountUpdates) : Prop where
  balance : ∀ x, count stored s x = heads.count x + left.count x + (K.flatMap (refsOf delegate)).count x +
    (pending delegate s.tasks).count x
  down : ∀ t ∈ s.tasks, HasDelta (-1) t
  nodup : K.Nodup
  mem : ∀ g, g ∈ K ↔ 0 < count stored s g ∧ HasRefs delegate g

variable {K : List Hash}

theorem Discounting.nonneg (h : Discounting delegate stored heads K left s) (x : Hash) : 0 ≤ count stored s x := by
  rw [h.balance]
  omega

/-- **A task counts down.** -/
theorem Discounting.ran (h : Discounting delegate stored heads K left s) {task : RefCountTask} {rest : List RefCountTask}
    (hperm : s.tasks.Perm (task :: rest)) (hran : Ran delegate stored s task rest s') :
    ∃ K', Discounting delegate stored heads K' left s' := by
  have hpending (x : Hash) : (pending delegate s.tasks).count x =
      (targets delegate task).count x + (pending delegate rest).count x := by
    rw [pending_perm hperm, pending_cons]
  have hdown : HasDelta (-1) task ∧ ∀ t ∈ rest, HasDelta (-1) t :=
    List.forall_mem_cons.mp fun t ht => h.down t (hperm.mem_iff.mpr ht)
  cases hran with
  | loaded hcount htasks hrefs =>
    refine ⟨K, ?_, ?_, h.nodup, ?_⟩
    all_goals simp only [hcount, htasks]
    exacts [h.balance, h.down, h.mem]
  | dropped hcount htasks hrefs htargets hno =>
    refine ⟨K, ?_, ?_, h.nodup, ?_⟩
    all_goals simp only [hcount, htasks]
    · intro x
      have hbalance := h.balance x
      rw [hpending, htargets, List.count_nil] at hbalance
      omega
    · exact hdown.2
    · exact h.mem
  | @changed hash delta _ _ hcount htasks hrefs =>
    obtain rfl : delta = -1 := hdown.1
    have hself := hcount hash
    rw [if_pos rfl] at hself
    have hother {x : Hash} (hx : hash ≠ x) : count stored s' x = count stored s x := by
      rw [hcount, if_neg hx]
    have hbalance (x : Hash) : count stored s' x = heads.count x + left.count x +
        (K.flatMap (refsOf delegate)).count x + (pending delegate rest).count x := by
      have hb := h.balance x
      rw [hpending] at hb
      rw [hcount]
      split
      · next heq =>
        subst heq
        simp only [targets, List.count_singleton_self] at hb
        omega
      · next hne =>
        have hzero : [hash].count x = 0 := List.count_eq_zero.mpr (by simpa using Ne.symm hne)
        simp only [targets] at hb
        omega
    have hpos : 0 ≤ count stored s' hash := by
      rw [hbalance]
      omega
    by_cases hone : count stored s hash = 1
    · -- The chunk lost its last ref: its refs are not counted any more.
      rw [if_pos (.inr ⟨hone, rfl⟩)] at htasks
      have hdowns : ∀ t ∈ s'.tasks, HasDelta (-1) t := by
        rw [htasks]
        exact List.forall_mem_cons.mpr ⟨rfl, hdown.2⟩
      by_cases hhas : HasRefs delegate hash
      · have hmem : hash ∈ K := (h.mem hash).mpr ⟨by omega, hhas⟩
        refine ⟨K.erase hash, ?_, hdowns, h.nodup.erase _, fun g => ?_⟩
        · intro x
          have hb := hbalance x
          have hsplit := ((List.perm_cons_erase hmem).flatMap_right (refsOf delegate)).count_eq x
          rw [List.flatMap_cons, List.count_append] at hsplit
          rw [htasks, pending_cons]
          simp only [targets]
          omega
        · rw [h.nodup.mem_erase_iff, h.mem]
          by_cases heq : hash = g
          · subst heq
            have hzero : ¬0 < count stored s' hash := by omega
            simp [hzero]
          · simp [hother heq, Ne.symm heq]
      · have hnone := refsOf_of_not_hasRefs hhas
        refine ⟨K, ?_, hdowns, h.nodup, fun g => ?_⟩
        · intro x
          have hb := hbalance x
          rw [htasks, pending_cons]
          simp only [targets, hnone, List.count_nil]
          omega
        · rw [h.mem]
          by_cases heq : hash = g
          · subst heq
            simp [hhas]
          · rw [hother heq]
    · have hcond : ¬((count stored s hash = 0 ∧ (-1 : ℤ) = 1) ∨ (count stored s hash = 1 ∧ (-1 : ℤ) = -1)) := by
        omega
      rw [if_neg hcond] at htasks
      refine ⟨K, ?_, ?_, h.nodup, fun g => ?_⟩
      · rw [htasks]
        exact hbalance
      · rw [htasks]
        exact hdown.2
      · rw [h.mem]
        refine and_congr_left fun _ => ?_
        by_cases heq : hash = g
        · subst heq
          omega
        · rw [hother heq]
  | @expanded hash delta _ _ hhas hcount htasks hrefs =>
    obtain rfl : delta = -1 := hdown.1
    refine ⟨K, ?_, ?_, h.nodup, ?_⟩
    · intro x
      have hb := h.balance x
      rw [hpending] at hb
      rw [hcount, htasks, pending_changes]
      exact hb
    · rw [htasks]
      intro t ht
      rcases List.mem_append.mp ht with ht | ht
      · obtain ⟨r, -, rfl⟩ := List.mem_map.mp ht
        rfl
      · exact hdown.2 t ht
    · simpa only [hcount] using h.mem

/-! ## Runs of `compute` -/

/-- The count of a hash has been loaded. -/
def Loaded (s : RefCountUpdates) (hash : Hash) : Prop := (s.refCountUpdates.get? hash).isSome

theorem runTask_keeps {task : RefCountTask} {rest : List RefCountTask} (hperm : s.tasks.Perm (task :: rest))
    (h : s.runTask delegate putChunks task rest = .ok s') :
    s'.phase = s.phase ∧ (∀ x, s.Loaded x → s'.Loaded x) ∧
      ∀ x, .ensureRefCountLoaded x ∈ s.tasks → s'.Loaded x ∨ .ensureRefCountLoaded x ∈ s'.tasks := by
  have hsplit {x : Hash} (hx : .ensureRefCountLoaded x ∈ s.tasks) (hne : RefCountTask.ensureRefCountLoaded x ≠ task) :
      .ensureRefCountLoaded x ∈ rest := (List.mem_cons.mp (hperm.mem_iff.mp hx)).resolve_left hne
  cases task with
  | changeRefCount hash delta =>
    rw [runTask] at h
    split at h
    · next hnone =>
      obtain ⟨htasks, hphase, -, -, hkeep⟩ := load_keeps h
      exact ⟨hphase, hkeep, fun x hx => .inr (htasks ▸ hx)⟩
    · next oldCount hsome =>
      have hkeep : ∀ x, s.Loaded x → ((s.refCountUpdates.set hash (oldCount + delta)).get? x).isSome := by
        intro x hx
        rw [OrderedMap.get?_set]
        split
        · rfl
        · exact hx
      split at h <;> cases h
      · exact ⟨rfl, hkeep, fun x hx => .inr (List.mem_cons_of_mem _ (hsplit hx (by simp)))⟩
      · exact ⟨rfl, hkeep, fun x hx => .inr (hsplit hx (by simp))⟩
  | updateRefsCounts hash delta =>
    rw [runTask] at h
    split at h
    · cases h
      exact ⟨rfl, fun _ hx => hx, fun x hx => .inr (hsplit hx (by simp))⟩
    · split at h
      · split at h
        · cases h
          exact ⟨rfl, fun _ hx => hx, fun x hx => .inr (hsplit hx (by simp))⟩
        · cases h
      · cases h
        exact ⟨rfl, fun _ hx => hx, fun x hx => .inr (List.mem_append_right _ (hsplit hx (by simp)))⟩
  | ensureRefCountLoaded hash =>
    rw [runTask] at h
    split at h
    · next hnone =>
      obtain ⟨htasks, hphase, -, hloaded, hkeep⟩ := load_keeps h
      refine ⟨hphase, hkeep, fun x hx => ?_⟩
      by_cases heq : x = hash
      · exact .inl (heq ▸ hloaded)
      · refine .inr (htasks ▸ hsplit hx fun hcongr => ?_)
        cases hcongr
        exact heq rfl
    · next hsome =>
      cases h
      refine ⟨rfl, fun _ hx => hx, fun x hx => ?_⟩
      by_cases heq : x = hash
      · left
        rw [heq, Loaded, hsome]
        rfl
      · refine .inr (hsplit hx fun hcongr => ?_)
        cases hcongr
        exact heq rfl

/-- What holds between the steps of `compute`, where it stands. -/
def Exact (delegate : RefCountUpdatesDelegate) (stored : Hash → ℤ) (putChunks allHeads newHeads counted : List Hash) (s : RefCountUpdates) :
    Prop :=
  match s.phase with
  | .newHeads left => ∃ E, Counting delegate stored allHeads counted left E s
  | .putChunks => (∃ E, Counting delegate stored allHeads counted [] E s) ∧
      ∀ x ∈ putChunks, s.Loaded x ∨ .ensureRefCountLoaded x ∈ s.tasks
  | .oldHeads left => (∃ K, Discounting delegate stored newHeads K left s) ∧ ∀ x ∈ putChunks, s.Loaded x
  | .done => (∃ K, Discounting delegate stored newHeads K [] s) ∧ s.tasks = [] ∧ ∀ x ∈ putChunks, s.Loaded x

/-- The heads before and after a write, and those it changes. -/
structure HeadsChange (headChanges : List HeadChange) (heads₀ heads : List Hash) : Prop where
  count : ∀ x, heads₀.count x + (newHeads headChanges).count x = heads.count x + (oldHeads headChanges).count x

variable {headChanges : List HeadChange}

theorem start_exact (hcounted : Counted delegate stored putChunks heads₀ counted) :
    Exact delegate stored putChunks (heads₀ ++ newHeads headChanges) heads counted (start headChanges) := by
  have hcount (x : Hash) : count stored (start headChanges) x = stored x := rfl
  refine ⟨[], fun x => ?_, List.forall_mem_nil _, ?_, List.forall_mem_nil _, fun x => le_of_eq rfl, ?_, nofun, nofun, nofun⟩
  · rw [hcount, hcounted.count, List.append_nil, List.count_append]
    simp only [start, pending, List.flatMap_nil, List.count_nil]
    omega
  · rw [List.append_nil]
    exact hcounted.nodup
  · intro g _ hzero hpos
    rw [hcount, hzero] at hpos
    exact absurd hpos (lt_irrefl 0)

theorem Counting.discounting (h : Counting delegate stored (heads₀ ++ newHeads headChanges) counted [] E s)
    (hcounted : Counted delegate stored putChunks heads₀ counted) (hheads : HeadsChange headChanges heads₀ heads)
    (htasks : s.tasks = []) (hnone : s.uncounted delegate putChunks = none) :
    Discounting delegate stored heads (counted ++ E) (oldHeads headChanges) s := by
  refine ⟨fun x => ?_, by simp [htasks], h.nodup, fun g => ⟨fun hg => ?_, fun ⟨hpos, hrefs⟩ => ?_⟩⟩
  · have hbalance := h.balance x
    have hchange := hheads.count x
    rw [htasks] at hbalance ⊢
    simp only [pending, List.flatMap_nil, List.count_nil, List.count_append] at hbalance ⊢
    omega
  · rcases List.mem_append.mp hg with hg | hg
    · obtain ⟨hpos, hrefs, -⟩ := (hcounted.mem g).mp hg
      exact ⟨hpos.trans_le (h.grows g), hrefs⟩
    · exact (h.mem g hg).symm
  · rcases (hcounted.nonneg g).eq_or_lt with hzero | hstored
    · exact List.mem_append_right _ (h.covers g hrefs hzero.symm hpos)
    by_cases hare : AreRefsCounted delegate g
    · exact List.mem_append_left _ ((hcounted.mem g).mpr ⟨hstored, hrefs, hare⟩)
    have hput := hcounted.discovered g hstored hrefs hare
    cases hlazy : delegate.areRefsCounted with
    | none => exact absurd (by rw [AreRefsCounted, hlazy]; rfl) hare
    | some areRefsCounted =>
      simp only [AreRefsCounted, hlazy, Option.all_some, Bool.not_eq_true] at hare
      simp only [uncounted, hlazy, List.find?_eq_none] at hnone
      have hfound := hnone g hput
      simp only [hare, Bool.not_false, Bool.true_and, Bool.and_eq_true, decide_eq_true_eq, not_and, not_not] at hfound
      by_cases hmem : g ∈ s.refsCounted
      · exact List.mem_append_right _ (h.refsCounted g hmem)
      · rw [count, hfound hmem] at hpos
        exact absurd hpos (lt_irrefl 0)

theorem Counting.uncounted (h : Counting delegate stored heads counted [] E s) (hcounted : Counted delegate stored putChunks heads₀ counted)
    (htasks : s.tasks = []) (hloaded : ∀ x ∈ putChunks, s.Loaded x) (hsome : s.uncounted delegate putChunks = some hash) :
    ∃ E', Counting delegate stored heads counted [] E' { s with tasks := [.updateRefsCounts hash 1] } := by
  obtain ⟨areRefsCounted, hlazy⟩ : ∃ f, delegate.areRefsCounted = some f := by
    cases hlazy : delegate.areRefsCounted with
    | none => simp [RefCountUpdates.uncounted, hlazy] at hsome
    | some f => exact ⟨f, rfl⟩
  simp only [RefCountUpdates.uncounted, hlazy] at hsome
  have hput := List.mem_of_find?_eq_some hsome
  have hfound := List.find?_some hsome
  simp only [Bool.and_eq_true, Bool.not_eq_true', decide_eq_true_eq] at hfound
  obtain ⟨⟨hare, hnotCounted⟩, hne⟩ := hfound
  have hpends (g : Hash) (hg : g ∈ E) : g ∈ s.refsCounted := by
    rcases h.pends (by simp [hlazy]) g hg with hmem | ⟨delta, hmem⟩
    · exact hmem
    · rw [htasks] at hmem
      cases hmem
  have hpos : 0 < count stored s hash := by
    have hge := (hcounted.nonneg hash).trans (h.grows hash)
    obtain ⟨value, hvalue⟩ := Option.isSome_iff_exists.mp (hloaded hash hput)
    rw [hvalue] at hne
    rw [count, hvalue] at hge ⊢
    exact lt_of_le_of_ne hge fun hzero => hne (congrArg some hzero.symm)
  have hbalance (x : Hash) : count stored s x = heads.count x + ((counted ++ E).flatMap (refsOf delegate)).count x := by
    have hb := h.balance x
    rw [htasks] at hb
    simpa [pending] using hb
  by_cases hhas : HasRefs delegate hash
  · refine ⟨E ++ [hash], fun x => ?_, ?_, ?_, ?_, h.grows, fun g hrefs hzero hg => ?_, fun g delta hg _ => ?_,
      fun g hg => List.mem_append_left _ (h.refsCounted g hg), fun _ g hg => ?_⟩
    · have hb := hbalance x
      rw [pending_cons, ← List.append_assoc, flatMap_count_concat]
      simp only [targets, pending, List.flatMap_nil, List.count_nil]
      change count stored s x + _ + _ = _
      omega
    · exact List.forall_mem_singleton.mpr rfl
    · rw [← List.append_assoc]
      refine h.nodup.append (List.nodup_singleton _) ?_
      have hnotK : hash ∉ counted := fun hmem => by
        have hcountedBefore := ((hcounted.mem hash).mp hmem).2.2
        rw [AreRefsCounted, hlazy, Option.all_some, hare] at hcountedBefore
        cases hcountedBefore
      have hnotE : hash ∉ E := fun hmem => hnotCounted (hpends hash hmem)
      simp [hnotK, hnotE]
    · intro g hg
      rcases List.mem_append.mp hg with hg | hg
      · exact h.mem g hg
      · obtain rfl := List.mem_singleton.mp hg
        exact ⟨hhas, hpos⟩
    · exact List.mem_append_left _ (h.covers g hrefs hzero hg)
    · cases List.mem_singleton.mp hg
      exact List.mem_append_right _ (List.mem_singleton_self _)
    · rcases List.mem_append.mp hg with hg | hg
      · exact .inl (hpends g hg)
      · obtain rfl := List.mem_singleton.mp hg
        exact .inr ⟨1, List.mem_singleton_self _⟩
  · refine ⟨E, fun x => ?_, List.forall_mem_singleton.mpr rfl, h.nodup, h.mem, h.grows, h.covers,
      fun g delta hg hrefs => ?_, h.refsCounted, fun _ g hg => .inl (hpends g hg)⟩
    · have hb := hbalance x
      rw [pending_cons]
      simp only [targets, refsOf_of_not_hasRefs hhas, pending, List.flatMap_nil, List.count_nil]
      change count stored s x + _ + _ = _
      omega
    · cases List.mem_singleton.mp hg
      exact absurd hrefs hhas

/-- What `compute` waits for next is a head, whose count goes up or down. -/
theorem pending_change (delta : ℤ) (x : Hash) : (pending delegate [.changeRefCount hash delta]).count x = [hash].count x := by
  rw [pending_cons]
  rfl

theorem Counting.phase (h : Counting delegate stored heads counted left E s) (phase : RefCountPhase) :
    Counting delegate stored heads counted left E { s with phase := phase } :=
  ⟨h.balance, h.up, h.nodup, h.mem, h.grows, h.covers, h.updates, h.refsCounted, h.pends⟩

theorem Discounting.phase (h : Discounting delegate stored heads K left s) (phase : RefCountPhase) :
    Discounting delegate stored heads K left { s with phase := phase } :=
  ⟨h.balance, h.down, h.nodup, h.mem⟩

/-- What `compute` does next keeps the counts exact. -/
theorem advance_exact_counts (hcounted : Counted delegate stored putChunks heads₀ counted)
    (hheads : HeadsChange headChanges heads₀ heads) (htasks : s.tasks = [])
    (hexact : Exact delegate stored putChunks (heads₀ ++ newHeads headChanges) heads counted s) :
    ∃ s', s.advance delegate putChunks (oldHeads headChanges) = .ok s' ∧
      Exact delegate stored putChunks (heads₀ ++ newHeads headChanges) heads counted s' := by
  rw [advance]
  rw [Exact] at hexact
  cases hphase : s.phase with
  | newHeads left =>
    rw [hphase] at hexact
    obtain ⟨E, h⟩ := hexact
    have hpends (hlazy : delegate.areRefsCounted.isSome) (g : Hash) (hg : g ∈ E) : g ∈ s.refsCounted := by
      refine (h.pends hlazy g hg).resolve_right fun ⟨delta, hmem⟩ => ?_
      rw [htasks] at hmem
      cases hmem
    cases left with
    | nil =>
      refine ⟨_, rfl, ⟨E, fun x => ?_, ?_, h.nodup, h.mem, h.grows, h.covers, ?_, h.refsCounted,
        fun hlazy g hg => .inl (hpends hlazy g hg)⟩, fun x hx => .inr (List.mem_map_of_mem hx)⟩
      · have hbalance := h.balance x
        have hnone : pending delegate (putChunks.map .ensureRefCountLoaded) = [] := by simp [pending, targets]
        rw [htasks] at hbalance
        rw [hnone]
        exact hbalance
      · intro t ht
        obtain ⟨x, -, rfl⟩ := List.mem_map.mp ht
        trivial
      · intro g delta hg
        obtain ⟨x, -, heq⟩ := List.mem_map.mp hg
        cases heq
    | cons n left =>
      refine ⟨_, rfl, E, fun x => ?_, List.forall_mem_singleton.mpr rfl, h.nodup, h.mem, h.grows, h.covers, ?_,
        h.refsCounted, fun hlazy g hg => .inl (hpends hlazy g hg)⟩
      · have hbalance := h.balance x
        have hsplit : ([n] ++ left).count x = [n].count x + left.count x := List.count_append
        rw [List.singleton_append] at hsplit
        rw [htasks, hsplit] at hbalance
        rw [pending_change]
        simp only [pending, List.flatMap_nil, List.count_nil] at hbalance
        change count stored s x + _ + _ = _
        omega
      · intro g delta hg
        cases List.mem_singleton.mp hg
  | putChunks =>
    rw [hphase] at hexact
    obtain ⟨⟨E, h⟩, hloads⟩ := hexact
    have hloaded (x : Hash) (hx : x ∈ putChunks) : s.Loaded x := by
      refine (hloads x hx).resolve_right fun hmem => ?_
      rw [htasks] at hmem
      cases hmem
    cases hsome : s.uncounted delegate putChunks with
    | some hash =>
      obtain ⟨E', h⟩ := h.uncounted hcounted htasks hloaded hsome
      exact ⟨_, rfl, ⟨E', h.phase _⟩, fun x hx => .inl (hloaded x hx)⟩
    | none => exact ⟨_, rfl, ⟨_, (h.discounting hcounted hheads htasks hsome).phase _⟩, hloaded⟩
  | oldHeads left =>
    rw [hphase] at hexact
    obtain ⟨⟨K, h⟩, hloaded⟩ := hexact
    cases left with
    | nil =>
      have hall : s.refCountUpdates.values.all (· ≥ 0) = true := by
        refine List.all_eq_true.mpr fun value hvalue => ?_
        obtain ⟨x, hx⟩ := (OrderedMap.mem_values_iff ..).mp hvalue
        have hge := h.nonneg x
        rw [count, hx] at hge
        exact decide_eq_true hge
      simp only [hall, if_true]
      exact ⟨_, rfl, ⟨K, h.phase _⟩, htasks, hloaded⟩
    | cons o left =>
      refine ⟨_, rfl, ⟨K, fun x => ?_, List.forall_mem_singleton.mpr rfl, h.nodup, h.mem⟩, hloaded⟩
      have hbalance := h.balance x
      have hsplit : ([o] ++ left).count x = [o].count x + left.count x := List.count_append
      rw [List.singleton_append] at hsplit
      rw [htasks, hsplit] at hbalance
      rw [pending_change]
      simp only [pending, List.flatMap_nil, List.count_nil] at hbalance
      change count stored s x = _
      omega
  | done =>
    rw [hphase] at hexact
    refine ⟨_, rfl, ?_⟩
    rw [Exact, hphase]
    exact hexact

theorem runTask_not_negative (hcounted : ∀ x, delegate.getRefCount x ≠ .error .negative) (task : RefCountTask)
    (rest : List RefCountTask) : s.runTask delegate putChunks task rest ≠ .error .negative := by
  have hload (s : RefCountUpdates) (x : Hash) (h : s.load delegate x = .error .negative) : False := by
    rw [load] at h
    cases hget : delegate.getRefCount x with
    | error e =>
      rw [hget] at h
      cases h
      exact hcounted x hget
    | ok value =>
      rw [hget] at h
      cases h
  cases task with
  | changeRefCount hash delta =>
    rw [runTask]
    split
    · exact hload _ _
    · dsimp only
      split <;> nofun
  | updateRefsCounts hash delta =>
    rw [runTask]
    split
    · nofun
    · split
      · split <;> nofun
      · nofun
  | ensureRefCountLoaded hash =>
    rw [runTask]
    split
    · exact hload _ _
    · nofun

/-- **A step of `compute` keeps the counts exact**, and does not find a negative one. -/
theorem step_exact (hcounted : Counted delegate stored putChunks heads₀ counted) (hheads : HeadsChange headChanges heads₀ heads)
    (hget : ∀ x, delegate.getRefCount x ≠ .error .negative)
    (hexact : Exact delegate stored putChunks (heads₀ ++ newHeads headChanges) heads counted s) (choice : ℕ) :
    s.step delegate putChunks (oldHeads headChanges) choice ≠ .error .negative ∧
      ∀ s', s.step delegate putChunks (oldHeads headChanges) choice = .ok s' →
        Exact delegate stored putChunks (heads₀ ++ newHeads headChanges) heads counted s' := by
  rw [step]
  split
  · next htasks =>
    obtain ⟨s', h, hexact'⟩ := advance_exact_counts hcounted hheads htasks hexact
    rw [h]
    refine ⟨nofun, fun s'' heq => ?_⟩
    cases heq
    exact hexact'
  · next hne =>
    split
    · refine ⟨nofun, fun s' heq => ?_⟩
      cases heq
      exact hexact
    · next task htask =>
      refine ⟨runTask_not_negative hget _ _, fun s' h => ?_⟩
      have hperm := perm_eraseIdx htask
      have hran := runTask_ran hcounted.loads h
      obtain ⟨hphase', hkeep, hloads'⟩ := runTask_keeps hperm h
      rw [Exact] at hexact ⊢
      rw [hphase']
      cases hphase : s.phase with
      | newHeads left =>
        rw [hphase] at hexact
        obtain ⟨E, h⟩ := hexact
        exact h.ran hcounted hperm hran
      | putChunks =>
        rw [hphase] at hexact
        obtain ⟨⟨E, h⟩, hloads⟩ := hexact
        refine ⟨h.ran hcounted hperm hran, fun x hx => ?_⟩
        exact (hloads x hx).elim (fun hx => .inl (hkeep x hx)) (hloads' x)
      | oldHeads left =>
        rw [hphase] at hexact
        obtain ⟨⟨K, h⟩, hloaded⟩ := hexact
        exact ⟨h.ran hperm hran, fun x hx => hkeep x (hloaded x hx)⟩
      | done =>
        rw [hphase] at hexact
        exact absurd hexact.2.1 (by simpa using hne)

/-- **Along any schedule the counts stay exact**, and none is found negative. -/
theorem run_exact (hcounted : Counted delegate stored putChunks heads₀ counted) (hheads : HeadsChange headChanges heads₀ heads)
    (hget : ∀ x, delegate.getRefCount x ≠ .error .negative) (schedule : List ℕ) :
    run delegate putChunks headChanges schedule ≠ .error .negative ∧
      ∀ s, run delegate putChunks headChanges schedule = .ok s →
        Exact delegate stored putChunks (heads₀ ++ newHeads headChanges) heads counted s := by
  induction schedule using List.reverseRecOn with
  | nil =>
    refine ⟨nofun, fun s h => ?_⟩
    cases h
    exact start_exact hcounted
  | append_singleton schedule choice ih =>
    obtain ⟨hne, hall⟩ := ih
    cases hrun : run delegate putChunks headChanges schedule with
    | error e =>
      have herror : run delegate putChunks headChanges (schedule ++ [choice]) = .error e := by
        rw [run, List.foldlM_append]
        rw [run] at hrun
        rw [hrun]
        rfl
      rw [herror, ← hrun]
      exact ⟨hne, hall⟩
    | ok s =>
      have hstep : run delegate putChunks headChanges (schedule ++ [choice]) =
          s.step delegate putChunks (oldHeads headChanges) choice := by
        rw [run, List.foldlM_append]
        rw [run] at hrun
        rw [hrun]
        change s.step delegate putChunks (oldHeads headChanges) choice >>= pure = _
        exact bind_pure _
      rw [hstep]
      exact step_exact hcounted hheads hget (hall s hrun) choice

/-- **No count is negative**, at any moment. -/
theorem Exact.nonneg (h : Exact delegate stored putChunks (heads₀ ++ newHeads headChanges) heads counted s)
    (hcounted : Counted delegate stored putChunks heads₀ counted) (x : Hash) : 0 ≤ count stored s x := by
  rw [Exact] at h
  split at h
  · obtain ⟨E, h⟩ := h
    exact (hcounted.nonneg x).trans (h.grows x)
  · obtain ⟨⟨E, h⟩, -⟩ := h
    exact (hcounted.nonneg x).trans (h.grows x)
  · obtain ⟨⟨K, h⟩, -⟩ := h
    exact h.nonneg x
  · obtain ⟨⟨K, h⟩, -⟩ := h
    exact h.nonneg x

/-- **When `compute` is done**, the counts are those of the heads there are now
and of the refs of the chunks that have a count. -/
theorem Exact.done (h : Exact delegate stored putChunks (heads₀ ++ newHeads headChanges) heads counted s) (hdone : s.phase = .done) :
    (∃ K : List Hash, K.Nodup ∧ (∀ g, g ∈ K ↔ 0 < count stored s g ∧ HasRefs delegate g) ∧
      ∀ x, count stored s x = heads.count x + (K.flatMap (refsOf delegate)).count x) ∧
      ∀ x ∈ putChunks, s.Loaded x := by
  rw [Exact, hdone] at h
  obtain ⟨⟨K, h⟩, htasks, hloaded⟩ := h
  refine ⟨⟨K, h.nodup, h.mem, fun x => ?_⟩, hloaded⟩
  have hbalance := h.balance x
  rw [htasks] at hbalance
  simpa [pending] using hbalance

end RefCountUpdates

end ZeroSync
