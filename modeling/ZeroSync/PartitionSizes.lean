/-
The sizes of the groups that `partition` makes: which of them reach `min`, and which are
above `max` (`partition_sizes`).
-/
import ZeroSync.BTreeWriteNodes

namespace ZeroSync

namespace NodeImpl

variable {α : Type} {getSizeOfEntry : α → ℚ} {min max : ℚ}

/-- The size of a group. -/
def groupSize (getSizeOfEntry : α → ℚ) (group : List α) : ℚ := (group.map getSizeOfEntry).sum

theorem groupSize_append (a b : List α) :
    groupSize getSizeOfEntry (a ++ b) = groupSize getSizeOfEntry a + groupSize getSizeOfEntry b := by
  simp [groupSize]

theorem groupSize_singleton {value : α} : groupSize getSizeOfEntry [value] = getSizeOfEntry value := by
  simp [groupSize]

/-- A group above `max` is of one value, or was below `min` without its last. -/
def Capped (getSizeOfEntry : α → ℚ) (min max : ℚ) (group : List α) : Prop :=
  max < groupSize getSizeOfEntry group → group.length = 1 ∨ groupSize getSizeOfEntry group.dropLast < min

/-- What follows a group does not begin with a group of one value of size `max` or more. -/
def NotFlushed (getSizeOfEntry : α → ℚ) (max : ℚ) (after : List (List α)) : Prop :=
  ∀ value rest, after = [value] :: rest → getSizeOfEntry value < max

/-- Every group that was not flushed for the next one reaches `min`. -/
def Filled (getSizeOfEntry : α → ℚ) (min max : ℚ) (groups : List (List α)) : Prop :=
  ∀ before group after, groups = before ++ group :: after → NotFlushed getSizeOfEntry max after →
    min ≤ groupSize getSizeOfEntry group

/-- The groups made so far, the one held back too. -/
def Partitioning.groups (p : Partitioning α) : List (List α) := p.results ++ (p.lastPartition.map (·.1)).toList

theorem Partitioning.groups_commitLast (p : Partitioning α) : p.commitLast.results = p.groups := by
  unfold commitLast groups
  cases p.lastPartition with
  | none => simp
  | some part => rfl

theorem append_singleton_split {groups before after : List (List α)} {last group : List α}
    (h : groups ++ [last] = before ++ group :: after) :
    (after = [] ∧ group = last ∧ before = groups) ∨
      ∃ after', after = after' ++ [last] ∧ groups = before ++ group :: after' := by
  rcases List.eq_nil_or_concat' after with rfl | ⟨after', x, rfl⟩
  · obtain ⟨hgroups, hlast⟩ := List.append_inj' h rfl
    exact .inl ⟨rfl, (List.singleton_inj.1 hlast).symm, hgroups.symm⟩
  · rw [← List.cons_append, ← List.append_assoc] at h
    obtain ⟨hgroups, hlast⟩ := List.append_inj' h rfl
    exact .inr ⟨after', by rw [List.singleton_inj.1 hlast], hgroups⟩

theorem Filled.append {groups : List (List α)} (h : Filled getSizeOfEntry min max groups) {last : List α}
    (hlast : min ≤ groupSize getSizeOfEntry last) : Filled getSizeOfEntry min max (groups ++ [last]) := by
  intro before group after hsplit hafter
  obtain ⟨-, rfl, -⟩ | ⟨after', rfl, hgroups⟩ := append_singleton_split hsplit
  · exact hlast
  · refine h before group after' hgroups fun value rest heq => hafter value (rest ++ [last]) ?_
    rw [heq]
    rfl

/-- A value of size `max` or more, after a group that is flushed for it. -/
theorem Filled.flush {groups : List (List α)} (h : Filled getSizeOfEntry min max groups) (flushed : List α) {value : α}
    (hvalue : max ≤ getSizeOfEntry value) (hle : min ≤ max) :
    Filled getSizeOfEntry min max (groups ++ [flushed] ++ [[value]]) := by
  intro before group after hsplit hafter
  obtain ⟨-, rfl, -⟩ | ⟨after', rfl, hgroups⟩ := append_singleton_split hsplit
  · rw [groupSize_singleton]
    exact hle.trans hvalue
  · obtain ⟨rfl, rfl, -⟩ | ⟨after, rfl, hbefore⟩ := append_singleton_split hgroups
    · exact absurd hvalue (not_le.2 (hafter value [] rfl))
    · refine h before group after hbefore fun value' rest heq => hafter value' (rest ++ [flushed] ++ [[value]]) ?_
      rw [heq]
      rfl

/-- The sizes in the loop of `partition`. -/
structure Weighed (getSizeOfEntry : α → ℚ) (min max : ℚ) (p : Partitioning α) : Prop where
  sum : p.sum = groupSize getSizeOfEntry p.accum
  below : p.accum ≠ [] → p.sum < min
  last : ∀ part ∈ p.lastPartition, part.2 = groupSize getSizeOfEntry part.1
  capped : ∀ group ∈ p.groups, Capped getSizeOfEntry min max group
  filled : Filled getSizeOfEntry min max p.groups

theorem Weighed.hold {results : List (List α)} {part : List α} {size : ℚ} (hsize : size = groupSize getSizeOfEntry part)
    (hcapped : ∀ group ∈ results ++ [part], Capped getSizeOfEntry min max group)
    (hfilled : Filled getSizeOfEntry min max (results ++ [part])) :
    Weighed getSizeOfEntry min max { results, sum := 0, accum := [], lastPartition := some (part, size) } := by
  refine ⟨by simp [groupSize], fun h => absurd rfl h, fun held hheld => ?_, hcapped, hfilled⟩
  rw [← Option.some.inj hheld]
  exact hsize

theorem capped_append {groups : List (List α)} {last : List α}
    (h : ∀ group ∈ groups, Capped getSizeOfEntry min max group) (hlast : Capped getSizeOfEntry min max last) :
    ∀ group ∈ groups ++ [last], Capped getSizeOfEntry min max group := by
  intro group hmem
  obtain hmem | hmem := List.mem_append.1 hmem
  · exact h group hmem
  · rwa [List.mem_singleton.1 hmem]

theorem Weighed.push {p : Partitioning α} (h : Weighed getSizeOfEntry min max p) (hle : min ≤ max) (value : α) :
    Weighed getSizeOfEntry min max (p.push getSizeOfEntry min max value) := by
  have hone : Capped getSizeOfEntry min max [value] := fun _ => .inl rfl
  have hsingle : getSizeOfEntry value = groupSize getSizeOfEntry [value] := groupSize_singleton.symm
  obtain ⟨hcommit, haccum, hsum⟩ : p.commitLast.results = p.groups ∧ p.commitLast.accum = p.accum ∧
      p.commitLast.sum = p.sum := by
    refine ⟨p.groups_commitLast, ?_⟩
    unfold Partitioning.commitLast
    cases p.lastPartition <;> exact ⟨rfl, rfl⟩
  unfold Partitioning.push
  dsimp only
  split
  · next hsize =>
    split
    · next hacc =>
      -- what has accumulated is flushed
      have hbelow := h.below (List.length_pos_iff.1 hacc)
      rw [h.sum] at hbelow
      have hcapped : Capped getSizeOfEntry min max p.accum := fun hmax => absurd (hbelow.trans_le hle) (not_lt.2 hmax.le)
      rw [hcommit]
      have hflush := Weighed.hold hsingle (capped_append (capped_append h.capped hcapped) hone)
        (h.filled.flush p.accum hsize hle)
      exact hflush
    · next hacc =>
      have hnil : p.accum = [] := List.length_eq_zero_iff.1 (by omega)
      have hzero : p.sum = 0 := by
        rw [h.sum, hnil]
        rfl
      rw [hcommit, haccum, hsum, hnil, hzero]
      refine .hold hsingle (capped_append h.capped hone) (h.filled.append ?_)
      rw [groupSize_singleton]
      exact hle.trans hsize
  · next hsize =>
    split
    · next hmin =>
      have hgroup : p.sum + getSizeOfEntry value = groupSize getSizeOfEntry (p.accum ++ [value]) := by
        rw [groupSize_append, groupSize_singleton, h.sum]
      rw [hcommit]
      refine .hold hgroup (capped_append h.capped fun _ => ?_) (h.filled.append ?_)
      · by_cases hnil : p.accum = []
        · exact .inl (by rw [hnil]; rfl)
        · refine .inr ?_
          rw [List.dropLast_concat, ← h.sum]
          exact h.below hnil
      · rwa [← hgroup]
    · next hmin =>
      refine ⟨?_, fun _ => not_le.1 hmin, h.last, h.capped, h.filled⟩
      rw [groupSize_append, groupSize_singleton, ← h.sum]

theorem Weighed.finish {p : Partitioning α} (h : Weighed getSizeOfEntry min max p) (hle : min ≤ max) :
    (∀ before group after, p.finish max = before ++ group :: after → after ≠ [] → NotFlushed getSizeOfEntry max after →
      min ≤ groupSize getSizeOfEntry group) ∧ ∀ group ∈ p.finish max, Capped getSizeOfEntry min max group := by
  have hcommit := p.groups_commitLast
  unfold Partitioning.finish
  split
  · next hpos =>
    have hne : p.accum ≠ [] := by
      intro hnil
      rw [h.sum, hnil] at hpos
      exact absurd hpos (lt_irrefl 0)
    have hbelow := h.below hne
    rw [h.sum] at hbelow
    have hcapped : Capped getSizeOfEntry min max p.accum := fun hmax => absurd (hbelow.trans_le hle) (not_lt.2 hmax.le)
    have htail : ∀ before group after, p.groups ++ [p.accum] = before ++ group :: after → after ≠ [] →
        NotFlushed getSizeOfEntry max after → min ≤ groupSize getSizeOfEntry group := by
      intro before group after hsplit hafter hflushed
      obtain ⟨rfl, -, -⟩ | ⟨after', rfl, hgroups⟩ := append_singleton_split hsplit
      · exact absurd rfl hafter
      · refine h.filled before group after' hgroups fun value rest heq => hflushed value (rest ++ [p.accum]) ?_
        rw [heq]
        rfl
    split
    · next part lastSize hpart =>
      have hgroups : p.groups = p.results ++ [part] := by simp [Partitioning.groups, hpart]
      split
      · next hmerge =>
        have hsize : lastSize = groupSize getSizeOfEntry part := h.last (part, lastSize) hpart
        rw [h.sum, hsize] at hmerge
        rw [h.sum] at hpos
        refine ⟨fun before group after hsplit hafter hflushed => ?_, capped_append (fun group hgroup => ?_) fun hmax => ?_⟩
        · obtain ⟨rfl, -, -⟩ | ⟨after', rfl, hresults⟩ := append_singleton_split hsplit
          · exact absurd rfl hafter
          · refine h.filled before group (after' ++ [part]) (by rw [hgroups, hresults]; simp) fun value rest heq => ?_
            cases after' with
            | nil =>
              obtain ⟨rfl, -⟩ := List.cons.inj heq
              rw [groupSize_singleton] at hmerge
              linarith
            | cons next after' =>
              obtain ⟨rfl, -⟩ := List.cons.inj heq
              exact hflushed value (after' ++ [part ++ p.accum]) rfl
        · exact h.capped group (by rw [hgroups]; exact List.mem_append_left _ hgroup)
        · rw [groupSize_append] at hmax
          linarith
      · rw [hcommit]
        exact ⟨htail, capped_append h.capped hcapped⟩
    · next hpart =>
      have hgroups : p.results = p.groups := by simp [Partitioning.groups, hpart]
      rw [hgroups]
      exact ⟨htail, capped_append h.capped hcapped⟩
  · rw [hcommit]
    exact ⟨fun before group after hsplit _ => h.filled before group after hsplit, h.capped⟩

/-- **`partition`** loses, doubles and moves no value, and its groups have the sizes asked for: each is at least `min`,
but for the last and those flushed for a value of size `max` or more, and above `max` only with one value, or where
it was below `min` without its last value. -/
theorem partition_sizes {values : List α} (hpos : ∀ value ∈ values, 0 < getSizeOfEntry value) (hle : min ≤ max) :
    (partition values getSizeOfEntry min max).flatten = values ∧
    (∀ group ∈ partition values getSizeOfEntry min max, group ≠ []) ∧
    (∀ before group after, partition values getSizeOfEntry min max = before ++ group :: after → after ≠ [] →
      (∀ value rest, after = [value] :: rest → getSizeOfEntry value < max) →
      min ≤ (group.map getSizeOfEntry).sum) ∧
    ∀ group ∈ partition values getSizeOfEntry min max, max < (group.map getSizeOfEntry).sum →
      group.length = 1 ∨ (group.dropLast.map getSizeOfEntry).sum < min := by
  have hloop : ∀ (rest : List α) (p : Partitioning α), Weighed getSizeOfEntry min max p →
      Weighed getSizeOfEntry min max (rest.foldl (Partitioning.push getSizeOfEntry min max) p) := by
    intro rest
    induction rest with
    | nil => exact fun p h => h
    | cons value rest ih => exact fun p h => ih _ (h.push hle value)
  have hstart : Weighed getSizeOfEntry min max { results := [], sum := 0, accum := [], lastPartition := none } := by
    refine ⟨by simp [groupSize], fun h => absurd rfl h, by simp, by simp [Partitioning.groups], ?_⟩
    intro before group after hsplit
    simp [Partitioning.groups] at hsplit
  obtain ⟨hflatten, hne⟩ := partition_spec hpos min max
  obtain ⟨hfilled, hcapped⟩ := (hloop values _ hstart).finish hle
  exact ⟨hflatten, hne, hfilled, hcapped⟩

/-- A short end goes to the group before it, and `9` flushes `3`. -/
theorem partition_sizes_of_tail :
    partition [2, 3, 3, 9, 4, 1, 1] (fun size : ℚ => size) 5 8 = [[2, 3], [3], [9], [4, 1, 1]] ∧
    ∀ group ∈ partition [2, 3, 3, 9, 4, 1, 1] (fun size : ℚ => size) 5 8, group ≠ [] := by
  have hpos : ∀ value ∈ ([2, 3, 3, 9, 4, 1, 1] : List ℚ), 0 < value := by simp
  have hgroups := @partition_sizes ℚ (fun size => size) 5 8 _ hpos (by norm_num)
  exact ⟨by decide +kernel, hgroups.2.1⟩

end NodeImpl

end ZeroSync
