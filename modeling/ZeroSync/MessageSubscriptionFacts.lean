/-
A `Subscription` accounts for its messages: they are handed to the consumer in the
order they were pushed, coalesced ones merged, the promise of each push settles at most
once, and the cleanup hook is called once.

A message is passed to the cleanup hook, and its push then comes to `unconsumed`, or to the
consumed hook only, and its push comes to `consumed`. What the consumer holds when the
subscription terminates is passed to the cleanup hook, and to the consumed hook too when
the consumer goes on.
-/
import ZeroSync.MessageSubscription
import Mathlib.Data.List.Induction
import Mathlib.Data.List.Nodup

namespace ZeroSync.MessageSubscription

variable {M E : Type} {coalesce : Option (M → M → M)}

/-! ## Merging -/

/-- The entry that pushes are merged into, each with those before it. -/
inductive Merged (coalesce : Option (M → M → M)) : List (Entry M) → Entry M → Prop
  | one (e : Entry M) : Merged coalesce [e] e
  | more {f : M → M → M} (hf : coalesce = some f) {group : List (Entry M)} {prev : Entry M}
    (h : Merged coalesce group prev) (curr : Entry M) :
    Merged coalesce (group ++ [curr]) ⟨f curr.value prev.value, curr.push⟩

theorem Merged.pushes {group : List (Entry M)} {e : Entry M} (h : Merged coalesce group e) :
    group.map (·.push) = group.dropLast.map (·.push) ++ [e.push] := by
  cases h with
  | one => rfl
  | more hf h curr => rw [List.dropLast_concat, List.map_append, List.map_singleton]

/-- The pushes that are merged into later ones. -/
def inner (groups : List (List (Entry M))) : List ℕ := (groups.flatMap List.dropLast).map (·.push)

theorem inner_append (groups groups' : List (List (Entry M))) :
    inner (groups ++ groups') = inner groups ++ inner groups' := by
  unfold inner
  rw [List.flatMap_append, List.map_append]

theorem inner_one (e : Entry M) : inner [[e]] = [] := rfl

theorem pushes_perm {groups : List (List (Entry M))} {entries : List (Entry M)}
    (h : List.Forall₂ (Merged coalesce) groups entries) :
    (groups.flatten.map (·.push)).Perm (inner groups ++ entries.map (·.push)) := by
  induction h with
  | nil => exact .nil
  | cons hmerged _ ih =>
    rw [List.flatten_cons, List.map_append, hmerged.pushes, List.map_cons]
    unfold inner at ih ⊢
    rw [List.flatMap_cons, List.map_append, List.append_assoc, List.append_assoc]
    refine List.Perm.append_left _ ?_
    exact (List.Perm.cons _ ih).trans List.perm_middle.symm

/-! ## Settling -/

theorem mem_settle {results : List (ℕ × Result)} {push : ℕ} {result : Result} (h : push ∉ results.map (·.1))
    (p : ℕ × Result) : p ∈ settle results push result ↔ p ∈ results ∨ p = (push, result) := by
  unfold settle
  rw [if_neg h, List.mem_append, List.mem_singleton]

theorem settle_of_mem {results : List (ℕ × Result)} {push : ℕ} (h : push ∈ results.map (·.1)) (result : Result) :
    settle results push result = results := if_pos h

theorem settle_nodup {results : List (ℕ × Result)} (h : (results.map (·.1)).Nodup) (push : ℕ) (result : Result) :
    ((settle results push result).map (·.1)).Nodup := by
  unfold settle
  split
  · exact h
  · next hnew =>
    rw [List.map_append]
    exact List.nodup_append'.mpr ⟨h, List.nodup_singleton _, by simpa [List.disjoint_singleton] using hnew⟩

theorem mem_settleAll {results : List (ℕ × Result)} (entries : List (Entry M)) (result : Result)
    (hnodup : (entries.map (·.push)).Nodup) (hnew : ∀ e ∈ entries, e.push ∉ results.map (·.1)) (p : ℕ × Result) :
    p ∈ entries.foldl (fun results e => settle results e.push result) results ↔
      p ∈ results ∨ ∃ e ∈ entries, p = (e.push, result) := by
  induction entries generalizing results with
  | nil => simp
  | cons e entries ih =>
    rw [List.map_cons, List.nodup_cons] at hnodup
    have hfirst : ∀ p, p ∈ settle results e.push result ↔ p ∈ results ∨ p = (e.push, result) :=
      mem_settle (hnew e List.mem_cons_self)
    rw [List.foldl_cons, ih hnodup.2, hfirst, or_assoc, List.exists_mem_cons_iff]
    intro other hother hmem
    obtain ⟨q, hq, hpush⟩ := List.mem_map.mp hmem
    rcases (hfirst q).mp hq with hold | rfl
    · exact hnew other (List.mem_cons_of_mem _ hother) (hpush ▸ List.mem_map_of_mem hold)
    · have heq : e.push = other.push := hpush
      exact hnodup.1 (heq ▸ List.mem_map_of_mem hother)

theorem settleAll_nodup {results : List (ℕ × Result)} (h : (results.map (·.1)).Nodup) (entries : List (Entry M))
    (result : Result) :
    ((entries.foldl (fun results e => settle results e.push result) results).map (·.1)).Nodup := by
  induction entries generalizing results with
  | nil => exact h
  | cons e entries ih => exact ih (settle_nodup h e.push result)

/-! ## What holds of a run -/

namespace Run

/-- What has been passed to the cleanup hook. -/
def cleaned (s : Run M E) : List (Entry M) := s.cleanups.flatMap (·.1)

/-- The entries among what calls come back with. -/
def entriesOf (outcomes : List (ℕ × Outcome M E)) : List (Entry M) :=
  outcomes.filterMap fun p => match p.2 with | .entry e => some e | _ => none

/-- The entries on their way to calls that have not resumed. -/
def wokenEntries (s : Run M E) : List (Entry M) := entriesOf s.woken

theorem mem_entriesOf {outcomes : List (ℕ × Outcome M E)} {e : Entry M} :
    e ∈ entriesOf outcomes ↔ ∃ call, (call, .entry e) ∈ outcomes := by
  constructor
  · intro he
    obtain ⟨⟨call, outcome⟩, hmem, houtcome⟩ := List.mem_filterMap.mp he
    cases outcome with
    | entry e' =>
      obtain rfl := Option.some.inj houtcome
      exact ⟨call, hmem⟩
    | _ => cases houtcome
  · rintro ⟨call, hmem⟩
    exact List.mem_filterMap.mpr ⟨_, hmem, rfl⟩

theorem entriesOf_append (outcomes outcomes' : List (ℕ × Outcome M E)) :
    entriesOf (outcomes ++ outcomes') = entriesOf outcomes ++ entriesOf outcomes' := List.filterMap_append

theorem entriesOf_other (call : ℕ) {outcome : Outcome M E} (h : ∀ e, outcome ≠ .entry e) :
    entriesOf [(call, outcome)] = [] := by
  cases outcome with
  | entry e => exact absurd rfl (h e)
  | _ => rfl

/-- The consumer has been given an entry. -/
def Delivered (s : Run M E) (e : Entry M) : Prop := e ∈ s.consuming ∨ e ∈ s.consumed

/-- The entries in the order of their pushes, and the calls in the order they are served. -/
structure Ordered (coalesce : Option (M → M → M)) (s : Run M E) (groups : List (List (Entry M)))
    (late left : List (Entry M)) : Prop where
  pushes : s.pushed = groups.flatten ++ late
  numbered : s.pushed.map (·.push) = List.range s.pushed.length
  merged : List.Forall₂ (Merged coalesce) groups (s.handed.map (·.2) ++ left)
  calls : (s.handed.map (·.1) ++ s.consumers).Pairwise (· < ·)
  called : ∀ call ∈ s.handed.map (·.1) ++ s.consumers, call < s.calls

/-- Where the entries are that have been handed out. -/
structure Placed (s : Run M E) : Prop where
  woken : ∀ call e, (call, .entry e) ∈ s.woken → (call, e) ∈ s.handed
  returned : ∀ call e, (call, .entry e) ∈ s.returned → (call, e) ∈ s.handed
  delivered : ∀ e, s.Delivered e ↔ ∃ call, (call, .entry e) ∈ s.returned
  handed : ∀ e ∈ s.handed.map (·.2), e ∈ s.wokenEntries ∨ s.Delivered e
  apart : (s.wokenEntries ++ s.consuming).Nodup
  consumed : ∀ e ∈ s.consumed, e ∉ s.wokenEntries ++ s.consuming
  previous : ∀ e, s.prevConsumed = some e → s.Delivered e
  distinct : (entriesOf s.returned).Nodup

/-- What is left of the messages, and what the consumer held when the subscription terminated. -/
structure Phase (s : Run M E) (late left held : List (Entry M)) : Prop where
  live : s.sentinel = none → late = [] ∧ held = [] ∧ s.cleanups = [] ∧ left = s.messages.filterMap Message.entry? ∧
    (s.consumers = [] ∨ s.messages = [])
  ended : s.sentinel.isSome → s.messages = [] ∧ s.consumers = [] ∧ ∃ err, s.cleanups = [(held ++ left, err)]
  held : held.Nodup ∧ ∀ e ∈ held, s.Delivered e

/-- How the promises have settled. -/
structure Settles (s : Run M E) (groups : List (List (Entry M))) (late : List (Entry M)) : Prop where
  once : (s.results.map (·.1)).Nodup
  coalesced : ∀ push, (push, .coalesced) ∈ s.results ↔ push ∈ inner groups
  unconsumed : ∀ push, (push, .unconsumed) ∈ s.results ↔ ∃ e ∈ s.cleaned ++ late, e.push = push
  consumed : ∀ push, (push, .consumed) ∈ s.results ↔ ∃ e ∈ s.consumed, e ∉ s.cleaned ∧ e.push = push

structure Invariant (coalesce : Option (M → M → M)) (s : Run M E) (groups : List (List (Entry M)))
    (late left held : List (Entry M)) : Prop where
  ordered : Ordered coalesce s groups late left
  placed : Placed s
  phase : Phase s late left held
  settles : Settles s groups late

variable {s : Run M E} {groups : List (List (Entry M))} {late left held : List (Entry M)}

theorem Ordered.of_eq {s' : Run M E} (h : Ordered coalesce s groups late left) (hpushed : s'.pushed = s.pushed)
    (hhanded : s'.handed = s.handed) (hconsumers : s'.consumers = s.consumers) (hcalls : s'.calls = s.calls) :
    Ordered coalesce s' groups late left := by
  obtain ⟨hpushes, hnumbered, hmerged, hordered, hcalled⟩ := h
  rw [← hpushed] at hpushes hnumbered
  rw [← hhanded] at hmerged
  rw [← hhanded, ← hconsumers] at hordered hcalled
  rw [← hcalls] at hcalled
  exact ⟨hpushes, hnumbered, hmerged, hordered, hcalled⟩

theorem Ordered.nodup (h : Ordered coalesce s groups late left) :
    (inner groups ++ (s.handed.map (·.2) ++ left).map (·.push) ++ late.map (·.push)).Nodup := by
  have hperm : (s.pushed.map (·.push)).Perm
      (inner groups ++ (s.handed.map (·.2) ++ left).map (·.push) ++ late.map (·.push)) := by
    rw [h.pushes, List.map_append]
    exact (pushes_perm h.merged).append_right _
  rw [h.numbered] at hperm
  exact hperm.nodup_iff.mp List.nodup_range

theorem Ordered.entries_nodup (h : Ordered coalesce s groups late left) :
    ((s.handed.map (·.2) ++ left).map (·.push)).Nodup :=
  (List.nodup_append'.mp (List.nodup_append'.mp h.nodup).1).2.1

theorem Ordered.eq_of_push (h : Ordered coalesce s groups late left) {e e' : Entry M}
    (he : e ∈ s.handed.map (·.2) ++ left) (he' : e' ∈ s.handed.map (·.2) ++ left) (hpush : e.push = e'.push) : e = e' :=
  List.inj_on_of_nodup_map h.entries_nodup he he' hpush

theorem Ordered.push_lt (h : Ordered coalesce s groups late left) {push : ℕ}
    (hpush : push ∈ inner groups ∨ push ∈ (s.handed.map (·.2) ++ left).map (·.push) ∨ push ∈ late.map (·.push)) :
    push < s.pushed.length := by
  have hmem : push ∈ s.pushed.map (·.push) := by
    rw [h.pushes, List.map_append, List.mem_append, (pushes_perm h.merged).mem_iff, List.mem_append, or_assoc]
    exact hpush
  rw [h.numbered] at hmem
  exact List.mem_range.mp hmem

theorem Placed.mem_handed_of_woken (h : Placed s) {e : Entry M} (he : e ∈ s.wokenEntries) : e ∈ s.handed.map (·.2) := by
  obtain ⟨call, hmem⟩ := mem_entriesOf.mp he
  exact List.mem_map_of_mem (h.woken call e hmem)

theorem Placed.mem_handed (h : Placed s) {e : Entry M} (he : s.Delivered e) : e ∈ s.handed.map (·.2) := by
  obtain ⟨call, hcall⟩ := (h.delivered e).mp he
  exact List.mem_map_of_mem (h.returned call e hcall)

theorem Phase.cleaned_eq (h : Phase s late left held) :
    s.cleaned = if s.sentinel.isSome then held ++ left else [] := by
  unfold cleaned
  cases hsentinel : s.sentinel with
  | none => rw [(h.live hsentinel).2.2.1]; rfl
  | some sentinel =>
    obtain ⟨-, -, err, hcleanups⟩ := h.ended (by rw [hsentinel]; rfl)
    rw [hcleanups]
    exact List.append_nil _

theorem Invariant.mem_of_cleaned (h : Invariant coalesce s groups late left held) {e : Entry M} (he : e ∈ s.cleaned) :
    e ∈ s.handed.map (·.2) ++ left := by
  rw [h.phase.cleaned_eq] at he
  split at he
  · rcases List.mem_append.mp he with hheld | hleft
    · exact List.mem_append_left _ (h.placed.mem_handed (h.phase.held.2 e hheld))
    · exact List.mem_append_right _ hleft
  · cases he

theorem Invariant.unsettled (h : Invariant coalesce s groups late left held) {e : Entry M}
    (he : e ∈ s.handed.map (·.2) ++ left) (hcleaned : e ∉ s.cleaned) (hconsumed : e ∉ s.consumed) :
    e.push ∉ s.results.map (·.1) := by
  intro hmem
  have hpush : e.push ∈ (s.handed.map (·.2) ++ left).map (·.push) := List.mem_map_of_mem he
  obtain ⟨hentries, -, hlate⟩ := List.nodup_append'.mp h.ordered.nodup
  have hinner := (List.nodup_append'.mp hentries).2.2
  obtain ⟨⟨push, result⟩, hresult, rfl⟩ := List.mem_map.mp hmem
  cases result with
  | coalesced => exact hinner ((h.settles.coalesced e.push).mp hresult) hpush
  | unconsumed =>
    obtain ⟨e', he', heq⟩ := (h.settles.unconsumed e.push).mp hresult
    rcases List.mem_append.mp he' with hclean | hdrop
    · exact hcleaned (h.ordered.eq_of_push (h.mem_of_cleaned hclean) he heq ▸ hclean)
    · exact hlate (List.mem_append_right _ hpush) (heq ▸ List.mem_map_of_mem hdrop)
  | consumed =>
    obtain ⟨e', he', -, heq⟩ := (h.settles.consumed e.push).mp hresult
    have hhanded := List.mem_append_left left (h.placed.mem_handed (.inr he'))
    exact hconsumed (h.ordered.eq_of_push hhanded he heq ▸ he')

theorem start_invariant : Invariant coalesce (start : Run M E) [] [] [] [] where
  ordered := ⟨rfl, rfl, .nil, .nil, fun _ h => absurd h List.not_mem_nil⟩
  placed := by
    refine ⟨fun _ _ h => absurd h List.not_mem_nil, fun _ _ h => absurd h List.not_mem_nil, fun e => ?_,
      fun _ h => absurd h List.not_mem_nil, .nil, fun _ h => absurd h List.not_mem_nil,
      fun _ h => absurd h (by simp [start]), .nil⟩
    simp [Delivered, start]
  phase := ⟨fun _ => ⟨rfl, rfl, rfl, rfl, .inl rfl⟩, (fun h => by cases h), .nil, fun _ h => absurd h List.not_mem_nil⟩
  settles := by
    refine ⟨.nil, fun _ => ?_, fun _ => ?_, fun _ => ?_⟩
    · simp [start, inner]
    · simp [start, cleaned]
    · simp [start]

/-! ## Consuming -/

theorem Invariant.mem_consume (h : Invariant coalesce s groups late left held) {e : Entry M} (he : s.Delivered e)
    (e' : Entry M) : (s.consume e).Delivered e' ↔ s.Delivered e' := by
  unfold Delivered consume
  simp only [List.mem_filter, List.mem_append, List.mem_singleton, decide_eq_true_eq]
  constructor
  · rintro (⟨hmem, -⟩ | hmem | rfl)
    · exact .inl hmem
    · exact .inr hmem
    · exact he
  · rintro (hmem | hmem)
    · by_cases hpush : e'.push = e.push
      · have hhanded := List.mem_append_left left (h.placed.mem_handed (.inl hmem))
        exact .inr (.inr (h.ordered.eq_of_push hhanded (List.mem_append_left left (h.placed.mem_handed he)) hpush))
      · exact .inl ⟨hmem, hpush⟩
    · exact .inr (.inl hmem)

/-- A promise settles with `consumed` unless it has settled. -/
theorem Invariant.settles_consume (h : Invariant coalesce s groups late left held) {e : Entry M}
    (he : e ∈ s.handed.map (·.2)) : Settles (s.consume e) groups late := by
  obtain ⟨honce, hcoalesced, hunconsumed, hconsumed⟩ := h.settles
  have hiff (push : ℕ) : (∃ e' ∈ s.consumed ++ [e], e' ∉ s.cleaned ∧ e'.push = push) ↔
      (∃ e' ∈ s.consumed, e' ∉ s.cleaned ∧ e'.push = push) ∨ e ∉ s.cleaned ∧ e.push = push := by
    simp only [List.mem_append, List.mem_singleton, or_and_right, exists_or, exists_eq_left]
  by_cases hdone : e ∈ s.cleaned ∨ e ∈ s.consumed
  · have hsettled : e.push ∈ s.results.map (·.1) := by
      by_cases hcleaned : e ∈ s.cleaned
      · exact List.mem_map_of_mem ((hunconsumed e.push).mpr ⟨e, List.mem_append_left _ hcleaned, rfl⟩)
      · exact List.mem_map_of_mem ((hconsumed e.push).mpr ⟨e, hdone.resolve_left hcleaned, hcleaned, rfl⟩)
    have hresults : (s.consume e).results = s.results := settle_of_mem hsettled _
    refine ⟨hresults.symm ▸ honce, hresults.symm ▸ hcoalesced, hresults.symm ▸ hunconsumed, fun push => ?_⟩
    rw [hresults, hconsumed]
    refine Iff.symm ((hiff push).trans (or_iff_left_of_imp ?_))
    rintro ⟨hcleaned, hpush⟩
    exact ⟨e, hdone.resolve_left hcleaned, hcleaned, hpush⟩
  · obtain ⟨hcleaned, hnew⟩ := not_or.mp hdone
    have hmem : ∀ p, p ∈ settle s.results e.push .consumed ↔ p ∈ s.results ∨ p = (e.push, .consumed) :=
      mem_settle (h.unsettled (List.mem_append_left _ he) hcleaned hnew)
    refine ⟨settle_nodup honce _ _, fun push => ?_, fun push => ?_, fun push => ?_⟩
    · refine (hmem _).trans ((or_iff_left ?_).trans (hcoalesced push))
      simp
    · refine (hmem _).trans ((or_iff_left ?_).trans (hunconsumed push))
      simp
    · refine (hmem _).trans (Iff.trans (or_congr (hconsumed push) ?_) (hiff push).symm)
      simp [hcleaned, eq_comm]

theorem Invariant.consume (h : Invariant coalesce s groups late left held) {e : Entry M} (he : s.Delivered e) :
    Invariant coalesce (s.consume e) groups late left held := by
  have hhanded : e ∈ s.handed.map (·.2) := h.placed.mem_handed he
  have hwoken : e ∉ s.wokenEntries := by
    intro hmem
    rcases he with hconsuming | hconsumed
    · exact (List.nodup_append'.mp h.placed.apart).2.2 hmem hconsuming
    · exact h.placed.consumed e hconsumed (List.mem_append_left _ hmem)
  have hsub : (s.wokenEntries ++ (s.consume e).consuming).Sublist (s.wokenEntries ++ s.consuming) :=
    List.filter_sublist.append_left _
  refine ⟨h.ordered.of_eq rfl rfl rfl rfl,
    ⟨h.placed.woken, h.placed.returned, fun e' => ?_, fun e' hmem => ?_, ?_, fun e' hmem => ?_, fun e' hprev => ?_,
      h.placed.distinct⟩,
    ⟨h.phase.live, h.phase.ended, h.phase.held.1, fun e' hmem => ?_⟩, ?_⟩
  · exact (h.mem_consume he e').trans (h.placed.delivered e')
  · exact (h.placed.handed e' hmem).imp_right (h.mem_consume he e').mpr
  · exact h.placed.apart.sublist hsub
  · rcases List.mem_append.mp hmem with hold | hnew
    · exact fun hin => h.placed.consumed e' hold (hsub.subset hin)
    · obtain rfl := List.mem_singleton.mp hnew
      intro hin
      rcases List.mem_append.mp hin with hin | hin
      · exact hwoken hin
      · exact of_decide_eq_true (List.mem_filter.mp hin).2 rfl
  · exact (h.mem_consume he e').mpr (h.placed.previous e' hprev)
  · exact (h.mem_consume he e').mpr (h.phase.held.2 e' hmem)
  · exact h.settles_consume hhanded

/-! ## Terminating -/

theorem Invariant.mem_settle_unconsumed (h : Invariant coalesce s groups late left held) (hlive : s.sentinel = none)
    (p : ℕ × Result) :
    p ∈ (s.consuming ++ left).foldl (fun results e => settle results e.push .unconsumed) s.results ↔
      p ∈ s.results ∨ ∃ e ∈ s.consuming ++ left, p = (e.push, .unconsumed) := by
  have hcleaned : s.cleaned = [] := by rw [h.phase.cleaned_eq, hlive]; rfl
  obtain ⟨-, hleft, hapart⟩ := List.nodup_append'.mp (List.Nodup.of_map _ h.ordered.entries_nodup)
  have hconsuming (e) (he : e ∈ s.consuming) : e ∈ s.handed.map (·.2) := h.placed.mem_handed (.inl he)
  have hentries (e) (he : e ∈ s.consuming ++ left) : e ∈ s.handed.map (·.2) ++ left :=
    List.mem_append.mpr ((List.mem_append.mp he).imp_left (hconsuming e))
  refine mem_settleAll _ _ ?_ (fun e he => ?_) p
  · refine List.Nodup.map_on (fun e he e' he' => h.ordered.eq_of_push (hentries e he) (hentries e' he')) ?_
    exact List.nodup_append'.mpr ⟨(List.nodup_append'.mp h.placed.apart).2.1, hleft, fun e he => hapart (hconsuming e he)⟩
  · refine h.unsettled (hentries e he) (by simp [hcleaned]) fun hconsumed => ?_
    rcases List.mem_append.mp he with hmem | hmem
    · exact h.placed.consumed e hconsumed (List.mem_append_right _ hmem)
    · exact hapart (h.placed.mem_handed (.inr hconsumed)) hmem

theorem wokenEntries_terminate (s : Run M E) (sentinel : Sentinel E) :
    (s.terminate sentinel).wokenEntries = s.wokenEntries := by
  unfold terminate
  split
  · rfl
  · refine (entriesOf_append s.woken _).trans ((congrArg _ ?_).trans (List.append_nil _))
    refine List.filterMap_eq_nil_iff.mpr fun p hp => ?_
    obtain ⟨call, -, rfl⟩ := List.mem_map.mp hp
    cases sentinel <;> rfl

theorem mem_woken_terminate {sentinel : Sentinel E} {call : ℕ} {e : Entry M}
    (h : (call, Outcome.entry e) ∈ (s.terminate sentinel).woken) : (call, Outcome.entry e) ∈ s.woken := by
  unfold terminate at h
  split at h
  · exact h
  · rcases List.mem_append.mp h with hold | hnew
    · exact hold
    · obtain ⟨_, -, heq⟩ := List.mem_map.mp hnew
      cases sentinel <;> cases congrArg Prod.snd heq

theorem Invariant.terminate (h : Invariant coalesce s groups late left held) (sentinel : Sentinel E) :
    ∃ held, Invariant coalesce (s.terminate sentinel) groups late left held := by
  cases hsentinel : s.sentinel with
  | some _ =>
    have hsame : s.terminate sentinel = s := by simp only [Run.terminate, hsentinel]
    rw [hsame]
    exact ⟨held, h⟩
  | none =>
    have hterminate : s.terminate sentinel =
        { s with
          sentinel := some sentinel
          cleanups := s.cleanups ++ [(s.consuming ++ s.messages.filterMap Message.entry?, sentinel.error?)]
          results := (s.consuming ++ s.messages.filterMap Message.entry?).foldl
            (fun results e => settle results e.push .unconsumed) s.results
          messages := []
          consumers := []
          woken := s.woken ++ s.consumers.map fun call => (call, sentinel.outcome) } := by
      simp only [Run.terminate, hsentinel]
    obtain ⟨rfl, rfl, hcleanups, rfl, -⟩ := h.phase.live hsentinel
    have hwoken := wokenEntries_terminate s sentinel
    have hmem : ∀ call e, (call, Outcome.entry e) ∈ (s.terminate sentinel).woken → (call, Outcome.entry e) ∈ s.woken :=
      fun call e => mem_woken_terminate
    have hsettle := h.mem_settle_unconsumed hsentinel
    have hcleaned : (s.terminate sentinel).cleaned = s.consuming ++ s.messages.filterMap Message.entry? := by
      rw [hterminate, cleaned, hcleanups]
      exact List.append_nil _
    have hnone : s.cleaned = [] := by rw [cleaned, hcleanups]; rfl
    rw [hterminate] at hwoken hmem hcleaned ⊢
    refine ⟨s.consuming, ⟨⟨h.ordered.pushes, h.ordered.numbered, h.ordered.merged, ?_, ?_⟩,
      ⟨fun call e he => h.placed.woken call e (hmem call e he), h.placed.returned, h.placed.delivered, ?_, ?_, ?_,
        h.placed.previous, h.placed.distinct⟩,
      ⟨(fun hlive => by cases hlive), fun _ => ⟨rfl, rfl, sentinel.error?, ?_⟩, ?_, fun e he => .inl he⟩,
      ⟨settleAll_nodup h.settles.once _ _, fun push => ?_, fun push => ?_, fun push => ?_⟩⟩⟩
    · exact h.ordered.calls.sublist ((List.nil_sublist _).append_left _)
    · exact fun call hcall => h.ordered.called call (((List.nil_sublist _).append_left _).subset hcall)
    · intro e he
      rw [hwoken]
      exact h.placed.handed e he
    · rw [hwoken]
      exact h.placed.apart
    · intro e he
      rw [hwoken]
      exact h.placed.consumed e he
    · rw [hcleanups]
      rfl
    · exact (List.nodup_append'.mp h.placed.apart).2.1
    · refine (hsettle _).trans ((or_iff_left ?_).trans (h.settles.coalesced push))
      simp
    · rw [hcleaned]
      refine (hsettle _).trans (Iff.trans (or_congr (h.settles.unconsumed push) Iff.rfl) ?_)
      simp [hnone, eq_comm]
    · rw [hcleaned]
      refine (hsettle _).trans ((or_iff_left ?_).trans ((h.settles.consumed push).trans ?_))
      · simp
      · rw [hnone]
        refine exists_congr fun e => and_congr_right fun he => and_congr_left fun _ => ?_
        refine iff_of_true List.not_mem_nil fun hin => ?_
        rcases List.mem_append.mp hin with hin | hin
        · exact h.placed.consumed e he (List.mem_append_right _ hin)
        · have hapart := (List.nodup_append'.mp (List.Nodup.of_map _ h.ordered.entries_nodup)).2.2
          exact hapart (h.placed.mem_handed (.inr he)) hin

/-! ## Pushing -/

theorem Ordered.numbered_push (h : Ordered coalesce s groups late left) (value : M) :
    (s.pushed ++ [s.nextEntry value]).map (·.push) = List.range (s.pushed ++ [s.nextEntry value]).length := by
  rw [List.map_append, h.numbered, List.length_append, List.length_singleton, List.range_succ]
  rfl

theorem Ordered.ne_nextEntry (h : Ordered coalesce s groups late left) (value : M) {e : Entry M}
    (he : e ∈ s.handed.map (·.2) ++ left) : e ≠ s.nextEntry value := by
  rintro rfl
  exact Nat.lt_irrefl _ (h.push_lt (.inr (.inl (List.mem_map_of_mem he))))

theorem Invariant.settled_lt (h : Invariant coalesce s groups late left held) {push : ℕ}
    (hpush : push ∈ s.results.map (·.1)) : push < s.pushed.length := by
  obtain ⟨⟨push, result⟩, hresult, rfl⟩ := List.mem_map.mp hpush
  cases result with
  | coalesced => exact h.ordered.push_lt (.inl ((h.settles.coalesced push).mp hresult))
  | unconsumed =>
    obtain ⟨e, he, rfl⟩ := (h.settles.unconsumed push).mp hresult
    rcases List.mem_append.mp he with hclean | hdrop
    · exact h.ordered.push_lt (.inr (.inl (List.mem_map_of_mem (h.mem_of_cleaned hclean))))
    · exact h.ordered.push_lt (.inr (.inr (List.mem_map_of_mem hdrop)))
  | consumed =>
    obtain ⟨e, he, -, rfl⟩ := (h.settles.consumed push).mp hresult
    exact h.ordered.push_lt (.inr (.inl (List.mem_map_of_mem (List.mem_append_left _ (h.placed.mem_handed (.inr he))))))

theorem Invariant.drop (h : Invariant coalesce s groups late left held) (hended : s.sentinel ≠ none) (value : M) :
    Invariant coalesce
      { s with
        pushed := s.pushed ++ [s.nextEntry value]
        results := settle s.results (s.nextEntry value).push .unconsumed }
      groups (late ++ [s.nextEntry value]) left held := by
  have hmem : ∀ p, p ∈ settle s.results (s.nextEntry value).push .unconsumed ↔
      p ∈ s.results ∨ p = ((s.nextEntry value).push, .unconsumed) :=
    mem_settle fun hin => Nat.lt_irrefl _ (h.settled_lt hin)
  refine ⟨⟨?_, h.ordered.numbered_push value, h.ordered.merged, h.ordered.calls, h.ordered.called⟩,
    ⟨h.placed.woken, h.placed.returned, h.placed.delivered, h.placed.handed, h.placed.apart, h.placed.consumed,
      h.placed.previous, h.placed.distinct⟩,
    ⟨fun hlive => absurd hlive hended, h.phase.ended, h.phase.held⟩,
    ⟨settle_nodup h.settles.once _ _, fun push => ?_, fun push => ?_, fun push => ?_⟩⟩
  · rw [h.ordered.pushes, List.append_assoc]
  · refine (hmem _).trans ((or_iff_left ?_).trans (h.settles.coalesced push))
    simp
  · refine (hmem _).trans (Iff.trans (or_congr (h.settles.unconsumed push) Iff.rfl) ?_)
    change _ ↔ ∃ e ∈ s.cleaned ++ (late ++ [s.nextEntry value]), e.push = push
    rw [← List.append_assoc]
    simp only [List.mem_append, List.mem_singleton, or_and_right, exists_or, exists_eq_left, Prod.mk.injEq, and_true]
    rw [eq_comm (a := push)]
  · refine (hmem _).trans ((or_iff_left ?_).trans (h.settles.consumed push))
    simp

theorem Invariant.hand (h : Invariant coalesce s groups late left held) (hlive : s.sentinel = none) {consumer : ℕ}
    {consumers : List ℕ} (hconsumers : s.consumers = consumer :: consumers) (value : M) :
    Invariant coalesce
      { s with
        pushed := s.pushed ++ [s.nextEntry value]
        consumers
        handed := s.handed ++ [(consumer, s.nextEntry value)]
        woken := s.woken ++ [(consumer, .entry (s.nextEntry value))] }
      (groups ++ [[s.nextEntry value]]) late left held := by
  obtain ⟨rfl, rfl, hcleanups, hleft, hidle⟩ := h.phase.live hlive
  have hmessages := hidle.resolve_left (by rw [hconsumers]; exact List.cons_ne_nil _ _)
  obtain rfl : left = [] := by rw [hleft, hmessages]; rfl
  have hcalls : (s.handed ++ [(consumer, s.nextEntry value)]).map (·.1) ++ consumers =
      s.handed.map (·.1) ++ s.consumers := by
    rw [hconsumers, List.map_append, List.append_assoc]
    rfl
  have hne (e) (he : e ∈ s.handed.map (·.2)) : e ≠ s.nextEntry value :=
    h.ordered.ne_nextEntry value (List.mem_append_left _ he)
  have hwoken : wokenEntries { s with woken := s.woken ++ [(consumer, .entry (s.nextEntry value))] } =
      s.wokenEntries ++ [s.nextEntry value] :=
    entriesOf_append s.woken [(consumer, .entry (s.nextEntry value))]
  have hperm : (s.wokenEntries ++ [s.nextEntry value] ++ s.consuming).Perm
      (s.nextEntry value :: (s.wokenEntries ++ s.consuming)) := by
    rw [List.append_assoc]
    exact List.perm_middle
  have hapart : (s.nextEntry value :: (s.wokenEntries ++ s.consuming)).Nodup := by
    refine List.nodup_cons.mpr ⟨fun hin => ?_, h.placed.apart⟩
    rcases List.mem_append.mp hin with hin | hin
    · exact hne _ (h.placed.mem_handed_of_woken hin) rfl
    · exact hne _ (h.placed.mem_handed (.inl hin)) rfl
  refine ⟨⟨?_, h.ordered.numbered_push value, ?_, ?_, ?_⟩,
    ⟨fun call e he => ?_, fun call e he => List.mem_append_left _ (h.placed.returned call e he), h.placed.delivered,
      fun e he => ?_, ?_, fun e he => ?_, h.placed.previous, h.placed.distinct⟩,
    ⟨fun _ => ⟨rfl, rfl, hcleanups, hleft, .inr hmessages⟩, fun hended => ?_, h.phase.held⟩,
    ⟨h.settles.once, fun push => ?_, h.settles.unconsumed, h.settles.consumed⟩⟩
  · rw [h.ordered.pushes, List.append_nil, List.append_nil, List.flatten_append]
    rfl
  · rw [List.map_append, List.append_nil]
    have hmerged := h.ordered.merged
    rw [List.append_nil] at hmerged
    exact List.rel_append hmerged (.cons (.one _) .nil)
  · exact hcalls ▸ h.ordered.calls
  · exact hcalls ▸ h.ordered.called
  · rcases List.mem_append.mp he with hold | hnew
    · exact List.mem_append_left _ (h.placed.woken call e hold)
    · cases List.mem_singleton.mp hnew
      exact List.mem_append_right _ (List.mem_singleton_self _)
  · change e ∈ wokenEntries { s with woken := _ } ∨ _
    rw [hwoken]
    rw [List.map_append, List.mem_append] at he
    rcases he with hold | hnew
    · exact (h.placed.handed e hold).imp_left (List.mem_append_left _)
    · exact .inl (List.mem_append_right _ hnew)
  · change (wokenEntries { s with woken := _ } ++ _).Nodup
    rw [hwoken]
    exact hperm.nodup_iff.mpr hapart
  · change e ∉ wokenEntries { s with woken := _ } ++ _
    rw [hwoken, hperm.mem_iff, List.mem_cons]
    exact not_or.mpr ⟨hne e (h.placed.mem_handed (.inr he)), h.placed.consumed e he⟩
  · rw [hlive] at hended
    cases hended
  · rw [inner_append, inner_one, List.append_nil]
    exact h.settles.coalesced push

theorem Invariant.queue (h : Invariant coalesce s groups late left held) (hlive : s.sentinel = none)
    (hconsumers : s.consumers = []) (value : M) :
    Invariant coalesce
      { s with
        pushed := s.pushed ++ [s.nextEntry value]
        messages := s.messages ++ [.entry (s.nextEntry value)] }
      (groups ++ [[s.nextEntry value]]) late (left ++ [s.nextEntry value]) held := by
  obtain ⟨rfl, rfl, hcleanups, rfl, -⟩ := h.phase.live hlive
  refine ⟨⟨?_, h.ordered.numbered_push value, ?_, h.ordered.calls, h.ordered.called⟩,
    ⟨h.placed.woken, h.placed.returned, h.placed.delivered, h.placed.handed, h.placed.apart, h.placed.consumed,
      h.placed.previous, h.placed.distinct⟩,
    ⟨fun _ => ⟨rfl, rfl, hcleanups, ?_, .inl hconsumers⟩, fun hended => ?_, h.phase.held⟩,
    ⟨h.settles.once, fun push => ?_, h.settles.unconsumed, h.settles.consumed⟩⟩
  · rw [h.ordered.pushes, List.append_nil, List.append_nil, List.flatten_append]
    rfl
  · rw [← List.append_assoc]
    exact List.rel_append h.ordered.merged (.cons (.one _) .nil)
  · rw [List.filterMap_append]
    rfl
  · rw [hlive] at hended
    cases hended
  · rw [inner_append, inner_one, List.append_nil]
    exact h.settles.coalesced push

theorem Invariant.merge (h : Invariant coalesce s groups late left held) (hlive : s.sentinel = none)
    (hconsumers : s.consumers = []) {f : M → M → M} (hf : coalesce = some f) {messages : List (Message M)}
    {prev : Entry M} (hmessages : s.messages = messages ++ [.entry prev]) (value : M) :
    ∃ groups left, Invariant coalesce
      { s with
        pushed := s.pushed ++ [s.nextEntry value]
        messages := messages ++ [.entry ⟨f (s.nextEntry value).value prev.value, (s.nextEntry value).push⟩]
        results := settle s.results prev.push .coalesced }
      groups late left held := by
  obtain ⟨rfl, rfl, hcleanups, hleft, -⟩ := h.phase.live hlive
  rw [hmessages, List.filterMap_append] at hleft
  obtain rfl : left = messages.filterMap Message.entry? ++ [prev] := hleft
  -- The group of the last message.
  have hmerged := h.ordered.merged
  rw [← List.append_assoc] at hmerged
  have hbefore := List.forall₂_take_append _ _ _ hmerged
  have hlast := List.forall₂_drop_append _ _ _ hmerged
  have hsplit := List.take_append_drop (s.handed.map (·.2) ++ messages.filterMap Message.entry?).length groups
  generalize groups.take _ = before at hbefore hsplit
  generalize groups.drop _ = last at hlast hsplit
  obtain _ | ⟨hgroup, hnil⟩ := hlast
  cases hnil
  rename_i group
  subst hsplit
  have hcleaned : s.cleaned = [] := by rw [cleaned, hcleanups]; rfl
  have hentry : prev ∈ s.handed.map (·.2) ++ (messages.filterMap Message.entry? ++ [prev]) :=
    List.mem_append_right _ (List.mem_append_right _ (List.mem_singleton_self _))
  have hnot : prev ∉ s.consumed := fun hin =>
    (List.nodup_append'.mp (List.Nodup.of_map _ h.ordered.entries_nodup)).2.2 (h.placed.mem_handed (.inr hin))
      (List.mem_append_right _ (List.mem_singleton_self _))
  have hmem : ∀ p, p ∈ settle s.results prev.push .coalesced ↔ p ∈ s.results ∨ p = (prev.push, .coalesced) :=
    mem_settle (h.unsettled hentry (by rw [hcleaned]; exact List.not_mem_nil) hnot)
  refine ⟨before ++ [group ++ [s.nextEntry value]],
    messages.filterMap Message.entry? ++ [⟨f (s.nextEntry value).value prev.value, (s.nextEntry value).push⟩],
    ⟨?_, h.ordered.numbered_push value, ?_, h.ordered.calls, h.ordered.called⟩,
    ⟨h.placed.woken, h.placed.returned, h.placed.delivered, h.placed.handed, h.placed.apart, h.placed.consumed,
      h.placed.previous, h.placed.distinct⟩,
    ⟨fun _ => ⟨rfl, rfl, hcleanups, ?_, .inl hconsumers⟩, fun hended => ?_, h.phase.held⟩,
    ⟨settle_nodup h.settles.once _ _, fun push => ?_, fun push => ?_, fun push => ?_⟩⟩
  · rw [h.ordered.pushes, List.append_nil, List.append_nil, List.flatten_append, List.flatten_append, List.append_assoc]
    simp
  · rw [← List.append_assoc]
    exact List.rel_append hbefore (.cons (.more hf hgroup _) .nil)
  · rw [List.filterMap_append]
    rfl
  · rw [hlive] at hended
    cases hended
  · refine (hmem _).trans (Iff.trans (or_congr (h.settles.coalesced push) Iff.rfl) ?_)
    have hinner : inner [group ++ [s.nextEntry value]] = inner [group] ++ [prev.push] := by
      simp only [inner, List.flatMap_cons, List.flatMap_nil, List.append_nil, List.dropLast_concat]
      exact hgroup.pushes
    rw [inner_append, inner_append, hinner, ← List.append_assoc, List.mem_append (t := [prev.push])]
    simp
  · refine (hmem _).trans ((or_iff_left ?_).trans (h.settles.unconsumed push))
    simp
  · refine (hmem _).trans ((or_iff_left ?_).trans (h.settles.consumed push))
    simp

/-- **What a push does:** its entry is dropped, handed to a call, merged with the last message or waits. -/
theorem Invariant.push (h : Invariant coalesce s groups late left held) (value : M) :
    ∃ groups late left, Invariant coalesce (s.push coalesce value) groups late left held := by
  cases hlive : s.sentinel with
  | some sentinel =>
    refine ⟨groups, late ++ [s.nextEntry value], left, ?_⟩
    simp only [Run.push, hlive]
    exact h.drop (by rw [hlive]; exact Option.some_ne_none _) value
  | none =>
    cases hconsumers : s.consumers with
    | cons consumer consumers =>
      have hhand : s.push coalesce value = { s with
          pushed := s.pushed ++ [s.nextEntry value]
          consumers
          handed := s.handed ++ [(consumer, s.nextEntry value)]
          woken := s.woken ++ [(consumer, .entry (s.nextEntry value))] } := by
        simp only [Run.push, hlive, hconsumers]
      rw [hhand]
      exact ⟨_, late, left, h.hand hlive hconsumers value⟩
    | nil =>
      by_cases hmerge : ∃ f prev, coalesce = some f ∧ s.messages.getLast? = some (.entry prev)
      · obtain ⟨f, prev, hf, hlast⟩ := hmerge
        have hmessages := (List.dropLast_append_getLast? (Message.entry prev) hlast).symm
        obtain ⟨groups, left, hmerged⟩ := h.merge hlive hconsumers hf hmessages value
        have hmerge : s.push coalesce value = { s with
            pushed := s.pushed ++ [s.nextEntry value]
            messages := s.messages.dropLast ++ [.entry ⟨f (s.nextEntry value).value prev.value, (s.nextEntry value).push⟩]
            results := settle s.results prev.push .coalesced } := by
          simp only [Run.push, hlive, hconsumers, hlast, hf]
        rw [hmerge]
        exact ⟨groups, late, left, hmerged⟩
      · have hqueue : s.push coalesce value = { s with
            pushed := s.pushed ++ [s.nextEntry value]
            messages := s.messages ++ [.entry (s.nextEntry value)] } := by
          simp only [Run.push, hlive, hconsumers]
          split
          · next f prev hlast => exact absurd ⟨f, prev, rfl, hlast⟩ hmerge
          · rfl
        rw [hqueue]
        exact ⟨_, late, _, h.queue hlive hconsumers value⟩

theorem Invariant.cancel (h : Invariant coalesce s groups late left held) (err : Option E) :
    ∃ held, Invariant coalesce (s.cancel err) groups late left held := h.terminate _

theorem Invariant.end_ (h : Invariant coalesce s groups late left held) :
    ∃ held, Invariant coalesce s.end_ groups late left held := by
  cases hsentinel : s.sentinel with
  | some sentinel =>
    have hsame : s.end_ = s := by simp only [Run.end_, hsentinel]
    rw [hsame]
    exact ⟨held, h⟩
  | none =>
    obtain ⟨hlate, hheld, hcleanups, hleft, hidle⟩ := h.phase.live hsentinel
    by_cases hmessages : s.messages = []
    · have hcancel : s.end_ = s.cancel none := by simp only [Run.end_, hsentinel, hmessages]
      rw [hcancel]
      exact h.cancel none
    · have hmark : s.end_ = { s with messages := s.messages ++ [.terminus] } := by
        simp only [Run.end_, hsentinel]
      rw [hmark]
      refine ⟨held, h.ordered.of_eq rfl rfl rfl rfl,
        ⟨h.placed.woken, h.placed.returned, h.placed.delivered, h.placed.handed, h.placed.apart, h.placed.consumed,
          h.placed.previous, h.placed.distinct⟩,
        ⟨fun _ => ⟨hlate, hheld, hcleanups, ?_, .inl (hidle.resolve_right hmessages)⟩, fun hended => ?_, h.phase.held⟩,
        ⟨h.settles.once, h.settles.coalesced, h.settles.unconsumed, h.settles.consumed⟩⟩
      · rw [hleft, List.filterMap_append]
        exact (List.append_nil _).symm
      · rw [hsentinel] at hended
        cases hended

/-! ## Iterating -/

theorem Invariant.call (h : Invariant coalesce s groups late left held) :
    Invariant coalesce { s with calls := s.calls + 1 } groups late left held :=
  ⟨⟨h.ordered.pushes, h.ordered.numbered, h.ordered.merged, h.ordered.calls,
      fun call hcall => Nat.lt_succ_of_lt (h.ordered.called call hcall)⟩,
    ⟨h.placed.woken, h.placed.returned, h.placed.delivered, h.placed.handed, h.placed.apart, h.placed.consumed,
      h.placed.previous, h.placed.distinct⟩,
    ⟨h.phase.live, h.phase.ended, h.phase.held⟩,
    ⟨h.settles.once, h.settles.coalesced, h.settles.unconsumed, h.settles.consumed⟩⟩

theorem Invariant.comeBack (h : Invariant coalesce s groups late left held) (call : ℕ) {outcome : Outcome M E}
    (houtcome : ∀ e, outcome ≠ .entry e) :
    Invariant coalesce { s with returned := s.returned ++ [(call, outcome)] } groups late left held := by
  have hmem (c e) : (c, Outcome.entry e) ∈ s.returned ++ [(call, outcome)] ↔ (c, Outcome.entry e) ∈ s.returned := by
    rw [List.mem_append, List.mem_singleton]
    exact or_iff_left fun heq => houtcome e (congrArg Prod.snd heq).symm
  refine ⟨h.ordered.of_eq rfl rfl rfl rfl,
    ⟨h.placed.woken, fun c e he => h.placed.returned c e ((hmem c e).mp he), fun e => ?_, h.placed.handed, h.placed.apart,
      h.placed.consumed, h.placed.previous, ?_⟩,
    ⟨h.phase.live, h.phase.ended, h.phase.held⟩,
    ⟨h.settles.once, h.settles.coalesced, h.settles.unconsumed, h.settles.consumed⟩⟩
  · exact (h.placed.delivered e).trans (exists_congr fun c => (hmem c e).symm)
  · rw [entriesOf_append, entriesOf_other call houtcome, List.append_nil]
    exact h.placed.distinct

theorem Invariant.deliver (h : Invariant coalesce s groups late left held) {call : ℕ} {e : Entry M}
    {woken : List (ℕ × Outcome M E)} (hwoken : s.woken = (call, .entry e) :: woken) :
    Invariant coalesce
      { s with woken, consuming := s.consuming ++ [e], returned := s.returned ++ [(call, .entry e)] }
      groups late left held := by
  have hentries : s.wokenEntries = e :: wokenEntries { s with woken } := congrArg entriesOf hwoken
  have hperm : (wokenEntries { s with woken } ++ (s.consuming ++ [e])).Perm (s.wokenEntries ++ s.consuming) := by
    rw [hentries, ← List.append_assoc]
    exact List.perm_append_singleton _ _
  have hdelivered (e' : Entry M) : (e' ∈ s.consuming ++ [e] ∨ e' ∈ s.consumed) ↔ s.Delivered e' ∨ e' = e := by
    rw [List.mem_append, List.mem_singleton, or_right_comm]
    rfl
  have hhanded : (call, e) ∈ s.handed := h.placed.woken call e (by rw [hwoken]; exact List.mem_cons_self)
  refine ⟨h.ordered.of_eq rfl rfl rfl rfl,
    ⟨fun c e' he => h.placed.woken c e' (by rw [hwoken]; exact List.mem_cons_of_mem _ he), fun c e' he => ?_, fun e' => ?_,
      fun e' he => ?_, hperm.nodup_iff.mpr h.placed.apart, fun e' he hin => ?_, fun e' hprev => ?_, ?_⟩,
    ⟨h.phase.live, h.phase.ended, h.phase.held.1, fun e' he => (hdelivered e').mpr (.inl (h.phase.held.2 e' he))⟩,
    ⟨h.settles.once, h.settles.coalesced, h.settles.unconsumed, h.settles.consumed⟩⟩
  · rcases List.mem_append.mp he with hold | hnew
    · exact h.placed.returned c e' hold
    · cases List.mem_singleton.mp hnew
      exact hhanded
  · refine (hdelivered e').trans ((or_congr (h.placed.delivered e') Iff.rfl).trans ?_)
    simp [exists_or]
  · rcases h.placed.handed e' he with hin | hin
    · rw [hentries, List.mem_cons] at hin
      rcases hin with rfl | hin
      · exact .inr ((hdelivered e').mpr (.inr rfl))
      · exact .inl hin
    · exact .inr ((hdelivered e').mpr (.inl hin))
  · exact h.placed.consumed e' he (hperm.mem_iff.mp hin)
  · exact (hdelivered e').mpr (.inl (h.placed.previous e' hprev))
  · rw [entriesOf_append]
    refine List.nodup_append'.mpr ⟨h.placed.distinct, List.nodup_singleton e, List.disjoint_singleton.mpr fun hin => ?_⟩
    have hmem : e ∈ s.wokenEntries := by rw [hentries]; exact List.mem_cons_self
    rcases (h.placed.delivered e).mpr (mem_entriesOf.mp hin) with hconsuming | hconsumed
    · exact (List.nodup_append'.mp h.placed.apart).2.2 hmem hconsuming
    · exact h.placed.consumed e hconsumed (List.mem_append_left _ hmem)

theorem Invariant.shift (h : Invariant coalesce s groups late left held) {e : Entry M} {messages : List (Message M)}
    (hmessages : s.messages = .entry e :: messages) :
    ∃ left, Invariant coalesce
      { s with
        messages
        calls := s.calls + 1
        handed := s.handed ++ [(s.calls, e)]
        woken := (s.calls, .entry e) :: s.woken }
      groups late left held := by
  have hlive : s.sentinel = none := by
    by_contra hended
    have hnil := (h.phase.ended (Option.isSome_iff_ne_none.mpr hended)).1
    cases hmessages.symm.trans hnil
  obtain ⟨rfl, rfl, hcleanups, hleft, hidle⟩ := h.phase.live hlive
  have hconsumers : s.consumers = [] := hidle.resolve_right (by rw [hmessages]; exact List.cons_ne_nil _ _)
  rw [hmessages] at hleft
  obtain rfl : left = e :: messages.filterMap Message.entry? := hleft
  have hnew : e ∉ s.handed.map (·.2) := fun hin =>
    (List.nodup_append'.mp (List.Nodup.of_map _ h.ordered.entries_nodup)).2.2 hin List.mem_cons_self
  have hcalls := h.ordered.calls
  have hcalled := h.ordered.called
  rw [hconsumers, List.append_nil] at hcalls hcalled
  refine ⟨messages.filterMap Message.entry?, ⟨h.ordered.pushes, h.ordered.numbered, ?_, ?_, ?_⟩,
    ⟨fun c e' he => ?_, fun c e' he => List.mem_append_left _ (h.placed.returned c e' he), h.placed.delivered,
      fun e' he => ?_, ?_, fun e' he => ?_, h.placed.previous, h.placed.distinct⟩,
    ⟨fun _ => ⟨rfl, rfl, hcleanups, rfl, .inl hconsumers⟩, fun hended => ?_, h.phase.held⟩,
    ⟨h.settles.once, h.settles.coalesced, h.settles.unconsumed, h.settles.consumed⟩⟩
  · rw [List.map_append, List.append_assoc]
    exact h.ordered.merged
  · rw [hconsumers, List.append_nil, List.map_append]
    refine List.pairwise_append.mpr ⟨hcalls, List.pairwise_singleton _ _, fun call hcall last hlast => ?_⟩
    obtain rfl := List.mem_singleton.mp hlast
    exact hcalled call hcall
  · rw [hconsumers, List.append_nil, List.map_append]
    intro call hcall
    rcases List.mem_append.mp hcall with hold | hlast
    · exact Nat.lt_succ_of_lt (hcalled call hold)
    · obtain rfl := List.mem_singleton.mp hlast
      exact Nat.lt_succ_self _
  · rcases List.mem_cons.mp he with heq | hold
    · cases heq
      exact List.mem_append_right _ (List.mem_singleton_self _)
    · exact List.mem_append_left _ (h.placed.woken c e' hold)
  · rw [List.map_append, List.mem_append] at he
    rcases he with hold | hlast
    · exact (h.placed.handed e' hold).imp_left (List.mem_cons_of_mem _)
    · obtain rfl := List.mem_singleton.mp hlast
      exact .inl List.mem_cons_self
  · refine List.nodup_cons.mpr ⟨fun hin => ?_, h.placed.apart⟩
    rcases List.mem_append.mp hin with hin | hin
    · exact hnew (h.placed.mem_handed_of_woken hin)
    · exact hnew (h.placed.mem_handed (.inl hin))
  · intro hin
    rcases List.mem_cons.mp hin with rfl | hin
    · exact hnew (h.placed.mem_handed (.inr he))
    · exact h.placed.consumed e' he hin
  · rw [hlive] at hended
    cases hended

theorem Invariant.await (h : Invariant coalesce s groups late left held) (hlive : s.sentinel = none)
    (hmessages : s.messages = []) :
    Invariant coalesce { s with calls := s.calls + 1, consumers := s.consumers ++ [s.calls] } groups late left held := by
  obtain ⟨hlate, hheld, hcleanups, hleft, -⟩ := h.phase.live hlive
  refine ⟨⟨h.ordered.pushes, h.ordered.numbered, h.ordered.merged, ?_, ?_⟩,
    ⟨h.placed.woken, h.placed.returned, h.placed.delivered, h.placed.handed, h.placed.apart, h.placed.consumed,
      h.placed.previous, h.placed.distinct⟩,
    ⟨fun _ => ⟨hlate, hheld, hcleanups, hleft, .inr hmessages⟩, fun hended => ?_, h.phase.held⟩,
    ⟨h.settles.once, h.settles.coalesced, h.settles.unconsumed, h.settles.consumed⟩⟩
  · rw [← List.append_assoc]
    refine List.pairwise_append.mpr ⟨h.ordered.calls, List.pairwise_singleton _ _, fun call hcall last hlast => ?_⟩
    obtain rfl := List.mem_singleton.mp hlast
    exact h.ordered.called call hcall
  · rw [← List.append_assoc]
    intro call hcall
    rcases List.mem_append.mp hcall with hold | hlast
    · exact Nat.lt_succ_of_lt (h.ordered.called call hold)
    · obtain rfl := List.mem_singleton.mp hlast
      exact Nat.lt_succ_self _
  · rw [hlive] at hended
    cases hended

theorem Invariant.unmark (h : Invariant coalesce s groups late left held) {messages : List (Message M)}
    (hmessages : s.messages = .terminus :: messages) :
    Invariant coalesce { s with messages } groups late left held := by
  refine ⟨h.ordered.of_eq rfl rfl rfl rfl,
    ⟨h.placed.woken, h.placed.returned, h.placed.delivered, h.placed.handed, h.placed.apart, h.placed.consumed,
      h.placed.previous, h.placed.distinct⟩,
    ⟨fun hlive => ?_, fun hended => ?_, h.phase.held⟩,
    ⟨h.settles.once, h.settles.coalesced, h.settles.unconsumed, h.settles.consumed⟩⟩
  · obtain ⟨hlate, hheld, hcleanups, hleft, hidle⟩ := h.phase.live hlive
    rw [hmessages] at hleft hidle
    exact ⟨hlate, hheld, hcleanups, hleft, .inl (hidle.resolve_right (List.cons_ne_nil _ _))⟩
  · cases hmessages.symm.trans (h.phase.ended hended).1

theorem Invariant.wake (h : Invariant coalesce s groups late left held) {call : ℕ} {outcome : Outcome M E}
    (houtcome : ∀ e, outcome ≠ .entry e) {woken : List (ℕ × Outcome M E)} (hwoken : s.woken = (call, outcome) :: woken) :
    Invariant coalesce { s with woken } groups late left held := by
  have hentries : s.wokenEntries = wokenEntries { s with woken } := by
    refine (congrArg entriesOf hwoken).trans ((entriesOf_append [(call, outcome)] woken).trans ?_)
    rw [entriesOf_other call houtcome]
    rfl
  refine ⟨h.ordered.of_eq rfl rfl rfl rfl,
    ⟨fun c e he => h.placed.woken c e (by rw [hwoken]; exact List.mem_cons_of_mem _ he), h.placed.returned,
      h.placed.delivered, hentries ▸ h.placed.handed, hentries ▸ h.placed.apart, hentries ▸ h.placed.consumed,
      h.placed.previous, h.placed.distinct⟩,
    ⟨h.phase.live, h.phase.ended, h.phase.held⟩,
    ⟨h.settles.once, h.settles.coalesced, h.settles.unconsumed, h.settles.consumed⟩⟩

theorem outcome_ne_entry (sentinel : Sentinel E) (e : Entry M) : sentinel.outcome ≠ .entry e := by
  cases sentinel <;> exact fun h => by cases h

theorem Invariant.pipelineNext (h : Invariant coalesce s groups late left held) :
    ∃ left held, Invariant coalesce s.pipelineNext groups late left held := by
  cases hmessages : s.messages with
  | nil =>
    cases hsentinel : s.sentinel with
    | none =>
      have hwait : s.pipelineNext = { s with calls := s.calls + 1, consumers := s.consumers ++ [s.calls] } := by
        simp only [Run.pipelineNext, hmessages, hsentinel]
      rw [hwait]
      exact ⟨left, held, h.await hsentinel hmessages⟩
    | some sentinel =>
      have hdone : s.pipelineNext =
          { s with calls := s.calls + 1, returned := s.returned ++ [(s.calls, sentinel.outcome)] } := by
        simp only [Run.pipelineNext, hmessages, hsentinel]
      rw [hdone]
      exact ⟨left, held, h.call.comeBack s.calls (outcome_ne_entry sentinel)⟩
  | cons message messages =>
    cases message with
    | entry e =>
      have htake : s.pipelineNext =
          { s with
            calls := s.calls + 1
            messages
            consuming := s.consuming ++ [e]
            handed := s.handed ++ [(s.calls, e)]
            returned := s.returned ++ [(s.calls, .entry e)] } := by
        simp only [Run.pipelineNext, hmessages]
      obtain ⟨left, hshift⟩ := h.shift hmessages
      rw [htake]
      exact ⟨left, held, hshift.deliver rfl⟩
    | terminus =>
      have hend : s.pipelineNext =
          { Run.cancel { s with calls := s.calls + 1, messages } none with
            returned := (Run.cancel { s with calls := s.calls + 1, messages } none).returned ++ [(s.calls, .done)] } := by
        simp only [Run.pipelineNext, hmessages]
      obtain ⟨held, hcancel⟩ := (h.call.unmark hmessages).cancel none
      rw [hend]
      exact ⟨left, held, hcancel.comeBack s.calls fun e => by simp⟩

theorem Invariant.resume (h : Invariant coalesce s groups late left held) :
    Invariant coalesce s.resume groups late left held := by
  unfold Run.resume
  split
  · exact h
  · next call e woken hwoken => exact h.deliver hwoken
  · next call outcome woken hne hwoken =>
    have houtcome : ∀ e, outcome ≠ .entry e := fun e heq => hne e heq
    exact (h.wake houtcome hwoken).comeBack call houtcome

theorem Invariant.continue_ (h : Invariant coalesce s groups late left held) :
    Invariant coalesce s.continue_ groups late left held := by
  have hsame (continued : ℕ) (prevConsumed : Option (Entry M)) (hprev : ∀ e, prevConsumed = some e → s.Delivered e) :
      Invariant coalesce { s with continued, prevConsumed } groups late left held :=
    ⟨h.ordered.of_eq rfl rfl rfl rfl,
      ⟨h.placed.woken, h.placed.returned, h.placed.delivered, h.placed.handed, h.placed.apart, h.placed.consumed, hprev,
        h.placed.distinct⟩,
      ⟨h.phase.live, h.phase.ended, h.phase.held⟩,
      ⟨h.settles.once, h.settles.coalesced, h.settles.unconsumed, h.settles.consumed⟩⟩
  unfold Run.continue_
  split
  · exact h
  · next call e hreturned =>
    refine hsame _ _ fun e' he' => ?_
    obtain rfl := Option.some.inj he'
    exact (h.placed.delivered e).mpr ⟨call, List.mem_of_getElem? hreturned⟩
  · exact hsame _ _ h.placed.previous

theorem Invariant.signalPrev (h : Invariant coalesce s groups late left held) :
    Invariant coalesce s.signalPrev groups late left held := by
  unfold Run.signalPrev
  split
  · exact h
  · next e hprev => exact h.consume (h.placed.previous e hprev)

theorem Invariant.signal (h : Invariant coalesce s groups late left held) (call : ℕ) :
    Invariant coalesce (s.signal call) groups late left held := by
  unfold Run.signal
  split
  · next c e hfind => exact h.consume ((h.placed.delivered e).mpr ⟨c, List.mem_of_find?_eq_some hfind⟩)
  · exact h

/-- **What an event keeps.** -/
theorem Invariant.step (h : Invariant coalesce s groups late left held) (iteration : Iteration) (event : Event M E) :
    ∃ groups late left held, Invariant coalesce (s.step coalesce iteration event) groups late left held := by
  cases event with
  | push value =>
    obtain ⟨groups, late, left, hpush⟩ := h.push value
    exact ⟨groups, late, left, held, hpush⟩
  | end_ =>
    obtain ⟨held, hend⟩ := h.end_
    exact ⟨groups, late, left, held, hend⟩
  | cancel err =>
    obtain ⟨held, hcancel⟩ := h.cancel err
    exact ⟨groups, late, left, held, hcancel⟩
  | fail err =>
    obtain ⟨held, hfail⟩ := h.terminate (.error err)
    exact ⟨groups, late, left, held, hfail⟩
  | resume => exact ⟨groups, late, left, held, h.resume⟩
  | next =>
    cases iteration with
    | pipeline =>
      obtain ⟨left, held, hnext⟩ := h.pipelineNext
      exact ⟨groups, late, left, held, hnext⟩
    | plain =>
      obtain ⟨left, held, hnext⟩ := h.signalPrev.pipelineNext
      exact ⟨groups, late, left, held, hnext⟩
  | return_ =>
    cases iteration with
    | pipeline =>
      obtain ⟨held, hcancel⟩ := h.cancel none
      exact ⟨groups, late, left, held, hcancel⟩
    | plain =>
      obtain ⟨held, hcancel⟩ := h.signalPrev.cancel none
      exact ⟨groups, late, left, held, hcancel⟩
  | consumed call =>
    cases iteration with
    | pipeline => exact ⟨groups, late, left, held, h.signal call⟩
    | plain => exact ⟨groups, late, left, held, h⟩
  | continue_ =>
    cases iteration with
    | pipeline => exact ⟨groups, late, left, held, h⟩
    | plain => exact ⟨groups, late, left, held, h.continue_⟩

theorem run_snoc (coalesce : Option (M → M → M)) (iteration : Iteration) (events : List (Event M E)) (event : Event M E) :
    run coalesce iteration (events ++ [event]) = (run coalesce iteration events).step coalesce iteration event := by
  unfold run
  rw [List.foldl_append]
  rfl

theorem run_invariant (coalesce : Option (M → M → M)) (iteration : Iteration) (events : List (Event M E)) :
    ∃ groups late left held, Invariant coalesce (run coalesce iteration events) groups late left held := by
  induction events using List.reverseRecOn with
  | nil => exact ⟨[], [], [], [], start_invariant⟩
  | append_singleton events event ih =>
    obtain ⟨groups, late, left, held, h⟩ := ih
    rw [run_snoc]
    exact h.step iteration event

end Run

end ZeroSync.MessageSubscription
