/-
What the operations of a connection context manager do to its records, and
that they restore what is derived from them: the background connection and
the deadline of its retransform.
-/
import ZeroSync.ConnectionContext
import ZeroSync.Fallible

namespace ZeroSync.ConnectionContexts

/-! ## Auth -/

theorem authEquals_refl (a : Option Auth) : authEquals a a = true := by
  rcases a with _ | ⟨raw⟩ | ⟨raw, decoded⟩ <;> simp [authEquals]

theorem authEquals_symm {a b : Option Auth} (h : authEquals a b = true) : authEquals b a = true := by
  rcases a with _ | ⟨raw⟩ | ⟨raw, decoded⟩ <;> rcases b with _ | ⟨raw'⟩ | ⟨raw', decoded'⟩ <;>
    simp_all [authEquals]

theorem authEquals_trans {a b c : Option Auth} (h : authEquals a b = true) (h' : authEquals b c = true) :
    authEquals a c = true := by
  rcases a with _ | ⟨raw⟩ | ⟨raw, decoded⟩ <;> rcases b with _ | ⟨raw'⟩ | ⟨raw', decoded'⟩ <;>
    rcases c with _ | ⟨raw''⟩ | ⟨raw'', decoded''⟩ <;> simp_all [authEquals]

/-- The same auth, and the same fetch contexts. -/
structure ConnectionContext.SameContext (a b : ConnectionContext) : Prop where
  auth : authEquals a.auth b.auth = true
  query : a.queryContext = b.queryContext
  mutate : a.mutateContext = b.mutateContext

namespace ConnectionContext.SameContext

variable {a b c : ConnectionContext}

theorem refl (a : ConnectionContext) : a.SameContext a := ⟨authEquals_refl _, rfl, rfl⟩

theorem symm (h : a.SameContext b) : b.SameContext a := ⟨authEquals_symm h.auth, h.query.symm, h.mutate.symm⟩

theorem trans (h : a.SameContext b) (h' : b.SameContext c) : a.SameContext c :=
  ⟨authEquals_trans h.auth h'.auth, h.query.trans h'.query, h.mutate.trans h'.mutate⟩

end ConnectionContext.SameContext

namespace ConnectionContextManager

variable {cfg : Config} {m m' : ConnectionContextManager} {c c' : ConnectionContext} {selector : ConnectionSelector}
  {now : ℕ}

/-! ## Records -/

/-- A record is kept under its client. -/
def Keyed (m : ConnectionContextManager) : Prop := ∀ k c, m.connections.get? k = some c → c.clientID = k

theorem getConnectionContext_eq_some :
    m.getConnectionContext selector = some c ↔
      m.connections.get? selector.clientID = some c ∧ c.wsID = selector.wsID := by
  simp [getConnectionContext]

theorem Keyed.selector_eq (hm : m.Keyed) (h : m.getConnectionContext selector = some c) : c.selector = selector := by
  obtain ⟨hget, hws⟩ := getConnectionContext_eq_some.mp h
  show (⟨c.clientID, c.wsID⟩ : ConnectionSelector) = selector
  rw [hm _ _ hget, hws]

theorem Keyed.mem_values_iff (hm : m.Keyed) : c ∈ m.connections.values ↔ m.getConnectionContext c.selector = some c := by
  rw [OrderedMap.mem_values_iff, getConnectionContext_eq_some]
  constructor
  · rintro ⟨k, hk⟩
    obtain rfl := hm k c hk
    exact ⟨hk, rfl⟩
  · rintro ⟨h, -⟩
    exact ⟨_, h⟩

theorem Keyed.store (hm : m.Keyed) (c : ConnectionContext) : (m.storeConnection c).Keyed := by
  intro k c' h
  simp only [storeConnection, OrderedMap.get?_set] at h
  split at h
  · next hk => rw [← Option.some.inj h, hk]
  · exact hm k c' h

theorem Keyed.erase (hm : m.Keyed) (k : String) : Keyed { m with connections := m.connections.erase k } := by
  intro k' c' h
  simp only [OrderedMap.get?_erase] at h
  split at h
  · cases h
  · exact hm k' c' h

theorem getConnectionContext_store (c : ConnectionContext) (selector : ConnectionSelector) :
    (m.storeConnection c).getConnectionContext selector =
      if c.clientID = selector.clientID then (if c.wsID = selector.wsID then some c else none)
      else m.getConnectionContext selector := by
  simp only [getConnectionContext, storeConnection, OrderedMap.get?_set]
  split
  · simp [Option.filter_some]
  · rfl

theorem getConnectionContext_store_self (c : ConnectionContext) :
    (m.storeConnection c).getConnectionContext c.selector = some c := by
  rw [getConnectionContext_store, ConnectionContext.selector, if_pos rfl, if_pos rfl]

theorem eq_of_getConnectionContext_store (h : (m.storeConnection c).getConnectionContext selector = some c') :
    c' = c ∨ m.getConnectionContext selector = some c' := by
  rw [getConnectionContext_store] at h
  split at h
  · split at h
    · exact .inl (Option.some.inj h).symm
    · cases h
  · exact .inr h

theorem getConnectionContext_of_erase {k : String}
    (h : getConnectionContext { m with connections := m.connections.erase k } selector = some c) :
    m.getConnectionContext selector = some c := by
  rw [getConnectionContext_eq_some] at h ⊢
  rw [OrderedMap.get?_erase] at h
  split at h
  · cases h.1
  · exact h

/-! ## Derived state -/

/-- The background connection is a live, validated connection, and there is one if one is validated. -/
structure Selected (m : ConnectionContextManager) : Prop where
  validated : ∀ selector, m.group.backgroundConnection = some selector →
    ∃ c, m.getConnectionContext selector = some c ∧ c.state = .validated
  absent : m.group.backgroundConnection = none → ∀ selector c, m.getConnectionContext selector = some c →
    c.state ≠ .validated

/-- The background is to be retransformed at some time: there is a background
connection, the queries are ready, and there is an interval. -/
def Scheduled (cfg : Config) (m : ConnectionContextManager) : Prop :=
  m.group.retransformAt.isSome ↔
    m.getBackgroundConnectionContext.isSome ∧ m.sharedRetransformReady = true ∧ cfg.retransformIntervalMs.isSome

theorem Selected.background_isSome (h : m.Selected) :
    m.getBackgroundConnectionContext.isSome = m.group.backgroundConnection.isSome := by
  unfold getBackgroundConnectionContext
  cases hb : m.group.backgroundConnection with
  | none => rfl
  | some selector =>
    obtain ⟨c, hc, -⟩ := h.validated selector hb
    simp [hc]

theorem mem_newestValidated (h : m.newestValidated = some c) : c ∈ m.connections.values ∧ c.state = .validated := by
  have hmem := List.mem_of_mem_head? (Option.mem_def.mpr h)
  rw [List.mem_insertionSort, List.mem_filter] at hmem
  exact ⟨hmem.1, of_decide_eq_true hmem.2⟩

theorem newestValidated_eq_none (h : m.newestValidated = none) : ∀ c ∈ m.connections.values, c.state ≠ .validated := by
  intro c hc hstate
  have hnil := List.head?_eq_none_iff.mp h
  have hmem : c ∈ m.connections.values.filter fun c => c.state = .validated :=
    List.mem_filter.mpr ⟨hc, decide_eq_true hstate⟩
  have hsorted := (List.mem_insertionSort fun a b : ConnectionContext => b.insertionOrder ≤ a.insertionOrder).mpr hmem
  rw [hnil] at hsorted
  cases hsorted

@[simp] theorem connections_refreshBackground : m.refreshBackgroundConnectionContext.connections = m.connections := by
  unfold refreshBackgroundConnectionContext
  split <;> rfl

theorem selected_refreshBackground (hm : m.Keyed) : m.refreshBackgroundConnectionContext.Selected := by
  unfold refreshBackgroundConnectionContext
  split
  · next h =>
    obtain ⟨c, hc, hstate⟩ := (Option.any_eq_true ..).mp h
    obtain ⟨selector, hselector, hget⟩ := Option.bind_eq_some_iff.mp hc
    refine ⟨fun selector' hselector' => ?_, fun hnone => by rw [hselector] at hnone; cases hnone⟩
    obtain rfl := Option.some.inj (hselector.symm.trans hselector')
    exact ⟨c, hget, of_decide_eq_true hstate⟩
  · cases hnewest : m.newestValidated with
    | none =>
      refine ⟨(fun _ hsome => by cases hsome), fun _ selector c hc => newestValidated_eq_none hnewest c ?_⟩
      rw [hm.mem_values_iff, hm.selector_eq hc]
      exact hc
    | some c =>
      obtain ⟨hmem, hstate⟩ := mem_newestValidated hnewest
      refine ⟨fun selector hselector => ?_, fun hnone => by cases hnone⟩
      obtain rfl := Option.some.inj hselector
      exact ⟨c, hm.mem_values_iff.mp hmem, hstate⟩

@[simp] theorem connections_updateDeadline (m : ConnectionContextManager) (now : ℕ) (reset : Bool) :
    (m.updateBackgroundRetransformDeadline cfg now reset).connections = m.connections := by
  unfold updateBackgroundRetransformDeadline
  split
  · split <;> rfl
  · rfl

@[simp] theorem background_updateDeadline (m : ConnectionContextManager) (now : ℕ) (reset : Bool) :
    (m.updateBackgroundRetransformDeadline cfg now reset).group.backgroundConnection = m.group.backgroundConnection := by
  unfold updateBackgroundRetransformDeadline
  split
  · split <;> rfl
  · rfl

@[simp] theorem pinnedUser_updateDeadline (m : ConnectionContextManager) (now : ℕ) (reset : Bool) :
    (m.updateBackgroundRetransformDeadline cfg now reset).group.pinnedUser = m.group.pinnedUser := by
  unfold updateBackgroundRetransformDeadline
  split
  · split <;> rfl
  · rfl

@[simp] theorem pinnedUser_refreshBackground :
    m.refreshBackgroundConnectionContext.group.pinnedUser = m.group.pinnedUser := by
  unfold refreshBackgroundConnectionContext
  split <;> rfl

theorem getConnectionContext_congr (h : m.connections = m'.connections) :
    m.getConnectionContext = m'.getConnectionContext := by
  funext selector
  rw [getConnectionContext, getConnectionContext, h]

theorem Selected.congr (h : m.Selected) (hconnections : m'.connections = m.connections)
    (hbackground : m'.group.backgroundConnection = m.group.backgroundConnection) : m'.Selected := by
  have hget := getConnectionContext_congr hconnections
  exact ⟨by rw [hbackground, hget]; exact h.validated, by rw [hbackground, hget]; exact h.absent⟩

theorem getBackground_congr (hconnections : m'.connections = m.connections)
    (hbackground : m'.group.backgroundConnection = m.group.backgroundConnection) :
    m'.getBackgroundConnectionContext = m.getBackgroundConnectionContext := by
  rw [getBackgroundConnectionContext, getBackgroundConnectionContext, hbackground, getConnectionContext_congr hconnections]

theorem scheduled_updateDeadline (m : ConnectionContextManager) (now : ℕ) (reset : Bool) :
    Scheduled cfg (m.updateBackgroundRetransformDeadline cfg now reset) := by
  have hconnections : (m.updateBackgroundRetransformDeadline cfg now reset).connections = m.connections :=
    connections_updateDeadline m now reset
  have hbackground := getBackground_congr hconnections (background_updateDeadline m now reset)
  unfold Scheduled
  rw [hbackground]
  unfold updateBackgroundRetransformDeadline
  split
  · next b interval hb hinterval hready =>
    split
    · simp [hb, hinterval, hready]
    · next hkeep =>
      have hsome : m.group.retransformAt.isSome := by
        rw [Option.isSome_iff_ne_none]
        intro hnone
        simp [hnone] at hkeep
      simp [hsome, hb, hinterval, hready]
  · next hno =>
    simp only [Option.isSome_none, Bool.false_eq_true, false_iff, not_and]
    intro hb hready hinterval
    obtain ⟨b, hb⟩ := Option.isSome_iff_exists.mp hb
    obtain ⟨interval, hinterval⟩ := Option.isSome_iff_exists.mp hinterval
    exact hno b interval hb hinterval hready

/-! ## Refreshing -/

@[simp] theorem connections_refresh (m : ConnectionContextManager) (now : ℕ) :
    (m.refresh cfg now).connections = m.connections := by
  rw [refresh, connections_updateDeadline, connections_refreshBackground]

@[simp] theorem pinnedUser_refresh (m : ConnectionContextManager) (now : ℕ) :
    (m.refresh cfg now).group.pinnedUser = m.group.pinnedUser := by
  rw [refresh, pinnedUser_updateDeadline, pinnedUser_refreshBackground]

@[simp] theorem getConnectionContext_refresh (m : ConnectionContextManager) (now : ℕ) :
    (m.refresh cfg now).getConnectionContext = m.getConnectionContext :=
  getConnectionContext_congr (connections_refresh m now)

theorem Keyed.congr (h : m.Keyed) (hconnections : m'.connections = m.connections) : m'.Keyed := by
  intro k c hc
  exact h k c (hconnections ▸ hc)

theorem selected_refresh (hm : m.Keyed) (now : ℕ) : (m.refresh cfg now).Selected :=
  (selected_refreshBackground hm).congr (connections_updateDeadline _ now false) (background_updateDeadline _ now false)

theorem scheduled_refresh (m : ConnectionContextManager) (now : ℕ) : (m.refresh cfg now).Scheduled cfg :=
  scheduled_updateDeadline _ now false

theorem Selected.store (h : m.Selected) (hm : m.Keyed) (hc : m.getConnectionContext c.selector = some c')
    (hstate : c'.state = c.state ∨ ∃ b, m.getBackgroundConnectionContext = some b ∧ b.selector ≠ c.selector) :
    (m.storeConnection c).Selected := by
  have hself := getConnectionContext_store_self (m := m) c
  have hother : ∀ selector, selector ≠ c.selector → (c₀ : ConnectionContext) →
      m.getConnectionContext selector = some c₀ → (m.storeConnection c).getConnectionContext selector = some c₀ := by
    intro selector hne c₀ hc₀
    have hclient : c.clientID ≠ selector.clientID := by
      intro heq
      have hget := (getConnectionContext_eq_some.mp hc₀)
      have hget' := (getConnectionContext_eq_some.mp hc)
      rw [← heq] at hget
      obtain rfl := Option.some.inj (hget.1.symm.trans hget'.1)
      exact hne ((hm.selector_eq hc₀).symm.trans (hm.selector_eq hc))
    rw [getConnectionContext_store, if_neg hclient]
    exact hc₀
  rcases hstate with hstate | ⟨b, hb, hne⟩
  · refine ⟨fun selector hselector => ?_, fun hnone selector c₀ hc₀ => ?_⟩
    · obtain ⟨b, hb, hvalidated⟩ := h.validated selector hselector
      by_cases heq : selector = c.selector
      · subst heq
        obtain rfl := Option.some.inj (hb.symm.trans hc)
        exact ⟨c, hself, hstate ▸ hvalidated⟩
      · exact ⟨b, hother selector heq b hb, hvalidated⟩
    · rcases eq_of_getConnectionContext_store hc₀ with rfl | hold
      · exact hstate ▸ h.absent hnone _ c' hc
      · exact h.absent hnone selector c₀ hold
  · obtain ⟨selector, hselector, hget⟩ := Option.bind_eq_some_iff.mp hb
    refine ⟨fun selector' hselector' => ?_, fun hnone => ?_⟩
    · obtain rfl := Option.some.inj (hselector.symm.trans hselector')
      obtain ⟨b', hb', hvalidated⟩ := h.validated selector hselector
      exact ⟨b', hother selector (hm.selector_eq hget ▸ hne) b' hb', hvalidated⟩
    · rw [show (m.storeConnection c).group = m.group from rfl, hselector] at hnone
      cases hnone

theorem Scheduled.store (h : m.Scheduled cfg) (hm : m.Selected) (hm' : (m.storeConnection c).Selected) :
    (m.storeConnection c).Scheduled cfg := by
  have hsame : (m.storeConnection c).getBackgroundConnectionContext.isSome = m.getBackgroundConnectionContext.isSome :=
    hm'.background_isSome.trans hm.background_isSome.symm
  unfold Scheduled
  rw [hsame]
  exact h

theorem selected_prefer (h : m.Selected) (hvalidated : c.state = .validated) :
    ((m.storeConnection c).preferBackgroundConnectionContext c).Selected := by
  have hself := getConnectionContext_store_self (m := m) c
  unfold preferBackgroundConnectionContext
  split
  · next hsome =>
    obtain ⟨b, hb⟩ := Option.isSome_iff_exists.mp hsome
    obtain ⟨selector, hselector, hget⟩ := Option.bind_eq_some_iff.mp hb
    have hselector' : m.group.backgroundConnection = some selector := hselector
    refine ⟨fun selector' heq => ?_, fun hnone => by rw [hselector] at hnone; cases hnone⟩
    obtain rfl := Option.some.inj (hselector.symm.trans heq)
    rcases eq_of_getConnectionContext_store hget with rfl | hold
    · exact ⟨b, hget, hvalidated⟩
    · obtain ⟨b', hb', hstate⟩ := h.validated selector hselector'
      obtain rfl := Option.some.inj (hold.symm.trans hb')
      exact ⟨b, hget, hstate⟩
  · refine ⟨fun selector hselector => ?_, fun hnone => by cases hnone⟩
    obtain rfl := Option.some.inj hselector
    exact ⟨c, hself, hvalidated⟩

/-! ## Validating -/

@[simp] theorem connections_prefer (m : ConnectionContextManager) (c : ConnectionContext) :
    (m.preferBackgroundConnectionContext c).connections = m.connections := by
  unfold preferBackgroundConnectionContext
  split <;> rfl

@[simp] theorem pinnedUser_prefer (m : ConnectionContextManager) (c : ConnectionContext) :
    (m.preferBackgroundConnectionContext c).group.pinnedUser = m.group.pinnedUser := by
  unfold preferBackgroundConnectionContext
  split <;> rfl

theorem pinnedUser_pin_of_some {u user : Option String} (h : m.group.pinnedUser = some u) :
    (m.pin user).group.pinnedUser = some u := by
  simp [pin, h]

theorem connections_recordValidation (m : ConnectionContextManager) (c : ConnectionContext) (user : Option String)
    (now : ℕ) : (m.recordValidation cfg c user now).connections =
      (m.storeConnection (validatedRecord cfg c now)).connections := by
  rw [recordValidation, connections_updateDeadline, connections_prefer]
  rfl

theorem pinnedUser_recordValidation (m : ConnectionContextManager) (c : ConnectionContext) (user : Option String)
    (now : ℕ) : (m.recordValidation cfg c user now).group.pinnedUser = (m.pin user).group.pinnedUser := by
  rw [recordValidation, pinnedUser_updateDeadline, pinnedUser_prefer]
  rfl

theorem selected_recordValidation (h : m.Selected) (c : ConnectionContext) (user : Option String) (now : ℕ) :
    (m.recordValidation cfg c user now).Selected := by
  have hpinned : (m.pin user).Selected := h.congr rfl rfl
  have hvalidated : (validatedRecord cfg c now).state = .validated := rfl
  exact (selected_prefer hpinned hvalidated).congr (connections_updateDeadline _ now false)
    (background_updateDeadline _ now false)

theorem incomingUserState_ok {validation : ConnectionValidation} {user : Option String}
    (h : incomingUserState c validation = .ok user) : user = c.user := by
  cases validation with
  | clientFallback => exact (Except.ok.inj h).symm
  | serverValidated validatedUserID =>
    simp only [incomingUserState] at h
    split at h
    · cases h
    · next heq => rw [← Except.ok.inj h, not_not.mp heq]

theorem validateConnection_cases {revision : ℕ} {validation : ConnectionValidation}
    (h : m.validateConnection cfg selector revision validation now = .ok m') :
    m' = m ∨ ∃ c, m.getConnectionContext selector = some c ∧ (m.pin c.user).group.pinnedUser = some c.user ∧
      m' = m.recordValidation cfg c c.user now := by
  unfold validateConnection at h
  cases hc : m.getConnectionContext selector with
  | none =>
    rw [hc] at h
    exact .inl (Except.ok.inj h).symm
  | some c =>
    simp only [hc] at h
    split at h
    · exact .inl (Except.ok.inj h).symm
    · obtain ⟨incoming, hincoming, h⟩ := Fallible.bind_ok h
      obtain rfl := incomingUserState_ok hincoming
      by_cases hpin : m.group.pinnedUser.any (· ≠ c.user)
      · simp only [hpin, if_true] at h
        cases h
      · simp only [hpin] at h
        refine .inr ⟨c, rfl, ?_, (Except.ok.inj h).symm⟩
        cases hpinned : m.group.pinnedUser with
        | none => simp [pin, hpinned]
        | some u =>
          rw [hpinned] at hpin
          simpa [pin, hpinned] using hpin

end ConnectionContextManager

end ZeroSync.ConnectionContexts
