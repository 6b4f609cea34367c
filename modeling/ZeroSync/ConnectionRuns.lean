/-
The auth state of the connections of one view-syncer over runs of its
operations, calls of `updateAuth` overlapping: it stays coherent
(`Coherent`) as long as every call of `updateAuth` that writes finds the
record it has read still up to date (`UpToDate`).

A session remembers what a manager forgets: the websockets that were
registered, every record that one of them has had, those that are gone, and
the users that were pinned. A websocket registers once.
-/
import ZeroSync.ConnectionContextFacts

namespace ZeroSync.ConnectionContexts

structure Session where
  manager : ConnectionContextManager
  /-- The calls of `updateAuth` that await. -/
  calls : List UpdateAuthCall
  registered : List ConnectionSelector
  history : List ConnectionContext
  /-- The websockets that were closed, failed or replaced. -/
  lost : List ConnectionSelector
  pins : List (Option String)

inductive Action
  | registerConnection (params : ConnectParams) (auth : Option Auth)
  | initConnection (selector : ConnectionSelector) (body : InitConnectionBody)
  | beginUpdateAuth (selector : ConnectionSelector) (wireAuth : Option String)
  | completeUpdateAuth (call : UpdateAuthCall) (verified : Except String (String × JWTPayload))
  | validateConnection (selector : ConnectionSelector) (revision : ℕ) (validation : ConnectionValidation)
  | failConnection (selector : ConnectionSelector) (revision : ℕ)
  | closeConnection (selector : ConnectionSelector)
  | markBackgroundRetransformSuccess (selector : ConnectionSelector) (revision : ℕ)
  | setSharedRetransformReady (ready : Bool)

namespace Session

variable (cfg : Config)

def init : Session := ⟨.init, [], [], [], [], []⟩

/-- The manager after an action at a time. An operation that throws changes nothing. -/
def manage (m : ConnectionContextManager) (now : ℕ) : Action → ConnectionContextManager
  | .registerConnection params auth => m.registerConnection cfg params auth now
  | .initConnection selector body => (m.initConnection cfg selector body now).toOption.getD m
  | .beginUpdateAuth _ _ => m
  | .completeUpdateAuth call verified =>
    match call.resolve cfg verified with
    | .ok next => m.completeUpdateAuth cfg call next now
    | .error _ => m
  | .validateConnection selector revision validation =>
    (m.validateConnection cfg selector revision validation now).toOption.getD m
  | .failConnection selector revision => m.failConnection cfg selector revision now
  | .closeConnection selector => m.closeConnection cfg selector now
  | .markBackgroundRetransformSuccess selector revision => m.markBackgroundRetransformSuccess cfg selector revision now
  | .setSharedRetransformReady ready => m.setSharedRetransformReady cfg ready now

/-- The calls that await after an action. -/
def callsAfter (s : Session) : Action → List UpdateAuthCall
  | .beginUpdateAuth selector wireAuth =>
    match s.manager.beginUpdateAuth selector wireAuth with
    | .ok call => call :: s.calls
    | .error _ => s.calls
  | .completeUpdateAuth call _ => s.calls.erase call
  | _ => s.calls

def registeredAfter (s : Session) : Action → List ConnectionSelector
  | .registerConnection params _ => ⟨params.clientID, params.wsID⟩ :: s.registered
  | _ => s.registered

/-- The actions that can be next: a new websocket registers, a call that awaits goes on. -/
def Possible (s : Session) : Action → Prop
  | .registerConnection params _ => (⟨params.clientID, params.wsID⟩ : ConnectionSelector) ∉ s.registered
  | .completeUpdateAuth call _ => call ∈ s.calls
  | _ => True

/-- The websockets that a change of the manager removes. -/
def gone (m m' : ConnectionContextManager) : List ConnectionSelector :=
  (m.connections.values.map (·.selector)).filter fun selector => (m'.getConnectionContext selector).isNone

/-- The session with another manager, and what there is to remember of it. -/
def observe (s : Session) (m : ConnectionContextManager) (calls : List UpdateAuthCall)
    (registered : List ConnectionSelector) : Session where
  manager := m
  calls := calls
  registered := registered
  history := m.connections.values ++ s.history
  lost := gone s.manager m ++ s.lost
  pins := m.group.pinnedUser.toList ++ s.pins

def step (s : Session) (now : ℕ) (a : Action) : Session :=
  s.observe (manage cfg s.manager now a) (s.callsAfter a) (s.registeredAfter a)

/-! ## Coherence -/

/-- What holds of the connections of a session. -/
structure Coherent (s : Session) : Prop where
  /-- A websocket that was closed, failed or replaced does not reappear. -/
  lost : ∀ selector ∈ s.lost, s.manager.getConnectionContext selector = none
  /-- The revision of a websocket does not decrease. -/
  revision : ∀ c ∈ s.history, ∀ c', s.manager.getConnectionContext c.selector = some c' → c.revision ≤ c'.revision
  /-- A revision of a websocket is of one auth and fetch context. -/
  contexts : ∀ c ∈ s.history, ∀ c' ∈ s.history, c.selector = c'.selector → c.revision = c'.revision → c.SameContext c'
  /-- A validation for any record the websocket has had is recorded for a record of the same context. -/
  validation : ∀ c ∈ s.history, ∀ c', s.manager.getConnectionContext c.selector = some c' → c.revision = c'.revision →
    c.SameContext c'
  /-- The pinned user does not change. -/
  pinned : ∀ u ∈ s.pins, s.manager.group.pinnedUser = some u
  users : ∀ selector c, s.manager.getConnectionContext selector = some c → c.state = .validated →
    s.manager.group.pinnedUser = some c.user
  background : s.manager.Selected
  retransform : s.manager.Scheduled cfg

/-- The record that a call of `updateAuth` has read is up to date, as far as
what the call writes back goes: the websocket is there, at the revision that
was read; or, if the auth is another, one revision on with that very auth and
the fetch contexts that were read. If the auth is not another, the state is
written back too: it is the one that was read, or does not matter because the
background connection is another one. -/
def UpToDate (m : ConnectionContextManager) (call : UpdateAuthCall) (auth : Auth) : Prop :=
  ∃ c, m.getConnectionContext call.connection.selector = some c ∧
    if authEquals call.connection.auth (some auth) then
      c.revision = call.connection.revision ∧ (c.state = call.connection.state ∨
        ∃ b, m.getBackgroundConnectionContext = some b ∧ b.selector ≠ c.selector)
    else
      c.revision = call.connection.revision ∨
        c.revision = call.connection.revision + 1 ∧ c.SameContext { call.connection with auth := some auth }

/-- A call of `updateAuth` that goes on to write finds what it has read up to date. -/
def Timely (s : Session) : Action → Prop
  | .completeUpdateAuth call verified =>
    ∀ auth, call.resolve cfg verified = .ok (.token auth) → UpToDate s.manager call auth
  | _ => True

/-- The sessions that runs reach whose calls of `updateAuth` are timely. -/
inductive TimelyReached : Session → Prop
  | init : TimelyReached init
  | step {s a} (now : ℕ) (h : TimelyReached s) (hpossible : s.Possible a) (htimely : s.Timely cfg a) :
    TimelyReached (s.step cfg now a)

/-- The sessions that runs reach. -/
inductive Reached : Session → Prop
  | init : Reached init
  | step {s a} (now : ℕ) (h : Reached s) (hpossible : s.Possible a) : Reached (s.step cfg now a)

/-! ## The invariant -/

open ConnectionContextManager

/-- What carries the coherence through a run. -/
structure Inv (s : Session) : Prop extends Coherent cfg s where
  keyed : s.manager.Keyed
  live : ∀ selector c, s.manager.getConnectionContext selector = some c → c ∈ s.history
  calls : ∀ call ∈ s.calls, call.connection ∈ s.history
  registered : ∀ c ∈ s.history, c.selector ∈ s.registered
  lostRegistered : ∀ selector ∈ s.lost, selector ∈ s.registered
  validated : ∀ c ∈ s.history, c.state = .validated → s.manager.group.pinnedUser = some c.user

/-- A record that a websocket may get: the websocket is not gone, the revision
is the newest and not that of another context, and a validated user is the pinned one. -/
structure Acceptable (s : Session) (m' : ConnectionContextManager) (registered' : List ConnectionSelector)
    (c : ConnectionContext) : Prop where
  notLost : c.selector ∉ s.lost
  newest : ∀ c₀ ∈ s.history, c₀.selector = c.selector →
    c₀.revision ≤ c.revision ∧ (c₀.revision = c.revision → c₀.SameContext c)
  user : c.state = .validated → m'.group.pinnedUser = some c.user
  registered : c.selector ∈ registered'

theorem Inv.after {s : Session} (h : Inv cfg s) {m' : ConnectionContextManager} {calls' : List UpdateAuthCall}
    {registered' : List ConnectionSelector} (hkeyed : m'.Keyed) (hselected : m'.Selected)
    (hscheduled : m'.Scheduled cfg)
    (hpin : ∀ u, s.manager.group.pinnedUser = some u → m'.group.pinnedUser = some u)
    (hlive : ∀ selector c, m'.getConnectionContext selector = some c →
      s.manager.getConnectionContext selector = some c ∨ Acceptable s m' registered' c)
    (hcalls : ∀ call ∈ calls', call.connection ∈ s.history)
    (hregistered : ∀ selector ∈ s.registered, selector ∈ registered') :
    Inv cfg (s.observe m' calls' registered') := by
  have hhistory : ∀ c, c ∈ m'.connections.values ++ s.history ↔
      m'.getConnectionContext c.selector = some c ∨ c ∈ s.history := by
    intro c
    rw [List.mem_append, hkeyed.mem_values_iff]
  -- a live record against an earlier one
  have hearlier : ∀ c ∈ s.history, ∀ c', m'.getConnectionContext c.selector = some c' →
      c.revision ≤ c'.revision ∧ (c.revision = c'.revision → c.SameContext c') := by
    intro c hc c' hc'
    rcases hlive _ c' hc' with hold | hnew
    · exact ⟨h.revision c hc c' hold, h.validation c hc c' hold⟩
    · exact hnew.newest c hc (hkeyed.selector_eq hc').symm
  have hcontexts : ∀ c ∈ m'.connections.values ++ s.history, ∀ c', m'.getConnectionContext c.selector = some c' →
      c.revision ≤ c'.revision ∧ (c.revision = c'.revision → c.SameContext c') := by
    intro c hc c' hc'
    rcases (hhistory c).mp hc with hnow | hbefore
    · obtain rfl := Option.some.inj (hnow.symm.trans hc')
      exact ⟨Nat.le_refl _, fun _ => .refl c⟩
    · exact hearlier c hbefore c' hc'
  refine ⟨⟨?_, fun c hc c' hc' => (hcontexts c hc c' hc').1, ?_, fun c hc c' hc' => (hcontexts c hc c' hc').2, ?_, ?_,
    hselected, hscheduled⟩, hkeyed, ?_, ?_, ?_, ?_, ?_⟩
  · intro selector hselector
    rcases List.mem_append.mp hselector with hgone | hlost
    · exact Option.isNone_iff_eq_none.mp (List.mem_filter.mp hgone).2
    · rw [Option.eq_none_iff_forall_ne_some]
      intro c hc
      rcases hlive _ c hc with hold | hnew
      · rw [h.lost selector hlost] at hold
        cases hold
      · exact hnew.notLost (hkeyed.selector_eq hc ▸ hlost)
  · intro c hc c' hc' hselector hrevision
    rcases (hhistory c').mp hc' with hnow | hbefore
    · exact (hcontexts c hc c' (hselector ▸ hnow)).2 hrevision
    · rcases (hhistory c).mp hc with hnow | hbefore'
      · exact ((hcontexts c' hc' c (hselector ▸ hnow)).2 hrevision.symm).symm
      · exact h.contexts c hbefore' c' hbefore hselector hrevision
  · intro u hu
    rcases List.mem_append.mp hu with hnow | hbefore
    · exact Option.mem_toList.mp hnow
    · exact hpin u (h.pinned u hbefore)
  · intro selector c hc hstate
    rcases hlive selector c hc with hold | hnew
    · exact hpin _ (h.users selector c hold hstate)
    · exact hnew.user hstate
  · intro selector c hc
    exact (hhistory c).mpr (.inl (by rw [hkeyed.selector_eq hc]; exact hc))
  · intro call hcall
    exact (hhistory _).mpr (.inr (hcalls call hcall))
  · intro c hc
    rcases (hhistory c).mp hc with hnow | hbefore
    · rcases hlive _ c hnow with hold | hnew
      · exact hregistered _ (h.registered c (h.live _ c hold))
      · exact hnew.registered
    · exact hregistered _ (h.registered c hbefore)
  · intro selector hselector
    rcases List.mem_append.mp hselector with hgone | hlost
    · obtain ⟨c, hc, rfl⟩ := List.mem_map.mp (List.mem_filter.mp hgone).1
      exact hregistered _ (h.registered c (h.live _ c (h.keyed.mem_values_iff.mp hc)))
    · exact hregistered _ (h.lostRegistered selector hlost)
  · intro c hc hstate
    rcases (hhistory c).mp hc with hnow | hbefore
    · rcases hlive _ c hnow with hold | hnew
      · exact hpin _ (h.users _ c hold hstate)
      · exact hnew.user hstate
    · exact hpin _ (h.validated c hbefore hstate)

/-! ## One step -/

section Steps

variable {s : Session} {now : ℕ}

theorem Inv.unchanged (h : Inv cfg s) {m' : ConnectionContextManager} {calls' : List UpdateAuthCall}
    (hconnections : m'.connections = s.manager.connections) (hselected : m'.Selected) (hscheduled : m'.Scheduled cfg)
    (hpin : m'.group.pinnedUser = s.manager.group.pinnedUser) (hcalls : ∀ call ∈ calls', call.connection ∈ s.history) :
    Inv cfg (s.observe m' calls' s.registered) := by
  refine h.after cfg (h.keyed.congr hconnections) hselected hscheduled (fun u hu => hpin.trans hu) ?_ hcalls
    (fun _ hs => hs)
  intro selector c hc
  rw [getConnectionContext_congr hconnections] at hc
  exact .inl hc

theorem Inv.same (h : Inv cfg s) {calls' : List UpdateAuthCall} (hcalls : ∀ call ∈ calls', call.connection ∈ s.history) :
    Inv cfg (s.observe s.manager calls' s.registered) :=
  h.unchanged cfg rfl h.background h.retransform rfl hcalls

/-- `#demoteConnection` of a record whose websocket is there. -/
theorem Inv.demote (h : Inv cfg s) {c : ConnectionContext} {calls' : List UpdateAuthCall}
    {registered' : List ConnectionSelector} (hlost : c.selector ∉ s.lost)
    (hnewest : ∀ c₀ ∈ s.history, c₀.selector = c.selector →
      c₀.revision ≤ c.revision ∧ (c₀.revision = c.revision → c₀.SameContext c))
    (hcalls : ∀ call ∈ calls', call.connection ∈ s.history) (hc : c.selector ∈ registered')
    (hregistered : ∀ selector ∈ s.registered, selector ∈ registered') :
    Inv cfg (s.observe (s.manager.demoteConnection cfg c now) calls' registered') := by
  have hkeyed := h.keyed.store { c with state := .provisional, revalidateAt := none }
  refine h.after cfg (hkeyed.congr (connections_refresh _ now))
    (selected_refresh hkeyed now) (scheduled_refresh _ now)
    (fun u hu => (pinnedUser_refresh _ now).trans hu) ?_ hcalls hregistered
  intro selector c' hc'
  rw [ConnectionContextManager.demoteConnection, getConnectionContext_refresh] at hc'
  rcases eq_of_getConnectionContext_store hc' with rfl | hold
  · refine .inr ⟨hlost, fun c₀ hc₀ hselector => ⟨(hnewest c₀ hc₀ hselector).1, fun hrevision => ?_⟩,
      (fun hstate => by cases hstate), hc⟩
    have hsame := (hnewest c₀ hc₀ hselector).2 hrevision
    exact ⟨hsame.auth, hsame.query, hsame.mutate⟩
  · exact .inl hold

theorem Inv.remove (h : Inv cfg s) (selector : ConnectionSelector) (revision : Option ℕ) :
    Inv cfg (s.observe (s.manager.removeConnection cfg selector revision now) s.calls s.registered) := by
  unfold ConnectionContextManager.removeConnection
  split
  · exact h.same cfg h.calls
  · next c hc =>
    split
    · exact h.same cfg h.calls
    · have hkeyed := h.keyed.erase c.clientID
      refine h.after cfg (hkeyed.congr (connections_refresh _ now))
        (selected_refresh hkeyed now) (scheduled_refresh _ now)
        (fun u hu => (pinnedUser_refresh _ now).trans hu) ?_ h.calls (fun _ hs => hs)
      intro selector' c' hc'
      rw [getConnectionContext_refresh] at hc'
      exact .inl (getConnectionContext_of_erase hc')

theorem Inv.live_notLost (h : Inv cfg s) {selector : ConnectionSelector} {c : ConnectionContext}
    (hc : s.manager.getConnectionContext selector = some c) : selector ∉ s.lost := by
  intro hlost
  rw [h.lost selector hlost] at hc
  cases hc

theorem Inv.initConnection (h : Inv cfg s) (selector : ConnectionSelector) (body : InitConnectionBody) :
    Inv cfg (s.step cfg now (.initConnection selector body)) := by
  show Inv cfg (s.observe ((s.manager.initConnection cfg selector body now).toOption.getD s.manager) _ _)
  unfold ConnectionContextManager.initConnection ConnectionContextManager.mustGetConnectionContext
  cases hc : s.manager.getConnectionContext selector with
  | none => exact h.same cfg h.calls
  | some c =>
    have hselector := h.keyed.selector_eq hc
    refine h.demote cfg ?_ ?_ h.calls ?_ (fun _ hs => hs)
    · exact fun hlost => h.live_notLost cfg hc (hselector ▸ hlost)
    · intro c₀ hc₀ heq
      have hle : c₀.revision ≤ c.revision := h.revision c₀ hc₀ c (by rw [heq]; exact hselector ▸ hc)
      exact ⟨Nat.le_succ_of_le hle, fun hrev => absurd (hrev ▸ hle) (Nat.not_succ_le_self _)⟩
    · exact h.registered c (h.live _ c hc)

theorem Inv.validateConnection (h : Inv cfg s) (selector : ConnectionSelector) (revision : ℕ)
    (validation : ConnectionValidation) : Inv cfg (s.step cfg now (.validateConnection selector revision validation)) := by
  show Inv cfg (s.observe ((s.manager.validateConnection cfg selector revision validation now).toOption.getD s.manager)
    _ _)
  cases hresult : s.manager.validateConnection cfg selector revision validation now with
  | error e => exact h.same cfg h.calls
  | ok m' =>
    rcases validateConnection_cases hresult with rfl | ⟨c, hc, hpinned, rfl⟩
    · exact h.same cfg h.calls
    · have hselector := h.keyed.selector_eq hc
      have hlive : s.manager.getConnectionContext c.selector = some c := hselector ▸ hc
      have hconnections : (s.manager.recordValidation cfg c c.user now).connections = _ :=
        connections_recordValidation s.manager c c.user now
      have hpin : (s.manager.recordValidation cfg c c.user now).group.pinnedUser = some c.user :=
        (pinnedUser_recordValidation s.manager c c.user now).trans hpinned
      refine h.after cfg ((h.keyed.store _).congr hconnections)
        (selected_recordValidation h.background c c.user now)
        (scheduled_updateDeadline _ now false) ?_ ?_ h.calls (fun _ hs => hs)
      · intro u hu
        refine hpin.trans ?_
        rw [← hpinned, pinnedUser_pin_of_some hu]
      · intro selector' c' hc'
        have hc'' : (s.manager.storeConnection _).getConnectionContext selector' = some c' :=
          (congrFun (getConnectionContext_congr hconnections) selector').symm.trans hc'
        rcases eq_of_getConnectionContext_store hc'' with rfl | hold
        · refine .inr ⟨h.live_notLost cfg hlive, fun c₀ hc₀ heq => ?_, fun _ => hpin, h.registered c (h.live _ c hc)⟩
          have hc₀' : s.manager.getConnectionContext c₀.selector = some c := by rw [heq]; exact hlive
          refine ⟨h.revision c₀ hc₀ c hc₀', fun hrevision => ?_⟩
          have hsame := h.validation c₀ hc₀ c hc₀' hrevision
          exact ⟨hsame.auth, hsame.query, hsame.mutate⟩
        · exact .inl hold

theorem Inv.registerConnection (h : Inv cfg s) {params : ConnectParams} {auth : Option Auth}
    (hnew : (⟨params.clientID, params.wsID⟩ : ConnectionSelector) ∉ s.registered) :
    Inv cfg (s.step cfg now (.registerConnection params auth)) := by
  have hnotHistory : ∀ c ∈ s.history, c.selector ≠ ⟨params.clientID, params.wsID⟩ :=
    fun c hc heq => hnew (heq ▸ h.registered c hc)
  have hnone : s.manager.getConnectionContext ⟨params.clientID, params.wsID⟩ = none := by
    rw [Option.eq_none_iff_forall_ne_some]
    exact fun c hc => hnotHistory c (h.live _ c hc) (h.keyed.selector_eq hc)
  have hremove : s.manager.removeConnection cfg ⟨params.clientID, params.wsID⟩ none now = s.manager := by
    rw [removeConnection, hnone]
  show Inv cfg (s.observe (s.manager.registerConnection cfg params auth now) _ _)
  rw [ConnectionContextManager.registerConnection, hremove]
  have hkeyed : Keyed { s.manager with nextInsertionOrder := s.manager.nextInsertionOrder + 1 } := h.keyed
  refine h.after cfg ((hkeyed.store _).congr (connections_refresh _ now)) (selected_refresh (hkeyed.store _) now)
    (scheduled_refresh _ now) (fun u hu => (pinnedUser_refresh _ now).trans hu) ?_ h.calls
    (fun _ hs => List.mem_cons_of_mem _ hs)
  intro selector c hc
  rw [getConnectionContext_refresh] at hc
  rcases eq_of_getConnectionContext_store hc with rfl | hold
  · refine .inr ⟨fun hlost => ?_, fun c₀ hc₀ heq => absurd heq (hnotHistory c₀ hc₀), (fun hstate => by cases hstate),
      List.mem_cons_self ..⟩
    exact hnew (h.lostRegistered _ hlost)
  · exact .inl hold

theorem Inv.completeUpdateAuth (h : Inv cfg s) {call : UpdateAuthCall} {verified : Except String (String × JWTPayload)}
    (hcall : call ∈ s.calls) (htimely : s.Timely cfg (.completeUpdateAuth call verified)) :
    Inv cfg (s.step cfg now (.completeUpdateAuth call verified)) := by
  have hcalls : ∀ call' ∈ s.calls.erase call, call'.connection ∈ s.history :=
    fun call' hcall' => h.calls call' (List.mem_of_mem_erase hcall')
  have hread := h.calls call hcall
  show Inv cfg (s.observe (manage cfg s.manager now (.completeUpdateAuth call verified)) (s.calls.erase call) s.registered)
  cases hresolve : call.resolve cfg verified with
  | error e =>
    simp only [manage, hresolve]
    exact h.same cfg hcalls
  | ok next =>
    simp only [manage, hresolve]
    cases next with
    | previous => exact h.same cfg hcalls
    | token auth =>
      obtain ⟨c, hc, hfresh⟩ := htimely auth hresolve
      have hregistered := h.registered _ hread
      have hnotLost := h.live_notLost cfg hc
      simp only [ConnectionContextManager.completeUpdateAuth]
      -- what was read is not older than the record that is there
      have hrecord : ∀ c₀ ∈ s.history, c₀.selector = call.connection.selector →
          s.manager.getConnectionContext c₀.selector = some c := fun c₀ _ heq => by rw [heq]; exact hc
      split
      · next hequal =>
        rw [if_pos hequal] at hfresh
        obtain ⟨hrevision, hstate⟩ := hfresh
        have hselected : (s.manager.storeConnection { call.connection with auth := some auth }).Selected :=
          h.background.store h.keyed hc (hstate.imp_right fun ⟨b, hb, hne⟩ =>
            ⟨b, hb, fun heq => hne (heq.trans (h.keyed.selector_eq hc).symm)⟩)
        have hscheduled := h.retransform.store h.background hselected
        refine h.after cfg (h.keyed.store _) hselected hscheduled (fun u hu => hu) ?_ hcalls (fun _ hs => hs)
        intro selector c' hc'
        rcases eq_of_getConnectionContext_store hc' with rfl | hold
        · refine .inr ⟨hnotLost, fun c₀ hc₀ heq => ?_, h.validated call.connection hread, hregistered⟩
          have hle := h.revision c₀ hc₀ c (hrecord c₀ hc₀ heq)
          refine ⟨hrevision ▸ hle, fun heq' => ?_⟩
          have hsame := h.contexts c₀ hc₀ _ hread heq heq'
          exact ⟨authEquals_trans hsame.auth hequal, hsame.query, hsame.mutate⟩
        · exact .inl hold
      · next hchanged =>
        rw [if_neg hchanged] at hfresh
        refine h.demote cfg hnotLost (fun c₀ hc₀ heq => ?_) hcalls hregistered (fun _ hs => hs)
        have hle := h.revision c₀ hc₀ c (hrecord c₀ hc₀ heq)
        rcases hfresh with hrevision | ⟨hrevision, hsame⟩
        · exact ⟨Nat.le_succ_of_le (hrevision ▸ hle), fun heq' => absurd (heq' ▸ hrevision ▸ hle) (Nat.not_succ_le_self _)⟩
        · refine ⟨hrevision ▸ hle, fun heq' => ?_⟩
          have hbefore := h.validation c₀ hc₀ c (hrecord c₀ hc₀ heq) (heq'.trans hrevision.symm)
          have hafter := hbefore.trans hsame
          exact ⟨hafter.auth, hafter.query, hafter.mutate⟩

theorem Inv.markBackgroundRetransformSuccess (h : Inv cfg s) (selector : ConnectionSelector) (revision : ℕ) :
    Inv cfg (s.step cfg now (.markBackgroundRetransformSuccess selector revision)) := by
  show Inv cfg (s.observe (s.manager.markBackgroundRetransformSuccess cfg selector revision now) s.calls s.registered)
  unfold ConnectionContextManager.markBackgroundRetransformSuccess
  split
  · exact h.same cfg h.calls
  · split
    · exact h.same cfg h.calls
    · exact h.unchanged cfg (connections_updateDeadline _ now true)
        (h.background.congr (connections_updateDeadline _ now true) (background_updateDeadline _ now true))
        (scheduled_updateDeadline _ now true) (pinnedUser_updateDeadline _ now true) h.calls

theorem Inv.setSharedRetransformReady (h : Inv cfg s) (ready : Bool) :
    Inv cfg (s.step cfg now (.setSharedRetransformReady ready)) := by
  show Inv cfg (s.observe (s.manager.setSharedRetransformReady cfg ready now) s.calls s.registered)
  unfold ConnectionContextManager.setSharedRetransformReady
  split
  · exact h.same cfg h.calls
  · exact h.unchanged cfg (connections_updateDeadline _ now true)
      (h.background.congr (connections_updateDeadline _ now true) (background_updateDeadline _ now true))
      (scheduled_updateDeadline _ now true) (pinnedUser_updateDeadline _ now true) h.calls

theorem Inv.beginUpdateAuth (h : Inv cfg s) (selector : ConnectionSelector) (wireAuth : Option String) :
    Inv cfg (s.step cfg now (.beginUpdateAuth selector wireAuth)) := by
  show Inv cfg (s.observe s.manager (s.callsAfter (.beginUpdateAuth selector wireAuth)) s.registered)
  refine h.same cfg ?_
  simp only [callsAfter, ConnectionContextManager.beginUpdateAuth, mustGetConnectionContext]
  cases hc : s.manager.getConnectionContext selector with
  | none => exact h.calls
  | some c =>
    intro call hcall
    rcases List.mem_cons.mp hcall with rfl | hold
    · exact h.live selector c hc
    · exact h.calls call hold

theorem Inv.step (h : Inv cfg s) {a : Action} (hpossible : s.Possible a) (htimely : s.Timely cfg a) :
    Inv cfg (s.step cfg now a) := by
  cases a with
  | registerConnection params auth => exact h.registerConnection cfg hpossible
  | initConnection selector body => exact h.initConnection cfg selector body
  | beginUpdateAuth selector wireAuth => exact h.beginUpdateAuth cfg selector wireAuth
  | completeUpdateAuth call verified => exact h.completeUpdateAuth cfg hpossible htimely
  | validateConnection selector revision validation => exact h.validateConnection cfg selector revision validation
  | failConnection selector revision => exact h.remove cfg selector (some revision)
  | closeConnection selector => exact h.remove cfg selector none
  | markBackgroundRetransformSuccess selector revision => exact h.markBackgroundRetransformSuccess cfg selector revision
  | setSharedRetransformReady ready => exact h.setSharedRetransformReady cfg ready

end Steps

theorem Inv.init : Inv cfg Session.init where
  lost _ h := by cases h
  revision _ h := by cases h
  contexts _ h := by cases h
  validation _ h := by cases h
  pinned _ h := by cases h
  users _ _ h := by cases h
  background := ⟨(fun _ h => by cases h), (fun _ _ _ h => by cases h)⟩
  retransform := by simp [Scheduled, Session.init, ConnectionContextManager.init, getBackgroundConnectionContext]
  keyed _ _ h := by cases h
  live _ _ h := by cases h
  calls _ h := by cases h
  registered _ h := by cases h
  lostRegistered _ h := by cases h
  validated _ h := by cases h

theorem TimelyReached.inv {s : Session} (h : TimelyReached cfg s) : Inv cfg s := by
  induction h with
  | init => exact .init cfg
  | step now _ hpossible htimely ih => exact ih.step cfg hpossible htimely

/-- **Connection auth state.** In every run of a manager whose calls of
`updateAuth` find what they have read up to date when they go on to write, the
state of the connections is coherent throughout. -/
theorem timelyReached_coherent {s : Session} (h : TimelyReached cfg s) : s.Coherent cfg := h.inv.toCoherent

/-! ## A connection that is closed while its auth is resolved -/

def plainConfig : Config := ⟨some 1000, some 1000, none, none, false⟩

def aliceParams : ConnectParams := ⟨"c1", "w1", some "alice", none, none, 49, none, none, none⟩

/-- A websocket registers, is validated, and is given another token. -/
def rotated : Session :=
  (((init.step plainConfig 0 (.registerConnection aliceParams (some (.opaqueToken "t0")))).step plainConfig 1
    (.validateConnection ⟨"c1", "w1"⟩ 0 .clientFallback)).step plainConfig 2
    (.beginUpdateAuth ⟨"c1", "w1"⟩ (some "t1")))

/-- The record that the call of `updateAuth` has read. -/
def aliceCall : UpdateAuthCall :=
  ⟨⟨.validated, "c1", "w1", some "alice", some (.opaqueToken "t0"), none, none, 49, 0, some 1001, 1,
    ⟨none, none, ⟨none, none, none, none, none⟩⟩, ⟨none, none, ⟨none, none, none, none, none⟩⟩⟩, some "t1"⟩

theorem possible_register : init.Possible (.registerConnection aliceParams (some (.opaqueToken "t0"))) :=
  List.not_mem_nil

theorem reached_rotated : Reached plainConfig rotated :=
  .step 2 (.step 1 (.step 0 .init possible_register) trivial) trivial

theorem timelyReached_rotated : TimelyReached plainConfig rotated :=
  .step 2 (.step 1 (.step 0 .init possible_register trivial) trivial trivial) trivial trivial

theorem aliceCall_mem : aliceCall ∈ rotated.calls := by decide

/-- The call finds the websocket as it was, and the new token is recorded. -/
theorem coherent_rotated :
    (rotated.step plainConfig 3 (.completeUpdateAuth aliceCall (.error ""))).Coherent plainConfig := by
  refine timelyReached_coherent plainConfig (.step 3 timelyReached_rotated aliceCall_mem fun auth hauth => ?_)
  have hresolve : aliceCall.resolve plainConfig (.error "") = .ok (.token (.opaqueToken "t1")) := rfl
  obtain rfl := NextAuth.token.inj (Except.ok.inj (hresolve.symm.trans hauth))
  exact ⟨aliceCall.connection, by decide, .inl rfl⟩

/-- The websocket is closed in the meantime, and reappears. -/
theorem reached_reappears : ∃ s, Reached plainConfig s ∧ ¬ s.Coherent plainConfig := by
  refine ⟨_, .step 4 (.step 3 reached_rotated (a := .closeConnection ⟨"c1", "w1"⟩) trivial)
    (a := .completeUpdateAuth aliceCall (.error "")) aliceCall_mem, fun h => ?_⟩
  have hlost := h.lost ⟨"c1", "w1"⟩ (by decide)
  revert hlost
  decide

end Session

end ZeroSync.ConnectionContexts
