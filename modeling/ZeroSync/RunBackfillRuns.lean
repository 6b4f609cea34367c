/-
Every step of the producers keeps the invariant, but for a call of `#runBackfill`
that throws in its transaction, and from that what holds of every run.
-/
import ZeroSync.RunBackfillFacts

namespace ZeroSync.Backfills

open Transactions Turns

variable {J : Type} [DecidableEq J] {s : System J} {b : Backfill J} {i pick : ℕ} {w mark : Watermark} {tx : Option Watermark}
  {initial : Watermark} {complete : List (Transaction Watermark (DataChange J))}
  {current : Option (Transaction Watermark (DataChange J))} {msg : BackfillMessage J} {delayed : Bool}

/-! ## What a run should be -/

/-- Whether the call has returned or thrown. -/
def Point.hasEnded : Point J → Bool
  | .returned | .threw _ | .settled => true
  | _ => false

/-- The stream is one of whole transactions, of which a producer may have one
open, and no call of `#runBackfill` that has ended has it or the reservation. -/
structure System.Right (s : System J) (initial : Watermark) : Prop where
  transactions : ∃ complete current, Stream initial Fits (s.changes.pushed.filterMap Message.item) complete current ∧
    Turn s.view (last initial complete) current
  ended : ∀ b ∈ s.manager.backfills, b.point.hasEnded = true → b.party = .idle

/-- A call throws in its transaction: its stream throws, or its message is not one to send. -/
def System.ThrowsInTx (s : System J) : Event J → Prop
  | .throws i _ => ∃ b, s.manager.backfills[i]? = some b ∧ b.backfillTx ≠ none
  | .yields i msg delayed _ => ∃ b, s.manager.backfills[i]? = some b ∧ b.backfillTx ≠ none ∧
      s.yieldsReservation b msg delayed = false ∧ (msg.missesRowKey = true ∨ s.manager.rejects msg = true)
  | .resumes i _ => ∃ b msg w, s.manager.backfills[i]? = some b ∧ b.point = .reserving msg (some w) ∧
      (b.isCanceled || b.predates msg) = false ∧ s.manager.rejects msg = true
  | _ => False

omit [DecidableEq J] in
theorem System.Inv.right (h : s.Inv initial complete current none) : s.Right initial where
  transactions := ⟨complete, current, h.turns.stream, h.turns.turn⟩
  ended b hb hended := by
    obtain ⟨i, hi, rfl⟩ := List.getElem_of_mem hb
    have hsound := h.books.sound i _ (by simp) (List.getElem?_eq_getElem hi)
    have htx : s.manager.backfills[i].backfillTx = none := hsound.outside fun he => by rw [he] at hended; cases hended
    rw [Backfill.party, htx]
    revert hended
    cases s.manager.backfills[i].point <;> simp [Point.hasEnded, partyAt]

/-! ## Steps of a backfill -/

theorem lt_nextMinor (w : Watermark) : w < nextMinor w := by
  refine Prod.Lex.lt_iff.mpr (.inr ⟨rfl, ?_⟩)
  show w.minor < ((w.minor.unbotD 0 + 1 : ℕ) : WithBot ℕ)
  cases w.minor using WithBot.recBotCoe with
  | bot => exact WithBot.bot_lt_coe _
  | coe n => exact WithBot.coe_lt_coe.mpr (Nat.lt_succ_self n)

omit [DecidableEq J] in
/-- The transaction is above the last, at a major that has been announced, and not below the backfill that it completes. -/
theorem txFor_spec (hlast : w.major ≤ s.announced) (hstatus : ∀ w, s.manager.lastStatusWatermark = some w → w.major ≤ s.announced)
    (hreached : msg.isCompleted = true → s.manager.isBehind msg.watermark = false) :
    w < txFor w msg ∧ (txFor w msg).major ≤ s.announced ∧ Fits (txFor w msg) (.backfill msg) := by
  cases msg with
  | backfill => exact ⟨lt_nextMinor w, hlast, trivial⟩
  | completed relation columns watermark =>
    simp only [txFor, Fits]
    split
    · next hlt =>
      refine ⟨(lt_nextMinor w).trans hlt, ?_, le_refl _⟩
      have hbehind := hreached rfl
      rw [Manager.isBehind] at hbehind
      cases hs : s.manager.lastStatusWatermark with
      | none => rw [hs] at hbehind; cases hbehind
      | some status =>
        rw [hs] at hbehind
        have hle : watermark ≤ status := not_lt.mp (of_decide_eq_false hbehind)
        exact (Prod.Lex.monotone_fst _ _ hle).trans (hstatus status hs)
    · next hlt => exact ⟨lt_nextMinor w, hlast, not_lt.mp hlt⟩

theorem System.Inv.afterWait (h : s.Inv initial complete current (some i)) {b' : Backfill J} (hi : s.Steady i none b')
    (pick : ℕ) (b : Backfill J)
    (hreached : msg.isCompleted = true → s.manager.isBehind msg.watermark = false) :
    (s.afterWait i pick b none msg).Inv initial complete current none := by
  rw [System.afterWait]
  split
  · refine h.goTo hi.txOf (party_steady hi) fun b htx hpoint => .ended htx ?_ ?_ <;> simp [hpoint]
  · exact h.reserve hi hreached rfl

theorem System.Inv.afterWait_inTx (h : s.Inv initial complete current (some i)) (hi : s.TxOf i (some mark))
    (pick : ℕ) (b : Backfill J)
    (hfits : Fits mark (.backfill msg)) (hrowKey : msg.missesRowKey = false) (hrejects : s.manager.rejects msg = false) :
    ∃ t, (s.afterWait i pick b (some mark) msg).Inv initial complete (some t) none := by
  rw [System.afterWait, hrowKey]
  exact h.pushData hi pick hfits hrejects

omit [DecidableEq J] in
theorem not_mustWait (h : s.mustWait b msg = false) (hcompleted : msg.isCompleted = true) :
    s.manager.isBehind msg.watermark = false ∧ b.backfillTx.any (fun tx => decide (tx < msg.watermark)) = false := by
  simpa [System.mustWait, hcompleted] using h

theorem System.Inv.onMessage (h : s.Inv initial complete current none) (hb : s.manager.backfills[i]? = some b)
    (hpoint : b.point = .streaming)
    (hthrows : ¬ (b.backfillTx ≠ none ∧ s.yieldsReservation b msg delayed = false ∧
      (msg.missesRowKey = true ∨ s.manager.rejects msg = true))) :
    ∃ complete' current', (s.onMessage i pick delayed b msg).Inv initial complete' current' none := by
  have hsteady : s.Steady i b.backfillTx b := ⟨hb, rfl, by simp [hpoint], by simp [hpoint]⟩
  have hbusy := h.open i
  rw [System.onMessage]
  cases htx : b.backfillTx with
  | none =>
    rw [htx] at hsteady
    cases hwait : s.mustWait b msg with
    | true =>
      refine ⟨complete, current, hbusy.goTo hsteady.txOf (party_steady hsteady) fun b htx hpoint => ?_⟩
      refine ⟨fun hne => absurd htx hne, fun msg' hpoint' hcompleted => ?_⟩
      rw [hpoint] at hpoint'
      rcases hpoint' with hpoint' | ⟨g, hpoint'⟩
      · obtain ⟨rfl, hreached⟩ := (Point.waiting.injEq ..).mp hpoint'
        simpa using hreached
      · cases hpoint'
    | false =>
      exact ⟨complete, current, hbusy.afterWait hsteady pick b fun hcompleted => (not_mustWait hwait hcompleted).1⟩
  | some tx =>
    rw [htx] at hsteady
    cases hyields : s.yieldsReservation b msg delayed with
    | true =>
      cases hwait : s.mustWait b msg with
      | true =>
        have hmoved := hbusy.moveTo hsteady.txOf (.waiting msg (!s.manager.isBehind msg.watermark)) (party_txOf hsteady.txOf)
        have hsteady' : (s.goTo i (.waiting msg (!s.manager.isBehind msg.watermark))).Steady i (some tx)
            { b with point := .waiting msg (!s.manager.isBehind msg.watermark) } := by
          refine ⟨getElem?_modify_self hb, htx, by simp, fun msg' hpoint' _ => ?_⟩
          obtain ⟨rfl, hreached⟩ := (Point.waiting.injEq ..).mp hpoint'
          simpa [System.goTo, System.modify, System.onManager, Manager.modify, Manager.isBehind] using hreached
        obtain ⟨s', b', complete', hok, hi', hinv, -⟩ := hmoved.commitTx hsteady' pick
        refine ⟨complete', none, ?_⟩
        simp only [if_true, hok]
        exact hinv.stay hi'
      | false =>
        obtain ⟨s', b', complete', hok, hi', hinv, hbehind⟩ := hbusy.commitTx hsteady pick
        refine ⟨complete', none, ?_⟩
        simp only [Bool.false_eq_true, if_false, if_true, hok]
        exact hinv.afterWait hi' pick b fun hcompleted => hbehind _ (not_mustWait hwait hcompleted).1
    | false =>
      have hwait : s.mustWait b msg = false := by
        rw [System.yieldsReservation, Bool.or_eq_false_iff] at hyields
        exact hyields.2
      have hsends : msg.missesRowKey = false ∧ s.manager.rejects msg = false := by
        have hthrows : ¬ (msg.missesRowKey = true ∨ s.manager.rejects msg = true) := fun h =>
          hthrows ⟨by simp [htx], hyields, h⟩
        simpa using hthrows
      have hfits : Fits tx (.backfill msg) := by
        cases msg with
        | backfill => trivial
        | completed relation columns watermark =>
          have hnot := (not_mustWait hwait rfl).2
          rw [htx, Option.any_some, decide_eq_false_iff_not, not_lt] at hnot
          exact hnot
      obtain ⟨t, hinv⟩ := hbusy.afterWait_inTx hsteady.txOf pick b hfits hsends.1 hsends.2
      refine ⟨complete, some t, ?_⟩
      simp only [hwait, Bool.false_eq_true, if_false]
      exact hinv

theorem System.Inv.onEnd (h : s.Inv initial complete current none) (hb : s.manager.backfills[i]? = some b)
    (hpoint : b.point = .streaming) : ∃ complete' current', (s.onEnd i pick b).Inv initial complete' current' none := by
  have hsteady : s.Steady i b.backfillTx b := ⟨hb, rfl, by simp [hpoint], by simp [hpoint]⟩
  rw [System.onEnd]
  cases htx : b.backfillTx with
  | none =>
    rw [htx] at hsteady
    refine ⟨complete, current, (h.open i).goTo hsteady.txOf (party_steady hsteady) fun b htx hpoint => .ended htx ?_ ?_⟩ <;>
      simp [hpoint]
  | some tx =>
    rw [htx] at hsteady
    obtain ⟨s', b', complete', hok, hi', hinv, -⟩ := (h.open i).commitTx hsteady pick
    refine ⟨complete', none, ?_⟩
    simp only [hok]
    refine hinv.goTo hi'.txOf (party_steady hi') fun b htx hpoint => .ended htx ?_ ?_ <;> simp [hpoint]

omit [DecidableEq J] in
theorem System.Inv.giveBack (h : s.Inv initial complete current (some i)) (hi : s.TxOf i none)
    (hp : s.view.party (.backfill i) = .between w) (pick : ℕ) :
    (((s.release w).onManager fun m => m.checkAndStartBackfill pick).goTo i .returned).Inv initial complete current none := by
  obtain ⟨hannounced, -, -, hcurrentTx⟩ := release_manager s w
  have hquiet : Quiet (fun w' => w'.major ≤ (s.release w).announced) (s.release w).manager
      ((s.release w).manager.checkAndStartBackfill pick) := quiet_checkAndStartBackfill pick
  have hi' : ((s.release w).onManager fun m => m.checkAndStartBackfill pick).TxOf i none := (hi.release w).quiet hquiet
  have hview : (((s.release w).onManager fun m => m.checkAndStartBackfill pick).goTo i .returned).view =
      s.view.release (.backfill i) w := by
    rw [view_goTo hi', System.onManager, view_onManager hquiet, view_release h.waiters]
    rfl
  have hbooks : ((s.release w).onManager fun m => m.checkAndStartBackfill pick).Books (some i) :=
    (h.books.release w).quiet hquiet
  refine ⟨hview ▸ h.turns.release hp, (hbooks.modify _).close fun b hb => ?_, hannounced.symm ▸ h.last_le,
    hannounced.symm ▸ h.current_le, fun t ht => ?_⟩
  · obtain ⟨b₀, hb₀, htx⟩ := hi'
    rw [getElem?_modify_self hb₀] at hb
    obtain rfl := Option.some.inj hb
    exact .ended htx (by simp) (by simp)
  · exact hquiet.currentTx.trans (hcurrentTx.trans (h.currentTx t ht))

omit [DecidableEq J] in
theorem rejects_congr {s s' : System J} (h : s'.manager.requiredBackfills = s.manager.requiredBackfills) :
    (s'.setTx i tx).manager.rejects msg = s.manager.rejects msg := by
  cases msg with
  | backfill => rfl
  | completed relation columns watermark =>
    simp only [Manager.rejects, Manager.required, ← h]
    rfl

theorem System.Inv.beginTxFor (h : s.Inv initial complete current none) (hb : s.manager.backfills[i]? = some b)
    (hpoint : b.point = .reserving msg (some w))
    (hthrows : ¬ ((b.isCanceled || b.predates msg) = false ∧ s.manager.rejects msg = true)) (pick : ℕ) :
    ∃ complete' current', (s.beginTxFor i pick b msg w).Inv initial complete' current' none := by
  have hsound := h.books.sound i b (by simp) hb
  have htx : b.backfillTx = none := hsound.outside (by simp [hpoint])
  have hi : s.TxOf i none := ⟨b, hb, htx⟩
  have hp : s.view.party (.backfill i) = .between w := by rw [party_of hb, Backfill.party, htx, hpoint, partyAt]
  rw [System.beginTxFor]
  cases hcancel : b.isCanceled || b.predates msg with
  | true =>
    simp only [if_true]
    refine ⟨complete, current, ?_⟩
    split
    · have hquiet : Quiet (fun w' => w'.major ≤ s.announced) s.manager
          (s.manager.stopRunningBackfill (some "row key change postdates backfill watermark") (some i)) :=
        quiet_stopRunningBackfill _ _
      exact System.Inv.giveBack ((h.open i).quiet hquiet) (hi.quiet hquiet) ((congrFun (congrArg _ (view_onManager hquiet)) _).trans hp) pick
    · exact (h.open i).giveBack hi hp pick
  | false =>
    simp only [Bool.false_eq_true, if_false]
    have hrejects : s.manager.rejects msg = false := by simpa [hcancel] using hthrows
    obtain ⟨hlast, -, -, -⟩ := h.turns.of_between hp
    obtain ⟨hlt, hmajor, hfits⟩ := txFor_spec (hlast ▸ h.last_le) h.books.status_le
      fun hcompleted => hsound.reached msg (.inr ⟨_, hpoint⟩) hcompleted
    obtain ⟨s', hok, hrequired, hi', hinv⟩ := (h.open i).beginTx hi pick hp hlt hmajor
    have hrejects' : (s'.setTx i (some (txFor w msg))).manager.rejects msg = false := by
      rw [← hrejects, rejects_congr hrequired]
    obtain ⟨t, hdata⟩ := hinv.pushData hi' pick hfits hrejects'
    refine ⟨complete, some t, ?_⟩
    rw [hok]
    exact hdata

theorem System.Inv.resume (h : s.Inv initial complete current none) (hb : s.manager.backfills[i]? = some b)
    (hthrows : ∀ msg w, b.point = .reserving msg (some w) →
      ¬ ((b.isCanceled || b.predates msg) = false ∧ s.manager.rejects msg = true)) (pick : ℕ) :
    ∃ complete' current', (s.resume i pick b).Inv initial complete' current' none := by
  rw [System.resume]
  split
  · next msg hpoint =>
    have hsound := h.books.sound i b (by simp) hb
    have htx : b.backfillTx = none := hsound.outside (by simp [hpoint])
    have hsteady : s.Steady i none b :=
      ⟨hb, htx, by simp [hpoint], fun msg' hpoint' => hsound.reached msg' (.inl hpoint')⟩
    rw [htx]
    exact ⟨complete, current, (h.open i).afterWait hsteady pick b (hsound.reached msg (.inl hpoint))⟩
  · next msg w hpoint => exact h.beginTxFor hb hpoint (hthrows msg w hpoint) pick
  · exact ⟨complete, current, h⟩

omit [DecidableEq J] in
/-- The `then` or `catch` of a call that has ended. -/
theorem System.Inv.settle (h : s.Inv initial complete current none) (i : ℕ) :
    (s.onManager fun m => m.settle i).Inv initial complete current none := by
  have hsettles (reason : String) (b : Backfill J) (hb : s.manager.backfills[i]? = some b) (hended : b.point.hasEnded = true) :
      ((({ s with manager := s.manager.stopRunningBackfill (some reason) (some i) } : System J)).goTo i .settled).Inv
        initial complete current none := by
    have hquiet : Quiet (fun w' => w'.major ≤ s.announced) s.manager (s.manager.stopRunningBackfill (some reason) (some i)) :=
      quiet_stopRunningBackfill _ _
    have htx : b.backfillTx = none :=
      (h.books.sound i b (by simp) hb).outside fun he => by rw [he] at hended; cases hended
    have hi : s.TxOf i none := ⟨b, hb, htx⟩
    have hp : s.view.party (.backfill i) = .idle := by
      rw [party_of hb, Backfill.party, htx]
      revert hended
      cases b.point <;> simp [Point.hasEnded, partyAt]
    refine System.Inv.goTo ((h.open i).quiet hquiet) (hi.quiet hquiet) ?_ fun b htx hpoint => .ended htx ?_ ?_
    · exact (congrFun (congrArg _ (view_onManager hquiet)) _).trans hp
    · simp [hpoint]
    · simp [hpoint]
  rw [System.onManager, Manager.settle]
  cases hb : s.manager.backfills[i]? with
  | none => exact h
  | some b =>
    simp only [Option.map_some]
    split
    · next hpoint => exact hsettles _ b hb (by rw [Option.some.inj hpoint]; rfl)
    · next e hpoint =>
      exact (hsettles e b hb (by rw [Option.some.inj hpoint]; rfl)).quiet (.of_eq rfl rfl rfl)
    · exact h

/-! ## Steps of the replication stream -/

omit [DecidableEq J] in
theorem System.Inv.announce (h : s.Inv initial complete current none) (major : ℕ) :
    ({ s with announced := max s.announced major } : System J).Inv initial complete current none where
  turns := h.turns
  books := ⟨h.books.sound, fun w hw => (h.books.status_le w hw).trans (le_max_left ..)⟩
  last_le := h.last_le.trans (le_max_left ..)
  current_le t ht := (h.current_le t ht).trans (le_max_left ..)
  currentTx := h.currentTx

omit [DecidableEq J] in
theorem System.Inv.setMain (h : s.Inv initial complete current none) {main : MainPoint} (hmain : main.party = s.main.party) :
    ({ s with main } : System J).Inv initial complete current none where
  turns := by
    have hself : s.view.setParty .replication s.main.party = s.view := setParty_self rfl
    rw [view_main, hmain, hself]
    exact h.turns
  books := ⟨h.books.sound, h.books.status_le⟩
  last_le := h.last_le
  current_le := h.current_le
  currentTx := h.currentTx

omit [DecidableEq J] in
theorem System.Inv.mainReserve (h : s.Inv initial complete current none) (hmain : s.main = .idle) :
    s.mainReserve.Inv initial complete current none := by
  have hidle : s.view.party .replication = .idle := by simp [System.view, partyOf, hmain, MainPoint.party]
  have hturns := h.turns.reserve hidle
  have hview : s.mainReserve.view = s.view.reserve .replication := by
    cases hlast : s.changes.lastWatermark with
    | some w =>
      have hreserve : s.mainReserve = { s with changes.lastWatermark := none, main := .reserved w } := by
        simp only [System.mainReserve, Multiplexer.reserve, hlast]
      have hfree : s.view.free = some w := hlast
      rw [hreserve, State.reserve, hfree]
      exact view_main (s := { s with changes.lastWatermark := none }) (.reserved w)
    | none =>
      have hreserve : s.mainReserve =
          { s with changes.waiters := s.changes.waiters ++ [.replication], main := .reserving none } := by
        simp only [System.mainReserve, Multiplexer.reserve, hlast]
      rw [hreserve]
      refine (view_main (s := { s with changes.waiters := s.changes.waiters ++ [.replication] }) (.reserving none)).trans ?_
      simp [State.reserve, System.view, hlast, MainPoint.party]
  have hsame : s.mainReserve.manager = s.manager ∧ s.mainReserve.announced = s.announced := by
    rw [System.mainReserve, Multiplexer.reserve]
    cases s.changes.lastWatermark <;> exact ⟨rfl, rfl⟩
  obtain ⟨hmanager, hannounced⟩ := hsame
  refine ⟨hview ▸ hturns, ⟨?_, ?_⟩, ?_, ?_, ?_⟩
  · rw [hmanager]
    exact h.books.sound
  · rw [hmanager, hannounced]
    exact h.books.status_le
  · rw [hannounced]
    exact h.last_le
  · rw [hannounced]
    exact h.current_le
  · rw [hmanager]
    exact h.currentTx

theorem System.Inv.mainBegin (h : s.Inv initial complete current none) (hmain : s.main = .reserved w) {major : ℕ}
    (hmajor : s.announced < major) (pick : ℕ) :
    ∃ current', ({ s with announced := max s.announced major }.mainPush pick (.begin (.of major ⊥))
      (.inTransaction (.of major ⊥)) : System J).Inv initial complete current' none := by
  have hp : s.view.party .replication = .between w := by simp [System.view, partyOf, hmain, MainPoint.party]
  obtain ⟨hlast, rfl, hfree, -⟩ := h.turns.of_between hp
  obtain ⟨s', hok⟩ := push_of_ok (s := { s with announced := max s.announced major }) hfree pick (.begin (.of major ⊥)) rfl
  have hpushed : Pushed _ s' (.begin (.of major ⊥)) := .of_push hok (by simp)
  have hlt : w < .of major ⊥ := by
    refine Prod.Lex.lt_iff.mpr (.inl ?_)
    exact (hlast ▸ h.last_le : w.major ≤ s.announced).trans_lt hmajor
  have hview : ({ s' with main := .inTransaction (.of major ⊥) } : System J).view = s.view.begin .replication (.of major ⊥) := by
    rw [view_main, hpushed.view]
    rfl
  have hannounce := h.announce major
  refine ⟨some ⟨.of major ⊥, []⟩, ?_⟩
  rw [System.mainPush, hok]
  have hbooks := hpushed.books hannounce.books
  refine ⟨hview ▸ h.turns.begin hp hlt, ⟨hbooks.sound, hbooks.status_le⟩, ?_, ?_, ?_⟩
  · exact hpushed.announced.symm ▸ hannounce.last_le
  · rintro _ ⟨⟩
    exact hpushed.announced.symm ▸ le_max_right s.announced major
  · rintro _ ⟨⟩
    exact hpushed.currentTx

theorem onSourceChange_ok {m : Manager J} (h : m.currentTxWatermark = some w) (change : SourceChange J) :
    ∃ m', m.onSourceChange change = .ok m' := by
  cases change with
  | updateTableMetadata table metadata =>
    simp only [Manager.onSourceChange]
    split <;> exact ⟨_, rfl⟩
  | createTable table metadata backfill =>
    simp only [Manager.onSourceChange]
    split <;> exact ⟨_, rfl⟩
  | renameTable old newTable =>
    simp only [Manager.onSourceChange]
    split <;> exact ⟨_, rfl⟩
  | dropTable id =>
    simp only [Manager.onSourceChange]
    split <;> exact ⟨_, rfl⟩
  | addColumn table column metadata backfill =>
    simp only [Manager.onSourceChange]
    split
    · exact ⟨_, rfl⟩
    · split <;> exact ⟨_, rfl⟩
  | updateColumn table oldName newName =>
    simp only [Manager.onSourceChange]
    split
    · exact ⟨_, rfl⟩
    · split
      · exact ⟨_, rfl⟩
      · split <;> exact ⟨_, rfl⟩
  | dropColumn table column =>
    simp only [Manager.onSourceChange]
    split
    · exact ⟨_, rfl⟩
    · split <;> exact ⟨_, rfl⟩
  | update relation key row =>
    simp only [Manager.onSourceChange, h]
    split
    · split
      · exact ⟨_, rfl⟩
      · split <;> exact ⟨_, rfl⟩
    · exact ⟨_, rfl⟩
  | other => exact ⟨m, rfl⟩

theorem System.Inv.mainChange (h : s.Inv initial complete current none) (hmain : s.main = .inTransaction w)
    (change : SourceChange J) (pick : ℕ) :
    ∃ current', (s.mainPush pick (.data (.source change)) s.main).Inv initial complete current' none := by
  have hp : s.view.party .replication = .inside w := by simp [System.view, partyOf, hmain, MainPoint.party]
  obtain ⟨t, rfl, -, hfree, -⟩ := h.turns.of_inside hp
  obtain ⟨m, hm⟩ := onSourceChange_ok (h.currentTx t rfl) change
  obtain ⟨s', hok⟩ := push_of_ok hfree pick (.data (.source change)) hm
  have hfits : Fits w (.source change) := trivial
  obtain ⟨t', hinv⟩ := h.pushChange hp hfits hok
  refine ⟨some t', ?_⟩
  rw [System.mainPush, hok]
  exact hinv.setMain (by rw [(Pushed.of_push hok (by simp)).main])

theorem System.Inv.mainCommit (h : s.Inv initial complete current none) (hmain : s.main = .inTransaction w) (pick : ℕ) :
    ∃ complete', (s.mainPush pick (.commit w) (.reserved w)).Inv initial complete' none none := by
  have hp : s.view.party .replication = .inside w := by simp [System.view, partyOf, hmain, MainPoint.party]
  obtain ⟨t, rfl, rfl, hfree, -⟩ := h.turns.of_inside hp
  have hmajor := h.current_le t rfl
  obtain ⟨s', hok⟩ := push_of_ok hfree pick (.commit t.mark) rfl
  have hpushed : Pushed s s' (.commit t.mark) := .of_push hok (by rintro w (hw | hw) <;> cases hw; exact hmajor)
  obtain ⟨complete', hlast, hturns⟩ := h.turns.commit hp
  have hview : ({ s' with main := .reserved t.mark } : System J).view = s.view.commit .replication t.mark := by
    rw [view_main, hpushed.view]
    rfl
  have hbooks := hpushed.books h.books
  refine ⟨complete', ?_⟩
  rw [System.mainPush, hok]
  refine ⟨hview ▸ hturns, ⟨hbooks.sound, hbooks.status_le⟩, ?_, by simp, by simp⟩
  rw [hlast]
  exact hpushed.announced.symm ▸ hmajor

omit [DecidableEq J] in
theorem System.Inv.mainRelease (h : s.Inv initial complete current none) (hmain : s.main = .reserved w) :
    ({ s with main := .idle }.release w : System J).Inv initial complete current none := by
  have hp : s.view.party .replication = .between w := by simp [System.view, partyOf, hmain, MainPoint.party]
  have hnot : Producer.replication ∉ s.view.waiters := fun hmem => by
    rw [h.turns.mem_waiters, hp] at hmem
    cases hmem
  have hidle : ({ s with main := .idle } : System J).view = s.view.setParty .replication .idle := view_main .idle
  have hview : ({ s with main := .idle }.release w : System J).view = s.view.release .replication w := by
    rw [view_release, hidle, State.handOver_setParty _ _ hnot]
    · rfl
    · intro p hwaits
      have hne : p ≠ .replication := fun he => hnot (he ▸ hwaits)
      rw [hidle]
      exact (Function.update_of_ne hne ..).trans (h.waiters p hwaits)
  obtain ⟨hannounced, -, -, hcurrentTx⟩ := release_manager ({ s with main := .idle } : System J) w
  have hstart : ({ s with main := .idle } : System J).Books none := ⟨h.books.sound, h.books.status_le⟩
  refine ⟨hview ▸ h.turns.release hp, hstart.release w, ?_, ?_, ?_⟩
  · exact hannounced.symm ▸ h.last_le
  · exact hannounced.symm ▸ h.current_le
  · rw [hcurrentTx]
    exact h.currentTx

theorem System.Inv.pushStatus (h : s.Inv initial complete current none) {major : ℕ} (hmajor : major ≤ s.announced)
    (passedOn : Bool) (pick : ℕ) : (s.pushStatus pick (.of major ⊥) passedOn).Inv initial complete current none := by
  have hquiet : Quiet (fun w => w.major ≤ s.announced) s.manager (s.manager.setLastStatusWatermark (.of major ⊥)) :=
    quiet_setLastStatusWatermark hmajor
  have hinv := h.quiet hquiet
  have hview : (s.pushStatus pick (.of major ⊥) passedOn).view =
      ({ s with manager := s.manager.setLastStatusWatermark (.of major ⊥) } : System J).view := by
    cases passedOn with
    | false => rfl
    | true => simp [System.pushStatus, Manager.onChange, System.view, Message.item]
  exact ⟨hview ▸ hinv.turns, ⟨hinv.books.sound, hinv.books.status_le⟩, hinv.last_le, hinv.current_le, hinv.currentTx⟩

/-! ## Runs -/

omit [DecidableEq J] in
theorem pointOf_eq {point : Point J} (h : s.pointOf i = some point) :
    ∃ b, s.manager.backfills[i]? = some b ∧ b.point = point := Option.map_eq_some_iff.mp h

/-- **Every step keeps the invariant**, but for a call that throws in its transaction. -/
theorem System.Inv.step (h : s.Inv initial complete current none) {e : Event J} (hpossible : s.Possible e)
    (hthrows : ¬ s.ThrowsInTx e) : ∃ complete' current', (s.step e).Inv initial complete' current' none := by
  cases e with
  | yields i msg delayed pick =>
    obtain ⟨b, hb, hpoint⟩ := pointOf_eq hpossible
    simp only [System.step, System.onBackfill, hb]
    exact h.onMessage hb hpoint fun ⟨htx, hyields, hmsg⟩ => hthrows ⟨b, hb, htx, hyields, hmsg⟩
  | ends i pick =>
    obtain ⟨b, hb, hpoint⟩ := pointOf_eq hpossible
    simp only [System.step, System.onBackfill, hb]
    exact h.onEnd hb hpoint
  | throws i e =>
    obtain ⟨b, hb, hpoint⟩ := pointOf_eq hpossible
    have htx : b.backfillTx = none := by
      by_contra hne
      exact hthrows ⟨b, hb, hne⟩
    have hsteady : s.Steady i none b := ⟨hb, htx, by simp [hpoint], by simp [hpoint]⟩
    refine ⟨complete, current, (h.open i).goTo hsteady.txOf (party_steady hsteady) fun b htx hpoint => .ended htx ?_ ?_⟩ <;>
      simp [hpoint]
  | resumes i pick =>
    simp only [System.step, System.onBackfill]
    cases hb : s.manager.backfills[i]? with
    | none => exact ⟨complete, current, h⟩
    | some b =>
      exact h.resume hb (fun msg w hpoint ⟨hcancel, hrejects⟩ => hthrows ⟨b, msg, w, hb, hpoint, hcancel, hrejects⟩) pick
  | settles i => exact ⟨complete, current, h.settle i⟩
  | retries pick =>
    have htimer : Quiet (fun w => w.major ≤ s.announced) s.manager
        { s.manager with backfillRetryTimer := false, timers := s.manager.timers - 1 } := .of_eq rfl rfl rfl
    have hquiet : Quiet (fun w => w.major ≤ s.announced) s.manager (s.manager.retry pick) :=
      htimer.trans (quiet_checkAndStartBackfill pick)
    exact ⟨complete, current, h.quiet hquiet⟩
  | cancels =>
    have hquiet : Quiet (fun w => w.major ≤ s.announced) s.manager s.manager.cancel :=
      (quiet_stopRunningBackfill _ _).trans (.of_eq rfl rfl rfl)
    exact ⟨complete, current, h.quiet hquiet⟩
  | mainReserves => exact ⟨complete, current, h.mainReserve hpossible⟩
  | mainResumes =>
    obtain ⟨w, hmain⟩ := hpossible
    simp only [System.step, hmain]
    exact ⟨complete, current, h.setMain (by rw [hmain]; rfl)⟩
  | mainBegins major pick =>
    obtain ⟨⟨w, hmain⟩, hmajor⟩ := hpossible
    obtain ⟨current', hinv⟩ := h.mainBegin hmain hmajor pick
    exact ⟨complete, current', hinv⟩
  | mainChanges change pick =>
    obtain ⟨w, hmain⟩ := hpossible
    obtain ⟨current', hinv⟩ := h.mainChange hmain change pick
    exact ⟨complete, current', hinv⟩
  | mainCommits pick =>
    obtain ⟨w, hmain⟩ := hpossible
    obtain ⟨complete', hinv⟩ := h.mainCommit hmain pick
    simp only [System.step, hmain]
    exact ⟨complete', none, hinv⟩
  | mainReleases =>
    obtain ⟨w, hmain⟩ := hpossible
    simp only [System.step, hmain]
    exact ⟨complete, current, h.mainRelease hmain⟩
  | mainStatus major passedOn pick =>
    exact ⟨complete, current, (h.announce major).pushStatus (le_max_right ..) passedOn pick⟩

/-! ### A call that throws in its transaction -/

omit [DecidableEq J] in
theorem not_right_of_ended (hb : s.manager.backfills[i]? = some b) (htx : b.backfillTx ≠ none)
    (hended : b.point.hasEnded = true) : ¬ s.Right initial := fun h => by
  have hidle := h.ended b (List.mem_of_getElem? hb) hended
  obtain ⟨tx, htx⟩ := Option.ne_none_iff_exists'.mp htx
  rw [Backfill.party, htx] at hidle
  cases hidle

omit [DecidableEq J] in
theorem not_right_goTo (hi : s.TxOf i tx) (htx : tx ≠ none) (e : String) : ¬ (s.goTo i (.threw e)).Right initial := by
  obtain ⟨b, hb, rfl⟩ := hi
  exact not_right_of_ended (getElem?_modify_self hb) htx rfl

theorem not_right_pushData (hi : s.TxOf i tx) (htx : tx ≠ none) (hrejects : s.manager.rejects msg = true) (pick : ℕ) :
    ¬ (s.pushData i pick msg).Right initial := by
  obtain ⟨e, he⟩ := onBackfillMessage_rejects.mpr hrejects
  have hpush : ∃ e, s.push pick (.data (.backfill msg)) = .error e := by
    rw [System.push]
    split
    · exact ⟨_, rfl⟩
    · exact ⟨e, by simp [Manager.onChange, he]⟩
  obtain ⟨e, he⟩ := hpush
  rw [System.pushData, he]
  exact not_right_goTo hi htx e

theorem System.Inv.not_right_step (h : s.Inv initial complete current none) {e : Event J} (hpossible : s.Possible e)
    (hthrows : s.ThrowsInTx e) : ¬ (s.step e).Right initial := by
  cases e with
  | throws i e =>
    obtain ⟨b, hb, htx⟩ := hthrows
    exact not_right_goTo ⟨b, hb, rfl⟩ htx e
  | yields i msg delayed pick =>
    obtain ⟨b, hb, htx, hyields, hmsg⟩ := hthrows
    have hwait : s.mustWait b msg = false := by
      rw [System.yieldsReservation, Bool.or_eq_false_iff] at hyields
      exact hyields.2
    obtain ⟨tx, hsome⟩ := Option.ne_none_iff_exists'.mp htx
    simp only [System.step, System.onBackfill, hb, System.onMessage, hsome, hwait, hyields, Bool.false_eq_true, if_false,
      System.afterWait]
    split
    · exact not_right_goTo ⟨b, hb, rfl⟩ htx _
    · next hrowKey => exact not_right_pushData ⟨b, hb, rfl⟩ htx (hmsg.resolve_left hrowKey) pick
  | resumes i pick =>
    obtain ⟨b, msg, w, hb, hpoint, hcancel, hrejects⟩ := hthrows
    have hsound := h.books.sound i b (by simp) hb
    have htx : b.backfillTx = none := hsound.outside (by simp [hpoint])
    have hp : s.view.party (.backfill i) = .between w := by rw [party_of hb, Backfill.party, htx, hpoint, partyAt]
    obtain ⟨hlast, -, -, -⟩ := h.turns.of_between hp
    obtain ⟨hlt, hmajor, -⟩ := txFor_spec (hlast ▸ h.last_le) h.books.status_le
      fun hcompleted => hsound.reached msg (.inr ⟨_, hpoint⟩) hcompleted
    obtain ⟨s', hok, hrequired, hi', -⟩ := (h.open i).beginTx ⟨b, hb, htx⟩ pick hp hlt hmajor
    have hrejects' : (s'.setTx i (some (txFor w msg))).manager.rejects msg = true := by
      rw [← hrejects, rejects_congr hrequired]
    simp only [System.step, System.onBackfill, hb, System.resume, hpoint, System.beginTxFor, hcancel, Bool.false_eq_true,
      if_false, hok]
    exact not_right_pushData hi' (by simp) hrejects' pick
  | ends | settles | retries | cancels | mainReserves | mainResumes | mainBegins | mainChanges | mainCommits | mainReleases
  | mainStatus => exact hthrows.elim

omit [DecidableEq J] in
theorem start_inv (lastWatermark : Watermark) (initialRequests : List (BackfillRequest J)) (pick : ℕ) :
    (System.start lastWatermark initialRequests pick).Inv lastWatermark [] none none := by
  have hfold (requests : List (BackfillRequest J)) (m : Manager J) :
      Quiet (fun w => w.major ≤ lastWatermark.major) m (requests.foldl Manager.setRequiredBackfill m) := by
    induction requests generalizing m with
    | nil => exact .refl m
    | cons req requests ih => exact (quiet_setRequiredBackfill req).trans (ih _)
  have hquiet := (hfold initialRequests { lastStatusWatermark := some lastWatermark }).trans
    (quiet_checkAndStartBackfill pick)
  have hempty : System.Inv (J := J) ⟨{ lastWatermark := some lastWatermark }, { lastStatusWatermark := some lastWatermark }, .idle,
      lastWatermark.major⟩ lastWatermark [] none none := by
    have hidle (p : Producer) : partyOf (J := J) { lastStatusWatermark := some lastWatermark } .idle p = .idle := by
      cases p <;> rfl
    refine ⟨⟨.empty, List.nodup_nil, fun p => ?_, .free rfl hidle⟩, ⟨?_, ?_⟩, le_refl _, by simp, by simp⟩
    · simp [System.view, hidle]
    · intro i b _ hb
      cases hb
    · rintro _ ⟨⟩
      exact le_refl _
  exact hempty.quiet hquiet

/-- The invariant, between two steps. -/
def Orderly (initial : Watermark) (s : System J) : Prop := ∃ complete current, s.Inv initial complete current none

/-- **What is pushed is right exactly when no call of `#runBackfill` throws in its transaction**, in every run. -/
theorem right_iff_no_throw (lastWatermark : Watermark) (initialRequests : List (BackfillRequest J)) (pick : ℕ)
    {events : List (Event J)}
    (h : Runs.Always System.step System.Possible (.start lastWatermark initialRequests pick) events) :
    Runs.Always System.step (fun s e => (s.step e).Right lastWatermark) (.start lastWatermark initialRequests pick) events ↔
      Runs.Always System.step (fun s e => ¬ s.ThrowsInTx e) (.start lastWatermark initialRequests pick) events := by
  have hstart : Orderly lastWatermark (.start lastWatermark initialRequests pick) :=
    ⟨[], none, start_inv lastWatermark initialRequests pick⟩
  refine Runs.Always.iff_of_inv h hstart ?_ ?_
  · rintro s e ⟨complete, current, hinv⟩ hpossible
    constructor
    · exact fun hright hthrows => hinv.not_right_step hpossible hthrows hright
    · intro hthrows
      obtain ⟨complete', current', hinv'⟩ := hinv.step hpossible hthrows
      exact hinv'.right
  · rintro s e ⟨complete, current, hinv⟩ hpossible hthrows
    exact hinv.step hpossible hthrows

/-! ### A stream that fails after its first message -/

/-- A table with a column to fill. -/
def exampleRequest : BackfillRequest ℕ :=
  { table := ⟨"public", "issue"⟩, metadata := none, columns := OrderedMap.ofList [("title", .id 1)] }

/-- Rows of the table, at the watermark the stream is at. -/
def exampleRows : BackfillMessage ℕ := .backfill ⟨⟨"public", "issue"⟩, ["id"]⟩ ["title"] (.of 5 ⊥) [[1, 2]]

def exampleCompleted : BackfillMessage ℕ := .completed ⟨⟨"public", "issue"⟩, ["id"]⟩ ["title"] (.of 5 ⊥)

/-- The rows are sent, the stream ends the backfill, and the replication stream goes on. -/
theorem right_iff_no_throw_completed :
    Runs.Always System.step (fun s e => (s.step e).Right (.of 5 ⊥)) (.start (.of 5 ⊥) [exampleRequest] 0)
        [.yields 0 exampleRows false 0, .resumes 0 0, .yields 0 exampleCompleted false 0, .mainReserves, .ends 0 0, .mainResumes,
          .mainBegins 6 0] ↔
      Runs.Always System.step (fun s e => ¬ s.ThrowsInTx e) (.start (.of 5 ⊥) [exampleRequest] 0)
        [.yields 0 exampleRows false 0, .resumes 0 0, .yields 0 exampleCompleted false 0, .mainReserves, .ends 0 0, .mainResumes,
          .mainBegins 6 0] :=
  right_iff_no_throw (.of 5 ⊥) [exampleRequest] 0
    ⟨rfl, ⟨exampleRows, .inr ⟨.of 5 ⊥, rfl⟩⟩, rfl, rfl, rfl, ⟨_, rfl⟩, ⟨⟨_, rfl⟩, by decide +kernel⟩, trivial⟩

/-- The transaction stays open, and the replication stream waits for it. -/
theorem throws_keeps_reservation :
    ∃ events : List (Event ℕ),
      Runs.Always System.step System.Possible (.start (.of 5 ⊥) [exampleRequest] 0) events ∧
      (events.foldl System.step (.start (.of 5 ⊥) [exampleRequest] 0)).pointOf 0 = some (.threw "Error: connection lost") ∧
      (events.foldl System.step (.start (.of 5 ⊥) [exampleRequest] 0)).main = .reserving none ∧
      ¬ (events.foldl System.step (.start (.of 5 ⊥) [exampleRequest] 0)).Right (.of 5 ⊥) := by
  refine ⟨[.yields 0 exampleRows false 0, .resumes 0 0, .throws 0 "Error: connection lost", .mainReserves],
    ⟨rfl, ⟨exampleRows, .inr ⟨.of 5 ⊥, rfl⟩⟩, rfl, rfl, trivial⟩, rfl, rfl, ?_⟩
  exact not_right_of_ended (i := 0) rfl (by decide +kernel) rfl

end ZeroSync.Backfills
