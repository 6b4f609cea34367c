/-
The multiplexed stream is one of whole transactions.

The producers take turns (`Turns`): `view` reads off who has the stream and what
has been pushed, and each step of the system is a step of the turns. A call of
`#runBackfill` that throws in its transaction keeps its turn for good; where none
does, no call that has ended has the stream (`right_iff_no_throw`).
-/
import Mathlib.Algebra.Order.Monoid.Unbundled.WithTop
import ZeroSync.BackfillManagerFacts
import ZeroSync.RunBackfill
import ZeroSync.Runs
import ZeroSync.Turns

namespace ZeroSync.Backfills

open Transactions Turns

variable {J : Type}

/-! ## Turns -/

def Message.item : Message J → Option (Item Watermark (DataChange J))
  | .begin w => some (.begin w)
  | .data change => some (.data change)
  | .commit w => some (.commit w)
  | .status _ => none

/-- A transaction that completes a backfill is not below the watermark of the backfill. -/
def Fits (w : Watermark) : DataChange J → Prop
  | .backfill (.completed _ _ watermark) => watermark ≤ w
  | _ => True

/-- Where a backfill at a point is, in a transaction or not. -/
def partyAt : Option Watermark → Point J → Party Watermark
  | some tx, _ => .inside tx
  | none, .reserving _ (some w) => .between w
  | none, .reserving _ none => .awaiting
  | none, _ => .idle

def Backfill.party (b : Backfill J) : Party Watermark := partyAt b.backfillTx b.point

def MainPoint.party : MainPoint → Party Watermark
  | .idle | .failed _ => .idle
  | .reserving none => .awaiting
  | .reserving (some w) | .reserved w => .between w
  | .inTransaction w => .inside w

def partyOf (m : Manager J) (main : MainPoint) : Producer → Party Watermark
  | .replication => main.party
  | .backfill i => (m.backfills[i]?.map Backfill.party).getD .idle

namespace System

/-- The stream and whose turn it is. -/
def view (s : System J) : State Producer Watermark (DataChange J) where
  free := s.changes.lastWatermark
  waiters := s.changes.waiters
  items := s.changes.pushed.filterMap Message.item
  party := partyOf s.manager s.main

end System

/-! ### What steps are to the turns -/

theorem Kept.party {isBehind : Watermark → Bool} {b b' : Backfill J} (h : Kept isBehind b b') : b'.party = b.party := by
  rw [Backfill.party, Backfill.party, h.tx]
  rcases h.point with hp | ⟨msg, hp, hp', -⟩
  · rw [hp]
  · rw [hp, hp']
    cases b.backfillTx <;> rfl

theorem Quiet.party {p : Watermark → Prop} {m m' : Manager J} (h : Quiet p m m') (main : MainPoint) :
    partyOf m' main = partyOf m main := by
  funext producer
  cases producer with
  | replication => rfl
  | backfill i =>
    simp only [partyOf]
    cases hb : m.backfills[i]? with
    | some b =>
      obtain ⟨b', hb', hkept⟩ := h.old i b hb
      simp [hb', hkept.party]
    | none =>
      cases hb' : m'.backfills[i]? with
      | none => rfl
      | some b' =>
        obtain ⟨htx, hpoint⟩ := h.new i b' hb hb'
        simp [Backfill.party, partyAt, htx, hpoint]

variable {s s' : System J} {b : Backfill J} {i pick : ℕ} {w : Watermark}

theorem view_onManager {p : Watermark → Prop} {m : Manager J} (h : Quiet p s.manager m) :
    ({ s with manager := m } : System J).view = s.view := by
  simp only [System.view, h.party]

theorem view_modify {f : Backfill J → Backfill J} (hb : s.manager.backfills[i]? = some b) :
    (s.modify i f).view = s.view.setParty (.backfill i) (f b).party := by
  simp only [System.view, System.modify, System.onManager, State.setParty]
  congr 1
  funext producer
  cases producer with
  | replication => rfl
  | backfill j =>
    by_cases hij : j = i
    · subst hij
      simp [partyOf, Manager.modify, hb]
    · have hne : (Producer.backfill j) ≠ .backfill i := fun he => hij (Producer.backfill.inj he)
      simp [partyOf, Manager.modify, hne, Ne.symm hij]

theorem getElem?_modify_self {f : Backfill J → Backfill J} (hb : s.manager.backfills[i]? = some b) :
    (s.modify i f).manager.backfills[i]? = some (f b) := by
  simp [System.modify, System.onManager, Manager.modify, hb]

theorem view_main (main : MainPoint) :
    ({ s with main } : System J).view = s.view.setParty .replication main.party := by
  simp only [System.view, State.setParty]
  congr 1
  funext producer
  cases producer with
  | replication => simp [partyOf]
  | backfill j => simp [partyOf]

theorem party_awaiting (h : s.view.party (.backfill i) = .awaiting) :
    ∃ b msg, s.manager.backfills[i]? = some b ∧ b.backfillTx = none ∧ b.point = .reserving msg none := by
  simp only [System.view, partyOf] at h
  cases hb : s.manager.backfills[i]? with
  | none => rw [hb] at h; cases h
  | some b =>
    rw [hb] at h
    simp only [Option.map_some, Option.getD_some, Backfill.party, partyAt] at h
    split at h
    · cases h
    · cases h
    · next msg htx hpoint => exact ⟨b, msg, rfl, htx, hpoint⟩
    · cases h

theorem party_of (hb : s.manager.backfills[i]? = some b) : s.view.party (.backfill i) = b.party := by
  simp [System.view, partyOf, hb]

theorem view_release (hwait : ∀ p ∈ s.changes.waiters, s.view.party p = .awaiting) :
    (s.release w).view = s.view.handOver w := by
  rw [System.release, Multiplexer.release]
  cases hw : s.changes.waiters with
  | nil => simp [State.handOver, System.view, hw]
  | cons waiter waiters =>
    have hwaiter := hwait waiter (by simp [hw])
    have hview : s.view.handOver w =
        State.setParty ({ s with changes.waiters := waiters } : System J).view waiter (.between w) := by
      simp only [State.handOver, System.view, hw]
    rw [hview]
    cases waiter with
    | replication => exact view_main _
    | backfill i =>
      obtain ⟨b, msg, hb, htx, hpoint⟩ := party_awaiting hwaiter
      have hgrant : (({ s with changes.waiters := waiters } : System J).grant (.backfill i) w).view = _ := view_modify hb
      exact hgrant.trans (by simp [Backfill.party, partyAt, hpoint, htx])

theorem release_backfills (s : System J) (w : Watermark) (i : ℕ) :
    ∃ f : Backfill J → Backfill J, (s.release w).manager.backfills[i]? = s.manager.backfills[i]?.map f ∧
      ∀ b, (f b).backfillTx = b.backfillTx ∧
        ((f b).point = b.point ∨ ∃ msg g, b.point = .reserving msg g ∧ (f b).point = .reserving msg (some w)) := by
  rw [System.release, Multiplexer.release]
  cases s.changes.waiters with
  | nil => exact ⟨id, by simp, fun b => ⟨rfl, .inl rfl⟩⟩
  | cons waiter waiters =>
    cases waiter with
    | replication => exact ⟨id, by simp [System.grant], fun b => ⟨rfl, .inl rfl⟩⟩
    | backfill j =>
      by_cases hij : j = i
      · subst hij
        refine ⟨_, List.getElem?_modify_eq .., fun b => ?_⟩
        split
        · next msg g hpoint => exact ⟨rfl, .inr ⟨msg, g, hpoint, rfl⟩⟩
        · exact ⟨rfl, .inl rfl⟩
      · refine ⟨id, ?_, fun b => ⟨rfl, .inl rfl⟩⟩
        simp [System.grant, System.modify, System.onManager, Manager.modify, hij]

theorem release_manager (s : System J) (w : Watermark) :
    (s.release w).announced = s.announced ∧ (s.release w).manager.isBehind = s.manager.isBehind ∧
      (s.release w).manager.lastStatusWatermark = s.manager.lastStatusWatermark ∧
      (s.release w).manager.currentTxWatermark = s.manager.currentTxWatermark := by
  rw [System.release, Multiplexer.release]
  cases s.changes.waiters with
  | nil => exact ⟨rfl, rfl, rfl, rfl⟩
  | cons waiter waiters => cases waiter <;> exact ⟨rfl, rfl, rfl, rfl⟩

/-! ## The books -/

/-- What the point of a backfill says of it. -/
structure Sound (isBehind : Watermark → Bool) (b : Backfill J) : Prop where
  streaming : b.backfillTx ≠ none → b.point = .streaming
  reached : ∀ msg, (b.point = .waiting msg true ∨ ∃ g, b.point = .reserving msg g) → msg.isCompleted = true →
    isBehind msg.watermark = false

/-- What holds of the manager; `busy` is the backfill in the middle of a step. -/
structure System.Books (s : System J) (busy : Option ℕ) : Prop where
  sound : ∀ (i : ℕ) b, busy ≠ some i → s.manager.backfills[i]? = some b → Sound s.manager.isBehind b
  status_le : ∀ w, s.manager.lastStatusWatermark = some w → w.major ≤ s.announced

/-- The transaction that a backfill is in. -/
def System.TxOf (s : System J) (i : ℕ) (tx : Option Watermark) : Prop :=
  ∃ b, s.manager.backfills[i]? = some b ∧ b.backfillTx = tx

theorem Sound.kept {isBehind isBehind' : Watermark → Bool} (hbehind : ∀ w, isBehind w = false → isBehind' w = false)
    {b b' : Backfill J} (h : Sound isBehind b) (hkept : Kept isBehind' b b') : Sound isBehind' b' := by
  rcases hkept.point with hp | ⟨msg, hp, hp', hmsg⟩
  · constructor
    · rw [hkept.tx, hp]
      exact h.streaming
    · intro msg hpoint hcompleted
      rw [hp] at hpoint
      exact hbehind _ (h.reached msg hpoint hcompleted)
  · constructor
    · intro htx
      rw [hkept.tx] at htx
      rw [h.streaming htx] at hp
      cases hp
    · intro msg' hpoint _
      rw [hp'] at hpoint
      rcases hpoint with hpoint | ⟨g, hpoint⟩
      · obtain ⟨rfl, -⟩ := (Point.waiting.injEq ..).mp hpoint
        exact hmsg
      · cases hpoint

theorem Sound.outside {isBehind : Watermark → Bool} {b : Backfill J} (h : Sound isBehind b) (hne : b.point ≠ .streaming) :
    b.backfillTx = none := by
  by_contra htx
  exact hne (h.streaming htx)

theorem Sound.fresh {isBehind : Watermark → Bool} {b : Backfill J} (hpoint : b.point = .streaming) : Sound isBehind b := by
  refine ⟨fun _ => hpoint, fun msg h => ?_⟩
  rw [hpoint] at h
  rcases h with h | ⟨g, h⟩ <;> cases h

theorem Sound.ended {isBehind : Watermark → Bool} {b : Backfill J} (htx : b.backfillTx = none)
    (hwait : ∀ msg, b.point ≠ .waiting msg true) (hreserve : ∀ msg g, b.point ≠ .reserving msg g) : Sound isBehind b :=
  ⟨fun h => absurd htx h, fun msg h => h.elim (fun h => absurd h (hwait msg)) fun ⟨g, h⟩ => absurd h (hreserve msg g)⟩

variable {busy : Option ℕ} {tx : Option Watermark}

theorem System.Books.quiet (h : s.Books busy) {m : Manager J} (hm : Quiet (fun w => w.major ≤ s.announced) s.manager m) :
    ({ s with manager := m } : System J).Books busy where
  sound i b' hi hb' := by
    cases hb : s.manager.backfills[i]? with
    | none => exact .fresh (hm.new i b' hb hb').2
    | some b =>
      obtain ⟨b₂, hb₂, hkept⟩ := hm.old i b hb
      obtain rfl := Option.some.inj (hb₂.symm.trans hb')
      exact (h.sound i b hi hb).kept hm.isBehind hkept
  status_le w hw := (hm.last w hw).elim (h.status_le w) id

theorem System.TxOf.quiet (h : s.TxOf i tx) {p : Watermark → Prop} {m : Manager J} (hm : Quiet p s.manager m) :
    ({ s with manager := m } : System J).TxOf i tx := by
  obtain ⟨b, hb, rfl⟩ := h
  obtain ⟨b', hb', hkept⟩ := hm.old i b hb
  exact ⟨b', hb', hkept.tx⟩

theorem System.Books.release (h : s.Books busy) (w : Watermark) : (s.release w).Books busy := by
  obtain ⟨hannounced, hbehind, hlast, -⟩ := release_manager s w
  constructor
  · intro i b' hi hb'
    obtain ⟨f, hf, hgrant⟩ := release_backfills s w i
    rw [hf] at hb'
    obtain ⟨b, hb, rfl⟩ := Option.map_eq_some_iff.mp hb'
    have hsound := h.sound i b hi hb
    rw [hbehind]
    obtain ⟨htx, hpoint | ⟨msg, g, hpoint, hpoint'⟩⟩ := hgrant b
    · exact ⟨by rw [htx, hpoint]; exact hsound.streaming, by rw [hpoint]; exact hsound.reached⟩
    · constructor
      · intro hne
        rw [htx] at hne
        rw [hsound.streaming hne] at hpoint
        cases hpoint
      · intro msg' h' hcompleted
        rw [hpoint'] at h'
        rcases h' with h' | ⟨g', h'⟩
        · cases h'
        · obtain ⟨rfl, -⟩ := (Point.reserving.injEq ..).mp h'
          exact hsound.reached msg (.inr ⟨g, hpoint⟩) hcompleted
  · rw [hlast, hannounced]
    exact h.status_le

theorem System.TxOf.release (h : s.TxOf i tx) (w : Watermark) : (s.release w).TxOf i tx := by
  obtain ⟨b, hb, rfl⟩ := h
  obtain ⟨f, hf, hgrant⟩ := release_backfills s w i
  exact ⟨f b, by rw [hf, hb]; rfl, (hgrant b).1⟩

theorem System.Books.modify (h : s.Books (some i)) (f : Backfill J → Backfill J) : (s.modify i f).Books (some i) where
  sound j b hj hb := by
    have hne : i ≠ j := fun he => hj (by rw [he])
    have hsame : (s.modify i f).manager.backfills[j]? = s.manager.backfills[j]? := List.getElem?_modify_ne _ _ hne
    exact h.sound j b hj (hsame ▸ hb)
  status_le := h.status_le

theorem System.Books.close (h : s.Books (some i)) (hi : ∀ b, s.manager.backfills[i]? = some b → Sound s.manager.isBehind b) :
    s.Books none where
  sound j b _ hb := by
    by_cases hj : j = i
    · exact hi b (hj ▸ hb)
    · exact h.sound j b (fun he => hj (Option.some.inj he).symm) hb
  status_le := h.status_le

theorem System.Books.open (h : s.Books none) (i : ℕ) : s.Books (some i) :=
  ⟨fun j b _ hb => h.sound j b (by simp) hb, h.status_le⟩

/-! ## The invariant -/

/-- The turns, the books, and the majors that have been announced. -/
structure System.Inv (s : System J) (initial : Watermark) (complete : List (Transaction Watermark (DataChange J)))
    (current : Option (Transaction Watermark (DataChange J))) (busy : Option ℕ) : Prop where
  turns : Turns.Inv initial Fits s.view complete current
  books : s.Books busy
  last_le : (last initial complete).major ≤ s.announced
  current_le : ∀ t, current = some t → t.mark.major ≤ s.announced
  currentTx : ∀ t, current = some t → s.manager.currentTxWatermark = some t.mark

variable {initial : Watermark} {complete : List (Transaction Watermark (DataChange J))}
  {current : Option (Transaction Watermark (DataChange J))} {t : Transaction Watermark (DataChange J)}

theorem System.Inv.waiters (h : s.Inv initial complete current busy) :
    ∀ p ∈ s.changes.waiters, s.view.party p = .awaiting := fun p hp => (h.turns.mem_waiters p).mp hp

theorem System.Inv.quiet (h : s.Inv initial complete current busy) {m : Manager J}
    (hm : Quiet (fun w => w.major ≤ s.announced) s.manager m) :
    ({ s with manager := m } : System J).Inv initial complete current busy where
  turns := view_onManager hm ▸ h.turns
  books := h.books.quiet hm
  last_le := h.last_le
  current_le := h.current_le
  currentTx t ht := hm.currentTx.trans (h.currentTx t ht)

section

variable [DecidableEq J] {msg : Message J}

/-- What a push that succeeds does. -/
structure Pushed (s s' : System J) (msg : Message J) : Prop where
  changes : s'.changes = { s.changes with pushed := s.changes.pushed ++ [msg] }
  main : s'.main = s.main
  announced : s'.announced = s.announced
  quiet : Quiet (fun w => w.major ≤ s.announced)
    { s.manager with currentTxWatermark := s'.manager.currentTxWatermark } s'.manager
  currentTx : s'.manager.currentTxWatermark = msg.currentTx s.manager.currentTxWatermark

theorem Pushed.of_push (h : s.push pick msg = .ok s') (hbound : ∀ w, msg = .commit w ∨ msg = .status w → w.major ≤ s.announced) :
    Pushed s s' msg := by
  rw [System.push] at h
  split at h
  · cases h
  · split at h
    · cases h
    · next manager hok =>
      obtain rfl := Except.ok.inj h
      obtain ⟨hquiet, hcurrent⟩ := quiet_onChange hok hbound
      exact ⟨rfl, rfl, rfl, hquiet, hcurrent⟩

omit [DecidableEq J] in
theorem Pushed.view (h : Pushed s s' msg) : s'.view = { s.view with items := s.view.items ++ msg.item.toList } := by
  obtain ⟨changes, manager, main, announced⟩ := s'
  obtain ⟨rfl, rfl, rfl, hquiet, -⟩ := h
  have hparty := hquiet.party s.main
  simp only [System.view, List.filterMap_append, List.filterMap_cons, List.filterMap_nil] at hparty ⊢
  rw [hparty]
  cases msg.item <;> rfl

omit [DecidableEq J] in
theorem Pushed.books (h : Pushed s s' msg) (hbooks : s.Books busy) : s'.Books busy := by
  have hquiet : ({ s with manager := s'.manager } : System J).Books busy := by
    have hstart : ({ s with manager.currentTxWatermark := s'.manager.currentTxWatermark } : System J).Books busy :=
      ⟨hbooks.sound, hbooks.status_le⟩
    exact hstart.quiet h.quiet
  exact ⟨hquiet.sound, h.announced ▸ hquiet.status_le⟩

omit [DecidableEq J] in
theorem Pushed.txOf (h : Pushed s s' msg) (htx : s.TxOf i tx) : s'.TxOf i tx := by
  have hstart : ({ s with manager.currentTxWatermark := s'.manager.currentTxWatermark } : System J).TxOf i tx := htx
  exact hstart.quiet h.quiet

end

/-! ### Moves of a backfill -/

/-- A backfill in the middle of a step, which does not wait for the reservation. -/
structure System.Steady (s : System J) (i : ℕ) (tx : Option Watermark) (b : Backfill J) : Prop where
  here : s.manager.backfills[i]? = some b
  tx : b.backfillTx = tx
  notReserving : ∀ msg g, b.point ≠ .reserving msg g
  reached : ∀ msg, b.point = .waiting msg true → msg.isCompleted = true → s.manager.isBehind msg.watermark = false

theorem System.Steady.txOf (h : s.Steady i tx b) : s.TxOf i tx := ⟨b, h.here, h.tx⟩

theorem System.Steady.release (h : s.Steady i tx b) (w : Watermark) : ∃ b', (s.release w).Steady i tx b' := by
  obtain ⟨f, hf, hgrant⟩ := release_backfills s w i
  obtain ⟨htx, hpoint | ⟨msg, g, hpoint, -⟩⟩ := hgrant b
  · refine ⟨f b, by rw [hf, h.here]; rfl, htx.trans h.tx, fun msg g => ?_, fun msg hwait => ?_⟩
    · rw [hpoint]
      exact h.notReserving msg g
    · rw [hpoint] at hwait
      rw [(release_manager s w).2.1]
      exact h.reached msg hwait
  · exact absurd hpoint (h.notReserving msg g)

theorem Pushed.steady [DecidableEq J] {msg : Message J} (h : Pushed s s' msg) (hi : s.Steady i tx b) :
    ∃ b', s'.Steady i tx b' := by
  obtain ⟨b', hb', hkept⟩ := h.quiet.old i b hi.here
  refine ⟨b', hb', hkept.tx.trans hi.tx, fun msg g => ?_, fun msg hwait hcompleted => ?_⟩
  · rcases hkept.point with hp | ⟨msg', -, hp, -⟩
    · rw [hp]
      exact hi.notReserving msg g
    · rw [hp]
      exact fun he => nomatch he
  · rcases hkept.point with hp | ⟨msg', -, hp, hmsg⟩
    · rw [hp] at hwait
      exact h.quiet.isBehind _ (hi.reached msg hwait hcompleted)
    · rw [hwait] at hp
      obtain ⟨rfl, -⟩ := (Point.waiting.injEq ..).mp hp
      exact hmsg

theorem view_goTo (h : s.TxOf i tx) (point : Point J) :
    (s.goTo i point).view = s.view.setParty (.backfill i) (partyAt tx point) := by
  obtain ⟨b, hb, rfl⟩ := h
  exact view_modify hb

theorem setParty_self {σ : State Producer Watermark (DataChange J)} {p : Producer} {x : Party Watermark}
    (h : σ.party p = x) : σ.setParty p x = σ := by
  rw [State.setParty, ← h, Function.update_eq_self]

theorem party_txOf (h : s.TxOf i (some w)) : s.view.party (.backfill i) = .inside w := by
  obtain ⟨b, hb, htx⟩ := h
  rw [party_of hb, Backfill.party, htx]
  rfl

theorem party_steady (h : s.Steady i none b) : s.view.party (.backfill i) = .idle := by
  rw [party_of h.here, Backfill.party, h.tx, partyAt]
  · exact fun msg w => h.notReserving msg _
  · exact fun msg => h.notReserving msg none

theorem System.Inv.moveTo (h : s.Inv initial complete current (some i)) (hi : s.TxOf i tx) (point : Point J)
    (hparty : s.view.party (.backfill i) = partyAt tx point) :
    (s.goTo i point).Inv initial complete current (some i) where
  turns := by
    rw [view_goTo hi, setParty_self hparty]
    exact h.turns
  books := h.books.modify _
  last_le := h.last_le
  current_le := h.current_le
  currentTx := h.currentTx

theorem System.Inv.close (h : s.Inv initial complete current (some i))
    (hi : ∀ b, s.manager.backfills[i]? = some b → Sound s.manager.isBehind b) : s.Inv initial complete current none :=
  ⟨h.turns, h.books.close hi, h.last_le, h.current_le, h.currentTx⟩

theorem System.Inv.open (h : s.Inv initial complete current none) (i : ℕ) : s.Inv initial complete current (some i) :=
  ⟨h.turns, h.books.open i, h.last_le, h.current_le, h.currentTx⟩

theorem System.Inv.goTo (h : s.Inv initial complete current (some i)) (hi : s.TxOf i tx) {point : Point J}
    (hparty : s.view.party (.backfill i) = partyAt tx point)
    (hsound : ∀ b : Backfill J, b.backfillTx = tx → b.point = point → Sound s.manager.isBehind b) :
    (s.goTo i point).Inv initial complete current none := by
  refine (h.moveTo hi point hparty).close fun b hb => ?_
  obtain ⟨b₀, hb₀, htx⟩ := hi
  rw [System.goTo, getElem?_modify_self hb₀] at hb
  obtain rfl := Option.some.inj hb
  exact hsound _ htx rfl

theorem System.Inv.stay (h : s.Inv initial complete current (some i)) (hi : s.Steady i none b) :
    s.Inv initial complete current none := by
  refine h.close fun b' hb' => ?_
  obtain rfl := Option.some.inj (hi.here.symm.trans hb')
  refine ⟨fun hne => absurd hi.tx hne, fun msg hpoint => ?_⟩
  rcases hpoint with hpoint | ⟨g, hpoint⟩
  · exact hi.reached msg hpoint
  · exact absurd hpoint (hi.notReserving msg g)

/-! ### What a step is made of -/

section

variable [DecidableEq J] {mark : Watermark} {producer : Producer}

/-- Messages that the manager throws on. -/
def Manager.rejects (m : Manager J) : BackfillMessage J → Bool
  | .backfill .. => false
  | .completed relation _ _ => (m.required relation.id).isNone

omit [DecidableEq J] in
theorem onBackfillMessage_rejects {m : Manager J} {msg : BackfillMessage J} :
    (∃ e, m.onBackfillMessage msg = .error e) ↔ m.rejects msg = true := by
  cases msg with
  | backfill => simp [Manager.onBackfillMessage, Manager.rejects]
  | completed relation columns watermark =>
    simp only [Manager.onBackfillMessage, Manager.rejects]
    cases m.required relation.id <;> simp

theorem push_of_ok (hfree : s.changes.lastWatermark = none) (pick : ℕ) (msg : Message J) {m : Manager J}
    (hm : s.manager.onChange pick msg = .ok m) : ∃ s', s.push pick msg = .ok s' := by
  simp [System.push, hfree, hm]

omit [DecidableEq J] in
theorem System.Inv.reserved (h : s.Inv initial complete current busy)
    (hp : s.view.party producer = .between w ∨ s.view.party producer = .inside w) : s.changes.lastWatermark = none := by
  rcases hp with hp | hp
  · exact (h.turns.of_between hp).2.2.1
  · obtain ⟨t, -, -, hfree, -⟩ := h.turns.of_inside hp
    exact hfree

theorem System.Inv.pushChange (h : s.Inv initial complete current busy) (hp : s.view.party producer = .inside mark)
    {change : DataChange J} (hfits : Fits mark change) (hok : s.push pick (.data change) = .ok s') :
    ∃ t, s'.Inv initial complete (some t) busy := by
  have hpushed : Pushed s s' (.data change) := .of_push hok (by simp)
  obtain ⟨t, rfl, hturns⟩ := h.turns.data hp hfits
  obtain ⟨t', rfl, ht', -⟩ := h.turns.of_inside hp
  have hview : s'.view = s.view.push (.data change) := by
    rw [hpushed.view]
    rfl
  refine ⟨t, hview ▸ hturns, hpushed.books h.books, hpushed.announced ▸ h.last_le, ?_, ?_⟩
  · rintro _ ⟨⟩
    rw [hpushed.announced, ← ht']
    exact h.current_le t' rfl
  · rintro _ ⟨⟩
    rw [hpushed.currentTx, ← ht']
    exact h.currentTx t' rfl

theorem System.Inv.pushData (h : s.Inv initial complete current (some i)) (hi : s.TxOf i (some mark)) (pick : ℕ)
    {msg : BackfillMessage J} (hfits : Fits mark (.backfill msg)) (hrejects : s.manager.rejects msg = false) :
    ∃ t, (s.pushData i pick msg).Inv initial complete (some t) none := by
  have hfree := h.reserved (.inr (party_txOf hi))
  cases hm : s.manager.onBackfillMessage msg with
  | error e =>
    rw [onBackfillMessage_rejects.mp ⟨e, hm⟩] at hrejects
    cases hrejects
  | ok m =>
    obtain ⟨s', hok⟩ := push_of_ok hfree pick (.data (.backfill msg)) hm
    obtain ⟨t, hinv⟩ := h.pushChange (party_txOf hi) hfits hok
    have hi' := (Pushed.of_push hok (by simp)).txOf hi
    refine ⟨t, ?_⟩
    rw [System.pushData, hok]
    exact hinv.goTo hi' (party_txOf hi') fun b _ hpoint => .fresh hpoint

theorem System.Inv.beginTx (h : s.Inv initial complete current (some i)) (hi : s.TxOf i tx) (pick : ℕ)
    (hp : s.view.party (.backfill i) = .between w) (hmark : w < mark) (hmajor : mark.major ≤ s.announced) :
    ∃ s', s.push pick (.begin mark) = .ok s' ∧ s'.manager.requiredBackfills = s.manager.requiredBackfills ∧
      (s'.setTx i (some mark)).TxOf i (some mark) ∧
      (s'.setTx i (some mark)).Inv initial complete (some ⟨mark, []⟩) (some i) := by
  have hfree := h.reserved (.inl hp)
  obtain ⟨s', hok⟩ := push_of_ok hfree pick (.begin mark) rfl
  have hpushed : Pushed s s' (.begin mark) := .of_push hok (by simp)
  have hrequired : s'.manager.requiredBackfills = s.manager.requiredBackfills := by
    simp only [System.push, hfree, Option.isSome_none, Bool.false_eq_true, if_false, Manager.onChange,
      Except.ok.injEq] at hok
    rw [← hok]
  obtain ⟨b', hb', htx'⟩ := hpushed.txOf hi
  refine ⟨s', hok, hrequired, ⟨_, getElem?_modify_self hb', rfl⟩, ?_, (hpushed.books h.books).modify _, ?_, ?_, ?_⟩
  · have hview : (s'.setTx i (some mark)).view = s.view.begin (.backfill i) mark := by
      refine (view_modify hb').trans ?_
      rw [hpushed.view]
      rfl
    rw [hview]
    exact h.turns.begin hp hmark
  · exact hpushed.announced.symm ▸ h.last_le
  · rintro _ ⟨⟩
    exact hpushed.announced.symm ▸ hmajor
  · rintro _ ⟨⟩
    exact hpushed.currentTx

theorem System.Inv.commitTx (h : s.Inv initial complete current (some i)) (hi : s.Steady i (some mark) b) (pick : ℕ) :
    ∃ s' b' complete', s.commitTx i pick mark = .ok s' ∧ s'.Steady i none b' ∧ s'.Inv initial complete' none (some i) ∧
      ∀ w, s.manager.isBehind w = false → s'.manager.isBehind w = false := by
  have hparty := party_txOf hi.txOf
  have hfree := h.reserved (.inr hparty)
  obtain ⟨s₁, hok⟩ := push_of_ok hfree pick (.commit mark) rfl
  obtain ⟨t, rfl, rfl, -, -⟩ := h.turns.of_inside hparty
  have hmajor := h.current_le t rfl
  have hpushed : Pushed s s₁ (.commit t.mark) := .of_push hok (by rintro w (hw | hw) <;> cases hw; exact hmajor)
  obtain ⟨complete', hlast, hturns⟩ := h.turns.commit hparty
  have hbetween : (s.view.commit (.backfill i) t.mark).party (.backfill i) = .between t.mark := by
    simp [State.commit, State.setParty]
  have hrelease := hturns.release hbetween
  obtain ⟨b₁, hb₁⟩ := hpushed.steady hi
  obtain ⟨b₂, hb₂⟩ := hb₁.release t.mark
  obtain ⟨hannounced, hbehind, -, -⟩ := release_manager s₁ t.mark
  have hview : ((s₁.release t.mark).setTx i none).view = (s.view.commit (.backfill i) t.mark).release (.backfill i) t.mark := by
    have hidle : partyAt none b₂.point = .idle := by
      rw [partyAt]
      · exact fun msg w => hb₂.notReserving msg _
      · exact fun msg => hb₂.notReserving msg none
    refine (view_modify hb₂.here).trans ?_
    rw [view_release, State.commit, State.release_setParty, State.release, hpushed.view]
    · exact congrArg _ hidle
    · intro p hp
      rw [hpushed.changes] at hp
      rw [hpushed.view]
      exact h.waiters p hp
  refine ⟨(s₁.release t.mark).setTx i none, { b₂ with backfillTx := none }, complete', ?_, ?_, ?_, fun w hw => ?_⟩
  · rw [System.commitTx, hok]
  · exact ⟨getElem?_modify_self hb₂.here, rfl, hb₂.notReserving, hb₂.reached⟩
  · refine ⟨hview ▸ hrelease, ((hpushed.books h.books).release t.mark).modify _, ?_, by simp, by simp⟩
    rw [hlast]
    exact (hannounced.trans hpushed.announced).symm ▸ hmajor
  · have hw := hpushed.quiet.isBehind w hw
    rw [← hbehind] at hw
    exact hw

omit [DecidableEq J] in
theorem System.Inv.reserve (h : s.Inv initial complete current (some i)) (hi : s.Steady i none b)
    {msg : BackfillMessage J} (hreached : msg.isCompleted = true → s.manager.isBehind msg.watermark = false)
    {changes : Multiplexer J} {granted : Option Watermark} (hreserve : s.changes.reserve (.backfill i) = (changes, granted)) :
    (({ s with changes } : System J).goTo i (.reserving msg granted)).Inv initial complete current none := by
  have hturns := h.turns.reserve (p := .backfill i) (party_steady hi)
  have hview : (({ s with changes } : System J).goTo i (.reserving msg granted)).view = s.view.reserve (.backfill i) := by
    refine (view_goTo (s := { s with changes }) ⟨b, hi.here, hi.tx⟩ _).trans ?_
    rw [Multiplexer.reserve] at hreserve
    cases hlast : s.changes.lastWatermark with
    | some w =>
      rw [hlast] at hreserve
      obtain ⟨rfl, rfl⟩ := Prod.mk.inj hreserve
      simp [State.reserve, System.view, hlast, partyAt]
    | none =>
      rw [hlast] at hreserve
      obtain ⟨rfl, rfl⟩ := Prod.mk.inj hreserve
      simp [State.reserve, System.view, hlast, partyAt]
  have hbooks : ({ s with changes } : System J).Books (some i) := ⟨h.books.sound, h.books.status_le⟩
  refine ⟨hview ▸ hturns, (hbooks.modify _).close fun b' hb' => ?_, h.last_le, h.current_le, h.currentTx⟩
  rw [getElem?_modify_self (s := { s with changes }) hi.here] at hb'
  obtain rfl := Option.some.inj hb'
  refine ⟨fun hne => absurd hi.tx hne, fun msg' hpoint => ?_⟩
  rcases hpoint with hpoint | ⟨g, hpoint⟩
  · cases hpoint
  · obtain ⟨rfl, -⟩ := (Point.reserving.injEq ..).mp hpoint
    exact hreached

end

end ZeroSync.Backfills
