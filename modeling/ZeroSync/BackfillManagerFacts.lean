/-
What the bookkeeping of a `BackfillManager` leaves of the backfills.

On no message does it begin or end a transaction, or move a call of
`#runBackfill` other than by ending a wait for a watermark that the stream has
reached; the calls that it starts are at their first message (`quiet_onChange`).
-/
import ZeroSync.BackfillManager

namespace ZeroSync.Backfills

variable {J : Type} {p : Watermark → Prop} {m m' m'' : Manager J} {i : ℕ}

/-- A backfill that is where it was, or whose wait has ended. -/
structure Kept (isBehind : Watermark → Bool) (b b' : Backfill J) : Prop where
  tx : b'.backfillTx = b.backfillTx
  point : b'.point = b.point ∨
    ∃ msg, b.point = .waiting msg false ∧ b'.point = .waiting msg true ∧ isBehind msg.watermark = false

/-- What bookkeeping leaves, the status having moved to a watermark of `p` if at all. -/
structure Quiet (p : Watermark → Prop) (m m' : Manager J) : Prop where
  currentTx : m'.currentTxWatermark = m.currentTxWatermark
  isBehind : ∀ w, m.isBehind w = false → m'.isBehind w = false
  last : ∀ w, m'.lastStatusWatermark = some w → m.lastStatusWatermark = some w ∨ p w
  old : ∀ (i : ℕ) b, m.backfills[i]? = some b → ∃ b', m'.backfills[i]? = some b' ∧ Kept m'.isBehind b b'
  new : ∀ (i : ℕ) b', m.backfills[i]? = none → m'.backfills[i]? = some b' → b'.backfillTx = none ∧ b'.point = .streaming

theorem Kept.refl (isBehind : Watermark → Bool) (b : Backfill J) : Kept isBehind b b := ⟨rfl, .inl rfl⟩

theorem Kept.trans {isBehind isBehind' : Watermark → Bool} (hbehind : ∀ w, isBehind w = false → isBehind' w = false)
    {b b' b'' : Backfill J} (h : Kept isBehind b b') (h' : Kept isBehind' b' b'') : Kept isBehind' b b'' := by
  refine ⟨h'.tx.trans h.tx, ?_⟩
  rcases h.point with hp | ⟨msg, hp, hp', hmsg⟩
  · rw [← hp]
    exact h'.point
  · rcases h'.point with hq | ⟨msg', hq, -⟩
    · exact .inr ⟨msg, hp, hq.trans hp', hbehind _ hmsg⟩
    · rw [hp'] at hq
      cases hq

theorem Quiet.trans (h : Quiet p m m') (h' : Quiet p m' m'') : Quiet p m m'' where
  currentTx := h'.currentTx.trans h.currentTx
  isBehind w hw := h'.isBehind w (h.isBehind w hw)
  last w hw := (h'.last w hw).elim (h.last w) .inr
  old i b hb := by
    obtain ⟨b', hb', hkept⟩ := h.old i b hb
    obtain ⟨b'', hb'', hkept'⟩ := h'.old i b' hb'
    exact ⟨b'', hb'', hkept.trans h'.isBehind hkept'⟩
  new i b'' hnone hb'' := by
    cases hb' : m'.backfills[i]? with
    | none => exact h'.new i b'' hb' hb''
    | some b' =>
      obtain ⟨b₂, hb₂, hkept⟩ := h'.old i b' hb'
      obtain rfl := Option.some.inj (hb₂.symm.trans hb'')
      obtain ⟨htx, hpoint⟩ := h.new i b' hnone hb'
      refine ⟨hkept.tx.trans htx, ?_⟩
      rcases hkept.point with hp | ⟨msg, hp, -⟩
      · exact hp.trans hpoint
      · rw [hpoint] at hp
        cases hp

theorem Quiet.of_eq (hcurrent : m'.currentTxWatermark = m.currentTxWatermark)
    (hlast : m'.lastStatusWatermark = m.lastStatusWatermark) (hbackfills : m'.backfills = m.backfills) :
    Quiet p m m' where
  currentTx := hcurrent
  isBehind w hw := by rwa [Manager.isBehind, hlast]
  last w hw := .inl (hlast ▸ hw)
  old i b hb := ⟨b, hbackfills ▸ hb, .refl _ b⟩
  new i b' hnone hb' := by
    rw [hbackfills, hnone] at hb'
    cases hb'

theorem Quiet.refl (m : Manager J) : Quiet p m m := .of_eq rfl rfl rfl

theorem quiet_modify {f : Backfill J → Backfill J} (htx : ∀ b, (f b).backfillTx = b.backfillTx)
    (hpoint : ∀ b, (f b).point = b.point) : Quiet p m (m.modify i f) where
  currentTx := rfl
  isBehind _ hw := hw
  last _ hw := .inl hw
  old j b hb := by
    by_cases hij : i = j
    · exact ⟨f b, by simp [Manager.modify, hij, hb], htx b, .inl (hpoint b)⟩
    · exact ⟨b, by simp [Manager.modify, hij, hb], .refl _ b⟩
  new j b' hnone hb' := by
    rw [Manager.modify, List.getElem?_modify, hnone] at hb'
    cases hb'

theorem quiet_stopRunningBackfill (reason : Option String) (inst : Option ℕ) :
    Quiet p m (m.stopRunningBackfill reason inst) := by
  rw [Manager.stopRunningBackfill]
  cases m.runningBackfill with
  | none => exact .refl m
  | some backfill =>
    dsimp only
    split
    · have hmodify : Quiet p m (m.modify backfill fun b => { b with canceledReason := reason }) :=
        quiet_modify (fun _ => rfl) fun _ => rfl
      exact hmodify.trans (.of_eq rfl rfl rfl)
    · exact .refl m

theorem quiet_checkAndStartBackfill (pick : ℕ) : Quiet p m (m.checkAndStartBackfill pick) := by
  rw [Manager.checkAndStartBackfill]
  split
  · exact .refl m
  · dsimp only
    split
    · exact .refl m
    · refine ⟨rfl, fun _ hw => hw, fun _ hw => .inl hw, fun i b hb => ⟨b, ?_, .refl _ b⟩, fun i b' hnone hb' => ?_⟩
      · have hi := (List.getElem?_eq_some_iff.mp hb).1
        simp [List.getElem?_append_left hi, hb]
      · rw [List.getElem?_eq_none_iff] at hnone
        rw [List.getElem?_append_right hnone, List.getElem?_singleton] at hb'
        split at hb'
        · obtain rfl := Option.some.inj hb'
          exact ⟨rfl, rfl⟩
        · cases hb'

theorem kept_reach {isBehind : Watermark → Bool} {watermark : Watermark} (h : ∀ w ≤ watermark, isBehind w = false)
    (b : Backfill J) : Kept isBehind b (Manager.reach watermark b) := by
  rw [Manager.reach]
  split
  · next msg hpoint =>
    split
    · next hle => exact ⟨rfl, .inr ⟨msg, hpoint, rfl, h _ hle⟩⟩
    · exact .refl _ b
  · exact .refl _ b

theorem quiet_setLastStatusWatermark {watermark : Watermark} (hp : p watermark) :
    Quiet p m (m.setLastStatusWatermark watermark) := by
  rw [Manager.setLastStatusWatermark]
  split
  · next hbehind =>
    refine ⟨rfl, fun w hw => ?_, fun w hw => .inr (Option.some.inj hw ▸ hp), fun i b hb => ?_, ?_⟩
    · rw [Manager.isBehind] at hbehind hw ⊢
      cases hlast : m.lastStatusWatermark with
      | none => rw [hlast] at hw; cases hw
      | some last =>
        rw [hlast] at hbehind hw
        simp only [decide_eq_true_eq, decide_eq_false_iff_not, not_lt] at hbehind hw ⊢
        exact hw.trans hbehind.le
    · refine ⟨Manager.reach watermark b, by simp [hb], kept_reach (fun w hw => ?_) b⟩
      simpa [Manager.isBehind] using hw
    · intro i b' hnone hb'
      simp [hnone] at hb'
  · exact .refl m

theorem quiet_stopFor (table : Identifier) (reason : String) : Quiet p m (m.stopFor table reason) := by
  rw [Manager.stopFor]
  split
  · exact quiet_stopRunningBackfill _ _
  · exact .refl m

theorem quiet_stopForColumn (table : Identifier) (column reason : String) : Quiet p m (m.stopForColumn table column reason) := by
  rw [Manager.stopForColumn]
  split
  · split
    · exact quiet_stopRunningBackfill _ _
    · exact .refl m
  · exact .refl m

theorem quiet_setRequiredBackfill (req : BackfillRequest J) : Quiet p m (m.setRequiredBackfill req) := .of_eq rfl rfl rfl

theorem quiet_deleteRequiredBackfill (id : Identifier) : Quiet p m (m.deleteRequiredBackfill id) := .of_eq rfl rfl rfl

theorem quiet_onBackfillMessage {msg : BackfillMessage J} (h : m.onBackfillMessage msg = .ok m') : Quiet p m m' := by
  cases msg with
  | backfill =>
    obtain rfl := Except.ok.inj h
    exact .refl m
  | completed relation columns watermark =>
    simp only [Manager.onBackfillMessage] at h
    split at h
    · cases h
    · obtain rfl := Except.ok.inj h
      refine Quiet.trans ?_ (quiet_stopRunningBackfill _ _)
      split
      · exact quiet_deleteRequiredBackfill _
      · exact quiet_setRequiredBackfill _

section

variable [DecidableEq J]

theorem quiet_onSourceChange {change : SourceChange J} (h : m.onSourceChange change = .ok m') : Quiet p m m' := by
  cases change with
  | updateTableMetadata table metadata =>
    simp only [Manager.onSourceChange] at h
    split at h <;> obtain rfl := Except.ok.inj h
    · exact .refl m
    · exact (quiet_setRequiredBackfill _).trans (quiet_stopFor _ _)
  | createTable table metadata backfill =>
    simp only [Manager.onSourceChange] at h
    split at h <;> obtain rfl := Except.ok.inj h
    · exact .refl m
    · exact quiet_setRequiredBackfill _
  | renameTable old newTable =>
    simp only [Manager.onSourceChange] at h
    split at h <;> obtain rfl := Except.ok.inj h
    · exact .refl m
    · exact ((quiet_deleteRequiredBackfill _).trans (quiet_setRequiredBackfill _)).trans (quiet_stopFor _ _)
  | dropTable id =>
    simp only [Manager.onSourceChange] at h
    split at h <;> obtain rfl := Except.ok.inj h
    · exact .refl m
    · exact (quiet_deleteRequiredBackfill _).trans (quiet_stopFor _ _)
  | addColumn table column metadata backfill =>
    simp only [Manager.onSourceChange] at h
    split at h
    · obtain rfl := Except.ok.inj h
      exact .refl m
    · split at h <;> obtain rfl := Except.ok.inj h <;> exact quiet_setRequiredBackfill _
  | updateColumn table oldName newName =>
    simp only [Manager.onSourceChange] at h
    split at h
    · obtain rfl := Except.ok.inj h
      exact .refl m
    · split at h
      · obtain rfl := Except.ok.inj h
        exact .refl m
      · split at h <;> obtain rfl := Except.ok.inj h
        · exact .refl m
        · exact (quiet_setRequiredBackfill _).trans (quiet_stopForColumn _ _ _)
  | dropColumn table column =>
    simp only [Manager.onSourceChange] at h
    split at h
    · obtain rfl := Except.ok.inj h
      exact .refl m
    · split at h <;> obtain rfl := Except.ok.inj h
      · exact .refl m
      · refine Quiet.trans ?_ (quiet_stopForColumn _ _ _)
        split
        · exact quiet_deleteRequiredBackfill _
        · exact quiet_setRequiredBackfill _
  | update relation key row =>
    simp only [Manager.onSourceChange] at h
    split at h
    · cases h
    · split at h
      · split at h
        · obtain rfl := Except.ok.inj h
          exact .refl m
        · split at h <;> obtain rfl := Except.ok.inj h
          · exact quiet_modify (fun _ => rfl) fun _ => rfl
          · exact .refl m
      · obtain rfl := Except.ok.inj h
        exact .refl m
  | other =>
    obtain rfl := Except.ok.inj h
    exact .refl m

/-- The transaction that the stream is in after a message. -/
def Message.currentTx (msg : Message J) (current : Option Watermark) : Option Watermark :=
  match msg with
  | .begin w => some w
  | .commit _ => none
  | .data _ | .status _ => current

/-- What `onChange` leaves, when the watermarks that commits and statuses come with are of `p`. -/
theorem quiet_onChange {pick : ℕ} {msg : Message J} (h : m.onChange pick msg = .ok m')
    (hp : ∀ w, msg = .commit w ∨ msg = .status w → p w) :
    Quiet p { m with currentTxWatermark := m'.currentTxWatermark } m' ∧
      m'.currentTxWatermark = msg.currentTx m.currentTxWatermark := by
  cases msg with
  | begin w =>
    obtain rfl := Except.ok.inj h
    exact ⟨.of_eq rfl rfl rfl, rfl⟩
  | commit w =>
    obtain rfl := Except.ok.inj h
    have hquiet := (quiet_setLastStatusWatermark (m := { m with currentTxWatermark := none }) (hp w (.inl rfl))).trans
      (quiet_checkAndStartBackfill pick)
    rw [hquiet.currentTx]
    exact ⟨hquiet, rfl⟩
  | status w =>
    obtain rfl := Except.ok.inj h
    have hquiet := quiet_setLastStatusWatermark (m := m) (hp w (.inr rfl))
    rw [hquiet.currentTx]
    exact ⟨hquiet, rfl⟩
  | data change =>
    have hquiet : Quiet p m m' := by
      cases change with
      | source c => exact quiet_onSourceChange h
      | backfill msg => exact quiet_onBackfillMessage h
    rw [hquiet.currentTx]
    exact ⟨hquiet, rfl⟩

end

end ZeroSync.Backfills
