/-
The ids a client reports never go back, as long as no message brings one
below what is already there or on its way.

The tracker's id, the id of the frame in flight, the one the buffer would be
merged to and the last one received are in this order: a message raises the
last one, a frame moves the third to the second, its end the second to the
first, and `connected` the last to the first.
-/
import ZeroSync.PokeHandler
import Mathlib

namespace ZeroSync

theorem lastMutationIDChange_append (l l' : List PokePart) :
    lastMutationIDChange (l ++ l') = (lastMutationIDChange l').or (lastMutationIDChange l) := by
  simp [lastMutationIDChange, List.getLast?_append]

namespace PokeSession

variable {ω γ δ ε : Type} {decodePokeChunks : List γ → Except String (List PokePart)}
  {s s' : PokeSession ω γ δ ε}

/-- The id of the frame in flight. -/
def inFlightID (s : PokeSession ω γ δ ε) : Option ℕ := s.inFlight.bind (·.lastMutationID)

/-- The id the buffer would be merged to. -/
def bufferID (s : PokeSession ω γ δ ε) : Option ℕ := lastMutationIDChange (s.pokeBuffer.flatMap (·.parts))

theorem mem_carried (m : ℕ) : m ∈ s.carried ↔ s.inFlightID = some m ∨ s.bufferID = some m := by
  simp [carried, inFlightID, bufferID]

/-- The ids in their order, and where they come from. -/
structure Inv (s : PokeSession ω γ δ ε) : Prop where
  right : s.Right
  current_le : s.tracker.currentMutationID ≤ s.lastMutationIDReceived
  carried : ∀ m ∈ s.carried, s.tracker.currentMutationID ≤ m ∧ m ≤ s.lastMutationIDReceived ∧ m ∈ s.received
  order : ∀ a b, s.inFlightID = some a → s.bufferID = some b → a ≤ b
  received : s.lastMutationIDReceived ∈ s.received ∨ s.lastMutationIDReceived = 0

theorem Inv.init (clientID : String) : (init clientID : PokeSession ω γ δ ε).Inv where
  right := ⟨fun call hcall => (nomatch hcall), fun m hm => (nomatch hm)⟩
  current_le := Nat.le_refl _
  carried m hm := by simp [PokeSession.carried, PokeSession.init, lastMutationIDChange] at hm
  order a b ha := by cases ha
  received := .inr rfl

theorem Inv.drop (h : s.Inv) (hcurrent : s'.tracker.currentMutationID = s.tracker.currentMutationID)
    (hcalls : s'.calls = s.calls) (hreported : s'.reported = s.reported) (hreceived : s'.received = s.received)
    (hlast : s'.lastMutationIDReceived = s.lastMutationIDReceived)
    (hflight : s'.inFlightID = s.inFlightID ∨ s'.inFlightID = none)
    (hbuffer : s'.bufferID = s.bufferID ∨ s'.bufferID = none) : s'.Inv where
  right := ⟨by rw [hcalls]; exact h.right.calls, by rw [hreported, hreceived]; exact h.right.reported⟩
  current_le := by rw [hcurrent, hlast]; exact h.current_le
  carried m hm := by
    rw [hcurrent, hlast, hreceived]
    refine h.carried m ((mem_carried m).mpr ?_)
    rcases (mem_carried m).mp hm with hm | hm
    · exact .inl (hflight.elim (fun heq => heq ▸ hm) fun hnone => nomatch hnone.symm.trans hm)
    · exact .inr (hbuffer.elim (fun heq => heq ▸ hm) fun hnone => nomatch hnone.symm.trans hm)
  order a b ha hb := by
    rcases hflight with hflight | hnone
    · rcases hbuffer with hbuffer | hnone
      · exact h.order a b (hflight ▸ ha) (hbuffer ▸ hb)
      · cases hnone.symm.trans hb
    · cases hnone.symm.trans ha
  received := by rw [hlast, hreceived]; exact h.received

theorem bufferID_nil (h : s.pokeBuffer = []) : s.bufferID = none := by simp [bufferID, h, lastMutationIDChange]

theorem Inv.handlePokeError (h : s.Inv) : s.handlePokeError.Inv :=
  h.drop rfl rfl rfl rfl rfl (.inl rfl) (.inr (bufferID_nil rfl))

theorem Inv.disconnect (h : s.Inv) : s.disconnect.Inv :=
  h.drop rfl rfl rfl rfl rfl (.inl rfl) (.inr (bufferID_nil rfl))

theorem Inv.receive (h : s.Inv) {n : ℕ} (hn : s.tracker.currentMutationID ≤ n) (hcarried : ∀ m ∈ s.carried, m ≤ n) :
    (s.receive (some n)).Inv where
  right := ⟨h.right.calls, fun m hm => by
    obtain ⟨k, hk, hmk⟩ := h.right.reported m hm
    exact ⟨k, List.mem_append_left _ hk, hmk⟩⟩
  current_le := hn
  carried m hm := ⟨(h.carried m hm).1, hcarried m hm, List.mem_append_left _ (h.carried m hm).2.2⟩
  order := h.order
  received := .inl (List.mem_append_right _ (List.mem_singleton_self n))

/-- `lmidAdvanced` with a value that is not below the tracker's id. -/
theorem lmidAdvanced_ok {n : ℕ} (hn : s.tracker.currentMutationID ≤ n) :
    ∃ tracker reported, s.lmidAdvanced n = ({ s with
        calls := s.calls ++ [(n, s.tracker.currentMutationID)], tracker, reported := s.reported ++ reported }, true) ∧
      tracker.currentMutationID = n ∧ ∀ m ∈ reported, m ≤ n ∧ 0 < n := by
  obtain ⟨⟨tracker, notify⟩, hok⟩ : ∃ r, s.tracker.lmidAdvanced n = .ok r := by
    unfold MutationTracker.lmidAdvanced
    rw [if_neg (Nat.not_lt.mpr hn)]
    split <;> exact ⟨_, rfl⟩
  obtain ⟨hcurrent, hsettles⟩ := MutationTracker.lmidAdvanced_settles hok
  refine ⟨tracker, (s.tracker.outstandingMutations.entries.filter fun e =>
    (tracker.outstandingMutations.get? e.1).isNone).filterMap (·.2), ?_, hcurrent, fun m hm => ?_⟩
  · simp only [PokeSession.lmidAdvanced, hok]
  obtain ⟨e, he, hem⟩ := List.mem_filterMap.mp hm
  obtain ⟨he, hnone⟩ := List.mem_filter.mp he
  obtain ⟨k, hk, hkn, hlt⟩ := hsettles e he (Option.isNone_iff_eq_none.mp hnone)
  obtain rfl : k = m := Option.some.inj (hk.symm.trans hem)
  exact ⟨hkn, by omega⟩

theorem Inv.lmidAdvanced (h : s.Inv) {n : ℕ} (hn : s.tracker.currentMutationID ≤ n) (hlast : n ≤ s.lastMutationIDReceived)
    (hreceived : n ∈ s.received ∨ n = 0) (hcarried : ∀ m ∈ s.carried, n ≤ m) :
    (s.lmidAdvanced n).2 = true ∧ (s.lmidAdvanced n).1.Inv := by
  obtain ⟨tracker, reported, heq, hcurrent, hreported⟩ := lmidAdvanced_ok hn
  rw [heq]
  refine ⟨rfl, ⟨fun call hcall => ?_, fun m hm => ?_⟩, ?_, fun m hm => ?_, h.order, h.received⟩
  · rcases List.mem_append.mp hcall with hcall | hcall
    · exact h.right.calls call hcall
    · obtain rfl := List.mem_singleton.mp hcall
      exact hn
  · rcases List.mem_append.mp hm with hm | hm
    · exact h.right.reported m hm
    · obtain ⟨hmn, hpos⟩ := hreported m hm
      exact ⟨n, hreceived.resolve_right (by omega), hmn⟩
  · rw [hcurrent]
    exact hlast
  · rw [hcurrent]
    exact ⟨hcarried m hm, (h.carried m hm).2⟩

theorem Inv.beginFrame [LinearOrder ω] (h : s.Inv) : s.beginFrame.Inv := by
  unfold PokeSession.beginFrame
  split
  · exact h
  next hflight =>
  have hmerged : ∀ merged, mergePokes s.pokeBuffer = .ok merged → merged.bind (·.lastMutationID) = s.bufferID := by
    intro merged hmerged
    unfold mergePokes at hmerged
    split at hmerged
    · split at hmerged
      · cases hmerged
      · obtain rfl := Except.ok.inj hmerged
        rfl
    · next hnil =>
      obtain rfl := Except.ok.inj hmerged
      cases hbuffer : s.pokeBuffer with
      | nil => exact (bufferID_nil hbuffer).symm
      | cons a l =>
        refine absurd ?_ (hnil a ((a :: l).getLast (List.cons_ne_nil a l)) (by rw [hbuffer]; rfl))
        rw [hbuffer]
        exact List.getLast?_eq_some_getLast _
  split
  · exact h.handlePokeError
  · next merged hok =>
    have hid : inFlightID { s with pokeBuffer := [], inFlight := merged } = s.bufferID := hmerged merged hok
    exact { h with
      right := ⟨h.right.calls, h.right.reported⟩
      carried := fun m hm => by
        refine h.carried m ((mem_carried m).mpr (.inr ?_))
        rcases (mem_carried m).mp hm with hm | hm
        · exact hid ▸ hm
        · cases (bufferID_nil rfl).symm.trans hm
      order := fun a b _ hb => by cases (bufferID_nil rfl).symm.trans hb }

theorem handlePullResponse_ok [LinearOrder ω] {poke : PokeInternal ω} (h : s.handlePullResponse poke = .ok s') :
    ∃ cookie lastMutationID, s' = { s with cookie, lastMutationID } := by
  unfold handlePullResponse at h
  split at h
  · cases h
  · split at h
    · cases h
    · split at h
      · cases h
      · split at h
        · obtain rfl := Except.ok.inj h
          exact ⟨_, _, rfl⟩
        · obtain rfl := Except.ok.inj h
          exact ⟨_, _, rfl⟩

theorem Inv.endFrame [LinearOrder ω] (h : s.Inv) (fails : Bool) : (s.endFrame fails).Inv := by
  unfold PokeSession.endFrame
  split
  · exact h
  next poke hflight =>
  have hlanded : Inv { s with inFlight := none } := h.drop rfl rfl rfl rfl rfl (.inr rfl) (.inl rfl)
  dsimp only
  split
  · exact hlanded.handlePokeError
  split
  · exact hlanded.handlePokeError
  next s' hok =>
  obtain ⟨cookie, lastMutationID, rfl⟩ := handlePullResponse_ok hok
  have hstored : Inv { s with inFlight := none, cookie, lastMutationID } :=
    hlanded.drop rfl rfl rfl rfl rfl (.inl rfl) (.inl rfl)
  split
  · exact hstored
  next lmid hlmid =>
  have hid : s.inFlightID = some lmid := by simp [inFlightID, hflight, hlmid]
  obtain ⟨hle, hlast, hmem⟩ := h.carried lmid ((mem_carried lmid).mpr (.inl hid))
  obtain ⟨hokay, hinv⟩ := hstored.lmidAdvanced hle hlast (.inl hmem) fun m hm => by
    rcases (mem_carried m).mp hm with hm | hm
    · cases hm
    · exact h.order lmid m hid hm
  rw [if_pos hokay]
  exact hinv

/-- The handler of `connected` raises the tracker to the last id received. -/
theorem Inv.handleConnected (h : s.Inv) (hcarried : ∀ m ∈ s.carried, s.lastMutationIDReceived ≤ m) :
    s.handleConnected.Inv := by
  unfold PokeSession.handleConnected
  split
  · have hanswered : Inv { s with connecting := false } := h.drop rfl rfl rfl rfl rfl (.inl rfl) (.inl rfl)
    obtain ⟨hok, hinv⟩ := hanswered.lmidAdvanced h.current_le (Nat.le_refl _) h.received hcarried
    dsimp only
    rw [if_pos hok]
    exact hinv
  · exact h

theorem Inv.handlePokePart (h : s.Inv) {pokePart : PokePart} (hbrings : ∀ n, pokePart.lastMutationID = some n →
      s.tracker.currentMutationID ≤ n ∧ ∀ m ∈ s.carried, m ≤ n) : (s.handlePokePart pokePart).Inv := by
  unfold PokeSession.handlePokePart
  split
  · exact h.handlePokeError
  next poke _ =>
  split
  · exact h.handlePokeError
  split
  · exact h.handlePokeError
  have hpart : Inv { s with receivingPoke := some { poke with parts := poke.parts ++ [pokePart] } } :=
    h.drop rfl rfl rfl rfl rfl (.inl rfl) (.inl rfl)
  cases hn : pokePart.lastMutationID with
  | none => exact hpart
  | some n => exact hpart.receive (hbrings n hn).1 (hbrings n hn).2

theorem Inv.handlePokeEnd (h : s.Inv) {pokeEnd : PokeEnd ω} (hbrings : ∀ poke parts n, s.receivingPoke = some poke →
      pokeEnd.cancel = false → partsOf decodePokeChunks poke = .ok parts → lastMutationIDChange parts = some n →
      s.tracker.currentMutationID ≤ n ∧ ∀ m ∈ s.carried, m ≤ n) : (s.handlePokeEnd decodePokeChunks pokeEnd).Inv := by
  unfold PokeSession.handlePokeEnd
  split
  · exact h.handlePokeError
  next poke hpoke =>
  split
  · exact h.handlePokeError
  split
  · exact h.drop rfl rfl rfl rfl rfl (.inl rfl) (.inl rfl)
  next hcancel =>
  split
  · exact h.handlePokeError
  next parts hparts =>
  let pushed : PokeSession ω γ δ ε := { s with
    pokeBuffer := s.pokeBuffer ++ [⟨poke.pokeStart, parts, pokeEnd⟩], receivingPoke := none, sent := some pokeEnd.cookie }
  have hbuffer : pushed.bufferID = (lastMutationIDChange parts).or s.bufferID := by
    simp [bufferID, pushed, lastMutationIDChange_append]
  cases hn : lastMutationIDChange parts with
  | none => exact h.drop rfl rfl rfl rfl rfl (.inl rfl) (.inl (by rw [hn] at hbuffer; exact hbuffer))
  | some n =>
    obtain ⟨hcurrent, hcarried⟩ := hbrings poke parts n hpoke (by simpa using hcancel) hparts hn
    have hid : pushed.bufferID = some n := by rw [hbuffer, hn]; rfl
    have hreceived := h.receive hcurrent hcarried
    exact { hreceived with
      right := ⟨hreceived.right.calls, hreceived.right.reported⟩
      carried := fun m hm => by
        rcases (mem_carried m).mp hm with hm | hm
        · exact hreceived.carried m ((mem_carried m).mpr (.inl hm))
        · obtain rfl : n = m := Option.some.inj (hid.symm.trans hm)
          exact ⟨hcurrent, Nat.le_refl _, List.mem_append_right _ (List.mem_singleton_self n)⟩
      order := fun a b ha hb => by
        obtain rfl : n = b := Option.some.inj (hid.symm.trans hb)
        exact hcarried a ((mem_carried a).mpr (.inl ha)) }

theorem tracker_current (s : PokeSession ω γ δ ε) (id : ℕ) :
    (∀ n, (s.tracker.mutationIDAssigned id n).currentMutationID = s.tracker.currentMutationID) ∧
      ∀ e, (s.tracker.rejectMutation id e).currentMutationID = s.tracker.currentMutationID := by
  constructor
  · intro n
    unfold MutationTracker.mutationIDAssigned
    split <;> rfl
  · intro e
    unfold MutationTracker.rejectMutation
    split <;> rfl

theorem Inv.step [LinearOrder ω] {e : Event ω γ ε} (h : s.Inv) (hguarded : s.Guarded decodePokeChunks e) :
    (s.step decodePokeChunks e).Inv := by
  obtain ⟨hbrings, hconnected⟩ := hguarded
  cases e with
  | trackMutation => exact h.drop rfl rfl rfl rfl rfl (.inl rfl) (.inl rfl)
  | mutationIDAssigned id n => exact h.drop ((tracker_current s id).1 n) rfl rfl rfl rfl (.inl rfl) (.inl rfl)
  | rejectMutation id e => exact h.drop ((tracker_current s id).2 e) rfl rfl rfl rfl (.inl rfl) (.inl rfl)
  | pokeStart pokeStart =>
    unfold PokeSession.step PokeSession.handlePokeStart
    dsimp only
    split
    · split
      · exact h.handlePokeError
      · exact h.drop rfl rfl rfl rfl rfl (.inl rfl) (.inl rfl)
    · exact h
  | pokePart pokePart =>
    unfold PokeSession.step
    dsimp only
    split
    · next hsocket => exact h.handlePokePart fun n hn => hbrings n (by simp [brings, hsocket, hn])
    · exact h
  | pokeChunk chunk =>
    unfold PokeSession.step PokeSession.handlePokeChunk
    dsimp only
    split
    · split
      · exact h.handlePokeError
      · split
        · exact h.handlePokeError
        · exact h.drop rfl rfl rfl rfl rfl (.inl rfl) (.inl rfl)
    · exact h
  | pokeEnd pokeEnd =>
    unfold PokeSession.step
    dsimp only
    split
    · next hsocket =>
      exact h.handlePokeEnd fun poke parts n hpoke hcancel hparts hn =>
        hbrings n (by simp [brings, hpoke, hcancel, hparts, hsocket, hn])
    · exact h
  | beginFrame => exact h.beginFrame
  | endFrame fails => exact h.endFrame fails
  | disconnect => exact h.disconnect
  | readCookie => exact h.drop rfl rfl rfl rfl rfl (.inl rfl) (.inl rfl)
  | connect =>
    unfold PokeSession.step
    dsimp only
    split
    · exact h
    · exact h.drop rfl rfl rfl rfl rfl (.inl rfl) (.inl rfl)
  | connected => exact h.handleConnected (hconnected rfl)

theorem Inv.run [LinearOrder ω] {es : List (Event ω γ ε)} (h : s.Inv)
    (hguarded : Runs.Always (PokeSession.step decodePokeChunks) (Guarded decodePokeChunks) s es) :
    (es.foldl (PokeSession.step decodePokeChunks) s).Inv := by
  induction es generalizing s with
  | nil => exact h
  | cons e es ih => exact ih (h.step hguarded.1) hguarded.2

/-- **Last mutation ids never go back**: in every run in which no message
brings an id below what is there or on its way, and none is overtaken when
`connected` is handled, every value given to `lmidAdvanced` is at least the
tracker's id, and it settles only what an id that a poke brought covers. -/
theorem run_right [LinearOrder ω] (decodePokeChunks : List γ → Except String (List PokePart)) (clientID : String)
    (es : List (Event ω γ ε))
    (hguarded : Runs.Always (step decodePokeChunks) (Guarded decodePokeChunks) (init clientID : PokeSession ω γ δ ε) es) :
    (es.foldl (step decodePokeChunks) (init clientID : PokeSession ω γ δ ε)).Right :=
  ((Inv.init clientID).run hguarded).right

/-! ### A frame that is overtaken -/

/-- A server before chunks. -/
def noChunks (_ : List Empty) : Except String (List PokePart) := .ok []

/-- The client's last mutation ID is its cookie. -/
def idAtCookie (cookie : Option ℕ) : ℕ := cookie.getD 0

/-- A poke with one part, from a cookie to the next. -/
def wholePoke (base : Option ℕ) (cookie : ℕ) : List (Event ℕ Empty Unit) :=
  [.pokeStart ⟨"poke", base⟩, .pokePart ⟨"poke", some cookie⟩, .pokeEnd ⟨"poke", cookie, false⟩]

/-- Poke 1 is being applied when poke 2 arrives; the client reconnects, and
`connected` is handled before poke 1 has been applied. -/
def overtakenFrame : List (Event ℕ Empty Unit) :=
  [.readCookie, .connect, .connected] ++ wholePoke none 1 ++ [.beginFrame] ++ wholePoke (some 1) 2 ++
    [.disconnect, .readCookie, .connect, .connected, .endFrame false]

theorem overtaken_fails :
    Runs.Always (step noChunks) (Legal noChunks idAtCookie) (init "client" : PokeSession ℕ Empty Unit Unit) overtakenFrame ∧
      ¬ (overtakenFrame.foldl (step noChunks) (init "client" : PokeSession ℕ Empty Unit Unit)).Right := by
  constructor
  · refine ⟨trivial, trivial, trivial, rfl, fun n hn => ?_, fun poke parts hpoke hparts _ => ?_, trivial, rfl, fun n hn => ?_,
      fun poke parts hpoke hparts _ => ?_, trivial, trivial, trivial, trivial, trivial, trivial⟩
    · exact Nat.zero_le n
    · obtain rfl := Option.some.inj hpoke
      obtain rfl := Except.ok.inj hparts
      exact ⟨fun cookie hcookie => (nomatch hcookie), by decide⟩
    · obtain rfl := Option.some.inj hn
      decide
    · obtain rfl := Option.some.inj hpoke
      obtain rfl := Except.ok.inj hparts
      exact ⟨fun cookie hcookie => by obtain rfl := Option.some.inj hcookie; decide, by decide⟩
  · intro h
    exact absurd (h.calls (1, 2) (by decide +kernel)) (by decide)

/-- A poke that is applied before the client goes on. -/
def appliedPoke : List (Event ℕ Empty Unit) :=
  [.readCookie, .connect, .connected] ++ wholePoke none 1 ++ [.beginFrame, .endFrame false]

theorem run_right_applied : (appliedPoke.foldl (step noChunks) (init "client" : PokeSession ℕ Empty Unit Unit)).Right := by
  have hsilent : ∀ (s : PokeSession ℕ Empty Unit Unit) (e : Event ℕ Empty Unit), s.brings noChunks e = none →
      e ≠ .connected → s.Guarded noChunks e := fun s e hnone hne =>
    ⟨fun n hn => (nomatch hnone.symm.trans hn), fun he => absurd he hne⟩
  have hbrings : ∀ (s : PokeSession ℕ Empty Unit Unit) (e : Event ℕ Empty Unit), s.brings noChunks e = some 1 →
      e ≠ .connected → s.tracker.currentMutationID = 0 → s.carried = [] → s.Guarded noChunks e :=
    fun s e hone hne hcurrent hcarried => ⟨fun n hn => by
      obtain rfl := Option.some.inj (hone.symm.trans hn)
      simp [hcurrent, hcarried], fun he => absurd he hne⟩
  refine run_right noChunks "client" appliedPoke ⟨hsilent _ _ rfl nofun, hsilent _ _ rfl nofun,
    ⟨fun n hn => (nomatch hn), fun _ m hm => (nomatch hm)⟩, hsilent _ _ rfl nofun, hbrings _ _ rfl nofun rfl rfl,
    hbrings _ _ rfl nofun rfl rfl, hsilent _ _ rfl nofun, hsilent _ _ rfl nofun, trivial⟩

end PokeSession

end ZeroSync
