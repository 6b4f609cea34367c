/-
The counts of a query manager's entries: no assertion of it fails.

An entry's count is the number of cleanup callbacks that hold it, the ones
not called yet and the ones that wait for the mutations. An entry nothing
holds is the one its hash is registered with as long as it is recent.
-/
import ZeroSync.QueryManager
import Mathlib.Data.List.Nodup
import Mathlib.Data.List.Perm.Basic

namespace ZeroSync.QueryManager

variable {κ β : Type} [DecidableEq κ] {qm qm' : QueryManager κ β} {held : List (ℕ × κ)}

/-- The entries that cleanup callbacks hold, with their hashes. -/
def holders (qm : QueryManager κ β) : List (ℕ × κ) :=
  (qm.cleanups.filter fun cb => !cb.removed).map (fun cb => (cb.entry, cb.queryId)) ++ qm.pendingRemovals

/-- Entries and counts, with `held` the entries that are held. -/
structure Holds (qm : QueryManager κ β) (held : List (ℕ × κ)) : Prop where
  entry_lt : ∀ hash i, qm.queries.get? hash = some i → i < qm.nextEntry
  injective : ∀ hash hash' i, qm.queries.get? hash = some i → qm.queries.get? hash' = some i → hash = hash'
  registered : ∀ h ∈ held, qm.queries.get? h.2 = some h.1
  count : ∀ hash i, qm.queries.get? hash = some i → (qm.entries i).count = (held.countP (·.1 == i) : ℕ)
  recent : ∀ hash ∈ qm.recentQueries, ∃ i, qm.queries.get? hash = some i ∧ (qm.entries i).count = 0
  nodup : qm.recentQueries.Nodup

theorem Holds.init (blank : Entry β) (recentQueriesMaxSize : ℕ) : (init blank recentQueriesMaxSize : QueryManager κ β).Holds [] where
  entry_lt hash i hi := by cases hi
  injective hash hash' i hi := by cases hi
  registered h hh := by cases hh
  count hash i hi := by cases hi
  recent hash hh := by cases hh
  nodup := List.nodup_nil

theorem Holds.perm {held' : List (ℕ × κ)} (h : qm.Holds held) (hperm : held'.Perm held) : qm.Holds held' :=
  { h with
    registered := fun x hx => h.registered x (hperm.subset hx)
    count := fun hash i hi => by rw [h.count hash i hi, hperm.countP_eq] }

theorem Holds.congr (h : qm.Holds held) (hentries : qm'.entries = qm.entries) (hnext : qm'.nextEntry = qm.nextEntry)
    (hqueries : qm'.queries = qm.queries) (hrecent : qm'.recentQueries = qm.recentQueries) : qm'.Holds held where
  entry_lt := by rw [hqueries, hnext]; exact h.entry_lt
  injective := by rw [hqueries]; exact h.injective
  registered := by rw [hqueries]; exact h.registered
  count := by rw [hqueries, hentries]; exact h.count
  recent := by rw [hqueries, hentries, hrecent]; exact h.recent
  nodup := by rw [hrecent]; exact h.nodup

theorem Holds.countP_cons (h : qm.Holds held) {hash : κ} {i : ℕ} (hi : qm.queries.get? hash = some i) :
    (((i, hash) :: held).countP (·.1 == i) : ℕ) = (qm.entries i).count + 1 := by
  rw [h.count hash i hi, List.countP_cons_of_pos (by simp)]
  rfl

theorem Holds.increment (h : qm.Holds held) {hash : κ} {i : ℕ} (hi : qm.queries.get? hash = some i)
    (hrecent : hash ∉ qm.recentQueries) :
    (qm.setEntry i { qm.entries i with count := (qm.entries i).count + 1 }).Holds ((i, hash) :: held) where
  entry_lt := h.entry_lt
  injective := h.injective
  registered x hx := by
    rcases List.mem_cons.mp hx with rfl | hx
    · exact hi
    · exact h.registered x hx
  count hash' j hj := by
    simp only [setEntry, Function.update_apply]
    by_cases hij : j = i
    · subst hij
      rw [if_pos rfl, h.countP_cons hi]
    · rw [if_neg hij, h.count hash' j hj, List.countP_cons_of_neg (by simpa using Ne.symm hij)]
  recent hash' hhash' := by
    obtain ⟨j, hj, hcount⟩ := h.recent hash' hhash'
    refine ⟨j, hj, ?_⟩
    have hij : j ≠ i := fun heq => hrecent (h.injective hash' hash i (heq ▸ hj) hi ▸ hhash')
    simpa [setEntry, hij] using hcount
  nodup := h.nodup

theorem Holds.setEntry (h : qm.Holds held) {i : ℕ} {entry : Entry β} (hcount : entry.count = (qm.entries i).count) :
    (qm.setEntry i entry).Holds held := by
  have hsame : ∀ j, ((qm.setEntry i entry).entries j).count = (qm.entries j).count := fun j => by
    simp only [QueryManager.setEntry, Function.update_apply]
    split
    · next hj => rw [hj, hcount]
    · rfl
  exact { h with
    count := fun hash j hj => by rw [hsame j]; exact h.count hash j hj
    recent := fun hash hhash => by
      obtain ⟨j, hj, hzero⟩ := h.recent hash hhash
      exact ⟨j, hj, (hsame j).trans hzero⟩ }

theorem Holds.queueQueryChange (h : qm.Holds held) (op : UpQueriesPatchOp κ β) : (qm.queueQueryChange op).Holds held :=
  h.congr rfl rfl rfl rfl

theorem Holds.updateEntry (h : qm.Holds held) (i : ℕ) (queryID : κ) (ttl : TTL) :
    (qm.updateEntry i queryID ttl).Holds held := by
  unfold QueryManager.updateEntry
  dsimp only
  split
  · refine Holds.queueQueryChange (h.setEntry ?_) _
    rfl
  · exact h

omit [DecidableEq κ] in
@[simp] theorem updateEntry_cleanups (qm : QueryManager κ β) (i : ℕ) (queryID : κ) (ttl : TTL) :
    (qm.updateEntry i queryID ttl).cleanups = qm.cleanups := by
  unfold updateEntry
  dsimp only
  split <;> rfl

omit [DecidableEq κ] in
@[simp] theorem updateEntry_pendingRemovals (qm : QueryManager κ β) (i : ℕ) (queryID : κ) (ttl : TTL) :
    (qm.updateEntry i queryID ttl).pendingRemovals = qm.pendingRemovals := by
  unfold updateEntry
  dsimp only
  split <;> rfl

theorem Holds.unlisted (h : qm.Holds held) (hash : κ) :
    ({ qm with recentQueries := qm.recentQueries.erase hash } : QueryManager κ β).Holds held :=
  { h with
    recent := fun hash' hhash' => h.recent hash' (List.mem_of_mem_erase hhash')
    nodup := h.nodup.erase hash }

theorem Holds.register (h : qm.Holds held) {hash : κ} (hnew : qm.queries.get? hash = none) {entry : Entry β}
    (hcount : entry.count = 1) (hrecent : hash ∉ qm.recentQueries) :
    ({ qm.setEntry qm.nextEntry entry with
        nextEntry := qm.nextEntry + 1, queries := qm.queries.set hash qm.nextEntry } : QueryManager κ β).Holds
      ((qm.nextEntry, hash) :: held) := by
  have hget : ∀ hash' i, (qm.queries.set hash qm.nextEntry).get? hash' = some i →
      hash' = hash ∧ i = qm.nextEntry ∨ hash' ≠ hash ∧ qm.queries.get? hash' = some i ∧ i ≠ qm.nextEntry := by
    intro hash' i hi
    rw [OrderedMap.get?_set] at hi
    split at hi
    · next heq => exact .inl ⟨heq.symm, (Option.some.inj hi).symm⟩
    · next hne => exact .inr ⟨Ne.symm hne, hi, (h.entry_lt hash' i hi).ne⟩
  have hold : ∀ hash' i, qm.queries.get? hash' = some i → (qm.queries.set hash qm.nextEntry).get? hash' = some i := by
    intro hash' i hi
    have hne : hash ≠ hash' := by
      rintro rfl
      rw [hnew] at hi
      cases hi
    rw [OrderedMap.get?_set_of_ne _ _ hne, hi]
  have hentry : ∀ i, i ≠ qm.nextEntry → (qm.setEntry qm.nextEntry entry).entries i = qm.entries i := fun i hi => by
    simp [QueryManager.setEntry, hi]
  exact {
    entry_lt := fun hash' i hi => by
      rcases hget hash' i hi with ⟨-, rfl⟩ | ⟨-, hi, -⟩
      · exact Nat.lt_succ_self _
      · exact (h.entry_lt hash' i hi).trans (Nat.lt_succ_self _)
    injective := fun hash₁ hash₂ i h₁ h₂ => by
      rcases hget hash₁ i h₁ with ⟨rfl, rfl⟩ | ⟨-, h₁, hne⟩
      · rcases hget hash₂ _ h₂ with ⟨rfl, -⟩ | ⟨-, -, hne⟩
        · rfl
        · exact absurd rfl hne
      · rcases hget hash₂ i h₂ with ⟨-, rfl⟩ | ⟨-, h₂, -⟩
        · exact absurd rfl hne
        · exact h.injective hash₁ hash₂ i h₁ h₂
    registered := fun x hx => by
      rcases List.mem_cons.mp hx with rfl | hx
      · exact OrderedMap.get?_set_self ..
      · exact hold x.2 x.1 (h.registered x hx)
    count := fun hash' i hi => by
      rcases hget hash' i hi with ⟨-, rfl⟩ | ⟨-, hi, hne⟩
      · have hnone : held.countP (·.1 == qm.nextEntry) = 0 := List.countP_eq_zero.mpr fun x hx heq =>
          (h.entry_lt x.2 x.1 (h.registered x hx)).ne (by simpa using heq)
        rw [List.countP_cons_of_pos (by simp), hnone]
        simpa [QueryManager.setEntry] using hcount
      · rw [hentry i hne, h.count hash' i hi, List.countP_cons_of_neg (by simpa using Ne.symm hne)]
    recent := fun hash' hhash' => by
      obtain ⟨i, hi, hzero⟩ := h.recent hash' hhash'
      exact ⟨i, hold hash' i hi, by rw [hentry i (h.entry_lt hash' i hi).ne]; exact hzero⟩
    nodup := h.nodup }

/-- `#add` succeeds and returns a callback that holds the entry. -/
theorem Holds.add (h : qm.Holds held) (queryId : κ) (normalized : AST) {name : Option String} {args : Option (List β)}
    (ttl : TTL) (hargs : name.isNone = args.isNone) :
    ∃ qm' i, qm.add queryId normalized name args ttl = .ok qm' ∧ qm'.Holds ((i, queryId) :: held) ∧
      qm'.cleanups = qm.cleanups ++ [⟨i, queryId, false⟩] ∧ qm'.pendingRemovals = qm.pendingRemovals := by
  have hunlisted := h.unlisted queryId
  have hrecent : queryId ∉ qm.recentQueries.erase queryId := h.nodup.not_mem_erase
  unfold QueryManager.add
  rw [if_neg (by simpa using hargs)]
  dsimp only
  split
  · next hnew =>
    refine ⟨_, qm.nextEntry, rfl, ?_, rfl, rfl⟩
    exact (hunlisted.register hnew rfl hrecent).congr rfl rfl rfl rfl
  · next i hi =>
    refine ⟨_, i, rfl, ?_, ?_, ?_⟩
    · exact ((hunlisted.increment hi hrecent).updateEntry i queryId _).congr rfl rfl rfl rfl
    · rw [addCleanup, updateEntry_cleanups]
      rfl
    · rw [addCleanup]
      exact updateEntry_pendingRemovals ..

/-! ## Removals -/

theorem Holds.decrement {i : ℕ} {hash : κ} (h : qm.Holds ((i, hash) :: held)) :
    let released := qm.setEntry i { qm.entries i with count := (qm.entries i).count - 1 }
    released.Holds held ∧ (released.entries i).count = (held.countP (·.1 == i) : ℕ) ∧ hash ∉ qm.recentQueries := by
  have hi : qm.queries.get? hash = some i := h.registered _ (List.mem_cons_self ..)
  have hcount : (qm.entries i).count = (held.countP (·.1 == i) : ℕ) + 1 := by
    rw [h.count hash i hi, List.countP_cons_of_pos (by simp)]
    rfl
  have hpos : (qm.entries i).count ≠ 0 := by omega
  have hrecent : ∀ hash' j, hash' ∈ qm.recentQueries → qm.queries.get? hash' = some j → j ≠ i := by
    rintro hash' j hhash' hj rfl
    obtain ⟨j', hj', hzero⟩ := h.recent hash' hhash'
    obtain rfl := Option.some.inj (hj.symm.trans hj')
    exact hpos hzero
  refine ⟨{ h with
    registered := fun x hx => h.registered x (List.mem_cons_of_mem _ hx)
    count := fun hash' j hj => ?_
    recent := fun hash' hhash' => ?_ }, ?_, fun hmem => hrecent hash i hmem hi rfl⟩
  · simp only [QueryManager.setEntry, Function.update_apply]
    by_cases hij : j = i
    · subst hij
      rw [if_pos rfl]
      show (qm.entries j).count - 1 = _
      omega
    · rw [if_neg hij, h.count hash' j hj, List.countP_cons_of_neg (by simpa using Ne.symm hij)]
  · obtain ⟨j, hj, hzero⟩ := h.recent hash' hhash'
    refine ⟨j, hj, ?_⟩
    simpa [QueryManager.setEntry, hrecent hash' j hhash' hj] using hzero
  · simp only [QueryManager.setEntry, Function.update_self, hcount]
    omega

theorem Holds.evict (h : qm.Holds held) (hne : qm.recentQueries ≠ []) :
    ∃ qm', qm.evict = .ok qm' ∧ qm'.Holds held ∧ qm'.cleanups = qm.cleanups ∧ qm'.pendingRemovals = qm.pendingRemovals := by
  obtain ⟨lru, recent, hrecent⟩ := List.exists_cons_of_ne_nil hne
  obtain ⟨i, hi, hzero⟩ := h.recent lru (hrecent ▸ List.mem_cons_self ..)
  have hhas : qm.has lru = true := by simp [has, OrderedMap.contains, hi]
  have hnodup : lru ∉ recent ∧ recent.Nodup := List.nodup_cons.mp (hrecent ▸ h.nodup)
  have hget : ∀ hash j, (qm.queries.erase lru).get? hash = some j → qm.queries.get? hash = some j := fun hash j hj => by
    rw [OrderedMap.get?_erase] at hj
    split at hj
    · cases hj
    · exact hj
  have hold : ∀ hash j, hash ≠ lru → qm.queries.get? hash = some j → (qm.queries.erase lru).get? hash = some j :=
    fun hash j hhash hj => by rw [OrderedMap.get?_erase, if_neg (Ne.symm hhash), hj]
  let evicted : QueryManager κ β := { qm with queries := qm.queries.erase lru, recentQueries := recent }
  refine ⟨evicted.queueQueryChange (.del lru), by simp [QueryManager.evict, hrecent, hhas, evicted], ?_, rfl, rfl⟩
  have hevicted : evicted.Holds held := {
    entry_lt := fun hash j hj => h.entry_lt hash j (hget hash j hj)
    injective := fun hash hash' j hj hj' => h.injective hash hash' j (hget hash j hj) (hget hash' j hj')
    registered := fun x hx => by
      refine hold x.2 x.1 ?_ (h.registered x hx)
      rintro hlru
      have hx1 : x.1 = i := Option.some.inj ((h.registered x hx).symm.trans (hlru ▸ hi))
      have hpos : 0 < held.countP (·.1 == i) := List.countP_pos_iff.mpr ⟨x, hx, by simpa using hx1⟩
      rw [h.count lru i hi] at hzero
      omega
    count := fun hash j hj => h.count hash j (hget hash j hj)
    recent := fun hash hhash => by
      obtain ⟨j, hj, hz⟩ := h.recent hash (hrecent ▸ List.mem_cons_of_mem _ hhash)
      exact ⟨j, hold hash j (fun heq => hnodup.1 (heq ▸ hhash)) hj, hz⟩
    nodup := hnodup.2 }
  exact hevicted.queueQueryChange _

/-- `#remove` succeeds and gives up its hold. -/
theorem Holds.remove {i : ℕ} {hash : κ} (h : qm.Holds ((i, hash) :: held)) :
    ∃ qm', qm.remove i hash = .ok qm' ∧ qm'.Holds held ∧ qm'.cleanups = qm.cleanups ∧
      qm'.pendingRemovals = qm.pendingRemovals := by
  obtain ⟨hreleased, hcount, hrecent⟩ := h.decrement
  have hi : qm.queries.get? hash = some i := h.registered _ (List.mem_cons_self ..)
  unfold QueryManager.remove
  dsimp only
  split
  · next hzero =>
    have hunlisted : hash ∉ (qm.setEntry i { qm.entries i with count := (qm.entries i).count - 1 }).recentQueries := hrecent
    rw [if_neg hunlisted]
    have hlisted : ({ qm.setEntry i { qm.entries i with count := (qm.entries i).count - 1 } with
        recentQueries := qm.recentQueries ++ [hash] } : QueryManager κ β).Holds held := { hreleased with
      recent := fun hash' hhash' => by
        rcases List.mem_append.mp hhash' with hhash' | hhash'
        · exact hreleased.recent hash' hhash'
        · obtain rfl := List.mem_singleton.mp hhash'
          exact ⟨i, hi, by simpa [QueryManager.setEntry] using hzero⟩
      nodup := hreleased.nodup.append (List.nodup_singleton _) (by simpa using hunlisted) }
    split
    · obtain ⟨qm', hok, hheld, hcleanups, hpending⟩ := hlisted.evict (by simp)
      exact ⟨qm', hok, hheld, hcleanups, hpending⟩
    · exact ⟨_, rfl, hlisted, rfl, rfl⟩
  · exact ⟨_, rfl, hreleased, rfl, rfl⟩

theorem filter_set_perm {α : Type} {p : α → Bool} {l : List α} {k : ℕ} {a b : α} (hk : l[k]? = some a) (ha : p a = true)
    (hb : p b = false) : (l.filter p).Perm (a :: (l.set k b).filter p) := by
  induction l generalizing k with
  | nil => cases hk
  | cons c l ih =>
    cases k with
    | zero =>
      obtain rfl : c = a := by simpa using hk
      simp [ha, hb]
    | succ k =>
      have hih := ih (k := k) (by simpa using hk)
      rw [List.set_cons_succ, List.filter_cons, List.filter_cons]
      split
      · exact (hih.cons c).trans (List.Perm.swap ..)
      · exact hih

/-- Every cleanup callback and every pending removal holds its entry. -/
def Inv (qm : QueryManager κ β) : Prop := qm.Holds qm.holders

theorem Inv.add (h : qm.Inv) {queryId : κ} {normalized : AST} {name : Option String} {args : Option (List β)} {ttl : TTL}
    (hargs : name.isNone = args.isNone) :
    ∃ qm', qm.add queryId normalized name args ttl = .ok qm' ∧ qm'.Inv ∧ qm'.pendingRemovals = qm.pendingRemovals := by
  obtain ⟨qm', i, hok, hheld, hcleanups, hpending⟩ := Holds.add h queryId normalized ttl hargs
  refine ⟨qm', hok, hheld.perm ?_, hpending⟩
  rw [holders, hcleanups, hpending, List.filter_append, List.map_append, List.append_assoc]
  exact List.perm_middle

theorem Inv.update (h : qm.Inv) {queryID : κ} {ttl : TTL} (hq : qm.has queryID = true) :
    ∃ qm', qm.update queryID ttl = .ok qm' ∧ qm'.Inv ∧ qm'.pendingRemovals = qm.pendingRemovals := by
  obtain ⟨i, hi⟩ := Option.isSome_iff_exists.mp hq
  refine ⟨qm.updateEntry i queryID ttl, by simp [QueryManager.update, hi], ?_, by simp⟩
  rw [Inv, holders, updateEntry_cleanups, updateEntry_pendingRemovals]
  exact Holds.updateEntry h i queryID ttl

theorem Inv.cleanup (h : qm.Inv) (size k : ℕ) :
    ∃ qm', qm.cleanup size k = .ok qm' ∧ qm'.Inv ∧ (size = 0 → qm'.pendingRemovals = qm.pendingRemovals) := by
  unfold QueryManager.cleanup
  split
  · exact ⟨qm, rfl, h, fun _ => rfl⟩
  next cb hcb =>
  split
  · exact ⟨qm, rfl, h, fun _ => rfl⟩
  next hlive =>
  have hperm := (filter_set_perm (p := fun cb : CleanupCb κ => !cb.removed) (b := { cb with removed := true }) hcb
    (by simpa using hlive) rfl).map fun cb => (cb.entry, cb.queryId)
  have hheld : ({ qm with cleanups := qm.cleanups.set k { cb with removed := true } } : QueryManager κ β).Holds
      ((cb.entry, cb.queryId) :: ((qm.cleanups.set k { cb with removed := true }).filter fun cb => !cb.removed).map
        (fun cb => (cb.entry, cb.queryId)) ++ qm.pendingRemovals) :=
    (Holds.perm h (hperm.symm.append_right _)).congr rfl rfl rfl rfl
  dsimp only
  split
  · next hsize =>
    refine ⟨_, rfl, (hheld.perm ?_).congr rfl rfl rfl rfl, fun hzero => absurd hzero (by omega)⟩
    show (_ ++ (qm.pendingRemovals ++ [_])).Perm _
    rw [← List.append_assoc]
    exact List.perm_append_singleton ..
  · obtain ⟨qm', hok, hqm', hcleanups, hpending⟩ := hheld.remove
    refine ⟨qm', hok, ?_, fun _ => hpending⟩
    rw [Inv, holders, hcleanups, hpending]
    exact hqm'

theorem Inv.allMutationsApplied (h : qm.Inv) :
    ∃ qm', qm.allMutationsApplied = .ok qm' ∧ qm'.Inv ∧ qm'.pendingRemovals = [] := by
  have hrun : ∀ (removals : List (ℕ × κ)) (q : QueryManager κ β) (rest : List (ℕ × κ)), q.Holds (rest ++ removals) →
      ∃ qm', removals.foldlM (fun q removal => q.remove removal.1 removal.2) q = Except.ok qm' ∧ qm'.Holds rest ∧
        qm'.cleanups = q.cleanups ∧ qm'.pendingRemovals = q.pendingRemovals := by
    intro removals
    induction removals with
    | nil => exact fun q rest hq => ⟨q, rfl, by simpa using hq, rfl, rfl⟩
    | cons removal removals ih =>
      intro q rest hq
      obtain ⟨q₁, hok, hq₁, hcleanups₁, hpending₁⟩ := (hq.perm List.perm_middle.symm).remove
      obtain ⟨q₂, hok₂, hq₂, hcleanups₂, hpending₂⟩ := ih q₁ rest hq₁
      refine ⟨q₂, ?_, hq₂, hcleanups₂.trans hcleanups₁, hpending₂.trans hpending₁⟩
      rw [List.foldlM_cons, hok]
      exact hok₂
  obtain ⟨qm', hok, hheld, hcleanups, hpending⟩ := hrun qm.pendingRemovals { qm with pendingRemovals := [] } _
    (Holds.congr h rfl rfl rfl rfl)
  refine ⟨qm', hok, ?_, hpending⟩
  rw [Inv, holders, hcleanups, hpending]
  simpa using hheld

end ZeroSync.QueryManager
