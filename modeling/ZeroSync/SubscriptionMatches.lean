/-
What `matches` answers to the exact differences of two states: whether a body
would have another result, but for changes in the gaps of its scans.
-/
import ZeroSync.SubscriptionRuns

namespace ZeroSync.Subscriptions

variable {V R : Type} {indexNames : List IndexName} {options : ScanOptions} {key k : String}

theorem anyM_ok {ε α : Type} {f : α → Except ε Bool} {l : List α} (h : ∀ a ∈ l, ∃ b, f a = .ok b) :
    ∃ b, l.anyM f = .ok b ∧ (b = true ↔ ∃ a ∈ l, f a = .ok true) := by
  induction l with
  | nil => exact ⟨false, rfl, ⟨fun h => (by cases h), fun ⟨_, h, _⟩ => absurd h List.not_mem_nil⟩⟩
  | cons a l ih =>
    obtain ⟨b, hb⟩ := h a (List.mem_cons_self ..)
    unfold List.anyM
    rw [hb]
    cases b with
    | true => exact ⟨true, rfl, ⟨fun _ => ⟨a, List.mem_cons_self .., hb⟩, fun _ => rfl⟩⟩
    | false =>
      obtain ⟨b', hb', hiff⟩ := ih fun a' ha' => h a' (List.mem_cons_of_mem _ ha')
      refine ⟨b', hb', hiff.trans ⟨?_, ?_⟩⟩
      · rintro ⟨a', ha', hok⟩
        exact ⟨a', List.mem_cons_of_mem _ ha', hok⟩
      · rintro ⟨a', ha', hok⟩
        rcases List.mem_cons.mp ha' with rfl | ha'
        · cases hb.symm.trans hok
        · exact ⟨a', ha', hok⟩

/-- A key is in a diff of the map of this name. -/
def DiffsMap.Has (diffs : DiffsMap) (name key : String) : Prop := ∃ diff, (name, diff) ∈ diffs ∧ key ∈ diff

/-- The diffs of the primary map, and of each index that is scanned, have just the
keys whose values differ. -/
structure ExactDiffs (s s' : ReadState V indexNames) (scans : List (Scan V)) (diffs : DiffsMap) : Prop where
  primary : ∀ key, diffs.Has "" key ↔ lookup s.map key ≠ lookup s'.map key
  index : ∀ scan ∈ scans, ∀ key, diffs.Has scan.options.target.diffName key ↔
    lookup (s.entries scan.options.target) key ≠ lookup (s'.entries scan.options.target) key

theorem indexName_toDbScanOptions (options : ScanOptions) :
    (toDbScanOptions options).indexName.getD "" = options.target.diffName := by
  unfold toDbScanOptions
  rcases ho : options.target with ⟨_ | start⟩ | ⟨name, _ | start⟩ <;> rfl

theorem readable_of_differs {s s' : ReadState V indexNames} {target : ScanMap}
    (h : lookup (s.entries target) key ≠ lookup (s'.entries target) key) : ∃ k, target.readKey key = .ok k := by
  have hmem : ∀ {l : List (String × V)} {v : V}, lookup l key = some v → ∃ e ∈ l, e.1 = key := by
    intro l v hv
    obtain ⟨e, he, -⟩ := Option.map_eq_some_iff.mp hv
    exact ⟨e, List.mem_of_find?_eq_some he, of_decide_eq_true (List.find?_some he :)⟩
  cases hs : lookup (s.entries target) key with
  | some v =>
    obtain ⟨e, he, rfl⟩ := hmem hs
    exact s.readable target e he
  | none =>
    cases hs' : lookup (s'.entries target) key with
    | some v =>
      obtain ⟨e, he, rfl⟩ := hmem hs'
      exact s'.readable target e he
    | none => exact absurd (hs.trans hs'.symm) h

theorem scanInfoMatchesKey_ok {info : ScanSubscriptionInfo} (hinfo : info.options = toDbScanOptions options)
    {name : String} (h : name = options.target.diffName → ∃ k, options.target.readKey key = .ok k) :
    ∃ b, scanInfoMatchesKey info name key = .ok b := by
  unfold scanInfoMatchesKey
  rw [hinfo]
  dsimp only
  rw [indexName_toDbScanOptions]
  split
  · exact ⟨_, rfl⟩
  · next hname =>
    split
    · exact ⟨_, rfl⟩
    · next hindex =>
      split
      · exact ⟨_, rfl⟩
      · obtain ⟨k, hk⟩ := h (not_not.mp hname)
        cases ho : options.target with
        | primary start =>
          rw [ho] at hindex
          exact absurd rfl hindex
        | index name start =>
          rw [ho] at hk
          obtain ⟨parts, hdec, -⟩ := Fallible.map_ok hk
          rw [hdec]
          exact ⟨_, rfl⟩

/-- What `matches` answers. -/
theorem matches_ok {s s' : ReadState V indexNames} {tx : SubscriptionTransactionWrapper V} {diffs : DiffsMap}
    (hsound : ∀ scan ∈ tx.scans, scan.Sound) (hexact : ExactDiffs s s' tx.scans diffs) :
    ∃ b, tx.matches diffs = .ok b ∧
      (b = true ↔ (∃ key ∈ tx.keys, diffs.Has "" key) ∨
        ∃ scan ∈ tx.scans, ∃ name key, diffs.Has name key ∧ scanInfoMatchesKey scan.info name key = .ok true) := by
  have hkey : ∀ scan ∈ tx.scans, ∀ name diff, (name, diff) ∈ diffs → ∀ key ∈ diff,
      ∃ b, scanInfoMatchesKey scan.info name key = .ok b := by
    intro scan hscan name diff hdiff key hmem
    refine scanInfoMatchesKey_ok (hsound scan hscan).noted fun hname => ?_
    exact readable_of_differs ((hexact.index scan hscan key).mp ⟨diff, hname ▸ hdiff, hmem⟩)
  have hdiff : ∀ scan ∈ tx.scans, ∀ name diff, (name, diff) ∈ diffs →
      ∃ b, scanInfoMatchesDiff scan.info name diff = .ok b ∧
        (b = true ↔ ∃ key ∈ diff, scanInfoMatchesKey scan.info name key = .ok true) := fun scan hscan name diff hdiff =>
    anyM_ok (hkey scan hscan name diff hdiff)
  have hone : ∀ d ∈ diffs, ∃ b, diffMatchesSubscription tx.keys (tx.scans.map Scan.info) d.1 d.2 = .ok b ∧
      (b = true ↔ (d.1 = "" ∧ ∃ key ∈ d.2, key ∈ tx.keys) ∨
        ∃ scan ∈ tx.scans, ∃ key ∈ d.2, scanInfoMatchesKey scan.info d.1 key = .ok true) := by
    rintro ⟨name, diff⟩ hd
    unfold diffMatchesSubscription
    by_cases hname : (decide (name = "") && diff.any tx.keys.contains) = true
    · rw [if_pos hname]
      refine ⟨true, rfl, ⟨fun _ => .inl ?_, fun _ => rfl⟩⟩
      obtain ⟨hempty, hany⟩ := Bool.and_eq_true_iff.mp hname
      obtain ⟨key, hmem, hcontains⟩ := List.any_eq_true.mp hany
      exact ⟨of_decide_eq_true hempty, key, hmem, List.contains_iff_mem.mp hcontains⟩
    · rw [if_neg hname]
      obtain ⟨b, hb, hiff⟩ := anyM_ok (l := tx.scans.map Scan.info)
        (f := fun scanInfo => scanInfoMatchesDiff scanInfo name diff) fun info hinfo => by
          obtain ⟨scan, hscan, rfl⟩ := List.mem_map.mp hinfo
          obtain ⟨b, hb, -⟩ := hdiff scan hscan name diff hd
          exact ⟨b, hb⟩
      refine ⟨b, hb, hiff.trans ⟨?_, ?_⟩⟩
      · rintro ⟨info, hinfo, hok⟩
        obtain ⟨scan, hscan, rfl⟩ := List.mem_map.mp hinfo
        obtain ⟨b', hb', hiff'⟩ := hdiff scan hscan name diff hd
        obtain rfl := Except.ok.inj (hb'.symm.trans hok)
        exact .inr ⟨scan, hscan, hiff'.mp rfl⟩
      · rintro (⟨rfl, key, hmem, hkeys⟩ | ⟨scan, hscan, hkeys⟩)
        · refine absurd (Bool.and_eq_true_iff.mpr ⟨rfl, ?_⟩) hname
          exact List.any_eq_true.mpr ⟨key, hmem, List.contains_iff_mem.mpr hkeys⟩
        · obtain ⟨b', hb', hiff'⟩ := hdiff scan hscan name diff hd
          exact ⟨scan.info, List.mem_map_of_mem hscan, by rw [hb', hiff'.mpr hkeys]⟩
  obtain ⟨b, hb, hiff⟩ := anyM_ok (l := diffs)
    (f := fun d => diffMatchesSubscription tx.keys (tx.scans.map Scan.info) d.1 d.2) fun d hd => by
      obtain ⟨b, hb, -⟩ := hone d hd
      exact ⟨b, hb⟩
  refine ⟨b, hb, hiff.trans ⟨?_, ?_⟩⟩
  · rintro ⟨⟨name, diff⟩, hd, hok⟩
    obtain ⟨b', hb', hiff'⟩ := hone _ hd
    obtain rfl := Except.ok.inj (hb'.symm.trans hok)
    rcases hiff'.mp rfl with ⟨rfl, key, hmem, hkeys⟩ | ⟨scan, hscan, key, hmem, hkeys⟩
    · exact .inl ⟨key, hkeys, diff, hd, hmem⟩
    · exact .inr ⟨scan, hscan, name, key, ⟨diff, hd, hmem⟩, hkeys⟩
  · rintro (⟨key, hkeys, diff, hd, hmem⟩ | ⟨scan, hscan, name, key, ⟨diff, hd, hmem⟩, hkeys⟩)
    · obtain ⟨b', hb', hiff'⟩ := hone _ hd
      exact ⟨_, hd, by rw [hb', hiff'.mpr (.inl ⟨rfl, key, hmem, hkeys⟩)]⟩
    · obtain ⟨b', hb', hiff'⟩ := hone _ hd
      exact ⟨_, hd, by rw [hb', hiff'.mpr (.inr ⟨scan, hscan, key, hmem, hkeys⟩)]⟩

theorem matches_of_result_ne {s s' : ReadState V indexNames} {body : Body V R} {diffs : DiffsMap}
    (horder : body.LimitsInOrder s .new) (hexact : ExactDiffs s s' (body.run s .new).2.scans diffs)
    (hgap : ∀ scan ∈ (body.run s .new).2.scans, ∀ key, diffs.Has scan.options.target.diffName key →
      scan.options.gap key = false)
    (hne : (body.run s' .new).1 ≠ (body.run s .new).1) : (body.run s .new).2.matches diffs = .ok true := by
  have hnew : ∀ scan ∈ (SubscriptionTransactionWrapper.new : SubscriptionTransactionWrapper V).scans, scan.Sound :=
    fun scan h => absurd h List.not_mem_nil
  have hsound := (run_later hnew horder).2
  obtain ⟨b, hb, hiff⟩ := matches_ok hsound hexact
  rw [hb]
  refine congrArg _ (by_contra fun hnot => hne ?_)
  have hnone := mt hiff.mpr hnot
  refine run_alike hnew horder ⟨rfl, fun j scan hj => (by cases hj)⟩ (fun key hkey => ?_) fun f hf key hscope hbound => ?_
  · by_contra hdiffers
    exact hnone (.inl ⟨key, hkey, (hexact.primary key).mpr hdiffers⟩)
  · by_contra hdiffers
    have hhas := (hexact.index f hf key).mpr hdiffers
    exact hnone (.inr ⟨f, hf, _, key, hhas,
      scanInfoMatchesKey_of_inScope (hsound f hf).noted hscope (hgap f hf key hhas) hbound⟩)

/-! ## The gaps -/

theorem matchesIndexKey_eq_false {options : DbScanOptions} {secondary primary : String}
    (h : ((truthy options.startSecondaryKey).any fun s =>
        (options.startExclusive && decide (secondary ≤ s)) || decide (secondary < s)) = true ∨
      ((truthy options.startKey).any fun p =>
        (options.startExclusive && decide (primary ≤ p)) || decide (primary < p)) = true) :
    matchesIndexKey options secondary primary = false := by
  unfold matchesIndexKey
  split
  · rfl
  · split
    · rfl
    · next hsecondary =>
      rw [if_pos (h.resolve_left hsecondary)]

theorem matchesIndexKey_of_gap {start : Start IndexedStartKey} {name : IndexName} {secondary primary : String}
    (ho : options.target = .index name (some start)) (hdec : decodeIndexKey k = .ok (secondary, primary))
    (h : options.gap k = true) :
    ((truthy (toDbScanOptions options).keyPrefix).isNone && (truthy (toDbScanOptions options).startKey).isNone &&
        (truthy (toDbScanOptions options).startSecondaryKey).isNone) = false ∧
      matchesIndexKey (toDbScanOptions options) secondary primary = false := by
  unfold ScanOptions.gap at h
  rw [ho] at h
  simp only [ScanMap.readKey, hdec, Except.map] at h
  obtain ⟨startSecondary, startPrimary, hnorm⟩ :
    ∃ startSecondary startPrimary, normalizeScanOptionIndexedStartKey start.key = (startSecondary, startPrimary) :=
    ⟨_, _, rfl⟩
  have hdb : toDbScanOptions options =
      ⟨options.keyPrefix, some startSecondary, startPrimary, start.exclusive, options.limit, some name⟩ := by
    unfold toDbScanOptions
    rw [ho]
    simp only [hnorm]
  rw [hdb]
  simp only [hnorm] at h ⊢
  rcases Bool.or_eq_true_iff.mp (Bool.and_eq_true_iff.mp h).2 with h | h
  · obtain ⟨h, hsecondary⟩ := Bool.and_eq_true_iff.mp h
    obtain ⟨h, -⟩ := Bool.and_eq_true_iff.mp h
    obtain ⟨hexclusive, hne⟩ := Bool.and_eq_true_iff.mp h
    have htruthy : truthy (some startSecondary) = some startSecondary := by
      unfold truthy
      rw [Option.filter_some, if_pos hne]
    obtain rfl := of_decide_eq_true hsecondary
    refine ⟨by rw [htruthy, Option.isNone_some, Bool.and_false], matchesIndexKey_eq_false (.inl ?_)⟩
    dsimp only
    rw [htruthy, hexclusive, Option.any_some, decide_eq_true (le_refl secondary)]
    rfl
  · cases hp : truthy startPrimary with
    | none =>
      rw [hp] at h
      cases h
    | some p =>
      rw [hp, Option.any_some] at h
      obtain ⟨-, h⟩ := Bool.and_eq_true_iff.mp h
      refine ⟨by rw [Option.isNone_some, Bool.and_false, Bool.false_and], matchesIndexKey_eq_false (.inr ?_)⟩
      dsimp only
      rw [hp, Option.any_some]
      rcases Bool.or_eq_true_iff.mp h with hlt | h
      · rw [hlt, Bool.or_true]
      · obtain ⟨hexclusive, heq⟩ := Bool.and_eq_true_iff.mp h
        rw [hexclusive, decide_eq_true (of_decide_eq_true heq).le]
        rfl

theorem scanInfoMatchesKey_of_gap {info : ScanSubscriptionInfo} (hinfo : info.options = toDbScanOptions options)
    (h : options.gap k = true) : scanInfoMatchesKey info options.target.diffName k = .ok false := by
  have hgap := h
  unfold ScanOptions.gap at h
  obtain ⟨hscope, h⟩ := Bool.and_eq_true_iff.mp h
  unfold scanInfoMatchesKey
  rw [hinfo]
  dsimp only
  rw [indexName_toDbScanOptions]
  simp only [ne_eq, not_true_eq_false, if_false]
  cases ho : options.target with
  | primary start =>
    rw [ho] at h
    have hlimit : info.options.limit = options.limit := by
      rw [hinfo]
      unfold toDbScanOptions
      rw [ho]
      cases start <;> rfl
    simp only [ScanMap.diffName, if_true]
    unfold matchesPrimaryKey
    dsimp only at h ⊢
    rw [hlimit, h, if_pos rfl]
  | index name start =>
    obtain ⟨fromKey, secondary, primary, -, hdec, -⟩ := inScope_index ho hscope
    have hname : (ScanMap.index name start).diffName ≠ "" := name.2
    cases start with
    | none =>
      rw [ho] at h
      cases h
    | some st =>
      obtain ⟨hsome, hmatch⟩ := matchesIndexKey_of_gap ho hdec hgap
      rw [if_neg hname, if_neg (by rw [hsome]; exact Bool.false_ne_true), hdec]
      exact congrArg Except.ok hmatch

def emptyState (V : Type) (indexNames : List IndexName) : ReadState V indexNames where
  map := []
  indexes := fun _ => []
  map_sorted := .nil
  index_sorted := fun _ => .nil
  index_keys := fun _ _ h => absurd h List.not_mem_nil

/-- The names of the indexes that a scan needs. -/
def ScanMap.namesNeeded : ScanMap → List IndexName
  | .primary _ => []
  | .index name _ => [name]

/-- A state with one entry, in the map of a scan that can read it. -/
def singleState (target : ScanMap) (k : String) (v : V) (h : ∃ key, target.readKey k = .ok key) :
    ReadState V target.namesNeeded where
  map := match target with
    | .primary _ => [(k, v)]
    | .index _ _ => []
  indexes := fun name => match target with
    | .primary _ => []
    | .index name' _ => if name = name' then [(k, v)] else []
  map_sorted := by
    cases target with
    | primary start => exact List.pairwise_singleton _ _
    | index name start => exact .nil
  index_sorted := by
    intro name
    cases target with
    | primary start => exact .nil
    | index name' start =>
      dsimp only
      split
      · exact List.pairwise_singleton _ _
      · exact .nil
  index_keys := by
    intro name e he
    cases target with
    | primary start => exact absurd he List.not_mem_nil
    | index name' start =>
      dsimp only at he
      split at he
      · obtain rfl := List.mem_singleton.mp he
        obtain ⟨key, hkey⟩ := h
        obtain ⟨⟨secondary, primary⟩, hdec, -⟩ := Fallible.map_ok hkey
        exact ⟨secondary, primary, encode_of_decode hdec⟩
      · exact absurd he List.not_mem_nil

theorem singleState_entries {target : ScanMap} {v : V} (h : ∃ key, target.readKey k = .ok key) :
    (singleState target k v h).entries target = [(k, v)] := by
  cases target with
  | primary start => rfl
  | index name start => exact if_pos rfl

theorem emptyState_entries (target : ScanMap) : (emptyState V indexNames).entries target = [] := by cases target <;> rfl

theorem has_primary_iff (target : ScanMap) {v : V} (h : ∃ key, target.readKey k = .ok key) (x : String) :
    DiffsMap.Has [(target.diffName, [k])] "" x ↔
      lookup (emptyState V target.namesNeeded).map x ≠ lookup (singleState target k v h).map x := by
  unfold DiffsMap.Has
  cases target with
  | primary start =>
    by_cases hx : k = x
    · subst hx
      simp [ScanMap.diffName, lookup, emptyState, singleState]
    · simp [ScanMap.diffName, lookup, emptyState, singleState, hx, Ne.symm hx]
  | index name start =>
    refine iff_of_false ?_ (fun hne => hne rfl)
    rintro ⟨diff, hmem, -⟩
    exact name.2 (Prod.mk.inj (List.mem_singleton.mp hmem)).1.symm

theorem mapFor_eq (target : ScanMap) (s : ReadState V target.namesNeeded) : s.mapFor target = some (s.entries target) := by
  cases target with
  | primary start => rfl
  | index name start => exact if_pos (List.mem_singleton_self _)

/-- A body that asks a scan for its first entry. -/
def firstOf (options : ScanOptions) : Body V (Except ScanError (Option (ScanKey × V))) :=
  .scan options fun j => .newIterator j fun i => .next j i .result

theorem firstOf_run (options : ScanOptions) (s : ReadState V indexNames) :
    ((firstOf options).run s .new).1 = ((openScan s options).newIterator.next 0).1 ∧
      ((firstOf options).run s .new).2 = ⟨[], [((openScan s options).newIterator.next 0).2]⟩ := ⟨rfl, rfl⟩

theorem firstOf_order (options : ScanOptions) (s : ReadState V indexNames) :
    (firstOf options).LimitsInOrder s .new := by
  refine ⟨fun it key hit _ hyielded _ _ => ?_, trivial⟩
  obtain rfl := Option.some.inj hit
  cases hyielded

theorem next_first {s : ReadState V indexNames} {entries : List (String × V)}
    (h : getScanIterator s options = .ok entries) :
    (openScan s options).newIterator.next 0 = (openScan s options).newIterator.advance 0 options.limit ∧
      (openScan s options).newIterator.generator = .ok entries := ⟨rfl, h⟩

theorem gap_missed (v : V) (h : options.gap k = true) :
    ∃ (s s' : ReadState V options.target.namesNeeded) (diffs : DiffsMap),
      ExactDiffs s s' ((firstOf options).run s .new).2.scans diffs ∧
        ((firstOf options).run s' .new).1 ≠ ((firstOf options).run s .new).1 ∧
        ((firstOf options).run s .new).2.matches diffs = .ok false := by
  have hscope : options.inScope k = true := by
    unfold ScanOptions.gap at h
    exact (Bool.and_eq_true_iff.mp h).1
  -- The scan starts at a key, and can read this one.
  obtain ⟨fromKey, key, hfrom, hkey, hle⟩ : ∃ fromKey key, options.fromKey = .ok fromKey ∧
      options.target.readKey k = .ok key ∧ fromKey ≤ k := by
    unfold ScanOptions.inScope at hscope
    split at hscope
    · next fromKey key hfrom hkey =>
      refine ⟨fromKey, key, hfrom, hkey, ?_⟩
      exact of_decide_eq_true (Bool.and_eq_true_iff.mp (Bool.and_eq_true_iff.mp hscope).1).1
    · cases hscope
  let s : ReadState V options.target.namesNeeded := emptyState V options.target.namesNeeded
  let s' : ReadState V options.target.namesNeeded := singleState options.target k v ⟨key, hkey⟩
  have hempty : getScanIterator s options = .ok [] := by
    unfold getScanIterator
    rw [mapFor_eq, emptyState_entries, hfrom]
    cases options.target <;> rfl
  have hsingle : getScanIterator s' options = .ok [(k, v)] := by
    unfold getScanIterator
    rw [mapFor_eq, singleState_entries, hfrom]
    have hfilter : [(k, v)].filter (fun e => decide (fromKey ≤ e.1)) = [(k, v)] :=
      List.filter_eq_self.mpr fun e he => by
        obtain rfl := List.mem_singleton.mp he
        exact decide_eq_true hle
    change (Except.ok ([(k, v)].filter fun e => decide (fromKey ≤ e.1)) : Except ScanError (List (String × V))) = _
    rw [hfilter]
  have hpull : pull options [(k, v)] = (.ok (some (k, key, v)), []) := by
    have hgives := inScope_eq hfrom hle hkey
    rw [hscope] at hgives
    obtain ⟨hstarts, hskip⟩ := Bool.and_eq_true_iff.mp hgives.symm
    unfold pull
    simp only [hkey, hstarts, Bool.not_true, Bool.false_eq_true, if_false]
    rw [if_neg (by simpa using hskip)]
  have hscan : ((openScan s options).newIterator.next 0).2.info = ⟨toDbScanOptions options, none⟩ ∧
      ((openScan s options).newIterator.next 0).2.options = options ∧
      ((openScan s options).newIterator.next 0).1 = .ok none := by
    rw [(next_first hempty).1]
    unfold Scan.advance
    rw [(next_first hempty).2]
    exact ⟨rfl, rfl, rfl⟩
  have hdiffers : ∀ x, lookup (s.entries options.target) x ≠ lookup (s'.entries options.target) x ↔ x = k := by
    intro x
    rw [emptyState_entries, singleState_entries]
    by_cases hx : k = x
    · subst hx
      simp [lookup]
    · simp [lookup, hx, Ne.symm hx]
  have hhas : ∀ x, DiffsMap.Has [(options.target.diffName, [k])] options.target.diffName x ↔ x = k := by
    intro x
    unfold DiffsMap.Has
    simp
  have hexact : ExactDiffs s s' ((firstOf options).run s .new).2.scans [(options.target.diffName, [k])] := by
    refine ⟨fun x => has_primary_iff options.target ⟨key, hkey⟩ x, fun scan hmem x => ?_⟩
    · rw [(firstOf_run options s).2] at hmem
      obtain rfl := List.mem_singleton.mp hmem
      rw [hscan.2.1]
      exact (hhas x).trans (hdiffers x).symm
  refine ⟨s, s', [(options.target.diffName, [k])], hexact, ?_, ?_⟩
  · rw [(firstOf_run options s).1, (firstOf_run options s').1, hscan.2.2, (next_first hsingle).1]
    unfold Scan.advance
    rw [(next_first hsingle).2]
    simp only
    have hoptions : (openScan s' options).newIterator.options = options := rfl
    rw [hoptions, hpull]
    intro heq
    cases heq
  · have hsound : ∀ scan ∈ ((firstOf options).run s .new).2.scans, scan.Sound :=
      (run_later (fun scan h => absurd h List.not_mem_nil) (firstOf_order options s)).2
    obtain ⟨b, hb, hiff⟩ := matches_ok hsound hexact
    rw [hb]
    refine congrArg _ (Bool.eq_false_iff.mpr fun htrue => ?_)
    rcases hiff.mp htrue with ⟨x, hx, -⟩ | ⟨scan, hmem, name, x, ⟨diff, hdiff, hx⟩, hmatch⟩
    · rw [(firstOf_run options s).2] at hx
      exact absurd hx List.not_mem_nil
    · rw [(firstOf_run options s).2] at hmem
      obtain rfl := List.mem_singleton.mp hmem
      obtain ⟨rfl, rfl⟩ := Prod.mk.inj (List.mem_singleton.mp hdiff)
      obtain rfl := List.mem_singleton.mp hx
      have hinfo : ((openScan s options).newIterator.next 0).2.info.options = toDbScanOptions options := by
        rw [hscan.1]
      have hfalse := scanInfoMatchesKey_of_gap hinfo h
      cases hfalse.symm.trans hmatch

/-- **When a body would have another result, the exact diffs match what it has noted,
unless a changed key is in a gap of one of its scans; and a change of a key in a
gap is missed.** -/
theorem subscription_matches (V R : Type) :
    (∀ (indexNames : List IndexName) (s s' : ReadState V indexNames) (body : Body V R) (diffs : DiffsMap),
      body.LimitsInOrder s .new → ExactDiffs s s' (body.run s .new).2.scans diffs →
      (∀ scan ∈ (body.run s .new).2.scans, ∀ key, diffs.Has scan.options.target.diffName key →
        scan.options.gap key = false) →
      (body.run s' .new).1 ≠ (body.run s .new).1 → (body.run s .new).2.matches diffs = .ok true) ∧
    ∀ (_ : V) (options : ScanOptions) (k : String), options.gap k = true →
      ∃ (s s' : ReadState V options.target.namesNeeded) (diffs : DiffsMap),
        ExactDiffs s s' ((firstOf options).run s .new).2.scans diffs ∧
          ((firstOf options).run s' .new).1 ≠ ((firstOf options).run s .new).1 ∧
          ((firstOf options).run s .new).2.matches diffs = .ok false :=
  ⟨fun _ _ _ _ _ horder hexact hgap hne => matches_of_result_ne horder hexact hgap hne,
    fun v _ _ h => gap_missed v h⟩

/-- A scan by prefix, with a limit of one entry. -/
def prefixed : ScanOptions := ⟨some "p", some 1, .primary none⟩

/-- An entry comes into the scope of a scan. -/
theorem subscription_matches_prefixed :
    ((firstOf prefixed).run (emptyState Unit []) .new).2.matches [("", ["p1"])] = .ok true := by
  refine (subscription_matches Unit _).1 [] (emptyState Unit []) (singleState (.primary none) "p1" () ⟨_, rfl⟩)
    (firstOf prefixed) [("", ["p1"])] (firstOf_order _ _) ⟨fun x => has_primary_iff (.primary none) ⟨_, rfl⟩ x, ?_⟩ ?_ ?_
  · intro scan hmem x
    obtain rfl := List.mem_singleton.mp hmem
    exact has_primary_iff (.primary none) ⟨_, rfl⟩ x
  · intro scan hmem x hx
    obtain rfl := List.mem_singleton.mp hmem
    obtain ⟨diff, hdiff, hx⟩ := hx
    obtain ⟨-, rfl⟩ := Prod.mk.inj (List.mem_singleton.mp hdiff)
    obtain rfl := List.mem_singleton.mp hx
    decide
  · intro heq
    cases heq

/-- The entries of an index from the secondary key `a` and the primary key `m` on. -/
def fromPair : ScanOptions := ⟨none, none, .index ⟨"i", by decide⟩ (some ⟨.tuple "a" (some "m"), false⟩)⟩

/-- The scan gives the entry of the keys `b` and `c`, which comes after its start, and
its change is missed, as `c` comes before `m`. -/
theorem subscription_misses_pair :
    let s : ReadState Unit fromPair.target.namesNeeded := emptyState Unit _
    let s' := singleState fromPair.target "\x00b\x00c" () ⟨.index "b" "c", rfl⟩
    ((firstOf fromPair).run s .new).1 = .ok none ∧
      ((firstOf fromPair).run s' .new).1 = .ok (some (.index "b" "c", ())) ∧
      ExactDiffs s s' ((firstOf fromPair).run s .new).2.scans [("i", ["\x00b\x00c"])] ∧
      ((firstOf fromPair).run s .new).2.matches [("i", ["\x00b\x00c"])] = .ok false := by
  refine ⟨rfl, rfl, ⟨?_, ?_⟩, rfl⟩
  · exact fun x => has_primary_iff fromPair.target ⟨.index "b" "c", rfl⟩ x
  · intro scan hmem x
    obtain rfl := List.mem_singleton.mp hmem
    by_cases hx : "\x00b\x00c" = x
    · subst hx
      refine iff_of_true ⟨_, List.mem_singleton_self _, List.mem_singleton_self _⟩ fun heq => ?_
      cases heq
    · refine iff_of_false ?_ fun hne => hne ?_
      · rintro ⟨diff, hdiff, hmem⟩
        obtain ⟨-, rfl⟩ := Prod.mk.inj (List.mem_singleton.mp hdiff)
        exact hx (List.mem_singleton.mp hmem).symm
      · change none = ([("\x00b\x00c", ())].find? fun e => decide (e.1 = x)).map Prod.snd
        rw [List.find?_cons_of_neg (by simpa using hx)]
        rfl

end ZeroSync.Subscriptions
